/-!
# Kinds of tokens

The sixteen kinds that a grammar of 3Dmigoto INI files may ask for. A kind's index is its bit in a set of kinds and its place in the
flags that a host passes, so the order of the constructors is part of the interface.

* `ofIndex?_eq_some_iff`: reading an index inverts `index`.
* `mem_all`: the list `all` leaves no kind out.
-/
namespace IniScan

/-- What a token is to the grammar. -/
inductive Kind where
  /-- Content of a line in a section; zero-width for a comment or a blank line. -/
  | externalLine
  /-- Zero-width, before the `[` of a header whose name is a section name. -/
  | headerStart
  | keySuffix
  | presetSuffix
  | resourceSuffix
  /-- The only subject of a header that may be empty. -/
  | includeSuffix
  | commandListSuffix
  /-- The name of a regex header without one of the known dotted parts at its end. -/
  | regexCommandList
  | regexInsertDeclarations
  | regexPattern
  | regexPatternReplace
  /-- The `\` that opens a path. -/
  | namespaceStart
  | namespaceContent
  /-- The `\` that closes a path. -/
  | namespaceEnd
  /-- Zero-width, after a run of whitespace that holds a line end or reaches the end of the text. -/
  | lineBoundary
  /-- Offered only while the grammar recovers from an error; no token has this kind. -/
  | errorSentinel
  deriving DecidableEq, Repr

namespace Kind

/-- All kinds by index. -/
def all : List Kind :=
  [externalLine, headerStart, keySuffix, presetSuffix, resourceSuffix, includeSuffix, commandListSuffix,
    regexCommandList, regexInsertDeclarations, regexPattern, regexPatternReplace, namespaceStart,
    namespaceContent, namespaceEnd, lineBoundary, errorSentinel]

theorem mem_all (k : Kind) : k ∈ all := by cases k <;> decide

/-- The kinds of a header's subject, the preferred one first. -/
def suffixed : List Kind := [keySuffix, presetSuffix, resourceSuffix, includeSuffix, commandListSuffix]

def index : Kind → Nat
  | externalLine => 0
  | headerStart => 1
  | keySuffix => 2
  | presetSuffix => 3
  | resourceSuffix => 4
  | includeSuffix => 5
  | commandListSuffix => 6
  | regexCommandList => 7
  | regexInsertDeclarations => 8
  | regexPattern => 9
  | regexPatternReplace => 10
  | namespaceStart => 11
  | namespaceContent => 12
  | namespaceEnd => 13
  | lineBoundary => 14
  | errorSentinel => 15

theorem index_lt (k : Kind) : k.index < 16 := by cases k <;> decide

def ofIndex? (i : Nat) : Option Kind := all[i]?

theorem ofIndex?_index (k : Kind) : ofIndex? k.index = some k := by cases k <;> rfl

theorem index_inj {j k : Kind} : j.index = k.index ↔ j = k :=
  ⟨fun h => Option.some.inj (by rw [← ofIndex?_index, h, ofIndex?_index]), fun h => h ▸ rfl⟩

theorem ofIndex?_eq_some_iff {i : Nat} {k : Kind} : ofIndex? i = some k ↔ k.index = i := by
  refine ⟨fun h => ?_, fun h => h ▸ ofIndex?_index k⟩
  obtain ⟨hi, rfl⟩ := List.getElem?_eq_some_iff.1 h
  have key : ∀ i (hi : i < all.length), (all[i]).index = i := by decide
  exact key i hi

theorem exists_index {i : Nat} (h : i < 16) : ∃ k : Kind, k.index = i :=
  ⟨all[i], ofIndex?_eq_some_iff.1 (List.getElem?_eq_getElem h)⟩

/-- Kinds are ordered by index. -/
instance : Ord Kind := ⟨fun j k => compare j.index k.index⟩

instance : Hashable Kind := ⟨fun k => hash k.index⟩

/-- The grammar's name for the kind. -/
def name : Kind → String
  | externalLine => "external_line"
  | headerStart => "header_start"
  | keySuffix => "key_suffix"
  | presetSuffix => "preset_suffix"
  | resourceSuffix => "resource_suffix"
  | includeSuffix => "include_suffix"
  | commandListSuffix => "command_list_suffix"
  | regexCommandList => "regex_command_list"
  | regexInsertDeclarations => "regex_insert_declarations"
  | regexPattern => "regex_pattern"
  | regexPatternReplace => "regex_pattern_replace"
  | namespaceStart => "namespace_start"
  | namespaceContent => "namespace_content"
  | namespaceEnd => "namespace_end"
  | lineBoundary => "line_boundary"
  | errorSentinel => "error_sentinel"

end Kind

end IniScan
