import IniScan.Section.Match

/-!
# Section names spelled out

`Section.opens`, `Section.ofWord?` and `Section.headerSuffixKinds` go by the vocabulary and by texts in lower case. The same
is told here letter by letter and name by name: a word is compared with a name as far as both go, of several longest names
the last one counts, and the kinds behind a name stand in a table that has the names of its own.

* `opensPairwise`, `ofWordPairwise?`, `kindsSpelled`.
-/
namespace IniScan.Section

/-- The word is no shorter than the name of the section, and its first letters agree with those of the name in pairs. -/
def opensPairwise (k : Section) (w : Word) : Bool :=
  k.letters.length ≤ w.length && (k.letters.zip w.chars).all fun p => p.1.toLower == p.2.toLower

/-- The last of the longest names at the start of the word. -/
def ofWordPairwise? (w : Word) : Option Section :=
  (all.filter (·.opensPairwise w)).reverse.maxOn? (·.letters.length)

/-- The kinds in which a grammar takes the rest of the header after a name in lower case, none after any other text. -/
def kindsSpelled : String → KindSet
  | "key" => {Kind.keySuffix}
  | "preset" => {Kind.presetSuffix}
  | "resource" => {Kind.resourceSuffix}
  | "include" => {Kind.includeSuffix}
  | "shaderregex" => KindSet.regex
  | "builtincommandlist" | "builtincustomshader" | "commandlist" | "customshader" | "shaderoverride"
  | "textureoverride" => {Kind.commandListSuffix}
  | _ => ∅

end IniScan.Section
