import IniScan.MatchMode
import IniScan.Section
import IniScan.Word.Basic

/-!
# Telling section names from other texts

A text is compared with the vocabulary as a whole (`isName`). A word collected from the start of a header is looked
through for a section name (`ofWord?`): in exact mode the name must stand at its start, so that what follows
is the subject; in substring mode it may stand anywhere.
-/
namespace IniScan.Section

/-- The text is a section name, or in substring mode contains one. Case does not count. -/
def isName (mode : MatchMode) (s : List Char) : Bool :=
  match mode with
  | .exact => (all.map letters).contains (Text.lower s)
  | .substring => all.any fun k => Text.occursIn k.letters (Text.lower s)

/-- The word begins with the name of the section. Case does not count. -/
def opens (k : Section) (w : Word) : Bool := k.letters.isPrefixOf w.lower

/-- The section that the word names: in exact mode the longest name at its start, in substring mode the first of
the vocabulary that it contains. -/
def ofWord? (mode : MatchMode) (w : Word) : Option Section :=
  match mode with
  | .exact => (all.filter (·.opens w)).maxOn? (·.letters.length)
  | .substring => all.find? fun k => Text.occursIn k.letters w.lower

end IniScan.Section
