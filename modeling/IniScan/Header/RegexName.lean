import IniScan.Header.Subject
import IniScan.Kind
import IniScan.Word.Basic

/-!
# Names of regex headers

Four headers begin with `ShaderRegex` and a name, and differ only in the dotted part that may follow: none,
`.InsertDeclarations`, `.Pattern` or `.Pattern.Replace`. Case does not count.

The name is read in one pass that never looks back. Behind a dot it collects a word if the word's first letter is
that of a known part. A word that turns out to be something else leaves the reader inside the name again, and the dot
that ended it is used up. So `.x.pattern` ends in a known part and `.pat.pattern` does not.
-/
namespace IniScan.Header.RegexName

def insertDeclarations : List Char := "insertdeclarations".toList

def pattern : List Char := "pattern".toList

def replace : List Char := "replace".toList

/-- Where the reader stands in the name. -/
inductive State where
  /-- In the name, or in a dotted part that is none of the known ones. -/
  | outside
  /-- Right behind a dot. -/
  | dot
  /-- In a part that begins with `i`. -/
  | insert (part : Word)
  /-- In a part that begins with `p`. -/
  | pattern (part : Word)
  /-- In the part behind `.pattern.`. -/
  | replace (part : Word)
  deriving DecidableEq, Repr

/-- The state behind one more character of the name. -/
def State.next (c : Char) : State → State
  | outside => if c = '.' then dot else outside
  | dot =>
    if c = 'i' ∨ c = 'I' then insert (Word.empty.push c)
    else if c = 'p' ∨ c = 'P' then pattern (Word.empty.push c)
    else outside
  | insert part => if c = '.' then outside else insert (part.push c)
  | pattern part =>
    if c = '.' then
      if part.eqIgnoreCase RegexName.pattern then replace Word.empty else outside
    else pattern (part.push c)
  | replace part => if c = '.' then outside else replace (part.push c)

/-- The kind of a header whose name is closed here. -/
def State.kind : State → Kind
  | outside | dot => .regexCommandList
  | insert part =>
    if part.eqIgnoreCase insertDeclarations then .regexInsertDeclarations else .regexCommandList
  | pattern part => if part.eqIgnoreCase RegexName.pattern then .regexPattern else .regexCommandList
  | replace part => if part.eqIgnoreCase RegexName.replace then .regexPatternReplace else .regexCommandList

/-- Tells the kind of the header. A name that runs to the end of the text is a command list, whatever it ends in. -/
def reader : Reader State Kind where
  start := .outside
  step s c := if Subject.isClosing c then .stop ⟨s.kind, true⟩ else .go .take (s.next c)
  atEnd _ := ⟨.regexCommandList, true⟩

end IniScan.Header.RegexName
