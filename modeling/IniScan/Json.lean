/-!
# JSON values

A number keeps the form in which it is written, because a reader of whole numbers takes neither `-0` nor `1.0`.
An object keeps its fields in order; a name should stand in it once.
-/
namespace IniScan

/-- A value. -/
inductive Json where
  | null
  | bool (b : Bool)
  /-- A number without sign, fraction and exponent. -/
  | natural (n : Nat)
  /-- A minus sign and such a number. -/
  | negative (n : Nat)
  /-- Any other number, `mantissa` times ten to the power of `exponent`. -/
  | decimal (mantissa exponent : Int)
  | string (s : String)
  | array (items : List Json)
  | object (fields : List (String × Json))

namespace Json

/-- The value of the field with this name. -/
def field? (name : String) (fields : List (String × Json)) : Option Json := fields.lookup name

/-! ## Text -/

/-- Four hexadecimal digits. -/
def hex4 (n : Nat) : String :=
  let digits := Nat.toDigits 16 n
  String.ofList (List.replicate (4 - digits.length) '0' ++ digits)

/-- How a character stands in a string. -/
def escape (c : Char) : String :=
  match c with
  | '"' => "\\\""
  | '\\' => "\\\\"
  | '\n' => "\\n"
  | '\r' => "\\r"
  | '\t' => "\\t"
  | '\x08' => "\\b"
  | '\x0c' => "\\f"
  | c => if c.toNat < 0x20 then "\\u" ++ hex4 c.toNat else c.toString

def quote (s : String) : String := "\"" ++ String.join (s.toList.map escape) ++ "\""

mutual

/-- The value without blanks between its parts. -/
def render : Json → String
  | null => "null"
  | bool b => if b then "true" else "false"
  | natural n => toString n
  | negative n => "-" ++ toString n
  | decimal mantissa exponent => toString mantissa ++ "e" ++ toString exponent
  | string s => quote s
  | array items => "[" ++ ",".intercalate (renderItems items) ++ "]"
  | object fields => "\x7b" ++ ",".intercalate (renderFields fields) ++ "\x7d"

def renderItems : List Json → List String
  | [] => []
  | j :: js => j.render :: renderItems js

def renderFields : List (String × Json) → List String
  | [] => []
  | (name, j) :: fs => (quote name ++ ":" ++ j.render) :: renderFields fs

end

end Json

end IniScan
