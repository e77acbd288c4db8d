/-!
# Quoted text

A text is shown between double quotes. The quote and the backslash are escaped by a backslash, line feed,
carriage return, tab and NUL have a letter (or digit) of their own, and any other control character of the ASCII
range is shown by its number in hexadecimal between braces. An apostrophe stands as it is.
-/
namespace IniScan.Text.Quoted

/-- How one character is shown. -/
def escape (c : Char) : String :=
  match c with
  | '"' => "\\\""
  | '\\' => "\\\\"
  | '\n' => "\\n"
  | '\r' => "\\r"
  | '\t' => "\\t"
  | '\x00' => "\\0"
  | c =>
    if c.toNat < 0x20 ∨ c.toNat = 0x7F then
      "\\u\x7b" ++ String.ofList (Nat.toDigits 16 c.toNat) ++ "\x7d"
    else c.toString

def quote (s : List Char) : String := "\"" ++ String.join (s.map escape) ++ "\""

end IniScan.Text.Quoted
