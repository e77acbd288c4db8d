import IniScan.Kind
import IniScan.Text.Basic

/-!
# Tokens

A token has a kind and lies between two byte offsets of the text that it was read from. Offsets have 32 bits.
-/
namespace IniScan

/-- A kind and the place that it has in the text. -/
structure Token where
  kind : Kind
  start : UInt32
  stop : UInt32
  deriving DecidableEq, Repr

namespace Token

/-- The number of bytes, unless the token ends before it starts. -/
def size? (t : Token) : Option UInt32 := if t.start ≤ t.stop then some (t.stop - t.start) else none

def isEmpty (t : Token) : Bool := t.start = t.stop

/-- The part of the text that the token covers, if its offsets are in order and between characters of the text. -/
def text? (t : Token) (source : List Char) : Option (List Char) :=
  Text.slice? source t.start.toNat t.stop.toNat

def describe (t : Token) : String :=
  t.kind.name ++ "@" ++ toString t.start.toNat ++ ".." ++ toString t.stop.toNat

end Token

end IniScan
