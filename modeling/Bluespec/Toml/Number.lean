import Bluespec.Toml.Lexeme

namespace Bluespec.Toml

open Reader

inductive Decimal where
  | finite (mantissa : Int) (exponent : Int)
  | infinite (negative : Bool)
  | nan
deriving DecidableEq, Repr

def digitGroups (isDigit : Char → Bool) : Reader (List Char) := do
  let groups ← separated (takeWhile1 isDigit) (char '_')
  return groups.flatten

def sign : Reader Bool := do
  match ← optional (satisfy fun c => c == '+' || c == '-') with
  | some '-' => return true
  | _ => return false

def decimalDigits : Reader (List Char) := do
  match ← peek with
  | some '0' => let _ ← satisfy (· == '0'); return ['0']
  | _ => digitGroups Char.isDigit

def signed (negative : Bool) (n : Nat) : Int := if negative then -n else n

def inRange (i : Int) : Bool := -9223372036854775808 ≤ i && i ≤ 9223372036854775807

def radixInteger (mark : String) (base : Nat) (isDigit : Char → Bool) : Reader Int := do
  word mark
  let cs ← digitGroups isDigit
  return valueInBase base cs

def decimalInteger : Reader Int := do
  let negative ← sign
  let cs ← decimalDigits
  return signed negative (valueInBase 10 cs)

def integer : Reader Int := do
  let i ← radixInteger "0x" 16 isHexDigit <|>
    radixInteger "0o" 8 (fun c => '0' ≤ c && c ≤ '7') <|>
    radixInteger "0b" 2 (fun c => c == '0' || c == '1') <|> decimalInteger
  if inRange i then return i else failure

def fraction : Reader (List Char) := do
  char '.'
  digitGroups Char.isDigit

def exponent : Reader Int := do
  let _ ← satisfy fun c => c == 'e' || c == 'E'
  let negative ← sign
  let cs ← digitGroups Char.isDigit
  return signed negative (valueInBase 10 cs)

/-- The least number that rounds to infinity in double precision lies half a unit above the
largest finite one. -/
def overflowBound : Nat := Nat.pow 2 1024 - Nat.pow 2 970

def overflowDigits : Nat := 309

/-- Whether `m * 10 ^ e` is too large for double precision. Only an exponent near the bound makes
it necessary to compute the power. -/
def overflows (m : Nat) (e : Int) : Bool :=
  let magnitude := (Nat.toDigits 10 m).length + e
  if m = 0 ∨ magnitude < overflowDigits then false
  else if magnitude > overflowDigits then true
  else if 0 ≤ e then overflowBound ≤ m * Nat.pow 10 e.toNat
  else overflowBound * Nat.pow 10 (-e).toNat ≤ m

def finiteDecimal : Reader Decimal := do
  let negative ← sign
  let whole ← decimalDigits
  let frac ← optional fraction
  let exp ← optional exponent
  if frac.isNone ∧ exp.isNone then failure
  let places := frac.getD []
  let m := valueInBase 10 (whole ++ places)
  let e := exp.getD 0 - places.length
  if !negative ∧ overflows m e then failure
  return .finite (signed negative m) e

def specialDecimal : Reader Decimal := do
  let negative ← sign
  (do word "inf"; return .infinite negative) <|> (do word "nan"; return .nan)

def decimal : Reader Decimal := finiteDecimal <|> specialDecimal

end Bluespec.Toml
