namespace Bluespec.Numeral

def limit : Nat := Nat.pow 2 64

def digit (c : Char) : Nat := c.toNat - '0'.toNat

def value (cs : List Char) : Nat := cs.foldl (fun n c => 10 * n + digit c) 0

def unsigned? (cs : List Char) : Option Nat :=
  if cs ≠ [] ∧ cs.all Char.isDigit ∧ value cs < limit then some (value cs) else none

/-- Read an optional plus sign and at least one decimal digit; leading zeros are allowed. -/
def read? (text : String) : Option Nat :=
  match text.toList with
  | '+' :: cs => unsigned? cs
  | cs => unsigned? cs

def write (n : Nat) : String := toString n

theorem value_toDigits (n : Nat) : value (Nat.toDigits 10 n) = n := by
  have h := Nat.ofDigitChars_ten_toDigits (n := n)
  rw [Nat.ofDigitChars_eq_foldl] at h
  exact h

theorem eq_of_write {m n : Nat} (h : write m = write n) : m = n := by
  have hdigits : Nat.toDigits 10 m = Nat.toDigits 10 n := by
    rw [← Nat.toList_repr, ← Nat.toList_repr]
    exact congrArg String.toList h
  rw [← value_toDigits m, hdigits, value_toDigits]

theorem unsigned?_toDigits {n : Nat} (h : n < limit) : unsigned? (Nat.toDigits 10 n) = some n := by
  have hdigits : (Nat.toDigits 10 n).all Char.isDigit = true :=
    List.all_eq_true.mpr fun _ hc => Nat.isDigit_of_mem_toDigits (by decide) (by decide) hc
  rw [unsigned?, value_toDigits]
  exact if_pos ⟨Nat.toDigits_ne_nil, hdigits, h⟩

theorem read?_write {n : Nat} (h : n < limit) : read? (write n) = some n := by
  have hlist : (write n).toList = Nat.toDigits 10 n := Nat.toList_repr
  rw [read?, hlist]
  split
  · rename_i cs hplus
    have hdigit : Char.isDigit '+' = true :=
      Nat.isDigit_of_mem_toDigits (by decide) (by decide) (hplus ▸ List.mem_cons_self)
    exact absurd hdigit (by decide)
  · exact unsigned?_toDigits h

end Bluespec.Numeral
