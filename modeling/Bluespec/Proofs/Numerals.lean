import Bluespec.TypeExpr
import Mathlib.Logic.Basic

namespace Bluespec

namespace Numeral

/-- A digit, or a number with one digit more. -/
inductive Decimal : List Char → Nat → Prop
  | one {d : Nat} (hd : d < 10) : Decimal [d.digitChar] d
  | more {cs : List Char} {n d : Nat} (h : Decimal cs n) (hd : d < 10) :
    Decimal (cs ++ [d.digitChar]) (10 * n + d)

def Spells (text : String) (n : Nat) : Prop :=
  ∃ cs, Decimal cs n ∧ (text.toList = cs ∨ text.toList = '+' :: cs)

variable {cs : List Char} {c : Char} {text : String} {n d : Nat}

theorem digit_digitChar (hd : d < 10) : digit d.digitChar = d := by
  rw [digit, Nat.toNat_digitChar_of_lt_ten hd]
  exact Nat.add_sub_cancel_left 48 d

theorem digitChar_digit (hc : c.isDigit = true) : digit c < 10 ∧ (digit c).digitChar = c := by
  obtain ⟨hzero, hnine⟩ := Char.isDigit_iff_toNat.mp hc
  have hlow : 48 ≤ c.toNat := hzero
  have hhigh : c.toNat ≤ 57 := hnine
  have hlt : c.toNat - 48 < 10 := by omega
  have hcode : (digit c).digitChar.toNat = 48 + (c.toNat - 48) := Nat.toNat_digitChar_of_lt_ten hlt
  exact ⟨hlt, Char.toNat_inj.mp (by omega)⟩

theorem value_concat (cs : List Char) (c : Char) :
    value (cs ++ [c]) = 10 * value cs + digit c := by
  rw [value, List.foldl_append]
  rfl

namespace Decimal

theorem ne_nil (h : Decimal cs n) : cs ≠ [] := by
  cases h <;> simp

theorem value_eq (h : Decimal cs n) : value cs = n := by
  induction h with
  | one hd => simp [value, digit_digitChar hd]
  | more _ hd ih => rw [value_concat, ih, digit_digitChar hd]

theorem isDigit_of_mem (h : Decimal cs n) (hc : c ∈ cs) : c.isDigit = true := by
  induction h with
  | one hd =>
    obtain rfl := List.mem_singleton.mp hc
    simp [Nat.isDigit_digitChar, hd]
  | more _ hd ih =>
    rcases List.mem_append.mp hc with hc | hc
    · exact ih hc
    · obtain rfl := List.mem_singleton.mp hc
      simp [Nat.isDigit_digitChar, hd]

theorem not_plus : ¬ Decimal ('+' :: cs) n :=
  fun h => absurd (h.isDigit_of_mem List.mem_cons_self) (by decide)

theorem one_of_isDigit (hc : c.isDigit = true) : Decimal [c] (digit c) := by
  obtain ⟨hlt, hchar⟩ := digitChar_digit hc
  have h := Decimal.one hlt
  rwa [hchar] at h

theorem more_of_isDigit (h : Decimal cs n) (hc : c.isDigit = true) :
    Decimal (cs ++ [c]) (10 * n + digit c) := by
  obtain ⟨hlt, hchar⟩ := digitChar_digit hc
  have h := h.more hlt
  rwa [hchar] at h

theorem append (h : Decimal cs n) {ds : List Char} (hds : ∀ c ∈ ds, c.isDigit = true) :
    Decimal (cs ++ ds) (ds.foldl (fun n c => 10 * n + digit c) n) := by
  induction ds generalizing cs n with
  | nil => simpa using h
  | cons c ds ih =>
    obtain ⟨hc, hrest⟩ := List.forall_mem_cons.mp hds
    simpa using ih (h.more_of_isDigit hc) hrest

end Decimal

theorem decimal_value (hne : cs ≠ []) (hcs : ∀ c ∈ cs, c.isDigit = true) :
    Decimal cs (value cs) := by
  cases cs with
  | nil => exact absurd rfl hne
  | cons c cs =>
    obtain ⟨hc, hrest⟩ := List.forall_mem_cons.mp hcs
    simpa [value] using (Decimal.one_of_isDigit hc).append hrest

theorem unsigned?_eq_some : unsigned? cs = some n ↔ Decimal cs n ∧ n < limit := by
  rw [unsigned?]
  constructor
  · intro h
    split at h
    · rename_i hread
      obtain ⟨hne, hdigits, hlt⟩ := hread
      obtain rfl := Option.some.inj h
      exact ⟨decimal_value hne (List.all_eq_true.mp hdigits), hlt⟩
    · cases h
  · rintro ⟨h, hlt⟩
    have hdigits : cs.all Char.isDigit = true :=
      List.all_eq_true.mpr fun c hc => h.isDigit_of_mem hc
    rw [h.value_eq, if_pos ⟨h.ne_nil, hdigits, hlt⟩]

theorem spells_signed (htext : text.toList = '+' :: cs) : Spells text n ↔ Decimal cs n := by
  constructor
  · rintro ⟨ds, hds, hplain | hsigned⟩
    · rw [← hplain, htext] at hds
      exact absurd hds Decimal.not_plus
    · obtain rfl : cs = ds := List.tail_eq_of_cons_eq (htext.symm.trans hsigned)
      exact hds
  · exact fun h => ⟨cs, h, .inr htext⟩

theorem spells_unsigned (htext : ∀ cs, text.toList ≠ '+' :: cs) :
    Spells text n ↔ Decimal text.toList n := by
  constructor
  · rintro ⟨ds, hds, hplain | hsigned⟩
    · exact hplain ▸ hds
    · exact absurd hsigned (htext ds)
  · exact fun h => ⟨_, h, .inl rfl⟩

/-- Numbers of 64 bits are read from their notations, and from no other text. -/
theorem read?_eq_some : read? text = some n ↔ Spells text n ∧ n < limit := by
  rw [read?]
  split
  · rename_i cs htext
    rw [unsigned?_eq_some, spells_signed htext]
  · rename_i htext
    rw [unsigned?_eq_some, spells_unsigned htext]

theorem read?_eq_none : read? text = none ↔ ∀ n, Spells text n → limit ≤ n := by
  rw [Option.eq_none_iff_forall_ne_some]
  refine forall_congr' fun n => ?_
  rw [Ne, read?_eq_some, not_and, Nat.not_lt]

end Numeral

namespace TypeExpr

theorem numericValue?_eq {t : TypeExpr} (h : t.isNumeric = true) :
    t.numericValue? = Numeral.read? t.name := if_pos h

/-- The types made for numbers of 64 bits have these values. Of all numeric types those have a value
whose name is such a number in decimal notation, and other types have none. -/
theorem numericValue_of_decimal :
    (∀ n < Numeral.limit, (numeric n).numericValue? = some n) ∧
    ∀ t : TypeExpr,
      (t.isNumeric = true →
        (∀ n, t.numericValue? = some n ↔ Numeral.Spells t.name n ∧ n < Numeral.limit) ∧
        (t.numericValue? = none ↔ ∀ n, Numeral.Spells t.name n → Numeral.limit ≤ n)) ∧
      (t.isNumeric = false → t.numericValue? = none) := by
  refine ⟨fun n hn => Numeral.read?_write hn, fun t => ⟨fun ht => ?_, fun ht => ?_⟩⟩
  · rw [numericValue?_eq ht]
    exact ⟨fun n => Numeral.read?_eq_some, Numeral.read?_eq_none⟩
  · exact if_neg (Bool.eq_false_iff.mp ht)

/-- The largest number of 64 bits, the one above it, and a number with a sign and zeros. -/
theorem numericValue_of_decimal_limits :
    let padded : TypeExpr := ⟨"+0042", [], false, true⟩
    let large : TypeExpr := ⟨"18446744073709551616", [], false, true⟩
    (numeric 18446744073709551615).numericValue? = some 18446744073709551615 ∧
    Numeral.Spells padded.name 42 ∧ padded.numericValue? = some 42 ∧
    large.numericValue? = none ∧ (∀ n, Numeral.Spells large.name n → Numeral.limit ≤ n) ∧
    (named "42").numericValue? = none := by
  intro padded large
  obtain ⟨hnumeric, hvalue⟩ := numericValue_of_decimal
  have hzeros : Numeral.Decimal ['0', '0'] 0 :=
    .more (d := 0) (.one (d := 0) (by decide)) (by decide)
  have hdigits : Numeral.Decimal ['0', '0', '4', '2'] 42 :=
    .more (d := 2) (.more (d := 4) hzeros (by decide)) (by decide)
  have hpadded : Numeral.Spells padded.name 42 := ⟨_, hdigits, .inr (by decide)⟩
  have hlarge : large.numericValue? = none := by decide
  exact ⟨hnumeric _ (by decide), hpadded,
    (((hvalue padded).1 rfl).1 42).mpr ⟨hpadded, by decide⟩,
    hlarge, ((hvalue large).1 rfl).2.mp hlarge, (hvalue (named "42")).2 rfl⟩

end TypeExpr

end Bluespec
