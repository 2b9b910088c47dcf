import Mathlib.Data.List.Lex
import Mathlib.Data.String.Basic

namespace Bluespec

def nameBytes (name : String) : List UInt8 := name.toUTF8.data.toList

theorem nameBytes_eq (name : String) :
    nameBytes name = name.toList.flatMap String.utf8EncodeChar := by
  rw [nameBytes, String.toUTF8_eq_toByteArray, ← String.utf8Encode_toList, List.utf8Encode]
  simp

def trail : Nat → Nat → List UInt8
  | 0, _ => []
  | k + 1, v => UInt8.ofNat (v / 64 ^ k % 64 + 128) :: trail k v

/-- A character with `k` bytes after the first, which is `lead`. -/
inductive Coded : (v k lead : Nat) → Prop
  | one {v : Nat} (h : v < 128) : Coded v 0 v
  | two {v : Nat} (h : 128 ≤ v) (h' : v < 2048) : Coded v 1 (v / 64 + 192)
  | three {v : Nat} (h : 2048 ≤ v) (h' : v < 65536) : Coded v 2 (v / 4096 + 224)
  | four {v : Nat} (h : 65536 ≤ v) (h' : v < 2097152) : Coded v 3 (v / 262144 + 240)

theorem exists_coded (c : Char) : ∃ k lead, Coded c.val.toNat k lead ∧
    String.utf8EncodeChar c = UInt8.ofNat lead :: trail k c.val.toNat := by
  have hsize : c.val.toNat < 1114112 := by
    have hvalid : c.val.toNat < 55296 ∨ 57343 < c.val.toNat ∧ c.val.toNat < 1114112 := c.valid
    omega
  rw [String.utf8EncodeChar]
  generalize c.val.toNat = v at hsize ⊢
  by_cases h1 : v ≤ 127
  · exact ⟨0, v, .one (by omega), by simp [h1, trail]⟩
  · by_cases h2 : v ≤ 2047
    · refine ⟨1, _, .two (by omega) (by omega), ?_⟩
      have hmod : v / 64 % 32 = v / 64 := by omega
      simp [h1, h2, trail, hmod]
    · by_cases h3 : v ≤ 65535
      · refine ⟨2, _, .three (by omega) (by omega), ?_⟩
        have hmod : v / 4096 % 16 = v / 4096 := by omega
        simp [h1, h2, h3, trail, hmod]
      · refine ⟨3, _, .four (by omega) (by omega), ?_⟩
        have hmod : v / 262144 % 8 = v / 262144 := by omega
        simp [h1, h2, h3, trail, hmod]

theorem Coded.lead_lt {v k lead : Nat} (h : Coded v k lead) : lead < 256 := by
  cases h <;> omega

/-- The first byte tells the length, so it decides unless both characters have the same one. -/
theorem Coded.lt_cases {v w k l a b : Nat} (hv : Coded v k a) (hw : Coded w l b) (h : v < w) :
    a < b ∨ a = b ∧ k = l ∧ v % 64 ^ k < w % 64 ^ k := by
  cases hv <;> cases hw <;> omega

theorem ofNat_lt {a b : Nat} (hb : b < 256) (h : a < b) : UInt8.ofNat a < UInt8.ofNat b := by
  rw [UInt8.lt_iff_toNat_lt, UInt8.toNat_ofNat', UInt8.toNat_ofNat', Nat.mod_eq_of_lt (by omega),
    Nat.mod_eq_of_lt hb]
  exact h

theorem trail_append_lt {k v w : Nat} (h : v % 64 ^ k < w % 64 ^ k) (s t : List UInt8) :
    trail k v ++ s < trail k w ++ t := by
  induction k with
  | zero => simp [Nat.mod_one] at h
  | succ k ih =>
    rw [trail, trail, List.cons_append, List.cons_append, List.cons_lt_cons_iff]
    rw [Nat.mod_pow_succ, Nat.mod_pow_succ] at h
    have hv : v % 64 ^ k < 64 ^ k := Nat.mod_lt _ (Nat.pow_pos (by decide))
    have hw : w % 64 ^ k < 64 ^ k := Nat.mod_lt _ (Nat.pow_pos (by decide))
    by_cases hlt : v / 64 ^ k % 64 < w / 64 ^ k % 64
    · exact .inl (ofNat_lt (by omega) (by omega))
    · have heq : v / 64 ^ k % 64 = w / 64 ^ k % 64 := by
        by_contra hne
        have hmul : 64 ^ k * (w / 64 ^ k % 64 + 1) ≤ 64 ^ k * (v / 64 ^ k % 64) :=
          Nat.mul_le_mul_left _ (by omega)
        rw [Nat.mul_add] at hmul
        omega
      rw [heq] at h ⊢
      exact .inr ⟨rfl, ih (by omega)⟩

theorem utf8EncodeChar_append_lt {c d : Char} (h : c < d) (s t : List UInt8) :
    String.utf8EncodeChar c ++ s < String.utf8EncodeChar d ++ t := by
  obtain ⟨k, a, hc, hcode⟩ := exists_coded c
  obtain ⟨l, b, hd, hdcode⟩ := exists_coded d
  rw [hcode, hdcode, List.cons_append, List.cons_append, List.cons_lt_cons_iff]
  obtain hlt | ⟨rfl, rfl, hlt⟩ := hc.lt_cases hd h
  · exact .inl (ofNat_lt hd.lead_lt hlt)
  · exact .inr ⟨rfl, trail_append_lt hlt s t⟩

theorem flatMap_utf8EncodeChar_lt {l m : List Char} (h : l < m) :
    l.flatMap String.utf8EncodeChar < m.flatMap String.utf8EncodeChar := by
  induction l generalizing m with
  | nil =>
    cases m with
    | nil => exact absurd h (List.lt_irrefl [])
    | cons d m =>
      obtain ⟨k, lead, _, hcode⟩ := exists_coded d
      rw [List.flatMap_cons, hcode]
      exact List.nil_lt_cons _ _
  | cons c l ih =>
    cases m with
    | nil => exact absurd h (List.not_lt_nil _)
    | cons d m =>
      rw [List.flatMap_cons, List.flatMap_cons]
      obtain hlt | ⟨rfl, hlt⟩ := List.cons_lt_cons_iff.mp h
      · exact utf8EncodeChar_append_lt hlt _ _
      · exact List.append_left_lt (ih hlt)

theorem lt_iff_nameBytes_lt {a b : String} : a < b ↔ nameBytes a < nameBytes b := by
  rw [nameBytes_eq, nameBytes_eq, String.lt_iff_toList_lt]
  refine ⟨flatMap_utf8EncodeChar_lt, fun h => ?_⟩
  obtain hlt | heq | hgt := lt_trichotomy a.toList b.toList
  · exact hlt
  · rw [heq] at h
    exact absurd h (List.lt_irrefl _)
  · exact absurd (flatMap_utf8EncodeChar_lt hgt) (List.lt_asymm h)

end Bluespec
