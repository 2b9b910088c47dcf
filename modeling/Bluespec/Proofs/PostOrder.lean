import Mathlib.Data.Set.Insert
import Mathlib.Tactic.Tauto

namespace Bluespec

/-- `PostOrder imports met ps order`: a depth-first walk along imports, from the packages `ps` one
after the other and past those in `met`, completes the packages `order` in this order. -/
inductive PostOrder (imports : String → List String) :
    Set String → List String → List String → Prop
  | nil {met : Set String} : PostOrder imports met [] []
  | skip {met : Set String} {p : String} {ps order : List String} (h : p ∈ met)
      (hr : PostOrder imports met ps order) : PostOrder imports met (p :: ps) order
  | visit {met : Set String} {p : String} {ps inner order : List String} (h : p ∉ met)
      (hi : PostOrder imports (insert p met) (imports p) inner)
      (hr : PostOrder imports (insert p met ∪ {q | q ∈ inner}) ps order) :
    PostOrder imports met (p :: ps) (inner ++ p :: order)

namespace PostOrder

variable {imports : String → List String} {met : Set String} {ps qs order rest : List String}

theorem append (h : PostOrder imports met ps order)
    (hr : PostOrder imports (met ∪ {q | q ∈ order}) qs rest) :
    PostOrder imports met (ps ++ qs) (order ++ rest) := by
  induction h with
  | nil => simpa using hr
  | skip h _ ih => exact .skip h (ih hr)
  | @visit met p ps inner order h hi _ _ ih =>
    have hmet : insert p met ∪ {q | q ∈ inner} ∪ {q | q ∈ order} =
        met ∪ {q | q ∈ inner ++ p :: order} := by
      ext q
      simp only [Set.mem_union, Set.mem_insert_iff, Set.mem_ofPred_eq, List.mem_append,
        List.mem_cons]
      tauto
    rw [← hmet] at hr
    rw [List.cons_append, List.append_assoc, List.cons_append]
    exact .visit h hi (ih hr)

theorem nodup (h : PostOrder imports met ps order) : order.Nodup ∧ ∀ q ∈ order, q ∉ met := by
  induction h with
  | nil => exact ⟨List.nodup_nil, nofun⟩
  | skip _ _ ih => exact ih
  | @visit met p ps inner order h _ _ ihi ihr =>
    have hinner : ∀ q ∈ inner, q ≠ p ∧ q ∉ met := fun q hq =>
      not_or.mp (fun hmem => ihi.2 q hq (Set.mem_insert_iff.mpr hmem))
    have horder : ∀ q ∈ order, q ≠ p ∧ q ∉ met ∧ q ∉ inner := by
      intro q hq
      have hq' := ihr.2 q hq
      simp only [Set.mem_union, Set.mem_insert_iff, Set.mem_ofPred_eq, not_or] at hq'
      exact ⟨hq'.1.1, hq'.1.2, hq'.2⟩
    constructor
    · refine List.nodup_append.mpr ⟨ihi.1, List.nodup_cons.mpr ⟨?_, ihr.1⟩, ?_⟩
      · exact fun hp => (horder p hp).1 rfl
      · rintro a ha b hb rfl
        rcases List.mem_cons.mp hb with rfl | hb
        · exact (hinner a ha).1 rfl
        · exact (horder a hb).2.2 ha
    · intro q hq
      rcases List.mem_append.mp hq with hq | hq
      · exact (hinner q hq).2
      · rcases List.mem_cons.mp hq with rfl | hq
        · exact h
        · exact (horder q hq).2.1

theorem unique (h : PostOrder imports met ps order) (h' : PostOrder imports met ps rest) :
    order = rest := by
  induction h generalizing rest with
  | nil => cases h'; rfl
  | skip h _ ih =>
    cases h' with
    | skip _ hr' => exact ih hr'
    | visit hn _ _ => exact absurd h hn
  | visit h _ _ ihi ihr =>
    cases h' with
    | skip hn _ => exact absurd hn h
    | visit _ hi' hr' =>
      obtain rfl := ihi hi'
      rw [ihr hr']

end PostOrder

end Bluespec
