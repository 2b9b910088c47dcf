import Bluespec.Proofs.FreshNames
import Bluespec.Proofs.Universe

namespace Bluespec

namespace Table

variable {α : Type} {name : String}

theorem perm_place {l : List (String × α)} (h : find name l = none) (value : α) :
    (place name value l).Perm ((name, value) :: l) := by
  induction l with
  | nil => exact .refl _
  | cons e rest ih =>
    have hne : name ≠ e.1 := by
      rintro rfl
      simp [find] at h
    rw [find, if_neg hne] at h
    rw [place]
    split
    · exact .refl _
    · exact ((ih h).cons e).trans (.swap _ _ _)

theorem perm_keys_insert {t : Table α} (h : t.get? name = none) (value : α) :
    (t.insert name value).keys.Perm (name :: t.keys) :=
  (perm_place h value).map Prod.fst

end Table

namespace Checker

variable {c c₀ : Checker} {op : Op}

/-- Each constraint has its tracker and each tracker its constraint, under names that were handed
out. -/
structure Paired (c : Checker) : Prop where
  keys : (c.assertions.map Prod.fst).Perm c.trackers.keys
  issued : ∀ name node, c.tracker? name = some node → c.names.Issued name

theorem Paired.tracker?_constrain (h : c.Paired) (f : Formula) (stem : String) (node : Node) :
    c.tracker? (c.constrain f stem node).1 = none := by
  cases ht : c.tracker? (c.constrain f stem node).1 with
  | none => rfl
  | some old => exact absurd (h.issued _ old ht) (c.names.not_issued_next stem)

theorem tracker?_perform_constrain (c : Checker) (f : Formula) (stem : String) (node : Node)
    (name : String) : (c.perform (.constrain f stem node)).tracker? name =
      if name = (c.constrain f stem node).1 then some node else c.tracker? name :=
  Table.get?_insert c.trackers _ name node

theorem paired_clear (c : Checker) : c.clear.Paired := ⟨.refl _, nofun⟩

theorem Paired.constrain (h : c.Paired) (f : Formula) (stem : String) (node : Node) :
    (c.perform (.constrain f stem node)).Paired := by
  have hnew := h.tracker?_constrain f stem node
  constructor
  · have hkeys := (Table.perm_keys_insert hnew node).symm
    have happend : ((c.perform (.constrain f stem node)).assertions.map Prod.fst).Perm
        ((c.constrain f stem node).1 :: c.assertions.map Prod.fst) := by
      have := List.perm_append_singleton (c.constrain f stem node).1 (c.assertions.map Prod.fst)
      exact List.map_append ▸ this
    exact happend.trans ((h.keys.cons _).trans hkeys)
  · intro name other ht
    rw [tracker?_perform_constrain] at ht
    split at ht
    · rename_i heq
      exact heq ▸ c.names.issued_next stem
    · exact (h.issued name other ht).mono (issued_le_perform c (.constrain f stem node))

theorem Paired.perform (h : c.Paired) (op : Op) : (c.perform op).Paired := by
  cases ha : c.attempts op with
  | true =>
    obtain ⟨_, _, hp⟩ := perform_of_attempts ha
    rw [hp]
    exact ⟨(paired_clear c).keys, (paired_clear c).issued⟩
  | false =>
    cases op with
    | analyze lib p =>
      rw [Checker.perform, analyze_of_not_attempts ha]
      exact ⟨h.keys, h.issued⟩
    | rebuild => cases ha
    | resolve | record => exact ⟨h.keys, h.issued⟩
    | fresh stem =>
      exact ⟨h.keys, fun name node ht =>
        (h.issued name node ht).mono (issued_le_perform c (.fresh stem))⟩
    | constrain f stem node => exact h.constrain f stem node

theorem Paired.run (h : c.Paired) (ops : List Op) : (c.run ops).Paired := by
  induction ops generalizing c with
  | nil => exact h
  | cons op ops ih => exact ih (h.perform op)

theorem clear_start {s : Session} (h : start s = .ok c) : c.clear = c := by
  obtain ⟨_, _, rfl⟩ := start_eq_ok h
  rfl

/-- What was done since the universe was last built, or since that was last tried. -/
def recent (c : Checker) (ops : List Op) : List (Checker × Op) :=
  (c.history ops).rtakeWhile fun x => !x.1.attempts x.2

theorem recent_concat (c : Checker) (ops : List Op) (op : Op) : c.recent (ops ++ [op]) =
    if (c.run ops).attempts op then [] else c.recent ops ++ [(c.run ops, op)] := by
  rw [recent, history_concat, List.rtakeWhile_concat]
  cases (c.run ops).attempts op <;> rfl

theorem run_concat (c : Checker) (ops : List Op) (op : Op) :
    c.run (ops ++ [op]) = (c.run ops).perform op := List.foldl_concat ..

theorem trackers_perform (h : c.attempts op = false)
    (hop : ∀ f stem node, op ≠ .constrain f stem node) : (c.perform op).trackers = c.trackers := by
  cases op with
  | analyze lib p => rw [perform, analyze_of_not_attempts h]
  | rebuild => cases h
  | resolve | fresh | record => rfl
  | constrain f stem node => exact absurd rfl (hop f stem node)

theorem Paired.tracker?_perform (hc : c.Paired) (h : c.attempts op = false) (name : String)
    (node : Node) : (c.perform op).tracker? name = some node ↔ c.tracker? name = some node ∨
      ∃ f stem, op = .constrain f stem node ∧ (c.constrain f stem node).1 = name := by
  cases op with
  | analyze | rebuild | resolve | fresh | record =>
    rw [tracker?, trackers_perform h nofun]
    refine ⟨.inl, ?_⟩
    rintro (ht | ⟨_, _, heq, _⟩)
    · exact ht
    · cases heq
  | constrain f stem other =>
    rw [tracker?_perform_constrain]
    have hnew := hc.tracker?_constrain f stem other
    constructor
    · intro ht
      split at ht
      · rename_i hname
        obtain rfl := Option.some.inj ht
        exact .inr ⟨f, stem, rfl, hname.symm⟩
      · exact .inl ht
    · rintro (ht | ⟨_, _, heq, rfl⟩)
      · have hne : name ≠ (c.constrain f stem other).1 := by
          rintro rfl
          rw [hnew] at ht
          cases ht
        rw [if_neg hne, ht]
      · cases heq
        rw [if_pos rfl]

theorem tracker?_run (h₀ : c₀.clear = c₀) (ops : List Op) (name : String) (node : Node) :
    (c₀.run ops).tracker? name = some node ↔ ∃ d f stem,
      (d, .constrain f stem node) ∈ c₀.recent ops ∧ (d.constrain f stem node).1 = name := by
  -- what is recent is told from the last operation backwards, so the induction is from the end
  induction ops using List.reverseRecOn with
  | nil =>
    rw [← h₀]
    refine ⟨nofun, ?_⟩
    rintro ⟨_, _, _, h, _⟩
    exact absurd h List.not_mem_nil
  | append_singleton ops op ih =>
    rw [run_concat, recent_concat]
    cases ha : (c₀.run ops).attempts op with
    | true =>
      obtain ⟨_, _, hp⟩ := perform_of_attempts ha
      rw [hp, if_pos rfl]
      refine ⟨nofun, ?_⟩
      rintro ⟨_, _, _, h, _⟩
      exact absurd h List.not_mem_nil
    | false =>
      have hpaired : (c₀.run ops).Paired := Paired.run (h₀ ▸ paired_clear c₀) ops
      rw [hpaired.tracker?_perform ha, ih, if_neg Bool.false_ne_true]
      simp only [List.mem_append, List.mem_singleton]
      constructor
      · rintro (⟨d, f, stem, hd, hname⟩ | ⟨f, stem, rfl, hname⟩)
        · exact ⟨d, f, stem, .inl hd, hname⟩
        · exact ⟨_, f, stem, .inr rfl, hname⟩
      · rintro ⟨d, f, stem, hd | hd, hname⟩
        · exact .inl ⟨d, f, stem, hd, hname⟩
        · obtain ⟨rfl, rfl⟩ := Prod.mk.inj hd
          exact .inr ⟨f, stem, rfl, hname⟩

def Op.term? (key : NodeKey) : Op → Option Term
  | .record node t => if node.key = key then some t else none
  | _ => none

theorem recorded?_perform (h : c.attempts op = false) (key : NodeKey) :
    (c.perform op).recorded? key = (op.term? key).or (c.recorded? key) := by
  cases op with
  | analyze lib p =>
    rw [perform, analyze_of_not_attempts h]
    rfl
  | rebuild => cases h
  | resolve | fresh | constrain => rfl
  | record node t =>
    rw [perform, record, recorded?, List.lookup_cons, Op.term?]
    by_cases hkey : node.key = key
    · rw [if_pos hkey, hkey, beq_self_eq_true]
      rfl
    · have hne : (key == node.key) = false := beq_eq_false_iff_ne.2 (Ne.symm hkey)
      rw [if_neg hkey, hne]
      rfl

theorem recorded?_run (h₀ : c₀.clear = c₀) (ops : List Op) (key : NodeKey) :
    (c₀.run ops).recorded? key = (c₀.recent ops).reverse.findSome? fun x => x.2.term? key := by
  induction ops using List.reverseRecOn with
  | nil =>
    rw [← h₀]
    rfl
  | append_singleton ops op ih =>
    rw [run_concat, recent_concat]
    cases ha : (c₀.run ops).attempts op with
    | true =>
      obtain ⟨_, _, hp⟩ := perform_of_attempts ha
      rw [hp, if_pos rfl]
      rfl
    | false =>
      rw [recorded?_perform ha, ih, if_neg Bool.false_ne_true, List.reverse_concat,
        List.findSome?_cons]
      cases op.term? key <;> rfl

/-- Over a whole run constraints and trackers agree: they are those since the universe was last
built or that was last tried, each under a name that was never handed out before. Terms are kept
just as long. An analysis that finds no new type loses none of them. -/
theorem trackers_follow_constraints {s : Session} (h : start s = .ok c₀) (ops : List Op) :
    let c := c₀.run ops
    (c.assertions.map Prod.fst).Perm c.trackers.keys ∧
    (∀ name node, c.tracker? name = some node ↔ ∃ d f stem,
      (d, .constrain f stem node) ∈ c₀.recent ops ∧ (d.constrain f stem node).1 = name) ∧
    (∀ f stem node, c.tracker? (c.constrain f stem node).1 = none ∧
      ∀ d op name, (d, op) ∈ c₀.history ops → d.handsOut op = some name →
        (c.constrain f stem node).1 ≠ name) ∧
    (∀ key, c.recorded? key = (c₀.recent ops).reverse.findSome? fun x => x.2.term? key) ∧
    ∀ lib p, c.inSync = true →
      (c.session.analyze lib p).2.symbols.types = c.session.symbols.types →
        (c.analyze lib p).2 = { c with session := (c.session.analyze lib p).2 } := by
  intro c
  have hclear : c₀.clear = c₀ := clear_start h
  have hc : c.Paired := Paired.run (hclear ▸ paired_clear c₀) ops
  refine ⟨hc.keys, tracker?_run hclear ops, fun f stem node =>
    ⟨hc.tracker?_constrain f stem node, ?_⟩, recorded?_run hclear ops, fun lib p hsync htypes =>
    analyze_of_not_attempts (inSync_analyze_of_types hsync htypes)⟩
  rintro d op _ hd hname rfl
  exact c.names.not_issued_next stem (issued_of_history hd hname)

/-- The analysis in between finds new types, so that the constraint before it is dropped. Analyzed
once more, the package brings nothing new. -/
theorem trackers_follow_constraints_knot :
    let c₀ : Checker := { session := .start .here, univ := .of Universe.builtins }
    let f := Formula.atom (.eq (.const "x" .type) (.app "Bool" []))
    let node : Node := ⟨0, "M.bsv", 3, 0, ⟨0, 0⟩, ""⟩
    let ops := [Op.constrain f "use" node, .analyze .knot "A", .constrain f "use" node,
      .record node (.const "x" .type), .record node (.const "y" .type)]
    let c := c₀.run ops
    start (.start .here) = .ok c₀ ∧
    (c.assertions.map Prod.fst).Perm c.trackers.keys ∧ c.trackers.keys = ["use-1"] ∧
    (∃ d f stem, (d, .constrain f stem node) ∈ c₀.recent ops ∧
      (d.constrain f stem node).1 = "use-1") ∧
    (c.constrain f "use" node).1 ≠ "use-0" ∧
    (c₀.recent ops).reverse.findSome? (fun x => x.2.term? node.key) = some (.const "y" .type) ∧
    (c.analyze .knot "A").2 = { c with session := (c.session.analyze .knot "A").2 } := by
  intro c₀ f node ops c
  have hstart : start (.start .here) = .ok c₀ := rfl
  obtain ⟨hkeys, htracker, hfresh, hterm, hsame⟩ := trackers_follow_constraints hstart ops
  refine ⟨hstart, hkeys, by decide +kernel, ?_, ?_, ?_, ?_⟩
  · exact (htracker "use-1" node).1 (by decide +kernel)
  · exact (hfresh f "use" node).2 c₀ (.constrain f "use" node) "use-0" List.mem_cons_self
      (by decide +kernel)
  · exact (hterm node.key).symm.trans (by decide +kernel)
  · exact hsame .knot "A" (by decide +kernel) (by decide +kernel)

end Checker

end Bluespec
