import Bluespec.Checker
import Bluespec.Proofs.Symbols
import Mathlib.Algebra.Order.BigOperators.Group.Finset
import Mathlib.Logic.Relation

namespace Bluespec

namespace TypeExpr

def isLeaf (t : TypeExpr) : Bool := t.isVar || t.isNumeric

mutual

def mentions : TypeExpr → List String
  | ⟨name, params, isVar, isNumeric⟩ =>
    if isVar || isNumeric then [] else name :: mentionsAll params

def mentionsAll : List TypeExpr → List String
  | [] => []
  | p :: ps => p.mentions ++ mentionsAll ps

end

theorem mentions_eq {t : TypeExpr} (h : t.isLeaf = false) :
    t.mentions = t.name :: mentionsAll t.params := by
  obtain ⟨name, params, isVar, isNumeric⟩ := t
  rw [mentions]
  exact if_neg (Bool.eq_false_iff.mp h)

theorem mem_mentionsAll {p : TypeExpr} {ps : List TypeExpr} {name : String} (hp : p ∈ ps)
    (h : name ∈ p.mentions) : name ∈ mentionsAll ps := by
  induction ps with
  | nil => cases hp
  | cons q qs ih =>
    rw [mentionsAll, List.mem_append]
    rcases List.mem_cons.mp hp with rfl | hp
    · exact .inl h
    · exact .inr (ih hp)

theorem height_eq (t : TypeExpr) : t.height = heightAll t.params + 1 := by
  obtain ⟨name, params, isVar, isNumeric⟩ := t
  rw [height]

theorem height_le_heightAll {p : TypeExpr} {ps : List TypeExpr} (hp : p ∈ ps) :
    p.height ≤ heightAll ps := by
  induction ps with
  | nil => cases hp
  | cons q qs ih =>
    rw [heightAll]
    rcases List.mem_cons.mp hp with rfl | hp
    · exact Nat.le_max_left _ _
    · exact Nat.le_trans (ih hp) (Nat.le_max_right _ _)

end TypeExpr

namespace Session

variable {s : Session} {t r target : TypeExpr} {name : String}

def synonym? (s : Session) (name : String) : Option TypeExpr :=
  match s.symbols.value? name with
  | none => none
  | some id =>
    match s.arena.get? id with
    | none => none
    | some d =>
      match d.kind with
      | .synonym defined => if defined.params.isEmpty then some d.type else none
      | _ => none

/-- What following comes to at a type that is not replaced by another one. -/
def stopAt (s : Session) (t : TypeExpr) : Except Error TypeExpr :=
  match s.symbols.value? t.name with
  | none => .ok t
  | some id =>
    match s.arena.get id with
    | .error e => .error e
    | .ok d =>
      match d.kind with
      | .synonym defined => .error (.parametricSynonym d.name defined.arity)
      | _ => .ok t

theorem followWithin_succ (s : Session) (steps : Nat) (t : TypeExpr) :
    s.followWithin (steps + 1) t =
      if t.isLeaf then .ok t
      else
        match s.synonym? t.name with
        | some target => s.followWithin steps target
        | none => s.stopAt t := by
  rw [followWithin, TypeExpr.isLeaf, synonym?, stopAt]
  split
  · rfl
  · cases s.symbols.value? t.name with
    | none => rfl
    | some id =>
      dsimp only [Arena.get]
      cases s.arena.get? id with
      | none => rfl
      | some d =>
        dsimp only
        cases d.kind with
        | synonym defined =>
          dsimp only
          split <;> rfl
        | enum | struct | union | interface | method | module | function | value => rfl

theorem stopAt_eq_ok (h : s.stopAt t = .ok r) :
    r = t ∧ ∀ params, s.stopAt { t with params } = .ok { t with params } := by
  simp only [stopAt] at h ⊢
  cases hv : s.symbols.value? t.name with
  | none =>
    simp only [hv] at h
    exact ⟨(Except.ok.inj h).symm, fun _ => rfl⟩
  | some id =>
    simp only [hv] at h ⊢
    cases hd : s.arena.get id with
    | error e => simp only [hd] at h; cases h
    | ok d =>
      simp only [hd] at h ⊢
      cases hk : d.kind with
      | synonym defined => simp only [hk] at h; cases h
      | enum | struct | union | interface | method | module | function | value =>
        simp only [hk] at h
        exact ⟨(Except.ok.inj h).symm, fun _ => rfl⟩

theorem stopAt_eq_error {e : Error} (h : s.stopAt t = .error e) :
    (∃ name arity, e = .parametricSynonym name arity) ∨
      ∃ id, s.symbols.value? t.name = some id ∧ s.arena.get? id = none ∧
        e = .missingDeclaration id := by
  rw [stopAt] at h
  cases hid : s.symbols.value? t.name with
  | none =>
    rw [hid] at h
    cases h
  | some id =>
    simp only [hid, Arena.get] at h
    cases hd : s.arena.get? id with
    | none =>
      simp only [hd] at h
      exact .inr ⟨id, rfl, hd, (Except.error.inj h).symm⟩
    | some d =>
      simp only [hd] at h
      split at h
      · exact .inl ⟨_, _, (Except.error.inj h).symm⟩
      · cases h

def Stops (s : Session) (t : TypeExpr) : Prop :=
  t.isLeaf = true ∨
    s.synonym? t.name = none ∧ ∀ params, s.stopAt { t with params } = .ok { t with params }

theorem stops_of_followWithin {steps : Nat} (h : s.followWithin steps t = .ok r) : s.Stops r := by
  induction steps generalizing t with
  | zero => cases h
  | succ steps ih =>
    rw [followWithin_succ] at h
    split at h
    · rename_i hleaf
      exact .inl (Except.ok.inj h ▸ hleaf)
    · cases hsyn : s.synonym? t.name with
      | some target =>
        rw [hsyn] at h
        exact ih h
      | none =>
        rw [hsyn] at h
        obtain ⟨rfl, hstop⟩ := stopAt_eq_ok h
        exact .inr ⟨hsyn, hstop⟩

theorem Stops.followSynonyms_eq (h : s.Stops t) (params : List TypeExpr) :
    s.followSynonyms { t with params } = .ok { t with params } := by
  rw [followSynonyms, followWithin_succ]
  have hleaf : TypeExpr.isLeaf { t with params } = t.isLeaf := rfl
  rcases h with h | ⟨hnone, hstop⟩
  · rw [hleaf, if_pos h]
  · split
    · rfl
    · rw [hnone]
      exact hstop params

theorem Stops.followSynonyms_self (h : s.Stops t) : s.followSynonyms t = .ok t := by
  obtain ⟨name, params, isVar, isNumeric⟩ := t
  exact h.followSynonyms_eq params

def RefersTo (s : Session) (a b : String) : Prop :=
  ∃ target, s.synonym? a = some target ∧ b ∈ target.mentions

def Acyclic (s : Session) : Prop := ∀ a, ¬ Relation.TransGen s.RefersTo a a

theorem not_transGen_of_rank {R : String → String → Prop} (rank : String → Nat)
    (h : ∀ a b, R a b → rank b < rank a) (a : String) : ¬ Relation.TransGen R a a := by
  intro hcycle
  have hlt : ∀ b, Relation.TransGen R a b → rank b < rank a := by
    intro b hb
    induction hb with
    | single hab => exact h _ _ hab
    | tail _ hstep ih => exact Nat.lt_trans (h _ _ hstep) ih
  exact Nat.lt_irrefl _ (hlt a hcycle)

theorem acyclic_of_rank (rank : String → Nat) (h : ∀ a b, s.RefersTo a b → rank b < rank a) :
    s.Acyclic := not_transGen_of_rank rank h

theorem exists_entry (h : s.synonym? name = some target) :
    ∃ id, (name, id) ∈ s.symbols.valueOf.entries ∧ Checker.declaredHeight s id = target.height := by
  rw [synonym?] at h
  cases hv : s.symbols.value? name with
  | none =>
    rw [hv] at h
    cases h
  | some id =>
    simp only [hv] at h
    cases hd : s.arena.get? id with
    | none =>
      rw [hd] at h
      cases h
    | some d =>
      simp only [hd] at h
      split at h
      · split at h
        · obtain rfl := Option.some.inj h
          exact ⟨id, Table.mem_of_find hv, by rw [Checker.declaredHeight, hd]; rfl⟩
        · cases h
      · cases h

theorem acyclic_of_entries (rank : String → Nat) (h : ∀ e ∈ s.symbols.valueOf.entries,
    ∀ b ∈ ((s.synonym? e.1).map TypeExpr.mentions).getD [], rank b < rank e.1) : s.Acyclic := by
  apply acyclic_of_rank rank
  rintro a b ⟨target, htarget, hb⟩
  obtain ⟨id, hentry, _⟩ := exists_entry htarget
  apply h _ hentry b
  simpa [htarget] using hb

open scoped Classical in
noncomputable def span (s : Session) (t : TypeExpr) : Finset (String × DeclId) :=
  s.symbols.valueOf.entries.toFinset.filter fun e =>
    ∃ a ∈ t.mentions, Relation.ReflTransGen s.RefersTo a e.1

theorem mem_span {e : String × DeclId} : e ∈ s.span t ↔ e ∈ s.symbols.valueOf.entries ∧
    ∃ a ∈ t.mentions, Relation.ReflTransGen s.RefersTo a e.1 := by
  simp [span]

/-- How many levels the encoding of a type can go down: its own, and those of all synonyms on the
way. -/
noncomputable def levels (s : Session) (t : TypeExpr) : Nat :=
  t.height + ∑ e ∈ s.span t, Checker.declaredHeight s e.2

theorem levels_param (ht : t.isLeaf = false) {p : TypeExpr} (hp : p ∈ t.params) :
    s.levels p < s.levels t := by
  have hheight : p.height < t.height := by
    rw [t.height_eq]
    exact Nat.lt_succ_of_le (TypeExpr.height_le_heightAll hp)
  have hsub : s.span p ⊆ s.span t := by
    intro e he
    obtain ⟨hmem, a, ha, hreach⟩ := mem_span.mp he
    refine mem_span.mpr ⟨hmem, a, ?_, hreach⟩
    rw [TypeExpr.mentions_eq ht]
    exact List.mem_cons_of_mem _ (TypeExpr.mem_mentionsAll hp ha)
  exact Nat.add_lt_add_of_lt_of_le hheight (Finset.sum_le_sum_of_subset hsub)

/-- A synonym does not lead back to itself, so its type gets by without its entry. -/
theorem span_target (hs : s.Acyclic) (ht : t.isLeaf = false)
    (h : s.synonym? t.name = some target) : ∃ id, Checker.declaredHeight s id = target.height ∧
      (t.name, id) ∉ s.span target ∧ insert (t.name, id) (s.span target) ⊆ s.span t := by
  obtain ⟨id, hentry, hheight⟩ := exists_entry h
  have hname : t.name ∈ t.mentions := by
    rw [TypeExpr.mentions_eq ht]
    exact List.mem_cons_self
  refine ⟨id, hheight, fun hmem => ?_, fun e he => ?_⟩
  · obtain ⟨_, a, ha, hreach⟩ := mem_span.mp hmem
    exact hs t.name (Relation.TransGen.head' ⟨target, h, ha⟩ hreach)
  · rcases Finset.mem_insert.mp he with rfl | he
    · exact mem_span.mpr ⟨hentry, t.name, hname, .refl⟩
    · obtain ⟨hmem, a, ha, hreach⟩ := mem_span.mp he
      exact mem_span.mpr ⟨hmem, t.name, hname, .head ⟨target, h, ha⟩ hreach⟩

theorem levels_target (hs : s.Acyclic) (ht : t.isLeaf = false)
    (h : s.synonym? t.name = some target) : s.levels target ≤ s.levels t := by
  obtain ⟨id, hheight, hnew, hsub⟩ := span_target hs ht h
  calc s.levels target
      = ∑ e ∈ insert (t.name, id) (s.span target), Checker.declaredHeight s e.2 := by
        rw [Finset.sum_insert hnew, hheight]
        rfl
    _ ≤ ∑ e ∈ s.span t, Checker.declaredHeight s e.2 := Finset.sum_le_sum_of_subset hsub
    _ ≤ s.levels t := Nat.le_add_left _ _

theorem levels_of_followWithin (hs : s.Acyclic) {steps : Nat}
    (h : s.followWithin steps t = .ok r) : s.levels r ≤ s.levels t := by
  induction steps generalizing t with
  | zero => cases h
  | succ steps ih =>
    rw [followWithin_succ] at h
    split at h
    · rw [Except.ok.inj h]
    · rename_i hleaf
      cases hsyn : s.synonym? t.name with
      | some target =>
        rw [hsyn] at h
        exact (ih h).trans (levels_target hs (Bool.eq_false_iff.mpr hleaf) hsyn)
      | none =>
        rw [hsyn] at h
        rw [(stopAt_eq_ok h).1]

/-- Induction along the encoding of a type, from the parameters of what it stands for. -/
theorem levels_induction (hs : s.Acyclic) {P : TypeExpr → Prop}
    (h : ∀ t, (∀ r, s.followSynonyms t = .ok r → r.isLeaf = false → ∀ p ∈ r.params, P p) → P t)
    (t : TypeExpr) : P t := by
  induction hn : s.levels t using Nat.strong_induction_on generalizing t with
  | h n ih =>
    apply h
    intro r hr hleaf p hp
    have hlt : s.levels p < s.levels t :=
      Nat.lt_of_lt_of_le (levels_param hleaf hp) (levels_of_followWithin hs hr)
    exact ih (s.levels p) (hn ▸ hlt) p rfl

theorem sum_toFinset_eq {l : List (String × DeclId)} (hl : l.Nodup) (w : String × DeclId → Nat) :
    ∑ e ∈ l.toFinset, w e = l.foldr (fun e n => w e + n) 0 := by
  induction l with
  | nil => rfl
  | cons e rest ih =>
    obtain ⟨hnew, hrest⟩ := List.nodup_cons.mp hl
    rw [List.toFinset_cons, Finset.sum_insert (by simpa using hnew), ih hrest]
    rfl

theorem levels_le (s : Session) (t : TypeExpr) :
    s.levels t ≤ t.height + Checker.synonymHeight s := by
  have hsub : s.span t ⊆ s.symbols.valueOf.entries.toFinset :=
    fun e he => List.mem_toFinset.mpr (mem_span.mp he).1
  have hsum := Finset.sum_le_sum_of_subset (f := fun e => Checker.declaredHeight s e.2) hsub
  rw [sum_toFinset_eq (Table.nodup_entries _)] at hsum
  exact Nat.add_le_add_left hsum _

end Session

end Bluespec
