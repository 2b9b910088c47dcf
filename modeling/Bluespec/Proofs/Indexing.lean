import Bluespec.Proofs.Scopes
import Bluespec.Proofs.Symbols
import Mathlib.Data.List.Basic

namespace Bluespec.Symbols

variable {arena : Arena} {s t : Symbols} {id : DeclId} {ids : List DeclId}

def pending (arena : Arena) (s : Symbols) (ids : List DeclId) : List DeclId :=
  ids.filter fun id => arena.isAggregate id && decide (id ∉ s.indexed)

theorem mem_pending : id ∈ s.pending arena ids ↔
    id ∈ ids ∧ arena.isAggregate id = true ∧ id ∉ s.indexed := by
  simp [pending]

theorem pending_append (arena : Arena) (s : Symbols) (ids rest : List DeclId) :
    s.pending arena (ids ++ rest) = s.pending arena ids ++ s.pending arena rest :=
  List.filter_append ..

theorem pending_eq_nil : s.pending arena ids = [] ↔
    ∀ id ∈ ids, arena.isAggregate id = true → id ∈ s.indexed := by
  simp [pending]

theorem pending_cons_of_settled (h : arena.isAggregate id = true → id ∈ s.indexed) :
    s.pending arena (id :: ids) = s.pending arena ids := by
  refine List.filter_cons_of_neg ?_
  simpa using h

theorem pending_cons_of_new (ha : arena.isAggregate id = true) (h : id ∉ s.indexed) :
    s.pending arena (id :: ids) = id :: s.pending arena ids := by
  refine List.filter_cons_of_pos ?_
  simp [ha, h]

theorem Marks.pending_eq {listed : Bool} (h : Marks id listed s t)
    (hid : id ∉ s.pending arena ids) : t.pending arena ids = s.pending arena ids := by
  refine List.filter_congr fun a ha => ?_
  rw [h.indexed]
  by_cases hne : a = id
  · subst hne
    have hnot : arena.isAggregate a = false :=
      Bool.eq_false_iff.mpr fun hagg => hid (mem_pending.mpr ⟨ha, hagg, h.new⟩)
    simp [hnot]
  · simp [hne]

theorem visitAll_indexed {r : Except Error Unit}
    (h : (visitor arena).visitAll arena ids s = (r, t)) :
    (∀ id ∈ s.indexed, id ∈ t.indexed) ∧ ∀ id ∈ t.indexed, id ∈ s.indexed ∨ id ∈ ids := by
  induction ids generalizing s with
  | nil =>
    obtain ⟨_, rfl⟩ := Prod.mk.inj h
    exact ⟨fun _ hid => hid, fun _ hid => .inl hid⟩
  | cons a rest ih =>
    rw [Visitor.visitAll] at h
    cases hv : (visitor arena).visitOne arena a s with
    | mk q u =>
      have hone : (∀ id ∈ s.indexed, id ∈ u.indexed) ∧
          ∀ id ∈ u.indexed, id ∈ s.indexed ∨ id ∈ a :: rest := by
        rcases visitOne_cases hv with ⟨rfl, _⟩ | ⟨_, hmarks⟩
        · exact ⟨fun _ hid => hid, fun _ hid => .inl hid⟩
        · rw [hmarks.indexed]
          refine ⟨fun id hid => List.mem_cons_of_mem _ hid, fun id hid => ?_⟩
          rcases List.mem_cons.mp hid with rfl | hid
          · exact .inr List.mem_cons_self
          · exact .inl hid
      rw [hv] at h
      cases q with
      | error e =>
        obtain ⟨_, rfl⟩ := Prod.mk.inj h
        exact hone
      | ok _ =>
        obtain ⟨hmono, hnew⟩ := ih h
        refine ⟨fun id hid => hmono id (hone.1 id hid), fun id hid => ?_⟩
        rcases hnew id hid with hid | hid
        · exact hone.2 id hid
        · exact .inr (List.mem_cons_of_mem _ hid)

/-- Where all visits succeed, the aggregates that were still to be listed are appended in their
order, and there is none left. -/
theorem visitAll_types (h : (visitor arena).visitAll arena ids s = (.ok (), t))
    (hnodup : (s.pending arena ids).Nodup) :
    t.types = s.types ++ s.pending arena ids ∧ t.pending arena ids = [] := by
  induction ids generalizing s with
  | nil =>
    obtain ⟨_, rfl⟩ := Prod.mk.inj h
    exact ⟨(List.append_nil _).symm, rfl⟩
  | cons a rest ih =>
    rw [Visitor.visitAll] at h
    cases hv : (visitor arena).visitOne arena a s with
    | mk q u =>
      rw [hv] at h
      cases q with
      | error e => cases h
      | ok _ =>
        have hmono := (visitAll_indexed h).1
        rcases visitOne_cases hv with ⟨rfl, hok⟩ | ⟨_, hmarks⟩
        · have hsettled := (hok rfl).2
          rw [pending_cons_of_settled hsettled] at hnodup ⊢
          obtain ⟨htypes, hnone⟩ := ih h hnodup
          refine ⟨htypes, ?_⟩
          rw [pending_cons_of_settled fun ha => hmono a (hsettled ha)]
          exact hnone
        · -- `a` is marked here and now; its kind decides whether it is listed as well
          have hmarked : a ∈ t.indexed := hmono a (by rw [hmarks.indexed]; exact List.mem_cons_self)
          rw [pending_cons_of_settled fun _ => hmarked]
          cases ha : arena.isAggregate a with
          | true =>
            rw [pending_cons_of_new ha hmarks.new] at hnodup ⊢
            obtain ⟨hnew, hrest⟩ := List.nodup_cons.mp hnodup
            rw [← hmarks.pending_eq hnew] at hrest
            obtain ⟨htypes, hnone⟩ := ih h hrest
            refine ⟨?_, hnone⟩
            rw [htypes, hmarks.types, ha, hmarks.pending_eq hnew]
            simp
          | false =>
            have hnot : ∀ l, a ∉ s.pending arena l := fun l hmem => by
              rw [(mem_pending.mp hmem).2.1] at ha
              cases ha
            rw [pending_cons_of_settled (by simp [ha])] at hnodup ⊢
            rw [← hmarks.pending_eq (hnot rest)] at hnodup
            obtain ⟨htypes, hnone⟩ := ih h hnodup
            refine ⟨?_, hnone⟩
            rw [htypes, hmarks.types, ha, hmarks.pending_eq (hnot rest)]
            simp

theorem Marks.pending_sublist {listed : Bool} (h : Marks id listed s t) (arena : Arena)
    (ids : List DeclId) :
    (t.pending arena ids).Sublist (s.pending arena ids) := by
  refine List.monotone_filter_right ids fun a ha => ?_
  rw [h.indexed] at ha
  simp only [List.mem_cons, not_or, Bool.and_eq_true, decide_eq_true_iff] at ha ⊢
  exact ⟨ha.1, ha.2.2⟩

theorem visitAll_types_sublist {r : Except Error Unit}
    (h : (visitor arena).visitAll arena ids s = (r, t)) :
    ∃ extra, t.types = s.types ++ extra ∧ extra.Sublist (s.pending arena ids) := by
  induction ids generalizing s with
  | nil =>
    obtain ⟨_, rfl⟩ := Prod.mk.inj h
    exact ⟨[], (List.append_nil _).symm, List.nil_sublist _⟩
  | cons a rest ih =>
    rw [Visitor.visitAll] at h
    cases hv : (visitor arena).visitOne arena a s with
    | mk q u =>
      have hone : ∃ first, u.types = s.types ++ first ∧
          (first ++ u.pending arena rest).Sublist (s.pending arena (a :: rest)) := by
        rcases visitOne_cases hv with ⟨rfl, _⟩ | ⟨_, hmarks⟩
        · exact ⟨[], (List.append_nil _).symm, (List.sublist_cons_self _ _).filter _⟩
        · have hrest := hmarks.pending_sublist arena rest
          cases ha : arena.isAggregate a with
          | true =>
            refine ⟨[a], by rw [hmarks.types, ha]; rfl, ?_⟩
            rw [pending_cons_of_new ha hmarks.new]
            exact hrest.cons_cons a
          | false =>
            refine ⟨[], by rw [hmarks.types, ha]; exact (List.append_nil _).symm, ?_⟩
            rw [pending_cons_of_settled (by simp [ha])]
            exact hrest
      obtain ⟨first, htypes, hfirst⟩ := hone
      rw [hv] at h
      cases q with
      | error e =>
        obtain ⟨_, rfl⟩ := Prod.mk.inj h
        exact ⟨first, htypes, (List.sublist_append_left _ _).trans hfirst⟩
      | ok _ =>
        obtain ⟨extra, hextra, hsub⟩ := ih h
        refine ⟨first ++ extra, by rw [hextra, htypes, List.append_assoc], ?_⟩
        exact ((List.Sublist.refl first).append hsub).trans hfirst

theorem indexScope_eq_ok {scopes : Scopes} {scope : ScopeId}
    (h : s.indexScope arena scopes scope = (.ok (), t)) :
    ∃ source, scopes.get? scope = some source ∧
      (visitor arena).visitAll arena source.history s = (.ok (), t) := by
  rw [indexScope, Scopes.visit] at h
  cases hg : scopes.get scope with
  | error e => rw [hg] at h; cases h
  | ok source =>
    rw [hg] at h
    exact ⟨source, Scopes.get_eq_ok hg, h⟩

end Bluespec.Symbols
