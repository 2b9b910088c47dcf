import Bluespec.Proofs.Growth
import Bluespec.Proofs.Indexing
import Bluespec.Proofs.ScopeFrame

namespace Bluespec

theorem Arena.Stores.isAggregate_eq {a : Arena} {id : DeclId} :
    {spec : Spec} → a.Stores id spec → a.isAggregate id = spec.kind.isAggregate
  | ⟨_, _, _, _, _⟩, ⟨_, _, hget, _⟩ => by rw [isAggregate, hget]; rfl

theorem Kind.isAggregate_of_isSynonym {k : Kind} (h : k.isSynonym = true) :
    k.isAggregate = false := by
  cases k with
  | synonym _ => rfl
  | _ => cases h

namespace Symbols

variable {s : Symbols} {ids : List DeclId}

theorem pending_of_keeps {a b : Arena} (hab : a.Keeps b) (hids : ∀ id ∈ ids, id.index < a.size) :
    s.pending b ids = s.pending a ids :=
  List.filter_congr fun id hid => by rw [hab.isAggregate_eq (hids id hid)]

theorem pending_of_marks {a : Arena} {t : Symbols}
    (h : ∀ id ∈ ids, id ∈ t.indexed ↔ id ∈ s.indexed) : t.pending a ids = s.pending a ids :=
  List.filter_congr fun id hid => by simp only [h id hid]

end Symbols

namespace Session

variable {s t u v : Session} {own rest : List DeclId}

def history (s : Session) : List DeclId := ((s.scopes.get? s.current).map (·.history)).getD []

theorem history_eq {scope : Scope} (h : s.scopes.get? s.current = some scope) :
    s.history = scope.history := by
  rw [history, h]
  rfl

def pending (s : Session) : List DeclId := s.symbols.pending s.arena s.history

structure Ready (s : Session) : Prop where
  valid : s.Valid
  symbols : s.symbols.Sound s.arena
  bounded : ∀ id ∈ s.history, id.index < s.arena.size

/-- From `s` to `t` the current scope has collected the aggregates `own`. All else that was bound
in it or marked is younger than `s` and leaves nothing to be listed. -/
structure Collects (s t : Session) (own : List DeclId) : Prop where
  keeps : s.arena.Keeps t.arena
  bounded : ∀ id ∈ t.history, id.index < t.arena.size
  bound : ∀ id ∈ t.history, id ∈ s.history ∨ s.arena.size ≤ id.index
  marked : ∀ id, id.index < s.arena.size → (id ∈ t.symbols.indexed ↔ id ∈ s.symbols.indexed)
  pending : t.pending = s.pending ++ own
  ascending : own.Pairwise fun a b => a.index < b.index
  younger : ∀ id ∈ own, s.arena.size ≤ id.index

theorem Collects.refl (hs : s.Ready) : Collects s s [] where
  keeps := .refl _
  bounded := hs.bounded
  bound _ hid := .inl hid
  marked _ _ := .rfl
  pending := (List.append_nil _).symm
  ascending := .nil
  younger := nofun

theorem Collects.lt_size (h : Collects s t own) : ∀ id ∈ own, id.index < t.arena.size := by
  intro id hid
  have hmem : id ∈ t.pending := h.pending ▸ List.mem_append_right _ hid
  exact h.bounded id (Symbols.mem_pending.mp hmem).1

theorem Collects.trans (hst : Collects s t own) (htu : Collects t u rest) :
    Collects s u (own ++ rest) := by
  have hsize : s.arena.size ≤ t.arena.size := Arena.size_le_of_keeps hst.keeps
  refine ⟨hst.keeps.trans htu.keeps, htu.bounded, ?_, ?_, ?_, ?_, ?_⟩
  · intro id hid
    rcases htu.bound id hid with hid | hid
    · exact hst.bound id hid
    · exact .inr (hsize.trans hid)
  · exact fun id hid => (htu.marked id (Nat.lt_of_lt_of_le hid hsize)).trans (hst.marked id hid)
  · rw [htu.pending, hst.pending, List.append_assoc]
  · refine List.pairwise_append.mpr ⟨hst.ascending, htu.ascending, fun a ha b hb => ?_⟩
    exact Nat.lt_of_lt_of_le (hst.lt_size a ha) (htu.younger b hb)
  · intro id hid
    rcases List.mem_append.mp hid with hid | hid
    · exact hst.younger id hid
    · exact hsize.trans (htu.younger id hid)

theorem Collects.ready (h : Collects s t own) (hs : s.Ready) (hm : Moves s t)
    (hcurrent : t.current = s.current) : t.Ready :=
  ⟨hm.valid hcurrent hs.valid, hm.symbols_sound hs.symbols, h.bounded⟩

theorem collects_copied (hs : s.Ready) (hkeeps : s.arena.Keeps t.arena)
    (hmarks : ∀ id, id.index < s.arena.size →
      (id ∈ t.symbols.indexed ↔ id ∈ s.symbols.indexed))
    {copied : List DeclId} (hhistory : t.history = s.history ++ copied)
    (hyoung : ∀ id ∈ copied, s.arena.size ≤ id.index)
    (hbounded : ∀ id ∈ copied, id.index < t.arena.size)
    (hnone : t.symbols.pending t.arena copied = []) : Collects s t [] := by
  refine ⟨hkeeps, fun id hid => ?_, fun id hid => ?_, hmarks, ?_, .nil, nofun⟩
  · rw [hhistory] at hid
    rcases List.mem_append.mp hid with hid | hid
    · exact Nat.lt_of_lt_of_le (hs.bounded id hid) (Arena.size_le_of_keeps hkeeps)
    · exact hbounded id hid
  · rw [hhistory] at hid
    exact (List.mem_append.mp hid).imp_right (hyoung id)
  · have hold : t.symbols.pending t.arena s.history = s.pending := by
      rw [Symbols.pending_of_keeps hkeeps hs.bounded]
      exact Symbols.pending_of_marks fun id hid => hmarks id (hs.bounded id hid)
    rw [pending, hhistory, Symbols.pending_append]
    exact congrArg₂ _ hold hnone

theorem history_declare_synonym {spec : Spec} (h : spec.kind.isSynonym = true) :
    (s.declare spec).2.history = s.history := by
  rw [declare_synonym h]
  rfl

theorem history_declare_bound (hs : s.Valid) {spec : Spec} (h : spec.kind.isSynonym = false) :
    (s.declare spec).2.history = s.history ++ [(s.arena.add spec).1] := by
  obtain ⟨scope, hscope⟩ := Scopes.exists_get? hs.current
  have hbound : (s.declare spec).2.scopes.get? (s.declare spec).2.current =
      some (scope.bind spec.name (s.arena.add spec).1) := by
    rw [declare_bound h, Scopes.get?_modify, if_pos rfl, hscope]
    rfl
  rw [history_eq hbound, history_eq hscope]
  rfl

theorem indexed_declare (s : Session) (spec : Spec) :
    (s.declare spec).2.symbols.indexed = s.symbols.indexed := by
  cases h : spec.kind.isSynonym with
  | true => rw [declare_synonym h]; rfl
  | false => rw [declare_bound h]

theorem types_declare (s : Session) (spec : Spec) :
    (s.declare spec).2.symbols.types = s.symbols.types := by
  cases h : spec.kind.isSynonym with
  | true => rw [declare_synonym h]; rfl
  | false => rw [declare_bound h]

theorem arena_declare (s : Session) (spec : Spec) :
    (s.declare spec).2.arena = (s.arena.add spec).2 := by
  obtain ⟨_, _, h⟩ := declare_eq s spec
  rw [h]

theorem pending_declare (hs : s.Ready) (spec : Spec) :
    (s.declare spec).2.symbols.pending (s.declare spec).2.arena s.history = s.pending := by
  rw [arena_declare, Symbols.pending_of_marks (s := s.symbols) fun id _ => by rw [indexed_declare]]
  exact Symbols.pending_of_keeps (Arena.keeps_add s.arena spec) hs.bounded

def collected (s : Session) (spec : Spec) : List DeclId :=
  if spec.kind.isAggregate then [(s.arena.add spec).1] else []

theorem mem_collected {spec : Spec} {id : DeclId} (h : id ∈ s.collected spec) :
    id = (s.arena.add spec).1 := by
  rw [collected] at h
  split at h
  · exact List.mem_singleton.mp h
  · cases h

theorem pending_singleton (hs : s.Ready) (spec : Spec) :
    (s.declare spec).2.symbols.pending (s.declare spec).2.arena [(s.arena.add spec).1] =
      s.collected spec := by
  have hnew : (s.arena.add spec).1 ∉ (s.declare spec).2.symbols.indexed := by
    rw [indexed_declare]
    exact fun hmem => Nat.not_lt_of_le (Arena.size_le_add_index s.arena spec)
      (hs.symbols.present _ hmem)
  have hkind := (Arena.stores_add s.arena spec).isAggregate_eq
  rw [← arena_declare] at hkind
  rw [collected]
  cases hagg : spec.kind.isAggregate with
  | true => exact Symbols.pending_cons_of_new (hkind.trans hagg) hnew
  | false =>
    refine Symbols.pending_eq_nil.mpr fun id hid ha => ?_
    rw [List.mem_singleton.mp hid, hkind, hagg] at ha
    cases ha

theorem collects_declare (hs : s.Ready) (spec : Spec) :
    Collects s (s.declare spec).2 (s.collected spec) := by
  have hkeeps : s.arena.Keeps (s.declare spec).2.arena := (moves_declare s spec).grows.arena
  have hsize := Arena.size_le_of_keeps hkeeps
  have hnew := Arena.size_le_add_index s.arena spec
  have hlast : (s.arena.add spec).1.index < (s.declare spec).2.arena.size := by
    rw [arena_declare, Arena.size_add]
    exact Nat.lt_succ_self _
  have hhistory : (s.declare spec).2.history = s.history ∧ spec.kind.isAggregate = false ∨
      (s.declare spec).2.history = s.history ++ [(s.arena.add spec).1] := by
    cases h : spec.kind.isSynonym with
    | true => exact .inl ⟨history_declare_synonym h, Kind.isAggregate_of_isSynonym h⟩
    | false => exact .inr (history_declare_bound hs.valid h)
  have hcases : ∀ id ∈ (s.declare spec).2.history,
      id ∈ s.history ∨ id = (s.arena.add spec).1 := by
    intro id hid
    rcases hhistory with ⟨heq, _⟩ | heq
    · exact .inl (heq ▸ hid)
    · rw [heq] at hid
      exact (List.mem_append.mp hid).imp_right List.mem_singleton.mp
  refine ⟨hkeeps, fun id hid => ?_, fun id hid => ?_, fun id hid => ?_, ?_, ?_, fun id hid => ?_⟩
  · rcases hcases id hid with hid | rfl
    · exact Nat.lt_of_lt_of_le (hs.bounded id hid) hsize
    · exact hlast
  · rcases hcases id hid with hid | rfl
    · exact .inl hid
    · exact .inr hnew
  · rw [indexed_declare]
  · rcases hhistory with ⟨heq, hagg⟩ | heq
    · rw [pending, heq, pending_declare hs, collected, hagg]
      exact (List.append_nil _).symm
    · rw [pending, heq, Symbols.pending_append, pending_declare hs, pending_singleton hs]
  · rw [collected]
    split
    · exact List.pairwise_singleton _ _
    · exact .nil
  · exact mem_collected hid ▸ hnew

theorem Ready.declare (hs : s.Ready) (spec : Spec) : (s.declare spec).2.Ready :=
  (collects_declare hs spec).ready hs (moves_declare s spec) (current_declare s spec)

/-- To expose a scope lists what is still to be listed of it, in the order of its history, and
copies nothing to the caller that would be left to list. -/
theorem expose_lists {scope caller : ScopeId} (he : u.expose scope caller = (.ok (), v))
    {source : Scope} (hsource : u.scopes.get? scope = some source)
    (hsound : source.Sound scope)
    (hnodup : (u.symbols.pending u.arena source.history).Nodup) :
    v.arena = u.arena ∧
    v.symbols.types = u.symbols.types ++ u.symbols.pending u.arena source.history ∧
    (∀ id ∈ u.symbols.indexed, id ∈ v.symbols.indexed) ∧
    (∀ id ∈ v.symbols.indexed, id ∈ u.symbols.indexed ∨ id ∈ source.history) ∧
    ∃ receiving copied, u.scopes.get? caller = some receiving ∧
      (v.leave caller).history = receiving.history ++ copied ∧
      (∀ id ∈ copied, id ∈ source.history) ∧ v.symbols.pending v.arena copied = [] := by
  obtain ⟨symbols, scopes, hi, hm, rfl⟩ := expose_eq_ok he
  obtain ⟨source', hsource', hvisit⟩ := Symbols.indexScope_eq_ok hi
  obtain ⟨incoming, receiving, hincoming, hreceiving, _, rfl⟩ := Scopes.merge_eq_ok hm
  obtain rfl : source = source' := Option.some.inj (hsource.symm.trans hsource')
  obtain rfl : source = incoming := Option.some.inj (hsource.symm.trans hincoming)
  obtain ⟨htypes, hnone⟩ := Symbols.visitAll_types hvisit hnodup
  obtain ⟨hkept, hmarked⟩ := Symbols.visitAll_indexed hvisit
  refine ⟨rfl, htypes, hkept, hmarked, receiving, source.bindings.entries.map Prod.snd,
    hreceiving, ?_, ?_, ?_⟩
  · rw [← Scope.history_absorb]
    exact history_eq (Scopes.get?_set_self (Scopes.index_lt_size hreceiving) _)
  · intro id hid
    obtain ⟨e, hmem, rfl⟩ := List.mem_map.mp hid
    exact hsound.covered e hmem
  · refine Symbols.pending_eq_nil.mpr fun id hid => Symbols.pending_eq_nil.mp hnone id ?_
    obtain ⟨e, hmem, rfl⟩ := List.mem_map.mp hid
    exact hsound.covered e hmem

end Session

end Bluespec
