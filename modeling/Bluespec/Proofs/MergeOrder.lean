import Bluespec.Proofs.Merging
import Mathlib.Data.List.Perm.Basic

namespace Bluespec

theorem Table.ext_get? {α : Type} {t u : Table α} (h : ∀ name, t.get? name = u.get? name) :
    t = u := by
  have hperm : t.entries.Perm u.entries := by
    refine (List.perm_ext_iff_of_nodup t.nodup_entries u.nodup_entries).mpr ?_
    rintro ⟨name, value⟩
    rw [mem_entries_iff, mem_entries_iff, h]
  have heq : t.entries = u.entries := by
    refine hperm.eq_of_pairwise (fun a b _ _ hab hba => ?_) t.sorted u.sorted
    exact absurd (String.lt_trans hab hba) (String.lt_irrefl _)
  cases t
  cases u
  cases heq
  rfl

namespace Scopes

def mergeAll (t : Scopes) (target : ScopeId) (policy : Policy) :
    List ScopeId → Except Error Unit × Scopes
  | [] => (.ok (), t)
  | source :: rest =>
    match t.merge target source policy with
    | (.error e, u) => (.error e, u)
    | (.ok (), u) => u.mergeAll target policy rest

def Binds (t : Scopes) (ids : List ScopeId) (name : String) (decl : DeclId) : Prop :=
  ∃ id ∈ ids, ∃ scope, t.get? id = some scope ∧ scope.lookup name = some decl

/-- The scopes exist, and all that bind a name bind it to one declaration. -/
structure Compatible (t : Scopes) (ids : List ScopeId) : Prop where
  present : ∀ id ∈ ids, id.index < t.size
  agree : ∀ name a b, t.Binds ids name a → t.Binds ids name b → a = b

variable {t u : Scopes} {target source : ScopeId} {ids others sources : List ScopeId}
  {name : String} {decl : DeclId}

theorem Binds.subset (h : t.Binds ids name decl) (hsub : ∀ id ∈ ids, id ∈ others) :
    t.Binds others name decl := by
  obtain ⟨id, hid, hbound⟩ := h
  exact ⟨id, hsub id hid, hbound⟩

theorem Compatible.subset (h : t.Compatible ids) (hsub : ∀ id ∈ others, id ∈ ids) :
    t.Compatible others :=
  ⟨fun id hid => h.present id (hsub id hid),
    fun name a b ha hb => h.agree name a b (ha.subset hsub) (hb.subset hsub)⟩

theorem binds_singleton {scope : Scope} (h : t.get? target = some scope) :
    t.Binds [target] name decl ↔ scope.lookup name = some decl := by
  simp [Binds, h]

theorem compatible_singleton (h : target.index < t.size) : t.Compatible [target] := by
  obtain ⟨scope, hscope⟩ := exists_get? h
  refine ⟨by simpa using h, fun name a b ha hb => ?_⟩
  rw [binds_singleton hscope] at ha hb
  exact Option.some.inj (ha.symm.trans hb)

theorem binds_of_merge (h : t.merge target source .strict = (.ok (), u)) :
    u.Binds (target :: sources) name decl ↔ t.Binds (target :: source :: sources) name decl := by
  obtain ⟨incoming, receiving, hs, ht, _, _⟩ := merge_eq_ok h
  obtain ⟨merged, hmerged, hover⟩ := takesOver_of_merge ht hs h
  constructor
  · rintro ⟨id, hid, scope, hscope, hname⟩
    by_cases heq : id = target
    · subst id
      obtain rfl := Option.some.inj (hmerged.symm.trans hscope)
      rw [hover.lookup, Option.or_eq_some_iff] at hname
      obtain hname | ⟨_, hname⟩ := hname
      · exact ⟨source, by simp, incoming, hs, hname⟩
      · exact ⟨target, by simp, receiving, ht, hname⟩
    · have hmem : id ∈ sources := (List.mem_cons.mp hid).resolve_left heq
      exact ⟨id, by simp [hmem], scope, (get?_merge_of_ne h heq).symm.trans hscope, hname⟩
  · rintro ⟨id, hid, scope, hscope, hname⟩
    by_cases heq : id = source
    · subst id
      obtain rfl := Option.some.inj (hs.symm.trans hscope)
      exact ⟨target, by simp, merged, hmerged, by simp [hover.lookup, hname]⟩
    · obtain ⟨scope', hscope', hname'⟩ := lookup_of_merge_strict ht hs h hscope hname
      refine ⟨id, ?_, scope', hscope', hname'⟩
      simpa [heq] using hid

theorem compatible_of_merge (h : t.merge target source .strict = (.ok (), u)) :
    u.Compatible (target :: sources) ↔ t.Compatible (target :: source :: sources) := by
  obtain ⟨_, _, hs, _, _, _⟩ := merge_eq_ok h
  constructor
  · intro hu
    refine ⟨fun id hid => ?_, fun name a b ha hb => ?_⟩
    · by_cases heq : id = source
      · exact heq ▸ index_lt_size hs
      · exact size_merge h ▸ hu.present id (by simpa [heq] using hid)
    · exact hu.agree name a b ((binds_of_merge h).mpr ha) ((binds_of_merge h).mpr hb)
  · intro ht
    refine ⟨fun id hid => ?_, fun name a b ha hb => ?_⟩
    · rw [size_merge h]
      apply ht.present
      rcases List.mem_cons.mp hid with rfl | hid
      · simp
      · simp [hid]
    · exact ht.agree name a b ((binds_of_merge h).mp ha) ((binds_of_merge h).mp hb)

theorem Compatible.exists_merge (h : t.Compatible (target :: source :: sources)) :
    ∃ u, t.merge target source .strict = (.ok (), u) := by
  obtain ⟨receiving, ht⟩ := exists_get? (h.present target (by simp))
  obtain ⟨incoming, hs⟩ := exists_get? (h.present source (by simp))
  refine (merge_strict_isOk_iff ht hs).mpr ?_
  rintro name ⟨a, b, ha, hb, hne⟩
  exact hne (h.agree name a b ⟨target, by simp, receiving, ht, ha⟩
    ⟨source, by simp, incoming, hs, hb⟩)

theorem mergeAll_cons_eq_ok {policy : Policy} :
    t.mergeAll target policy (source :: sources) = (.ok (), u) ↔
      ∃ v, t.merge target source policy = (.ok (), v) ∧
        v.mergeAll target policy sources = (.ok (), u) := by
  rw [mergeAll]
  split
  · rename_i hm
    simp [hm]
  · rename_i v hm
    simp [hm]

/-- Whether all merges succeed can be told from the scopes as they are before the first one. -/
theorem mergeAll_strict_isOk_iff (ht : target.index < t.size) :
    (∃ u, t.mergeAll target .strict sources = (.ok (), u)) ↔ t.Compatible (target :: sources) := by
  induction sources generalizing t with
  | nil => exact ⟨fun _ => compatible_singleton ht, fun _ => ⟨t, rfl⟩⟩
  | cons source rest ih =>
    simp only [mergeAll_cons_eq_ok]
    constructor
    · rintro ⟨u, v, hv, hu⟩
      have hsize : target.index < v.size := by rwa [size_merge hv]
      exact (compatible_of_merge hv).mp ((ih hsize).mp ⟨u, hu⟩)
    · intro h
      obtain ⟨v, hv⟩ := h.exists_merge
      have hsize : target.index < v.size := by rwa [size_merge hv]
      obtain ⟨u, hu⟩ := (ih hsize).mpr ((compatible_of_merge hv).mpr h)
      exact ⟨u, v, hv, hu⟩

theorem binds_of_mergeAll (h : t.mergeAll target .strict sources = (.ok (), u)) :
    u.Binds [target] name decl ↔ t.Binds (target :: sources) name decl := by
  induction sources generalizing t with
  | nil =>
    obtain rfl : t = u := (Prod.mk.inj h).2
    exact Iff.rfl
  | cons source rest ih =>
    obtain ⟨v, hv, hu⟩ := mergeAll_cons_eq_ok.mp h
    rw [ih hu, binds_of_merge hv]

theorem mergeAll_strict_of_perm {order : List ScopeId} (hperm : sources.Perm order)
    (h : t.mergeAll target .strict sources = (.ok (), u)) :
    ∃ v, t.mergeAll target .strict order = (.ok (), v) := by
  cases sources with
  | nil =>
    obtain rfl := hperm.nil_eq
    exact ⟨u, h⟩
  | cons source rest =>
    obtain ⟨v, hv, _⟩ := mergeAll_cons_eq_ok.mp h
    obtain ⟨_, _, _, ht, _, _⟩ := merge_eq_ok hv
    have hcompatible := (mergeAll_strict_isOk_iff (index_lt_size ht)).mp ⟨u, h⟩
    refine (mergeAll_strict_isOk_iff (index_lt_size ht)).mpr (hcompatible.subset fun id hid => ?_)
    exact (hperm.cons target).mem_iff.mpr hid

theorem size_mergeAll {policy : Policy} (h : t.mergeAll target policy sources = (.ok (), u)) :
    u.size = t.size := by
  induction sources generalizing t with
  | nil => rw [(Prod.mk.inj h).2]
  | cons source rest ih =>
    obtain ⟨v, hv, hu⟩ := mergeAll_cons_eq_ok.mp h
    exact (ih hu).trans (size_merge hv)

theorem lookup_of_mergeAll (ht : target.index < t.size)
    (h : t.mergeAll target .strict sources = (.ok (), u)) :
    ∃ merged, u.get? target = some merged ∧
      ∀ name decl, merged.lookup name = some decl ↔ t.Binds (target :: sources) name decl := by
  rw [← size_mergeAll h] at ht
  obtain ⟨merged, hmerged⟩ := exists_get? ht
  refine ⟨merged, hmerged, fun name decl => ?_⟩
  rw [← binds_singleton hmerged, binds_of_mergeAll h]

theorem bindings_eq_of_perm {order : List ScopeId} {v : Scopes} (hperm : sources.Perm order)
    (hu : t.mergeAll target .strict sources = (.ok (), u))
    (hv : t.mergeAll target .strict order = (.ok (), v)) :
    (u.get? target).map (·.bindings) = (v.get? target).map (·.bindings) := by
  by_cases ht : target.index < t.size
  · obtain ⟨merged, hmerged, hlookup⟩ := lookup_of_mergeAll ht hu
    obtain ⟨merged', hmerged', hlookup'⟩ := lookup_of_mergeAll ht hv
    have hsame : merged.bindings = merged'.bindings := by
      refine Table.ext_get? fun name => Option.ext fun decl => ?_
      have hmem : ∀ id, id ∈ target :: sources ↔ id ∈ target :: order :=
        fun id => (hperm.cons target).mem_iff
      calc merged.lookup name = some decl
        _ ↔ t.Binds (target :: sources) name decl := hlookup name decl
        _ ↔ t.Binds (target :: order) name decl :=
          ⟨fun h => h.subset fun id => (hmem id).mp, fun h => h.subset fun id => (hmem id).mpr⟩
        _ ↔ merged'.lookup name = some decl := (hlookup' name decl).symm
    rw [hmerged, hmerged', Option.map_some, Option.map_some, hsame]
  · have hnone : ∀ {w : Scopes}, w.size = t.size → w.get? target = none := by
      intro w hsize
      rw [← hsize] at ht
      exact Array.getElem?_eq_none (Nat.le_of_not_lt ht)
    rw [hnone (size_mergeAll hu), hnone (size_mergeAll hv)]

/-- In which order scopes are merged makes no difference under the strict policy, neither to
success nor to the bindings that come of it. All merges succeed if and only if the scopes agree
before the first one, and the target then binds what any of them bound. -/
theorem mergeAll_strict_order_free (t : Scopes) (target : ScopeId) (sources : List ScopeId) :
    ((∃ order, sources.Perm order ∧ ∃ u, t.mergeAll target .strict order = (.ok (), u)) ↔
      ∀ order, sources.Perm order → ∃ u, t.mergeAll target .strict order = (.ok (), u)) ∧
    (∀ order order' u v, sources.Perm order → sources.Perm order' →
      t.mergeAll target .strict order = (.ok (), u) →
      t.mergeAll target .strict order' = (.ok (), v) →
      (u.get? target).map (·.bindings) = (v.get? target).map (·.bindings)) ∧
    (target.index < t.size →
      ((∃ u, t.mergeAll target .strict sources = (.ok (), u)) ↔ t.Compatible (target :: sources)) ∧
      ∀ u, t.mergeAll target .strict sources = (.ok (), u) → ∃ merged, u.get? target = some merged ∧
        ∀ name decl, merged.lookup name = some decl ↔
          t.Binds (target :: sources) name decl) := by
  refine ⟨⟨?_, ?_⟩, ?_, ?_⟩
  · rintro ⟨order, horder, u, hu⟩ order' horder'
    exact mergeAll_strict_of_perm (horder.symm.trans horder') hu
  · intro h
    exact ⟨sources, .refl _, h sources (.refl _)⟩
  · intro order order' u v horder horder' hu hv
    exact bindings_eq_of_perm (horder.symm.trans horder') hu hv
  · intro ht
    exact ⟨mergeAll_strict_isOk_iff ht, fun u hu => lookup_of_mergeAll ht hu⟩

end Scopes

end Bluespec
