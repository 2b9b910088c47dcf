import Bluespec.Scope.Merge

namespace Bluespec

namespace Scope

/-- Scopes lie after the scopes around them, and what a scope binds is part of its history. -/
structure Sound (id : ScopeId) (s : Scope) : Prop where
  parent : ∀ outer, s.parent = some outer → outer.index < id.index
  covered : ∀ e ∈ s.bindings.entries, e.2 ∈ s.history

theorem Sound.bind {id : ScopeId} {s : Scope} (hs : s.Sound id) (name : String) (decl : DeclId) :
    (s.bind name decl).Sound id := by
  refine ⟨hs.parent, fun e he => ?_⟩
  rcases Table.mem_place he with rfl | he
  · simp [Scope.bind]
  · exact List.mem_append_left _ (hs.covered e he)

theorem Sound.bindAll {id : ScopeId} {s : Scope} (hs : s.Sound id)
    (entries : List (String × DeclId)) :
    (entries.foldl (fun s (name, decl) => s.bind name decl) s).Sound id := by
  induction entries generalizing s with
  | nil => exact hs
  | cons e rest ih => exact ih (hs.bind e.1 e.2)

theorem lookup_bind (s : Scope) (name other : String) (decl : DeclId) :
    (s.bind other decl).lookup name = if name = other then some decl else s.lookup name :=
  Table.get?_insert s.bindings other name decl

theorem history_bindAll (s : Scope) (entries : List (String × DeclId)) :
    (entries.foldl (fun s (name, decl) => s.bind name decl) s).history =
      s.history ++ entries.map Prod.snd := by
  induction entries generalizing s with
  | nil => simp
  | cons e rest ih =>
    rw [List.foldl_cons, ih]
    simp [Scope.bind]

/-- A scope with all that another one binds directly, bound in the order of the names. -/
def absorb (target source : Scope) : Scope :=
  source.bindings.entries.foldl (fun s (name, decl) => s.bind name decl) target

theorem history_absorb (target source : Scope) :
    (target.absorb source).history =
      target.history ++ source.bindings.entries.map Prod.snd :=
  history_bindAll target source.bindings.entries

theorem absorb_eq (target source : Scope) :
    ∃ bindings history, target.absorb source = { target with bindings, history } := by
  rw [absorb]
  induction source.bindings.entries generalizing target with
  | nil => exact ⟨target.bindings, target.history, rfl⟩
  | cons e rest ih => exact ih (target.bind e.1 e.2)

theorem name_absorb (target source : Scope) : (target.absorb source).name = target.name := by
  obtain ⟨_, _, h⟩ := absorb_eq target source
  rw [h]

theorem parent_absorb (target source : Scope) : (target.absorb source).parent = target.parent := by
  obtain ⟨_, _, h⟩ := absorb_eq target source
  rw [h]

theorem accept_eq_error {s : Scope} {policy : Policy} {entries : List (String × DeclId)} {e : Error}
    (h : s.accept policy entries = .error e) :
    ∃ before name decl after, entries = before ++ (name, decl) :: after ∧
      (∀ x ∈ before, (s.lookup x.1).any (· ≠ x.2) = false) ∧
      (s.lookup name).any (· ≠ decl) = true ∧ e = .duplicateBinding s.name name := by
  fun_induction accept s policy entries with
  | case1 => cases h
  | case2 => cases h
  | case3 name decl rest hclash =>
    exact ⟨[], name, decl, rest, rfl, by simp, hclash, (Except.error.inj h).symm⟩
  | case4 name decl rest hclash ih =>
    obtain ⟨before, other, d, after, rfl, hbefore, hd⟩ := ih h
    refine ⟨(name, decl) :: before, other, d, after, rfl, ?_, hd⟩
    exact List.forall_mem_cons.mpr ⟨Bool.eq_false_iff.mpr hclash, hbefore⟩

theorem accept_strict_eq_ok {s : Scope} {entries : List (String × DeclId)} :
    s.accept .strict entries = .ok () ↔
      ∀ x ∈ entries, (s.lookup x.1).any (· ≠ x.2) = false := by
  induction entries with
  | nil => simp [accept]
  | cons x rest ih =>
    rw [accept, List.forall_mem_cons]
    split
    · rename_i hclash
      exact ⟨nofun, fun h => absurd hclash (Bool.eq_false_iff.mp h.1)⟩
    · rename_i hclash
      rw [ih]
      exact (and_iff_right (Bool.eq_false_iff.mpr hclash)).symm

end Scope

namespace Scopes

theorem index_lt_size {t : Scopes} {id : ScopeId} {s : Scope} (h : t.get? id = some s) :
    id.index < t.size :=
  (Array.getElem?_eq_some_iff.mp h).1

theorem exists_get? {t : Scopes} {id : ScopeId} (h : id.index < t.size) :
    ∃ s, t.get? id = some s :=
  ⟨_, Array.getElem?_eq_getElem h⟩

theorem index_ne {id key : ScopeId} (h : id ≠ key) : id.index ≠ key.index :=
  fun he => h (congrArg ScopeId.mk he)

theorem get?_push (t : Scopes) (name : String) (parent : Option ScopeId) (id : ScopeId) :
    (t.push name parent).2.get? id =
      if id.index = t.size then some ⟨name, ∅, [], parent⟩ else t.get? id :=
  Array.getElem?_push

theorem size_push (t : Scopes) (name : String) (parent : Option ScopeId) :
    (t.push name parent).2.size = t.size + 1 := by
  simp [push, size]

theorem get?_modify (t : Scopes) (id key : ScopeId) (f : Scope → Scope) :
    (t.modify id f).get? key = if id.index = key.index then (t.get? key).map f else t.get? key := by
  simp [modify, get?, Array.getElem?_modify]

theorem size_modify (t : Scopes) (id : ScopeId) (f : Scope → Scope) :
    (t.modify id f).size = t.size := by
  simp [modify, size]

theorem get?_set_self {t : Scopes} {id : ScopeId} (h : id.index < t.size) (s : Scope) :
    (t.set id s).get? id = some s := by
  rw [size] at h
  simp [set, get?, h]

theorem get?_set_of_ne (t : Scopes) {id key : ScopeId} (h : key ≠ id) (s : Scope) :
    (t.set id s).get? key = t.get? key := by
  have hne : id.index ≠ key.index := (index_ne h).symm
  simp [set, get?, hne]

theorem size_set (t : Scopes) (id : ScopeId) (s : Scope) : (t.set id s).size = t.size := by
  simp [set, size]

theorem set_set (t : Scopes) (id : ScopeId) (s s' : Scope) :
    (t.set id s).set id s' = t.set id s' := by
  simp [set]

theorem set_get? {t : Scopes} {id : ScopeId} {s : Scope} (h : t.get? id = some s) :
    t.set id s = t := by
  obtain ⟨hid, rfl⟩ := Array.getElem?_eq_some_iff.mp h
  simp [set, Array.setIfInBounds, hid]

theorem modify_eq_set {t : Scopes} {id : ScopeId} {s : Scope} (h : t.get? id = some s)
    (f : Scope → Scope) : t.modify id f = t.set id (f s) := by
  refine congrArg Scopes.mk (Array.ext_getElem? fun i => ?_)
  obtain ⟨hid, rfl⟩ := Array.getElem?_eq_some_iff.mp h
  rw [Array.getElem?_modify, Array.getElem?_setIfInBounds]
  split
  · rename_i hi
    simp [← hi, hid]
  · rfl

theorem get_eq_ok {t : Scopes} {id : ScopeId} {s : Scope} (h : t.get id = .ok s) :
    t.get? id = some s := by
  rw [get] at h
  split at h
  · rename_i hs
    rw [hs, Except.ok.inj h]
  · cases h

theorem get_of_get? {t : Scopes} {id : ScopeId} {s : Scope} (h : t.get? id = some s) :
    t.get id = .ok s := by
  rw [get, h]

theorem bindAll_eq {t : Scopes} {id : ScopeId} {s : Scope} (h : t.get? id = some s)
    (entries : List (String × DeclId)) :
    t.bindAll id entries = t.set id (entries.foldl (fun s (name, decl) => s.bind name decl) s) := by
  induction entries generalizing t s with
  | nil => exact (set_get? h).symm
  | cons e rest ih =>
    have hnext : (t.modify id (·.bind e.1 e.2)).get? id = some (s.bind e.1 e.2) := by
      simp [get?_modify, h]
    rw [bindAll, ih hnext, modify_eq_set h, set_set]
    rfl

theorem merge_eq_ok {t u : Scopes} {target source : ScopeId} {policy : Policy}
    (h : t.merge target source policy = (.ok (), u)) :
    ∃ incoming receiving, t.get? source = some incoming ∧ t.get? target = some receiving ∧
      receiving.accept policy incoming.bindings.entries = .ok () ∧
      u = t.set target (receiving.absorb incoming) := by
  rw [merge] at h
  split at h
  · cases h
  · rename_i incoming hs
    split at h
    · cases h
    · rename_i receiving ht
      split at h
      · cases h
      · rename_i haccept
        refine ⟨incoming, receiving, get_eq_ok hs, get_eq_ok ht, haccept, ?_⟩
        rw [← (Prod.mk.inj h).2, bindAll_eq (get_eq_ok ht)]
        rfl

theorem merge_eq_error {t u : Scopes} {target source : ScopeId} {policy : Policy} {e : Error}
    (h : t.merge target source policy = (.error e, u)) : u = t := by
  rw [merge] at h
  split at h
  · exact (Prod.mk.inj h).2.symm
  · split at h
    · exact (Prod.mk.inj h).2.symm
    · split at h
      · exact (Prod.mk.inj h).2.symm
      · cases h

def Sound (t : Scopes) : Prop := ∀ id s, t.get? id = some s → s.Sound id

theorem sound_empty : Scopes.empty.Sound := by
  intro id s h
  simp [empty, get?] at h

theorem Sound.push {t : Scopes} (ht : t.Sound) (name : String) {parent : Option ScopeId}
    (hp : ∀ outer, parent = some outer → outer.index < t.size) :
    (t.push name parent).2.Sound := by
  intro id s h
  rw [get?_push] at h
  split at h
  · rename_i hid
    obtain rfl := Option.some.inj h
    exact ⟨fun outer ho => hid ▸ hp outer ho, fun e he => nomatch he⟩
  · exact ht id s h

theorem Sound.modify {t : Scopes} (ht : t.Sound) {f : Scope → Scope}
    (hf : ∀ id s, s.Sound id → (f s).Sound id) (id : ScopeId) : (t.modify id f).Sound := by
  intro key s h
  rw [get?_modify] at h
  split at h
  · obtain ⟨s', hs', rfl⟩ := Option.map_eq_some_iff.mp h
    exact hf key s' (ht key s' hs')
  · exact ht key s h

theorem Sound.merge {t u : Scopes} (ht : t.Sound) {target source : ScopeId} {policy : Policy}
    (h : t.merge target source policy = (.ok (), u)) : u.Sound := by
  obtain ⟨incoming, receiving, _, hr, _, rfl⟩ := merge_eq_ok h
  intro key s hs
  by_cases hk : key = target
  · subst key
    rw [get?_set_self (index_lt_size hr)] at hs
    obtain rfl := Option.some.inj hs
    exact (ht target receiving hr).bindAll incoming.bindings.entries
  · rw [get?_set_of_ne t hk] at hs
    exact ht key s hs

theorem size_merge {t u : Scopes} {target source : ScopeId} {policy : Policy}
    (h : t.merge target source policy = (.ok (), u)) : u.size = t.size := by
  obtain ⟨_, _, _, _, _, rfl⟩ := merge_eq_ok h
  exact size_set t target _

theorem get?_merge_of_ne {t u : Scopes} {target source key : ScopeId} {policy : Policy}
    (h : t.merge target source policy = (.ok (), u)) (hk : key ≠ target) :
    u.get? key = t.get? key := by
  obtain ⟨_, _, _, _, _, rfl⟩ := merge_eq_ok h
  exact get?_set_of_ne t hk _

end Scopes

end Bluespec
