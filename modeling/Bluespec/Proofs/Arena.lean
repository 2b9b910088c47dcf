import Bluespec.Arena

namespace Bluespec.Arena

theorem get?_push (a : Arena) (d : Declaration) (id : DeclId) :
    (a.push d).2.get? id = if id.index = a.size then
      some { d with members := if d.kind.listsMembers then d.members else [] } else a.get? id :=
  Array.getElem?_push

theorem size_push (a : Arena) (d : Declaration) : (a.push d).2.size = a.size + 1 := by
  simp [push, size]

theorem get?_setParent (a : Arena) (owner member id : DeclId) :
    (a.setParent owner member).get? id = if member.index = id.index then
      (a.get? id).map (fun d => { d with parent := some owner }) else a.get? id := by
  simp [setParent, get?, Array.getElem?_modify]

theorem size_adopt (a : Arena) (owner : DeclId) (members : List DeclId) :
    (a.adopt owner members).size = a.size := by
  induction members generalizing a with
  | nil => rfl
  | cons m rest ih => simpa [adopt, setParent, size] using ih (a.setParent owner m)

theorem index_lt_size {a : Arena} {id : DeclId} {d : Declaration} (h : a.get? id = some d) :
    id.index < a.size :=
  (Array.getElem?_eq_some_iff.mp h).1

theorem exists_get? {a : Arena} {id : DeclId} (h : id.index < a.size) : ∃ d, a.get? id = some d :=
  ⟨_, Array.getElem?_eq_getElem h⟩

/-- Every declaration stays under its index and as it is; only a parent may be set. -/
def Keeps (a b : Arena) : Prop :=
  ∀ id d, a.get? id = some d → ∃ parent, b.get? id = some { d with parent }

theorem Keeps.refl (a : Arena) : Keeps a a := fun _ d h => ⟨d.parent, h⟩

theorem Keeps.trans {a b c : Arena} (hab : Keeps a b) (hbc : Keeps b c) : Keeps a c := by
  intro id d h
  obtain ⟨p, hp⟩ := hab id d h
  obtain ⟨q, hq⟩ := hbc id _ hp
  exact ⟨q, hq⟩

theorem keeps_push (a : Arena) (d : Declaration) : Keeps a (a.push d).2 := by
  intro id e h
  have hne : id.index ≠ a.size := Nat.ne_of_lt (index_lt_size h)
  exact ⟨e.parent, by rw [get?_push, if_neg hne, h]⟩

theorem keeps_setParent (a : Arena) (owner member : DeclId) :
    Keeps a (a.setParent owner member) := by
  intro id d h
  rw [get?_setParent]
  split
  · exact ⟨some owner, by rw [h, Option.map_some]⟩
  · exact ⟨d.parent, h⟩

theorem keeps_adopt (a : Arena) (owner : DeclId) (members : List DeclId) :
    Keeps a (a.adopt owner members) := by
  induction members generalizing a with
  | nil => exact Keeps.refl a
  | cons m rest ih => exact (keeps_setParent a owner m).trans (ih (a.setParent owner m))

theorem size_le_of_keeps {a b : Arena} (h : Keeps a b) : a.size ≤ b.size := by
  refine Nat.le_of_not_lt fun hb => ?_
  obtain ⟨p, hp⟩ := h ⟨b.size⟩ _ (Array.getElem?_eq_getElem hb)
  exact Nat.lt_irrefl _ (index_lt_size hp)

section Add

variable (name : String) (type : TypeExpr) (binding : Binding) (kind : Kind)

theorem add_fst (a : Arena) (members : List Spec) :
    (a.add ⟨name, type, binding, kind, members⟩).1 = ⟨(a.addAll members).2.size⟩ := rfl

theorem add_snd (a : Arena) (members : List Spec) :
    (a.add ⟨name, type, binding, kind, members⟩).2 =
      ((a.addAll members).2.push ⟨name, type, binding, kind, (a.addAll members).1, none⟩).2.adopt
        ⟨(a.addAll members).2.size⟩ (a.addAll members).1 := rfl

theorem addAll_cons (a : Arena) (spec : Spec) (rest : List Spec) :
    a.addAll (spec :: rest) =
      ((a.add spec).1 :: ((a.add spec).2.addAll rest).1, ((a.add spec).2.addAll rest).2) := rfl

end Add

mutual

theorem keeps_add (a : Arena) : (spec : Spec) → Keeps a (a.add spec).2
  | ⟨name, type, binding, kind, members⟩ => by
    rw [add_snd]
    exact (keeps_addAll a members).trans ((keeps_push _ _).trans (keeps_adopt _ _ _))

theorem keeps_addAll (a : Arena) : (specs : List Spec) → Keeps a (a.addAll specs).2
  | [] => Keeps.refl a
  | spec :: rest => (keeps_add a spec).trans (keeps_addAll (a.add spec).2 rest)

end

theorem size_add (a : Arena) (spec : Spec) :
    (a.add spec).2.size = (a.add spec).1.index + 1 := by
  obtain ⟨name, type, binding, kind, members⟩ := spec
  rw [add_snd, size_adopt, size_push, add_fst]

theorem size_le_add_index (a : Arena) (spec : Spec) : a.size ≤ (a.add spec).1.index := by
  obtain ⟨name, type, binding, kind, members⟩ := spec
  exact size_le_of_keeps (keeps_addAll a members)

mutual

/-- The declaration under an index, with those that it lists below it, is the one written. -/
def Stores (a : Arena) (id : DeclId) : Spec → Prop
  | ⟨name, type, binding, kind, members⟩ =>
    ∃ ids parent, a.get? id = some ⟨name, type, binding, kind, ids, parent⟩ ∧
      (kind.listsMembers = false → ids = []) ∧
      (kind.listsMembers = true → StoresAll a ids members)

def StoresAll (a : Arena) : List DeclId → List Spec → Prop
  | [], [] => True
  | id :: ids, spec :: specs => Stores a id spec ∧ StoresAll a ids specs
  | _, _ => False

end

mutual

theorem Stores.mono {a b : Arena} (hab : Keeps a b) {id : DeclId} :
    (spec : Spec) → a.Stores id spec → b.Stores id spec
  | ⟨name, type, binding, kind, members⟩, h => by
    obtain ⟨ids, parent, hget, hnone, hall⟩ := h
    obtain ⟨q, hq⟩ := hab id _ hget
    exact ⟨ids, q, hq, hnone, fun hk => StoresAll.mono hab ids members (hall hk)⟩

theorem StoresAll.mono {a b : Arena} (hab : Keeps a b) :
    (ids : List DeclId) → (specs : List Spec) → a.StoresAll ids specs → b.StoresAll ids specs
  | [], [], _ => trivial
  | _ :: ids, spec :: specs, ⟨h, hs⟩ => ⟨Stores.mono hab spec h, StoresAll.mono hab ids specs hs⟩

end

mutual

theorem stores_add (a : Arena) : (spec : Spec) → (a.add spec).2.Stores (a.add spec).1 spec
  | ⟨name, type, binding, kind, members⟩ => by
    have hpush := get?_push (a.addAll members).2
      ⟨name, type, binding, kind, (a.addAll members).1, none⟩ ⟨(a.addAll members).2.size⟩
    rw [if_pos rfl] at hpush
    have hadopt := keeps_adopt ((a.addAll members).2.push
      ⟨name, type, binding, kind, (a.addAll members).1, none⟩).2
      ⟨(a.addAll members).2.size⟩ (a.addAll members).1
    obtain ⟨parent, hget⟩ := hadopt _ _ hpush
    refine ⟨_, parent, hget, fun hk => by simp [hk], fun hk => ?_⟩
    rw [if_pos hk]
    exact StoresAll.mono ((keeps_push _ _).trans hadopt) _ members (stores_addAll a members)

theorem stores_addAll (a : Arena) :
    (specs : List Spec) → (a.addAll specs).2.StoresAll (a.addAll specs).1 specs
  | [] => trivial
  | spec :: rest =>
    ⟨Stores.mono (keeps_addAll (a.add spec).2 rest) spec (stores_add a spec),
      stores_addAll (a.add spec).2 rest⟩

end

def Closed (a : Arena) : Prop := ∀ id d, a.get? id = some d → ∀ m ∈ d.members, m.index < a.size

theorem closed_empty : Closed ∅ := by
  intro id d h
  simp [EmptyCollection.emptyCollection, empty, get?] at h

theorem Closed.push {a : Arena} (ha : a.Closed) {d : Declaration}
    (hd : ∀ m ∈ d.members, m.index < a.size) : (a.push d).2.Closed := by
  intro id e h m hm
  rw [size_push]
  rw [get?_push] at h
  split at h
  · obtain rfl := Option.some.inj h
    dsimp only at hm
    split at hm
    · exact Nat.lt_succ_of_lt (hd m hm)
    · cases hm
  · exact Nat.lt_succ_of_lt (ha id e h m hm)

theorem Closed.setParent {a : Arena} (ha : a.Closed) (owner member : DeclId) :
    (a.setParent owner member).Closed := by
  intro id e h m hm
  have hsize : (a.setParent owner member).size = a.size := size_adopt a owner [member]
  rw [hsize]
  rw [get?_setParent] at h
  split at h
  · obtain ⟨d, hd, rfl⟩ := Option.map_eq_some_iff.mp h
    exact ha id d hd m hm
  · exact ha id e h m hm

theorem Closed.adopt {a : Arena} (ha : a.Closed) (owner : DeclId) (members : List DeclId) :
    (a.adopt owner members).Closed := by
  induction members generalizing a with
  | nil => exact ha
  | cons m rest ih => exact ih (ha.setParent owner m)

theorem lt_size_of_storesAll {a : Arena} : (ids : List DeclId) → (specs : List Spec) →
    a.StoresAll ids specs → ∀ id ∈ ids, id.index < a.size
  | [], [], _, id, hid => nomatch hid
  | key :: ids, ⟨_, _, _, _, _⟩ :: specs, ⟨⟨_, _, hkey, _⟩, hrest⟩, id, hid => by
    rcases List.mem_cons.mp hid with rfl | hid
    · exact index_lt_size hkey
    · exact lt_size_of_storesAll ids specs hrest id hid

mutual

theorem Closed.add {a : Arena} (ha : a.Closed) : (spec : Spec) → (a.add spec).2.Closed
  | ⟨name, type, binding, kind, members⟩ => by
    rw [add_snd]
    refine Closed.adopt ((ha.addAll members).push ?_) _ _
    exact lt_size_of_storesAll _ members (stores_addAll a members)

theorem Closed.addAll {a : Arena} (ha : a.Closed) : (specs : List Spec) → (a.addAll specs).2.Closed
  | [] => ha
  | spec :: rest => (ha.add spec).addAll rest

end

end Bluespec.Arena
