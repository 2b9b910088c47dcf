import Bluespec.Proofs.Arena
import Bluespec.Proofs.SpecPaths

namespace Bluespec

namespace Spec

mutual

/-- What can be read back: nodes of kinds that list no members come without any. -/
def pruned : Spec → Spec
  | ⟨name, type, binding, kind, members⟩ =>
    ⟨name, type, binding, kind, if kind.listsMembers then prunedAll members else []⟩

def prunedAll : List Spec → List Spec
  | [] => []
  | m :: rest => m.pruned :: prunedAll rest

end

def idsFrom (start : Nat) : List Spec → List DeclId
  | [] => []
  | m :: rest => ⟨start + sizeAll m.members⟩ :: idsFrom (start + m.size) rest

theorem le_of_mem_idsFrom {start : Nat} {specs : List Spec} {id : DeclId}
    (h : id ∈ idsFrom start specs) : start ≤ id.index := by
  induction specs generalizing start with
  | nil => cases h
  | cons m rest ih =>
    rcases List.mem_cons.mp h with rfl | h
    · exact Nat.le_add_right _ _
    · exact Nat.le_trans (Nat.le_add_right _ _) (ih h)

theorem getElem?_idsFrom (start : Nat) (specs : List Spec) (i : Nat) :
    (idsFrom start specs)[i]? =
      specs[i]?.map fun m => ⟨start + sizeAll (specs.take i) + sizeAll m.members⟩ := by
  induction specs generalizing start i with
  | nil => rfl
  | cons m rest ih =>
    cases i with
    | zero => simp [idsFrom, sizeAll]
    | succ i => simp [idsFrom, sizeAll, ih, Nat.add_assoc]

theorem idsFrom_members (start : Nat) (s : Spec) : idsFrom start s.members =
    (List.range s.members.length).map fun i => ⟨start + s.place [i]⟩ := by
  apply List.ext_getElem?
  intro i
  rw [getElem?_idsFrom, List.getElem?_map]
  cases hm : s.members[i]? with
  | none => simp [List.getElem?_eq_none_iff.mp hm]
  | some m =>
    obtain ⟨hlt, _⟩ := List.getElem?_eq_some_iff.mp hm
    simp [List.getElem?_range hlt, place_cons hm, place_nil, Nat.add_assoc]

/-- The declaration that stands for a node of `s`, where those of all nodes are stored in
post-order from `start` on and `outer` is the parent of the first one. -/
def declarationAt (s : Spec) (start : Nat) (outer : Option DeclId) (path : List Nat)
    (node : Spec) : Declaration where
  name := node.name
  type := node.type
  binding := node.binding
  kind := node.kind
  members :=
    if node.kind.listsMembers then
      (List.range node.members.length).map fun i => ⟨start + s.place (path ++ [i])⟩
    else []
  parent := if path = [] then outer else some ⟨start + s.place path.dropLast⟩

theorem declarationAt_cons {s m : Spec} {i : Nat} (hm : s.members[i]? = some m) (start : Nat)
    (outer : Option DeclId) (path : List Nat) (node : Spec) :
    m.declarationAt (start + sizeAll (s.members.take i)) (some ⟨start + s.place []⟩) path node =
      s.declarationAt start outer (i :: path) node := by
  cases path with
  | nil => simp [declarationAt, place_cons hm, Nat.add_assoc]
  | cons j path => simp [declarationAt, place_cons hm, Nat.add_assoc]

end Spec

namespace Arena

def readWithin (a : Arena) : (depth : Nat) → DeclId → Option Spec
  | 0, _ => none
  | depth + 1, id =>
    match a.get? id with
    | none => none
    | some d =>
      (d.members.mapM (a.readWithin depth)).map fun members =>
        ⟨d.name, d.type, d.binding, d.kind, members⟩

/-- Read a declaration back. More levels than there are declarations would never end. -/
def read? (a : Arena) (id : DeclId) : Option Spec := a.readWithin a.size id

mutual

theorem Stores.readWithin_eq {a : Arena} {id : DeclId} {depth : Nat} : (spec : Spec) →
    a.Stores id spec → spec.size ≤ depth → a.readWithin depth id = some spec.pruned
  | ⟨name, type, binding, kind, members⟩, ⟨ids, parent, hget, hnone, hall⟩, hsize => by
    cases depth with
    | zero => exact absurd hsize (Nat.not_succ_le_zero _)
    | succ depth =>
      rw [readWithin, hget]
      cases hk : kind.listsMembers with
      | false => simp [hnone hk, Spec.pruned, hk]
      | true =>
        have hread := StoresAll.mapM_readWithin ids members (hall hk) (Nat.le_of_succ_le_succ hsize)
        simp [hread, Spec.pruned, hk]

theorem StoresAll.mapM_readWithin {a : Arena} {depth : Nat} : (ids : List DeclId) →
    (specs : List Spec) → a.StoresAll ids specs → Spec.sizeAll specs ≤ depth →
    ids.mapM (a.readWithin depth) = some (Spec.prunedAll specs)
  | [], [], _, _ => rfl
  | id :: ids, spec :: specs, ⟨h, hs⟩, hsize => by
    rw [Spec.sizeAll] at hsize
    rw [List.mapM_cons, Stores.readWithin_eq spec h (by omega),
      StoresAll.mapM_readWithin ids specs hs (by omega)]
    rfl

end

theorem get?_adopt (a : Arena) (owner : DeclId) (members : List DeclId) (id : DeclId) :
    (a.adopt owner members).get? id = if id ∈ members then
      (a.get? id).map (fun d => { d with parent := some owner }) else a.get? id := by
  induction members generalizing a with
  | nil => rfl
  | cons m rest ih =>
    have hcons : a.adopt owner (m :: rest) = (a.setParent owner m).adopt owner rest := rfl
    rw [hcons, ih, get?_setParent]
    by_cases hm : m = id
    · subst m
      cases a.get? id <;> simp
    · have hindex : m.index ≠ id.index := fun h => hm (congrArg DeclId.mk h)
      simp [hindex, Ne.symm hm]

mutual

theorem size_add_eq (a : Arena) : (spec : Spec) → (a.add spec).2.size = a.size + spec.size
  | ⟨name, type, binding, kind, members⟩ => by
    rw [add_snd, size_adopt, size_push, size_addAll_eq a members]
    rfl

theorem size_addAll_eq (a : Arena) : (specs : List Spec) →
    (a.addAll specs).2.size = a.size + Spec.sizeAll specs
  | [] => rfl
  | spec :: rest => by
    rw [addAll_cons, size_addAll_eq _ rest, size_add_eq a spec, Spec.sizeAll, Nat.add_assoc]

end

theorem add_fst_eq (a : Arena) (spec : Spec) :
    (a.add spec).1 = ⟨a.size + Spec.sizeAll spec.members⟩ := by
  obtain ⟨name, type, binding, kind, members⟩ := spec
  rw [add_fst, size_addAll_eq]

theorem addAll_fst_eq (a : Arena) (specs : List Spec) :
    (a.addAll specs).1 = Spec.idsFrom a.size specs := by
  induction specs generalizing a with
  | nil => rfl
  | cons spec rest ih =>
    rw [addAll_cons, ih, add_fst_eq, size_add_eq, Spec.idsFrom]

mutual

theorem get?_add_of_lt {a : Arena} {id : DeclId} (h : id.index < a.size) : (spec : Spec) →
    (a.add spec).2.get? id = a.get? id
  | ⟨name, type, binding, kind, members⟩ => by
    have hall := get?_addAll_of_lt h members
    have hids : id ∉ (a.addAll members).1 := by
      rw [addAll_fst_eq]
      exact fun hmem => Nat.not_lt_of_le (Spec.le_of_mem_idsFrom hmem) h
    have hnext : id.index ≠ (a.addAll members).2.size := by
      rw [size_addAll_eq]
      omega
    rw [add_snd, get?_adopt, if_neg hids, get?_push, if_neg hnext, hall]

theorem get?_addAll_of_lt {a : Arena} {id : DeclId} (h : id.index < a.size) :
    (specs : List Spec) → (a.addAll specs).2.get? id = a.get? id
  | [] => rfl
  | spec :: rest => by
    have hlater : id.index < (a.add spec).2.size := by
      rw [size_add_eq]
      omega
    exact (get?_addAll_of_lt hlater rest).trans (get?_add_of_lt h spec)

end

mutual

/-- The declarations from `start` on are the nodes of a spec, members before their owners, and all
of them have the links to show for it. -/
def Holds (a : Arena) (start : Nat) (parent : Option DeclId) : Spec → Prop
  | ⟨name, type, binding, kind, members⟩ =>
    a.get? ⟨start + Spec.sizeAll members⟩ = some ⟨name, type, binding, kind,
      if kind.listsMembers then Spec.idsFrom start members else [], parent⟩ ∧
    HoldsAll a start (some ⟨start + Spec.sizeAll members⟩) members

def HoldsAll (a : Arena) (start : Nat) (parent : Option DeclId) : List Spec → Prop
  | [] => True
  | m :: rest => Holds a start parent m ∧ HoldsAll a (start + m.size) parent rest

end

mutual

theorem Holds.congr {a b : Arena} {start : Nat} {parent : Option DeclId} : (spec : Spec) →
    (∀ id : DeclId, start ≤ id.index → id.index < start + spec.size → b.get? id = a.get? id) →
    a.Holds start parent spec → b.Holds start parent spec
  | ⟨name, type, binding, kind, members⟩, hsame, ⟨hget, hall⟩ => by
    rw [Spec.size] at hsame
    refine ⟨(hsame _ (Nat.le_add_right _ _) (by simp)).trans hget, ?_⟩
    exact HoldsAll.congr members (fun id hle hlt => hsame id hle (by omega)) hall

theorem HoldsAll.congr {a b : Arena} {start : Nat} {parent : Option DeclId} :
    (specs : List Spec) → (∀ id : DeclId, start ≤ id.index →
      id.index < start + Spec.sizeAll specs → b.get? id = a.get? id) →
    a.HoldsAll start parent specs → b.HoldsAll start parent specs
  | [], _, _ => trivial
  | m :: rest, hsame, ⟨hm, hrest⟩ => by
    rw [Spec.sizeAll] at hsame
    refine ⟨Holds.congr m (fun id hle hlt => hsame id hle (by omega)) hm, ?_⟩
    exact HoldsAll.congr rest (fun id hle hlt => hsame id (by omega) (by omega)) hrest

end

theorem HoldsAll.adopt {a b : Arena} {start : Nat} {owner : DeclId} {specs : List Spec}
    (h : a.HoldsAll start none specs)
    (htop : ∀ id ∈ Spec.idsFrom start specs,
      b.get? id = (a.get? id).map fun d => { d with parent := some owner })
    (hbelow : ∀ id : DeclId, start ≤ id.index → id.index < start + Spec.sizeAll specs →
      id ∉ Spec.idsFrom start specs → b.get? id = a.get? id) :
    b.HoldsAll start (some owner) specs := by
  induction specs generalizing start with
  | nil => trivial
  | cons m rest ih =>
    obtain ⟨name, type, binding, kind, members⟩ := m
    obtain ⟨⟨hget, hmembers⟩, hrest⟩ := h
    have hafter : ∀ id ∈ Spec.idsFrom (start + (Spec.sizeAll members + 1)) rest,
        start + (Spec.sizeAll members + 1) ≤ id.index := fun id => Spec.le_of_mem_idsFrom
    simp only [Spec.sizeAll, Spec.size, Spec.idsFrom, List.mem_cons, not_or] at htop hbelow
    refine ⟨⟨?_, HoldsAll.congr members (fun id hle hlt => ?_) hmembers⟩,
      ih hrest (fun id hid => htop id (.inr hid)) fun id hle hlt hid => ?_⟩
    · rw [htop _ (.inl rfl), hget]
      rfl
    · -- none of the declarations at the top is among the members of the first one
      refine hbelow id hle (by omega) ⟨?_, fun hid => ?_⟩
      · rintro rfl
        exact Nat.lt_irrefl _ hlt
      · have hge := hafter id hid
        omega
    · rw [Spec.size] at hle hlt
      refine hbelow id (by omega) (by omega) ⟨?_, hid⟩
      rintro rfl
      exact Nat.not_succ_le_self _ hle

mutual

theorem holds_add (a : Arena) : (spec : Spec) → (a.add spec).2.Holds a.size none spec
  | ⟨name, type, binding, kind, members⟩ => by
    have hsize := size_addAll_eq a members
    have hids := addAll_fst_eq a members
    have hlt : ∀ id ∈ Spec.idsFrom a.size members, id.index < a.size + Spec.sizeAll members := by
      rw [← hids, ← hsize]
      exact lt_size_of_storesAll _ members (stores_addAll a members)
    rw [add_snd, hsize, hids]
    refine ⟨?_, (holds_addAll a members).adopt (fun id hid => ?_) fun id _ hid hnot => ?_⟩
    · have hnot : (⟨a.size + Spec.sizeAll members⟩ : DeclId) ∉ Spec.idsFrom a.size members :=
        fun hmem => Nat.lt_irrefl _ (hlt _ hmem)
      rw [get?_adopt, if_neg hnot, get?_push, if_pos hsize.symm]
    · have hne : id.index ≠ (a.addAll members).2.size := hsize ▸ Nat.ne_of_lt (hlt id hid)
      rw [get?_adopt, if_pos hid, get?_push, if_neg hne]
    · have hne : id.index ≠ (a.addAll members).2.size := hsize ▸ Nat.ne_of_lt hid
      rw [get?_adopt, if_neg hnot, get?_push, if_neg hne]

theorem holds_addAll (a : Arena) :
    (specs : List Spec) → (a.addAll specs).2.HoldsAll a.size none specs
  | [] => trivial
  | spec :: rest => by
    have hrest := holds_addAll (a.add spec).2 rest
    rw [size_add_eq] at hrest
    refine ⟨Holds.congr spec (fun id _ hlt => ?_) (holds_add a spec), hrest⟩
    rw [addAll_cons, get?_addAll_of_lt (by rwa [size_add_eq])]

end

theorem HoldsAll.get {a : Arena} {start : Nat} {parent : Option DeclId} {specs : List Spec}
    (h : a.HoldsAll start parent specs) {i : Nat} {m : Spec} (hm : specs[i]? = some m) :
    a.Holds (start + Spec.sizeAll (specs.take i)) parent m := by
  induction specs generalizing start i with
  | nil => simp at hm
  | cons first rest ih =>
    cases i with
    | zero =>
      obtain rfl : first = m := by simpa using hm
      exact h.1
    | succ i =>
      have hrest := ih h.2 (by simpa using hm)
      rwa [Nat.add_assoc] at hrest

theorem Holds.get?_place {a : Arena} {start : Nat} {outer : Option DeclId} {spec node : Spec}
    {path : List Nat} (h : a.Holds start outer spec) (hnode : spec.node? path = some node) :
    a.get? ⟨start + spec.place path⟩ = some (spec.declarationAt start outer path node) := by
  induction path generalizing start outer spec with
  | nil =>
    obtain rfl : spec = node := Option.some.inj hnode
    have hids := Spec.idsFrom_members start spec
    obtain ⟨name, type, binding, kind, members⟩ := spec
    rw [Spec.place_nil, h.1, hids]
    rfl
  | cons i path ih =>
    obtain ⟨m, hm, hnode⟩ := Spec.node?_cons_eq_some.mp hnode
    have hall : a.HoldsAll start (some ⟨start + spec.place []⟩) spec.members := by
      obtain ⟨name, type, binding, kind, members⟩ := spec
      exact h.2
    have hget := ih (hall.get hm) hnode
    rw [Spec.place_cons hm, ← Nat.add_assoc, hget, Spec.declarationAt_cons hm]

section Tree

variable {a : Arena} {spec node : Spec} {path : List Nat} {id : DeclId} {d : Declaration}

theorem get?_add_place (a : Arena) (hnode : spec.node? path = some node) :
    (a.add spec).2.get? ⟨a.size + spec.place path⟩ =
      some (spec.declarationAt a.size none path node) :=
  (holds_add a spec).get?_place hnode

theorem exists_node_of_add (hid : a.size ≤ id.index) (hd : (a.add spec).2.get? id = some d) :
    ∃ path node, spec.node? path = some node ∧ id = ⟨a.size + spec.place path⟩ ∧
      d = spec.declarationAt a.size none path node := by
  have hlt := index_lt_size hd
  rw [size_add_eq] at hlt
  obtain ⟨path, node, hnode, hplace⟩ := Spec.exists_place (s := spec) (i := id.index - a.size)
    (by omega)
  have heq : id = ⟨a.size + spec.place path⟩ := by
    rw [hplace, Nat.add_sub_cancel' hid]
  refine ⟨path, node, hnode, heq, ?_⟩
  rw [heq, get?_add_place a hnode] at hd
  exact (Option.some.inj hd).symm

theorem parent_of_mem_members (hid : a.size ≤ id.index) (hd : (a.add spec).2.get? id = some d)
    {m : DeclId} (hm : m ∈ d.members) :
    m.index < id.index ∧ ∃ e, (a.add spec).2.get? m = some e ∧ e.parent = some id := by
  obtain ⟨path, node, hnode, rfl, rfl⟩ := exists_node_of_add hid hd
  simp only [Spec.declarationAt] at hm
  split at hm
  · obtain ⟨i, hi, rfl⟩ := List.mem_map.mp hm
    have hmember := Spec.node?_concat_eq_some.mpr
      ⟨node, hnode, List.getElem?_eq_getElem (List.mem_range.mp hi)⟩
    refine ⟨Nat.add_lt_add_left (Spec.place_concat_lt hmember) _, _, get?_add_place a hmember, ?_⟩
    simp [Spec.declarationAt]
  · cases hm

theorem mem_members_of_parent (hid : a.size ≤ id.index) (hd : (a.add spec).2.get? id = some d)
    {owner : DeclId} (hparent : d.parent = some owner) :
    id.index < owner.index ∧ ∃ e, (a.add spec).2.get? owner = some e ∧
      (e.kind.listsMembers = true → id ∈ e.members) := by
  obtain ⟨path, node, hnode, rfl, rfl⟩ := exists_node_of_add hid hd
  obtain rfl | ⟨path, i, rfl⟩ := List.eq_nil_or_concat' path
  · simp [Spec.declarationAt] at hparent
  · obtain rfl : ⟨a.size + spec.place path⟩ = owner := by simpa [Spec.declarationAt] using hparent
    obtain ⟨around, haround, hmember⟩ := Spec.node?_concat_eq_some.mp hnode
    obtain ⟨hi, _⟩ := List.getElem?_eq_some_iff.mp hmember
    refine ⟨Nat.add_lt_add_left (Spec.place_concat_lt hnode) _, _, get?_add_place a haround, ?_⟩
    intro hk
    simp only [Spec.declarationAt] at hk ⊢
    rw [if_pos hk]
    exact List.mem_map.mpr ⟨i, List.mem_range.mpr hi, rfl⟩

theorem nodup_members_of_add (hid : a.size ≤ id.index) (hd : (a.add spec).2.get? id = some d) :
    d.members.Nodup := by
  obtain ⟨path, node, hnode, rfl, rfl⟩ := exists_node_of_add hid hd
  have hmember : ∀ i ∈ List.range node.members.length, ∃ m, spec.node? (path ++ [i]) = some m :=
    fun i hi => ⟨_, Spec.node?_concat_eq_some.mpr
      ⟨node, hnode, List.getElem?_eq_getElem (List.mem_range.mp hi)⟩⟩
  simp only [Spec.declarationAt]
  split
  · refine List.Nodup.map_on (fun i hi j hj heq => ?_) List.nodup_range
    obtain ⟨_, hi⟩ := hmember i hi
    obtain ⟨_, hj⟩ := hmember j hj
    have hplace : spec.place (path ++ [i]) = spec.place (path ++ [j]) :=
      Nat.add_left_cancel (DeclId.mk.inj heq)
    simpa using Spec.place_inj hi hj hplace
  · exact List.nodup_nil

end Tree

theorem read?_add (a : Arena) (spec : Spec) :
    (a.add spec).2.read? (a.add spec).1 = some spec.pruned := by
  apply Stores.readWithin_eq spec (stores_add a spec)
  rw [size_add_eq]
  exact Nat.le_add_left _ _

/-- Storing a declaration changes none of those stored before. It adds one for each node, in
post-order and with the last id for the first node, and what can be read back from there is what
was written, but for members that their owners do not list. The parent of each new declaration is
the one for the node around it, so the two kinds of links agree, and both go one way. -/
theorem add_stores_tree (a : Arena) (spec : Spec) :
    let b := (a.add spec).2
    let idOf (path : List Nat) : DeclId := ⟨a.size + spec.place path⟩
    (∀ id, id.index < a.size → b.get? id = a.get? id) ∧
    (b.size = a.size + spec.paths.length ∧ (a.add spec).1 = idOf [] ∧
      (a.add spec).1.index + 1 = b.size) ∧
    (spec.paths.Nodup ∧ ∀ path, path ∈ spec.paths ↔ ∃ node, spec.node? path = some node) ∧
    (∀ path node, spec.node? path = some node → spec.paths[spec.place path]? = some path ∧
      b.get? (idOf path) = some (spec.declarationAt a.size none path node)) ∧
    b.read? (a.add spec).1 = some spec.pruned ∧
    (∀ path i node, spec.node? (path ++ [i]) = some node →
      (idOf (path ++ [i])).index < (idOf path).index) ∧
    (∀ owner d m, a.size ≤ owner.index → b.get? owner = some d → m ∈ d.members →
      m.index < owner.index ∧ ∃ e, b.get? m = some e ∧ e.parent = some owner) ∧
    (∀ m e owner, a.size ≤ m.index → b.get? m = some e → e.parent = some owner →
      m.index < owner.index ∧ ∃ d, b.get? owner = some d ∧
        (d.kind.listsMembers = true → m ∈ d.members)) := by
  intro b idOf
  refine ⟨fun id h => get?_add_of_lt h spec, ⟨?_, add_fst_eq a spec, (size_add a spec).symm⟩,
    ⟨Spec.nodup_paths spec, fun path => Spec.mem_paths⟩, fun path node h => ?_, read?_add a spec,
    fun path i node h => ?_, ?_, ?_⟩
  · rw [Spec.length_paths]
    exact size_add_eq a spec
  · exact ⟨Spec.getElem?_paths_place h, get?_add_place a h⟩
  · exact Nat.add_lt_add_left (Spec.place_concat_lt h) _
  · intro owner d m hnew hd hm
    exact parent_of_mem_members hnew hd hm
  · intro m e owner hnew he hparent
    exact mem_members_of_parent hnew he hparent

/-- A function lists nothing, and still what is written inside of it knows where it belongs. -/
example :
    let b := (Arena.add ∅ ⟨"f", .named "f", .global, .function,
      [{ name := "x", type := .named "Bool", binding := .local }]⟩).2
    (b.get? ⟨0⟩).bind (·.parent) = some ⟨1⟩ ∧ (b.get? ⟨1⟩).map (·.members) = some [] := by
  decide

end Arena

end Bluespec
