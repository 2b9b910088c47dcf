import Bluespec.Spec
import Mathlib.Data.List.Nodup

namespace Bluespec.Spec

mutual

def size : Spec → Nat
  | ⟨_, _, _, _, members⟩ => sizeAll members + 1

def sizeAll : List Spec → Nat
  | [] => 0
  | m :: rest => m.size + sizeAll rest

end

/-- The node that a path leads to. Each number of a path is the position of a member. -/
def node? : Spec → List Nat → Option Spec
  | s, [] => some s
  | s, i :: path =>
    match s.members[i]? with
    | some m => m.node? path
    | none => none

mutual

/-- The paths to all nodes in post-order: those below the members, one after another, and then
the one to the node itself. -/
def paths : Spec → List (List Nat)
  | ⟨_, _, _, _, members⟩ => pathsFrom 0 members ++ [[]]

def pathsFrom (i : Nat) : List Spec → List (List Nat)
  | [] => []
  | m :: rest => m.paths.map (i :: ·) ++ pathsFrom (i + 1) rest

end

def place : Spec → List Nat → Nat
  | s, [] => sizeAll s.members
  | s, i :: path =>
    match s.members[i]? with
    | some m => sizeAll (s.members.take i) + m.place path
    | none => 0

variable {s m node : Spec} {members : List Spec} {path rest : List Nat} {i j k : Nat}

theorem size_eq (s : Spec) : s.size = sizeAll s.members + 1 := by
  cases s
  rfl

theorem paths_eq (s : Spec) : s.paths = pathsFrom 0 s.members ++ [[]] := by
  cases s
  rfl

theorem node?_cons_eq_some :
    s.node? (i :: path) = some node ↔ ∃ m, s.members[i]? = some m ∧ m.node? path = some node := by
  rw [node?]
  cases s.members[i]? with
  | none => simp
  | some m => simp

theorem place_nil (s : Spec) : s.place [] = sizeAll s.members := rfl

theorem place_cons (h : s.members[i]? = some m) (path : List Nat) :
    s.place (i :: path) = sizeAll (s.members.take i) + m.place path := by
  rw [place, h]

theorem node?_concat_eq_some : s.node? (path ++ [i]) = some node ↔
    ∃ owner, s.node? path = some owner ∧ owner.members[i]? = some node := by
  induction path generalizing s with
  | nil =>
    rw [List.nil_append, node?_cons_eq_some]
    simp [node?]
  | cons j path ih =>
    simp only [List.cons_append, node?_cons_eq_some, ih]
    constructor
    · rintro ⟨m, hm, owner, howner, hnode⟩
      exact ⟨owner, ⟨m, hm, howner⟩, hnode⟩
    · rintro ⟨owner, ⟨m, hm, howner⟩, hnode⟩
      exact ⟨m, hm, owner, howner, hnode⟩

theorem sizeAll_take_add_size_le (h : members[i]? = some m) :
    sizeAll (members.take i) + m.size ≤ sizeAll members := by
  induction members generalizing i with
  | nil => simp at h
  | cons first members ih =>
    cases i with
    | zero =>
      obtain rfl : first = m := by simpa using h
      simp [sizeAll]
    | succ i =>
      have hrest := ih (by simpa using h)
      simp only [List.take_succ_cons, sizeAll]
      omega

theorem place_lt_size (h : s.node? path = some node) : s.place path < s.size := by
  rw [size_eq]
  induction path generalizing s with
  | nil => exact Nat.lt_succ_self _
  | cons i path ih =>
    obtain ⟨m, hm, hnode⟩ := node?_cons_eq_some.mp h
    have hlt := ih hnode
    have hle := sizeAll_take_add_size_le hm
    rw [size_eq] at hle
    rw [place_cons hm]
    omega

theorem place_concat_lt (h : s.node? (path ++ [i]) = some node) :
    s.place (path ++ [i]) < s.place path := by
  induction path generalizing s with
  | nil =>
    obtain ⟨m, hm, _⟩ := node?_cons_eq_some.mp h
    have hle := sizeAll_take_add_size_le hm
    rw [size_eq] at hle
    rw [List.nil_append, place_cons hm, place_nil, place_nil]
    omega
  | cons j path ih =>
    obtain ⟨m, hm, hnode⟩ := node?_cons_eq_some.mp h
    rw [List.cons_append, place_cons hm, place_cons hm]
    exact Nat.add_lt_add_left (ih hnode) _

mutual

theorem length_paths : (s : Spec) → s.paths.length = s.size
  | ⟨_, _, _, _, members⟩ => by simp [paths, size, length_pathsFrom 0 members]

theorem length_pathsFrom (k : Nat) : (members : List Spec) →
    (pathsFrom k members).length = sizeAll members
  | [] => rfl
  | m :: rest => by simp [pathsFrom, sizeAll, length_paths m, length_pathsFrom (k + 1) rest]

end

theorem getElem?_pathsFrom (h : members[i]? = some m) (hj : j < m.size) :
    (pathsFrom k members)[sizeAll (members.take i) + j]? = m.paths[j]?.map ((k + i) :: ·) := by
  induction members generalizing i k with
  | nil => simp at h
  | cons first members ih =>
    cases i with
    | zero =>
      obtain rfl : first = m := by simpa using h
      have hlt : j < (first.paths.map (k :: ·)).length := by simpa [length_paths] using hj
      simp [pathsFrom, sizeAll, List.getElem?_append_left hlt]
    | succ i =>
      have hrest := ih (k := k + 1) (by simpa using h)
      have hsplit : sizeAll ((first :: members).take (i + 1)) + j =
          (first.paths.map (k :: ·)).length + (sizeAll (members.take i) + j) := by
        simp [sizeAll, length_paths, Nat.add_assoc]
      rw [pathsFrom, hsplit, List.getElem?_append_right (Nat.le_add_right _ _),
        Nat.add_sub_cancel_left, hrest, Nat.add_assoc, Nat.add_comm 1 i]

theorem getElem?_paths_place (h : s.node? path = some node) :
    s.paths[s.place path]? = some path := by
  induction path generalizing s with
  | nil => simp [paths_eq, place_nil, ← length_pathsFrom 0 s.members]
  | cons i path ih =>
    obtain ⟨m, hm, hnode⟩ := node?_cons_eq_some.mp h
    have hlt := place_lt_size hnode
    have hle := sizeAll_take_add_size_le hm
    have hin : sizeAll (s.members.take i) + m.place path < (pathsFrom 0 s.members).length := by
      rw [length_pathsFrom]
      omega
    rw [place_cons hm, paths_eq, List.getElem?_append_left hin, getElem?_pathsFrom hm hlt, ih hnode]
    simp

/-- A struct with a union of two fields, and a field after that. -/
example : paths ⟨"S", .named "S", .global, .struct,
      [.aggregate .union "u" (.named "U") [("a", .named "Bool"), ("b", .named "Bool")],
        { name := "c", type := .named "Bool" }]⟩ =
    [[0, 0], [0, 1], [0], [1], []] := by
  rfl

theorem mem_pathsFrom (h : path ∈ pathsFrom k members) :
    ∃ i rest m, path = (k + i) :: rest ∧ members[i]? = some m ∧ rest ∈ m.paths := by
  induction members generalizing k with
  | nil => simp [pathsFrom] at h
  | cons first members ih =>
    rcases List.mem_append.mp h with h | h
    · obtain ⟨rest, hrest, rfl⟩ := List.mem_map.mp h
      exact ⟨0, rest, first, rfl, rfl, hrest⟩
    · obtain ⟨i, rest, m, rfl, hm, hrest⟩ := ih h
      exact ⟨i + 1, rest, m, by simp [Nat.add_assoc, Nat.add_comm 1], by simpa using hm, hrest⟩

theorem mem_paths : path ∈ s.paths ↔ ∃ node, s.node? path = some node := by
  refine ⟨fun h => ?_, fun ⟨node, h⟩ => List.mem_of_getElem? (getElem?_paths_place h)⟩
  induction path generalizing s with
  | nil => exact ⟨s, rfl⟩
  | cons j path ih =>
    have hfrom : j :: path ∈ pathsFrom 0 s.members := by simpa [paths_eq] using h
    obtain ⟨i, rest, m, heq, hm, hrest⟩ := mem_pathsFrom hfrom
    obtain ⟨rfl, rfl⟩ := List.cons.inj heq
    obtain ⟨node, hnode⟩ := ih hrest
    exact ⟨node, node?_cons_eq_some.mpr ⟨m, by simpa using hm, hnode⟩⟩

mutual

theorem nodup_paths : (s : Spec) → s.paths.Nodup
  | ⟨_, _, _, _, members⟩ => by
    refine List.nodup_append.mpr ⟨nodup_pathsFrom 0 members, List.nodup_singleton _, ?_⟩
    rintro path hpath _ hnil rfl
    obtain ⟨_, _, _, hcons, _⟩ := mem_pathsFrom hpath
    rw [List.mem_singleton.mp hnil] at hcons
    cases hcons

theorem nodup_pathsFrom (k : Nat) : (members : List Spec) → (pathsFrom k members).Nodup
  | [] => List.nodup_nil
  | m :: rest => by
    refine List.nodup_append.mpr
      ⟨(nodup_paths m).map List.cons_injective, nodup_pathsFrom (k + 1) rest, ?_⟩
    rintro path hpath _ hlater rfl
    obtain ⟨_, _, rfl⟩ := List.mem_map.mp hpath
    obtain ⟨i, _, _, heq, _⟩ := mem_pathsFrom hlater
    have hk : k = k + 1 + i := (List.cons.inj heq).1
    omega

end

theorem place_inj {other : List Nat} {node' : Spec} (h : s.node? path = some node)
    (h' : s.node? other = some node') (heq : s.place path = s.place other) : path = other := by
  have hpath := getElem?_paths_place h
  rw [heq, getElem?_paths_place h'] at hpath
  exact (Option.some.inj hpath).symm

theorem exists_place (h : i < s.size) :
    ∃ path node, s.node? path = some node ∧ s.place path = i := by
  rw [← length_paths] at h
  obtain ⟨node, hnode⟩ := mem_paths.mp (List.getElem_mem h)
  refine ⟨s.paths[i], node, hnode, ?_⟩
  have hplace := getElem?_paths_place hnode
  rw [List.getElem?_eq_some_iff] at hplace
  obtain ⟨hlt, heq⟩ := hplace
  exact (nodup_paths s).getElem_inj_iff.mp heq

end Bluespec.Spec
