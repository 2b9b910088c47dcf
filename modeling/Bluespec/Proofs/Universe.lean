import Bluespec.Universe
import Bluespec.Proofs.Symbols
import Mathlib.Data.List.Nodup

namespace Bluespec

def Declaration.constructor (d : Declaration) : Constructor := .ofArity d.name d.type.arity

theorem Declaration.arity_constructor (d : Declaration) :
    d.constructor.arity = d.type.params.length := List.length_replicate

def Arena.constructor? (a : Arena) (id : DeclId) : Option Constructor :=
  (a.get? id).map (·.constructor)

def Arena.name? (a : Arena) (id : DeclId) : Option String := (a.get? id).map (·.name)

theorem Arena.name?_eq (a : Arena) (id : DeclId) :
    a.name? id = (a.constructor? id).map (·.name) := by
  rw [constructor?, Option.map_map]
  rfl

theorem Arena.Keeps.constructor?_eq {a b : Arena} (h : Keeps a b) {id : DeclId} {c : Constructor}
    (hc : a.constructor? id = some c) : b.constructor? id = some c := by
  obtain ⟨d, hd, rfl⟩ := Option.map_eq_some_iff.mp hc
  obtain ⟨parent, hb⟩ := h id d hd
  rw [constructor?, hb]
  rfl

namespace Universe

variable {arena : Arena} {types : List DeclId} {u v : Universe} {cs : List Constructor}
  {c : Constructor} {name : String}

namespace Draft

def of (variants : List Constructor) : Draft := ⟨variants.map (·.name), variants⟩

theorem extend_of (cs : List Constructor) (d : Declaration) : (of cs).extend d =
    if d.name ∈ cs.map (·.name) then .error (.duplicateConstructor d.name)
    else .ok (of (cs ++ [d.constructor])) := by
  rw [extend, of, of, List.map_append]
  rfl

theorem add_of_eq_ok {w : Draft} {id : DeclId} : (of cs).add arena id = .ok w ↔
    ∃ c, arena.constructor? id = some c ∧ c.name ∉ cs.map (·.name) ∧ w = of (cs ++ [c]) := by
  rw [add]
  cases hd : arena.get id with
  | error e =>
    constructor
    · intro h
      cases h
    · rintro ⟨c, hc, _, _⟩
      obtain ⟨d, hd', _⟩ := Option.map_eq_some_iff.mp hc
      rw [Arena.get, hd'] at hd
      cases hd
  | ok d =>
    have hc : arena.constructor? id = some d.constructor := by
      rw [Arena.constructor?, Arena.get_eq_ok hd]
      rfl
    dsimp only
    rw [extend_of, hc]
    split
    · rename_i hmem
      constructor
      · intro h
        cases h
      · rintro ⟨c, hc', hnew, _⟩
        obtain rfl := Option.some.inj hc'
        exact absurd hmem hnew
    · rename_i hnew
      constructor
      · intro h
        exact ⟨d.constructor, rfl, hnew, (Except.ok.inj h).symm⟩
      · rintro ⟨c, hc', _, rfl⟩
        rw [← Option.some.inj hc']

theorem foldlM_add_eq_ok {w : Draft} (types : List DeclId) (hcs : (cs.map (·.name)).Nodup) :
    types.foldlM (add arena) (of cs) = .ok w ↔
      ∃ ds, types.map arena.constructor? = ds.map some ∧ w = of (cs ++ ds) ∧
        ((cs ++ ds).map (·.name)).Nodup := by
  induction types generalizing cs with
  | nil =>
    constructor
    · intro h
      obtain rfl := Except.ok.inj h
      exact ⟨[], rfl, by rw [List.append_nil], by rwa [List.append_nil]⟩
    · rintro ⟨ds, hds, rfl, _⟩
      obtain rfl : ds = [] := List.map_eq_nil_iff.mp hds.symm
      rw [List.append_nil]
      rfl
  | cons id rest ih =>
    rw [List.foldlM_cons]
    constructor
    · intro h
      cases hadd : (of cs).add arena id with
      | error e => rw [hadd] at h; cases h
      | ok v =>
        rw [hadd] at h
        obtain ⟨c, hc, hnew, rfl⟩ := add_of_eq_ok.mp hadd
        have hmore : ((cs ++ [c]).map (·.name)).Nodup := by
          rw [List.map_append, List.nodup_append]
          exact ⟨hcs, List.nodup_singleton _,
            by simpa using fun a ha => ne_of_mem_of_not_mem (List.mem_map_of_mem ha) hnew⟩
        obtain ⟨ds, hds, rfl, hnodup⟩ := (ih hmore).mp h
        rw [List.append_assoc] at hnodup ⊢
        exact ⟨c :: ds, by rw [List.map_cons, List.map_cons, hc, hds], rfl, hnodup⟩
    · rintro ⟨ds, hds, rfl, hnodup⟩
      cases ds with
      | nil => cases hds
      | cons c ds =>
        obtain ⟨hc, hrest⟩ := List.cons.inj hds
        rw [List.append_cons] at hnodup
        have hmore : ((cs ++ [c]).map (·.name)).Nodup := by
          rw [List.map_append] at hnodup
          exact (List.nodup_append.mp hnodup).1
        have hnew : c.name ∉ cs.map (·.name) := fun hmem => by
          rw [List.map_append, List.nodup_append] at hmore
          exact hmore.2.2 c.name hmem c.name List.mem_cons_self rfl
        have hadd : (of cs).add arena id = .ok (of (cs ++ [c])) :=
          add_of_eq_ok.mpr ⟨c, hc, hnew, rfl⟩
        rw [hadd]
        exact (ih hmore).mpr ⟨ds, hrest, by rw [List.append_cons], hnodup⟩

end Draft

def of (variants : List Constructor) : Universe := (Draft.of variants).finish

theorem names_of (cs : List Constructor) : (of cs).names = cs.map (·.name) := rfl

theorem pairs_of (cs : List Constructor) :
    (cs.map (·.name)).zip cs = cs.map fun c => (c.name, c) := by
  induction cs with
  | nil => rfl
  | cons c cs ih => rw [List.map_cons, List.zip_cons_cons, ih, List.map_cons]

theorem find?_of (h : (cs.map (·.name)).Nodup) :
    (of cs).find? name = some c ↔ c ∈ cs ∧ c.name = name := by
  have hkeys : (((cs.map (·.name)).zip cs).map Prod.fst).Nodup := by
    rw [pairs_of, List.map_map]
    exact h
  refine (Table.get?_ofList hkeys).trans ?_
  simp [pairs_of, and_comm]

theorem recognizer?_of (h : (cs.map (·.name)).Nodup) {r : Recognizer} :
    (of cs).recognizer? name = some r ↔
      ∃ c ∈ cs, c.name = name ∧ r = ⟨recognizerName name, c⟩ := by
  refine (Table.get?_ofList ?_).trans ?_
  · rw [Draft.of, pairs_of, List.map_map, List.map_map]
    exact h
  rw [Draft.of, pairs_of]
  constructor
  · intro hmem
    obtain ⟨p, hp, heq⟩ := List.mem_map.mp hmem
    obtain ⟨c, hc, rfl⟩ := List.mem_map.mp hp
    obtain ⟨rfl, rfl⟩ := Prod.mk.inj heq
    exact ⟨c, hc, rfl, rfl⟩
  · rintro ⟨c, hc, rfl, rfl⟩
    exact List.mem_map.mpr ⟨(c.name, c), List.mem_map_of_mem hc, rfl⟩

theorem nodup_builtins : builtinNames.Nodup := by decide

/-- Building succeeds where all types exist and all names are different, and it gives the type
formers of the language followed by one variant for each type. -/
theorem build_eq_ok : build arena types = .ok u ↔
    ∃ cs, types.map arena.constructor? = cs.map some ∧ u = of (builtins ++ cs) ∧
      u.names.Nodup := by
  have hfold := fun w => @Draft.foldlM_add_eq_ok arena builtins w types nodup_builtins
  rw [build]
  cases hw : types.foldlM (Draft.add arena) .start with
  | error e =>
    refine ⟨nofun, ?_⟩
    rintro ⟨cs, hcs, rfl, hnodup⟩
    have hok := (hfold _).mpr ⟨cs, hcs, rfl, hnodup⟩
    cases hw.symm.trans hok
  | ok w =>
    obtain ⟨cs, hcs, rfl, hnodup⟩ := (hfold w).mp hw
    constructor
    · intro h
      obtain rfl := Except.ok.inj h
      exact ⟨cs, hcs, rfl, hnodup⟩
    · rintro ⟨ds, hds, rfl, _⟩
      obtain rfl : cs = ds :=
        List.map_injective_iff.mpr (fun _ _ => Option.some.inj) (hcs.symm.trans hds)
      rfl

section Built

variable (hu : build arena types = .ok u)
include hu

theorem names_eq : u.names = u.variants.map (·.name) := by
  obtain ⟨cs, _, rfl, _⟩ := build_eq_ok.mp hu
  rfl

theorem nodup_names : u.names.Nodup := by
  obtain ⟨_, _, _, hnodup⟩ := build_eq_ok.mp hu
  exact hnodup

theorem find?_iff : u.find? name = some c ↔ c ∈ u.variants ∧ c.name = name := by
  obtain ⟨cs, _, rfl, hnodup⟩ := build_eq_ok.mp hu
  exact find?_of hnodup

theorem recognizer?_iff {r : Recognizer} : u.recognizer? name = some r ↔
    ∃ c ∈ u.variants, c.name = name ∧ r = ⟨recognizerName name, c⟩ := by
  obtain ⟨cs, _, rfl, hnodup⟩ := build_eq_ok.mp hu
  exact recognizer?_of hnodup

theorem find?_isSome_iff : (u.find? name).isSome = true ↔ name ∈ u.names := by
  rw [names_eq hu, List.mem_map, Option.isSome_iff_exists]
  simp only [find?_iff hu]

theorem arity?_of_mem (hc : c ∈ u.variants) : u.arity? c.name = some c.arity := by
  rw [arity?, (find?_iff hu).mpr ⟨hc, rfl⟩]
  rfl

theorem find?_builtin (hc : c ∈ builtins) : u.find? c.name = some c := by
  obtain ⟨cs, _, rfl, hnodup⟩ := build_eq_ok.mp hu
  exact (find?_of hnodup).mpr ⟨List.mem_append_left cs hc, rfl⟩

theorem userCount_of_build : u.userCount = types.length := by
  obtain ⟨cs, hcs, rfl, _⟩ := build_eq_ok.mp hu
  have hlen : types.length = cs.length := by simpa using congrArg List.length hcs
  have hbuiltins : builtinNames.length = (builtins.map (·.name)).length := rfl
  rw [userCount, size, names_of, hlen, hbuiltins, List.map_append, List.length_append,
    Nat.add_sub_cancel_left, List.length_map]

theorem names_of_build :
    u.names.map some = builtins.map (fun c => some c.name) ++ types.map arena.name? := by
  obtain ⟨cs, hcs, rfl, _⟩ := build_eq_ok.mp hu
  have htypes : types.map arena.name? = cs.map (fun c => some c.name) :=
    calc types.map arena.name?
        = (types.map arena.constructor?).map (Option.map (·.name)) := by
          rw [List.map_map]
          exact List.map_congr_left fun id _ => arena.name?_eq id
      _ = cs.map (fun c => some c.name) := by
          rw [hcs, List.map_map]
          rfl
  rw [htypes, names_of]
  simp only [List.map_append, List.map_map, Function.comp_def]

theorem arity_of_build {id : DeclId} (hid : id ∈ types) :
    ∃ d, arena.get? id = some d ∧ u.arity? d.name = some d.type.params.length := by
  obtain ⟨cs, hcs, hof, _⟩ := build_eq_ok.mp hu
  have hmem : arena.constructor? id ∈ cs.map some := hcs ▸ List.mem_map_of_mem hid
  obtain ⟨c, hc, heq⟩ := List.mem_map.mp hmem
  obtain ⟨d, hd, rfl⟩ := Option.map_eq_some_iff.mp heq.symm
  subst hof
  have harity := arity?_of_mem hu (List.mem_append_right builtins hc)
  exact ⟨d, hd, d.arity_constructor ▸ harity⟩

end Built

theorem build_of_keeps {a b : Arena} (h : a.Keeps b) (hu : build a types = .ok u) :
    build b types = .ok u := by
  obtain ⟨cs, hcs, hu, hnodup⟩ := build_eq_ok.mp hu
  refine build_eq_ok.mpr ⟨cs, ?_, hu, hnodup⟩
  rw [← hcs]
  refine List.map_congr_left fun id hid => ?_
  have hmem : a.constructor? id ∈ cs.map some := hcs ▸ List.mem_map_of_mem hid
  obtain ⟨c, _, hc⟩ := List.mem_map.mp hmem
  rw [← hc]
  exact h.constructor?_eq hc.symm

theorem names_extend {known types : List DeclId} (hp : known <+: types)
    (hu : build arena known = .ok u) (hv : build arena types = .ok v) : u.names <+: v.names := by
  obtain ⟨rest, rfl⟩ := hp
  obtain ⟨cs, hcs, rfl, _⟩ := build_eq_ok.mp hu
  obtain ⟨ds, hds, rfl, _⟩ := build_eq_ok.mp hv
  rw [List.map_append, hcs] at hds
  obtain ⟨cs', rest', rfl, hcs', _⟩ := List.map_eq_append_iff.mp hds.symm
  obtain rfl : cs' = cs := List.map_injective_iff.mpr (fun _ _ => Option.some.inj) hcs'
  rw [names_of, names_of, ← List.append_assoc]
  exact (List.prefix_append _ rest').map _

theorem ordinal?_of_extends (hp : u.names <+: v.names) {k : Nat}
    (h : u.ordinal? name = some k) : v.ordinal? name = some k := by
  obtain ⟨rest, hrest⟩ := hp
  rw [ordinal?] at h
  rw [ordinal?, ← hrest, List.findIdx?_append, h]
  rfl

end Universe

end Bluespec
