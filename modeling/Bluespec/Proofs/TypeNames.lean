import Bluespec.Proofs.Listing
import Mathlib.Data.List.Pairwise

namespace Bluespec

/-- All aggregates have names of their own, none of which is taken by the language or by a function
type. -/
structure Library.DistinctTypes (lib : Library) (config : Config) (again : Bool) : Prop where
  within : ∀ p, (lib.typeNames config p).Nodup
  across : ∀ p q, p ≠ q → List.Disjoint (lib.typeNames config p) (lib.typeNames config q)
  builtins : ∀ p, List.Disjoint (lib.typeNames config p) Universe.builtinNames
  functions : ∀ p, List.Disjoint (lib.typeNames config p)
    ((Session.functionSpecs config again).map (·.name))

namespace Session

theorem name_functionSpec (k : Nat) : (functionSpec k).name = "Function" ++ k.repr := rfl

theorem functionSpec_name_inj {j k : Nat} (h : (functionSpec j).name = (functionSpec k).name) :
    j = k :=
  Numeral.eq_of_write ((String.append_right_inj "Function").mp h)

theorem nodup_functionSpecs (config : Config) (again : Bool) :
    ((functionSpecs config again).map (·.name)).Nodup := by
  rw [functionSpecs]
  split
  · have hrange : (List.range' 1 (config.functionArityLimit - 1)).Nodup := List.nodup_range'
    rw [List.map_map]
    exact hrange.map fun j k => functionSpec_name_inj
  · exact List.nodup_nil

/-- `Function` is the one name of the language that the name of a function type begins with. -/
theorem functionSpec_not_builtin (k : Nat) :
    (functionSpec k).name ∉ Universe.builtinNames := by
  have hbegins : ∀ name ∈ Universe.builtinNames,
      "Function".toList <+: name.toList → name = "Function" := by decide
  intro h
  have heq := hbegins _ h (by simp [name_functionSpec])
  rw [name_functionSpec] at heq
  exact Nat.repr_ne_empty ((String.append_right_inj "Function").mp heq)

theorem nodup_names {lib : Library} {config : Config} {again : Bool} {order : List String}
    (hlib : lib.DistinctTypes config again) (horder : order.Nodup) :
    (Universe.builtinNames ++ ((functionSpecs config again).map (·.name) ++
      order.flatMap (lib.typeNames config))).Nodup := by
  have hpackages : (order.flatMap (lib.typeNames config)).Nodup :=
    List.nodup_flatMap.mpr ⟨fun p _ => hlib.within p, horder.imp fun hne => hlib.across _ _ hne⟩
  refine List.nodup_append'.mpr ⟨Universe.nodup_builtins, ?_, ?_⟩
  · refine List.nodup_append'.mpr ⟨nodup_functionSpecs config again, hpackages, ?_⟩
    intro name hf hp
    obtain ⟨p, _, hname⟩ := List.mem_flatMap.mp hp
    exact hlib.functions p hname hf
  · intro name hb hname
    rcases List.mem_append.mp hname with hf | hp
    · rw [functionSpecs] at hf
      split at hf
      · obtain ⟨k, _, rfl⟩ := by simpa using hf
        exact functionSpec_not_builtin k hb
      · cases hf
    · obtain ⟨p, _, hname⟩ := List.mem_flatMap.mp hp
      exact hlib.builtins p hname hb

end Session

theorem Arena.constructors_of_names {arena : Arena} {types : List DeclId} {names : List String}
    (h : types.map arena.name? = names.map some) :
    ∃ cs : List Constructor,
      types.map arena.constructor? = cs.map some ∧ cs.map (·.name) = names := by
  induction types generalizing names with
  | nil =>
    obtain rfl : names = [] := List.map_eq_nil_iff.mp h.symm
    exact ⟨[], rfl, rfl⟩
  | cons id types ih =>
    cases names with
    | nil => cases h
    | cons name names =>
      obtain ⟨hid, hrest⟩ := List.cons.inj h
      obtain ⟨cs, hcs, hnames⟩ := ih hrest
      rw [Arena.name?_eq] at hid
      obtain ⟨c, hc, rfl⟩ := Option.map_eq_some_iff.mp hid
      exact ⟨c :: cs, by simp [hc, hcs], by simp [hnames]⟩

theorem Universe.build_of_names {arena : Arena} {types : List DeclId} {names : List String}
    (h : types.map arena.name? = names.map some)
    (hnodup : (Universe.builtinNames ++ names).Nodup) :
    ∃ u, Universe.build arena types = .ok u := by
  obtain ⟨cs, hcs, rfl⟩ := Arena.constructors_of_names h
  refine ⟨.of (Universe.builtins ++ cs), Universe.build_eq_ok.mpr ⟨cs, hcs, rfl, ?_⟩⟩
  rw [Universe.names_of, List.map_append]
  exact hnodup

namespace Session

/-- Let all aggregates have names of their own, and let packages be analyzed in a new session, any
of them again and again. As long as all analyses but the last fail only because some package could
not be read, no two types share a name, and the universe can be built. -/
theorem type_names_distinct {lib : Library} {config : Config} {again : Bool}
    (hlib : lib.DistinctTypes config again) (packages : List String)
    (hfail : ∀ e, .error e ∈ (fresh config again).results lib packages.dropLast →
      e.isUnread = true) :
    let t := (fresh config again).run (packages.map (.analyze lib))
    (t.symbols.types.map t.arena.name?).Nodup ∧
      ∃ u, Universe.build t.arena t.symbols.types = .ok u := by
  intro t
  obtain ⟨order, hlists, hm⟩ := lists_run packages (ready_fresh config again) hfail
  obtain ⟨ids, names, htypes, hids, hsub⟩ := hlists.types
  rw [(fresh_stores config again).2.2.2] at hsub
  have hfunctions := Arena.names_of_storesAll _ _
    ((storesAll_fresh config again).mono hm.grows.arena _ _)
  have hnames : t.symbols.types.map t.arena.name? =
      ((functionSpecs config again).map (·.name) ++ names).map some := by
    rw [htypes, List.map_append, List.map_append, hfunctions, hids]
  have hnodup := (nodup_names hlib hlists.nodup).sublist
    ((List.Sublist.refl _).append ((List.Sublist.refl _).append hsub))
  refine ⟨?_, Universe.build_of_names hnames hnodup⟩
  rw [hnames]
  exact (List.nodup_append'.mp hnodup).2.1.map (Option.some_injective _)

end Session

namespace Library

variable {lib : Library} {config : Config} {again : Bool}

theorem typeNames_eq_nil {names : List String}
    (h : ∀ r ∈ lib.readings, ∃ name ∈ names, r.package = some name)
    {p : String} (hp : p ∉ names) : lib.typeNames config p = [] := by
  rw [typeNames]
  split
  · rename_i y hy
    obtain ⟨path, hparse⟩ := parse_of_read hy
    have hmem : p ∈ names.toFinset := Session.mem_of_parse (by simpa using h) hparse
    exact absurd (List.mem_toFinset.mp hmem) hp
  · rfl

theorem distinctTypes_of_nodup (names : List String)
    (h : ∀ r ∈ lib.readings, ∃ name ∈ names, r.package = some name)
    (hnodup : (Universe.builtinNames ++
      ((Session.functionSpecs config again).map (·.name) ++
        names.flatMap (lib.typeNames config))).Nodup) : lib.DistinctTypes config again := by
  obtain ⟨_, hrest, hbuiltins⟩ := List.nodup_append'.mp hnodup
  obtain ⟨_, hpackages, hfunctions⟩ := List.nodup_append'.mp hrest
  obtain ⟨hwithin, hacross⟩ := List.nodup_flatMap.mp hpackages
  have hnames : ∀ p, ∀ name ∈ lib.typeNames config p, p ∈ names := by
    intro p name hname
    by_contra hp
    rw [typeNames_eq_nil h hp] at hname
    cases hname
  have hmem : ∀ p, ∀ name ∈ lib.typeNames config p, name ∈ names.flatMap (lib.typeNames config) :=
    fun p name hname => List.mem_flatMap.mpr ⟨p, hnames p name hname, hname⟩
  refine ⟨fun p => ?_, fun p q hne name hp hq => ?_, fun p name hp hb => ?_,
    fun p name hp hf => ?_⟩
  · by_cases hp : p ∈ names
    · exact hwithin p hp
    · rw [typeNames_eq_nil h hp]
      exact List.nodup_nil
  · have : Std.Symm (Function.onFun List.Disjoint (lib.typeNames config)) :=
      ⟨fun _ _ hd => hd.symm⟩
    exact hacross.forall (hnames p name hp) (hnames q name hq) hne hp hq
  · exact hbuiltins hb (List.mem_append_right _ (hmem p name hp))
  · exact hfunctions hf (hmem p name hp)

end Library

def Library.contested : Library where
  isFile := ["./Top.bsv", "./A.bsv"].contains
  readings :=
    [{ package := some "Top"
       result := .ok (.ofEntries "Top" ""
        [.declares { name := "f", type := .named "f", kind := .function }, .requires "A"]) },
     { package := some "A"
       result := .ok (.ofEntries "A" "" [.declares (.aggregate .struct "S" (.named "S") []),
        .declares { name := "f", type := .named "f", kind := .function }]) }]

def Config.strictHere : Config := { Config.here with importPolicy := .strict }

theorem Library.distinctTypes_contested : Library.contested.DistinctTypes .strictHere true := by
  apply distinctTypes_of_nodup ["Top", "A"]
  · simp [contested]
  · decide +kernel

namespace Session

/-- First a package is missing, and then the two functions clash after the type was listed. -/
theorem type_names_distinct_contested :
    let t := (fresh .strictHere true).run (["Gone", "Top"].map (.analyze .contested))
    (fresh .strictHere true).results .contested ["Gone", "Top"] =
      [.error (.packageNotFound "Gone" ["./Gone.bsv"]), .error (.duplicateBinding "Top" "f")] ∧
    some "S" ∈ t.symbols.types.map t.arena.name? ∧
    (t.symbols.types.map t.arena.name?).Nodup ∧
      ∃ u, Universe.build t.arena t.symbols.types = .ok u := by
  refine ⟨by decide +kernel, by decide +kernel,
    type_names_distinct Library.distinctTypes_contested ["Gone", "Top"] fun e he => ?_⟩
  have hresults : (fresh .strictHere true).results .contested ["Gone"] =
      [.error (.packageNotFound "Gone" ["./Gone.bsv"])] := by decide +kernel
  have heq : .error e = Except.error _ := List.mem_singleton.mp (hresults ▸ he)
  rw [Except.error.inj heq]
  rfl

/-- When `A` is analyzed after the clash, its type is listed for the second time. -/
theorem type_repeated_contested :
    let t := (fresh .strictHere true).run (["Top", "A"].map (.analyze .contested))
    Library.contested.DistinctTypes .strictHere true ∧
    (fresh .strictHere true).results .contested ["Top"] =
      [.error (.duplicateBinding "Top" "f")] ∧
    (t.symbols.types.map t.arena.name?).count (some "S") = 2 ∧
    Universe.build t.arena t.symbols.types = .error (.duplicateConstructor "S") := by
  intro t
  exact ⟨Library.distinctTypes_contested, by decide +kernel, by decide +kernel,
    by decide +kernel⟩

end Session

end Bluespec
