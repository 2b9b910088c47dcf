import Bluespec.Proofs.Constructors
import Bluespec.Proofs.TypeNames

namespace Bluespec

/-- The declaration of a type that takes `k` variables, no two of them the same. -/
structure Declaration.TakesVariables (d : Declaration) (n : String) (k : Nat) : Prop where
  name : d.name = n
  type : d.type.name = n
  arity : d.type.params.length = k
  areVariables : ∀ p ∈ d.type.params, ∃ v, p = .var v
  distinct : d.type.params.Nodup

theorem Arena.StoresAll.forall₂ {a : Arena} : (ids : List DeclId) → (specs : List Spec) →
    a.StoresAll ids specs → List.Forall₂ a.Stores ids specs
  | [], [], _ => .nil
  | _ :: ids, _ :: specs, ⟨h, hs⟩ => .cons h (forall₂ ids specs hs)

namespace Session

section Declared

variable {arena : Arena} {id : DeclId} {k : Nat}

theorem length_params_functionType (k : Nat) : (functionType k).params.length = k := by
  simp [functionType, TypeExpr.applied]

theorem nodup_params_functionType (k : Nat) : (functionType k).params.Nodup := by
  refine List.nodup_range.map fun i j h => ?_
  exact Numeral.eq_of_write ((String.append_right_inj "a").mp (congrArg TypeExpr.name h))

theorem takesVariables_of_stores (h : arena.Stores id (functionSpec k)) :
    ∃ d, arena.get? id = some d ∧ d.TakesVariables ("Function" ++ toString k) k := by
  obtain ⟨ids, parent, hget, _⟩ := h
  refine ⟨_, hget, rfl, rfl, length_params_functionType k, ?_, nodup_params_functionType k⟩
  intro p hp
  obtain ⟨i, _, rfl⟩ := List.mem_map.mp hp
  exact ⟨_, rfl⟩

def functionConstructor (k : Nat) : Constructor := .ofArity (functionSpec k).name k

theorem constructor?_of_stores (h : arena.Stores id (functionSpec k)) :
    arena.constructor? id = some (functionConstructor k) := by
  obtain ⟨ids, parent, hget, _⟩ := h
  rw [Arena.constructor?, hget, functionConstructor]
  exact congrArg (some ∘ Constructor.ofArity _) (length_params_functionType k)

end Declared

variable {config : Config}

theorem stores_start (h : config.synthesizeFunctions = true) :
    List.Forall₂ (fun id k => (start config).arena.Stores id (functionSpec k))
      (start config).symbols.types (List.range' 1 (config.functionArityLimit - 1)) := by
  have hall := (storesAll_fresh config false).forall₂
  rw [functionSpecs, h, Bool.true_or, if_pos rfl, List.forall₂_map_right_iff] at hall
  exact hall

theorem nodup_functionNames (arities : List Nat) (h : arities.Nodup) :
    (Universe.of (Universe.builtins ++ arities.map functionConstructor)).names.Nodup := by
  rw [Universe.names_of, List.map_append, List.map_map]
  refine List.nodup_append'.mpr ⟨Universe.nodup_builtins, ?_, ?_⟩
  · exact h.map fun j k => functionSpec_name_inj
  · intro name hbuiltin hfunction
    obtain ⟨k, _, rfl⟩ := List.mem_map.mp hfunction
    exact functionSpec_not_builtin k hbuiltin

theorem build_start (h : config.synthesizeFunctions = true) :
    Universe.build (start config).arena (start config).symbols.types =
      .ok (.of (Universe.builtins ++
        (List.range' 1 (config.functionArityLimit - 1)).map functionConstructor)) := by
  refine Universe.build_eq_ok.mpr ⟨_, ?_, rfl, nodup_functionNames _ List.nodup_range'⟩
  rw [List.map_map, ← List.forall₂_eq_eq_eq, List.forall₂_map_left_iff, List.forall₂_map_right_iff]
  exact (stores_start h).imp fun id k hstores => constructor?_of_stores hstores

theorem arity?_function (h : config.synthesizeFunctions = true) (k : Nat) :
    (Universe.of (Universe.builtins ++
      (List.range' 1 (config.functionArityLimit - 1)).map functionConstructor)).arity?
        ("Function" ++ toString k) =
      if k ∈ List.range' 1 (config.functionArityLimit - 1) then some k else none := by
  have hbuild := build_start h
  split
  · rename_i hk
    have harity := Universe.arity?_of_mem hbuild
      (List.mem_append_right _ (List.mem_map_of_mem hk))
    rw [functionConstructor, Constructor.ofArity, Constructor.arity, List.length_replicate]
      at harity
    exact harity
  · rename_i hk
    rw [Universe.arity?, Option.map_eq_none_iff, ← Option.not_isSome_iff_eq_none,
      Universe.find?_isSome_iff hbuild, Universe.names_of, List.map_append, List.mem_append]
    rintro (hbuiltin | hfunction)
    · exact functionSpec_not_builtin k hbuiltin
    · rw [List.map_map] at hfunction
      obtain ⟨j, hj, hname⟩ := List.mem_map.mp hfunction
      exact hk (functionSpec_name_inj hname ▸ hj)

section Flag

variable {lib : Library} {p : String} {s t : Session}

theorem hasFunctionTypes_cache {r : Except Error Package}
    (hf : (s.enter p).fetch lib p = (r, t)) (scope : ScopeId) :
    (t.cache p scope).hasFunctionTypes = s.hasFunctionTypes := by
  obtain ⟨_, rfl⟩ := fetched_eq hf
  rfl

theorem hasFunctionTypes_declare (s : Session) (spec : Spec) :
    (s.declare spec).2.hasFunctionTypes = s.hasFunctionTypes := by
  obtain ⟨_, _, h⟩ := declare_eq s spec
  rw [h]

theorem hasFunctionTypes_expose {r : Except Error Unit} {scope caller : ScopeId}
    (h : s.expose scope caller = (r, t)) : t.hasFunctionTypes = s.hasFunctionTypes := by
  obtain ⟨_, _, rfl⟩ := expose_eq h
  rfl

mutual

theorem Analyzes.hasFunctionTypes_eq {p : String} {s : Session}
    {r : Except Error Analysis × Session} {d : Nat} {l : List (String × Bool)} :
    Analyzes lib p s r d l → r.2.hasFunctionTypes = s.hasFunctionTypes
  | .known _ => rfl
  | .unread _ hf => hasFunctionTypes_cache hf s.nextScope
  | .broken _ hf hw => hw.hasFunctionTypes_eq.trans (hasFunctionTypes_cache hf _)
  | .hidden _ hf hw he | .done _ hf hw he =>
    (hasFunctionTypes_expose he).trans (hw.hasFunctionTypes_eq.trans (hasFunctionTypes_cache hf _))

theorem Walks.hasFunctionTypes_eq {es : List Entry} {s : Session}
    {r : Except Error Unit × Session} {d : Nat} {l : List (String × Bool)} :
    Walks lib es s r d l → r.2.hasFunctionTypes = s.hasFunctionTypes
  | .nil => rfl
  | .declares hr => hr.hasFunctionTypes_eq.trans (hasFunctionTypes_declare s _)
  | .requires h hr => hr.hasFunctionTypes_eq.trans h.hasFunctionTypes_eq
  | .fails h => h.hasFunctionTypes_eq

end

theorem hasFunctionTypes_perform (h : s.hasFunctionTypes = true) (op : Op) :
    (s.perform op).hasFunctionTypes = true := by
  cases op with
  | analyze lib package =>
    obtain ⟨_, _, ha⟩ := analyzes_analyze lib s package
    exact ha.hasFunctionTypes_eq.trans h
  | declare spec => exact (hasFunctionTypes_declare s spec).trans h
  | bind | indexScope | openScope => exact h
  | addFunctionTypes =>
    obtain ⟨_, _, heq⟩ := addFunctionTypes_eq s
    rw [perform, heq]
  | closeScope =>
    rw [perform]
    split
    · rename_i t ht
      obtain ⟨_, _, _, _, rfl⟩ := closeScope_eq_ok ht
      exact h
    · exact h

theorem hasFunctionTypes_run (h : s.hasFunctionTypes = true) (ops : List Op) :
    (s.run ops).hasFunctionTypes = true := by
  induction ops generalizing s with
  | nil => exact h
  | cons op ops ih => exact ih (hasFunctionTypes_perform h op)

theorem hasFunctionTypes_start (h : config.synthesizeFunctions = true) :
    (start config).hasFunctionTypes = true := by
  obtain ⟨_, _, heq⟩ := addFunctionTypes_eq (blank config)
  rw [start_eq, if_pos h, heq]

theorem run_replicate_addFunctionTypes (h : s.hasFunctionTypes = true) (n : Nat) :
    s.run (List.replicate n .addFunctionTypes) = s := by
  induction n with
  | zero => rfl
  | succ n ih =>
    have hsame : s.perform .addFunctionTypes = s := if_pos h
    rw [List.replicate_succ, run, List.foldl_cons, hsame]
    exact ih

end Flag

/-- A session that starts with function types has one for each arity below the limit, in this order,
and never gets another one, whenever and however often it is asked for them. The universe can be
built of them. It knows the function types of these arities and no others. -/
theorem function_types_below_limit (config : Config) (h : config.synthesizeFunctions = true) :
    let s := start config
    let limit := config.functionArityLimit
    List.Forall₂ (fun id k => ∃ d, s.arena.get? id = some d ∧
        d.TakesVariables ("Function" ++ toString k) k)
      s.symbols.types (List.range' 1 (limit - 1)) ∧
    (∀ before after n, s.run (before ++ List.replicate n .addFunctionTypes ++ after) =
      s.run (before ++ after)) ∧
    ∃ u, Universe.build s.arena s.symbols.types = .ok u ∧ u.size = 17 + (limit - 1) ∧
      ∀ k, u.arity? ("Function" ++ toString k) =
        if 1 ≤ k ∧ k < limit then some k else none := by
  intro s limit
  refine ⟨(stores_start h).imp fun id k hstores => takesVariables_of_stores hstores, ?_,
    _, build_start h, ?_, fun k => ?_⟩
  · intro before after n
    have hflag := hasFunctionTypes_run (hasFunctionTypes_start h) before
    have hsame := run_replicate_addFunctionTypes hflag n
    rw [run] at hsame
    rw [run, run, List.foldl_append, List.foldl_append, List.foldl_append]
    exact congrArg (List.foldl perform · after) hsame
  · rw [Universe.size, Universe.names_of, List.length_map, List.length_append, List.length_map,
      List.length_range']
    rfl
  · have hmem : k ∈ List.range' 1 (config.functionArityLimit - 1) ↔
        1 ≤ k ∧ k < config.functionArityLimit := by
      rw [List.mem_range'_1]
      omega
    rw [arity?_function h]
    exact if_congr hmem rfl rfl

/-- The types are asked for twice more between two analyses. -/
theorem function_types_below_limit_four :
    let config := Config.here.enableFunctions 4
    let s := start config
    config.synthesizeFunctions = true ∧ s.symbols.types = [⟨0⟩, ⟨1⟩, ⟨2⟩] ∧
    (∃ d, s.arena.get? ⟨2⟩ = some d ∧ d.TakesVariables "Function3" 3) ∧
    s.run ([.analyze .knot "B"] ++ List.replicate 2 .addFunctionTypes ++ [.analyze .knot "A"]) =
      s.run [.analyze .knot "B", .analyze .knot "A"] ∧
    ∃ u, Universe.build s.arena s.symbols.types = .ok u ∧ u.size = 20 ∧
      u.arity? "Function3" = some 3 ∧ u.arity? "Function4" = none := by
  intro config s
  have hconfig : config.synthesizeFunctions = true := rfl
  have hids : s.symbols.types = [⟨0⟩, ⟨1⟩, ⟨2⟩] := by decide +kernel
  obtain ⟨htypes, hrun, u, hu, hsize, harity⟩ := function_types_below_limit config hconfig
  change List.Forall₂ _ s.symbols.types [1, 2, 3] at htypes
  rw [hids, List.forall₂_cons, List.forall₂_cons, List.forall₂_cons] at htypes
  exact ⟨hconfig, hids, htypes.2.2.1, hrun [.analyze .knot "B"] [.analyze .knot "A"] 2,
    u, hu, hsize, harity 3, harity 4⟩

end Session

end Bluespec
