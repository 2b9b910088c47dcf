import Bluespec.Proofs.Constraints
import Bluespec.Proofs.Constructors
import Bluespec.Proofs.Meaning
import Bluespec.Proofs.UniverseSync

namespace Bluespec

namespace Universe

variable {arena : Arena} {types : List DeclId} {u : Universe} {e : CheckError}

theorem exists_decls (h : ∀ id ∈ types, id.index < arena.size) :
    ∃ decls : List Declaration, types.map arena.get? = decls.map some := by
  induction types with
  | nil => exact ⟨[], rfl⟩
  | cons id rest ih =>
    obtain ⟨hid, hrest⟩ := List.forall_mem_cons.mp h
    obtain ⟨decls, hdecls⟩ := ih hrest
    have hd : arena.get? id = some _ := Array.getElem?_eq_getElem hid
    exact ⟨_ :: decls, by rw [List.map_cons, List.map_cons, hd, hdecls]⟩

/-- Where all types exist, the universe cannot be built only because of the name of one of them. -/
theorem build_eq_error (hpresent : ∀ id ∈ types, id.index < arena.size)
    (h : build arena types = .error e) :
    ∃ id ∈ types, ∃ d, arena.get? id = some d ∧ e = .duplicateConstructor d.name := by
  obtain ⟨decls, hdecls⟩ := exists_decls hpresent
  rcases build_cases hdecls with ⟨_, hok⟩ | ⟨before, d, after, rfl, _, _, herror⟩
  · cases h.symm.trans hok
  · have hmem : some d ∈ types.map arena.get? := hdecls ▸ List.mem_map_of_mem (by simp)
    obtain ⟨id, hid, hd⟩ := List.mem_map.mp hmem
    exact ⟨id, hid, d, hd, Except.error.inj (h.symm.trans herror)⟩

theorem satisfiable_nil (hu : build arena types = .ok u) : u.Satisfiable [] := by
  have hbozo := find?_builtin hu (c := ⟨"Bozo", []⟩) (by decide)
  refine ⟨fun _ sort => if sort = .type then .app "Bozo" [] else .int 0, fun _ sort => ?_, nofun⟩
  cases sort with
  | type => exact ⟨.app hbozo rfl nofun, rfl⟩
  | number => exact ⟨.int 0, rfl⟩

end Universe

namespace Checker

variable {c c' : Checker} {lib : Library} {p : String} {e : CheckError}

theorem rebuild_eq_error (hs : c.session.symbols.Sound c.session.arena)
    (h : c.rebuild = (.error e, c')) :
    c' = c.clear ∧ ∃ id ∈ c.session.symbols.types, ∃ d,
      c.session.arena.get? id = some d ∧ e = .duplicateConstructor d.name := by
  rw [rebuild_eq] at h
  split at h
  · rename_i x hx
    obtain ⟨he, rfl⟩ := Prod.mk.inj h
    obtain rfl : x = e := Except.error.inj he
    exact ⟨rfl, Universe.build_eq_error (fun id hid => hs.present id (hs.marked id hid)) hx⟩
  · cases h

/-- When an analysis fails, universe and names stay as they are. If it was the resolution of names
that failed, the constraints and the recorded terms stay too, and so does what is told about them,
whatever the outcome of a check is. Otherwise the name of a type stood in the way of the universe;
then they are all gone, and nothing contradicts any more. -/
theorem constraints_after_failed_analysis (hc : c.Reachable)
    (h : c.analyze lib p = (.error e, c')) :
    (∃ cause, e = .resolution cause ∧ c' = { c with session := c'.session } ∧
      ∀ outcome : Universe → List (String × Formula) → Solver.Outcome,
        outcome c'.univ c'.assertions = outcome c.univ c.assertions ∧
        c'.reportOf (outcome c'.univ c'.assertions) =
          c.reportOf (outcome c.univ c.assertions)) ∨
    (∃ id ∈ c'.session.symbols.types, ∃ d, c'.session.arena.get? id = some d ∧
      e = .duplicateConstructor d.name ∧ c' = { c.clear with session := c'.session } ∧
      c'.univ.Satisfiable (c'.assertions.map Prod.snd) ∧
      ∀ outcome : Universe → List (String × Formula) → Solver.Outcome,
        (∀ u, outcome u [] = .sat) → outcome c'.univ c'.assertions = .sat) := by
  cases ha : c.session.analyze lib p with
  | mk r s =>
    cases r with
    | error cause =>
      rw [analyze_of_error ha] at h
      obtain ⟨he, rfl⟩ := Prod.mk.inj h
      exact .inl ⟨cause, (Except.error.inj he).symm, rfl, fun outcome => ⟨rfl, rfl⟩⟩
    | ok a =>
      rw [analyze_of_ok ha] at h
      split at h
      · cases h
      · have hs := hc.tracks.session.perform (.analyze lib p)
        rw [Session.perform, ha] at hs
        cases hr : rebuild { c with session := s } with
        | mk x d =>
          rw [hr] at h
          cases x with
          | ok _ => cases h
          | error y =>
            obtain ⟨he, rfl⟩ := Prod.mk.inj h
            obtain rfl : y = e := Except.error.inj he
            obtain ⟨rfl, id, hid, d, hd, hname⟩ := rebuild_eq_error hs.symbols_sound hr
            obtain ⟨_, _, hbuild⟩ := hc.tracks.univ
            exact .inr ⟨id, hid, d, hd, hname, rfl, Universe.satisfiable_nil hbuild,
              fun outcome hnil => hnil c.univ⟩

end Checker

def Library.shadowing : Library where
  isFile := ["./A.bsv"].contains
  readings :=
    [{ package := some "A"
       result := .ok (.ofEntries "A" "" [.declares (.aggregate .struct "Bit" (.named "Bit") [])]) }]

namespace Checker

def divided : Checker :=
  run { session := .start .here, univ := .of Universe.builtins }
    [.constrain (.atom (.eq (.const "x" .type) (.app "Bool" []))) "use"
        ⟨0, "M.bsv", 3, 0, ⟨0, 0⟩, ""⟩,
     .constrain (.atom (.eq (.const "x" .type) (.app "String" []))) "use"
        ⟨1, "M.bsv", 5, 0, ⟨0, 0⟩, ""⟩]

theorem reachable_divided : divided.Reachable :=
  ⟨.start .here, _, _, ⟨.here, [], rfl⟩, rfl, rfl⟩

theorem unsatisfiable_divided :
    ¬ divided.univ.Satisfiable (divided.assertions.map Prod.snd) := by
  rintro ⟨σ, _, hall⟩
  have hx : σ "x" .type = .app "Bool" [] := hall _ List.mem_cons_self
  have hx' : σ "x" .type = .app "String" [] := hall _ (List.mem_cons_of_mem _ List.mem_cons_self)
  rw [hx] at hx'
  exact absurd hx' (by decide)

/-- A package that is not found does no harm. -/
theorem constraints_after_failed_analysis_missing :
    divided.Reachable ∧ ∃ e c', divided.analyze .shadowing "Gone" = (.error e, c') ∧
      (∃ cause, e = .resolution cause) ∧ c'.assertions = divided.assertions ∧
      ¬ c'.univ.Satisfiable (c'.assertions.map Prod.snd) := by
  have hfail : (divided.analyze .shadowing "Gone").1 =
      .error (.resolution (.packageNotFound "Gone" ["./Gone.bsv"])) := by decide +kernel
  refine ⟨reachable_divided, _, _, Prod.ext hfail rfl, ⟨_, rfl⟩, ?_⟩
  rcases constraints_after_failed_analysis reachable_divided (Prod.ext hfail rfl) with
    ⟨_, _, hsame, _⟩ | ⟨_, _, _, _, hname, _⟩
  · rw [hsame]
    exact ⟨rfl, unsatisfiable_divided⟩
  · cases hname

/-- With the type that cannot be named the contradiction is forgotten. -/
theorem constraints_lost_shadowing :
    let c' := (divided.analyze .shadowing "A").2
    divided.Reachable ∧ ¬ divided.univ.Satisfiable (divided.assertions.map Prod.snd) ∧
    (divided.analyze .shadowing "A").1 = .error (.duplicateConstructor "Bit") ∧
    divided.assertions.length = 2 ∧ c'.assertions = [] ∧
    (divided.tracker? "use-0").isSome = true ∧ c'.tracker? "use-0" = none ∧
    c'.univ = divided.univ ∧ c'.univ.Satisfiable (c'.assertions.map Prod.snd) := by
  intro c'
  have hempty : c'.assertions = [] := List.isEmpty_iff.mp (by decide +kernel)
  have huniv : c'.univ = divided.univ := by decide +kernel
  obtain ⟨_, _, hbuild⟩ := reachable_divided.tracks.univ
  refine ⟨reachable_divided, unsatisfiable_divided, by decide +kernel, by decide +kernel, hempty,
    by decide +kernel, by decide +kernel, huniv, ?_⟩
  rw [huniv, hempty]
  exact Universe.satisfiable_nil hbuild

end Checker

end Bluespec
