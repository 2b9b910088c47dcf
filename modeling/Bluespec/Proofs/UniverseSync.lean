import Bluespec.Proofs.CheckerRuns
import Bluespec.Proofs.Growth
import Bluespec.Proofs.Universe

namespace Bluespec.Checker

/-- The universe is the one of the types up to some point of their list. -/
structure Tracks (c : Checker) : Prop where
  session : c.session.Reachable
  univ : ∃ known, known <+: c.session.symbols.types ∧
    Universe.build c.session.arena known = .ok c.univ

/-- After an operation the session is that of some operation on it, and the universe is the one
from before or that of all types. -/
structure Steps (c c' : Checker) : Prop where
  session : c'.session = c.session ∨ ∃ op, c'.session = c.session.perform op
  univ : c'.univ = c.univ ∨
    Universe.build c'.session.arena c'.session.symbols.types = .ok c'.univ

theorem rebuild_univ (c : Checker) : c.rebuild.2.session = c.session ∧
    (c.rebuild.2.univ = c.univ ∧ c.rebuild.1 ≠ .ok () ∨
      Universe.build c.session.arena c.session.symbols.types = .ok c.rebuild.2.univ) := by
  rw [rebuild]
  cases hb : Universe.build c.session.arena c.session.symbols.types with
  | error e => exact ⟨rfl, .inl ⟨rfl, nofun⟩⟩
  | ok u => exact ⟨rfl, .inr rfl⟩

theorem analyze_univ {c c' : Checker} {lib : Library} {p : String}
    {r : Except CheckError Analysis} (h : c.analyze lib p = (r, c')) :
    c'.session = c.session.perform (.analyze lib p) ∧
    (c'.univ = c.univ ∧ (∀ a, r = .ok a → c'.inSync = true) ∨
      Universe.build c'.session.arena c'.session.symbols.types = .ok c'.univ) := by
  rw [analyze] at h
  cases ha : c.session.analyze lib p with
  | mk result s =>
    have hs : c.session.perform (.analyze lib p) = s := congrArg Prod.snd ha
    rw [hs]
    rw [ha] at h
    cases result with
    | error e =>
      obtain ⟨rfl, rfl⟩ := Prod.mk.inj h
      exact ⟨rfl, .inl ⟨rfl, nofun⟩⟩
    | ok a =>
      dsimp only at h
      -- the universe is left alone as long as the lengths agree
      split at h
      · rename_i hsync
        obtain ⟨rfl, rfl⟩ := Prod.mk.inj h
        exact ⟨rfl, .inl ⟨rfl, fun _ _ => hsync⟩⟩
      · obtain ⟨hsession, huniv⟩ := rebuild_univ { c with session := s }
        split at h
        · rename_i e d hd
          obtain ⟨rfl, rfl⟩ := Prod.mk.inj h
          rw [hd] at hsession huniv
          refine ⟨hsession, ?_⟩
          rw [hsession]
          exact huniv.imp (fun hu => ⟨hu.1, nofun⟩) id
        · rename_i d hd
          obtain ⟨rfl, rfl⟩ := Prod.mk.inj h
          rw [hd] at hsession huniv
          refine ⟨hsession, ?_⟩
          rw [hsession]
          exact huniv.imp (fun hu => absurd rfl hu.2) id

theorem steps_perform (c : Checker) (op : Op) : Steps c (c.perform op) := by
  cases op with
  | analyze lib package =>
    obtain ⟨hsession, huniv⟩ := analyze_univ (rfl : c.analyze lib package = (_, _))
    exact ⟨.inr ⟨_, hsession⟩, huniv.imp And.left id⟩
  | rebuild =>
    obtain ⟨hsession, huniv⟩ := rebuild_univ c
    refine ⟨.inl hsession, huniv.imp And.left fun hu => ?_⟩
    rw [perform, hsession]
    exact hu
  | resolve op => exact ⟨.inr ⟨op, rfl⟩, .inl rfl⟩
  | fresh | record | constrain => exact ⟨.inl rfl, .inl rfl⟩

theorem Steps.grows {c c' : Checker} (h : Steps c c') (hc : c.session.Reachable) :
    c'.session.Reachable ∧ c.session.Grows c'.session := by
  rcases h.session with heq | ⟨op, heq⟩
  · rw [heq]
    exact ⟨hc, .refl _⟩
  · rw [heq]
    exact ⟨hc.perform op, hc.grows_perform op⟩

theorem Tracks.steps {c c' : Checker} (hc : c.Tracks) (h : Steps c c') : c'.Tracks := by
  obtain ⟨hreach, hgrows⟩ := h.grows hc.session
  rcases h.univ with heq | hall
  · obtain ⟨known, hknown, hbuild⟩ := hc.univ
    refine ⟨hreach, known, hknown.trans hgrows.types, ?_⟩
    rw [heq]
    exact Universe.build_of_keeps hgrows.arena hbuild
  · exact ⟨hreach, _, List.prefix_refl _, hall⟩

theorem Tracks.names_extend {c c' : Checker} (hc : c.Tracks) (h : Steps c c') :
    c.univ.names <+: c'.univ.names := by
  obtain ⟨_, hgrows⟩ := h.grows hc.session
  rcases h.univ with heq | hall
  · rw [heq]
  · obtain ⟨known, hknown, hbuild⟩ := hc.univ
    exact Universe.names_extend (hknown.trans hgrows.types)
      (Universe.build_of_keeps hgrows.arena hbuild) hall

theorem Tracks.names_run {c : Checker} (hc : c.Tracks) (ops : List Op) :
    c.univ.names <+: (c.run ops).univ.names := by
  induction ops generalizing c with
  | nil => exact List.prefix_refl _
  | cons op ops ih =>
    have hstep := steps_perform c op
    exact (hc.names_extend hstep).trans (ih (hc.steps hstep))

theorem Reachable.tracks {c : Checker} (hc : c.Reachable) : c.Tracks := by
  refine hc.induction (fun s c hs hstart => ?_) fun c op ht => ht.steps (steps_perform c op)
  obtain ⟨_, hbuild, rfl⟩ := start_eq_ok hstart
  exact ⟨hs, _, List.prefix_refl _, hbuild⟩

theorem Tracks.inSync_iff {c : Checker} (hc : c.Tracks) : c.inSync = true ↔
    Universe.build c.session.arena c.session.symbols.types = .ok c.univ := by
  rw [inSync, beq_iff_eq]
  constructor
  · intro hlen
    obtain ⟨known, hknown, hbuild⟩ := hc.univ
    rw [Universe.userCount_of_build hbuild] at hlen
    rw [← hknown.eq_of_length hlen.symm]
    exact hbuild
  · exact fun hbuild => (Universe.userCount_of_build hbuild).symm

/-- In all checkers the universe has the constructors of the language and of the types up to some
point of their list, and after an analysis that succeeds of all types, each taking as many
arguments as the type has parameters. Comparing lengths shows whether it has to be rebuilt, and
constructors keep their places for good. -/
theorem universe_in_sync {c : Checker} (hc : c.Reachable) :
    (∃ known, known <+: c.session.symbols.types ∧
      c.univ.names.map some = Universe.builtins.map (fun k => some k.name) ++
        known.map c.session.arena.name?) ∧
    (∀ lib p a c', c.analyze lib p = (.ok a, c') →
      c'.univ.names.map some = Universe.builtins.map (fun k => some k.name) ++
        c'.session.symbols.types.map c'.session.arena.name? ∧
      ∀ id ∈ c'.session.symbols.types, ∃ d, c'.session.arena.get? id = some d ∧
        c'.univ.arity? d.name = some d.type.params.length) ∧
    (c.inSync = true ↔
      Universe.build c.session.arena c.session.symbols.types = .ok c.univ) ∧
    (∀ ops name k, c.univ.ordinal? name = some k →
      (c.run ops).univ.ordinal? name = some k) := by
  have hc := hc.tracks
  refine ⟨?_, fun lib p a c' h => ?_, hc.inSync_iff, fun ops name k hk => ?_⟩
  · obtain ⟨known, hknown, hbuild⟩ := hc.univ
    exact ⟨known, hknown, Universe.names_of_build hbuild⟩
  · have hc' : c'.Tracks := by
      have hstep := steps_perform c (.analyze lib p)
      rw [perform, h] at hstep
      exact hc.steps hstep
    have hbuild : Universe.build c'.session.arena c'.session.symbols.types = .ok c'.univ := by
      rcases (analyze_univ h).2 with ⟨_, hsync⟩ | hbuild
      · exact hc'.inSync_iff.mp (hsync a rfl)
      · exact hbuild
    exact ⟨Universe.names_of_build hbuild, fun id hid => Universe.arity_of_build hbuild hid⟩
  · exact Universe.ordinal?_of_extends (hc.names_run ops) hk

/-- Checking starts with the constructors of the language, and one analysis adds three. -/
theorem universe_in_sync_knot :
    let c : Checker := { session := .start .here, univ := .of Universe.builtins }
    c.Reachable ∧ c.univ.userNames = [] ∧ ∃ a c', c.analyze .knot "A" = (.ok a, c') ∧
      c'.univ.names.map some = Universe.builtins.map (fun k => some k.name) ++
        c'.session.symbols.types.map c'.session.arena.name? ∧
      c'.univ.userNames = ["R", "Q", "P"] := by
  intro c
  have hc : c.Reachable := ⟨.start .here, c, [], ⟨.here, [], rfl⟩, rfl, rfl⟩
  have hok : (c.analyze .knot "A").1.isOk = true := by decide +kernel
  have hadded : (c.analyze .knot "A").2.univ.userNames = ["R", "Q", "P"] := by decide +kernel
  obtain ⟨a, ha⟩ := exists_eq_ok hok
  exact ⟨hc, rfl, a, _, ha, ((universe_in_sync hc).2.1 _ _ a _ ha).1, hadded⟩

end Bluespec.Checker
