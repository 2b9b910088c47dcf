import Bluespec.Proofs.PackageCache
import Bluespec.Proofs.Termination

namespace Bluespec

namespace Library

variable {lib : Library} {config : Config} {p q : String}

def Acyclic (lib : Library) (config : Config) : Prop :=
  ∀ p q, q ∈ lib.importsOf config p → ¬ lib.Leads config ∅ q p

theorem acyclic_of_rank (rank : String → Nat)
    (h : ∀ p q, q ∈ lib.importsOf config p → rank q < rank p) : lib.Acyclic config := by
  rintro p q hq ⟨_, hchain⟩
  have hle : rank p ≤ rank q := by
    clear hq
    induction hchain with
    | refl => exact Nat.le_refl _
    | tail _ hstep ih =>
      have hlt := h _ _ hstep.1
      omega
  have hlt := h p q hq
  omega

theorem mem_of_importsOf {names : Finset String}
    (h : ∀ r ∈ lib.readings, ∃ name ∈ names, r.package = some name)
    (hq : q ∈ lib.importsOf config p) : p ∈ names := by
  rw [importsOf] at hq
  split at hq
  · rename_i y hy
    obtain ⟨path, hparse⟩ := parse_of_read hy
    exact Session.mem_of_parse h hparse
  · cases hq

end Library

namespace Session

variable {lib : Library} {config : Config} {p : String} {s t : Session}
  {r : Except Error Analysis × Session} {d : Nat} {l : List (String × Bool)} {broken : Prop}

def results (lib : Library) : List String → Session → List (Except Error Analysis)
  | [], _ => []
  | p :: rest, s => (s.analyze lib p).1 :: results lib rest (s.analyze lib p).2

theorem analyze_eq_known : (s.analyze lib p).1 = .ok .known ↔ s.hasPackage p = true := by
  constructor
  · intro h
    obtain ⟨_, _, ha⟩ := analyzes_analyze lib s p
    generalize s.analyze lib p = r at h ha
    cases ha with
    | known hp => exact hp
    | unread | broken | hidden | done => cases h
  · intro h
    rw [← (Analyzes.known h).eq_analyze]

/-- Packages have their imports beside them. An import is missing only if it leads back to the
package, and only if something is broken. -/
def ImportsClosed (lib : Library) (config : Config) (broken : Prop) (t : Session) : Prop :=
  ∀ p q, t.hasPackage p = true → q ∈ lib.importsOf config p →
    t.hasPackage q = true ∨ (lib.Leads config ∅ q p ∧ broken)

theorem ImportsClosed.analyzes (hs : ImportsClosed lib s.config broken s)
    (h : Analyzes lib p s r d l) (hbroken : r.1.isOk = false → broken) :
    ImportsClosed lib s.config broken r.2 := by
  intro a q ha hq
  rcases (h.logs.cached a).mp ha with ha | ha
  · exact (hs a q ha hq).imp_left fun hold => (h.logs.cached q).mpr (.inl hold)
  · rcases h.importsKept a q ha hq with ht | ⟨hfailed, hback⟩
    · exact .inl ht
    · refine .inr ⟨hback, hbroken ?_⟩
      apply Bool.eq_false_iff.mpr
      intro hok
      exact Bool.false_ne_true (h.logs.settled hok _ hfailed)

theorem ImportsClosed.run (hs : ImportsClosed lib s.config broken s) (packages : List String)
    (hbroken : ∀ x ∈ s.results lib packages, x.isOk = false → broken) :
    ImportsClosed lib s.config broken (s.run (packages.map (.analyze lib))) := by
  induction packages generalizing s with
  | nil => exact hs
  | cons p rest ih =>
    obtain ⟨d, l, h⟩ := analyzes_analyze lib s p
    have hconfig := h.moves.config_eq
    have hstep := hs.analyzes h (hbroken _ List.mem_cons_self)
    rw [← hconfig] at hstep ⊢
    exact ih hstep fun x hx => hbroken x (List.mem_cons_of_mem _ hx)

theorem not_hasPackage_fresh (config : Config) (again : Bool) (q : String) :
    (fresh config again).hasPackage q = false := by
  rw [hasPackage, (fresh_stores config again).2.2.1]
  rfl

theorem ImportsClosed.hasPackage_of_leads (h : ImportsClosed lib config broken t)
    (hacyclic : lib.Acyclic config) {q : String} (hp : t.hasPackage p = true)
    (hq : lib.Leads config ∅ p q) : t.hasPackage q = true := by
  induction hq.2 with
  | refl => exact hp
  | @tail b c hchain hstep ih =>
    rcases h b c (ih ⟨hq.1, hchain⟩) hstep.1 with hc | ⟨hback, _⟩
    · exact hc
    · exact absurd hback (hacyclic b c hstep.1)

/-- After any analyses of a new session, whether they succeed or fail, an import of a package is a
package too, or it leads back to that package and some analysis has failed. Without cycles, all
that a known package depends on is known. -/
theorem imports_closed_off_cycles (config : Config) (again : Bool) (lib : Library)
    (packages : List String) :
    let s := fresh config again
    let t := s.run (packages.map (.analyze lib))
    (∀ p q, t.hasPackage p = true → q ∈ lib.importsOf config p → t.hasPackage q = true ∨
      (lib.Leads config ∅ q p ∧ ∃ x ∈ s.results lib packages, x.isOk = false)) ∧
    (lib.Acyclic config → ∀ p q, (t.analyze lib p).1 = .ok .known →
      lib.Leads config ∅ p q → (t.analyze lib q).1 = .ok .known) := by
  intro s t
  have hconfig : s.config = config := (fresh_stores config again).2.2.2
  have hstart : ImportsClosed lib s.config (∃ x ∈ s.results lib packages, x.isOk = false) s := by
    intro a q ha
    rw [not_hasPackage_fresh] at ha
    cases ha
  have hclosed := hstart.run packages fun x hx hfail => ⟨x, hx, hfail⟩
  rw [hconfig] at hclosed
  refine ⟨hclosed, fun hacyclic p q hp hq => ?_⟩
  exact analyze_eq_known.mpr (hclosed.hasPackage_of_leads hacyclic (analyze_eq_known.mp hp) hq)

end Session

def Library.shared : Library where
  isFile := ["./A.bsv", "./B.bsv", "./C.bsv"].contains
  readings :=
    [{ package := some "A", result := .ok (.ofEntries "A" "" [.requires "C"]) },
     { package := some "B", result := .ok (.ofEntries "B" "" [.requires "C"]) },
     { package := some "C"
       result := .ok (.ofEntries "C" "" [.declares (.aggregate .struct "R" (.named "R") [])]) }]

theorem Library.importsOf_shared {p q : String} (h : q ∈ importsOf .shared .here p) :
    (p = "A" ∨ p = "B") ∧ q = "C" := by
  have hp : p ∈ ({"A", "B", "C"} : Finset String) := mem_of_importsOf (by simp [shared]) h
  simp only [Finset.mem_insert, Finset.mem_singleton] at hp
  rcases hp with rfl | rfl | rfl
  · rw [show importsOf .shared .here "A" = ["C"] by decide +kernel] at h
    simpa using h
  · rw [show importsOf .shared .here "B" = ["C"] by decide +kernel] at h
    simpa using h
  · rw [show importsOf .shared .here "C" = [] by decide +kernel] at h
    cases h

theorem Library.acyclic_shared : Library.shared.Acyclic .here := by
  apply acyclic_of_rank fun p => if p = "C" then 0 else 1
  intro p q h
  obtain ⟨hp, rfl⟩ := importsOf_shared h
  rcases hp with rfl | rfl <;> decide

/-- `B` is there with its import, although the analysis that follows fails. -/
theorem Session.imports_closed_off_cycles_shared :
    let t := (fresh .here false).run (["B", "Gone"].map (.analyze .shared))
    Library.shared.Acyclic .here ∧
    ((fresh .here false).results .shared ["B", "Gone"]).map (·.isOk) = [true, false] ∧
    (t.analyze .shared "B").1 = .ok .known ∧ Library.shared.Leads .here ∅ "B" "C" ∧
    (t.analyze .shared "C").1 = .ok .known := by
  intro t
  have hknown : (t.analyze .shared "B").1 = .ok .known := analyze_eq_known.mpr (by decide +kernel)
  have himport : "C" ∈ Library.shared.importsOf .here "B" := by decide +kernel
  have hleads : Library.shared.Leads .here ∅ "B" "C" :=
    .head (Set.notMem_empty _) himport (.refl _ _ (Set.notMem_empty _))
  exact ⟨Library.acyclic_shared, by decide +kernel, hknown, hleads,
    (imports_closed_off_cycles .here false .shared ["B", "Gone"]).2 Library.acyclic_shared
      "B" "C" hknown hleads⟩

/-- `A` imports `B`, which imports `A`, and a package that does not exist. -/
def Library.severed : Library where
  isFile := ["./A.bsv", "./B.bsv"].contains
  readings :=
    [{ package := some "A"
       result := .ok (.ofEntries "A" "" [.declares (.aggregate .struct "P" (.named "P") []),
        .requires "B", .requires "Gone"]) },
     { package := some "B"
       result := .ok (.ofEntries "B" "" [.requires "A",
        .declares (.interface "Q" (.named "Q") [])]) }]

/-- `B` was completed while `A` was under way, and stays when `A` fails. -/
theorem Session.import_lost_severed :
    let t := (fresh .here false).run [.analyze .severed "A"]
    t.hasPackage "B" = true ∧ "A" ∈ Library.importsOf .severed .here "B" ∧
    t.hasPackage "A" = false ∧ (t.analyze .severed "B").1 = .ok .known ∧
    (t.analyze .severed "A").1.isOk = false := by
  intro t
  have hb : t.hasPackage "B" = true := by decide +kernel
  exact ⟨hb, by decide +kernel, by decide +kernel, analyze_eq_known.mpr hb, by decide +kernel⟩

end Bluespec
