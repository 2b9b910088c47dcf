import Bluespec.Proofs.Adequacy

namespace Bluespec

def Error.isClash : Error → Bool
  | .duplicateBinding .. => true
  | _ => false

def clashes {α : Type} : Except Error α → Bool
  | .error e => e.isClash
  | .ok _ => false

theorem Scopes.merge_permissive {t : Scopes} {target source : ScopeId} {policy : Policy}
    (h : clashes (t.merge target source policy).1 = false) :
    t.merge target source .permissive = t.merge target source policy := by
  cases hs : t.get source with
  | error e => simp only [merge, hs]
  | ok incoming =>
    cases ht : t.get target with
    | error e => simp only [merge, hs, ht]
    | ok receiving =>
      cases ha : receiving.accept policy incoming.bindings.entries with
      | error e =>
        obtain ⟨_, _, _, _, _, _, _, rfl⟩ := Scope.accept_eq_error ha
        simp [merge, hs, ht, ha, clashes, Error.isClash] at h
      | ok _ => simp only [merge, hs, ht, ha, Scope.accept]

namespace Session

def withPolicy (s : Session) (policy : Policy) : Session :=
  { s with config := s.config.setPolicy policy }

variable {lib : Library} {p : String} {s t : Session}

theorem fetch_withPolicy {r : Except Error Package} (h : s.fetch lib p = (r, t))
    (policy : Policy) : (s.withPolicy policy).fetch lib p = (r, t.withPolicy policy) := by
  have hlocate : lib.locate (s.withPolicy policy).config p = lib.locate s.config p := rfl
  rw [fetch] at h ⊢
  rw [hlocate]
  split at h
  · obtain ⟨rfl, rfl⟩ := Prod.mk.inj h
    rfl
  · obtain ⟨rfl, rfl⟩ := Prod.mk.inj h
    rfl

theorem declare_withPolicy (s : Session) (spec : Spec) (policy : Policy) :
    ((s.withPolicy policy).declare spec).2 = (s.declare spec).2.withPolicy policy := by
  cases h : spec.kind.isSynonym with
  | true => rw [declare_synonym h, declare_synonym h]; rfl
  | false => rw [declare_bound h, declare_bound h]; rfl

theorem expose_permissive {r : Except Error Unit} {scope caller : ScopeId}
    (h : s.expose scope caller = (r, t)) (hr : clashes r = false) :
    (s.withPolicy .permissive).expose scope caller = (r, t.withPolicy .permissive) := by
  have hindex : (s.withPolicy .permissive).symbols.indexScope (s.withPolicy .permissive).arena
      (s.withPolicy .permissive).scopes scope = s.symbols.indexScope s.arena s.scopes scope := rfl
  rw [expose] at h ⊢
  rw [hindex]
  cases hi : s.symbols.indexScope s.arena s.scopes scope with
  | mk x symbols =>
    rw [hi] at h
    cases x with
    | error e =>
      obtain ⟨rfl, rfl⟩ := Prod.mk.inj h
      rfl
    | ok _ =>
      dsimp only at h ⊢
      obtain ⟨rfl, rfl⟩ := Prod.mk.inj h
      have hmerge : (s.withPolicy .permissive).scopes.merge caller scope
          (s.withPolicy .permissive).config.importPolicy =
          s.scopes.merge caller scope s.config.importPolicy :=
        Scopes.merge_permissive (t := s.scopes) hr
      rw [hmerge]
      rfl

mutual

/-- Without a clash an analysis goes the same way under the permissive policy, rule by rule. -/
theorem Analyzes.permissive {p : String} {s : Session} {r : Except Error Analysis × Session}
    {d : Nat} {l : List (String × Bool)} : Analyzes lib p s r d l → clashes r.1 = false →
    Analyzes lib p (s.withPolicy .permissive) (r.1, r.2.withPolicy .permissive) d l
  | .known h, _ => .known (s := s.withPolicy .permissive) h
  | .unread h hf, _ => .unread (s := s.withPolicy .permissive) h (fetch_withPolicy hf .permissive)
  | .broken h hf hw, hr =>
    .broken (s := s.withPolicy .permissive) h (fetch_withPolicy hf .permissive) (hw.permissive hr)
  | .hidden h hf hw he, hr =>
    .hidden (s := s.withPolicy .permissive) h (fetch_withPolicy hf .permissive)
      (hw.permissive rfl) (expose_permissive he hr)
  | .done h hf hw he, _ =>
    .done (s := s.withPolicy .permissive) h (fetch_withPolicy hf .permissive)
      (hw.permissive rfl) (expose_permissive he rfl)

theorem Walks.permissive {es : List Entry} {s : Session} {r : Except Error Unit × Session}
    {d : Nat} {l : List (String × Bool)} : Walks lib es s r d l → clashes r.1 = false →
    Walks lib es (s.withPolicy .permissive) (r.1, r.2.withPolicy .permissive) d l
  | .nil, _ => .nil
  | .declares (x := x) hr, hclash =>
    .declares (declare_withPolicy s x .permissive ▸ hr.permissive hclash)
  | .requires h hr, hclash => .requires (h.permissive rfl) (hr.permissive hclash)
  | .fails h, hclash => .fails (h.permissive hclash)

end

/-- Let a package be analyzed twice, in sessions that differ in their policy alone. Unless the
strict analysis meets a name that is bound already, both come to the same result, and the sessions
they end in differ in the policy alone. -/
theorem strict_refines_permissive (lib : Library) (s : Session) (p : String)
    (h : ∀ scope name,
      ((s.withPolicy .strict).analyze lib p).1 ≠ .error (.duplicateBinding scope name)) :
    ((s.withPolicy .permissive).analyze lib p).1 = ((s.withPolicy .strict).analyze lib p).1 ∧
    ((s.withPolicy .permissive).analyze lib p).2 =
      ((s.withPolicy .strict).analyze lib p).2.withPolicy .permissive := by
  obtain ⟨d, l, hstrict⟩ := analyzes_analyze lib (s.withPolicy .strict) p
  have hclash : clashes ((s.withPolicy .strict).analyze lib p).1 = false := by
    cases hr : ((s.withPolicy .strict).analyze lib p).1 with
    | ok a => rfl
    | error e =>
      cases e with
      | duplicateBinding scope name => exact absurd hr (h scope name)
      | _ => rfl
  have hpermissive := (hstrict.permissive hclash).eq_analyze
  exact Prod.mk.inj hpermissive.symm

/-- A cycle of imports, in which no two packages bind one name. -/
theorem strict_refines_permissive_knot :
    let strict := ((start .here).withPolicy .strict).analyze .knot "A"
    let permissive := ((start .here).withPolicy .permissive).analyze .knot "A"
    strict.1.isOk = true ∧ strict.2.config.importPolicy = .strict ∧
    permissive.1 = strict.1 ∧ permissive.2 = strict.2.withPolicy .permissive := by
  intro strict permissive
  have hok : strict.1.isOk = true := by decide +kernel
  refine ⟨hok, by decide +kernel, strict_refines_permissive .knot (start .here) "A" ?_⟩
  intro scope name he
  rw [show strict.1 = .error (.duplicateBinding scope name) from he] at hok
  cases hok

end Session

end Bluespec
