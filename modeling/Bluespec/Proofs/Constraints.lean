import Bluespec.Proofs.CheckerRuns

namespace Bluespec.Checker

variable {c : Checker} {lib : Library} {p : String} {op : Op}

def clear (c : Checker) : Checker := { c with exprs := [], trackers := ∅, assertions := [] }

def attempts (c : Checker) : Op → Bool
  | .rebuild => true
  | .analyze lib p =>
    match c.session.analyze lib p with
    | (.ok _, session) => !inSync { c with session }
    | (.error _, _) => false
  | _ => false

/-- Constraints go before it is known whether the universe can be built. -/
theorem rebuild_eq (c : Checker) : c.rebuild =
    match Universe.build c.session.arena c.session.symbols.types with
    | .error e => (.error e, c.clear)
    | .ok univ => (.ok (), { c.clear with univ }) := rfl

theorem rebuild_clears (c : Checker) : ∃ univ, c.rebuild.2 = { c.clear with univ } := by
  rw [rebuild_eq]
  split
  · exact ⟨c.univ, rfl⟩
  · exact ⟨_, rfl⟩

theorem analyze_of_error {s : Session} {e : Error} (h : c.session.analyze lib p = (.error e, s)) :
    c.analyze lib p = (.error (.resolution e), { c with session := s }) := by
  rw [analyze, h]

theorem analyze_of_ok {s : Session} {a : Analysis} (h : c.session.analyze lib p = (.ok a, s)) :
    c.analyze lib p =
      if inSync { c with session := s } then (.ok a, { c with session := s })
      else ((rebuild { c with session := s }).1.map fun _ => a,
        (rebuild { c with session := s }).2) := by
  rw [analyze, h]
  dsimp only
  split
  · rfl
  · cases hr : rebuild { c with session := s } with
    | mk r d => cases r <;> rfl

theorem analyze_of_not_attempts (h : c.attempts (.analyze lib p) = false) :
    (c.analyze lib p).2 = { c with session := (c.session.analyze lib p).2 } := by
  rw [attempts] at h
  cases ha : c.session.analyze lib p with
  | mk r s =>
    cases r with
    | error e => rw [analyze_of_error ha]
    | ok a =>
      rw [ha] at h
      rw [analyze_of_ok ha, if_pos (by simpa using h)]

theorem perform_of_attempts (h : c.attempts op = true) :
    ∃ session univ, c.perform op = { c.clear with session, univ } := by
  cases op with
  | rebuild =>
    obtain ⟨univ, hr⟩ := rebuild_clears c
    exact ⟨c.session, univ, hr⟩
  | analyze lib p =>
    rw [attempts] at h
    rw [perform]
    cases ha : c.session.analyze lib p with
    | mk r s =>
      cases r with
      | error e => rw [ha] at h; cases h
      | ok a =>
        rw [ha] at h
        rw [analyze_of_ok ha, if_neg (by simpa using h)]
        obtain ⟨univ, hr⟩ := rebuild_clears { c with session := s }
        exact ⟨s, univ, hr⟩
  | resolve | fresh | record | constrain => cases h

theorem inSync_analyze_of_types (hsync : c.inSync = true)
    (htypes : (c.session.analyze lib p).2.symbols.types = c.session.symbols.types) :
    c.attempts (.analyze lib p) = false := by
  rw [attempts]
  split
  · rename_i a s hs
    rw [hs] at htypes
    rw [inSync] at hsync ⊢
    rw [htypes, hsync]
    rfl
  · rfl

end Bluespec.Checker
