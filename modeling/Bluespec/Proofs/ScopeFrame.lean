import Bluespec.Proofs.Runs

namespace Bluespec.Session

variable {lib : Library} {p : String} {s t u : Session} {d : Nat} {l : List (String × Bool)}

def SameScopes (s t : Session) : Prop :=
  ∀ id, id.index < s.scopes.size → t.scopes.get? id = s.scopes.get? id

/-- The scopes of `s` are as they are in `t`, the current one perhaps excepted. -/
def Frames (s t : Session) : Prop :=
  ∀ id, id.index < s.scopes.size → id ≠ s.current → t.scopes.get? id = s.scopes.get? id

theorem SameScopes.frames (h : SameScopes s t) : Frames s t := fun id hid _ => h id hid

theorem Frames.trans (hst : Frames s t) (htu : Frames t u)
    (hsize : s.scopes.size ≤ t.scopes.size) (hcurrent : t.current = s.current) : Frames s u := by
  intro id hid hne
  rw [htu id (Nat.lt_of_lt_of_le hid hsize) (hcurrent ▸ hne), hst id hid hne]

theorem frames_declare (s : Session) (spec : Spec) : Frames s (s.declare spec).2 := by
  intro id _ hne
  cases h : spec.kind.isSynonym with
  | true => rw [declare_synonym h]
  | false =>
    have hindex : s.current.index ≠ id.index := (Scopes.index_ne hne).symm
    rw [declare_bound h, Scopes.get?_modify, if_neg hindex]

theorem Walks.current_eq {es : List Entry} {r : Except Error Unit × Session}
    (h : Walks lib es s r d l) : r.2.current = s.current := by
  induction es generalizing s d l with
  | nil =>
    cases h
    rfl
  | cons entry es ih =>
    cases h with
    | declares hr => exact (ih hr).trans (current_declare s _)
    | requires ha hr => exact (ih hr).trans ha.current_eq
    | fails ha => exact ha.current_eq

theorem Moves.valid (h : Moves s t) (hcurrent : t.current = s.current) (hs : s.Valid) :
    t.Valid :=
  ⟨h.sound hs.sound, hcurrent ▸ Nat.lt_of_lt_of_le hs.current h.size_le⟩

theorem size_fetched {r : Except Error Package} (hf : (s.enter p).fetch lib p = (r, t)) :
    t.scopes.size = s.scopes.size + 1 := by
  obtain ⟨_, rfl⟩ := fetched_eq hf
  exact Scopes.size_push s.scopes p none

theorem current_fetched {r : Except Error Package} (hf : (s.enter p).fetch lib p = (r, t)) :
    t.current = s.nextScope := by
  obtain ⟨_, rfl⟩ := fetched_eq hf
  rfl

theorem sameScopes_fetched {r : Except Error Package}
    (hf : (s.enter p).fetch lib p = (r, t)) : SameScopes s t := by
  intro id hid
  obtain ⟨_, rfl⟩ := fetched_eq hf
  exact (Scopes.get?_push s.scopes p none id).trans (if_neg (Nat.ne_of_lt hid))

theorem valid_fetched {r : Except Error Package} (hs : s.Valid)
    (hf : (s.enter p).fetch lib p = (r, t)) : (t.cache p s.nextScope).Valid := by
  refine ⟨(moves_fetched hf s.nextScope).sound hs.sound, ?_⟩
  show t.current.index < t.scopes.size
  rw [size_fetched hf, current_fetched hf]
  exact Nat.lt_succ_self _

theorem Frames.of_fetched {r : Except Error Package} (hf : (s.enter p).fetch lib p = (r, t))
    (h : Frames (t.cache p s.nextScope) u) : SameScopes s u := by
  intro id hid
  have hsize : id.index < t.scopes.size := by rw [size_fetched hf]; omega
  have hne : id ≠ t.current := by
    rintro rfl
    rw [current_fetched hf] at hid
    exact Nat.lt_irrefl _ hid
  rw [h id hsize hne]
  exact sameScopes_fetched hf id hid

theorem scopes_of_expose_error {e : Error} {scope caller : ScopeId}
    (he : s.expose scope caller = (.error e, t)) : t.scopes = s.scopes := by
  rw [expose_eq_error he]

mutual

theorem Analyzes.frames {p : String} {s : Session} {r : Except Error Analysis × Session}
    {d : Nat} {l : List (String × Bool)} (hs : s.Valid) :
    Analyzes lib p s r d l → Frames s r.2
  | .known _ => fun _ _ _ => rfl
  | .unread _ hf => (sameScopes_fetched hf).frames
  | .broken _ hf hw => (Frames.of_fetched hf (hw.frames (valid_fetched hs hf))).frames
  | .hidden _ hf hw he => by
    have hu := Frames.of_fetched hf (hw.frames (valid_fetched hs hf))
    exact fun id hid _ => (congrArg (·.get? id) (scopes_of_expose_error he)).trans (hu id hid)
  | .done _ hf hw he => by
    have hu := Frames.of_fetched hf (hw.frames (valid_fetched hs hf))
    obtain ⟨_, _, _, hm, rfl⟩ := expose_eq_ok he
    exact fun id hid hne => (Scopes.get?_merge_of_ne hm hne).trans (hu id hid)

theorem Walks.frames {es : List Entry} {s : Session} {r : Except Error Unit × Session}
    {d : Nat} {l : List (String × Bool)} (hs : s.Valid) : Walks lib es s r d l → Frames s r.2
  | .nil => fun _ _ _ => rfl
  | .declares (x := x) hr => (frames_declare s x).trans (hr.frames (hs.perform (.declare x)))
    (moves_declare s x).size_le (current_declare s x)
  | .requires h hr =>
    (h.frames hs).trans (hr.frames (h.moves.valid h.current_eq hs)) h.moves.size_le h.current_eq
  | .fails h => h.frames hs

end

theorem Walks.sameScopes {es : List Entry} {r : Except Error Unit × Session}
    {x : Except Error Package} (hs : s.Valid) (hf : (s.enter p).fetch lib p = (x, t))
    (hw : Walks lib es (t.cache p s.nextScope) r d l) : SameScopes s r.2 :=
  Frames.of_fetched hf (hw.frames (valid_fetched hs hf))

theorem Analyzes.sameScopes_of_error {e : Error} (hs : s.Valid)
    (h : Analyzes lib p s (.error e, t) d l) : SameScopes s t := by
  cases h with
  | unread _ hf => exact fun id hid => sameScopes_fetched hf id hid
  | broken _ hf hw => exact hw.sameScopes hs hf
  | hidden _ hf hw he =>
    have hu := hw.sameScopes hs hf
    exact fun id hid => (congrArg (·.get? id) (scopes_of_expose_error he)).trans (hu id hid)

/-- The scope of a package that was just read is new, and one merge hands it to the caller. -/
theorem Analyzes.merge_of_done {y : Package} (hs : s.Valid)
    (h : Analyzes lib p s (.ok (.done y), t) d l) :
    ∃ (own : ScopeId) (before : Scopes), t.packages.get? p = some own ∧ s.scopes.size ≤ own.index ∧
      (∀ id, id.index < s.scopes.size → before.get? id = s.scopes.get? id) ∧
      before.get? own = t.scopes.get? own ∧
      before.merge s.current own s.config.importPolicy = (.ok (), t.scopes) := by
  cases h with
  | @done _ _ w u v _ _ _ _ hf hw he =>
    have hu := hw.sameScopes hs hf
    have hpackage : u.packages.get? p = some s.nextScope :=
      hw.keepsPackages p s.nextScope (by simp [cache])
    have hconfig : u.config = s.config :=
      hw.moves.config_eq.trans (moves_fetched hf s.nextScope).config_eq
    obtain ⟨_, _, _, hm, rfl⟩ := expose_eq_ok he
    -- the caller is older than the scope of the package, so the merge spares the latter
    have hown : s.nextScope ≠ s.current := by
      intro heq
      have hcurrent := hs.current
      rw [← heq] at hcurrent
      exact Nat.lt_irrefl _ hcurrent
    refine ⟨s.nextScope, u.scopes, hpackage, Nat.le_refl _, hu, ?_, ?_⟩
    · exact (Scopes.get?_merge_of_ne hm hown).symm
    · rw [← hconfig]
      exact hm

theorem Analyzes.eq_of_known (h : Analyzes lib p s (.ok .known, t) d l) : t = s := by
  cases h with
  | known _ => rfl

/-- An analysis returns to the scope that it was called in. If it fails, all scopes from before
are as they were. If it reads a package, one merge of the scope of that package into the current
one is all that they have seen, and if the package was known nothing has changed at all. -/
theorem analyze_scope_frame {s : Session} (hs : s.Reachable) (lib : Library) (p : String) :
    (s.analyze lib p).2.current = s.current ∧
    (∀ e t, s.analyze lib p = (.error e, t) →
      ∀ id, id.index < s.scopes.size → t.scopes.get? id = s.scopes.get? id) ∧
    (∀ tree t, s.analyze lib p = (.ok (.done tree), t) →
      (∀ id, id.index < s.scopes.size → id ≠ s.current →
        t.scopes.get? id = s.scopes.get? id) ∧
      ∃ (own : ScopeId) (before : Scopes),
        t.packages.get? p = some own ∧ s.scopes.size ≤ own.index ∧
        (∀ id, id.index < s.scopes.size → before.get? id = s.scopes.get? id) ∧
        before.get? own = t.scopes.get? own ∧
        before.merge s.current own s.config.importPolicy = (.ok (), t.scopes)) ∧
    (∀ t, s.analyze lib p = (.ok .known, t) → t = s) := by
  obtain ⟨d, l, h⟩ := analyzes_analyze lib s p
  refine ⟨h.current_eq, fun e t ht => ?_, fun tree t ht => ?_, fun t ht => ?_⟩
  · exact (ht ▸ h).sameScopes_of_error hs.valid
  · rw [ht] at h
    exact ⟨h.frames hs.valid, h.merge_of_done hs.valid⟩
  · exact (ht ▸ h).eq_of_known

/-- In an inner scope an analysis leaves the one around alone. -/
theorem analyze_scope_frame_knot :
    let s := (start .here).run [.openScope "inner"]
    s.Reachable ∧ ∃ tree t, s.analyze .knot "A" = (.ok (.done tree), t) ∧ t.current = ⟨1⟩ ∧
      t.scopes.get? ⟨0⟩ = s.scopes.get? ⟨0⟩ ∧
      ∃ (own : ScopeId) (before : Scopes), t.packages.get? "A" = some own ∧
        before.get? ⟨1⟩ = s.scopes.get? ⟨1⟩ ∧ before.get? own = t.scopes.get? own ∧
        before.merge ⟨1⟩ own .permissive = (.ok (), t.scopes) := by
  intro s
  have hs : s.Reachable := ⟨.here, [.openScope "inner"], rfl⟩
  have hdone : (s.analyze .knot "A").1.toOption.any (· matches .done _) = true := by
    decide +kernel
  obtain ⟨hcurrent, _, hframe, _⟩ := analyze_scope_frame hs .knot "A"
  cases h : s.analyze .knot "A" with
  | mk r t =>
    rw [h] at hdone hcurrent
    match r with
    | .ok (.done tree) =>
      obtain ⟨hsame, own, before, hown, _, hbefore, hlast, hmerge⟩ := hframe tree t h
      exact ⟨hs, tree, t, rfl, hcurrent, hsame ⟨0⟩ (by decide) (by decide), own, before, hown,
        hbefore ⟨1⟩ (by decide), hlast, hmerge⟩

end Bluespec.Session
