import Bluespec.Proofs.Moves

namespace Bluespec.Session

/-- The operations that change a session. The library may be another one at each analysis. -/
inductive Op where
  | analyze (lib : Library) (package : String)
  | declare (spec : Spec)
  | bind (name : String) (decl : DeclId)
  | indexScope
  | addFunctionTypes
  | openScope (name : String)
  | closeScope

def perform (s : Session) : Op → Session
  | .analyze lib package => (s.analyze lib package).2
  | .declare spec => (s.declare spec).2
  | .bind name decl => s.bind name decl
  | .indexScope => s.indexScope.2
  | .addFunctionTypes => s.addFunctionTypes
  | .openScope name => s.openScope name
  | .closeScope =>
    match s.closeScope with
    | .ok t => t
    | .error _ => s

def run (s : Session) (ops : List Op) : Session := ops.foldl perform s

def Reachable (s : Session) : Prop := ∃ config ops, s = (start config).run ops

theorem Reachable.perform {s : Session} (hs : s.Reachable) (op : Op) :
    (s.perform op).Reachable := by
  obtain ⟨config, ops, rfl⟩ := hs
  exact ⟨config, ops ++ [op], by simp [run]⟩

theorem Reachable.induction {P : Session → Prop} (hstart : ∀ config, P (start config))
    (hstep : ∀ s op, P s → P (s.perform op)) {s : Session} (hs : s.Reachable) : P s := by
  obtain ⟨config, ops, rfl⟩ := hs
  suffices h : ∀ t, P t → P (t.run ops) from h _ (hstart config)
  induction ops with
  | nil => exact fun t ht => ht
  | cons op ops ih => exact fun t ht => ih _ (hstep t op ht)

def blank (config : Config) : Session :=
  { config, scopes := (Scopes.empty.push "<session>" none).2, current := ⟨0⟩ }

theorem start_eq (config : Config) : start config =
    if config.synthesizeFunctions then (blank config).addFunctionTypes else blank config := rfl

theorem functionTypes_eq (s : Session) (arities : List Nat) : ∃ arena symbols,
    arities.foldl addFunctionType s = { s with arena, symbols } := by
  induction arities generalizing s with
  | nil => exact ⟨s.arena, s.symbols, rfl⟩
  | cons k rest ih => exact ih (s.addFunctionType k)

theorem addFunctionTypes_eq (s : Session) : ∃ arena symbols,
    s.addFunctionTypes = { s with arena, symbols, hasFunctionTypes := true } := by
  rw [addFunctionTypes]
  split
  · rename_i h
    exact ⟨s.arena, s.symbols, by rw [← h]⟩
  · exact functionTypes_eq _ _

theorem moves_functionTypes (s : Session) (arities : List Nat) :
    Moves s (arities.foldl addFunctionType s) := by
  induction arities generalizing s with
  | nil => exact .refl
  | cons k rest ih => exact .head (.functionType s k) (ih _)

theorem moves_addFunctionTypes (s : Session) : Moves s s.addFunctionTypes := by
  rw [addFunctionTypes]
  split
  · exact .refl
  · exact .head (.note s s.current s.packages true s.requests) (moves_functionTypes _ _)

theorem moves_start (config : Config) : Moves (blank config) (start config) := by
  rw [start_eq]
  split
  · exact moves_addFunctionTypes (blank config)
  · exact .refl

structure Valid (s : Session) : Prop where
  sound : s.scopes.Sound
  current : s.current.index < s.scopes.size

theorem closeScope_eq_ok {s t : Session} (h : s.closeScope = .ok t) :
    ∃ scope parent, s.scopes.get? s.current = some scope ∧ scope.parent = some parent ∧
      t = { s with current := parent } := by
  rw [closeScope] at h
  cases hg : s.scopes.get s.current with
  | error e => rw [hg] at h; cases h
  | ok scope =>
    rw [hg] at h
    cases hp : scope.parent with
    | none => simp only [Bind.bind, Except.bind, hp] at h; cases h
    | some parent =>
      simp only [Bind.bind, Except.bind, hp] at h
      exact ⟨scope, parent, Scopes.get_eq_ok hg, hp, (Except.ok.inj h).symm⟩

theorem Valid.moves_perform {s : Session} (hs : s.Valid) (op : Op) : Moves s (s.perform op) := by
  cases op with
  | analyze lib package =>
    obtain ⟨_, _, h⟩ := analyzes_analyze lib s package
    exact h.moves
  | declare spec => exact moves_declare s spec
  | bind name decl => exact .single (.bind s name decl)
  | indexScope => exact .single (.index s s.current)
  | addFunctionTypes => exact moves_addFunctionTypes s
  | openScope name =>
    have hp : ∀ outer, some s.current = some outer → outer.index < s.scopes.size :=
      fun outer ho => Option.some.inj ho ▸ hs.current
    exact .head (.push s name (some s.current) hp) (.single (.note { s with
      scopes := (s.scopes.push name (some s.current)).2 } ⟨s.scopes.size⟩ s.packages
      s.hasFunctionTypes s.requests))
  | closeScope =>
    rw [perform]
    split
    · rename_i t h
      obtain ⟨_, parent, _, _, rfl⟩ := closeScope_eq_ok h
      exact .single (.note s parent s.packages s.hasFunctionTypes s.requests)
    · exact .refl

theorem Analyzes.current_eq {lib : Library} {p : String} {s : Session}
    {r : Except Error Analysis × Session} {d : Nat} {l : List (String × Bool)}
    (h : Analyzes lib p s r d l) : r.2.current = s.current := by
  cases h <;> rfl

theorem current_declare (s : Session) (spec : Spec) :
    (s.declare spec).2.current = s.current := by
  obtain ⟨_, _, h⟩ := declare_eq s spec
  rw [h]

theorem current_addFunctionTypes (s : Session) : s.addFunctionTypes.current = s.current := by
  obtain ⟨_, _, h⟩ := addFunctionTypes_eq s
  rw [h]

/-- The current scope exists after an operation: it is the one from before, or the one that was
opened, or the one around. -/
theorem Valid.perform {s : Session} (hs : s.Valid) (op : Op) : (s.perform op).Valid := by
  have hm := hs.moves_perform op
  refine ⟨hm.sound hs.sound, ?_⟩
  have hstay : s.current.index < (s.perform op).scopes.size :=
    Nat.lt_of_lt_of_le hs.current hm.size_le
  cases op with
  | analyze lib package =>
    obtain ⟨_, _, h⟩ := analyzes_analyze lib s package
    exact h.current_eq ▸ hstay
  | declare spec => exact current_declare s spec ▸ hstay
  | bind name decl => exact hstay
  | indexScope => exact hstay
  | addFunctionTypes => exact current_addFunctionTypes s ▸ hstay
  | openScope name =>
    exact Nat.lt_of_lt_of_eq (Nat.lt_succ_self _) (Scopes.size_push _ _ _).symm
  | closeScope =>
    rw [Session.perform] at hstay ⊢
    split
    · rename_i t h
      obtain ⟨scope, parent, hg, hp, rfl⟩ := closeScope_eq_ok h
      exact Nat.lt_trans ((hs.sound s.current scope hg).parent parent hp) hs.current
    · exact hs.current

theorem current_start (config : Config) : (start config).current = ⟨0⟩ := by
  rw [start_eq]
  split
  · exact current_addFunctionTypes (blank config)
  · rfl

theorem valid_start (config : Config) : (start config).Valid := by
  have hm := moves_start config
  have hblank : (blank config).scopes.Sound := Scopes.sound_empty.push _ nofun
  refine ⟨hm.sound hblank, ?_⟩
  rw [current_start]
  exact Nat.lt_of_lt_of_le (Nat.zero_lt_one) hm.size_le

theorem Reachable.valid {s : Session} (hs : s.Reachable) : s.Valid :=
  hs.induction valid_start fun _ op ht => ht.perform op

theorem Reachable.moves_induction {P : Session → Prop} (hblank : ∀ config, P (blank config))
    (hP : ∀ s t, Move s t → P s → P t) {s : Session} (hs : s.Reachable) : P s := by
  have h : s.Valid ∧ P s := by
    refine hs.induction (P := fun t => t.Valid ∧ P t) (fun config => ⟨valid_start config, ?_⟩)
      fun t op ht => ⟨ht.1.perform op, (ht.1.moves_perform op).preserves hP ht.2⟩
    exact (moves_start config).preserves hP (hblank config)
  exact h.2

end Bluespec.Session
