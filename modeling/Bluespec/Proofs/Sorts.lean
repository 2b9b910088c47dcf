import Bluespec.Proofs.Expansion
import Bluespec.Proofs.UniverseSync

namespace Bluespec

namespace Universe

variable {arena : Arena} {u : Universe} {name : String} {args : List Term} {t x : Term}

theorem apply_eq_ok : u.apply name args = .ok x ↔
    ∃ c, u.find? name = some c ∧ args.map (·.carrier) = c.fields ∧ x = .app name args := by
  rw [apply]
  cases u.find? name with
  | none => simp
  | some c =>
    have hlength : args.map (·.carrier) = c.fields → c.arity = args.length := by
      intro h
      rw [Constructor.arity, ← h, List.length_map]
    by_cases harity : c.arity = args.length <;> by_cases hfields : args.map (·.carrier) = c.fields
    · simp [harity, hfields, eq_comm]
    · simp [harity, hfields]
    · exact absurd (hlength hfields) harity
    · simp [harity, hfields]

/-- All constructors take types only, but for `Numeric`, which takes a number. -/
structure Standard (u : Universe) : Prop where
  numeric : u.find? "Numeric" = some ⟨"Numeric", [.number]⟩
  typed : ∀ name c, u.find? name = some c → name ≠ "Numeric" →
    c.fields = List.replicate c.arity .type

theorem standard_of_build {types : List DeclId} (h : build arena types = .ok u) : u.Standard := by
  constructor
  · exact find?_builtin h (c := ⟨"Numeric", [.number]⟩) (by decide)
  · intro name c hc hname
    obtain ⟨hmem, hkey⟩ := (find?_iff h).mp hc
    obtain ⟨cs, hcs, rfl, _⟩ := build_eq_ok.mp h
    rcases List.mem_append.mp hmem with hmem | hmem
    · have hall : ∀ c ∈ builtins, c.name ≠ "Numeric" →
          c.fields = List.replicate c.arity .type := by decide
      exact hall c hmem (hkey ▸ hname)
    · have hsome : some c ∈ types.map arena.constructor? := hcs ▸ List.mem_map_of_mem hmem
      obtain ⟨id, _, hid⟩ := List.mem_map.mp hsome
      obtain ⟨d, _, rfl⟩ := Option.map_eq_some_iff.mp hid
      rw [d.arity_constructor]
      rfl

theorem Standard.apply_numeric (hu : u.Standard) (n : Nat) :
    u.apply "Numeric" [.int n] = .ok (.app "Numeric" [.int n]) :=
  apply_eq_ok.mpr ⟨_, hu.numeric, rfl, rfl⟩

theorem Standard.apply_types (hu : u.Standard) (hargs : ∀ a ∈ args, a.carrier = .type) :
    u.apply name args =
      match u.arity? name with
      | none => .error (.unknownConstructor name)
      | some k =>
        if k ≠ args.length then .error (.arityMismatch name k args.length)
        else if name = "Numeric" then .error (.illSorted name)
        else .ok (.app name args) := by
  rw [apply, arity?]
  cases hc : u.find? name with
  | none => rfl
  | some c =>
    dsimp only [Option.map]
    split
    · rfl
    · rename_i hlength
      have hcarriers : args.map (·.carrier) = List.replicate args.length .type :=
        List.eq_replicate_iff.mpr ⟨List.length_map _, by simpa using hargs⟩
      by_cases hname : name = "Numeric"
      · subst hname
        obtain rfl := Option.some.inj (hc.symm.trans hu.numeric)
        rw [if_pos ?_, if_pos rfl]
        rw [hcarriers, ← not_not.mp hlength]
        decide
      · have hfields : args.map (·.carrier) = c.fields := by
          rw [hcarriers, ← not_not.mp hlength, ← hu.typed name c hc hname]
        rw [if_neg (not_not.mpr hfields), if_neg hname]

/-- Constructors are applied to what they take, all the way down. -/
inductive WellSorted (u : Universe) : Term → Prop
  | const (name : String) (sort : Carrier) : WellSorted u (.const name sort)
  | int (n : Int) : WellSorted u (.int n)
  | app {head : String} {args : List Term} {c : Constructor} (hc : u.find? head = some c)
      (hfields : args.map (·.carrier) = c.fields) (hargs : ∀ a ∈ args, WellSorted u a) :
    WellSorted u (.app head args)

theorem wellSorted_of_apply (h : u.apply name args = .ok x) (hargs : ∀ a ∈ args, u.WellSorted a) :
    u.WellSorted x := by
  obtain ⟨c, hc, hfields, rfl⟩ := apply_eq_ok.mp h
  exact .app hc hfields hargs

theorem carrier_of_apply (h : u.apply name args = .ok x) : x.carrier = .type := by
  obtain ⟨_, _, _, rfl⟩ := apply_eq_ok.mp h
  rfl

theorem Standard.spell_leaf (hu : u.Standard) {r : TypeExpr} (hr : r.isLeaf = true) :
    ∃ x, u.spell r = .ok x := by
  rw [spell_eq, Checker.encodeHead]
  cases hvar : r.isVar with
  | true => exact ⟨_, rfl⟩
  | false =>
    have hnumeric : r.isNumeric = true := by simpa [TypeExpr.isLeaf, hvar] using hr
    rw [hnumeric]
    cases r.numericValue? with
    | none => exact ⟨_, rfl⟩
    | some n => exact ⟨_, hu.apply_numeric n⟩

end Universe

namespace Checker

variable {c : Checker} {t : TypeExpr} {x : Term}

theorem Reachable.standard (hc : c.Reachable) : c.univ.Standard := by
  obtain ⟨_, _, hbuild⟩ := hc.tracks.univ
  exact Universe.standard_of_build hbuild

theorem encodeHead_eq_ok {univ : Universe} {r : TypeExpr} {params : Except CheckError (List Term)}
    (h : encodeHead univ r params = .ok x) :
    x = .const r.name .type ∨ (∃ n : Nat, univ.apply "Numeric" [.int n] = .ok x) ∨
      ∃ args, params = .ok args ∧ univ.apply r.name args = .ok x := by
  rw [encodeHead] at h
  split at h
  · exact .inl (Except.ok.inj h).symm
  · split at h
    · split at h
      · exact .inr (.inl ⟨_, h⟩)
      · exact .inl (Except.ok.inj h).symm
    · cases params with
      | error e => cases h
      | ok args => exact .inr (.inr ⟨args, rfl, h⟩)

theorem carrier_of_encodeHead {univ : Universe} {r : TypeExpr}
    {params : Except CheckError (List Term)} (h : encodeHead univ r params = .ok x) :
    x.carrier = .type := by
  rcases encodeHead_eq_ok h with rfl | ⟨n, h⟩ | ⟨args, _, h⟩
  · rfl
  · exact Universe.carrier_of_apply h
  · exact Universe.carrier_of_apply h

theorem wellSorted_of_encodeWithin {steps : Nat} (h : c.encodeWithin steps t = .ok x) :
    c.univ.WellSorted x ∧ x.carrier = .type := by
  induction steps generalizing t x with
  | zero => cases h
  | succ steps ih =>
    cases hf : c.session.followSynonyms t with
    | error e =>
      rw [encodeWithin_of_error hf] at h
      cases h
    | ok r =>
      rw [encodeWithin_of_follow hf] at h
      refine ⟨?_, carrier_of_encodeHead h⟩
      rcases encodeHead_eq_ok h with rfl | ⟨n, h⟩ | ⟨args, hargs, h⟩
      · exact .const r.name .type
      · exact Universe.wellSorted_of_apply h (List.forall_mem_singleton.mpr (.int n))
      · exact Universe.wellSorted_of_apply h (forall_mem_of_mapM hargs fun _ _ hy => (ih hy).1)

end Checker

end Bluespec
