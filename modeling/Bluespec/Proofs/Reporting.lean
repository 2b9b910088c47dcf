import Bluespec.Proofs.Encoding
import Bluespec.Proofs.SynonymCycles

namespace Bluespec

/-- Whether an error is reported. The others stand for a crash, or for a computation that does not
end. -/
def Error.isReported : Error → Bool
  | missingDeclaration _ | missingScope _ | circularScopes _ | circularSynonym _
  | endlessImports _ => false
  | _ => true

def CheckError.isReported : CheckError → Bool
  | resolution e => e.isReported
  | illSorted _ => false
  | _ => true

namespace Session

variable {s : Session} {t r : TypeExpr} {name : String}

def LeadsTo (s : Session) (t : TypeExpr) (name : String) : Prop :=
  ∃ a ∈ t.mentions, Relation.ReflTransGen s.RefersTo a name

theorem LeadsTo.of_param {p : TypeExpr} (hr : r.isLeaf = false) (hp : p ∈ r.params)
    (h : s.LeadsTo p name) : s.LeadsTo r name := by
  obtain ⟨a, ha, hreach⟩ := h
  refine ⟨a, ?_, hreach⟩
  rw [TypeExpr.mentions_eq hr]
  exact List.mem_cons_of_mem _ (TypeExpr.mem_mentionsAll hp ha)

theorem LeadsTo.of_followWithin {steps : Nat} (h : s.followWithin steps t = .ok r)
    (hr : s.LeadsTo r name) : s.LeadsTo t name := by
  induction steps generalizing t with
  | zero => cases h
  | succ steps ih =>
    rw [followWithin_succ] at h
    split at h
    · rw [Except.ok.inj h]
      exact hr
    · rename_i hleaf
      cases hsyn : s.synonym? t.name with
      | none =>
        rw [hsyn] at h
        rw [← (stopAt_eq_ok h).1]
        exact hr
      | some target =>
        rw [hsyn] at h
        obtain ⟨a, ha, hreach⟩ := ih h
        refine ⟨t.name, ?_, .head ⟨target, hsyn, ha⟩ hreach⟩
        rw [TypeExpr.mentions_eq (Bool.eq_false_iff.mpr hleaf)]
        exact List.mem_cons_self

end Session

namespace Checker

variable {c : Checker} {t r : TypeExpr} {x : Term}

/-- The first thing that goes wrong on the way through a type is that `Numeric` is applied to a
type. -/
inductive AppliesNumeric (c : Checker) : TypeExpr → Prop
  | here {t r p : TypeExpr} {x : Term} (h : c.session.followSynonyms t = .ok r)
      (hr : r.isLeaf = false) (hname : r.name = "Numeric") (hp : r.params = [p])
      (hx : c.encode p = .ok x) : AppliesNumeric c t
  | inside {t r p : TypeExpr} {before after : List TypeExpr}
      (h : c.session.followSynonyms t = .ok r) (hr : r.isLeaf = false)
      (hp : r.params = before ++ p :: after) (hbefore : ∀ q ∈ before, ∃ y, c.encode q = .ok y)
      (hin : AppliesNumeric c p) : AppliesNumeric c t

theorem AppliesNumeric.encode_eq (hs : c.session.Acyclic) (hu : c.univ.Standard)
    (h : c.AppliesNumeric t) : c.encode t = .error (.illSorted "Numeric") := by
  induction h with
  | @here t r p x h hr hname hp hx =>
    have hargs : r.params.mapM c.encode = .ok [x] := by
      rw [hp, mapM_eq_ok]
      exact .cons hx .nil
    have htype : x.carrier = .type := (wellSorted_of_encodeWithin hx).2
    rw [encode_node hs h hr, hargs, hname]
    exact (hu.apply_types (List.forall_mem_singleton.mpr htype)).trans
      (by rw [Universe.arity?, hu.numeric]; rfl)
  | @inside t r p before after h hr hp hbefore _ ih =>
    have hargs : r.params.mapM c.encode = .error (.illSorted "Numeric") :=
      mapM_eq_error.mpr ⟨before, p, after, hp, hbefore, ih⟩
    rw [encode_node hs h hr, hargs]
    rfl

theorem AppliesNumeric.leadsTo (h : c.AppliesNumeric t) : c.session.LeadsTo t "Numeric" := by
  induction h with
  | @here t r p x h hr hname _ _ =>
    refine .of_followWithin h ⟨r.name, ?_, hname ▸ .refl⟩
    rw [TypeExpr.mentions_eq hr]
    exact List.mem_cons_self
  | @inside t r p before after h hr hp _ _ ih =>
    have hmem : p ∈ r.params := hp ▸ List.mem_append_right _ List.mem_cons_self
    exact .of_followWithin h (.of_param hr hmem ih)

theorem apply_cases (hs : c.session.Acyclic) (hu : c.univ.Standard)
    (h : c.session.followSynonyms t = .ok r) (hr : r.isLeaf = false) {args : List Term}
    (hargs : r.params.mapM c.encode = .ok args) :
    (∃ x, c.encode t = .ok x) ∨ (∃ e, c.encode t = .error e ∧ e.isReported = true) ∨
      c.AppliesNumeric t := by
  have htypes : ∀ a ∈ args, a.carrier = .type :=
    forall_mem_of_mapM hargs fun _ _ hy => (wellSorted_of_encodeWithin hy).2
  have hencode : c.encode t = c.univ.apply r.name args := by
    rw [encode_node hs h hr, hargs]
    rfl
  rw [hencode, hu.apply_types htypes]
  split
  · exact .inr (.inl ⟨_, rfl, rfl⟩)
  · rename_i k hk
    split
    · exact .inr (.inl ⟨_, rfl, rfl⟩)
    · rename_i hlength
      split
      · rename_i hname
        rw [hname, Universe.arity?, hu.numeric] at hk
        obtain ⟨x, rfl⟩ : ∃ x, args = [x] :=
          List.length_eq_one_iff.mp ((not_not.mp hlength).symm.trans (Option.some.inj hk).symm)
        obtain ⟨p, rest, hx, hrest, hone⟩ := List.forall₂_cons_right_iff.mp (mapM_eq_ok.mp hargs)
        rw [List.forall₂_nil_right_iff.mp hrest] at hone
        exact .inr (.inr (.here h hr hname hone hx))
      · exact .inl ⟨_, rfl⟩

theorem encode_cases (hs : c.session.Acyclic)
    (hv : c.session.symbols.ValuesStored c.session.arena) (hu : c.univ.Standard) (t : TypeExpr) :
    (∃ x, c.encode t = .ok x) ∨ (∃ e, c.encode t = .error e ∧ e.isReported = true) ∨
      c.AppliesNumeric t := by
  induction t using Session.levels_induction hs with
  | h t ih =>
    cases h : c.session.followSynonyms t with
    | error e =>
      obtain ⟨name, arity, rfl⟩ := Session.followSynonyms_eq_error hs hv h
      exact .inr (.inl ⟨_, encode_of_error h, rfl⟩)
    | ok r =>
      cases hr : r.isLeaf with
      | true =>
        rw [encode_leaf h hr]
        exact .inl (hu.spell_leaf hr)
      | false =>
        cases hargs : r.params.mapM c.encode with
        | ok args => exact apply_cases hs hu h hr hargs
        | error e =>
          obtain ⟨before, p, after, hparams, hbefore, hp⟩ := mapM_eq_error.mp hargs
          have hencode : c.encode t = .error e := by
            rw [encode_node hs h hr, hargs]
            rfl
          have hmem : p ∈ r.params := hparams ▸ List.mem_append_right _ List.mem_cons_self
          rcases ih r h hr p hmem with ⟨x, hx⟩ | ⟨e', he', hreported⟩ | hin
          · rw [hx] at hp
            cases hp
          · obtain rfl := Except.error.inj (hp.symm.trans he')
            exact .inr (.inl ⟨e, hencode, hreported⟩)
          · exact .inr (.inr (.inside h hr hparams hbefore hin))

/-- Where no synonym is defined through itself, a type has a term, well-sorted and of the sort of
types, or an error is reported, unless `Numeric` comes to be applied to a type. For that the name
has to be in the type or in a synonym that the type leads to. -/
theorem encode_sorted_or_reported (hc : c.Reachable) (hs : c.session.Acyclic) (t : TypeExpr) :
    ((∃ x, c.encode t = .ok x ∧ c.univ.WellSorted x ∧ x.carrier = .type) ∨
      (∃ e, c.encode t = .error e ∧ e.isReported = true) ∨
      c.encode t = .error (.illSorted "Numeric")) ∧
    (c.encode t = .error (.illSorted "Numeric") ↔ c.AppliesNumeric t) ∧
    (c.AppliesNumeric t → c.session.LeadsTo t "Numeric") := by
  have hcases := encode_cases hs hc.tracks.session.valuesStored hc.standard t
  refine ⟨?_, ⟨fun herr => ?_, AppliesNumeric.encode_eq hs hc.standard⟩, AppliesNumeric.leadsTo⟩
  · rcases hcases with ⟨x, hx⟩ | hreported | happlies
    · exact .inl ⟨x, hx, wellSorted_of_encodeWithin hx⟩
    · exact .inr (.inl hreported)
    · exact .inr (.inr (happlies.encode_eq hs hc.standard))
  · rcases hcases with ⟨x, hx⟩ | ⟨e, he, hreported⟩ | happlies
    · rw [hx] at herr
      cases herr
    · rw [he] at herr
      rw [Except.error.inj herr] at hreported
      cases hreported
    · exact happlies

/-- What `Pair` is applied to does not count. `Vector#(2)` lacks a parameter, which is reported. -/
theorem encode_sorted_or_reported_wordy :
    wordy.Reachable ∧ wordy.session.Acyclic ∧
      (∃ x, wordy.encode (.applied "Pair" [.named "Word"]) = .ok x ∧ wordy.univ.WellSorted x ∧
        x.carrier = .type) ∧
      (∃ e, wordy.encode (.applied "Vector" [.numeric 2]) = .error e ∧ e.isReported = true) := by
  obtain ⟨hpair, _⟩ :=
    encode_sorted_or_reported reachable_wordy acyclic_wordy (.applied "Pair" [.named "Word"])
  obtain ⟨hvector, _⟩ :=
    encode_sorted_or_reported reachable_wordy acyclic_wordy (.applied "Vector" [.numeric 2])
  refine ⟨reachable_wordy, acyclic_wordy, ?_, ?_⟩
  · rcases hpair with hok | ⟨e, he, _⟩ | herr
    · exact hok
    · cases he
    · cases herr
  · rcases hvector with ⟨x, hx, _⟩ | hreported | herr
    · cases hx
    · exact hreported
    · cases herr

/-- A type that names the constructor of numeric types makes the solver crash. -/
theorem encode_crashes_numeric :
    let c : Checker := { session := .start .here, univ := .of Universe.builtins }
    let t : TypeExpr := .applied "Numeric" [.numeric 8]
    c.Reachable ∧ c.session.Acyclic ∧ t.Plain ∧ c.encode t = .error (.illSorted "Numeric") ∧
      CheckError.isReported (.illSorted "Numeric") = false := by
  intro c t
  have hc : c.Reachable := ⟨.start .here, c, [], ⟨.here, [], rfl⟩, rfl, rfl⟩
  have hnone : c.session.NoSynonyms := nofun
  exact ⟨hc, hnone.acyclic,
    .applied "Numeric" (List.forall_mem_singleton.mpr (.numeric (by decide))), rfl, rfl⟩

end Checker

end Bluespec
