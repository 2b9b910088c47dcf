import Bluespec.Proofs.Encoding

namespace Bluespec

namespace TypeExpr

mutual

def applications : TypeExpr → List (String × Nat)
  | ⟨name, params, isVar, isNumeric⟩ =>
    if isVar || isNumeric then [] else (name, params.length) :: applicationsAll params

def applicationsAll : List TypeExpr → List (String × Nat)
  | [] => []
  | p :: ps => p.applications ++ applicationsAll ps

end

variable {t : TypeExpr}

theorem applications_leaf (h : t.isLeaf = true) : t.applications = [] := by
  obtain ⟨name, params, isVar, isNumeric⟩ := t
  rw [applications]
  exact if_pos h

theorem applications_node (h : t.isLeaf = false) :
    t.applications = (t.name, t.params.length) :: applicationsAll t.params := by
  obtain ⟨name, params, isVar, isNumeric⟩ := t
  rw [applications]
  exact if_neg (Bool.eq_false_iff.mp h)

end TypeExpr

namespace Universe

variable {u : Universe}

def Fits (u : Universe) (a : String × Nat) : Prop := a.1 ≠ "Numeric" ∧ u.arity? a.1 = some a.2

theorem Standard.apply_types_ok_iff (hu : u.Standard) {name : String} {args : List Term}
    (hargs : ∀ a ∈ args, a.carrier = .type) :
    (∃ x, u.apply name args = .ok x) ↔ u.Fits (name, args.length) := by
  rw [hu.apply_types hargs, Fits]
  cases u.arity? name with
  | none => simp
  | some k =>
    by_cases hk : k = args.length <;> by_cases hname : name = "Numeric" <;> simp [hk, hname]

mutual

theorem Standard.spell_ok_iff (hu : u.Standard) :
    (t : TypeExpr) → ((∃ x, u.spell t = .ok x) ↔ ∀ a ∈ t.applications, u.Fits a)
  | ⟨name, params, isVar, isNumeric⟩ => by
    cases hleaf : TypeExpr.isLeaf ⟨name, params, isVar, isNumeric⟩ with
    | true =>
      rw [TypeExpr.applications_leaf hleaf]
      exact ⟨fun _ => nofun, fun _ => hu.spell_leaf hleaf⟩
    | false =>
      have hparams := hu.spellAll_ok_iff params
      rw [TypeExpr.applications_node hleaf, List.forall_mem_cons, ← hparams, spell_eq,
        Checker.encodeHead_node u hleaf]
      cases h : u.spellAll params with
      | error e => simp [Except.bind]
      | ok args =>
        have hmap : params.mapM u.spell = .ok args := (spellAll_eq u params).symm.trans h
        have hlength : params.length = args.length := (mapM_eq_ok.mp hmap).length_eq
        have htypes : ∀ a ∈ args, a.carrier = .type :=
          forall_mem_of_mapM hmap fun p _ hp => Checker.carrier_of_encodeHead (spell_eq u p ▸ hp)
        rw [hlength, ← hu.apply_types_ok_iff htypes]
        simp [Except.bind]

theorem Standard.spellAll_ok_iff (hu : u.Standard) : (ps : List TypeExpr) →
    ((∃ xs, u.spellAll ps = .ok xs) ↔ ∀ a ∈ TypeExpr.applicationsAll ps, u.Fits a)
  | [] => by simp [spellAll, TypeExpr.applicationsAll]
  | p :: ps => by
    have hp := hu.spell_ok_iff p
    have hps := hu.spellAll_ok_iff ps
    rw [TypeExpr.applicationsAll, List.forall_mem_append, ← hp, ← hps, spellAll]
    cases u.spell p with
    | error e => simp [bind, Except.bind]
    | ok x => cases u.spellAll ps <;> simp [bind, Except.bind, pure, Except.pure]

end

end Universe

namespace Session

variable {s : Session} {t u : TypeExpr}

theorem followSynonyms_node (h : t.isLeaf = false) (hnone : s.synonym? t.name = none) :
    s.followSynonyms t = s.stopAt t := by
  rw [followSynonyms, followWithin_succ, h, hnone]
  rfl

theorem stopAt_params (s : Session) (t : TypeExpr) (params : List TypeExpr) :
    s.stopAt { t with params } = (s.stopAt t).map fun r => { r with params } := by
  rw [stopAt, stopAt]
  cases s.symbols.value? t.name with
  | none => rfl
  | some id =>
    dsimp only
    cases s.arena.get id with
    | error e => rfl
    | ok d =>
      dsimp only
      cases d.kind <;> rfl

/-- What a synonym is applied to is not looked at. -/
theorem followSynonyms_synonym (h : t.isLeaf = false) (hsome : (s.synonym? t.name).isSome = true)
    (params : List TypeExpr) : s.followSynonyms { t with params } = s.followSynonyms t := by
  obtain ⟨target, htarget⟩ := Option.isSome_iff_exists.mp hsome
  have hleaf : TypeExpr.isLeaf { t with params } = false := h
  rw [followSynonyms, followSynonyms, followWithin_succ, followWithin_succ, h, hleaf, htarget]
  rfl

mutual

/-- The type without what synonyms are applied to in it. -/
def bare (s : Session) : TypeExpr → TypeExpr
  | ⟨name, params, isVar, isNumeric⟩ =>
    if isVar || isNumeric then ⟨name, params, isVar, isNumeric⟩
    else if (s.synonym? name).isSome then ⟨name, [], isVar, isNumeric⟩
    else ⟨name, s.bareAll params, isVar, isNumeric⟩

def bareAll (s : Session) : List TypeExpr → List TypeExpr
  | [] => []
  | p :: ps => s.bare p :: s.bareAll ps

end

theorem bare_leaf (h : t.isLeaf = true) : s.bare t = t := by
  obtain ⟨name, params, isVar, isNumeric⟩ := t
  rw [bare]
  exact if_pos h

theorem bare_synonym (h : t.isLeaf = false) (hsome : (s.synonym? t.name).isSome = true) :
    s.bare t = { t with params := [] } := by
  obtain ⟨name, params, isVar, isNumeric⟩ := t
  rw [bare]
  exact (if_neg (Bool.eq_false_iff.mp h)).trans (if_pos hsome)

theorem bare_node (h : t.isLeaf = false) (hnone : s.synonym? t.name = none) :
    s.bare t = { t with params := s.bareAll t.params } := by
  obtain ⟨name, params, isVar, isNumeric⟩ := t
  have hsome : ¬ (s.synonym? name).isSome = true := by
    rw [hnone]
    exact Bool.false_ne_true
  rw [bare]
  exact (if_neg (Bool.eq_false_iff.mp h)).trans (if_neg hsome)

theorem length_bareAll (s : Session) (ps : List TypeExpr) : (s.bareAll ps).length = ps.length := by
  induction ps with
  | nil => rfl
  | cons p ps ih => rw [bareAll, List.length_cons, List.length_cons, ih]

theorem applications_bare_synonym (h : t.isLeaf = false)
    (hsome : (s.synonym? t.name).isSome = true) : (s.bare t).applications = [(t.name, 0)] := by
  rw [bare_synonym h hsome]
  exact TypeExpr.applications_node (t := { t with params := [] }) h

theorem applications_bare_node (h : t.isLeaf = false) (hnone : s.synonym? t.name = none) :
    (s.bare t).applications =
      (t.name, t.params.length) :: TypeExpr.applicationsAll (s.bareAll t.params) := by
  rw [bare_node h hnone, ← length_bareAll s t.params]
  exact TypeExpr.applications_node (t := { t with params := s.bareAll t.params }) h

theorem ExpandsAll.length_eq {ps qs : List TypeExpr} (h : s.ExpandsAll ps qs) :
    ps.length = qs.length := by
  induction ps generalizing qs with
  | nil =>
    cases h
    rfl
  | cons p ps ih =>
    cases h with
    | cons _ hs => exact congrArg (· + 1) (ih hs)

theorem Expands.of_node (ht : t.isLeaf = false) (hnone : s.synonym? t.name = none)
    (h : s.Expands t u) : ∃ params, u = { t with params } ∧ s.ExpandsAll t.params params := by
  have hself : ∀ r, s.followSynonyms t = .ok r → r = t := by
    intro r hr
    rw [followSynonyms_node ht hnone] at hr
    exact (stopAt_eq_ok hr).1
  cases h with
  | leaf hf hleaf =>
    rw [hself _ hf, ht] at hleaf
    cases hleaf
  | node hf _ hp =>
    obtain rfl := hself _ hf
    exact ⟨_, rfl, hp⟩

mutual

theorem bare_eq_self : (t : TypeExpr) →
    (∀ a ∈ t.applications, (s.synonym? a.1).isSome = true → a.2 = 0) → s.bare t = t
  | ⟨name, params, isVar, isNumeric⟩, hzero => by
    cases hleaf : TypeExpr.isLeaf ⟨name, params, isVar, isNumeric⟩ with
    | true => exact bare_leaf hleaf
    | false =>
      rw [TypeExpr.applications_node hleaf, List.forall_mem_cons] at hzero
      cases hsyn : s.synonym? name with
      | none => rw [bare_node hleaf hsyn, bareAll_eq_self params hzero.2]
      | some target =>
        have hsome : (s.synonym? name).isSome = true := Option.isSome_of_eq_some hsyn
        have hnil : params = [] := List.eq_nil_of_length_eq_zero (hzero.1 hsome)
        rw [bare_synonym hleaf hsome, hnil]

theorem bareAll_eq_self : (ps : List TypeExpr) →
    (∀ a ∈ TypeExpr.applicationsAll ps, (s.synonym? a.1).isSome = true → a.2 = 0) →
      s.bareAll ps = ps
  | [], _ => rfl
  | p :: ps, hzero => by
    rw [TypeExpr.applicationsAll, List.forall_mem_append] at hzero
    rw [bareAll, bare_eq_self p hzero.1, bareAll_eq_self ps hzero.2]

end

end Session

namespace Checker

variable {c : Checker} {t u : TypeExpr}

theorem encode_congr (hs : c.session.Acyclic)
    (h : c.session.followSynonyms t = c.session.followSynonyms u) : c.encode t = c.encode u := by
  cases hf : c.session.followSynonyms u with
  | error e => rw [encode_of_error (h.trans hf), encode_of_error hf]
  | ok r => rw [encode_of_follow hs (h.trans hf), encode_of_follow hs hf]

theorem encode_node_congr (hs : c.session.Acyclic) (ht : t.isLeaf = false)
    (hnone : c.session.synonym? t.name = none) {params : List TypeExpr}
    (h : params.mapM c.encode = t.params.mapM c.encode) :
    c.encode { t with params } = c.encode t := by
  have hfollow := Session.followSynonyms_node ht hnone
  have hfollow' : c.session.followSynonyms { t with params } =
      (c.session.stopAt t).map fun r => { r with params } :=
    (Session.followSynonyms_node (t := { t with params }) ht hnone).trans
      (c.session.stopAt_params t params)
  cases hstop : c.session.stopAt t with
  | error e =>
    rw [hstop] at hfollow hfollow'
    rw [encode_of_error hfollow, encode_of_error hfollow']
  | ok r =>
    obtain ⟨rfl, _⟩ := Session.stopAt_eq_ok hstop
    rw [hstop] at hfollow hfollow'
    rw [encode_node hs hfollow ht, encode_node hs hfollow' ht, h]

mutual

theorem encode_bare (hs : c.session.Acyclic) : (t : TypeExpr) →
    c.encode (c.session.bare t) = c.encode t
  | ⟨name, params, isVar, isNumeric⟩ => by
    cases hleaf : TypeExpr.isLeaf ⟨name, params, isVar, isNumeric⟩ with
    | true => rw [Session.bare_leaf hleaf]
    | false =>
      cases hsyn : c.session.synonym? name with
      | none =>
        rw [Session.bare_node hleaf hsyn]
        exact encode_node_congr hs hleaf hsyn (encodeAll_bareAll hs params)
      | some target =>
        have hsome : (c.session.synonym? name).isSome = true := Option.isSome_of_eq_some hsyn
        rw [Session.bare_synonym hleaf hsome]
        exact encode_congr hs (Session.followSynonyms_synonym hleaf hsome [])

theorem encodeAll_bareAll (hs : c.session.Acyclic) : (ps : List TypeExpr) →
    (c.session.bareAll ps).mapM c.encode = ps.mapM c.encode
  | [] => rfl
  | p :: ps => by
    rw [Session.bareAll, List.mapM_cons, List.mapM_cons, encode_bare hs p, encodeAll_bareAll hs ps]

end

def takes? (c : Checker) (name : String) : Option Nat :=
  if (c.session.synonym? name).isSome then some 0 else c.univ.arity? name

theorem takes?_of_none {name : String} (h : c.session.synonym? name = none) :
    c.takes? name = c.univ.arity? name := by
  rw [takes?, h]
  rfl

mutual

theorem takes?_of_expands : (t : TypeExpr) → {u : TypeExpr} → c.session.Expands t u →
    (∀ a ∈ u.applications, c.univ.Fits a) →
    ∀ a ∈ (c.session.bare t).applications, c.takes? a.1 = some a.2
  | ⟨name, params, isVar, isNumeric⟩, u, hu, hfits => by
    cases hleaf : TypeExpr.isLeaf ⟨name, params, isVar, isNumeric⟩ with
    | true =>
      rw [Session.bare_leaf hleaf, TypeExpr.applications_leaf hleaf]
      exact nofun
    | false =>
      cases hsyn : c.session.synonym? name with
      | none =>
        -- The name stays, and the expansion applies it to as many types as `t` does.
        obtain ⟨qs, rfl, hqs⟩ := hu.of_node hleaf hsyn
        rw [TypeExpr.applications_node (t := ⟨name, qs, isVar, isNumeric⟩) hleaf,
          List.forall_mem_cons] at hfits
        rw [Session.applications_bare_node hleaf hsyn, List.forall_mem_cons]
        refine ⟨?_, takes?_of_expandsAll params hqs hfits.2⟩
        rw [takes?_of_none hsyn, hfits.1.2, hqs.length_eq]
      | some target =>
        have hsome : (c.session.synonym? name).isSome = true := Option.isSome_of_eq_some hsyn
        rw [Session.applications_bare_synonym hleaf hsome]
        exact List.forall_mem_singleton.mpr (if_pos hsome)

theorem takes?_of_expandsAll : (ps : List TypeExpr) → {qs : List TypeExpr} →
    c.session.ExpandsAll ps qs → (∀ a ∈ TypeExpr.applicationsAll qs, c.univ.Fits a) →
    ∀ a ∈ TypeExpr.applicationsAll (c.session.bareAll ps), c.takes? a.1 = some a.2
  | [], _, .nil, _ => nofun
  | p :: ps, _, .cons h hs, hfits => by
    rw [TypeExpr.applicationsAll, List.forall_mem_append] at hfits
    rw [Session.bareAll, TypeExpr.applicationsAll, List.forall_mem_append]
    exact ⟨takes?_of_expands p h hfits.1, takes?_of_expandsAll ps hs hfits.2⟩

end

theorem exists_term_iff (hs : c.session.Acyclic) (hu : c.univ.Standard) :
    (∃ x, c.encode t = .ok x) ↔
      ∃ u, c.session.Expands t u ∧ ∀ a ∈ u.applications, c.univ.Fits a := by
  constructor
  · rintro ⟨x, hx⟩
    obtain ⟨u, hexpands, hspell⟩ := exists_spelling hx
    exact ⟨u, hexpands, (hu.spell_ok_iff u).mp ⟨x, hspell⟩⟩
  · rintro ⟨u, hexpands, hfits⟩
    rw [encode_of_expands hs hexpands]
    exact (hu.spell_ok_iff u).mpr hfits

/-- Where no synonym is defined through itself, the names in a type that has a term are applied to
as many arguments as they take. Only what a synonym is applied to is dropped, whatever it is. So the
types that have a term are those whose expansion applies constructors, and each to as many types
as it takes. -/
theorem applied_names_fit (hc : c.Reachable) (hs : c.session.Acyclic) (t : TypeExpr) :
    (∀ x, c.encode t = .ok x →
      (∀ a ∈ (c.session.bare t).applications, c.takes? a.1 = some a.2) ∧
      ((∀ a ∈ t.applications, (c.session.synonym? a.1).isSome = true → a.2 = 0) →
        ∀ a ∈ t.applications, c.takes? a.1 = some a.2)) ∧
    c.encode (c.session.bare t) = c.encode t ∧
    ((∃ x, c.encode t = .ok x) ↔
      ∃ u, c.session.Expands t u ∧ ∀ a ∈ u.applications, c.univ.Fits a) := by
  have hiff := exists_term_iff (t := t) hs hc.standard
  refine ⟨fun x hx => ?_, encode_bare hs t, hiff⟩
  obtain ⟨u, hexpands, hfits⟩ := hiff.mp ⟨x, hx⟩
  have hbare := takes?_of_expands t hexpands hfits
  refine ⟨hbare, fun hzero => ?_⟩
  rwa [Session.bare_eq_self t hzero] at hbare

/-- `Vector` is applied to two types and `Word` to none. -/
theorem applied_names_fit_wordy :
    let t : TypeExpr := .applied "Vector" [.numeric 4, .named "Word"]
    wordy.Reachable ∧ wordy.session.Acyclic ∧ (∃ x, wordy.encode t = .ok x) ∧
      t.applications = [("Vector", 2), ("Word", 0)] ∧
      (∀ a ∈ t.applications, wordy.takes? a.1 = some a.2) ∧
      ∃ u, wordy.session.Expands t u ∧ ∀ a ∈ u.applications, wordy.univ.Fits a := by
  intro t
  obtain ⟨hfit, _, hiff⟩ := applied_names_fit reachable_wordy acyclic_wordy t
  have hzero : ∀ a ∈ t.applications, (wordy.session.synonym? a.1).isSome = true → a.2 = 0 := by
    decide +kernel
  exact ⟨reachable_wordy, acyclic_wordy, ⟨_, rfl⟩, rfl, (hfit _ rfl).2 hzero, hiff.mp ⟨_, rfl⟩⟩

/-- `Word` takes no arguments, and yet `Word#(Bool)` has a term: that of `Word`. -/
theorem encode_drops_argument :
    let t : TypeExpr := .applied "Word" [.named "Bool"]
    wordy.Reachable ∧ wordy.session.Acyclic ∧ t.Plain ∧
      wordy.encode t = .ok (.app "Bit" [.app "Numeric" [.int 32]]) ∧
      ("Word", 1) ∈ t.applications ∧ wordy.takes? "Word" = some 0 := by
  intro t
  exact ⟨reachable_wordy, acyclic_wordy,
    .applied "Word" (List.forall_mem_singleton.mpr (.named "Bool")), rfl, List.mem_cons_self, rfl⟩

end Checker

end Bluespec
