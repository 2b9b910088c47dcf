import Bluespec.Proofs.Expansion
import Bluespec.Proofs.SynonymChains

namespace Bluespec

namespace Session

variable {s : Session} {t r target : TypeExpr} {a b : String} {names : List String}

def HeadRefersTo (s : Session) (a b : String) : Prop :=
  ∃ target, s.synonym? a = some target ∧ target.isLeaf = false ∧ target.name = b

/-- No synonym comes back to itself from head to head. -/
def HeadAcyclic (s : Session) : Prop := ∀ a, ¬ Relation.TransGen s.HeadRefersTo a a

theorem HeadRefersTo.refersTo (h : s.HeadRefersTo a b) : s.RefersTo a b := by
  obtain ⟨target, htarget, hleaf, rfl⟩ := h
  refine ⟨target, htarget, ?_⟩
  rw [TypeExpr.mentions_eq hleaf]
  exact List.mem_cons_self

theorem Acyclic.headAcyclic (hs : s.Acyclic) : s.HeadAcyclic :=
  fun a h => hs a (Relation.TransGen.mono (fun _ _ h => h.refersTo) a a h)

theorem Chain.isLeaf_of_mem (h : s.Chain t names r) (ha : a ∈ names) : t.isLeaf = false := by
  cases h with
  | nil => cases ha
  | cons ht _ _ => exact ht

theorem Chain.reaches (h : s.Chain t names r) (ha : a ∈ names) :
    Relation.ReflTransGen s.HeadRefersTo t.name a := by
  induction h with
  | nil => cases ha
  | @cons t target _ names _ hsyn hc ih =>
    by_cases heq : a = t.name
    · rw [heq]
    · have hrest : a ∈ names := (List.mem_cons.mp ha).resolve_left heq
      exact .head ⟨target, hsyn, hc.isLeaf_of_mem hrest, rfl⟩ (ih hrest)

theorem Chain.nodup_of_headAcyclic (hs : s.HeadAcyclic) (h : s.Chain t names r) :
    names.Nodup := by
  induction h with
  | nil => exact List.nodup_nil
  | @cons t target _ names _ hsyn hc ih =>
    refine List.nodup_cons.mpr ⟨fun hmem => ?_, ih⟩
    exact hs t.name (.head' ⟨target, hsyn, hc.isLeaf_of_mem hmem, rfl⟩ (hc.reaches hmem))

theorem HeadAcyclic.exists_end (hs : s.HeadAcyclic) (t : TypeExpr) :
    ∃ names r, s.Chain t names r ∧ s.Ends r := by
  obtain ⟨names, r, hc, hr, _⟩ | ⟨names, r, hc, hlength⟩ :=
    chain_cases s (s.symbols.valueOf.size + 1) t
  · exact ⟨names, r, hc, hr⟩
  · have hle := hc.length_le_of_nodup (hc.nodup_of_headAcyclic hs)
    omega

theorem HeadAcyclic.followWithin_eq (hs : s.HeadAcyclic) (t : TypeExpr) {steps : Nat}
    (hsteps : s.symbols.valueOf.size < steps) : s.followWithin steps t = s.followSynonyms t := by
  obtain ⟨names, r, hc, hr⟩ := hs.exists_end t
  have hle := hc.length_le_of_nodup (hc.nodup_of_ends hr)
  rw [hc.followSynonyms_eq hr, hc.followWithin_of_ends hr (Nat.lt_of_le_of_lt hle hsteps)]

theorem followSynonyms_ne_circular_iff :
    (∀ name, s.followSynonyms t ≠ .error (.circularSynonym name)) ↔
      ∃ names r, s.Chain t names r ∧ s.Ends r := by
  constructor
  · intro h
    obtain ⟨names, r, hc, hr, _⟩ | ⟨⟨name, hout⟩, _⟩ := followSynonyms_cases s t
    · exact ⟨names, r, hc, hr⟩
    · exact absurd hout (h name)
  · rintro ⟨names, r, hc, hr⟩ name
    rw [hc.followSynonyms_eq hr]
    intro h
    obtain ⟨_, _, he⟩ | ⟨_, _, _, he⟩ := endAt_eq_error h
    · cases he
    · cases he

theorem followSynonyms_eq_error (hs : s.Acyclic) (hv : s.symbols.ValuesStored s.arena) {e : Error}
    (h : s.followSynonyms t = .error e) : ∃ name arity, e = .parametricSynonym name arity := by
  obtain ⟨names, r, hc, hr⟩ := hs.headAcyclic.exists_end t
  rw [hc.followSynonyms_eq hr] at h
  obtain hparametric | ⟨id, hid, hmissing, _⟩ := endAt_eq_error h
  · exact hparametric
  · have hstored : s.arena.get? id = some _ := Array.getElem?_eq_getElem (hv r.name id hid)
    rw [hmissing] at hstored
    cases hstored

theorem Chain.congr (h : s.Chain t names r) (hr : s.Ends r) {u : TypeExpr} (ht : t.isLeaf = false)
    (hu : u.isLeaf = false) (hname : u.name = t.name) : ∃ r', s.Chain u names r' ∧ s.Ends r' := by
  cases h with
  | nil => exact ⟨u, .nil u, .inr (hname ▸ hr.synonym?_eq ht)⟩
  | cons _ hsyn hc => exact ⟨r, hname ▸ .cons hu (hname ▸ hsyn) hc, hr⟩

/-- Going from head to head uses up a chain that has an end. -/
theorem Chain.shorter_of_transGen (h : s.Chain (.named a) names r) (hr : s.Ends r)
    (hab : Relation.TransGen s.HeadRefersTo a b) : ∃ rest r', s.Chain (.named b) rest r' ∧
      s.Ends r' ∧ rest.length < names.length := by
  have hstep {b c names r} (h : s.Chain (.named b) names r) (hr : s.Ends r)
      (hbc : s.HeadRefersTo b c) : ∃ rest r', s.Chain (.named c) rest r' ∧ s.Ends r' ∧
        rest.length < names.length := by
    obtain ⟨target, htarget, hleaf, rfl⟩ := hbc
    cases h with
    | nil =>
      rw [show s.synonym? b = none from hr.synonym?_eq rfl] at htarget
      cases htarget
    | @cons _ target' _ rest _ hsyn hc =>
      obtain rfl : target' = target := Option.some.inj (hsyn.symm.trans htarget)
      obtain ⟨r', hc', hr'⟩ := hc.congr hr hleaf (u := .named target'.name) rfl rfl
      exact ⟨rest, r', hc', hr', Nat.lt_succ_self _⟩
  induction hab with
  | single hab => exact hstep h hr hab
  | tail _ hbc ih =>
    obtain ⟨rest, r', hc, hr', hlt⟩ := ih
    obtain ⟨rest', r'', hc', hr'', hlt'⟩ := hstep hc hr' hbc
    exact ⟨rest', r'', hc', hr'', Nat.lt_trans hlt' hlt⟩

theorem headAcyclic_iff : s.HeadAcyclic ↔
    ∀ t name, s.followSynonyms t ≠ .error (.circularSynonym name) := by
  constructor
  · intro hs t
    exact followSynonyms_ne_circular_iff.mpr (hs.exists_end t)
  · intro h a hcycle
    obtain ⟨names, r, hc, hr⟩ := followSynonyms_ne_circular_iff.mp (h (.named a))
    obtain ⟨rest, r', hc', hr', hlt⟩ := hc.shorter_of_transGen hr hcycle
    obtain ⟨rfl, _⟩ := hc.unique hr hc' hr'
    exact Nat.lt_irrefl _ hlt

end Session

namespace Checker

variable {c : Checker} {t : TypeExpr}

theorem apply_ne_resolution {u : Universe} {name : String} {args : List Term} {e : Error} :
    u.apply name args ≠ .error (.resolution e) := by
  rw [Universe.apply]
  intro h
  split at h
  · cases h
  · split at h
    · cases h
    · split at h <;> cases h

theorem encodeHead_eq_resolution {u : Universe} {r : TypeExpr} {e : Error}
    {params : Except CheckError (List Term)} (h : encodeHead u r params = .error (.resolution e)) :
    r.isLeaf = false ∧ params = .error (.resolution e) := by
  rw [encodeHead] at h
  split at h
  · cases h
  · rename_i hvar
    split at h
    · split at h
      · exact absurd h apply_ne_resolution
      · cases h
    · rename_i hnumeric
      refine ⟨by simp [TypeExpr.isLeaf, hvar, hnumeric], ?_⟩
      cases params with
      | error e' => exact congrArg Except.error (Except.error.inj h)
      | ok args => exact absurd h apply_ne_resolution

/-- Unless it is the constructors, what stops an encoding is a type on the way that cannot be
followed. -/
theorem exists_follow_error (hc : c.session.Acyclic) {e : Error}
    (h : c.encode t = .error (.resolution e)) : ∃ u, c.session.followSynonyms u = .error e := by
  revert h
  refine Session.levels_induction (P := fun t => c.encode t = .error (.resolution e) →
    ∃ u, c.session.followSynonyms u = .error e) hc (fun t ih h => ?_) t
  cases hf : c.session.followSynonyms t with
  | error e' =>
    rw [encode_of_error hf] at h
    exact ⟨t, hf.trans (by injection h with h; injection h with h; rw [h])⟩
  | ok r =>
    rw [encode_of_follow hc hf] at h
    obtain ⟨hr, hparams⟩ := encodeHead_eq_resolution h
    obtain ⟨before, p, after, hsplit, _, hp⟩ := mapM_eq_error.mp hparams
    exact ih r hf hr p (by simp [hsplit]) hp

/-- Following comes to an end for all types exactly if no synonym comes back to itself from head to
head, and then the number of entries in the symbol table bounds the steps. The encoding comes to
an end for all types if no synonym is defined through itself at all, and then the heights of type
and synonyms bound the levels. -/
theorem follow_and_encode_terminate (c : Checker) :
    (c.session.HeadAcyclic ↔
      ∀ t name, c.session.followSynonyms t ≠ .error (.circularSynonym name)) ∧
    (c.session.HeadAcyclic → ∀ t steps, c.session.symbols.valueOf.size < steps →
      c.session.followWithin steps t = c.session.followSynonyms t) ∧
    (c.session.Acyclic →
      (∀ t name, c.encode t ≠ .error (.resolution (.circularSynonym name))) ∧
      ∀ t steps, t.height + synonymHeight c.session ≤ steps →
        c.encodeWithin steps t = c.encode t) := by
  refine ⟨Session.headAcyclic_iff, fun hs t steps => hs.followWithin_eq t,
    fun hs => ⟨fun t name h => ?_, fun t steps hsteps => ?_⟩⟩
  · obtain ⟨u, hu⟩ := exists_follow_error hs h
    exact Session.headAcyclic_iff.mp hs.headAcyclic u name hu
  · have hle := c.session.levels_le t
    exact encodeWithin_stable hs (hle.trans hsteps) hle

def nesting : Checker where
  session := (Session.start .here).run [.declare (.synonym (.named "T")
    (.applied "Reg" [.named "T"]))]
  univ := .of Universe.builtins

theorem headAcyclic_nesting : nesting.session.HeadAcyclic := by
  apply Session.not_transGen_of_rank fun name => if name = "T" then 1 else 0
  rintro a b ⟨target, htarget, _, rfl⟩
  obtain ⟨id, hentry, _⟩ := Session.exists_entry htarget
  have hkeys : nesting.session.symbols.valueOf.entries = [("T", ⟨0⟩)] := rfl
  obtain ⟨rfl, _⟩ : a = "T" ∧ id = ⟨0⟩ := by simpa [hkeys] using hentry
  obtain rfl : .applied "Reg" [.named "T"] = target := Option.some.inj htarget
  decide

/-- The head of `T` is `Reg`, where following ends, but below it there is a `T` for ever. -/
theorem follow_and_encode_terminate_nesting :
    nesting.session.HeadAcyclic ∧
    (∀ t name, nesting.session.followSynonyms t ≠ .error (.circularSynonym name)) ∧
    nesting.session.followWithin 7 (.named "T") = .ok (.applied "Reg" [.named "T"]) ∧
    ¬ nesting.session.Acyclic ∧
    nesting.encode (.named "T") = .error (.resolution (.circularSynonym "T")) ∧
    wordy.session.Acyclic ∧
    (∀ t name, wordy.encode t ≠ .error (.resolution (.circularSynonym name))) ∧
    wordy.encodeWithin 9 (.named "Pair") = wordy.encode (.named "Pair") := by
  have hcyclic : nesting.session.RefersTo "T" "T" := ⟨_, rfl, by decide⟩
  obtain ⟨hends, hsteps, _⟩ := follow_and_encode_terminate nesting
  obtain ⟨_, _, hencode⟩ := follow_and_encode_terminate wordy
  refine ⟨headAcyclic_nesting, hends.mp headAcyclic_nesting,
    (hsteps headAcyclic_nesting _ 7 (by decide)).trans rfl, fun h => h "T" (.single hcyclic), rfl,
    acyclic_wordy, (hencode acyclic_wordy).1, (hencode acyclic_wordy).2 _ 9 (by decide)⟩

end Checker

end Bluespec
