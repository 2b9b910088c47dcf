import Bluespec.Proofs.Sorts

namespace Bluespec

namespace TypeExpr

/-- The types that are made of names applied to types, variables, and numbers of 64 bits. -/
inductive Plain : TypeExpr → Prop
  | applied (name : String) {params : List TypeExpr} (h : ∀ p ∈ params, Plain p) :
    Plain (.applied name params)
  | var (name : String) : Plain (.var name)
  | numeric {n : Nat} (h : n < Numeral.limit) : Plain (.numeric n)

variable {t : TypeExpr}

theorem Plain.named (name : String) : Plain (.named name) := .applied name nofun

theorem Plain.of_isLeaf_false (h : t.Plain) (ht : t.isLeaf = false) :
    t = .applied t.name t.params ∧ ∀ p ∈ t.params, p.Plain := by
  cases h with
  | applied name h => exact ⟨rfl, h⟩
  | var | numeric => cases ht

end TypeExpr

namespace Term

mutual

/-- The type that a term spells. The one argument that is a number is that of a numeric type. -/
def decode : Term → TypeExpr
  | const name _ => .var name
  | int n => .numeric n.toNat
  | app head args =>
    match args with
    | [int n] => .numeric n.toNat
    | _ => .applied head (decodeAll args)

def decodeAll : List Term → List TypeExpr
  | [] => []
  | t :: ts => t.decode :: decodeAll ts

end

theorem decode_app {head : String} {args : List Term} (h : ∀ a ∈ args, a.carrier = .type) :
    decode (.app head args) = .applied head (decodeAll args) := by
  rw [decode]
  rintro n rfl
  cases h (.int n) List.mem_cons_self

end Term

namespace Universe

variable {u : Universe} {t : TypeExpr} {x : Term}

theorem spell_var (u : Universe) (name : String) : u.spell (.var name) = .ok (.const name .type) :=
  u.spell_eq _

theorem spell_numeric (u : Universe) {n : Nat} (h : n < Numeral.limit) :
    u.spell (.numeric n) = u.apply "Numeric" [.int n] := by
  have hvalue : (TypeExpr.numeric n).numericValue? = some n := Numeral.read?_write h
  rw [spell_eq, Checker.encodeHead, hvalue]
  rfl

theorem spell_applied (u : Universe) (name : String) (params : List TypeExpr) :
    u.spell (.applied name params) = (u.spellAll params).bind (u.apply name) :=
  u.spell_eq _

theorem decodeAll_of_spellAll {ps : List TypeExpr} {xs : List Term}
    (hps : ∀ p ∈ ps, ∀ x, u.spell p = .ok x → x.carrier = .type ∧ x.decode = p)
    (h : u.spellAll ps = .ok xs) :
    (∀ x ∈ xs, x.carrier = .type) ∧ Term.decodeAll xs = ps := by
  rw [spellAll_eq, mapM_eq_ok] at h
  induction h with
  | nil => exact ⟨nofun, rfl⟩
  | cons hp _ ih =>
    obtain ⟨hfirst, hrest⟩ := List.forall_mem_cons.mp hps
    obtain ⟨hcarrier, hdecode⟩ := hfirst _ hp
    obtain ⟨hcarriers, hdecodes⟩ := ih hrest
    exact ⟨List.forall_mem_cons.mpr ⟨hcarrier, hcarriers⟩,
      by rw [Term.decodeAll, hdecode, hdecodes]⟩

theorem decode_of_spell (ht : t.Plain) (h : u.spell t = .ok x) :
    x.carrier = .type ∧ x.decode = t := by
  induction ht generalizing x with
  | var name =>
    rw [spell_var] at h
    obtain rfl := Except.ok.inj h
    exact ⟨rfl, rfl⟩
  | numeric hn =>
    rw [spell_numeric u hn] at h
    obtain ⟨_, _, _, rfl⟩ := apply_eq_ok.mp h
    exact ⟨rfl, rfl⟩
  | @applied name params _ ih =>
    rw [spell_applied] at h
    cases hargs : u.spellAll params with
    | error e =>
      rw [hargs] at h
      cases h
    | ok args =>
      rw [hargs] at h
      obtain ⟨_, _, _, rfl⟩ := apply_eq_ok.mp h
      obtain ⟨hcarriers, hdecode⟩ := decodeAll_of_spellAll (fun p hp x => ih p hp) hargs
      exact ⟨rfl, by rw [Term.decode_app hcarriers, hdecode]⟩

end Universe

namespace Session

variable {s : Session} {t r : TypeExpr}

def PlainSynonyms (s : Session) : Prop :=
  ∀ name target, s.synonym? name = some target → target.Plain

theorem PlainSynonyms.of_followWithin (hs : s.PlainSynonyms) {steps : Nat}
    (h : s.followWithin steps t = .ok r) (ht : t.Plain) : r.Plain := by
  induction steps generalizing t with
  | zero => cases h
  | succ steps ih =>
    rw [followWithin_succ] at h
    split at h
    · exact Except.ok.inj h ▸ ht
    · cases hsyn : s.synonym? t.name with
      | some target =>
        rw [hsyn] at h
        exact ih h (hs t.name target hsyn)
      | none =>
        rw [hsyn] at h
        exact (stopAt_eq_ok h).1 ▸ ht

theorem plainSynonyms_of_entries (h : ∀ e ∈ s.symbols.valueOf.entries,
    ∀ target, s.synonym? e.1 = some target → target.Plain) : s.PlainSynonyms := by
  intro name target htarget
  obtain ⟨id, hentry, _⟩ := exists_entry htarget
  exact h (name, id) hentry target htarget

theorem Expands.follow_of_leaf {u : TypeExpr} (h : s.Expands t u) (hu : u.isLeaf = true) :
    s.followSynonyms t = .ok u := by
  cases h with
  | leaf h _ => exact h
  | @node _ r params _ hr _ =>
    have hsame : TypeExpr.isLeaf { r with params } = r.isLeaf := rfl
    rw [hsame, hr] at hu
    cases hu

mutual

theorem Expands.plain (hs : s.PlainSynonyms) {t u : TypeExpr} :
    s.Expands t u → t.Plain → u.Plain
  | .leaf h _, ht => hs.of_followWithin h ht
  | @Expands.node _ _ r params h hr hp, ht => by
    obtain ⟨hrebuilt, hparams⟩ := (hs.of_followWithin h ht).of_isLeaf_false hr
    have hu : ({ r with params } : TypeExpr) = .applied r.name params := by
      rw [hrebuilt]
      rfl
    rw [hu]
    exact .applied r.name (hp.plain hs hparams)

theorem ExpandsAll.plain (hs : s.PlainSynonyms) {ps qs : List TypeExpr} :
    s.ExpandsAll ps qs → (∀ p ∈ ps, p.Plain) → ∀ q ∈ qs, q.Plain
  | .nil, _ => nofun
  | .cons h hrest, hps => List.forall_mem_cons.mpr ⟨h.plain hs (hps _ List.mem_cons_self),
    hrest.plain hs fun p hp => hps p (List.mem_cons_of_mem _ hp)⟩

end

end Session

namespace Checker

variable {c : Checker} {t : TypeExpr} {x : Term}

theorem expands_iff_decode (hs : c.session.PlainSynonyms) (ht : t.Plain) (h : c.encode t = .ok x)
    (v : TypeExpr) : c.session.Expands t v ↔ v = x.decode := by
  obtain ⟨u, hu, hspell⟩ := exists_spelling h
  obtain ⟨_, rfl⟩ := Universe.decode_of_spell (hu.plain hs ht) hspell
  exact ⟨fun hv => hv.unique hu, fun hv => hv ▸ hu⟩

theorem spell_of_encode {u : TypeExpr} (hu : c.session.Expands t u) (h : c.encode t = .ok x) :
    c.univ.spell u = .ok x := by
  obtain ⟨v, hv, hspell⟩ := exists_spelling h
  rw [hu.unique hv]
  exact hspell

theorem encode_var (c : Checker) (name : String) :
    c.encode (.var name) = .ok (.const name .type) := by
  have hstops : c.session.Stops (.var name) := .inl rfl
  rw [encode_leaf hstops.followSynonyms_self rfl, Universe.spell_var]

theorem encode_numeric (hc : c.univ.Standard) {n : Nat} (hn : n < Numeral.limit) :
    c.encode (.numeric n) = .ok (.app "Numeric" [.int n]) := by
  have hstops : c.session.Stops (.numeric n) := .inl rfl
  rw [encode_leaf hstops.followSynonyms_self rfl, Universe.spell_numeric _ hn, hc.apply_numeric]

/-- As long as synonyms stand for types that can be written, types with one term have one and the
same expansion. In particular a type has the term of a variable only if it stands for that variable,
and different numbers have different terms. -/
theorem expansion_of_term (hs : c.session.PlainSynonyms) :
    (∀ t₁ t₂ x, t₁.Plain → t₂.Plain → c.encode t₁ = .ok x → c.encode t₂ = .ok x →
      ∃ u, ∀ v, (c.session.Expands t₁ v ↔ v = u) ∧ (c.session.Expands t₂ v ↔ v = u)) ∧
    (∀ name t u, t.Plain → c.session.Expands t u →
      (c.encode t = c.encode (.var name) ↔ u = .var name)) ∧
    (c.Reachable → ∀ m n, m < Numeral.limit → n < Numeral.limit → m ≠ n →
      ∃ x y, c.encode (.numeric m) = .ok x ∧ c.encode (.numeric n) = .ok y ∧ x ≠ y) := by
  refine ⟨fun t₁ t₂ x h₁ h₂ he₁ he₂ => ?_, fun name t u ht hu => ?_, fun hc m n hm hn hne => ?_⟩
  · exact ⟨x.decode, fun v => ⟨expands_iff_decode hs h₁ he₁ v, expands_iff_decode hs h₂ he₂ v⟩⟩
  · rw [encode_var]
    constructor
    · intro he
      exact (Universe.decode_of_spell (hu.plain hs ht) (spell_of_encode hu he)).2.symm
    · rintro rfl
      rw [encode_leaf (hu.follow_of_leaf rfl) rfl, Universe.spell_var]
  · refine ⟨_, _, encode_numeric hc.standard hm, encode_numeric hc.standard hn, fun heq => hne ?_⟩
    simpa [Int.natCast_inj] using heq

theorem reachable_wordy : wordy.Reachable :=
  ⟨wordy.session, wordy, [], ⟨.here, _, rfl⟩, rfl, rfl⟩

theorem plainSynonyms_wordy : wordy.session.PlainSynonyms := by
  have hbit : TypeExpr.Plain (.sized "Bit" 32) :=
    .applied "Bit" (List.forall_mem_singleton.mpr (.numeric (by decide)))
  have hpair : TypeExpr.Plain (.applied "Vector" [.numeric 2, .named "Word"]) :=
    .applied "Vector" (List.forall_mem_cons.mpr
      ⟨.numeric (by decide), List.forall_mem_singleton.mpr (.named "Word")⟩)
  apply Session.plainSynonyms_of_entries
  refine List.forall_mem_cons.mpr ⟨?_, List.forall_mem_singleton.mpr ?_⟩
  · intro target h
    exact Option.some.inj h ▸ hpair
  · intro target h
    exact Option.some.inj h ▸ hbit

/-- `Word` and `Bit#(32)` have one term, since the one stands for the other. A variable called
`Word` has another one, and the numbers 32 and 16 differ as well. -/
theorem expansion_of_term_wordy :
    let bit : TypeExpr := .sized "Bit" 32
    wordy.session.PlainSynonyms ∧ wordy.Reachable ∧
      wordy.encode (.named "Word") = .ok (.app "Bit" [.app "Numeric" [.int 32]]) ∧
      wordy.encode bit = .ok (.app "Bit" [.app "Numeric" [.int 32]]) ∧
      (∃ u, ∀ v, (wordy.session.Expands (.named "Word") v ↔ v = u) ∧
        (wordy.session.Expands bit v ↔ v = u)) ∧
      wordy.encode (.named "Word") ≠ wordy.encode (.var "Word") ∧
      ∃ x y, wordy.encode (.numeric 32) = .ok x ∧ wordy.encode (.numeric 16) = .ok y ∧ x ≠ y := by
  intro bit
  have hplain : bit.Plain := .applied "Bit" (List.forall_mem_singleton.mpr (.numeric (by decide)))
  have hword : wordy.session.Expands (.named "Word") bit :=
    .node (r := bit) rfl rfl (.cons (.leaf rfl rfl) .nil)
  obtain ⟨hsame, hvar, hnumbers⟩ := expansion_of_term plainSynonyms_wordy
  refine ⟨plainSynonyms_wordy, reachable_wordy, rfl, rfl,
    hsame _ _ _ (.named "Word") hplain rfl rfl, fun heq => ?_,
    hnumbers reachable_wordy 32 16 (by decide) (by decide) (by decide)⟩
  cases congrArg TypeExpr.isVar ((hvar "Word" _ bit (.named "Word") hword).mp heq)

end Checker

end Bluespec
