import Bluespec.Proofs.Runs
import Bluespec.Proofs.Synonyms
import Bluespec.Proofs.Universe

namespace Bluespec

section Mapping

variable {α β ε : Type} {f : α → Except ε β} {xs : List α}

theorem bind_eq_ok {e : Except ε α} {y : β} :
    e >>= f = .ok y ↔ ∃ x, e = .ok x ∧ f x = .ok y := by
  cases e <;> simp [bind, Except.bind]

theorem mapM_eq_ok {ys : List β} :
    xs.mapM f = .ok ys ↔ List.Forall₂ (fun x y => f x = .ok y) xs ys := by
  induction xs generalizing ys with
  | nil =>
    rw [List.mapM_nil, List.forall₂_nil_left_iff]
    exact ⟨fun h => (Except.ok.inj h).symm, fun h => h ▸ rfl⟩
  | cons x xs ih =>
    simp only [List.mapM_cons, bind_eq_ok, ih, List.forall₂_cons_left_iff]
    constructor
    · rintro ⟨y, hy, rest, hrest, h⟩
      exact ⟨y, rest, hy, hrest, (Except.ok.inj h).symm⟩
    · rintro ⟨y, rest, hy, hrest, rfl⟩
      exact ⟨y, hy, rest, hrest, rfl⟩

theorem forall_mem_of_mapM {ys : List β} {P : β → Prop} (h : xs.mapM f = .ok ys)
    (hf : ∀ x y, f x = .ok y → P y) : ∀ y ∈ ys, P y := by
  rw [mapM_eq_ok] at h
  induction h with
  | nil => exact List.forall_mem_nil P
  | cons hx _ ih => exact List.forall_mem_cons.mpr ⟨hf _ _ hx, ih⟩

theorem mapM_eq_error {e : ε} : xs.mapM f = .error e ↔
    ∃ before x after, xs = before ++ x :: after ∧ (∀ b ∈ before, ∃ y, f b = .ok y) ∧
      f x = .error e := by
  induction xs with
  | nil => simp [pure, Except.pure]
  | cons x xs ih =>
    rw [List.mapM_cons]
    constructor
    · intro h
      cases hx : f x with
      | error e' =>
        rw [hx] at h
        obtain rfl : e' = e := Except.error.inj h
        exact ⟨[], x, xs, rfl, nofun, hx⟩
      | ok y =>
        rw [hx] at h
        cases hxs : xs.mapM f with
        | ok ys =>
          rw [hxs] at h
          cases h
        | error e' =>
          rw [hxs] at h
          obtain rfl : e' = e := Except.error.inj h
          obtain ⟨before, x', after, rfl, hbefore, hx'⟩ := ih.mp hxs
          exact ⟨x :: before, x', after, rfl, List.forall_mem_cons.mpr ⟨⟨y, hx⟩, hbefore⟩, hx'⟩
    · rintro ⟨before, x', after, heq, hbefore, hx'⟩
      cases before with
      | nil =>
        obtain ⟨rfl, -⟩ := List.cons.inj heq
        rw [hx']
        rfl
      | cons b before =>
        obtain ⟨rfl, rfl⟩ := List.cons.inj heq
        obtain ⟨⟨y, hy⟩, hrest⟩ := List.forall_mem_cons.mp hbefore
        rw [hy, ih.mpr ⟨before, x', after, rfl, hrest, hx'⟩]
        rfl

end Mapping

namespace Universe

mutual

def spell (u : Universe) : TypeExpr → Except CheckError Term
  | ⟨name, params, isVar, isNumeric⟩ =>
    if isVar then .ok (.const name .type)
    else if isNumeric then
      match Numeral.read? name with
      | some n => u.apply "Numeric" [.int n]
      | none => .ok (.const name .type)
    else do u.apply name (← u.spellAll params)

def spellAll (u : Universe) : List TypeExpr → Except CheckError (List Term)
  | [] => .ok []
  | p :: ps => do return (← u.spell p) :: (← u.spellAll ps)

end

theorem spellAll_eq (u : Universe) (ps : List TypeExpr) : u.spellAll ps = ps.mapM u.spell := by
  induction ps with
  | nil => rfl
  | cons p ps ih => rw [spellAll, List.mapM_cons, ih]

theorem spell_eq (u : Universe) (t : TypeExpr) :
    u.spell t = Checker.encodeHead u t (u.spellAll t.params) := by
  obtain ⟨name, params, isVar, isNumeric⟩ := t
  rw [spell, Checker.encodeHead]
  cases isVar with
  | true => rfl
  | false => cases isNumeric <;> rfl

end Universe

namespace Session

variable {s : Session} {t u v : TypeExpr}

mutual

/-- The head of a type is followed to its end, and then all parameters of what it stands for are
expanded. -/
inductive Expands (s : Session) : TypeExpr → TypeExpr → Prop
  | leaf {t r : TypeExpr} (h : s.followSynonyms t = .ok r) (hr : r.isLeaf = true) : Expands s t r
  | node {t r : TypeExpr} {params : List TypeExpr} (h : s.followSynonyms t = .ok r)
      (hr : r.isLeaf = false) (hp : ExpandsAll s r.params params) : Expands s t { r with params }

inductive ExpandsAll (s : Session) : List TypeExpr → List TypeExpr → Prop
  | nil : ExpandsAll s [] []
  | cons {p q : TypeExpr} {ps qs : List TypeExpr} (h : Expands s p q) (hs : ExpandsAll s ps qs) :
    ExpandsAll s (p :: ps) (q :: qs)

end

mutual

theorem Expands.again {t u : TypeExpr} : s.Expands t u → s.Expands u u
  | .leaf h hr => .leaf (stops_of_followWithin h).followSynonyms_self hr
  | @Expands.node _ _ r params h hr hp =>
    .node (r := { r with params }) ((stops_of_followWithin h).followSynonyms_eq params) hr hp.again

theorem ExpandsAll.again {ps qs : List TypeExpr} : s.ExpandsAll ps qs → s.ExpandsAll qs qs
  | .nil => .nil
  | .cons h hs => .cons h.again hs.again

end

mutual

theorem Expands.unique {t u v : TypeExpr} : s.Expands t u → s.Expands t v → u = v
  | .leaf h hr, hv => by
    cases hv with
    | leaf h' _ => exact Except.ok.inj (h.symm.trans h')
    | node h' hr' _ =>
      obtain rfl := Except.ok.inj (h.symm.trans h')
      exact absurd hr (Bool.eq_false_iff.mp hr')
  | .node h hr hp, hv => by
    cases hv with
    | leaf h' hr' =>
      obtain rfl := Except.ok.inj (h.symm.trans h')
      exact absurd hr' (Bool.eq_false_iff.mp hr)
    | node h' _ hp' =>
      obtain rfl := Except.ok.inj (h.symm.trans h')
      rw [hp.unique hp']

theorem ExpandsAll.unique {ps qs rs : List TypeExpr} :
    s.ExpandsAll ps qs → s.ExpandsAll ps rs → qs = rs
  | .nil, .nil => rfl
  | .cons h hs, .cons h' hs' => by rw [h.unique h', hs.unique hs']

end

/-- `u` is `t` with a type replaced by the one it stands for, somewhere on the way down through
the types that heads stand for. -/
inductive Replaces (s : Session) : TypeExpr → TypeExpr → Prop
  | here {t r : TypeExpr} (h : s.followSynonyms t = .ok r) : Replaces s t r
  | inside {t r p q : TypeExpr} {before after : List TypeExpr} (h : s.followSynonyms t = .ok r)
      (hr : r.isLeaf = false) (hp : r.params = before ++ p :: after) (hpq : Replaces s p q) :
    Replaces s t { r with params := before ++ q :: after }

def NoSynonyms (s : Session) : Prop :=
  ∀ name id, s.symbols.value? name = some id →
    ∃ d, s.arena.get? id = some d ∧ d.kind.isSynonym = false

theorem NoSynonyms.synonym?_eq (hs : s.NoSynonyms) (name : String) : s.synonym? name = none := by
  rw [synonym?]
  cases hv : s.symbols.value? name with
  | none => rfl
  | some id =>
    obtain ⟨d, hd, hk⟩ := hs name id hv
    simp only [hd]
    cases hkind : d.kind <;> simp_all [Kind.isSynonym, Kind.defined?]

theorem NoSynonyms.stops (hs : s.NoSynonyms) (t : TypeExpr) : s.Stops t := by
  refine .inr ⟨hs.synonym?_eq t.name, fun params => ?_⟩
  rw [stopAt]
  cases hv : s.symbols.value? t.name with
  | none => rfl
  | some id =>
    obtain ⟨d, hd, hk⟩ := hs t.name id hv
    simp only [Arena.get, hd]
    cases hkind : d.kind <;> simp_all [Kind.isSynonym, Kind.defined?]

theorem NoSynonyms.acyclic (hs : s.NoSynonyms) : s.Acyclic := by
  apply acyclic_of_rank fun _ => 0
  rintro a b ⟨target, htarget, _⟩
  rw [hs.synonym?_eq a] at htarget
  cases htarget

mutual

theorem NoSynonyms.expands (hs : s.NoSynonyms) : (t : TypeExpr) → s.Expands t t
  | ⟨name, params, isVar, isNumeric⟩ => by
    have h := (hs.stops ⟨name, params, isVar, isNumeric⟩).followSynonyms_self
    cases hleaf : TypeExpr.isLeaf ⟨name, params, isVar, isNumeric⟩ with
    | true => exact .leaf h hleaf
    | false => exact .node h hleaf (hs.expandsAll params)

theorem NoSynonyms.expandsAll (hs : s.NoSynonyms) : (ps : List TypeExpr) → s.ExpandsAll ps ps
  | [] => .nil
  | p :: ps => .cons (hs.expands p) (hs.expandsAll ps)

end

end Session

namespace Checker

variable {c : Checker} {t u r : TypeExpr} {x : Term}

theorem encodeHead_leaf (univ : Universe) (hr : r.isLeaf = true)
    (xs ys : Except CheckError (List Term)) : encodeHead univ r xs = encodeHead univ r ys := by
  rw [encodeHead, encodeHead]
  rw [TypeExpr.isLeaf] at hr
  cases hvar : r.isVar with
  | true => rfl
  | false =>
    rw [hvar, Bool.false_or] at hr
    simp only [hr]
    rfl

theorem encodeHead_node (univ : Universe) (hr : r.isLeaf = false)
    (xs : Except CheckError (List Term)) : encodeHead univ r xs = xs.bind (univ.apply r.name) := by
  obtain ⟨hvar, hnumeric⟩ : r.isVar = false ∧ r.isNumeric = false := by
    simpa [TypeExpr.isLeaf] using hr
  rw [encodeHead, hvar, hnumeric]
  rfl

theorem mapM_congr {f g : TypeExpr → Except CheckError Term} {ps : List TypeExpr}
    (h : ∀ p ∈ ps, f p = g p) : ps.mapM f = ps.mapM g := by
  induction ps with
  | nil => rfl
  | cons p ps ih =>
    rw [List.mapM_cons, List.mapM_cons, h p List.mem_cons_self,
      ih fun q hq => h q (List.mem_cons_of_mem _ hq)]

theorem encodeWithin_of_follow {steps : Nat} (h : c.session.followSynonyms t = .ok r) :
    c.encodeWithin (steps + 1) t =
      encodeHead c.univ r (r.params.mapM (c.encodeWithin steps)) := by
  rw [encodeWithin, followSynonyms, h]
  rfl

theorem encodeWithin_of_error {steps : Nat} {e : Error}
    (h : c.session.followSynonyms t = .error e) :
    c.encodeWithin (steps + 1) t = .error (.resolution e) := by
  rw [encodeWithin, followSynonyms, h]
  rfl

theorem encodeWithin_stable (hc : c.session.Acyclic) {m n : Nat} (hm : c.session.levels t ≤ m)
    (hn : c.session.levels t ≤ n) : c.encodeWithin m t = c.encodeWithin n t := by
  have hpos : 0 < c.session.levels t := by
    rw [Session.levels, t.height_eq]
    omega
  induction m generalizing t n with
  | zero => omega
  | succ m ih =>
    obtain ⟨n, rfl⟩ : ∃ k, n = k + 1 := ⟨n - 1, by omega⟩
    cases h : c.session.followSynonyms t with
    | error e => rw [encodeWithin_of_error h, encodeWithin_of_error h]
    | ok r =>
      rw [encodeWithin_of_follow h, encodeWithin_of_follow h]
      cases hr : r.isLeaf with
      | true => exact encodeHead_leaf c.univ hr _ _
      | false =>
        have hle := Session.levels_of_followWithin hc h
        rw [mapM_congr fun p hp => ?_]
        have hlt := Session.levels_param (s := c.session) hr hp
        exact ih (by omega) (by omega) (by rw [Session.levels, p.height_eq]; omega)

theorem encode_of_follow (hc : c.session.Acyclic) (h : c.session.followSynonyms t = .ok r) :
    c.encode t = encodeHead c.univ r (r.params.mapM c.encode) := by
  have hle := c.session.levels_le t
  have hmore : c.encode t = c.encodeWithin (t.height + synonymHeight c.session + 1) t :=
    encodeWithin_stable hc hle (Nat.le_succ_of_le hle)
  rw [hmore, encodeWithin_of_follow h]
  cases hr : r.isLeaf with
  | true => exact encodeHead_leaf c.univ hr _ _
  | false =>
    have hfollow := Session.levels_of_followWithin hc h
    rw [mapM_congr fun p hp => ?_]
    have hlt := Session.levels_param (s := c.session) hr hp
    exact encodeWithin_stable hc (by omega) (c.session.levels_le p)

theorem encode_node (hs : c.session.Acyclic) (h : c.session.followSynonyms t = .ok r)
    (hr : r.isLeaf = false) :
    c.encode t = (r.params.mapM c.encode).bind (c.univ.apply r.name) := by
  rw [encode_of_follow hs h, encodeHead_node c.univ hr]

theorem encode_eq_succ (c : Checker) (t : TypeExpr) :
    ∃ steps, c.encode t = c.encodeWithin (steps + 1) t := by
  rw [encode, t.height_eq, Nat.add_right_comm]
  exact ⟨_, rfl⟩

theorem encode_of_error {e : Error} (h : c.session.followSynonyms t = .error e) :
    c.encode t = .error (.resolution e) := by
  obtain ⟨steps, heq⟩ := encode_eq_succ c t
  rw [heq, encodeWithin_of_error h]

theorem encode_leaf (h : c.session.followSynonyms t = .ok r) (hr : r.isLeaf = true) :
    c.encode t = c.univ.spell r := by
  obtain ⟨steps, heq⟩ := encode_eq_succ c t
  rw [heq, encodeWithin_of_follow h, Universe.spell_eq]
  exact encodeHead_leaf c.univ hr _ _

mutual

theorem encode_of_expands (hc : c.session.Acyclic) {t u : TypeExpr} :
    c.session.Expands t u → c.encode t = c.univ.spell u
  | .leaf h hr => encode_leaf h hr
  | .node h hr hp => by
    rw [encode_of_follow hc h, Universe.spell_eq, encodeAll_of_expands hc hp]
    rfl

theorem encodeAll_of_expands (hc : c.session.Acyclic) {ps qs : List TypeExpr} :
    c.session.ExpandsAll ps qs → ps.mapM c.encode = c.univ.spellAll qs
  | .nil => rfl
  | .cons h hs => by
    rw [List.mapM_cons, encode_of_expands hc h, encodeAll_of_expands hc hs, Universe.spellAll]

end

theorem exists_spellings {s : Session} {univ : Universe} {f : TypeExpr → Except CheckError Term}
    {ps : List TypeExpr} {xs : List Term}
    (hf : ∀ p y, f p = .ok y → ∃ q, s.Expands p q ∧ univ.spell q = .ok y)
    (h : ps.mapM f = .ok xs) : ∃ qs, s.ExpandsAll ps qs ∧ univ.spellAll qs = .ok xs := by
  rw [mapM_eq_ok] at h
  induction h with
  | nil => exact ⟨[], .nil, rfl⟩
  | cons hp _ ih =>
    obtain ⟨q, hq, hspell⟩ := hf _ _ hp
    obtain ⟨qs, hqs, hspells⟩ := ih
    exact ⟨q :: qs, .cons hq hqs, by rw [Universe.spellAll, hspell, hspells]; rfl⟩

theorem exists_spelling {steps : Nat} (h : c.encodeWithin steps t = .ok x) :
    ∃ u, c.session.Expands t u ∧ c.univ.spell u = .ok x := by
  induction steps generalizing t x with
  | zero => cases h
  | succ steps ih =>
    cases hf : c.session.followSynonyms t with
    | error e =>
      rw [encodeWithin_of_error hf] at h
      cases h
    | ok r =>
      rw [encodeWithin_of_follow hf] at h
      cases hr : r.isLeaf with
      | true =>
        refine ⟨r, .leaf hf hr, ?_⟩
        rw [Universe.spell_eq, ← h]
        exact encodeHead_leaf c.univ hr _ _
      | false =>
        cases hp : r.params.mapM (c.encodeWithin steps) with
        | error e =>
          rw [hp, encodeHead_node c.univ hr] at h
          cases h
        | ok xs =>
          obtain ⟨params, hall, hspells⟩ := exists_spellings (fun _ _ hy => ih hy) hp
          refine ⟨_, .node hf hr hall, ?_⟩
          rw [Universe.spell_eq, hspells, ← h, hp]
          rfl

theorem exists_expands {steps : Nat} (h : c.encodeWithin steps t = .ok x) :
    ∃ u, c.session.Expands t u :=
  (exists_spelling h).imp fun _ => And.left

theorem encode_of_replaces (hc : c.session.Acyclic) (h : c.session.Replaces t u) :
    c.encode t = c.encode u := by
  induction h with
  | here h =>
    have hagain := (Session.stops_of_followWithin h).followSynonyms_self
    rw [encode_of_follow hc h, encode_of_follow hc hagain]
  | @inside t r p q before after h hr hp _ ih =>
    have hagain := (Session.stops_of_followWithin h).followSynonyms_eq (before ++ q :: after)
    rw [encode_of_follow hc h, encode_of_follow hc hagain, hp, List.mapM_append,
      List.mapM_cons, ih, List.mapM_append, List.mapM_cons]
    rfl

/-- As long as no synonym is defined through itself, a type has the term of its expansion, which
is also the term that it has where there are no synonyms. A type is expanded in one way only, and
expanding it further changes nothing. Nor does the term change with a type that is replaced by
what it stands for. -/
theorem encode_of_expansion (hc : c.session.Acyclic) :
    (∀ t u, c.session.Expands t u →
      c.encode t = c.encode u ∧ c.encode u = c.univ.spell u ∧
      (∀ s : Session, s.NoSynonyms → ({ c with session := s } : Checker).encode u = c.encode u) ∧
      c.session.Expands u u) ∧
    (∀ t u v, c.session.Expands t u → c.session.Expands t v → u = v) ∧
    (∀ t x, c.encode t = .ok x → ∃ u, c.session.Expands t u) ∧
    ∀ t u, c.session.Replaces t u → c.encode t = c.encode u := by
  refine ⟨fun t u h => ?_, fun t u v h h' => h.unique h', fun t x h => exists_expands h,
    fun t u h => encode_of_replaces hc h⟩
  have hu : c.encode u = c.univ.spell u := encode_of_expands hc h.again
  refine ⟨(encode_of_expands hc h).trans hu.symm, hu, fun s hs => ?_, h.again⟩
  rw [hu]
  exact encode_of_expands (c := { c with session := s }) hs.acyclic (hs.expands u)

/-- A checker that knows `Word` as `Bit#(32)` and `Pair` as `Vector#(2, Word)`. -/
def wordy : Checker where
  session := (Session.start .here).run [.declare (.synonym (.named "Word") (.sized "Bit" 32)),
    .declare (.synonym (.named "Pair") (.applied "Vector" [.numeric 2, .named "Word"]))]
  univ := .of Universe.builtins

theorem acyclic_wordy : wordy.session.Acyclic := by
  apply Session.acyclic_of_entries fun name =>
    if name = "Pair" then 2 else if name = "Word" then 1 else 0
  decide +kernel

/-- The parameters that a synonym is applied to are not looked at. -/
theorem encode_of_expansion_wordy :
    let t : TypeExpr := .applied "Reg" [.applied "Pair" [.named "Word"]]
    let partly : TypeExpr := .applied "Reg" [.applied "Vector" [.numeric 2, .named "Word"]]
    let u : TypeExpr := .applied "Reg" [.applied "Vector" [.numeric 2, .sized "Bit" 32]]
    wordy.session.Acyclic ∧ wordy.session.Expands t u ∧ wordy.session.Replaces t partly ∧
      Session.NoSynonyms (.start .here) ∧
      wordy.encode t = wordy.encode u ∧ wordy.encode t = wordy.encode partly ∧
      ({ wordy with session := .start .here } : Checker).encode u = wordy.encode u ∧
      wordy.encode t = .ok (.app "Reg" [.app "Vector" [.app "Numeric" [.int 2],
        .app "Bit" [.app "Numeric" [.int 32]]]]) := by
  intro t partly u
  have hword : wordy.session.Expands (.named "Word") (.sized "Bit" 32) :=
    .node (r := .sized "Bit" 32) rfl rfl (.cons (.leaf rfl rfl) .nil)
  have hpair : wordy.session.Expands (.applied "Pair" [.named "Word"])
      (.applied "Vector" [.numeric 2, .sized "Bit" 32]) :=
    .node (r := .applied "Vector" [.numeric 2, .named "Word"]) rfl rfl
      (.cons (.leaf rfl rfl) (.cons hword .nil))
  have hexpands : wordy.session.Expands t u := .node (r := t) rfl rfl (.cons hpair .nil)
  have hreplaces : wordy.session.Replaces t partly :=
    @Session.Replaces.inside _ t t (.applied "Pair" [.named "Word"])
      (.applied "Vector" [.numeric 2, .named "Word"]) [] [] rfl rfl rfl (.here rfl)
  have hnone : Session.NoSynonyms (.start .here) := nofun
  obtain ⟨hencode, _, _, hsame⟩ := encode_of_expansion acyclic_wordy
  obtain ⟨heq, _, hfree, _⟩ := hencode t u hexpands
  exact ⟨acyclic_wordy, hexpands, hreplaces, hnone, heq, hsame t partly hreplaces,
    hfree _ hnone, rfl⟩

end Checker

end Bluespec
