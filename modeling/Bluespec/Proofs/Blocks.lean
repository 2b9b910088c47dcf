import Bluespec.Proofs.ScopeFrame

namespace Bluespec

namespace Scopes

variable {t u : Scopes} {base n : Nat} {outer id : ScopeId}

/-- Going out `n` scopes from a scope leads to `outer`, and those on the way lie at `base` or after
it. -/
inductive Inside (t : Scopes) (base : Nat) (outer : ScopeId) : ScopeId → Nat → Prop
  | here : Inside t base outer outer 0
  | inner {id next : ScopeId} {scope : Scope} {n : Nat} (hid : t.get? id = some scope)
      (hbase : base ≤ id.index) (hp : scope.parent = some next) (h : Inside t base outer next n) :
    Inside t base outer id (n + 1)

def KeepsParents (t u : Scopes) : Prop :=
  ∀ id scope, t.get? id = some scope → ∃ scope', u.get? id = some scope' ∧
    scope'.parent = scope.parent

theorem KeepsParents.refl (t : Scopes) : KeepsParents t t := fun _ scope h => ⟨scope, h, rfl⟩

theorem KeepsParents.trans {v : Scopes} (htu : KeepsParents t u) (huv : KeepsParents u v) :
    KeepsParents t v := by
  intro id scope h
  obtain ⟨scope', h', hp'⟩ := htu id scope h
  obtain ⟨scope'', h'', hp''⟩ := huv id scope' h'
  exact ⟨scope'', h'', hp''.trans hp'⟩

theorem keepsParents_push (t : Scopes) (name : String) (parent : Option ScopeId) :
    KeepsParents t (t.push name parent).2 := by
  intro id scope h
  exact ⟨scope, by rw [get?_push, if_neg (Nat.ne_of_lt (index_lt_size h)), h], rfl⟩

theorem keepsParents_modify (t : Scopes) (id : ScopeId) {f : Scope → Scope}
    (hf : ∀ scope, (f scope).parent = scope.parent) : KeepsParents t (t.modify id f) := by
  intro key scope h
  rw [get?_modify, h]
  split
  · exact ⟨f scope, rfl, hf scope⟩
  · exact ⟨scope, rfl, rfl⟩

theorem keepsParents_merge {target source : ScopeId} {policy : Policy}
    (h : t.merge target source policy = (.ok (), u)) : KeepsParents t u := by
  obtain ⟨incoming, receiving, _, hr, _, rfl⟩ := merge_eq_ok h
  intro key scope hk
  by_cases hkey : key = target
  · subst key
    obtain rfl := Option.some.inj (hr.symm.trans hk)
    exact ⟨_, get?_set_self (index_lt_size hr) _, receiving.parent_absorb incoming⟩
  · exact ⟨scope, (get?_set_of_ne t hkey _).trans hk, rfl⟩

theorem Inside.mono (h : t.Inside base outer id n) (hu : KeepsParents t u) :
    u.Inside base outer id n := by
  induction h with
  | here => exact .here
  | inner hid hbase hp _ ih =>
    obtain ⟨scope', hid', hp'⟩ := hu _ _ hid
    exact .inner hid' hbase (hp'.trans hp) ih

theorem Inside.eq_outer (h : t.Inside base outer id 0) : id = outer := by
  cases h
  rfl

theorem Inside.base_le (h : t.Inside base outer id (n + 1)) : base ≤ id.index := by
  cases h with
  | inner _ hbase _ _ => exact hbase

theorem lookupWithin_of_get? {scope : Scope} (h : t.get? id = some scope) (name : String)
    (steps : Nat) : t.lookupWithin name (steps + 1) id =
      match scope.lookup name, scope.parent with
      | some decl, _ => .ok (some decl)
      | none, some parent => t.lookupWithin name steps parent
      | none, none => .ok none := by
  rw [lookupWithin, get, h]
  rfl

/-- Going out from a scope comes to an end, since the index falls at each step. What is found does
not depend on scopes that were added, nor on the number of steps allowed. -/
theorem Sound.lookupWithin_eq (ht : t.Sound) (name : String) (id : ScopeId)
    (hid : id.index < t.size) : ∃ found, ∀ u : Scopes,
      (∀ key, key.index < t.size → u.get? key = t.get? key) → ∀ steps, id.index < steps →
        u.lookupWithin name steps id = .ok found := by
  induction hi : id.index using Nat.strongRecOn generalizing id with
  | ind i ih =>
    subst hi
    obtain ⟨scope, hscope⟩ := exists_get? hid
    have hstep : ∀ u : Scopes, (∀ key, key.index < t.size → u.get? key = t.get? key) →
        u.get? id = some scope := fun u hu => (hu id hid).trans hscope
    cases hlookup : scope.lookup name with
    | some decl =>
      -- `u` may have more scopes than `t`, and lookup then allows it more steps
      refine ⟨some decl, fun u hu steps hsteps => ?_⟩
      obtain ⟨k, rfl⟩ := Nat.exists_eq_succ_of_ne_zero (Nat.ne_zero_of_lt hsteps)
      rw [lookupWithin_of_get? (hstep u hu), hlookup]
    | none =>
      cases hparent : scope.parent with
      | none =>
        refine ⟨none, fun u hu steps hsteps => ?_⟩
        obtain ⟨k, rfl⟩ := Nat.exists_eq_succ_of_ne_zero (Nat.ne_zero_of_lt hsteps)
        rw [lookupWithin_of_get? (hstep u hu), hlookup, hparent]
      | some next =>
        have hnext : next.index < id.index := (ht id scope hscope).parent next hparent
        obtain ⟨found, hfound⟩ := ih next.index hnext next (Nat.lt_trans hnext hid) rfl
        refine ⟨found, fun u hu steps hsteps => ?_⟩
        obtain ⟨k, rfl⟩ := Nat.exists_eq_succ_of_ne_zero (Nat.ne_zero_of_lt hsteps)
        rw [lookupWithin_of_get? (hstep u hu), hlookup, hparent]
        exact hfound u hu k (by omega)

theorem Sound.lookup_eq (ht : t.Sound) (hid : id.index < t.size)
    (hu : ∀ key, key.index < t.size → u.get? key = t.get? key) (name : String) :
    ∃ found, t.lookup id name = .ok found ∧ u.lookup id name = .ok found := by
  obtain ⟨found, hfound⟩ := ht.lookupWithin_eq name id hid
  obtain ⟨scope, hscope⟩ := exists_get? hid
  have hsize : id.index < u.size := index_lt_size ((hu id hid).trans hscope)
  exact ⟨found, hfound t (fun _ _ => rfl) _ (Nat.lt_succ_of_lt hid),
    hfound u hu _ (Nat.lt_succ_of_lt hsize)⟩

end Scopes

namespace Session

variable {s t : Session} {base n : Nat} {outer : ScopeId} {op : Op}

theorem Move.keepsParents (h : Move s t) : s.scopes.KeepsParents t.scopes := by
  cases h with
  | push name parent hp => exact Scopes.keepsParents_push s.scopes name parent
  | bind name decl => exact Scopes.keepsParents_modify s.scopes s.current fun _ => rfl
  | merge hm => exact Scopes.keepsParents_merge hm
  | note | store | synonym | index | functionType => exact .refl s.scopes

theorem Moves.keepsParents (h : Moves s t) : s.scopes.KeepsParents t.scopes :=
  h.preserves (P := fun u => s.scopes.KeepsParents u.scopes)
    (fun _ _ hm hu => hu.trans hm.keepsParents) (.refl s.scopes)

def Op.opens : Op → Bool
  | .openScope _ => true
  | _ => false

def Op.closes : Op → Bool
  | .closeScope => true
  | _ => false

def openings (ops : List Op) : Nat := ops.countP Op.opens

def closings (ops : List Op) : Nat := ops.countP Op.closes

theorem openings_cons (op : Op) (ops : List Op) :
    openings (op :: ops) = openings ops + if op.opens then 1 else 0 := List.countP_cons

theorem closings_cons (op : Op) (ops : List Op) :
    closings (op :: ops) = closings ops + if op.closes then 1 else 0 := List.countP_cons

def leaves (s : Session) : Op → Bool
  | .closeScope => s.closeScope.isOk
  | _ => false

theorem current_perform (ho : op.opens = false) (hc : op.closes = false) :
    (s.perform op).current = s.current := by
  cases op with
  | analyze lib package =>
    obtain ⟨_, _, h⟩ := analyzes_analyze lib s package
    exact h.current_eq
  | declare spec => exact current_declare s spec
  | addFunctionTypes => exact current_addFunctionTypes s
  | bind | indexScope => rfl
  | openScope => cases ho
  | closeScope => cases hc

theorem Valid.frames_perform (hs : s.Valid) (op : Op) : Frames s (s.perform op) := by
  cases op with
  | analyze lib package =>
    obtain ⟨_, _, h⟩ := analyzes_analyze lib s package
    exact h.frames hs
  | declare spec => exact frames_declare s spec
  | bind name decl =>
    intro id _ hne
    exact (Scopes.get?_modify _ _ _ _).trans (if_neg (Scopes.index_ne hne).symm)
  | addFunctionTypes =>
    intro id _ _
    obtain ⟨_, _, h⟩ := addFunctionTypes_eq s
    rw [Session.perform, h]
  | indexScope => exact fun _ _ _ => rfl
  | openScope name =>
    intro id hid _
    exact (Scopes.get?_push _ _ _ id).trans (if_neg (Nat.ne_of_lt hid))
  | closeScope =>
    intro id _ _
    rw [Session.perform]
    split
    · rename_i h
      obtain ⟨_, _, _, _, rfl⟩ := closeScope_eq_ok h
      rfl
    · rfl

theorem closeScope_of_inside (h : s.scopes.Inside base outer s.current (n + 1)) :
    ∃ next, s.closeScope = .ok { s with current := next } ∧
      s.scopes.Inside base outer next n := by
  cases h with
  | @inner _ next scope _ hid _ hp h =>
    refine ⟨next, ?_, h⟩
    rw [closeScope, Scopes.get, hid]
    simp only [Bind.bind, Except.bind, hp]
    rfl

theorem closeScope_of_outermost {scope : Scope} (h : s.scopes.get? s.current = some scope)
    (hp : scope.parent = none) : s.closeScope = .error .noEnclosingScope := by
  rw [closeScope, Scopes.get, h]
  simp only [Bind.bind, Except.bind, hp]
  rfl

theorem inside_openScope (h : s.scopes.Inside base outer s.current n)
    (hbase : base ≤ s.scopes.size) (name : String) :
    (s.openScope name).scopes.Inside base outer (s.openScope name).current (n + 1) :=
  .inner ((Scopes.get?_push _ _ _ _).trans (if_pos rfl)) hbase rfl
    (h.mono (Scopes.keepsParents_push _ _ _))

theorem leaves_of_inside (h : s.scopes.Inside base outer s.current (n + 1)) (op : Op) :
    s.leaves op = op.closes := by
  cases op with
  | closeScope =>
    obtain ⟨next, hclose, _⟩ := closeScope_of_inside h
    rw [leaves, hclose]
    rfl
  | analyze | declare | bind | indexScope | addFunctionTypes | openScope => rfl

theorem Valid.inside_perform (hs : s.Valid) (hbase : base ≤ s.scopes.size)
    (h : s.scopes.Inside base outer s.current n) (hn : n = 0 → s.leaves op = false) : ∃ m,
      m + (if s.leaves op then 1 else 0) = n + (if op.opens then 1 else 0) ∧
        (s.perform op).scopes.Inside base outer (s.perform op).current m := by
  cases op with
  | openScope name => exact ⟨n + 1, rfl, inside_openScope h hbase name⟩
  | closeScope =>
    cases hclose : s.closeScope with
    | error e =>
      refine ⟨n, ?_, ?_⟩
      · rw [leaves, hclose]
        rfl
      · rw [Session.perform, hclose]
        exact h
    | ok t =>
      have hleaves : s.leaves .closeScope = true := by
        rw [leaves, hclose]
        rfl
      obtain ⟨k, rfl⟩ := Nat.exists_eq_succ_of_ne_zero fun h0 =>
        Bool.false_ne_true ((hn h0).symm.trans hleaves)
      obtain ⟨next, hnext, hinside⟩ := closeScope_of_inside h
      refine ⟨k, ?_, ?_⟩
      · rw [hleaves]
        rfl
      · rw [Session.perform, hnext]
        exact hinside
  | analyze | declare | bind | indexScope | addFunctionTypes =>
    refine ⟨n, rfl, ?_⟩
    rw [current_perform rfl rfl]
    exact h.mono (hs.moves_perform _).keepsParents

/-- Where a session is while it works in scopes opened after `s`: it is `n` scopes further in, and
what `s` had is untouched. -/
structure Within (s t : Session) (n : Nat) : Prop where
  valid : t.Valid
  same : SameScopes s t
  size : s.scopes.size ≤ t.scopes.size
  inside : t.scopes.Inside s.scopes.size s.current t.current n

/-- Inside a block the current scope is a new one, so that nothing is written to the old ones. -/
theorem Within.same_perform (h : Within s t (n + 1)) (op : Op) : SameScopes s (t.perform op) := by
  intro id hid
  have hne : id ≠ t.current := by
    rintro rfl
    exact Nat.not_lt.2 h.inside.base_le hid
  rw [h.valid.frames_perform op id (Nat.lt_of_lt_of_le hid h.size) hne]
  exact h.same id hid

theorem Within.perform (h : Within s t (n + 1)) (op : Op) : ∃ m,
    m + (if op.closes then 1 else 0) = n + 1 + (if op.opens then 1 else 0) ∧
      Within s (t.perform op) m := by
  obtain ⟨m, hm, hinside⟩ := h.valid.inside_perform h.size h.inside nofun
  rw [leaves_of_inside h.inside op] at hm
  exact ⟨m, hm, h.valid.perform op, h.same_perform op,
    Nat.le_trans h.size (h.valid.moves_perform op).size_le, hinside⟩

theorem Within.run {ops : List Op} (h : Within s t (n + 1))
    (hops : ∀ front, front <+: ops → closings front ≤ n + openings front) : ∃ m,
      m + closings ops = n + 1 + openings ops ∧ Within s (t.run ops) m := by
  induction ops generalizing t n with
  | nil => exact ⟨n + 1, rfl, h⟩
  | cons op ops ih =>
    obtain ⟨m, hm, hstep⟩ := h.perform op
    -- with `op` in front a beginning of the rest is a beginning of the whole
    have hfront : ∀ front, front <+: ops → closings front + (if op.closes then 1 else 0) ≤
        n + (openings front + (if op.opens then 1 else 0)) := by
      intro front hf
      have hwhole := hops (op :: front) (List.cons_prefix_cons.2 ⟨rfl, hf⟩)
      rwa [closings_cons, openings_cons] at hwhole
    obtain ⟨k, rfl⟩ : ∃ k, m = k + 1 := by
      have hfirst : 0 + _ ≤ n + (0 + _) := hfront [] List.nil_prefix
      exact ⟨m - 1, by omega⟩
    have hrest : ∀ front, front <+: ops → closings front ≤ k + openings front := by
      intro front hf
      have hwhole := hfront front hf
      omega
    obtain ⟨m', hm', hrun⟩ := ih hstep hrest
    refine ⟨m', ?_, hrun⟩
    rw [closings_cons, openings_cons]
    omega

theorem Within.unwind (h : Within s t n) :
    Within s (t.run (List.replicate n .closeScope)) 0 := by
  induction n generalizing t with
  | zero => exact h
  | succ n ih =>
    obtain ⟨m, hm, hstep⟩ := h.perform .closeScope
    obtain rfl : m = n := Nat.succ.inj hm
    exact ih hstep

/-- A scope is opened, operations follow, and all scopes that are still open are closed, the one of
the block last. -/
def block (name : String) (ops : List Op) : List Op :=
  .openScope name :: (ops ++ List.replicate (openings ops - closings ops + 1) .closeScope)

theorem Valid.within_block {ops : List Op} (hs : s.Valid) (name : String)
    (hops : ∀ front, front <+: ops → closings front ≤ openings front) :
    Within s (s.run (block name ops)) 0 := by
  have hopen : Within s (s.openScope name) 1 := by
    refine ⟨hs.perform (.openScope name), ?_, (hs.moves_perform (.openScope name)).size_le,
      inside_openScope .here (Nat.le_refl _) name⟩
    intro id hid
    exact (Scopes.get?_push _ _ _ id).trans (if_neg (Nat.ne_of_lt hid))
  obtain ⟨m, hm, hrun⟩ := hopen.run (by simpa using hops)
  obtain rfl : m = openings ops - closings ops + 1 := by
    have := hops ops List.prefix_rfl
    omega
  have hblock : s.run (block name ops) = ((s.openScope name).run ops).run
      (List.replicate (openings ops - closings ops + 1) .closeScope) := List.foldl_append
  rw [hblock]
  exact hrun.unwind

def left (s : Session) : List Op → Nat
  | [] => 0
  | op :: ops => (if s.leaves op then 1 else 0) + (s.perform op).left ops

structure Deep (s : Session) (n : Nat) : Prop where
  valid : s.Valid
  inside : s.scopes.Inside 0 ⟨0⟩ s.current n
  outermost : ∃ scope, s.scopes.get? ⟨0⟩ = some scope ∧ scope.parent = none

theorem Deep.closeScope_eq_error (h : s.Deep 0) : s.closeScope = .error .noEnclosingScope := by
  obtain ⟨scope, hscope, hp⟩ := h.outermost
  have hcurrent : s.scopes.get? s.current = some scope := h.inside.eq_outer ▸ hscope
  exact closeScope_of_outermost hcurrent hp

theorem Deep.leaves_eq_false (h : s.Deep 0) (op : Op) : s.leaves op = false := by
  cases op with
  | closeScope =>
    rw [leaves, h.closeScope_eq_error]
    rfl
  | analyze | declare | bind | indexScope | addFunctionTypes | openScope => rfl

theorem Deep.perform (h : s.Deep n) (op : Op) : ∃ m,
    m + (if s.leaves op then 1 else 0) = n + (if op.opens then 1 else 0) ∧
      (s.perform op).Deep m := by
  obtain ⟨m, hm, hinside⟩ := h.valid.inside_perform (Nat.zero_le _) h.inside
    fun hn => Deep.leaves_eq_false (hn ▸ h) op
  obtain ⟨scope, hscope, hp⟩ := h.outermost
  obtain ⟨scope', hscope', hp'⟩ := (h.valid.moves_perform op).keepsParents _ _ hscope
  exact ⟨m, hm, h.valid.perform op, hinside, scope', hscope', hp'.trans hp⟩

theorem Deep.run (h : s.Deep n) (ops : List Op) : ∃ m,
    m + s.left ops = n + openings ops ∧ (s.run ops).Deep m := by
  induction ops generalizing s n with
  | nil => exact ⟨n, rfl, h⟩
  | cons op ops ih =>
    obtain ⟨m, hm, hstep⟩ := h.perform op
    obtain ⟨m', hm', hrest⟩ := ih hstep
    refine ⟨m', ?_, hrest⟩
    rw [left, openings_cons]
    omega

theorem deep_start (config : Config) : (start config).Deep 0 := by
  have hblank : (blank config).scopes.get? ⟨0⟩ = some ⟨"<session>", ∅, [], none⟩ := rfl
  obtain ⟨scope, hscope, hp⟩ := (moves_start config).keepsParents _ _ hblank
  exact ⟨valid_start config, current_start config ▸ .here, scope, hscope, hp⟩

theorem Deep.closeScope_eq_error_iff {e : Error} (h : s.Deep n) :
    s.closeScope = .error e ↔ n = 0 ∧ e = .noEnclosingScope := by
  cases n with
  | zero =>
    rw [h.closeScope_eq_error]
    exact ⟨fun he => ⟨rfl, (Except.error.inj he).symm⟩, fun he => he.2 ▸ rfl⟩
  | succ n =>
    obtain ⟨next, hclose, _⟩ := closeScope_of_inside h.inside
    rw [hclose]
    exact ⟨nofun, nofun⟩

/-- A block leaves the scopes of the session it began in, and what is found from them, as they
were. Over a whole session no scope can be left exactly when all that were opened have been. Every
way out ends, since it leads to smaller indices. -/
theorem blocks_nest_and_unwind (config : Config) (before : List Op) :
    let s := (start config).run before
    (∀ name ops, (∀ front, front <+: ops → closings front ≤ openings front) →
      let t := s.run (block name ops)
      t.current = s.current ∧ ∀ id, id.index < s.scopes.size →
        t.scopes.get? id = s.scopes.get? id ∧ ∀ x, t.scopes.lookup id x = s.scopes.lookup id x) ∧
    (s.closeScope = .error .noEnclosingScope ↔ (start config).left before = openings before) ∧
    (∀ e, s.closeScope = .error e → e = .noEnclosingScope ∧ s.perform .closeScope = s) ∧
    ∀ id scope, s.scopes.get? id = some scope →
      (∀ outer, scope.parent = some outer → outer.index < id.index) ∧
      ∀ x, ∃ found, s.scopes.lookup id x = .ok found := by
  intro s
  obtain ⟨n, hn, hdeep⟩ := (deep_start config).run before
  have hsound : s.scopes.Sound := hdeep.valid.sound
  refine ⟨fun name ops hops => ?_, ?_, fun e he => ?_, fun id scope hid => ?_⟩
  · have hblock := hdeep.valid.within_block name hops
    refine ⟨hblock.inside.eq_outer, fun id hid => ⟨hblock.same id hid, fun x => ?_⟩⟩
    obtain ⟨found, hbefore, hafter⟩ := hsound.lookup_eq hid hblock.same x
    exact hafter.trans hbefore.symm
  · rw [hdeep.closeScope_eq_error_iff, and_iff_left rfl]
    omega
  · refine ⟨(hdeep.closeScope_eq_error_iff.1 he).2, ?_⟩
    rw [Session.perform, he]
  · refine ⟨(hsound id scope hid).parent, fun x => ?_⟩
    obtain ⟨found, hfound, _⟩ := hsound.lookup_eq (Scopes.index_lt_size hid) (fun _ _ => rfl) x
    exact ⟨found, hfound⟩

/-- A block in which one scope is closed and another is not, one analysis succeeds and another
fails. -/
theorem blocks_nest_and_unwind_knot :
    let s := (start .here).run [.openScope "f", .bind "x" ⟨0⟩, .closeScope, .closeScope]
    let ops := [Op.openScope "g", .analyze .knot "A", .closeScope, .analyze .knot "Z",
      .openScope "h", .bind "x" ⟨1⟩]
    let t := s.run (block "body" ops)
    (openings ops, closings ops) = (2, 1) ∧ s.scopes.size < t.scopes.size ∧
    t.current = s.current ∧ (∀ id, id.index < s.scopes.size →
      t.scopes.get? id = s.scopes.get? id ∧ ∀ x, t.scopes.lookup id x = s.scopes.lookup id x) ∧
    s.closeScope = .error .noEnclosingScope := by
  intro s ops t
  have hall := blocks_nest_and_unwind .here
    [.openScope "f", .bind "x" ⟨0⟩, .closeScope, .closeScope]
  have hops : ∀ front, front <+: ops → closings front ≤ openings front := by
    simp only [← List.mem_inits]
    decide
  obtain ⟨hcurrent, hsame⟩ := hall.1 "body" ops hops
  exact ⟨rfl, by decide +kernel, hcurrent, hsame, hall.2.1.2 (by decide +kernel)⟩

end Session

end Bluespec
