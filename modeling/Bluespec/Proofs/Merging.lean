import Bluespec.Proofs.NameOrder
import Bluespec.Proofs.ScopeFrame

namespace Bluespec

namespace Scope

variable {target source : Scope} {name : String}

def Clashes (target source : Scope) (name : String) : Prop :=
  ∃ a b, target.lookup name = some a ∧ source.lookup name = some b ∧ a ≠ b

theorem clashes_iff : target.Clashes source name ↔ ∃ decl,
    (name, decl) ∈ source.bindings.entries ∧ (target.lookup name).any (· ≠ decl) = true := by
  simp only [Clashes, Table.mem_entries_iff]
  cases ha : target.lookup name with
  | none => simp
  | some a => simp [lookup]

theorem accept_strict_iff : target.accept .strict source.bindings.entries = .ok () ↔
    ∀ name, ¬ target.Clashes source name := by
  simp only [accept_strict_eq_ok, clashes_iff, not_exists, not_and, Bool.not_eq_true, Prod.forall]

/-- The names are compared in order, so the least one that clashes is reported. -/
theorem accept_least {policy : Policy} {e : Error}
    (h : target.accept policy source.bindings.entries = .error e) :
    ∃ name, target.Clashes source name ∧
      (∀ other, target.Clashes source other → ¬ other < name) ∧
      e = .duplicateBinding target.name name := by
  obtain ⟨before, name, decl, after, hsplit, hbefore, hclash, rfl⟩ := accept_eq_error h
  refine ⟨name, clashes_iff.mpr ⟨decl, by simp [hsplit], hclash⟩, fun other hother hlt => ?_, rfl⟩
  obtain ⟨d, hd, hclash⟩ := clashes_iff.mp hother
  have hsorted := source.bindings.sorted
  rw [hsplit] at hd hsorted
  obtain ⟨_, hrest, _⟩ := List.pairwise_append.mp hsorted
  -- a name that is less stands before the one reported, where nothing clashes
  obtain hd | hd := List.mem_append.mp hd
  · exact absurd hclash (Bool.eq_false_iff.mp (hbefore _ hd))
  · obtain hd | hd := List.mem_cons.mp hd
    · obtain ⟨rfl, _⟩ := Prod.mk.inj hd
      exact String.lt_irrefl _ hlt
    · exact String.lt_irrefl _ (String.lt_trans hlt ((List.pairwise_cons.mp hrest).1 _ hd))

theorem lookup_bindAll (s : Scope) {entries : List (String × DeclId)}
    (h : entries.Pairwise fun a b => a.1 < b.1) (name : String) :
    (entries.foldl (fun s (name, decl) => s.bind name decl) s).lookup name =
      (Table.find name entries).or (s.lookup name) := by
  induction entries generalizing s with
  | nil => rfl
  | cons e rest ih =>
    obtain ⟨hfirst, hrest⟩ := List.pairwise_cons.mp h
    rw [List.foldl_cons, ih _ hrest, lookup_bind, Table.find]
    by_cases hname : name = e.1
    · have hnone : Table.find name rest = none := by
        apply Option.eq_none_iff_forall_ne_some.mpr
        intro decl hdecl
        exact String.lt_irrefl _ (hname ▸ hfirst _ (Table.mem_of_find hdecl))
      simp [hname, hname ▸ hnone]
    · simp [hname]

theorem lookup_absorb (target source : Scope) (name : String) :
    (target.absorb source).lookup name = (source.lookup name).or (target.lookup name) :=
  lookup_bindAll target source.bindings.sorted name

/-- What becomes of a scope that takes over the bindings of another: these come first, name by
name, and their declarations are added to the history in the order of the names. -/
structure TakesOver (target source merged : Scope) : Prop where
  name : merged.name = target.name
  parent : merged.parent = target.parent
  lookup : ∀ name, merged.lookup name = (source.lookup name).or (target.lookup name)
  history : ∃ current : List (String × DeclId),
    merged.history = target.history ++ current.map Prod.snd ∧
    current.Pairwise (fun a b => nameBytes a.1 < nameBytes b.1) ∧
    ∀ name decl, (name, decl) ∈ current ↔ source.lookup name = some decl

theorem takesOver_absorb (target source : Scope) :
    target.TakesOver source (target.absorb source) where
  name := target.name_absorb source
  parent := target.parent_absorb source
  lookup := target.lookup_absorb source
  history := ⟨source.bindings.entries, target.history_absorb source,
    source.bindings.sorted.imp lt_iff_nameBytes_lt.mp, fun _ _ => Table.mem_entries_iff⟩

theorem TakesOver.lookup_eq {merged : Scope} {decl : DeclId} (h : target.TakesOver source merged)
    (hclash : ¬ target.Clashes source name) (hd : target.lookup name = some decl) :
    merged.lookup name = some decl := by
  rw [h.lookup]
  cases hs : source.lookup name with
  | none => simp [hd]
  | some d =>
    by_cases heq : decl = d
    · simp [heq]
    · exact absurd ⟨decl, d, hd, hs, heq⟩ hclash

end Scope

namespace Scopes

variable {t u : Scopes} {target source : ScopeId} {receiving incoming : Scope} {policy : Policy}

theorem merge_eq (ht : t.get? target = some receiving) (hs : t.get? source = some incoming) :
    t.merge target source policy =
      match receiving.accept policy incoming.bindings.entries with
      | .error e => (.error e, t)
      | .ok () => (.ok (), t.set target (receiving.absorb incoming)) := by
  simp only [merge, get_of_get? hs, get_of_get? ht, bindAll_eq ht]
  rfl

theorem merge_permissive_eq (ht : t.get? target = some receiving)
    (hs : t.get? source = some incoming) :
    t.merge target source .permissive = (.ok (), t.set target (receiving.absorb incoming)) := by
  rw [merge_eq ht hs, Scope.accept]

theorem merge_strict_isOk_iff (ht : t.get? target = some receiving)
    (hs : t.get? source = some incoming) :
    (∃ u, t.merge target source .strict = (.ok (), u)) ↔
      ∀ name, ¬ receiving.Clashes incoming name := by
  rw [merge_eq ht hs, ← Scope.accept_strict_iff]
  cases receiving.accept .strict incoming.bindings.entries with
  | error e => simp
  | ok _ => simp

theorem merge_strict_eq_error (ht : t.get? target = some receiving)
    (hs : t.get? source = some incoming) {e : Error} :
    t.merge target source .strict = (.error e, u) ↔ u = t ∧
      ∃ name, receiving.Clashes incoming name ∧
        (∀ other, receiving.Clashes incoming other → ¬ nameBytes other < nameBytes name) ∧
        e = .duplicateBinding receiving.name name := by
  simp only [← lt_iff_nameBytes_lt]
  cases ha : receiving.accept .strict incoming.bindings.entries with
  | ok _ =>
    have hnone := Scope.accept_strict_iff.mp ha
    rw [merge_eq ht hs, ha]
    refine ⟨nofun, ?_⟩
    rintro ⟨_, name, hname, _⟩
    exact absurd hname (hnone name)
  | error e' =>
    obtain ⟨name, hname, hleast, rfl⟩ := Scope.accept_least ha
    rw [merge_eq ht hs, ha]
    constructor
    · intro h
      obtain ⟨he, rfl⟩ := Prod.mk.inj h
      exact ⟨rfl, name, hname, hleast, (Except.error.inj he).symm⟩
    · rintro ⟨rfl, other, hother, hleast', rfl⟩
      have heq : name = other := by
        by_contra hne
        exact hleast other hother (Table.lt_of_not_lt_of_ne (hleast' name hname) hne)
      rw [heq]

theorem takesOver_of_merge (ht : t.get? target = some receiving)
    (hs : t.get? source = some incoming) (h : t.merge target source policy = (.ok (), u)) :
    ∃ merged, u.get? target = some merged ∧ receiving.TakesOver incoming merged := by
  obtain ⟨incoming', receiving', hs', ht', _, rfl⟩ := merge_eq_ok h
  obtain rfl := Option.some.inj (hs.symm.trans hs')
  obtain rfl := Option.some.inj (ht.symm.trans ht')
  exact ⟨_, get?_set_self (index_lt_size ht) _, receiving.takesOver_absorb incoming⟩

theorem lookup_of_merge_strict (ht : t.get? target = some receiving)
    (hs : t.get? source = some incoming) (h : t.merge target source .strict = (.ok (), u))
    {id : ScopeId} {scope : Scope} {name : String} {decl : DeclId} (hid : t.get? id = some scope)
    (hd : scope.lookup name = some decl) :
    ∃ scope', u.get? id = some scope' ∧ scope'.lookup name = some decl := by
  by_cases heq : id = target
  · subst id
    obtain rfl := Option.some.inj (ht.symm.trans hid)
    obtain ⟨merged, hmerged, hover⟩ := takesOver_of_merge ht hs h
    exact ⟨merged, hmerged, hover.lookup_eq ((merge_strict_isOk_iff ht hs).mp ⟨u, h⟩ name) hd⟩
  · exact ⟨scope, (get?_merge_of_ne h heq).trans hid, hd⟩

/-- The strict policy refuses to bind a name anew, names the least one that it would have to, in
the order of the bytes, and then leaves all scopes as they were. Otherwise the bindings of the
source come before those of the target, which is the only scope that is written. -/
theorem merge_law (t : Scopes) (target source : ScopeId) {receiving incoming : Scope}
    (ht : t.get? target = some receiving) (hs : t.get? source = some incoming) :
    (∀ e u, t.merge target source .strict = (.error e, u) ↔ u = t ∧
      ∃ name, receiving.Clashes incoming name ∧
        (∀ other, receiving.Clashes incoming other → ¬ nameBytes other < nameBytes name) ∧
        e = .duplicateBinding receiving.name name) ∧
    ((∃ u, t.merge target source .strict = (.ok (), u)) ↔
      ∀ name, ¬ receiving.Clashes incoming name) ∧
    (∃ u, t.merge target source .permissive = (.ok (), u)) ∧
    (∀ policy u, t.merge target source policy = (.ok (), u) →
      (∃ merged, u.get? target = some merged ∧ receiving.TakesOver incoming merged) ∧
      u.size = t.size ∧ ∀ id, id ≠ target → u.get? id = t.get? id) ∧
    (∀ u, t.merge target source .strict = (.ok (), u) → ∀ id scope name decl,
      t.get? id = some scope → scope.lookup name = some decl →
      ∃ scope', u.get? id = some scope' ∧ scope'.lookup name = some decl) ∧
    (∀ s : Session, s.scopes = t →
      (∀ e s', s.expose source target = (.error e, s') → s'.scopes = t) ∧
      ∀ s', s.expose source target = (.ok (), s') →
        t.merge target source s.config.importPolicy = (.ok (), s'.scopes)) := by
  refine ⟨fun e u => merge_strict_eq_error ht hs, merge_strict_isOk_iff ht hs,
    ⟨_, merge_permissive_eq ht hs⟩, fun policy u h => ?_, fun u h id scope name decl => ?_, ?_⟩
  · exact ⟨takesOver_of_merge ht hs h, size_merge h, fun id => get?_merge_of_ne h⟩
  · exact lookup_of_merge_strict ht hs h
  · rintro s rfl
    refine ⟨fun e s' he => Session.scopes_of_expose_error he, fun s' he => ?_⟩
    obtain ⟨_, _, _, hm, rfl⟩ := Session.expose_eq_ok he
    exact hm

def overlapping : Scopes :=
  ⟨#[((((⟨"outer", ∅, [], none⟩ : Scope).bind "é" ⟨0⟩).bind "a" ⟨1⟩).bind "B" ⟨2⟩),
    ((((⟨"inner", ∅, [], some ⟨0⟩⟩ : Scope).bind "é" ⟨3⟩).bind "a" ⟨4⟩).bind "B" ⟨2⟩)]⟩

/-- The strict policy stops at `a`, although `é` was bound first; the other one goes on, and
nothing speaks against the merge of a scope with itself. -/
theorem merge_law_overlapping : ∃ outer inner : Scope,
    overlapping.get? ⟨0⟩ = some outer ∧ overlapping.get? ⟨1⟩ = some inner ∧
    (∃ t, overlapping.merge ⟨0⟩ ⟨1⟩ .strict = (.error (.duplicateBinding "outer" "a"), t) ∧
      t = overlapping) ∧
    (∀ other, outer.Clashes inner other → ¬ nameBytes other < nameBytes "a") ∧
    (∃ u merged, overlapping.merge ⟨0⟩ ⟨1⟩ .permissive = (.ok (), u) ∧
      u.get? ⟨0⟩ = some merged ∧ outer.TakesOver inner merged ∧
      u.get? ⟨1⟩ = overlapping.get? ⟨1⟩) ∧
    ∃ v, overlapping.merge ⟨1⟩ ⟨1⟩ .strict = (.ok (), v) := by
  have hfail : (overlapping.merge ⟨0⟩ ⟨1⟩ .strict).1 =
      .error (.duplicateBinding "outer" "a") := by rfl
  obtain ⟨hstrict, _, ⟨u, hu⟩, htakes, _⟩ := merge_law overlapping ⟨0⟩ ⟨1⟩ rfl rfl
  obtain ⟨htree, name, _, hleast, herror⟩ := (hstrict _ _).mp (Prod.ext hfail rfl)
  obtain ⟨_, rfl⟩ := Error.duplicateBinding.inj herror
  obtain ⟨⟨merged, hmerged, hover⟩, _, hother⟩ := htakes _ u hu
  refine ⟨_, _, rfl, rfl, ⟨_, Prod.ext hfail rfl, htree⟩, hleast,
    ⟨u, merged, hu, hmerged, hover, hother ⟨1⟩ (by decide)⟩, ?_⟩
  apply (merge_law overlapping ⟨1⟩ ⟨1⟩ rfl rfl).2.1.mpr
  rintro name ⟨a, b, ha, hb, hne⟩
  exact hne (Option.some.inj (ha.symm.trans hb))

end Scopes

end Bluespec
