import Bluespec.Proofs.ImportClosure
import Bluespec.Proofs.Universe

namespace Bluespec

def Error.isUnread : Error → Bool
  | packageNotFound .. | unparsed .. => true
  | _ => false

section Unread

variable {arena : Arena} {id : DeclId} {e : Error}

theorem Arena.isUnread_of_get (h : arena.get id = .error e) : e.isUnread = false := by
  rw [Arena.get] at h
  split at h
  · cases h
  · rw [← Except.error.inj h]
    rfl

theorem Scopes.isUnread_of_get {t : Scopes} {id : ScopeId} (h : t.get id = .error e) :
    e.isUnread = false := by
  rw [Scopes.get] at h
  split at h
  · cases h
  · rw [← Except.error.inj h]
    rfl

theorem Scopes.isUnread_of_merge {t : Scopes} {target source : ScopeId} {policy : Policy}
    (h : (t.merge target source policy).1 = .error e) : e.isUnread = false := by
  rw [Scopes.merge] at h
  split at h
  · rename_i hs
    exact Except.error.inj h ▸ isUnread_of_get hs
  · split at h
    · rename_i ht
      exact Except.error.inj h ▸ isUnread_of_get ht
    · split at h
      · rename_i ha
        obtain ⟨_, _, _, _, _, _, _, rfl⟩ := Scope.accept_eq_error ha
        rw [← Except.error.inj h]
        rfl
      · cases h

namespace Symbols

variable {s : Symbols}

theorem isUnread_of_addTags (owner : DeclId) (ids : List DeclId)
    (h : (addTags arena owner ids s).1 = .error e) : e.isUnread = false := by
  induction ids generalizing s with
  | nil => cases h
  | cons tag rest ih =>
    rw [addTags] at h
    split at h
    · rename_i x hx
      exact Except.error.inj h ▸ Arena.isUnread_of_get hx
    · exact ih h

theorem isUnread_of_addMembers (ids : List DeclId)
    (h : (addMembers arena ids s).1 = .error e) : e.isUnread = false := by
  induction ids generalizing s with
  | nil => cases h
  | cons member rest ih =>
    rw [addMembers] at h
    split at h
    · rename_i x hx
      exact Except.error.inj h ▸ Arena.isUnread_of_get hx
    · exact ih h

theorem isUnread_of_once {index : Declaration → Symbols → Except Error Unit × Symbols}
    (hindex : ∀ d t, (index d t).1 = .error e → e.isUnread = false)
    (h : (s.once arena id index).1 = .error e) : e.isUnread = false := by
  rw [once] at h
  split at h
  · cases h
  · split at h
    · rename_i x hx
      exact Except.error.inj h ▸ Arena.isUnread_of_get hx
    · exact hindex _ _ h

theorem isUnread_of_refuse (variant : String) (h : (s.refuse arena variant id).1 = .error e) :
    e.isUnread = false := by
  rw [refuse] at h
  split at h
  · rename_i x hx
    exact Except.error.inj h ▸ Arena.isUnread_of_get hx
  · rw [← Except.error.inj h]
    rfl

theorem isUnread_of_visitor (callback : Callback)
    (h : (visitor arena callback id s).1 = .error e) : e.isUnread = false := by
  cases callback with
  | declaration => cases h
  | enum => exact isUnread_of_once (fun d t => isUnread_of_addTags id d.members) h
  | struct | union | interface =>
    exact isUnread_of_once (fun d t => isUnread_of_addMembers d.members) h
  | module | function => exact isUnread_of_once (fun _ _ hx => by cases hx) h
  | method => exact isUnread_of_refuse "method" h
  | synonym => exact isUnread_of_refuse "typedef" h

theorem isUnread_of_visitOne (h : ((visitor arena).visitOne arena id s).1 = .error e) :
    e.isUnread = false := by
  have hone : (visitor arena).visitOne arena id s = (visitor arena).visitKind arena id s := rfl
  rw [hone, Visitor.visitKind] at h
  split at h
  · rename_i x hx
    exact Except.error.inj h ▸ Arena.isUnread_of_get hx
  · split at h
    · exact isUnread_of_visitor _ h
    · cases h

theorem isUnread_of_visitAll (ids : List DeclId)
    (h : ((visitor arena).visitAll arena ids s).1 = .error e) : e.isUnread = false := by
  induction ids generalizing s with
  | nil => cases h
  | cons id rest ih =>
    rw [Visitor.visitAll] at h
    split at h
    · exact ih h
    · rename_i x t hx
      exact isUnread_of_visitOne ((congrArg Prod.fst hx).trans h)

theorem isUnread_of_indexScope {scopes : Scopes} {scope : ScopeId}
    (h : (s.indexScope arena scopes scope).1 = .error e) : e.isUnread = false := by
  rw [indexScope, Scopes.visit] at h
  split at h
  · rename_i x hx
    exact Except.error.inj h ▸ Scopes.isUnread_of_get hx
  · exact isUnread_of_visitAll _ h

end Symbols

theorem Session.isUnread_of_expose {s : Session} {scope caller : ScopeId}
    (h : (s.expose scope caller).1 = .error e) : e.isUnread = false := by
  rw [expose] at h
  split at h
  · rename_i x t hx
    exact Symbols.isUnread_of_indexScope ((congrArg Prod.fst hx).trans h)
  · exact Scopes.isUnread_of_merge h

end Unread

theorem Symbols.indexScope_types_sublist (arena : Arena) (s : Symbols) {scopes : Scopes}
    {scope : ScopeId} {source : Scope} (h : scopes.get? scope = some source) :
    ∃ extra, (s.indexScope arena scopes scope).2.types = s.types ++ extra ∧
      extra.Sublist (s.pending arena source.history) := by
  rw [indexScope, Scopes.visit, Scopes.get, h]
  exact visitAll_types_sublist rfl

theorem Arena.Keeps.names_eq {a b : Arena} (h : a.Keeps b) {ids : List DeclId}
    {names : List String} (hids : ids.map a.name? = names.map some) :
    ids.map b.name? = names.map some := by
  rw [← hids]
  refine List.map_congr_left fun id hid => ?_
  have hmem : a.name? id ∈ names.map some := hids ▸ List.mem_map_of_mem hid
  obtain ⟨name, _, hname⟩ := List.mem_map.mp hmem
  rw [Arena.name?_eq] at hname
  obtain ⟨c, hc, _⟩ := Option.map_eq_some_iff.mp hname.symm
  rw [Arena.name?_eq, Arena.name?_eq, h.constructor?_eq hc, hc]

theorem Arena.names_of_storesAll {a : Arena} : (ids : List DeclId) → (specs : List Spec) →
    a.StoresAll ids specs → ids.map a.name? = (specs.map (·.name)).map some
  | [], [], _ => rfl
  | id :: ids, ⟨_, _, _, _, _⟩ :: specs, ⟨⟨_, _, hget, _⟩, hs⟩ => by
    simp [Arena.name?, hget, ← Arena.names_of_storesAll ids specs hs]

namespace Library

variable {lib : Library} {config : Config} {arena : Arena}

def typeNames (lib : Library) (config : Config) (package : String) : List String :=
  match lib.read config package with
  | .ok y => y.aggregates.map (·.name)
  | .error _ => []

theorem Provides.names {p : String} {ids : List DeclId} (h : lib.Provides config arena p ids) :
    ids.map arena.name? = (lib.typeNames config p).map some := by
  obtain ⟨y, hy, hstores, _⟩ := h
  rw [typeNames, hy]
  exact Arena.names_of_storesAll ids y.aggregates hstores

theorem names_of_segments {order : List String} {segments : List (List DeclId)}
    (h : List.Forall₂ (lib.Provides config arena) order segments) :
    segments.flatten.map arena.name? = (order.flatMap (lib.typeNames config)).map some := by
  induction h with
  | nil => rfl
  | cons hp _ ih => simp [hp.names, ih]

end Library

namespace Session

variable {lib : Library} {s t u v : Session} {p : String} {order rest : List String}

/-- From `s` to `t` aggregates of the packages `order` were listed as types, for each package at
most once. None of these packages was known in `s`. -/
structure Lists (lib : Library) (s t : Session) (order : List String) : Prop where
  nodup : order.Nodup
  new : ∀ q ∈ order, s.hasPackage q = false
  types : ∃ (ids : List DeclId) (names : List String),
    t.symbols.types = s.symbols.types ++ ids ∧ ids.map t.arena.name? = names.map some ∧
    names.Sublist (order.flatMap (lib.typeNames s.config))

theorem Lists.nil (h : t.symbols.types = s.symbols.types) : Lists lib s t [] :=
  ⟨List.nodup_nil, nofun, [], [], by simp [h], rfl, .slnil⟩

theorem Lists.of_completes {ps : List String} {l : List (String × Bool)}
    (h : Completes lib ps s t l order) : Lists lib s t order where
  nodup := h.walk.nodup.1
  new q hq := Bool.eq_false_iff.mpr (h.walk.nodup.2 q hq)
  types := by
    obtain ⟨segments, htypes, hprovides⟩ := h.types
    exact ⟨_, _, htypes, Library.names_of_segments hprovides, .refl _⟩

theorem Lists.trans (hst : Lists lib s t order) (hcached : ∀ q ∈ order, t.hasPackage q = true)
    (htu : Lists lib t u rest) (hm : Moves s t) (hk : KeepsPackages s t)
    (hkeeps : t.arena.Keeps u.arena) : Lists lib s u (order ++ rest) := by
  refine ⟨?_, fun q hq => ?_, ?_⟩
  · refine List.nodup_append.mpr ⟨hst.nodup, htu.nodup, ?_⟩
    -- what became known first is no longer new
    rintro a ha b hb rfl
    exact Bool.false_ne_true ((htu.new a hb).symm.trans (hcached a ha))
  · rcases List.mem_append.mp hq with hq | hq
    · exact hst.new q hq
    · apply Bool.eq_false_iff.mpr
      intro hs
      exact Bool.false_ne_true ((htu.new q hq).symm.trans (hk.hasPackage hs))
  · obtain ⟨first, names, hfirst, hnames, hsub⟩ := hst.types
    obtain ⟨second, names', hsecond, hnames', hsub'⟩ := htu.types
    rw [hm.config_eq] at hsub'
    refine ⟨first ++ second, names ++ names', ?_, ?_, ?_⟩
    · rw [hsecond, hfirst, List.append_assoc]
    · rw [List.map_append, List.map_append, hkeeps.names_eq hnames, hnames']
    · rw [List.flatMap_append]
      exact hsub.append hsub'

theorem Lists.fetched {y : Package} (hf : (s.enter p).fetch lib p = (.ok y, t))
    (h : Lists lib (t.cache p s.nextScope) u order) : Lists lib s u order ∧ p ∉ order := by
  have hnew : ∀ q ∈ order, q ≠ p ∧ s.hasPackage q = false :=
    fun q hq => new_of_fetched hf (h.new q hq)
  obtain ⟨_, hsymbols, hconfig⟩ := fetched_stores hf
  have htypes := h.types
  rw [hsymbols, hconfig] at htypes
  exact ⟨⟨h.nodup, fun q hq => (hnew q hq).2, htypes⟩, fun hp => (hnew p hp).1 rfl⟩

/-- A package that fails when it is exposed may have listed some of its aggregates, or all. -/
theorem Lists.of_hidden {y : Package} {d : Nat} {l : List (String × Bool)} {e : Error}
    (hs : s.Ready) (hp : s.hasPackage p = false) (hf : (s.enter p).fetch lib p = (.ok y, t))
    (hw : Walks lib (y.items.map (·.entry)) (t.cache p s.nextScope) (.ok (), u) d l)
    (hx : u.expose s.nextScope s.current = (.error e, v)) :
    ∃ order, Lists lib s v (order ++ [p]) := by
  obtain ⟨order, own, hc, hown, hstores⟩ := hw.completes (ready_fetched hs hf) rfl
  obtain ⟨hlists, hnew⟩ := (Lists.of_completes hc).fetched hf
  obtain ⟨ids, names, hids, hnames, hsub⟩ := hlists.types
  obtain ⟨source, hsource, hhistory, _⟩ := exists_source hs hf hw
  obtain ⟨extra, hextra, hpart⟩ :=
    Symbols.indexScope_types_sublist u.arena u.symbols hsource
  have hpending : u.symbols.pending u.arena source.history = own := hhistory ▸ hown.pending_own hf
  have hprovides : lib.typeNames s.config p = y.aggregates.map (·.name) := by
    rw [Library.typeNames, read_of_fetch hf]
  rw [List.filterMap_map] at hstores
  have hall := Arena.names_of_storesAll own y.aggregates hstores
  -- names of a part of the aggregates are a part of their names
  obtain ⟨names', hsub', hnames'⟩ := List.sublist_map_iff.mp
    (hall ▸ (hpending ▸ hpart).map u.arena.name?)
  rw [expose_eq_error hx]
  refine ⟨order, ?_, fun q hq => ?_, ids ++ extra, names ++ names', ?_, ?_, ?_⟩
  · exact List.nodup_append.mpr ⟨hlists.nodup, List.nodup_singleton _,
      fun a ha b hb => List.mem_singleton.mp hb ▸ ne_of_mem_of_not_mem ha hnew⟩
  · rcases List.mem_append.mp hq with hq | hq
    · exact hlists.new q hq
    · exact List.mem_singleton.mp hq ▸ hp
  · exact hextra.trans (by rw [hids, List.append_assoc])
  · rw [List.map_append, List.map_append, hnames, hnames']
  · rw [List.flatMap_append, List.flatMap_singleton, hprovides]
    exact hsub.append hsub'

mutual

/-- A failed analysis lists no package twice. Where a package could not be read, all packages on
the way to it stop before they list their own aggregates. -/
theorem Analyzes.lists_of_error {p : String} {s : Session} {r : Except Error Analysis × Session}
    {d : Nat} {l : List (String × Bool)} {e : Error} (hs : s.Ready) :
    Analyzes lib p s r d l → r.1 = .error e → ∃ order, Lists lib s r.2 order ∧
      (e.isUnread = true → ∀ q ∈ order, r.2.hasPackage q = true)
  | .known _, heq | .done _ _ _ _, heq => nomatch heq
  | .unread (t := t) _ hf, _ => by
    have htypes : t.symbols.types = s.symbols.types := by rw [← (fetched_stores hf).2.1]; rfl
    exact ⟨[], .nil htypes, fun _ => nofun⟩
  | .broken (u := u) _ hf hw, heq => by
    obtain ⟨order, h, hcached⟩ := hw.lists_of_error (ready_fetched hs hf)
      (congrArg _ (Except.error.inj heq))
    obtain ⟨hlists, hnew⟩ := h.fetched hf
    refine ⟨order, ⟨hlists.nodup, hlists.new, hlists.types⟩, fun he q hq => ?_⟩
    exact (hasPackage_abandon u _ s.current q).mpr
      ⟨ne_of_mem_of_not_mem hq hnew, hcached he q hq⟩
  | .hidden h hf hw hx, heq => by
    obtain ⟨order, hlists⟩ := Lists.of_hidden hs h hf hw hx
    refine ⟨_, ⟨hlists.nodup, hlists.new, hlists.types⟩, fun he => ?_⟩
    have hunread := isUnread_of_expose (congrArg Prod.fst hx)
    rw [Except.error.inj heq, he] at hunread
    cases hunread

theorem Walks.lists_of_error {es : List Entry} {s : Session} {r : Except Error Unit × Session}
    {d : Nat} {l : List (String × Bool)} {e : Error} (hs : s.Ready) :
    Walks lib es s r d l → r.1 = .error e → ∃ order, Lists lib s r.2 order ∧
      (e.isUnread = true → ∀ q ∈ order, r.2.hasPackage q = true)
  | .nil, heq => nomatch heq
  | .declares (x := x) hr, heq => by
    obtain ⟨order, h, hcached⟩ := hr.lists_of_error (hs.declare x) heq
    have hfirst : Lists lib s (s.declare x).2 [] := .nil (types_declare s x)
    exact ⟨order, hfirst.trans nofun h (moves_declare s x) (keepsPackages_declare s x)
      hr.moves.grows.arena, hcached⟩
  | .requires h hr, heq => by
    obtain ⟨order, hc, hcaller⟩ := h.completes hs rfl
    obtain ⟨rest, hrest, hcached⟩ :=
      hr.lists_of_error (hcaller.ready hs h.moves h.current_eq) heq
    have hknown : ∀ q ∈ order, _ := fun q hq => (hc.packages q).mpr (.inr hq)
    refine ⟨order ++ rest, (Lists.of_completes hc).trans hknown hrest h.moves h.keepsPackages
      hr.moves.grows.arena, fun he q hq => ?_⟩
    rcases List.mem_append.mp hq with hq | hq
    · exact hr.keepsPackages.hasPackage (hknown q hq)
    · exact hcached he q hq
  | .fails h, heq => h.lists_of_error hs (congrArg _ (Except.error.inj heq))

end

theorem Analyzes.ready_of_error {d : Nat} {l : List (String × Bool)} {e : Error} (hs : s.Ready)
    (h : Analyzes lib p s (.error e, t) d l) : t.Ready where
  valid := h.moves.valid h.current_eq hs.valid
  symbols := h.moves.symbols_sound hs.symbols
  bounded := by
    have hcurrent : t.current = s.current := h.current_eq
    have hhistory : t.history = s.history := by
      rw [history, history, hcurrent,
        h.sameScopes_of_error hs.valid s.current hs.valid.current]
    have hsize : s.arena.size ≤ t.arena.size := Arena.size_le_of_keeps h.moves.grows.arena
    intro id hid
    exact Nat.lt_of_lt_of_le (hs.bounded id (hhistory ▸ hid)) hsize

theorem lists_analyze (hs : s.Ready) {r : Except Error Analysis}
    (hr : s.analyze lib p = (r, t)) : t.Ready ∧ ∃ order, Lists lib s t order ∧
      ((∀ e, r = .error e → e.isUnread = true) → ∀ q ∈ order, t.hasPackage q = true) := by
  obtain ⟨d, l, h⟩ := analyzes_analyze lib s p
  rw [hr] at h
  cases r with
  | ok a =>
    obtain ⟨order, hc, hcaller⟩ := h.completes hs rfl
    exact ⟨hcaller.ready hs h.moves h.current_eq, order, .of_completes hc,
      fun _ q hq => (hc.packages q).mpr (.inr hq)⟩
  | error e =>
    obtain ⟨order, hlists, hcached⟩ := h.lists_of_error hs rfl
    exact ⟨h.ready_of_error hs, order, hlists, fun hfail => hcached (hfail e rfl)⟩

theorem moves_analyze (lib : Library) (s : Session) (p : String) : Moves s (s.analyze lib p).2 := by
  obtain ⟨_, _, h⟩ := analyzes_analyze lib s p
  exact h.moves

theorem keepsPackages_analyze (lib : Library) (s : Session) (p : String) :
    KeepsPackages s (s.analyze lib p).2 := by
  obtain ⟨_, _, h⟩ := analyzes_analyze lib s p
  exact h.keepsPackages

theorem lists_run : (packages : List String) → {s : Session} → s.Ready →
    (∀ e, .error e ∈ s.results lib packages.dropLast → e.isUnread = true) →
    ∃ order, Lists lib s (s.run (packages.map (.analyze lib))) order ∧
      Moves s (s.run (packages.map (.analyze lib)))
  | [], s, _, _ => ⟨[], .nil rfl, .refl⟩
  | [p], s, hs, _ => by
    obtain ⟨_, order, h, _⟩ := lists_analyze hs (rfl : s.analyze lib p = (_, _))
    exact ⟨order, h, moves_analyze lib s p⟩
  | p :: q :: packages, s, hs, hfail => by
    obtain ⟨hready, order, h, hcached⟩ := lists_analyze hs (rfl : s.analyze lib p = (_, _))
    have hknown := hcached fun e he => hfail e (he ▸ List.mem_cons_self)
    obtain ⟨rest, hrest, hm⟩ := lists_run (q :: packages) hready
      fun e he => hfail e (List.mem_cons_of_mem _ he)
    exact ⟨order ++ rest, h.trans hknown hrest (moves_analyze lib s p)
      (keepsPackages_analyze lib s p) hm.grows.arena, (moves_analyze lib s p).trans hm⟩

end Session

end Bluespec
