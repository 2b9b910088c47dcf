import Bluespec.Proofs.Blocks
import Bluespec.Proofs.Calls
import Bluespec.Proofs.Exposure
import Bluespec.Proofs.UniverseSync

namespace Bluespec

namespace Symbols

variable {arena : Arena} {id : DeclId} {s t u : Symbols} {r : Except Error Unit}

structure Extends (s t : Symbols) : Prop where
  types : s.types ⊆ t.types
  values : s.values ⊆ t.values
  tags : KeepsTags s t

theorem Extends.refl (s : Symbols) : Extends s s :=
  ⟨List.Subset.refl _, List.Subset.refl _, fun _ h => h⟩

theorem Extends.trans (hst : Extends s t) (htu : Extends t u) : Extends s u :=
  ⟨List.Subset.trans hst.types htu.types, List.Subset.trans hst.values htu.values,
    fun tag h => htu.tags tag (hst.tags tag h)⟩

theorem Records.extends {types values : List DeclId} (h : Records id types values s t) :
    Extends s t := by
  refine ⟨?_, ?_, h.tags⟩
  · rw [h.types]
    exact List.subset_append_left _ _
  · rw [h.values]
    exact List.subset_append_left _ _

theorem extends_answer (s : Symbols) (c : Call) : Extends s (s.answer c).2 := by
  apply answer_preserves (P := Extends s) c (.refl s)
  · intro valueOf
    exact ⟨List.Subset.refl _, List.Subset.refl _, fun _ h => h⟩
  · intro id t _ _ hrecords
    exact hrecords.extends

theorem extends_answers (s : Symbols) (calls : List Call) : Extends s (s.answers calls) := by
  induction calls generalizing s with
  | nil => exact .refl s
  | cons c rest ih => exact (extends_answer s c).trans (ih _)

theorem extends_visitAll (arena : Arena) (ids : List DeclId) (s : Symbols) :
    Extends s ((visitor arena).visitAll arena ids s).2 := by
  rw [visitAll_eq_answers]
  exact extends_answers s _

theorem extends_indexScope (s : Symbols) (arena : Arena) (scopes : Scopes) (scope : ScopeId) :
    Extends s (s.indexScope arena scopes scope).2 := by
  rw [indexScope, Scopes.visit]
  split
  · exact .refl s
  · exact extends_visitAll arena _ s

/-- The tables hold a declaration where its kind belongs. Plain values belong nowhere; methods
outside of interfaces and synonyms must not come up. -/
def Shows (arena : Arena) (s : Symbols) (id : DeclId) : Prop :=
  ∃ d, arena.get? id = some d ∧
    match d.kind with
    | .struct | .union | .interface => id ∈ s.types
    | .module | .function => id ∈ s.values
    | .enum => ∀ tag ∈ d.members, ∃ e, arena.get? tag = some e ∧
        (s.enumOfTag? e.name).isSome = true
    | .method | .synonym _ => False
    | .value => True

theorem Shows.mono {a b : Arena} (h : s.Shows a id) (hab : a.Keeps b) (hst : Extends s t) :
    t.Shows b id := by
  obtain ⟨d, hd, hshow⟩ := h
  obtain ⟨parent, hb⟩ := hab id d hd
  refine ⟨_, hb, ?_⟩
  cases hk : d.kind with
  | struct | union | interface =>
    simp only [hk] at hshow ⊢
    exact hst.types hshow
  | module | function =>
    simp only [hk] at hshow ⊢
    exact hst.values hshow
  | enum =>
    simp only [hk] at hshow ⊢
    intro tag htag
    obtain ⟨e, he, hsome⟩ := hshow tag htag
    obtain ⟨_, he'⟩ := hab tag e he
    exact ⟨_, he', hst.tags e.name hsome⟩
  | method | synonym _ => simp only [hk] at hshow
  | value => trivial

theorem Shows.mem_types (h : s.Shows arena id) (hid : arena.isAggregate id = true) :
    id ∈ s.types := by
  obtain ⟨d, hd, hshow⟩ := h
  rw [Arena.isAggregate, hd] at hid
  cases hk : d.kind <;> simp_all [Kind.isAggregate]

theorem addTags_shows {ids : List DeclId} (hids : ∀ m ∈ ids, m.index < arena.size)
    (owner : DeclId) (s : Symbols) : ∀ tag ∈ ids, ∃ e, arena.get? tag = some e ∧
      ((addTags arena owner ids s).2.enumOfTag? e.name).isSome = true := by
  induction ids generalizing s with
  | nil => nofun
  | cons id rest ih =>
    obtain ⟨d, hd⟩ : ∃ d, arena.get? id = some d :=
      ⟨_, Array.getElem?_eq_getElem (hids id List.mem_cons_self)⟩
    intro tag htag
    simp only [addTags, Arena.get, hd]
    obtain ⟨_, _, hkeeps⟩ := addTags_eq arena owner rest (s.addTag d.name (d.parent.getD owner))
    rcases List.mem_cons.mp htag with rfl | htag
    · refine ⟨d, hd, hkeeps d.name ?_⟩
      simp [enumOfTag?_addTag]
    · exact ih (fun m hm => hids m (List.mem_cons_of_mem _ hm)) _ tag htag

theorem answer_visit_shows {d : Declaration} {callback : Callback} (ha : arena.Closed)
    (hd : arena.get? id = some d) (hk : d.kind.callback? = some callback)
    (hcall : callback.indexes = true) (hnew : id ∉ s.indexed) :
    (s.answer (.visit arena callback id)).2.Shows arena id := by
  have hrecords := answer_records (Call.records?_visit arena id hcall) hnew
  refine ⟨d, hd, ?_⟩
  cases hkind : d.kind with
  | struct | union | interface =>
    rw [hkind] at hk
    obtain rfl := Option.some.inj hk
    simp [hrecords.types, Call.type?, Callback.listsType, hd]
  | module | function =>
    rw [hkind] at hk
    obtain rfl := Option.some.inj hk
    simp [hrecords.values, Call.value?, Callback.listsValue, hd]
  | enum =>
    rw [hkind] at hk
    obtain rfl := Option.some.inj hk
    have hanswer : s.answer (.visit arena .enum id) = addTags arena id d.members (s.mark id) := by
      simp [answer, visitor, indexEnum, once, hnew, Arena.get, hd]
    rw [hanswer]
    exact addTags_shows (ha id d hd) id (s.mark id)
  | method | synonym _ =>
    rw [hkind] at hk
    obtain rfl := Option.some.inj hk
    cases hcall
  | value => trivial

theorem visitOne_shows (ha : arena.Closed) (hs : ∀ key ∈ s.indexed, s.Shows arena key)
    (h : (visitor arena).visitOne arena id s = (r, t)) :
    (∀ key ∈ t.indexed, t.Shows arena key) ∧ (r = .ok () → t.Shows arena id) := by
  cases visits_of_visitOne h with
  | stops e => exact ⟨hs, nofun⟩
  | @passes d hd hk => exact ⟨hs, fun _ => ⟨d, hd, by rw [hk]; trivial⟩⟩
  | again _ hmem => exact ⟨hs, fun _ => hs id hmem⟩
  | first hd hk hc hnew hanswer =>
    have hshow := answer_visit_shows ha hd hk hc hnew
    have hrecords := answer_records (Call.records?_visit arena id hc) hnew
    rw [hanswer] at hshow hrecords
    refine ⟨fun key hkey => ?_, fun _ => hshow⟩
    rw [hrecords.indexed] at hkey
    rcases List.mem_cons.mp hkey with rfl | hkey
    · exact hshow
    · exact (hs key hkey).mono (.refl arena) hrecords.extends

theorem visitAll_shows (ha : arena.Closed) {ids : List DeclId}
    (hs : ∀ key ∈ s.indexed, s.Shows arena key)
    (h : (visitor arena).visitAll arena ids s = (r, t)) :
    (∀ key ∈ t.indexed, t.Shows arena key) ∧ (r = .ok () → ∀ id ∈ ids, t.Shows arena id) := by
  induction ids generalizing s with
  | nil =>
    obtain ⟨_, rfl⟩ := Prod.mk.inj h
    exact ⟨hs, fun _ id hid => absurd hid List.not_mem_nil⟩
  | cons id rest ih =>
    rw [Visitor.visitAll] at h
    cases hv : (visitor arena).visitOne arena id s with
    | mk q u =>
      obtain ⟨hu, hid⟩ := visitOne_shows ha hs hv
      rw [hv] at h
      cases q with
      | error e =>
        obtain ⟨rfl, rfl⟩ := Prod.mk.inj h
        exact ⟨hu, fun hr => by cases hr⟩
      | ok _ =>
        have hall : (visitor arena).visitAll arena rest u = (r, t) := h
        obtain ⟨ht, hrest⟩ := ih hu hall
        refine ⟨ht, fun hr key hkey => ?_⟩
        rcases List.mem_cons.mp hkey with rfl | hkey
        · have hext := extends_visitAll arena rest u
          rw [hall] at hext
          exact (hid rfl).mono (.refl arena) hext
        · exact hrest hr key hkey

theorem indexScope_shows (ha : arena.Closed) (hs : ∀ key ∈ s.indexed, s.Shows arena key)
    (scopes : Scopes) (scope : ScopeId) :
    ∀ key ∈ (s.indexScope arena scopes scope).2.indexed,
      (s.indexScope arena scopes scope).2.Shows arena key := by
  rw [indexScope, Scopes.visit]
  split
  · exact hs
  · exact (visitAll_shows ha hs rfl).1

end Symbols

theorem Scopes.Inside.exists_parent {t : Scopes} {base n : Nat} {outer id : ScopeId}
    (h : t.Inside base outer id (n + 1)) :
    ∃ scope next, t.get? id = some scope ∧ scope.parent = some next := by
  cases h with
  | inner hid _ hp _ => exact ⟨_, _, hid, hp⟩

namespace Session

variable {lib : Library} {p : String} {s t u v : Session} {d : Nat} {l : List (String × Bool)}
  {scope : ScopeId}

theorem Move.extends (h : Move s t) : s.symbols.Extends t.symbols := by
  cases h with
  | note | push | bind | merge | store => exact .refl s.symbols
  | synonym => exact ⟨List.Subset.refl _, List.Subset.refl _, fun _ h => h⟩
  | index scope => exact Symbols.extends_indexScope s.symbols s.arena s.scopes scope
  | functionType arity => exact Symbols.extends_answer s.symbols (.addType _ _)

theorem Moves.shows (h : Moves s t) {id : DeclId} (hid : s.symbols.Shows s.arena id) :
    t.symbols.Shows t.arena id :=
  h.preserves (P := fun u => u.symbols.Shows u.arena id)
    (fun _ _ hm hu => hu.mono hm.grows.arena hm.extends) hid

structure Settled (s : Session) : Prop where
  closed : s.arena.Closed
  marked : ∀ id ∈ s.symbols.indexed, s.symbols.Shows s.arena id

theorem Settled.move (hs : s.Settled) (h : Move s t) : t.Settled := by
  have hshows : ∀ id ∈ s.symbols.indexed, t.symbols.Shows t.arena id :=
    fun id hid => Moves.shows (.single h) (hs.marked id hid)
  cases h with
  | note | push | bind | merge => exact ⟨hs.closed, hs.marked⟩
  | store spec => exact ⟨hs.closed.add spec, hshows⟩
  | synonym => exact ⟨hs.closed, hshows⟩
  | index scope =>
    exact ⟨hs.closed, Symbols.indexScope_shows hs.closed hs.marked s.scopes scope⟩
  | functionType arity =>
    refine ⟨hs.closed.push nofun, fun id hid => ?_⟩
    by_cases hmem : (⟨s.arena.size⟩ : DeclId) ∈ s.symbols.indexed
    · have hsame : (s.addFunctionType arity).symbols = s.symbols := if_pos hmem
      rw [hsame] at hid
      exact hshows id hid
    · have hnew : (s.addFunctionType arity).symbols.indexed =
          ⟨s.arena.size⟩ :: s.symbols.indexed := congrArg Symbols.indexed (if_neg hmem)
      rw [hnew] at hid
      rcases List.mem_cons.mp hid with rfl | hid
      · exact ⟨_, (Arena.get?_push s.arena _ _).trans (if_pos rfl), trivial⟩
      · exact hshows id hid

theorem Moves.settled (h : Moves s t) (hs : s.Settled) : t.Settled :=
  h.preserves (P := Settled) (fun _ _ hm hu => hu.move hm) hs

def Shown (s : Session) (scope : ScopeId) : Prop :=
  ∃ source, s.scopes.get? scope = some source ∧ source.parent = none ∧
    ∀ id ∈ source.history, s.symbols.Shows s.arena id

theorem Shown.later (h : s.Shown scope) (hm : Moves s t)
    (hsame : t.scopes.get? scope = s.scopes.get? scope) : t.Shown scope := by
  obtain ⟨source, hsource, hparent, hall⟩ := h
  exact ⟨source, hsame.trans hsource, hparent, fun id hid => hm.shows (hall id hid)⟩

theorem Shown.lt_size (h : s.Shown scope) : scope.index < s.scopes.size := by
  obtain ⟨source, hsource, _, _⟩ := h
  exact Scopes.index_lt_size hsource

def NewShown (s t : Session) : Prop :=
  ∀ q scope, t.packages.get? q = some scope → s.packages.get? q = some scope ∨ t.Shown scope

theorem newShown_of_eq (h : t.packages = s.packages) : NewShown s t :=
  fun _ _ hq => .inl (h ▸ hq)

/-- What a new package has bound is not touched by what comes after it in the same scope. -/
theorem NewShown.trans (hst : NewShown s t) (htu : NewShown t u) (hs : s.Valid)
    (hnew : NewScopes s t) (hcurrent : t.current = s.current) (hm : Moves t u)
    (hframes : Frames t u) : NewShown s u := by
  intro q scope hq
  rcases htu q scope hq with hq | hq
  · rcases hst q scope hq with hold | hshown
    · exact .inl hold
    · refine (hnew q scope hq).imp_right fun hsize => hshown.later hm ?_
      apply hframes scope hshown.lt_size
      rintro rfl
      rw [hcurrent] at hsize
      exact Nat.not_lt_of_le hsize hs.current
  · exact .inr hq

theorem NewShown.abandon {x : Except Error Package} (hf : (s.enter p).fetch lib p = (x, t))
    (hw : NewShown (t.cache p s.nextScope) u) (hm : Moves u v)
    (hpackages : v.packages = u.packages) (hscopes : v.scopes = u.scopes) :
    NewShown s (v.abandon p s.current) := by
  intro q scope hq
  by_cases hqp : q = p
  · simp [Session.abandon, hqp] at hq
  · simp only [Session.abandon, hpackages, Table.get?_erase, if_neg hqp] at hq
    rcases hw q scope hq with hold | hshown
    · simp only [cache, Table.get?_insert, if_neg hqp, packages_of_fetch hf] at hold
      exact .inl hold
    · refine .inr (hshown.later (hm.trans (moves_abandon v p s.current)) ?_)
      exact congrArg (·.get? scope) hscopes

theorem exists_own {x : Except Error Package} (hf : (s.enter p).fetch lib p = (x, t))
    (hm : Moves (t.cache p s.nextScope) u) :
    ∃ source, u.scopes.get? s.nextScope = some source ∧ source.parent = none := by
  obtain ⟨_, rfl⟩ := fetched_eq hf
  have hpush : (s.scopes.push p none).2.get? s.nextScope = some ⟨p, ∅, [], none⟩ :=
    (Scopes.get?_push _ _ _ _).trans (if_pos rfl)
  exact hm.keepsParents _ _ hpush

theorem newShown_of_done {y : Package} (hs : s.Valid) (hset : s.Settled)
    (hf : (s.enter p).fetch lib p = (.ok y, t))
    (hw : Walks lib (y.items.map (·.entry)) (t.cache p s.nextScope) (.ok (), u) d l)
    (he : u.expose s.nextScope s.current = (.ok (), v))
    (hnew : NewShown (t.cache p s.nextScope) u) : NewShown s (v.leave s.current) := by
  have hm : Moves u (v.leave s.current) := (moves_expose he).trans (moves_leave v s.current)
  have hu : u.Settled := hw.moves.settled ((moves_fetched hf s.nextScope).settled hset)
  have hown : u.packages.get? p = some s.nextScope :=
    hw.keepsPackages p s.nextScope (by simp [cache])
  obtain ⟨source, hsource, hparent⟩ := exists_own hf hw.moves
  obtain ⟨symbols, scopes, hindex, hmerge, rfl⟩ := expose_eq_ok he
  -- the merge writes the scope of the caller, which is older
  have hsame : ∀ id : ScopeId, s.scopes.size ≤ id.index → scopes.get? id = u.scopes.get? id := by
    intro id hid
    apply Scopes.get?_merge_of_ne hmerge
    rintro rfl
    exact Nat.not_lt_of_le hid hs.current
  intro q scope hq
  by_cases hqp : q = p
  · subst hqp
    obtain rfl : s.nextScope = scope := Option.some.inj (hown.symm.trans hq)
    obtain ⟨source', hsource', hvisit⟩ := Symbols.indexScope_eq_ok hindex
    obtain rfl : source = source' := Option.some.inj (hsource.symm.trans hsource')
    refine .inr ⟨source, (hsame s.nextScope (Nat.le_refl _)).trans hsource, hparent, ?_⟩
    exact (Symbols.visitAll_shows hu.closed hu.marked hvisit).2 rfl
  · have hold : (t.cache p s.nextScope).packages.get? q = s.packages.get? q := by
      simp only [cache, Table.get?_insert, if_neg hqp, packages_of_fetch hf]
    rcases hnew q scope hq with hq' | hshown
    · exact .inl (hold ▸ hq')
    · rcases hw.newScopes q scope hq with hq' | hsize
      · exact .inl (hold ▸ hq')
      · have hle : s.scopes.size ≤ scope.index :=
          (moves_fetched hf s.nextScope).size_le.trans hsize
        exact .inr (hshown.later hm (hsame scope hle))

mutual

theorem Analyzes.newShown {p : String} {s : Session} {r : Except Error Analysis × Session}
    {d : Nat} {l : List (String × Bool)} (hs : s.Valid) (hset : s.Settled) :
    Analyzes lib p s r d l → NewShown s r.2
  | .known _ => newShown_of_eq rfl
  | .unread (t := t) _ hf => by
    intro q scope hq
    by_cases hqp : q = p
    · simp [Session.abandon, hqp] at hq
    · simp only [Session.abandon, Table.get?_erase, if_neg hqp, packages_of_fetch hf] at hq
      exact .inl hq
  | .broken _ hf hw =>
    NewShown.abandon hf (hw.newShown (valid_fetched hs hf) ((moves_fetched hf _).settled hset))
      .refl rfl rfl
  | .hidden _ hf hw he => by
    have hu := hw.newShown (valid_fetched hs hf) ((moves_fetched hf _).settled hset)
    obtain ⟨_, _, heq⟩ := expose_eq he
    exact hu.abandon hf (moves_expose he) (by rw [heq]) (scopes_of_expose_error he)
  | .done _ hf hw he =>
    newShown_of_done hs hset hf hw he
      (hw.newShown (valid_fetched hs hf) ((moves_fetched hf _).settled hset))

theorem Walks.newShown {es : List Entry} {s : Session} {r : Except Error Unit × Session}
    {d : Nat} {l : List (String × Bool)} (hs : s.Valid) (hset : s.Settled) :
    Walks lib es s r d l → NewShown s r.2
  | .nil => newShown_of_eq rfl
  | .declares (x := x) hr => by
    have hrest := hr.newShown (hs.perform (.declare x)) ((moves_declare s x).settled hset)
    obtain ⟨_, _, heq⟩ := declare_eq s x
    have hpackages : (s.declare x).2.packages = s.packages := by rw [heq]
    exact fun q scope hq => hpackages ▸ hrest q scope hq
  | .requires h hr => by
    have ht := h.moves.valid h.current_eq hs
    exact (h.newShown hs hset).trans (hr.newShown ht (h.moves.settled hset)) hs h.newScopes
      h.current_eq hr.moves (hr.frames ht)
  | .fails h => h.newShown hs hset

end

theorem new_perform (hs : s.Valid) (hset : s.Settled) (op : Op) :
    NewScopes s (s.perform op) ∧ NewShown s (s.perform op) := by
  suffices h : (s.perform op).packages = s.packages ∨ ∃ lib p, op = .analyze lib p by
    rcases h with h | ⟨lib, p, rfl⟩
    · exact ⟨newScopes_of_eq h, newShown_of_eq h⟩
    · obtain ⟨_, _, ha⟩ := analyzes_analyze lib s p
      exact ⟨ha.newScopes, ha.newShown hs hset⟩
  cases op with
  | analyze lib package => exact .inr ⟨lib, package, rfl⟩
  | declare spec =>
    obtain ⟨_, _, heq⟩ := declare_eq s spec
    exact .inl (by rw [Session.perform, heq])
  | bind | indexScope | openScope => exact .inl rfl
  | addFunctionTypes =>
    obtain ⟨_, _, heq⟩ := addFunctionTypes_eq s
    exact .inl (by rw [Session.perform, heq])
  | closeScope =>
    refine .inl ?_
    rw [Session.perform]
    split
    · rename_i t h
      obtain ⟨_, _, _, _, rfl⟩ := closeScope_eq_ok h
      rfl
    · rfl

/-- The scopes of all packages lie outside of the one that a session starts in, and are shown. -/
structure Presents (s : Session) : Prop where
  deep : ∃ n, s.Deep n
  settled : s.Settled
  shown : ∀ q scope, s.packages.get? q = some scope → scope ≠ ⟨0⟩ ∧ s.Shown scope

theorem Presents.valid (hs : s.Presents) : s.Valid := by
  obtain ⟨_, hdeep⟩ := hs.deep
  exact hdeep.valid

theorem Presents.ne_current (hs : s.Presents) {q : String} (hq : s.packages.get? q = some scope) :
    scope ≠ s.current := by
  rintro rfl
  obtain ⟨hfirst, source, hsource, hparent, _⟩ := hs.shown q s.current hq
  obtain ⟨n, hdeep⟩ := hs.deep
  cases n with
  | zero => exact hfirst hdeep.inside.eq_outer
  | succ n =>
    obtain ⟨source', next, hsource', hnext⟩ := hdeep.inside.exists_parent
    obtain rfl := Option.some.inj (hsource.symm.trans hsource')
    rw [hparent] at hnext
    cases hnext

theorem Presents.perform (hs : s.Presents) (op : Op) : (s.perform op).Presents := by
  have hm := hs.valid.moves_perform op
  obtain ⟨hnew, hshown⟩ := new_perform hs.valid hs.settled op
  obtain ⟨n, hdeep⟩ := hs.deep
  obtain ⟨m, _, hdeep'⟩ := hdeep.perform op
  refine ⟨⟨m, hdeep'⟩, hm.settled hs.settled, fun q scope hq => ?_⟩
  by_cases hold : s.packages.get? q = some scope
  · obtain ⟨hfirst, hbefore⟩ := hs.shown q scope hold
    refine ⟨hfirst, hbefore.later hm ?_⟩
    exact hs.valid.frames_perform op scope hbefore.lt_size (hs.ne_current hold)
  · have hsize := (hnew q scope hq).resolve_left hold
    refine ⟨?_, (hshown q scope hq).resolve_left hold⟩
    rintro rfl
    exact Nat.not_lt_of_le hsize (Nat.lt_of_le_of_lt (Nat.zero_le _) hs.valid.current)

theorem presents_start (config : Config) : (start config).Presents := by
  have hsettled : (blank config).Settled := ⟨Arena.closed_empty, nofun⟩
  refine ⟨⟨0, deep_start config⟩, (moves_start config).settled hsettled, fun q scope hq => ?_⟩
  have hpackages : (start config).packages = ∅ := by
    rw [start_eq]
    split
    · obtain ⟨_, _, heq⟩ := addFunctionTypes_eq (blank config)
      rw [heq]
      rfl
    · rfl
  rw [hpackages] at hq
  cases hq

theorem Reachable.presents (hs : s.Reachable) : s.Presents :=
  hs.induction presents_start fun _ op ht => ht.perform op

theorem Presents.shows_of_lookup (hs : s.Presents) {q name : String} {source : Scope}
    {decl : DeclId} (hq : s.packages.get? q = some scope)
    (hsource : s.scopes.get? scope = some source) (hname : source.lookup name = some decl) :
    s.symbols.Shows s.arena decl := by
  obtain ⟨_, source', hsource', _, hall⟩ := hs.shown q scope hq
  obtain rfl := Option.some.inj (hsource.symm.trans hsource')
  exact hall decl ((hs.valid.sound scope source hsource).covered _ (Table.mem_of_find hname))

end Session

namespace Checker

theorem Tracks.build_of_analyze {c c' : Checker} (hc : c.Tracks) {lib : Library} {p : String}
    {a : Analysis} (h : c.analyze lib p = (.ok a, c')) :
    Universe.build c'.session.arena c'.session.symbols.types = .ok c'.univ := by
  have hstep := steps_perform c (.analyze lib p)
  rw [perform, h] at hstep
  rcases (analyze_univ h).2 with ⟨_, hsync⟩ | hbuild
  · exact (hc.steps hstep).inSync_iff.mp (hsync a rfl)
  · exact hbuild

end Checker

/-- In all sessions, whatever the scope of a known package binds is stored and is shown by the
symbol tables. After an analysis that succeeds, all aggregates among them can be encoded. -/
theorem visible_shown_and_encodable :
    (∀ s : Session, s.Reachable → ∀ p id, s.scopeOf? p = some id →
      ∃ scope, s.scopes.get? id = some scope ∧
        ∀ name decl, scope.lookup name = some decl → s.symbols.Shows s.arena decl) ∧
    ∀ c : Checker, c.Reachable → ∀ lib p a c', c.analyze lib p = (.ok a, c') →
      ∀ q id scope name decl, c'.session.scopeOf? q = some id →
        c'.session.scopes.get? id = some scope → scope.lookup name = some decl →
        c'.session.arena.isAggregate decl = true → ∃ d, c'.session.arena.get? decl = some d ∧
          c'.univ.arity? d.name = some d.type.params.length := by
  constructor
  · intro s hs p id hp
    obtain ⟨_, scope, hscope, _, _⟩ := hs.presents.shown p id hp
    exact ⟨scope, hscope, fun name decl => hs.presents.shows_of_lookup hp hscope⟩
  · intro c hc lib p a c' h q id scope name decl hq hscope hname hagg
    have hbuild := hc.tracks.build_of_analyze h
    have hreach : c'.session.Reachable := by
      rw [(Checker.analyze_univ h).1]
      exact hc.tracks.session.perform _
    have hshows := hreach.presents.shows_of_lookup hq hscope hname
    exact Universe.arity_of_build hbuild (hshows.mem_types hagg)

/-- `Top` cannot be analyzed, since one of its imports is missing; the other import, `Lib`, can. -/
def Library.palette : Library where
  isFile := ["./Top.bsv", "./Lib.bsv"].contains
  readings :=
    [{ package := some "Top"
       result := .ok (.ofEntries "Top" "" [.requires "Lib", .requires "Gone"]) },
     { package := some "Lib"
       result := .ok (.ofEntries "Lib" "" [
        .declares (.enumeration "Color" (.named "Color") ["Red", "Green"]),
        .declares (.aggregate .struct "P" (.applied "P" [.var "a"]) []),
        .declares { name := "f", type := .named "f", kind := .function }]) }]

/-- The types of `Lib` are encoded from the next analysis on that succeeds. -/
theorem visible_shown_and_encodable_palette :
    let c : Checker := { session := .start .here, univ := .of Universe.builtins }
    let failed := c.perform (.analyze .palette "Top")
    let c' := (failed.analyze .palette "Lib").2
    failed.univ.arity? "P" = none ∧ failed.Reachable ∧
      failed.analyze .palette "Lib" = (.ok .known, c') ∧
      ∃ scope, c'.session.scopeOf? "Lib" = some ⟨2⟩ ∧ c'.session.scopes.get? ⟨2⟩ = some scope ∧
        scope.lookup "P" = some ⟨3⟩ ∧ c'.session.symbols.Shows c'.session.arena ⟨3⟩ ∧
        ∃ d, c'.session.arena.get? ⟨3⟩ = some d ∧
          c'.univ.arity? d.name = some d.type.params.length := by
  intro c failed c'
  have hc : failed.Reachable :=
    ⟨.start .here, c, [.analyze .palette "Top"], ⟨.here, [], rfl⟩, rfl, rfl⟩
  have hknown : (failed.analyze .palette "Lib").1.toOption = some .known := by decide +kernel
  have h : failed.analyze .palette "Lib" = (.ok .known, c') := by
    cases hr : (failed.analyze .palette "Lib").1 with
    | error e =>
      rw [hr] at hknown
      cases hknown
    | ok a =>
      rw [hr] at hknown
      rw [← Option.some.inj hknown, ← hr]
  have hs : c'.session.Reachable := by
    rw [(Checker.analyze_univ h).1]
    exact hc.tracks.session.perform _
  have hid : c'.session.scopeOf? "Lib" = some ⟨2⟩ := by decide +kernel
  have hlookup : (c'.session.scopes.get? ⟨2⟩).bind (·.lookup "P") = some ⟨3⟩ := by decide +kernel
  obtain ⟨scope, hscope, hname⟩ := Option.bind_eq_some_iff.mp hlookup
  obtain ⟨hshown, hencodable⟩ := visible_shown_and_encodable
  obtain ⟨scope', hscope', hshows⟩ := hshown c'.session hs "Lib" ⟨2⟩ hid
  obtain rfl := Option.some.inj (hscope.symm.trans hscope')
  exact ⟨by decide +kernel, hc, h, scope, hid, hscope, hname, hshows "P" ⟨3⟩ hname,
    hencodable failed hc _ _ _ c' h "Lib" ⟨2⟩ scope "P" ⟨3⟩ hid hscope hname (by decide +kernel)⟩

end Bluespec
