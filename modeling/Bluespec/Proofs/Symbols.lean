import Bluespec.Symbols
import Bluespec.Proofs.Arena

namespace Bluespec

def Kind.isAggregate : Kind → Bool
  | struct | union | interface => true
  | _ => false

def Arena.isAggregate (a : Arena) (id : DeclId) : Bool := (a.get? id).any (·.kind.isAggregate)

theorem Arena.get_eq_ok {a : Arena} {id : DeclId} {d : Declaration} (h : a.get id = .ok d) :
    a.get? id = some d := by
  rw [get] at h
  split at h
  · rename_i hd
    rw [hd, Except.ok.inj h]
  · cases h

theorem Arena.Keeps.isAggregate_eq {a b : Arena} (h : Keeps a b) {id : DeclId}
    (hid : id.index < a.size) : b.isAggregate id = a.isAggregate id := by
  have hd : a.get? id = some _ := Array.getElem?_eq_getElem hid
  obtain ⟨parent, hb⟩ := h id _ hd
  rw [isAggregate, isAggregate, hb, hd]
  rfl

theorem Visitor.visitAll_preserves {σ : Type} {v : Visitor σ} {arena : Arena} {P : σ → Prop}
    (hP : ∀ id s, P s → P (v.visitOne arena id s).2) (ids : List DeclId) {s : σ} (hs : P s) :
    P (v.visitAll arena ids s).2 := by
  induction ids generalizing s with
  | nil => exact hs
  | cons id rest ih =>
    have hone := hP id s hs
    rw [visitAll]
    split
    · rename_i t ht
      rw [ht] at hone
      exact ih hone
    · rename_i e t ht
      rw [ht] at hone
      exact hone

namespace Callback

def indexes : Callback → Bool
  | declaration | method | synonym => false
  | _ => true

def listsType : Callback → Bool
  | struct | union | interface => true
  | _ => false

def listsValue : Callback → Bool
  | module | function => true
  | _ => false

end Callback

theorem Kind.isAggregate_of_callback? {k : Kind} {callback : Callback}
    (h : k.callback? = some callback) : k.isAggregate = callback.listsType := by
  cases k <;> cases h <;> rfl

namespace Symbols

/-- What symbol tables can be asked for, with the declarations that the ids are to be looked up
in. -/
inductive Call where
  | visit (arena : Arena) (callback : Callback) (id : DeclId)
  | addSynonym (arena : Arena) (id : DeclId)
  | addType (name : String) (id : DeclId)

namespace Call

def records? : Call → Option DeclId
  | visit _ callback id => if callback.indexes then some id else none
  | addSynonym .. => none
  | addType _ id => some id

def type? : Call → Option DeclId
  | visit arena callback id =>
    if callback.listsType && (arena.get? id).isSome then some id else none
  | addSynonym .. => none
  | addType _ id => some id

def value? : Call → Option DeclId
  | visit arena callback id =>
    if callback.listsValue && (arena.get? id).isSome then some id else none
  | addSynonym .. | addType .. => none

theorem records?_visit (arena : Arena) {callback : Callback} (id : DeclId)
    (hc : callback.indexes = true) : records? (.visit arena callback id) = some id :=
  if_pos hc

theorem records?_of_type? {c : Call} {id : DeclId} (h : c.type? = some id) :
    c.records? = some id := by
  cases c with
  | visit arena callback key => cases callback <;> simp_all [type?, records?, Callback.listsType,
      Callback.indexes]
  | addSynonym arena key => cases h
  | addType name key => exact h

theorem records?_of_value? {c : Call} {id : DeclId} (h : c.value? = some id) :
    c.records? = some id := by
  cases c with
  | visit arena callback key => cases callback <;> simp_all [value?, records?, Callback.listsValue,
      Callback.indexes]
  | addSynonym | addType => cases h

theorem value?_of_type? {c : Call} {id : DeclId} (h : c.type? = some id) : c.value? = none := by
  cases c with
  | visit arena callback key => cases callback <;> simp_all [type?, value?, Callback.listsType,
      Callback.listsValue]
  | addSynonym arena key => cases h
  | addType name key => rfl

end Call

def answer (s : Symbols) : Call → Except Error Unit × Symbols
  | .visit arena callback id => visitor arena callback id s
  | .addSynonym arena id =>
    match s.addSynonym arena id with
    | .ok t => (.ok (), t)
    | .error e => (.error e, s)
  | .addType name id => (.ok (), s.addType name id)

variable {arena : Arena} {id : DeclId} {s t : Symbols} {c : Call} {r : Except Error Unit}

theorem addMembers_eq (arena : Arena) (ids : List DeclId) (s : Symbols) :
    ∃ membersOf, (addMembers arena ids s).2 = { s with membersOf } := by
  induction ids generalizing s with
  | nil => exact ⟨s.membersOf, rfl⟩
  | cons id rest ih =>
    rw [addMembers]
    split
    · exact ⟨s.membersOf, rfl⟩
    · exact ih _

theorem enumOfTag?_addTag (s : Symbols) (tag name : String) (owner : DeclId) :
    (s.addTag tag owner).enumOfTag? name = if name = tag then some owner else s.enumOfTag? name :=
  Table.get?_insert s.enumOf tag name owner

def KeepsTags (s t : Symbols) : Prop :=
  ∀ tag, (s.enumOfTag? tag).isSome = true → (t.enumOfTag? tag).isSome = true

theorem keepsTags_addTag (s : Symbols) (tag : String) (owner : DeclId) :
    KeepsTags s (s.addTag tag owner) := by
  intro name h
  rw [enumOfTag?_addTag]
  by_cases hname : name = tag <;> simp [hname, h]

theorem addTags_eq (arena : Arena) (owner : DeclId) (ids : List DeclId) (s : Symbols) :
    ∃ enumOf, (addTags arena owner ids s).2 = { s with enumOf } ∧
      KeepsTags s (addTags arena owner ids s).2 := by
  induction ids generalizing s with
  | nil => exact ⟨s.enumOf, rfl, fun _ h => h⟩
  | cons id rest ih =>
    rw [addTags]
    split
    · exact ⟨s.enumOf, rfl, fun _ h => h⟩
    · rename_i d _
      obtain ⟨enumOf, heq, hkeeps⟩ := ih (s.addTag d.name (d.parent.getD owner))
      exact ⟨enumOf, heq, fun tag h => hkeeps tag (keepsTags_addTag s _ _ tag h)⟩

/-- One declaration is newly marked, and the lists go on with what is given for it. -/
structure Records (id : DeclId) (types values : List DeclId) (s t : Symbols) : Prop where
  indexed : t.indexed = id :: s.indexed
  types : t.types = s.types ++ types
  values : t.values = s.values ++ values
  tags : KeepsTags s t

theorem once_of_indexed (h : id ∈ s.indexed)
    (index : Declaration → Symbols → Except Error Unit × Symbols) :
    s.once arena id index = (.ok (), s) := if_pos h

theorem once_of_new {d : Declaration} (h : id ∉ s.indexed) (hd : arena.get? id = some d)
    (index : Declaration → Symbols → Except Error Unit × Symbols) :
    s.once arena id index = index d (s.mark id) := by
  simp only [once, if_neg h, Arena.get, hd]

theorem once_records (h : id ∉ s.indexed) {types values : List DeclId}
    {index : Declaration → Symbols → Except Error Unit × Symbols}
    (hmissing : arena.get? id = none → types = [] ∧ values = [])
    (hindex : ∀ d, arena.get? id = some d → Records id types values s (index d (s.mark id)).2) :
    Records id types values s (s.once arena id index).2 := by
  rw [once, if_neg h, Arena.get]
  cases hd : arena.get? id with
  | none =>
    obtain ⟨rfl, rfl⟩ := hmissing hd
    exact ⟨rfl, (List.append_nil _).symm, (List.append_nil _).symm, fun _ h => h⟩
  | some d => exact hindex d hd

theorem indexEnum_records (h : id ∉ s.indexed) :
    Records id [] [] s (s.indexEnum arena id).2 := by
  apply once_records h (fun _ => ⟨rfl, rfl⟩)
  intro d _
  obtain ⟨enumOf, heq, hkeeps⟩ := addTags_eq arena id d.members (s.mark id)
  rw [heq] at hkeeps ⊢
  exact ⟨rfl, (List.append_nil _).symm, (List.append_nil _).symm, hkeeps⟩

theorem indexAggregate_records (h : id ∉ s.indexed) :
    Records id (if (arena.get? id).isSome then [id] else []) [] s
      (s.indexAggregate arena id).2 := by
  apply once_records h
  · intro hd
    simp [hd]
  · intro d hd
    obtain ⟨membersOf, heq⟩ := addMembers_eq arena d.members ((s.mark id).appendType d.name id)
    rw [heq, hd]
    exact ⟨rfl, rfl, (List.append_nil _).symm, fun _ h => h⟩

theorem indexValue_records (h : id ∉ s.indexed) :
    Records id [] (if (arena.get? id).isSome then [id] else []) s (s.indexValue arena id).2 := by
  apply once_records h
  · intro hd
    simp [hd]
  · intro d hd
    rw [hd]
    exact ⟨rfl, (List.append_nil _).symm, rfl, fun _ h => h⟩

theorem answer_of_indexed (hc : c.records? = some id) (h : id ∈ s.indexed) :
    s.answer c = (.ok (), s) := by
  cases c with
  | visit arena callback key =>
    cases callback with
    | declaration | method | synonym => cases hc
    | enum | struct | union | interface | module | function =>
      obtain rfl := Option.some.inj hc
      simp only [answer, visitor]
      exact once_of_indexed h _
  | addSynonym arena key => cases hc
  | addType name key =>
    obtain rfl := Option.some.inj hc
    rw [answer, addType, if_pos h]

theorem answer_records (hc : c.records? = some id) (h : id ∉ s.indexed) :
    Records id c.type?.toList c.value?.toList s (s.answer c).2 := by
  cases c with
  | visit arena callback key =>
    cases callback with
    | declaration | method | synonym => cases hc
    | enum =>
      obtain rfl := Option.some.inj hc
      exact indexEnum_records h
    | struct | union | interface =>
      obtain rfl := Option.some.inj hc
      have hrecords : Records key _ _ s (s.indexAggregate arena key).2 := indexAggregate_records h
      by_cases hd : (arena.get? key).isSome = true <;>
        simpa [answer, visitor, Call.type?, Call.value?, Callback.listsType, Callback.listsValue,
          hd] using hrecords
    | module | function =>
      obtain rfl := Option.some.inj hc
      have hrecords : Records key _ _ s (s.indexValue arena key).2 := indexValue_records h
      by_cases hd : (arena.get? key).isSome = true <;>
        simpa [answer, visitor, Call.type?, Call.value?, Callback.listsType, Callback.listsValue,
          hd] using hrecords
  | addSynonym arena key => cases hc
  | addType name key =>
    obtain rfl := Option.some.inj hc
    have heq : (s.answer (.addType name key)).2 = (s.mark key).appendType name key := if_neg h
    rw [heq]
    exact ⟨rfl, rfl, (List.append_nil _).symm, fun _ h => h⟩

theorem answer_of_records?_none (hc : c.records? = none) :
    ∃ valueOf, (s.answer c).2 = { s with valueOf } := by
  cases c with
  | visit arena callback key =>
    cases callback with
    | declaration => exact ⟨s.valueOf, rfl⟩
    | method | synonym =>
      refine ⟨s.valueOf, ?_⟩
      simp only [answer, visitor, refuse]
      split <;> rfl
    | enum | struct | union | interface | module | function => cases hc
  | addSynonym arena key =>
    rw [answer, addSynonym]
    cases arena.get key with
    | error e => exact ⟨s.valueOf, rfl⟩
    | ok d => exact ⟨_, rfl⟩
  | addType name key => cases hc

/-- What a visit of a declaration can come to. It is indexed at most once; plain values are passed
over, and methods and synonyms are refused. -/
inductive Visits (arena : Arena) (id : DeclId) (s : Symbols) : Except Error Unit → Symbols → Prop
  | stops (e : Error) : Visits arena id s (.error e) s
  | passes {d : Declaration} (hd : arena.get? id = some d) (hk : d.kind = .value) :
    Visits arena id s (.ok ()) s
  | again {d : Declaration} (hd : arena.get? id = some d) (h : id ∈ s.indexed) :
    Visits arena id s (.ok ()) s
  | first {d : Declaration} {callback : Callback} {r : Except Error Unit} {t : Symbols}
      (hd : arena.get? id = some d) (hk : d.kind.callback? = some callback)
      (hc : callback.indexes = true) (hnew : id ∉ s.indexed)
      (h : s.answer (.visit arena callback id) = (r, t)) : Visits arena id s r t

theorem answer_refused {d : Declaration} {callback : Callback} (hd : arena.get id = .ok d)
    (hk : d.kind.callback? = some callback) (hc : callback.indexes = false) :
    ∃ e, s.answer (.visit arena callback id) = (.error e, s) := by
  cases callback with
  | declaration => cases hkind : d.kind <;> rw [hkind] at hk <;> cases hk
  | method | synonym => simp [answer, visitor, refuse, hd]
  | enum | struct | union | interface | module | function => cases hc

theorem visits_of_visitOne (h : (visitor arena).visitOne arena id s = (r, t)) :
    Visits arena id s r t := by
  have hone : (visitor arena).visitOne arena id s = (visitor arena).visitKind arena id s := rfl
  rw [hone, Visitor.visitKind] at h
  cases hd : arena.get id with
  | error e =>
    rw [hd] at h
    obtain ⟨rfl, rfl⟩ := Prod.mk.inj h
    exact .stops e
  | ok d =>
    have hget := Arena.get_eq_ok hd
    rw [hd] at h
    dsimp only at h
    cases hk : d.kind.callback? with
    | none =>
      rw [hk] at h
      obtain ⟨rfl, rfl⟩ := Prod.mk.inj h
      have hvalue : d.kind = .value := by cases hkind : d.kind <;> simp_all [Kind.callback?]
      exact .passes hget hvalue
    | some callback =>
      rw [hk] at h
      have hanswer : s.answer (.visit arena callback id) = (r, t) := h
      cases hc : callback.indexes with
      | true =>
        by_cases hmem : id ∈ s.indexed
        · rw [answer_of_indexed (Call.records?_visit arena id hc) hmem] at hanswer
          obtain ⟨rfl, rfl⟩ := Prod.mk.inj hanswer
          exact .again hget hmem
        · exact .first hget hk hc hmem hanswer
      | false =>
        obtain ⟨e, hrefused⟩ := answer_refused (s := s) hd hk hc
        obtain ⟨rfl, rfl⟩ := Prod.mk.inj (hrefused.symm.trans hanswer)
        exact .stops e

structure Marks (id : DeclId) (listed : Bool) (s t : Symbols) : Prop where
  new : id ∉ s.indexed
  indexed : t.indexed = id :: s.indexed
  types : t.types = if listed then s.types ++ [id] else s.types

/-- A visit does nothing, or it marks a declaration and lists it if it is an aggregate. Where it
succeeds without doing anything, there is no aggregate left to list. -/
theorem visitOne_cases (h : (visitor arena).visitOne arena id s = (r, t)) :
    (t = s ∧ (r = .ok () → id.index < arena.size ∧ (arena.isAggregate id → id ∈ s.indexed))) ∨
    (id.index < arena.size ∧ Marks id (arena.isAggregate id) s t) := by
  cases visits_of_visitOne h with
  | stops e => exact .inl ⟨rfl, nofun⟩
  | passes hd hk =>
    refine .inl ⟨rfl, fun _ => ⟨Arena.index_lt_size hd, fun hagg => ?_⟩⟩
    simp [Arena.isAggregate, hd, hk, Kind.isAggregate] at hagg
  | again hd hmem => exact .inl ⟨rfl, fun _ => ⟨Arena.index_lt_size hd, fun _ => hmem⟩⟩
  | @first d callback _ _ hd hk hc hnew hanswer =>
    have hrecords := answer_records (Call.records?_visit arena id hc) hnew
    rw [hanswer] at hrecords
    refine .inr ⟨Arena.index_lt_size hd, hnew, hrecords.indexed, ?_⟩
    have hagg : arena.isAggregate id = callback.listsType := by
      rw [Arena.isAggregate, hd]
      exact Kind.isAggregate_of_callback? hk
    rw [hrecords.types, hagg]
    cases hl : callback.listsType <;> simp [Call.type?, hl, hd]

theorem indexScope_preserves {P : Symbols → Prop}
    (hP : ∀ id s t, id.index < arena.size → Marks id (arena.isAggregate id) s t → P s → P t)
    (scopes : Scopes) (scope : ScopeId) (hs : P s) :
    P (s.indexScope arena scopes scope).2 := by
  rw [indexScope, Scopes.visit]
  split
  · exact hs
  · refine Visitor.visitAll_preserves (fun id s hs => ?_) _ hs
    cases hv : (visitor arena).visitOne arena id s with
    | mk r t =>
      rcases visitOne_cases hv with ⟨rfl, _⟩ | ⟨hsize, hmarks⟩
      · exact hs
      · exact hP id s t hsize hmarks hs

theorem Marks.types_extend {listed : Bool} (h : Marks id listed s t) : s.types <+: t.types := by
  rw [h.types]
  cases listed with
  | true => exact List.prefix_append _ _
  | false => exact List.prefix_refl _

/-- No type is listed twice, what is listed is marked, and what is marked exists. -/
structure Sound (arena : Arena) (s : Symbols) : Prop where
  nodup : s.types.Nodup
  marked : ∀ id ∈ s.types, id ∈ s.indexed
  present : ∀ id ∈ s.indexed, id.index < arena.size

theorem Sound.next_not_mem (hs : Sound arena s) : (⟨arena.size⟩ : DeclId) ∉ s.indexed :=
  fun hmem => Nat.lt_irrefl _ (hs.present _ hmem)

theorem Sound.marks {listed : Bool} (hs : Sound arena s) (hid : id.index < arena.size)
    (h : Marks id listed s t) : Sound arena t := by
  refine ⟨?_, ?_, ?_⟩
  · rw [h.types]
    cases listed with
    | true =>
      refine List.nodup_append.mpr ⟨hs.nodup, List.pairwise_singleton _ _, fun a ha b hb hab => ?_⟩
      rw [List.mem_singleton.mp hb] at hab
      exact h.new (hs.marked id (hab ▸ ha))
    | false => exact hs.nodup
  · intro a ha
    rw [h.indexed]
    rw [h.types] at ha
    cases listed with
    | true =>
      rcases List.mem_append.mp ha with ha | ha
      · exact List.mem_cons_of_mem _ (hs.marked a ha)
      · exact List.mem_singleton.mp ha ▸ List.mem_cons_self
    | false => exact List.mem_cons_of_mem _ (hs.marked a ha)
  · intro a ha
    rw [h.indexed] at ha
    rcases List.mem_cons.mp ha with rfl | ha
    · exact hid
    · exact hs.present a ha

def ValuesStored (arena : Arena) (s : Symbols) : Prop :=
  ∀ name id, s.value? name = some id → id.index < arena.size

def ValuesNamed (arena : Arena) (s : Symbols) : Prop :=
  ∀ name id, s.value? name = some id → ∃ d, arena.get? id = some d ∧ d.name = name

theorem ValuesNamed.stored (hs : ValuesNamed arena s) : ValuesStored arena s := by
  intro name id h
  obtain ⟨d, hd, _⟩ := hs name id h
  exact Arena.index_lt_size hd

theorem ValuesNamed.mono {later : Arena} (hs : ValuesNamed arena s) (h : arena.Keeps later) :
    ValuesNamed later s := by
  intro name id hid
  obtain ⟨d, hd, hname⟩ := hs name id hid
  obtain ⟨parent, hlater⟩ := h id d hd
  exact ⟨_, hlater, hname⟩

theorem ValuesNamed.insert (hs : ValuesNamed arena s) {d : Declaration}
    (hd : arena.get? id = some d) (h : t.valueOf = s.valueOf.insert d.name id) :
    ValuesNamed arena t := by
  intro key other hother
  rw [value?, h, Table.get?_insert] at hother
  split at hother
  · rename_i hkey
    exact ⟨d, Option.some.inj hother ▸ hd, hkey.symm⟩
  · exact hs key other hother

theorem ValuesNamed.once (hs : ValuesNamed arena s)
    {index : Declaration → Symbols → Except Error Unit × Symbols}
    (hindex : ∀ d, arena.get? id = some d → ValuesNamed arena (index d (s.mark id)).2) :
    ValuesNamed arena (s.once arena id index).2 := by
  rw [Symbols.once]
  split
  · exact hs
  · split
    · exact hs
    · rename_i d hd
      exact hindex d (Arena.get_eq_ok hd)

theorem ValuesNamed.visit (hs : ValuesNamed arena s) (callback : Callback) :
    ValuesNamed arena (visitor arena callback id s).2 := by
  cases callback with
  | declaration => exact hs
  | method | synonym =>
    simp only [visitor, refuse]
    split <;> exact hs
  | enum =>
    refine hs.once fun d _ => ?_
    obtain ⟨enumOf, heq, _⟩ := addTags_eq arena id d.members (s.mark id)
    rw [heq]
    exact hs
  | struct | union | interface =>
    refine hs.once fun d _ => ?_
    obtain ⟨membersOf, heq⟩ := addMembers_eq arena d.members ((s.mark id).appendType d.name id)
    rw [heq]
    exact hs
  | module | function => exact hs.once fun d hd => ValuesNamed.insert hs hd rfl

theorem ValuesNamed.indexScope (hs : ValuesNamed arena s) (scopes : Scopes) (scope : ScopeId) :
    ValuesNamed arena (s.indexScope arena scopes scope).2 := by
  rw [Symbols.indexScope, Scopes.visit]
  split
  · exact hs
  · refine Visitor.visitAll_preserves (fun id s hs => ?_) _ hs
    cases hv : (visitor arena).visitOne arena id s with
    | mk r t =>
      cases visits_of_visitOne hv with
      | stops | passes | again => exact hs
      | @first _ callback _ _ _ _ _ _ hanswer =>
        have hvisit : ValuesNamed arena (s.answer (.visit arena callback id)).2 :=
          hs.visit callback
        rw [hanswer] at hvisit
        exact hvisit

theorem marks_addType (h : id ∉ s.indexed) (name : String) :
    Marks id true s (s.addType name id) := by
  rw [addType, if_neg h]
  exact ⟨h, rfl, rfl⟩

end Symbols

end Bluespec
