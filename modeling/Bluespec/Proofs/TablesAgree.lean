import Bluespec.Proofs.Growth
import Bluespec.Proofs.Storage

namespace Bluespec

namespace Arena

def isNamed (a : Arena) (name : String) (id : DeclId) : Bool := (a.get? id).any (·.name = name)

def membersNamed (a : Arena) (name : String) (id : DeclId) : List DeclId :=
  ((a.get? id).map (·.members)).getD [] |>.filter (a.isNamed name)

def HasTag (a : Arena) (id : DeclId) (name : String) : Prop :=
  ∃ d tag t, a.get? id = some d ∧ d.kind = .enum ∧ tag ∈ d.members ∧
    a.get? tag = some t ∧ t.name = name ∧ t.parent = some id

def Extends (a b : Arena) : Prop := ∀ id, id.index < a.size → b.get? id = a.get? id

/-- No member is listed twice, and all members know who lists them. -/
structure Linked (a : Arena) : Prop where
  nodup : ∀ id d, a.get? id = some d → d.members.Nodup
  parent : ∀ id d m, a.get? id = some d → m ∈ d.members →
    ∃ e, a.get? m = some e ∧ e.parent = some id

variable {a b : Arena} {id : DeclId} {d : Declaration} {name : String}

theorem Extends.get? (h : Extends a b) (hd : a.get? id = some d) : b.get? id = some d :=
  (h id (index_lt_size hd)).trans hd

theorem Extends.isNamed_eq (h : Extends a b) (hid : id.index < a.size) (name : String) :
    b.isNamed name id = a.isNamed name id := by
  rw [isNamed, isNamed, h id hid]

theorem Linked.lt_size (ha : a.Linked) (hd : a.get? id = some d) {m : DeclId}
    (hm : m ∈ d.members) : m.index < a.size := by
  obtain ⟨e, he, _⟩ := ha.parent id d m hd hm
  exact index_lt_size he

theorem linked_empty : Linked ∅ := by
  constructor <;> intro id d <;> simp [EmptyCollection.emptyCollection, empty, get?]

theorem extends_push (a : Arena) (d : Declaration) : Extends a (a.push d).2 :=
  fun id hid => (get?_push a d id).trans (if_neg (Nat.ne_of_lt hid))

theorem extends_add (a : Arena) (spec : Spec) : Extends a (a.add spec).2 :=
  fun _ hid => get?_add_of_lt hid spec

theorem Linked.extend (ha : a.Linked) (h : Extends a b)
    (hnew : ∀ id d, a.size ≤ id.index → b.get? id = some d → d.members.Nodup ∧
      ∀ m ∈ d.members, ∃ e, b.get? m = some e ∧ e.parent = some id) : b.Linked := by
  have hold : ∀ id d, id.index < a.size → b.get? id = some d → a.get? id = some d :=
    fun id d hid hd => (h id hid).symm.trans hd
  constructor
  · intro id d hd
    by_cases hid : id.index < a.size
    · exact ha.nodup id d (hold id d hid hd)
    · exact (hnew id d (Nat.le_of_not_lt hid) hd).1
  · intro id d m hd hm
    by_cases hid : id.index < a.size
    · obtain ⟨e, he, hparent⟩ := ha.parent id d m (hold id d hid hd) hm
      exact ⟨e, h.get? he, hparent⟩
    · exact (hnew id d (Nat.le_of_not_lt hid) hd).2 m hm

theorem Linked.add (ha : a.Linked) (spec : Spec) : (a.add spec).2.Linked := by
  refine ha.extend (extends_add a spec) fun id d hid hd => ⟨nodup_members_of_add hid hd, ?_⟩
  intro m hm
  exact (parent_of_mem_members hid hd hm).2

theorem Linked.push (ha : a.Linked) (hd : d.members = []) : (a.push d).2.Linked := by
  refine ha.extend (extends_push a d) fun id e hid he => ?_
  have hmembers : e.members = [] := by
    rw [get?_push] at he
    split at he
    · rw [← Option.some.inj he]
      simp [hd]
    · exact absurd (index_lt_size he) (Nat.not_lt_of_le hid)
  rw [hmembers]
  exact ⟨List.nodup_nil, nofun⟩

/-- A member belongs to one declaration only, so the lists of different ones have nothing in
common. -/
theorem Linked.nodup_flatMap (ha : a.Linked) {ids : List DeclId} (hids : ids.Nodup)
    (name : String) : (ids.flatMap (a.membersNamed name)).Nodup := by
  have hmem : ∀ id m, m ∈ a.membersNamed name id →
      ∃ d, a.get? id = some d ∧ m ∈ d.members := by
    intro id m hm
    obtain ⟨hm, _⟩ := List.mem_filter.mp hm
    cases hd : a.get? id with
    | none => simp [hd] at hm
    | some d => exact ⟨d, rfl, by simpa [hd] using hm⟩
  refine List.nodup_flatMap.mpr ⟨fun id _ => ?_, hids.imp fun {id other} hne m hm hm' => ?_⟩
  · refine List.Nodup.filter _ ?_
    cases hd : a.get? id with
    | none => exact List.nodup_nil
    | some d => exact ha.nodup id d hd
  · obtain ⟨d, hd, hin⟩ := hmem id m hm
    obtain ⟨d', hd', hin'⟩ := hmem other m hm'
    obtain ⟨e, he, hparent⟩ := ha.parent id d m hd hin
    obtain ⟨e', he', hparent'⟩ := ha.parent other d' m hd' hin'
    obtain rfl := Option.some.inj (he.symm.trans he')
    exact hne (Option.some.inj (hparent.symm.trans hparent'))

theorem isNamed_of_get? (hd : a.get? id = some d) : a.isNamed name id = decide (d.name = name) := by
  rw [isNamed, hd]
  rfl

theorem membersNamed_of_get? (hd : a.get? id = some d) :
    a.membersNamed name id = d.members.filter (a.isNamed name) := by
  rw [membersNamed, hd]
  rfl

theorem HasTag.extend (ha : a.HasTag id name) (h : Extends a b) : b.HasTag id name := by
  obtain ⟨d, tag, t, hd, hk, hmem, ht, hname, hparent⟩ := ha
  exact ⟨d, tag, t, h.get? hd, hk, hmem, h.get? ht, hname, hparent⟩

theorem Linked.membersNamed_eq (ha : a.Linked) (h : Extends a b) (hid : id.index < a.size)
    (name : String) : b.membersNamed name id = a.membersNamed name id := by
  obtain ⟨d, hd⟩ := exists_get? hid
  rw [membersNamed_of_get? hd, membersNamed_of_get? (h.get? hd)]
  exact List.filter_congr fun m hm => h.isNamed_eq (ha.lt_size hd hm) name

end Arena

namespace Symbols

/-- The tables can be told from the lists and the declarations. -/
structure Agrees (arena : Arena) (s : Symbols) : Prop where
  types : ∀ name, s.type? name = (s.types.filter (arena.isNamed name)).getLast?
  members : ∀ name, s.membersCalled name = s.types.flatMap (arena.membersNamed name)
  tags : ∀ name id, s.enumOfTag? name = some id → arena.HasTag id name
  values : ∀ name id, s.value? name = some id →
    id ∈ s.values ∨ ∃ d, arena.get? id = some d ∧ d.kind.isSynonym = true

variable {arena : Arena} {id : DeclId} {ids : List DeclId} {s t : Symbols} {d : Declaration}

theorem agrees_empty (arena : Arena) : Agrees arena ∅ :=
  ⟨fun _ => rfl, fun _ => rfl, nofun, nofun⟩

theorem Agrees.extend {later : Arena} (hs : s.Agrees arena) (hsound : s.Sound arena)
    (ha : arena.Linked) (h : arena.Extends later) : s.Agrees later := by
  have hsize : ∀ id ∈ s.types, id.index < arena.size :=
    fun id hid => hsound.present id (hsound.marked id hid)
  constructor
  · intro name
    rw [hs.types, List.filter_congr fun id hid => h.isNamed_eq (hsize id hid) name]
  · intro name
    rw [hs.members]
    exact List.flatMap_congr fun id hid => (ha.membersNamed_eq h (hsize id hid) name).symm
  · intro name id hid
    exact (hs.tags name id hid).extend h
  · intro name id hid
    refine (hs.values name id hid).imp_right ?_
    rintro ⟨d, hd, hk⟩
    exact ⟨d, h.get? hd, hk⟩

theorem Agrees.appendType (hs : s.Agrees arena) (hd : arena.get? id = some d)
    (htypes : t.types = s.types ++ [id]) (htypeOf : t.typeOf = s.typeOf.insert d.name id)
    (hmembers : ∀ name, t.membersCalled name = s.membersCalled name ++ arena.membersNamed name id)
    (htags : t.enumOf = s.enumOf) (hvalueOf : t.valueOf = s.valueOf)
    (hvalues : t.values = s.values) : t.Agrees arena := by
  constructor
  · intro name
    have hold := hs.types name
    rw [type?] at hold
    rw [type?, htypeOf, Table.get?_insert, htypes, List.filter_append]
    by_cases hname : name = d.name
    · simp [Arena.isNamed_of_get? hd, hname]
    · simp [Arena.isNamed_of_get? hd, hname, Ne.symm hname, hold]
  · intro name
    rw [hmembers, hs.members, htypes, List.flatMap_append, List.flatMap_singleton]
  · intro name key hkey
    rw [enumOfTag?, htags] at hkey
    exact hs.tags name key hkey
  · intro name key hkey
    rw [value?, hvalueOf] at hkey
    rw [hvalues]
    exact hs.values name key hkey

theorem membersCalled_addMember (s : Symbols) (name key : String) (id : DeclId) :
    (s.addMember name id).membersCalled key =
      if key = name then s.membersCalled key ++ [id] else s.membersCalled key := by
  rw [membersCalled, addMember, Table.get?_insert]
  by_cases h : key = name <;> simp [h, membersCalled]

theorem membersCalled_addMembers (hids : ∀ m ∈ ids, m.index < arena.size) (s : Symbols)
    (name : String) : (addMembers arena ids s).2.membersCalled name =
      s.membersCalled name ++ ids.filter (arena.isNamed name) := by
  induction ids generalizing s with
  | nil => simp [addMembers]
  | cons m rest ih =>
    obtain ⟨e, he⟩ := Arena.exists_get? (hids m List.mem_cons_self)
    have hrest := ih (fun key hkey => hids key (List.mem_cons_of_mem _ hkey))
    simp only [addMembers, Arena.get, he]
    rw [hrest, membersCalled_addMember, List.filter_cons, Arena.isNamed_of_get? he]
    by_cases hname : name = e.name
    · simp [hname]
    · simp [hname, Ne.symm hname]

theorem addTags_hasTag (ha : arena.Linked) (hd : arena.get? id = some d) (hk : d.kind = .enum)
    (hids : ∀ m ∈ ids, m ∈ d.members)
    (hs : ∀ name key, s.enumOfTag? name = some key → arena.HasTag key name) :
    ∀ name key, (addTags arena id ids s).2.enumOfTag? name = some key → arena.HasTag key name := by
  induction ids generalizing s with
  | nil => exact hs
  | cons tag rest ih =>
    have htag : tag ∈ d.members := hids tag List.mem_cons_self
    obtain ⟨t, ht, hparent⟩ := ha.parent id d tag hd htag
    simp only [addTags, Arena.get, ht]
    refine ih (fun m hm => hids m (List.mem_cons_of_mem _ hm)) fun name key hkey => ?_
    rw [enumOfTag?_addTag, hparent] at hkey
    split at hkey
    · rename_i hname
      obtain rfl := Option.some.inj hkey
      exact ⟨d, tag, t, hd, hk, htag, ht, hname.symm, hparent⟩
    · exact hs name key hkey

theorem Agrees.mark (hs : s.Agrees arena) (id : DeclId) : (s.mark id).Agrees arena :=
  ⟨hs.types, hs.members, hs.tags, hs.values⟩

theorem Agrees.indexEnum (hs : s.Agrees arena) (ha : arena.Linked) (hd : arena.get? id = some d)
    (hk : d.kind = .enum) (hnew : id ∉ s.indexed) : (s.indexEnum arena id).2.Agrees arena := by
  rw [Symbols.indexEnum, once_of_new hnew hd]
  have htags := addTags_hasTag ha hd hk (fun _ hm => hm) (hs.mark id).tags
  obtain ⟨enumOf, heq, _⟩ := addTags_eq arena id d.members (s.mark id)
  rw [heq] at htags ⊢
  exact ⟨hs.types, hs.members, htags, hs.values⟩

theorem Agrees.indexAggregate (hs : s.Agrees arena) (ha : arena.Linked)
    (hd : arena.get? id = some d) (hnew : id ∉ s.indexed) :
    (s.indexAggregate arena id).2.Agrees arena := by
  rw [Symbols.indexAggregate, once_of_new hnew hd]
  have hmembers := membersCalled_addMembers (fun m hm => ha.lt_size hd hm)
    ((s.mark id).appendType d.name id)
  obtain ⟨membersOf, heq⟩ := addMembers_eq arena d.members ((s.mark id).appendType d.name id)
  rw [heq] at hmembers ⊢
  refine hs.appendType hd rfl rfl (fun name => ?_) rfl rfl rfl
  rw [Arena.membersNamed_of_get? hd]
  exact hmembers name

theorem Agrees.indexValue (hs : s.Agrees arena) (hd : arena.get? id = some d)
    (hnew : id ∉ s.indexed) : (s.indexValue arena id).2.Agrees arena := by
  rw [Symbols.indexValue, once_of_new hnew hd]
  refine ⟨hs.types, hs.members, hs.tags, fun name key hkey => ?_⟩
  rw [value?, appendValue, Table.get?_insert] at hkey
  split at hkey
  · obtain rfl := Option.some.inj hkey
    exact .inl (List.mem_append_right _ (List.mem_singleton.mpr rfl))
  · exact (hs.values name key hkey).imp_left (List.mem_append_left _)

theorem Agrees.visitOne (hs : s.Agrees arena) (ha : arena.Linked) (id : DeclId) :
    ((visitor arena).visitOne arena id s).2.Agrees arena := by
  cases hv : (visitor arena).visitOne arena id s with
  | mk r t =>
    cases visits_of_visitOne hv with
    | stops | passes | again => exact hs
    | @first d callback _ _ hd hk hc hnew hanswer =>
      obtain rfl : (s.answer (.visit arena callback id)).2 = t := by rw [hanswer]
      cases hkind : d.kind with
      | enum =>
        rw [hkind] at hk
        obtain rfl := Option.some.inj hk
        exact hs.indexEnum ha hd hkind hnew
      | struct | union | interface =>
        rw [hkind] at hk
        obtain rfl := Option.some.inj hk
        exact hs.indexAggregate ha hd hnew
      | module | function =>
        rw [hkind] at hk
        obtain rfl := Option.some.inj hk
        exact hs.indexValue hd hnew
      | method | synonym _ =>
        rw [hkind] at hk
        obtain rfl := Option.some.inj hk
        cases hc
      | value =>
        rw [hkind] at hk
        cases hk

theorem Agrees.indexScope (hs : s.Agrees arena) (ha : arena.Linked) (scopes : Scopes)
    (scope : ScopeId) : (s.indexScope arena scopes scope).2.Agrees arena := by
  rw [Symbols.indexScope, Scopes.visit]
  split
  · exact hs
  · exact Visitor.visitAll_preserves (fun id s hs => hs.visitOne ha id) _ hs

end Symbols

namespace Session

variable {s t : Session}

structure Agreeing (s : Session) : Prop where
  linked : s.arena.Linked
  sound : s.symbols.Sound s.arena
  agrees : s.symbols.Agrees s.arena

theorem Agreeing.addFunctionType (hs : s.Agreeing) (arity : Nat) :
    (s.addFunctionType arity).symbols.Agrees (s.addFunctionType arity).arena := by
  have hextends := Arena.extends_push s.arena
    ⟨(functionType arity).name, functionType arity, .global, .value, [], none⟩
  have hnew := (Arena.get?_push s.arena
    ⟨(functionType arity).name, functionType arity, .global, .value, [], none⟩
    ⟨s.arena.size⟩).trans (if_pos rfl)
  have hsymbols : (s.addFunctionType arity).symbols =
      (s.symbols.mark ⟨s.arena.size⟩).appendType (functionType arity).name ⟨s.arena.size⟩ :=
    if_neg hs.sound.next_not_mem
  rw [hsymbols]
  refine (hs.agrees.extend hs.sound hs.linked hextends).appendType hnew rfl rfl (fun name => ?_)
    rfl rfl rfl
  rw [Arena.membersNamed_of_get? hnew]
  exact (List.append_nil _).symm

theorem Agreeing.move (hs : s.Agreeing) (h : Move s t) : t.Agreeing := by
  have hsound := h.symbols_sound hs.sound
  cases h with
  | note | push | bind | merge => exact ⟨hs.linked, hsound, hs.agrees⟩
  | store spec =>
    exact ⟨hs.linked.add spec, hsound,
      hs.agrees.extend hs.sound hs.linked (Arena.extends_add s.arena spec)⟩
  | synonym id hd hk =>
    refine ⟨hs.linked, hsound, hs.agrees.types, hs.agrees.members, hs.agrees.tags, ?_⟩
    intro name key hkey
    rw [Symbols.value?, Symbols.enterSynonym, Table.get?_insert] at hkey
    split at hkey
    · obtain rfl := Option.some.inj hkey
      exact .inr ⟨_, hd, hk⟩
    · exact hs.agrees.values name key hkey
  | index scope => exact ⟨hs.linked, hsound, hs.agrees.indexScope hs.linked s.scopes scope⟩
  | functionType arity => exact ⟨hs.linked.push rfl, hsound, hs.addFunctionType arity⟩

theorem Reachable.agreeing (hs : s.Reachable) : s.Agreeing :=
  hs.moves_induction
    (fun _ => ⟨Arena.linked_empty, ⟨List.nodup_nil, nofun, nofun⟩, Symbols.agrees_empty _⟩)
    fun _ _ hm ht => ht.move hm

/-- In all sessions, whatever was done and whichever of it failed, the tables say no more than the
lists: a type name stands for the last type listed under it, the members of a name are those of all
types in their order, tags belong to the enumerations that list them, and what is known as a value
is listed, or it is a synonym. -/
theorem tables_agree_with_lists {s : Session} (hs : s.Reachable) (name : String) :
    s.symbols.type? name = (s.symbols.types.filter (s.arena.isNamed name)).getLast? ∧
    (s.symbols.membersCalled name = s.symbols.types.flatMap (s.arena.membersNamed name) ∧
      (s.symbols.membersCalled name).Nodup) ∧
    (∀ id, s.symbols.enumOfTag? name = some id → s.arena.HasTag id name) ∧
    (∀ id, s.symbols.value? name = some id → ∃ d, s.arena.get? id = some d ∧ d.name = name ∧
      (id ∈ s.symbols.values ∨ d.kind.isSynonym = true)) := by
  have hagreeing := hs.agreeing
  have hmembers := hagreeing.agrees.members name
  refine ⟨hagreeing.agrees.types name, ⟨hmembers, ?_⟩, hagreeing.agrees.tags name, fun id hid => ?_⟩
  · rw [hmembers]
    exact hagreeing.linked.nodup_flatMap hagreeing.sound.nodup name
  · obtain ⟨d, hd, hname⟩ := hs.valuesNamed name id hid
    refine ⟨d, hd, hname, (hagreeing.agrees.values name id hid).imp_right ?_⟩
    rintro ⟨e, he, hk⟩
    obtain rfl := Option.some.inj (hd.symm.trans he)
    exact hk

/-- A struct and a union of one name, a method that is refused, an enumeration that is never
reached, and a synonym with the name of a function. -/
def rivals : List Op :=
  [.declare (.aggregate .struct "P" (.named "P") [("x", .named "Bool"), ("y", .named "Bool")]),
    .declare { name := "f", type := .named "f", kind := .function },
    .declare (.aggregate .union "P" (.named "P") [("x", .named "String")]),
    .declare { name := "m", type := .named "m", binding := .method, kind := .method },
    .declare (.enumeration "Color" (.named "Color") ["x"]),
    .indexScope, .declare (.synonym (.named "f") (.named "P"))]

/-- The union comes last and takes the name, while the members of both remain. -/
theorem tables_agree_with_lists_rivals :
    let s := (start .here).run rivals
    s.Reachable ∧ s.symbols.types = [⟨2⟩, ⟨5⟩] ∧ s.symbols.type? "P" = some ⟨5⟩ ∧
      s.symbols.membersCalled "x" = [⟨0⟩, ⟨4⟩] ∧ s.symbols.enumOfTag? "x" = none ∧
      s.symbols.values = [⟨3⟩] ∧ ∃ d, s.arena.get? ⟨9⟩ = some d ∧ d.name = "f" ∧
        ((⟨9⟩ : DeclId) ∈ s.symbols.values ∨ d.kind.isSynonym = true) := by
  intro s
  have hs : s.Reachable := ⟨.here, rivals, rfl⟩
  have htypes : s.symbols.types = [⟨2⟩, ⟨5⟩] := by decide +kernel
  have hvalue : s.symbols.value? "f" = some ⟨9⟩ := by decide +kernel
  obtain ⟨htype, _⟩ := tables_agree_with_lists hs "P"
  obtain ⟨_, ⟨hmembers, _⟩, _⟩ := tables_agree_with_lists hs "x"
  obtain ⟨_, _, _, hvalues⟩ := tables_agree_with_lists hs "f"
  rw [htypes] at htype hmembers
  refine ⟨hs, htypes, htype.trans ?_, hmembers.trans ?_, ?_, ?_, hvalues ⟨9⟩ hvalue⟩ <;>
    decide +kernel

end Session

end Bluespec
