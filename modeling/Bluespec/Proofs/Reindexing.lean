import Bluespec.Proofs.Calls
import Bluespec.Proofs.Indexing

namespace Bluespec

def Declaration.verdict (d : Declaration) : Except Error Unit :=
  match d.kind with
  | .method => .error (.refused "package context" "method" d.name)
  | .synonym _ => .error (.refused "package context" "typedef" d.name)
  | _ => .ok ()

namespace Arena

variable {arena : Arena}

def verdict (arena : Arena) (id : DeclId) : Except Error Unit :=
  match arena.get id with
  | .error e => .error e
  | .ok d => d.verdict

theorem verdict_of_get? {id : DeclId} {d : Declaration} (hd : arena.get? id = some d) :
    arena.verdict id = d.verdict := by
  rw [verdict, get, hd]

theorem verdict_cases {id : DeclId} (hid : id.index < arena.size) :
    arena.verdict id = .ok () ∨
      ∃ variant name, arena.verdict id = .error (.refused "package context" variant name) := by
  obtain ⟨d, hd⟩ := exists_get? hid
  rw [verdict_of_get? hd, Declaration.verdict]
  split
  · exact .inr ⟨_, _, rfl⟩
  · exact .inr ⟨_, _, rfl⟩
  · exact .inl rfl

theorem verdicts_cases {ids : List DeclId} (hids : ∀ id ∈ ids, id.index < arena.size) :
    forM ids arena.verdict = .ok () ∨ ∃ variant name,
      forM ids arena.verdict = .error (.refused "package context" variant name) := by
  induction ids with
  | nil => exact .inl rfl
  | cons id rest ih =>
    rw [List.forM_cons]
    obtain hok | ⟨variant, name, herror⟩ := verdict_cases (hids id List.mem_cons_self)
    · rw [hok]
      exact ih fun key hkey => hids key (List.mem_cons_of_mem _ hkey)
    · rw [herror]
      exact .inr ⟨variant, name, rfl⟩

end Arena

namespace Symbols

variable {arena : Arena} {id : DeclId} {ids : List DeclId} {s t u : Symbols}

theorem addTags_fst (hids : ∀ m ∈ ids, m.index < arena.size) (owner : DeclId) (s : Symbols) :
    (addTags arena owner ids s).1 = .ok () := by
  induction ids generalizing s with
  | nil => rfl
  | cons id rest ih =>
    obtain ⟨d, hd⟩ := Arena.exists_get? (hids id List.mem_cons_self)
    simp only [addTags, Arena.get, hd]
    exact ih (fun m hm => hids m (List.mem_cons_of_mem _ hm)) _

theorem addMembers_fst (hids : ∀ m ∈ ids, m.index < arena.size) (s : Symbols) :
    (addMembers arena ids s).1 = .ok () := by
  induction ids generalizing s with
  | nil => rfl
  | cons id rest ih =>
    obtain ⟨d, hd⟩ := Arena.exists_get? (hids id List.mem_cons_self)
    simp only [addMembers, Arena.get, hd]
    exact ih (fun m hm => hids m (List.mem_cons_of_mem _ hm)) _

theorem once_fst {d : Declaration} (hd : arena.get? id = some d)
    {index : Declaration → Symbols → Except Error Unit × Symbols}
    (hindex : (index d (s.mark id)).1 = .ok ()) : (s.once arena id index).1 = .ok () := by
  by_cases h : id ∈ s.indexed
  · rw [once_of_indexed h]
  · rw [once_of_new h hd, hindex]

theorem visitOne_eq {d : Declaration} {callback : Callback} (hd : arena.get? id = some d)
    (hk : d.kind.callback? = some callback) (s : Symbols) :
    (visitor arena).visitOne arena id s = s.answer (.visit arena callback id) := by
  simp only [Visitor.visitOne, visitor, Visitor.visitKind, Arena.get, hd, hk, answer]

/-- Whether a declaration is let in depends on it alone and not on what is indexed, as long as no
member is missing. -/
theorem visitOne_fst (ha : arena.Closed) (id : DeclId) (s : Symbols) :
    ((visitor arena).visitOne arena id s).1 = arena.verdict id := by
  cases hd : arena.get? id with
  | none => simp [Visitor.visitOne, visitor, Visitor.visitKind, Arena.get, hd, Arena.verdict]
  | some d =>
    rw [Arena.verdict_of_get? hd, Declaration.verdict]
    cases hk : d.kind with
    | value =>
      simp [Visitor.visitOne, visitor, Visitor.visitKind, Arena.get, hd, hk, Kind.callback?]
    | method | synonym _ =>
      rw [visitOne_eq hd (by rw [hk]; rfl)]
      simp [answer, visitor, refuse, Arena.get, hd]
    | enum =>
      rw [visitOne_eq hd (by rw [hk]; rfl)]
      exact once_fst hd (addTags_fst (ha id d hd) id _)
    | struct | union | interface =>
      rw [visitOne_eq hd (by rw [hk]; rfl)]
      exact once_fst hd (addMembers_fst (ha id d hd) _)
    | module | function =>
      rw [visitOne_eq hd (by rw [hk]; rfl)]
      exact once_fst hd rfl

theorem visitOne_again {r : Except Error Unit} (ha : arena.Closed)
    (h : (visitor arena).visitOne arena id s = (r, t))
    (hsub : ∀ key ∈ t.indexed, key ∈ u.indexed) :
    (visitor arena).visitOne arena id u = (r, u) := by
  have hr : ((visitor arena).visitOne arena id u).1 = r := by
    rw [visitOne_fst ha, ← visitOne_fst ha id s, h]
  cases hv : (visitor arena).visitOne arena id u with
  | mk q v =>
    rw [hv] at hr
    obtain rfl : q = r := hr
    cases visits_of_visitOne hv with
    | stops | passes | again => rfl
    | first hd hk hc hnew =>
      -- the declaration is of a kind that is indexed, so it was marked by the other visit
      have hmarked : id ∈ (s.answer (.visit arena _ id)).2.indexed :=
        indexed_answer (Call.records?_visit arena id hc)
      rw [← visitOne_eq hd hk, h] at hmarked
      exact absurd (hsub id hmarked) hnew

theorem visitAll_fst (ha : arena.Closed) (ids : List DeclId) (s : Symbols) :
    ((visitor arena).visitAll arena ids s).1 = forM ids arena.verdict := by
  induction ids generalizing s with
  | nil => rfl
  | cons id rest ih =>
    rw [Visitor.visitAll, List.forM_cons, ← visitOne_fst ha id s]
    cases hv : (visitor arena).visitOne arena id s with
    | mk q t =>
      cases q with
      | error e => rfl
      | ok _ => exact ih t

theorem visitAll_again {r : Except Error Unit} (ha : arena.Closed)
    (h : (visitor arena).visitAll arena ids s = (r, t))
    (hsub : ∀ key ∈ t.indexed, key ∈ u.indexed) :
    (visitor arena).visitAll arena ids u = (r, u) := by
  induction ids generalizing s with
  | nil =>
    obtain ⟨rfl, _⟩ := Prod.mk.inj h
    rfl
  | cons id rest ih =>
    rw [Visitor.visitAll] at h
    cases hv : (visitor arena).visitOne arena id s with
    | mk q v =>
      rw [hv] at h
      cases q with
      | error e =>
        obtain ⟨rfl, rfl⟩ := Prod.mk.inj h
        rw [Visitor.visitAll, visitOne_again ha hv hsub]
      | ok _ =>
        have hrest : (visitor arena).visitAll arena rest v = (r, t) := h
        have hone : (visitor arena).visitOne arena id u = (.ok (), u) :=
          visitOne_again ha hv fun key hkey => hsub key ((visitAll_indexed hrest).1 key hkey)
        rw [Visitor.visitAll, hone]
        exact ih hrest

theorem mem_indexed_run (ops : List Op) (h : id ∈ s.indexed) : id ∈ (s.run ops).indexed := by
  rw [run_eq_answers]
  exact mem_indexed_answers _ h

theorem indexScope_eq {scopes : Scopes} {scope : ScopeId} {source : Scope}
    (h : scopes.get? scope = some source) (arena : Arena) (s : Symbols) :
    s.indexScope arena scopes scope = (visitor arena).visitAll arena source.history s := by
  rw [indexScope, Scopes.visit, Scopes.get_of_get? h]

/-- Once a scope was indexed, to its end or up to a declaration that is refused, doing so again
gives the same answer and changes nothing, whatever operations there were in between. -/
theorem indexScope_absorbed {arena : Arena} (ha : arena.Closed) (s : Symbols)
    (scopes later : Scopes) (scope : ScopeId) (hsame : later.get? scope = scopes.get? scope)
    (ops : List Op) :
    let first := s.indexScope arena scopes scope
    let between := first.2.run ops
    between.indexScope arena later scope = (first.1, between) ∧
    ∀ source, scopes.get? scope = some source → (∀ id ∈ source.history, id.index < arena.size) →
      first.1 = .ok () ∨
        ∃ variant name, first.1 = .error (.refused "package context" variant name) := by
  intro first between
  cases hscope : scopes.get? scope with
  | none =>
    have hmissing : ∀ t : Scopes, t.get? scope = none → ∀ u : Symbols,
        u.indexScope arena t scope = (.error (.missingScope scope), u) := by
      intro t ht u
      simp only [indexScope, Scopes.visit, Scopes.get, ht]
    refine ⟨?_, fun source hsource => ?_⟩
    · rw [hmissing later (hsame.trans hscope)]
      simp only [first, hmissing scopes hscope]
    · cases hsource
  | some source =>
    have hfirst : first = (visitor arena).visitAll arena source.history s :=
      indexScope_eq hscope arena s
    refine ⟨?_, fun source' hsource' hids => ?_⟩
    · rw [indexScope_eq (hsame.trans hscope)]
      exact visitAll_again ha hfirst.symm fun key hkey => mem_indexed_run ops hkey
    · obtain rfl := Option.some.inj hsource'
      rw [hfirst, visitAll_fst ha]
      exact Arena.verdicts_cases hids

/-- The struct `P` is indexed before the method is refused. Another type of that name comes up, and
the second attempt does not bring the struct back. -/
theorem indexScope_absorbed_loose :
    let scopes : Scopes := ⟨#[⟨"A", ∅, [⟨0⟩, ⟨1⟩, ⟨2⟩], none⟩]⟩
    let refused : Except Error Unit := .error (.refused "package context" "method" "m")
    let first := (∅ : Symbols).indexScope loose scopes ⟨0⟩
    let between := first.2.run [.call (.addType "P" ⟨2⟩)]
    loose.Closed ∧ first.1 = refused ∧
      first.2.type? "P" = some ⟨0⟩ ∧ between.type? "P" = some ⟨2⟩ ∧
      between.indexScope loose scopes ⟨0⟩ = (refused, between) := by
  intro scopes refused first between
  have hclosed : loose.Closed := Arena.closed_empty.addAll _
  have hfirst : first.1 = refused := by rfl
  obtain ⟨hagain, _⟩ :=
    indexScope_absorbed hclosed ∅ scopes scopes ⟨0⟩ rfl [.call (.addType "P" ⟨2⟩)]
  exact ⟨hclosed, hfirst, by decide, by decide, hfirst ▸ hagain⟩

end Symbols

end Bluespec
