import Bluespec.Proofs.ImportClosure

namespace Bluespec

namespace Scope

variable {s target source : Scope} {name : String} {decl : DeclId}

/-- The name is bound to the declaration, or to one that was bound after it. -/
def Covers (s : Scope) (name : String) (decl : DeclId) : Prop :=
  ∃ earlier later last, s.history = earlier ++ decl :: later ∧ s.lookup name = some last ∧
    (last = decl ∨ last ∈ later)

theorem covers_bind (s : Scope) (name : String) (decl : DeclId) :
    (s.bind name decl).Covers name decl :=
  ⟨s.history, [], decl, rfl, by simp [lookup_bind], .inl rfl⟩

theorem Covers.bind (h : s.Covers name decl) (other : String) (d : DeclId) :
    (s.bind other d).Covers name decl := by
  obtain ⟨earlier, later, last, hhistory, hlookup, hlast⟩ := h
  have hlonger : (s.bind other d).history = earlier ++ decl :: (later ++ [d]) := by
    simp [Scope.bind, hhistory]
  by_cases hname : name = other
  · exact ⟨earlier, later ++ [d], d, hlonger, by simp [lookup_bind, hname], .inr (by simp)⟩
  · refine ⟨earlier, later ++ [d], last, hlonger, by simp [lookup_bind, hname, hlookup], ?_⟩
    exact hlast.imp_right (List.mem_append_left _)

theorem Covers.bindAll (h : s.Covers name decl) (entries : List (String × DeclId)) :
    (entries.foldl (fun s (name, decl) => s.bind name decl) s).Covers name decl := by
  induction entries generalizing s with
  | nil => exact h
  | cons e rest ih => exact ih (h.bind e.1 e.2)

theorem covers_bindAll (s : Scope) {entries : List (String × DeclId)}
    (h : (name, decl) ∈ entries) :
    (entries.foldl (fun s (name, decl) => s.bind name decl) s).Covers name decl := by
  induction entries generalizing s with
  | nil => cases h
  | cons e rest ih =>
    rcases List.mem_cons.mp h with rfl | h
    · exact (covers_bind s name decl).bindAll rest
    · exact ih (s.bind e.1 e.2) h

theorem covers_absorb (target : Scope) (h : source.lookup name = some decl) :
    (target.absorb source).Covers name decl :=
  covers_bindAll target (Table.mem_of_find h)

end Scope

namespace Session

variable {lib : Library} {config : Config} {p q : String} {s t u : Session}
  {d : Nat} {k l : List (String × Bool)} {root : ScopeId} {asked : String → Prop}

theorem Move.covers (h : Move s t) {id : ScopeId} {a : Scope} (ha : s.scopes.get? id = some a) :
    ∃ b, t.scopes.get? id = some b ∧ ∀ name decl, a.Covers name decl → b.Covers name decl := by
  cases h with
  | note | store | synonym | index | functionType => exact ⟨a, ha, fun _ _ hc => hc⟩
  | push name parent hp =>
    refine ⟨a, ?_, fun _ _ hc => hc⟩
    rw [Scopes.get?_push, if_neg (Nat.ne_of_lt (Scopes.index_lt_size ha)), ha]
  | bind name decl =>
    by_cases hid : s.current.index = id.index
    · refine ⟨a.bind name decl, ?_, fun _ _ hc => hc.bind name decl⟩
      exact (Scopes.get?_modify _ _ _ _).trans (by simp [hid, ha])
    · refine ⟨a, ?_, fun _ _ hc => hc⟩
      exact (Scopes.get?_modify _ _ _ _).trans (by simp [hid, ha])
  | @merge target source u hm =>
    by_cases hid : id = target
    · subst hid
      obtain ⟨incoming, receiving, _, hr, _, rfl⟩ := Scopes.merge_eq_ok hm
      obtain rfl : a = receiving := Option.some.inj (ha.symm.trans hr)
      exact ⟨a.absorb incoming, Scopes.get?_set_self (Scopes.index_lt_size ha) _,
        fun _ _ hc => hc.bindAll incoming.bindings.entries⟩
    · exact ⟨a, (Scopes.get?_merge_of_ne hm hid).trans ha, fun _ _ hc => hc⟩

theorem Moves.covers (h : Moves s t) {id : ScopeId} {a : Scope} (ha : s.scopes.get? id = some a) :
    ∃ b, t.scopes.get? id = some b ∧ ∀ name decl, a.Covers name decl → b.Covers name decl := by
  refine h.preserves (P := fun u => ∃ b, u.scopes.get? id = some b ∧
    ∀ name decl, a.Covers name decl → b.Covers name decl) ?_ ⟨a, ha, fun _ _ hc => hc⟩
  rintro u v hm ⟨b, hb, hcovers⟩
  obtain ⟨c, hc, hlater⟩ := hm.covers hb
  exact ⟨c, hc, fun name decl ha => hlater name decl (hcovers name decl ha)⟩

def NewScopes (s t : Session) : Prop :=
  ∀ q id, t.packages.get? q = some id → s.packages.get? q = some id ∨ s.scopes.size ≤ id.index

theorem NewScopes.trans (hst : NewScopes s t) (htu : NewScopes t u)
    (hsize : s.scopes.size ≤ t.scopes.size) : NewScopes s u := by
  intro q id hq
  rcases htu q id hq with hq | hq
  · exact hst q id hq
  · exact .inr (hsize.trans hq)

theorem newScopes_of_eq (h : t.packages = s.packages) : NewScopes s t :=
  fun _ _ hq => .inl (h ▸ hq)

theorem NewScopes.abandon (h : NewScopes s t) (p : String) (caller : ScopeId) :
    NewScopes s (t.abandon p caller) := by
  intro q id hq
  by_cases hqp : q = p
  · simp [Session.abandon, hqp] at hq
  · simp [Session.abandon, hqp] at hq
    exact h q id hq

theorem newScopes_fetched {x : Except Error Package} (hf : (s.enter p).fetch lib p = (x, t)) :
    NewScopes s (t.cache p s.nextScope) := by
  intro q id hq
  by_cases hqp : q = p
  · simp [cache, hqp] at hq
    exact .inr (hq ▸ Nat.le_refl _)
  · simp [cache, hqp, packages_of_fetch hf] at hq
    exact .inl hq

mutual

theorem Analyzes.newScopes {p : String} {s : Session} {r : Except Error Analysis × Session}
    {d : Nat} {l : List (String × Bool)} : Analyzes lib p s r d l → NewScopes s r.2
  | .known _ => newScopes_of_eq rfl
  | .unread _ hf => (newScopes_of_eq (packages_of_fetch hf)).abandon p s.current
  | .broken _ hf hw =>
    ((newScopes_fetched hf).trans hw.newScopes (moves_fetched hf _).size_le).abandon p s.current
  | .hidden _ hf hw he => by
    obtain ⟨_, _, rfl⟩ := expose_eq he
    exact ((newScopes_fetched hf).trans hw.newScopes (moves_fetched hf _).size_le).abandon p
      s.current
  | .done _ hf hw he => by
    obtain ⟨_, _, rfl⟩ := expose_eq he
    exact (newScopes_fetched hf).trans hw.newScopes (moves_fetched hf _).size_le

theorem Walks.newScopes {es : List Entry} {s : Session} {r : Except Error Unit × Session}
    {d : Nat} {l : List (String × Bool)} : Walks lib es s r d l → NewScopes s r.2
  | .nil => newScopes_of_eq rfl
  | .declares (x := x) hr => by
    obtain ⟨_, _, hs⟩ := declare_eq s x
    exact (newScopes_of_eq (by rw [hs])).trans hr.newScopes (moves_declare s x).size_le
  | .requires h hr => h.newScopes.trans hr.newScopes h.moves.size_le
  | .fails h => h.newScopes

end

/-- All that the scope of a package binds, the receiving scope covers. -/
def Exposed (t : Session) (q : String) (receiver : ScopeId) : Prop :=
  ∃ id source target, t.packages.get? q = some id ∧ t.scopes.get? id = some source ∧
    t.scopes.get? receiver = some target ∧
    ∀ name decl, source.lookup name = some decl → target.Covers name decl

theorem Exposed.later (h : Exposed t q root) (hm : Moves t u) (hk : KeepsPackages t u)
    (hsame : ∀ id, t.packages.get? q = some id → id.index < t.scopes.size →
      u.scopes.get? id = t.scopes.get? id) : Exposed u q root := by
  obtain ⟨id, source, target, hid, hsource, htarget, hcovers⟩ := h
  obtain ⟨target', htarget', hlater⟩ := hm.covers htarget
  refine ⟨id, source, target', hk q id hid, ?_, htarget', fun name decl hname => ?_⟩
  · exact (hsame id hid (Scopes.index_lt_size hsource)).trans hsource
  · exact hlater name decl (hcovers name decl hname)

/-- A package is exposed to the scope `root`, if it was asked for there, or else to a package that
imports it. -/
def Received (lib : Library) (config : Config) (root : ScopeId) (asked : String → Prop)
    (t : Session) (l : List (String × Bool)) (q : String) : Prop :=
  asked q ∧ Exposed t q root ∨
    ∃ p own, (p, true) ∈ l ∧ q ∈ lib.importsOf config p ∧ t.packages.get? p = some own ∧
      Exposed t q own

theorem Received.later (h : Received lib config root asked t k q) (hm : Moves t u)
    (hk : KeepsPackages t u) (hsame : ∀ id, t.packages.get? q = some id →
      id.index < t.scopes.size → u.scopes.get? id = t.scopes.get? id)
    {wanted : String → Prop} (hasked : asked q → wanted q)
    (hl : ∀ p, (p, true) ∈ k → (p, true) ∈ l) : Received lib config root wanted u l q := by
  rcases h with ⟨ha, h⟩ | ⟨p, own, hp, hq, hown, h⟩
  · exact .inl ⟨hasked ha, h.later hm hk hsame⟩
  · exact .inr ⟨p, own, hl p hp, hq, hk p own hown, h.later hm hk hsame⟩

theorem NewScopes.ne_current (h : NewScopes s t) (hs : s.Valid) (hq : s.hasPackage q = false)
    {id : ScopeId} (hid : t.packages.get? q = some id) : id ≠ s.current := by
  rintro rfl
  rcases h q s.current hid with hold | hsize
  · rw [hasPackage_iff.mpr ⟨_, hold⟩] at hq
    cases hq
  · exact Nat.not_lt_of_le hsize hs.current

theorem Analyzes.exposed_of_done {y : Package} (hs : s.Valid)
    (h : Analyzes lib p s (.ok (.done y), t) d l) : Exposed t p s.current := by
  obtain ⟨own, before, hown, _, _, hlast, hmerge⟩ := h.merge_of_done hs
  obtain ⟨incoming, receiving, hi, hr, _, hset⟩ := Scopes.merge_eq_ok hmerge
  refine ⟨own, incoming, receiving.absorb incoming, hown, hlast.symm.trans hi, ?_,
    fun _ _ => Scope.covers_absorb receiving⟩
  rw [hset]
  exact Scopes.get?_set_self (Scopes.index_lt_size hr) _

theorem received_of_done {y : Package} {v : Session} (hs : s.Valid)
    (hf : (s.enter p).fetch lib p = (.ok y, t))
    (hw : Walks lib (y.items.map (·.entry)) (t.cache p s.nextScope) (.ok (), u) d l)
    (he : u.expose s.nextScope s.current = (.ok (), v)) (hq : (q, true) ∈ l)
    (h : Received lib s.config s.nextScope (.requires · ∈ y.items.map (·.entry)) u l q) :
    Received lib s.config s.current (· = p) (v.leave s.current) (l ++ [(p, true)]) q := by
  have hm : Moves u (v.leave s.current) := (moves_expose he).trans (moves_leave v s.current)
  have hk : KeepsPackages u (v.leave s.current) :=
    (keepsPackages_expose he).trans (keepsPackages_of_eq rfl)
  have hown : u.packages.get? p = some s.nextScope :=
    hw.keepsPackages p s.nextScope (by simp [cache])
  have hsame : ∀ id, u.packages.get? q = some id → id.index < u.scopes.size →
      (v.leave s.current).scopes.get? id = u.scopes.get? id := by
    intro id hid _
    have hne : id ≠ s.current := by
      rcases hw.newScopes q id hid with hold | hsize
      · have hnew := hw.logs.new _ hq
        rw [hasPackage_iff.mpr ⟨id, hold⟩] at hnew
        cases hnew
      · rintro rfl
        exact Nat.not_lt_of_le ((moves_fetched hf s.nextScope).size_le.trans hsize) hs.current
    obtain ⟨_, _, _, hmerge, rfl⟩ := expose_eq_ok he
    exact Scopes.get?_merge_of_ne hmerge hne
  rcases h with ⟨ha, h⟩ | ⟨a, own, ha, hi, hown', h⟩
  · exact .inr ⟨p, s.nextScope, List.mem_append_right _ List.mem_cons_self,
      (mem_importsOf hf).mpr ha, hk _ _ hown, h.later hm hk hsame⟩
  · exact .inr ⟨a, own, List.mem_append_left _ ha, hi, hk _ _ hown', h.later hm hk hsame⟩

mutual

theorem Analyzes.received {p : String} {s : Session} {r : Except Error Analysis × Session}
    {d : Nat} {l : List (String × Bool)} (hs : s.Valid) :
    Analyzes lib p s r d l → r.1.isOk = true → ∀ q, (q, true) ∈ l →
      Received lib s.config s.current (· = p) r.2 l q
  | .known _, _ => nofun
  | .unread _ _, hok | .broken _ _ _, hok | .hidden _ _ _ _, hok => nomatch hok
  | .done (t := t) h hf hw he, _ => by
    have hnext : t.current = s.nextScope := current_fetched hf
    have hcurrent : (t.cache p s.nextScope).current = s.nextScope := hnext
    intro q hq
    rcases List.mem_append.mp hq with hq | hq
    · have hin := hw.received (valid_fetched hs hf) rfl q hq
      rw [(fetched_stores hf).2.2, hcurrent] at hin
      exact received_of_done hs hf hw he hq hin
    · obtain ⟨rfl, _⟩ := Prod.mk.inj (List.mem_singleton.mp hq)
      exact .inl ⟨rfl, (Analyzes.done h hf hw he).exposed_of_done hs⟩

theorem Walks.received {es : List Entry} {s : Session} {r : Except Error Unit × Session}
    {d : Nat} {l : List (String × Bool)} (hs : s.Valid) :
    Walks lib es s r d l → r.1.isOk = true → ∀ q, (q, true) ∈ l →
      Received lib s.config s.current (.requires · ∈ es) r.2 l q
  | .nil, _ => nofun
  | .declares (x := x) hr, hok => by
    intro q hq
    have hdeclared : (s.declare x).2.Valid := hs.perform (.declare x)
    have hrest := hr.received hdeclared hok q hq
    rw [(moves_declare s x).config_eq, current_declare s x] at hrest
    exact hrest.imp_left fun hroot => ⟨List.mem_cons_of_mem _ hroot.1, hroot.2⟩
  | .requires h hr, hok => by
    intro q hq
    have ht := h.moves.valid h.current_eq hs
    rcases List.mem_append.mp hq with hq | hq
    · refine (h.received hs rfl q hq).later hr.moves hr.keepsPackages (fun id hid hsize => ?_)
        (fun heq => heq ▸ List.mem_cons_self) fun a ha => List.mem_append_left _ ha
      -- the rest of the walk writes the current scope and new ones only
      refine hr.frames ht id hsize ?_
      rw [h.current_eq]
      exact h.newScopes.ne_current hs (h.logs.new _ hq) hid
    · have hrest := hr.received ht hok q hq
      rw [h.moves.config_eq, h.current_eq] at hrest
      rcases hrest with ⟨ha, he⟩ | ⟨a, own, ha, hrest⟩
      · exact .inl ⟨List.mem_cons_of_mem _ ha, he⟩
      · exact .inr ⟨a, own, List.mem_append_right _ ha, hrest⟩
  | .fails _, hok => nomatch hok

end

/-- When packages were analyzed one after the other in a new session, and all of them without an
error, each package is exposed to one of those that asked for it, the session itself or a package
that imports it. So an import exposes a package to its importer if no one else asks for it. -/
theorem imports_exposed_to_asker {config : Config} {again : Bool} {lib : Library}
    {packages : List String} {t : Session}
    (h : (fresh config again).analyzeAll lib packages = (.ok (), t)) :
    (∀ q, t.hasPackage q = true → q ∈ packages ∧ Exposed t q t.current ∨
      ∃ p own, q ∈ lib.importsOf config p ∧ t.packages.get? p = some own ∧ Exposed t q own) ∧
    ∀ p q, t.hasPackage p = true → q ∈ lib.importsOf config p → q ∉ packages →
      (∀ x, t.hasPackage x = true → q ∈ lib.importsOf config x → x = p) →
      ∃ own, t.packages.get? p = some own ∧ Exposed t q own := by
  obtain ⟨d, l, hw⟩ := walks_analyzeAll lib packages (fresh config again)
  rw [h] at hw
  have hconfig : (fresh config again).config = config := (fresh_stores config again).2.2.2
  have hdone : ∀ q, t.hasPackage q = true → (q, true) ∈ l := by
    intro q hq
    refine ((hw.logs.cached q).mp hq).resolve_left fun hold => ?_
    rw [not_hasPackage_fresh] at hold
    cases hold
  have hall : ∀ q, t.hasPackage q = true → q ∈ packages ∧ Exposed t q t.current ∨
      ∃ p own, q ∈ lib.importsOf config p ∧ t.packages.get? p = some own ∧ Exposed t q own := by
    intro q hq
    have hreceived := hw.received (ready_fresh config again).valid rfl q (hdone q hq)
    rw [hconfig, ← hw.current_eq] at hreceived
    rcases hreceived with ⟨ha, he⟩ | ⟨p, own, _, hi, hown, he⟩
    · exact .inl ⟨by simpa using ha, he⟩
    · exact .inr ⟨p, own, hi, hown, he⟩
  refine ⟨hall, fun p q hp hq hasked hsole => ?_⟩
  have hkept := hw.importsKept
  rw [hconfig] at hkept
  have hcached : t.hasPackage q = true :=
    (hkept p q (hdone p hp) hq).resolve_right fun hfailed =>
      Bool.false_ne_true (hw.logs.settled rfl _ hfailed.1)
  rcases hall q hcached with ⟨ha, _⟩ | ⟨x, own, hi, hown, he⟩
  · exact absurd ha hasked
  · obtain rfl := hsole x (hasPackage_iff.mpr ⟨own, hown⟩) hi
    exact ⟨own, hown, he⟩

end Session

namespace Session

/-- Alone, `A` has the names of `C`. -/
theorem imports_exposed_to_asker_shared :
    ((fresh .here false).analyzeAll .shared ["A"]).1 = .ok () ∧
    ∃ own, ((fresh .here false).analyzeAll .shared ["A"]).2.packages.get? "A" = some own ∧
      Exposed ((fresh .here false).analyzeAll .shared ["A"]).2 "C" own := by
  have hok : ((fresh .here false).analyzeAll .shared ["A"]).1 = .ok () := by decide +kernel
  refine ⟨hok, (imports_exposed_to_asker (Prod.ext hok rfl)).2 "A" "C" ?_ ?_ ?_ ?_⟩
  · decide +kernel
  · decide +kernel
  · decide
  · intro x hx hi
    rcases (Library.importsOf_shared hi).1 with rfl | rfl
    · rfl
    · exact absurd hx (by decide +kernel)

/-- After `A` has received the names of `C`, the import of `C` gives `B` nothing. -/
theorem names_missing_shared :
    let t := ((fresh .here false).analyzeAll .shared ["A", "B"]).2
    Library.shared.Acyclic .here ∧
    ((fresh .here false).analyzeAll .shared ["A", "B"]).1 = .ok () ∧
    "C" ∈ Library.importsOf .shared .here "B" ∧
    t.packages.get? "C" = some ⟨2⟩ ∧ (t.scopes.get? ⟨2⟩).map (·.lookup "R") = some (some ⟨0⟩) ∧
    t.packages.get? "B" = some ⟨3⟩ ∧ (t.scopes.get? ⟨3⟩).map (·.lookup "R") = some none := by
  intro t
  exact ⟨Library.acyclic_shared, by decide +kernel, by decide +kernel, by decide +kernel,
    by decide +kernel, by decide +kernel, by decide +kernel⟩

end Session

end Bluespec
