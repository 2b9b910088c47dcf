import Bluespec.Proofs.CompletionOrder

namespace Bluespec

/-- A chain of imports leads from `p` to `q`, and no package on it is in `met`. -/
def Library.Leads (lib : Library) (config : Config) (met : Set String) (p q : String) : Prop :=
  p ∉ met ∧ Relation.ReflTransGen (fun a b => b ∈ lib.importsOf config a ∧ b ∉ met) p q

namespace Library.Leads

variable {lib : Library} {config : Config} {met known : Set String} {p q r : String}

theorem refl (lib : Library) (config : Config) (h : p ∉ met) : lib.Leads config met p p :=
  ⟨h, .refl⟩

theorem head (hp : p ∉ met) (hq : q ∈ lib.importsOf config p) (h : lib.Leads config met q r) :
    lib.Leads config met p r :=
  ⟨hp, .head ⟨hq, h.1⟩ h.2⟩

theorem mono (hsub : known ⊆ met) (h : lib.Leads config met p q) :
    lib.Leads config known p q :=
  ⟨fun hp => h.1 (hsub hp),
    Relation.ReflTransGen.mono (fun _ _ hs => ⟨hs.1, fun hb => hs.2 (hsub hb)⟩) _ _ h.2⟩

end Library.Leads

namespace Session

variable {lib : Library} {p : String} {s t u : Session} {d : Nat} {l k : List (String × Bool)}
  {ok : Bool}

theorem hasPackage_abandon (s : Session) (p : String) (caller : ScopeId) (q : String) :
    (s.abandon p caller).hasPackage q = true ↔ q ≠ p ∧ s.hasPackage q = true := by
  by_cases h : q = p <;> simp [abandon, hasPackage, Table.contains, h]

theorem hasPackage_declare (s : Session) (x : Spec) (q : String) :
    (s.declare x).2.hasPackage q = s.hasPackage q := by
  obtain ⟨_, _, hs⟩ := declare_eq s x
  rw [hs]
  rfl

theorem new_of_fetched {x : Except Error Package} (hf : (s.enter p).fetch lib p = (x, t))
    {scope : ScopeId} {q : String} (h : (t.cache p scope).hasPackage q = false) :
    q ≠ p ∧ s.hasPackage q = false := by
  rw [Bool.eq_false_iff, Ne, hasPackage_fetched hf, not_or] at h
  exact ⟨h.1, Bool.eq_false_iff.mpr h.2⟩

/-- What the log `l` of the calls that ended between `s` and `t` says about packages. All of them
were new, and those that succeeded are the ones that were added. -/
structure Logs (s : Session) (ok : Bool) (t : Session) (l : List (String × Bool)) : Prop where
  settled : ok = true → ∀ e ∈ l, e.2 = true
  new : ∀ e ∈ l, s.hasPackage e.1 = false
  cached : ∀ q, t.hasPackage q = true ↔ s.hasPackage q = true ∨ (q, true) ∈ l
  failed : ∀ q, (q, false) ∈ l → t.hasPackage q = false

theorem Logs.refl (s : Session) (ok : Bool) : Logs s ok s [] :=
  ⟨nofun, nofun, by simp, nofun⟩

theorem Logs.congr (h : Logs s ok t l) (hu : ∀ q, u.hasPackage q = t.hasPackage q) :
    Logs s ok u l :=
  ⟨h.settled, h.new, fun q => hu q ▸ h.cached q, fun q hq => hu q ▸ h.failed q hq⟩

theorem Logs.trans (hst : Logs s true t k) (htu : Logs t ok u l) : Logs s ok u (k ++ l) := by
  have hold : ∀ q, s.hasPackage q = true → t.hasPackage q = true :=
    fun q hq => (hst.cached q).mpr (.inl hq)
  refine ⟨fun hok e he => ?_, fun e he => ?_, fun q => ?_, fun q hq => ?_⟩
  · rcases List.mem_append.mp he with he | he
    · exact hst.settled rfl e he
    · exact htu.settled hok e he
  · rcases List.mem_append.mp he with he | he
    · exact hst.new e he
    · apply Bool.eq_false_iff.mpr
      intro hs
      exact Bool.false_ne_true ((htu.new e he).symm.trans (hold e.1 hs))
  · rw [htu.cached, hst.cached, List.mem_append, or_assoc]
  · rcases List.mem_append.mp hq with hq | hq
    · exact absurd (hst.settled rfl _ hq) Bool.false_ne_true
    · exact htu.failed q hq

section Close

variable {x : Except Error Package}

theorem Logs.ne_of_fetched (hf : (s.enter p).fetch lib p = (x, t))
    (h : Logs (t.cache p s.nextScope) ok u l) {e : String × Bool} (he : e ∈ l) :
    e.1 ≠ p ∧ s.hasPackage e.1 = false := new_of_fetched hf (h.new e he)

theorem Logs.new_of_fetched (hp : s.hasPackage p = false) (hf : (s.enter p).fetch lib p = (x, t))
    (h : Logs (t.cache p s.nextScope) ok u l) (b : Bool) :
    ∀ e ∈ l ++ [(p, b)], s.hasPackage e.1 = false := by
  intro e he
  rcases List.mem_append.mp he with he | he
  · exact (h.ne_of_fetched hf he).2
  · rw [List.mem_singleton.mp he]
    exact hp

theorem Logs.abandon (hp : s.hasPackage p = false) (hf : (s.enter p).fetch lib p = (x, t))
    (h : Logs (t.cache p s.nextScope) ok u l) (caller : ScopeId) :
    Logs s false (u.abandon p caller) (l ++ [(p, false)]) := by
  refine ⟨nofun, h.new_of_fetched hp hf false, fun q => ?_, fun q hq => ?_⟩
  · -- the package itself was cached on the way and is no more
    rw [hasPackage_abandon, h.cached, hasPackage_fetched hf]
    constructor
    · rintro ⟨hne, (rfl | hq) | hq⟩
      · exact absurd rfl hne
      · exact .inl hq
      · exact .inr (List.mem_append_left _ hq)
    · rintro (hq | hq)
      · refine ⟨?_, .inl (.inr hq)⟩
        rintro rfl
        exact Bool.false_ne_true (hp.symm.trans hq)
      · have hmem : (q, true) ∈ l := by simpa using hq
        exact ⟨(h.ne_of_fetched hf hmem).1, .inr hmem⟩
  · apply Bool.eq_false_iff.mpr
    rw [Ne, hasPackage_abandon]
    rintro ⟨hne, hu⟩
    rcases List.mem_append.mp hq with hq | hq
    · exact Bool.false_ne_true ((h.failed q hq).symm.trans hu)
    · exact hne (Prod.mk.inj (List.mem_singleton.mp hq)).1

theorem Logs.done (hp : s.hasPackage p = false) (hf : (s.enter p).fetch lib p = (x, t))
    (h : Logs (t.cache p s.nextScope) true u l) : Logs s true u (l ++ [(p, true)]) := by
  refine ⟨fun _ e he => ?_, h.new_of_fetched hp hf true, fun q => ?_, fun q hq => ?_⟩
  · rcases List.mem_append.mp he with he | he
    · exact h.settled rfl e he
    · rw [List.mem_singleton.mp he]
  · rw [h.cached, hasPackage_fetched hf, List.mem_append, List.mem_singleton, Prod.mk.injEq,
      and_iff_left rfl]
    tauto
  · have hmem : (q, false) ∈ l := by simpa using hq
    exact h.failed q hmem

end Close

mutual

theorem Analyzes.logs {p : String} {s : Session} {r : Except Error Analysis × Session} {d : Nat}
    {l : List (String × Bool)} : Analyzes lib p s r d l → Logs s r.1.isOk r.2 l
  | .known _ => .refl s true
  | .unread (t := t) h hf => by
    refine ((Logs.refl _ true).abandon h hf s.current).congr fun q => ?_
    rw [Bool.eq_iff_iff, hasPackage_abandon, hasPackage_abandon, hasPackage_cache]
    by_cases hq : q = p <;> simp [hq]
  | .broken h hf hw => hw.logs.abandon h hf s.current
  | .hidden h hf hw he => by
    obtain ⟨_, _, rfl⟩ := expose_eq he
    exact (hw.logs.abandon h hf s.current).congr fun _ => rfl
  | .done h hf hw he => by
    obtain ⟨_, _, rfl⟩ := expose_eq he
    exact (hw.logs.done h hf).congr fun _ => rfl

theorem Walks.logs {es : List Entry} {s : Session} {r : Except Error Unit × Session} {d : Nat}
    {l : List (String × Bool)} : Walks lib es s r d l → Logs s r.1.isOk r.2 l
  | .nil => .refl s true
  | .declares (x := x) hr => ((Logs.refl s true).congr (hasPackage_declare s x)).trans hr.logs
  | .requires h hr => h.logs.trans hr.logs
  | .fails h => h.logs

end

theorem Analyzes.hasPackage_of_ok {a : Analysis} (h : Analyzes lib p s (.ok a, t) d l) :
    t.hasPackage p = true := by
  apply (h.logs.cached p).mpr
  cases h with
  | known h => exact .inl h
  | done => exact .inr (List.mem_append_right _ List.mem_cons_self)

theorem Walks.hasPackage_of_requires {es : List Entry} (h : Walks lib es s (.ok (), t) d l)
    {q : String} (hq : .requires q ∈ es) : t.hasPackage q = true := by
  induction es generalizing s d l with
  | nil => cases hq
  | cons entry es ih =>
    cases h with
    | declares hr =>
      rcases List.mem_cons.mp hq with hq | hq
      · cases hq
      · exact ih hr hq
    | requires ha hr =>
      rcases List.mem_cons.mp hq with hq | hq
      · obtain rfl := Entry.requires.inj hq
        exact (hr.logs.cached q).mpr (.inl ha.hasPackage_of_ok)
      · exact ih hr hq

theorem mem_importsOf {y : Package} (hf : (s.enter p).fetch lib p = (.ok y, t)) {q : String} :
    q ∈ lib.importsOf s.config p ↔ .requires q ∈ y.items.map (·.entry) := by
  rw [importsOf_of_fetch hf, Package.mem_imports]

def known (s : Session) : Set String := {q | s.hasPackage q = true}

theorem not_mem_known (h : s.hasPackage p = false) : p ∉ s.known :=
  fun hp => Bool.false_ne_true (h.symm.trans hp)

theorem known_subset (h : KeepsPackages s t) : s.known ⊆ t.known := by
  intro q hq
  obtain ⟨id, hid⟩ := hasPackage_iff.mp hq
  exact hasPackage_iff.mpr ⟨id, h q id hid⟩

theorem leads_of_fetched {y : Package} (hp : s.hasPackage p = false)
    (hf : (s.enter p).fetch lib p = (.ok y, t)) {b : Bool}
    (hw : ∀ e ∈ l, ∃ q, .requires q ∈ y.items.map (·.entry) ∧
      lib.Leads (t.cache p s.nextScope).config (t.cache p s.nextScope).known q e.1) :
    ∀ e ∈ l ++ [(p, b)], lib.Leads s.config s.known p e.1 := by
  intro e he
  rcases List.mem_append.mp he with he | he
  · obtain ⟨q, hq, hleads⟩ := hw e he
    rw [(fetched_stores hf).2.2] at hleads
    refine .head (not_mem_known hp) ((mem_importsOf hf).mpr hq) (hleads.mono ?_)
    exact known_subset (keepsPackages_cache hp hf s.nextScope)
  · rw [List.mem_singleton.mp he]
    exact .refl lib s.config (not_mem_known hp)

mutual

theorem Analyzes.leads {p : String} {s : Session} {r : Except Error Analysis × Session} {d : Nat}
    {l : List (String × Bool)} :
    Analyzes lib p s r d l → ∀ e ∈ l, lib.Leads s.config s.known p e.1
  | .known _ => nofun
  | .unread h _ => by
    intro e he
    rw [List.mem_singleton.mp he]
    exact .refl lib s.config (not_mem_known h)
  | .broken h hf hw | .hidden h hf hw _ | .done h hf hw _ => leads_of_fetched h hf hw.leads

theorem Walks.leads {es : List Entry} {s : Session} {r : Except Error Unit × Session} {d : Nat}
    {l : List (String × Bool)} :
    Walks lib es s r d l → ∀ e ∈ l, ∃ q, .requires q ∈ es ∧ lib.Leads s.config s.known q e.1
  | .nil => nofun
  | .declares (x := x) hr => by
    intro e he
    obtain ⟨q, hq, hleads⟩ := hr.leads e he
    rw [(moves_declare s x).config_eq] at hleads
    exact ⟨q, List.mem_cons_of_mem _ hq, hleads.mono (known_subset (keepsPackages_declare s x))⟩
  | .requires h hr => by
    intro e he
    rcases List.mem_append.mp he with he | he
    · exact ⟨_, List.mem_cons_self, h.leads e he⟩
    · obtain ⟨q, hq, hleads⟩ := hr.leads e he
      rw [h.moves.config_eq] at hleads
      exact ⟨q, List.mem_cons_of_mem _ hq, hleads.mono (known_subset h.keepsPackages)⟩
  | .fails h => fun e he => ⟨_, List.mem_cons_self, h.leads e he⟩

end

/-- Each package that was completed has its imports in `t`. Those that it lacks have failed, and
the package was completed on their own way. -/
def ImportsKept (lib : Library) (config : Config) (t : Session) (l : List (String × Bool)) : Prop :=
  ∀ p q, (p, true) ∈ l → q ∈ lib.importsOf config p →
    t.hasPackage q = true ∨ ((q, false) ∈ l ∧ lib.Leads config ∅ q p)

theorem ImportsKept.abandon (h : ImportsKept lib s.config u l)
    (hleads : ∀ e ∈ l ++ [(p, false)], lib.Leads s.config s.known p e.1) (caller : ScopeId) :
    ImportsKept lib s.config (u.abandon p caller) (l ++ [(p, false)]) := by
  intro a q ha hq
  have hmem : (a, true) ∈ l := by simpa using ha
  by_cases hqp : q = p
  · subst hqp
    refine .inr ⟨List.mem_append_right _ List.mem_cons_self, ?_⟩
    exact (hleads (a, true) (List.mem_append_left _ hmem)).mono (Set.empty_subset _)
  · rcases h a q hmem hq with hu | ⟨hfailed, hback⟩
    · exact .inl ((hasPackage_abandon u p caller q).mpr ⟨hqp, hu⟩)
    · exact .inr ⟨List.mem_append_left _ hfailed, hback⟩

mutual

theorem Analyzes.importsKept {p : String} {s : Session} {r : Except Error Analysis × Session}
    {d : Nat} {l : List (String × Bool)} :
    Analyzes lib p s r d l → ImportsKept lib s.config r.2 l
  | .known _ => nofun
  | .unread _ _ => fun a q ha _ => by simp at ha
  | .broken h hf hw => by
    have hkept := hw.importsKept
    rw [(fetched_stores hf).2.2] at hkept
    exact hkept.abandon (leads_of_fetched h hf hw.leads) s.current
  | .hidden h hf hw he => by
    have hkept := hw.importsKept
    rw [(fetched_stores hf).2.2] at hkept
    obtain ⟨_, _, rfl⟩ := expose_eq he
    exact hkept.abandon (leads_of_fetched h hf hw.leads) s.current
  | .done h hf hw he => by
    have hkept := hw.importsKept
    rw [(fetched_stores hf).2.2] at hkept
    obtain ⟨_, _, rfl⟩ := expose_eq he
    intro a q ha hq
    rcases List.mem_append.mp ha with ha | ha
    · exact (hkept a q ha hq).imp_right fun hback => ⟨List.mem_append_left _ hback.1, hback.2⟩
    · obtain ⟨rfl, _⟩ := Prod.mk.inj (List.mem_singleton.mp ha)
      exact .inl (hw.hasPackage_of_requires ((mem_importsOf hf).mp hq))

theorem Walks.importsKept {es : List Entry} {s : Session} {r : Except Error Unit × Session}
    {d : Nat} {l : List (String × Bool)} :
    Walks lib es s r d l → ImportsKept lib s.config r.2 l
  | .nil => nofun
  | .declares (x := x) hr => (moves_declare s x).config_eq ▸ hr.importsKept
  | .requires h hr => by
    have hrest := hr.importsKept
    rw [h.moves.config_eq] at hrest
    intro a q ha hq
    rcases List.mem_append.mp ha with ha | ha
    · rcases h.importsKept a q ha hq with ht | ⟨hfailed, hback⟩
      · exact .inl ((hr.logs.cached q).mpr (.inl ht))
      · exact .inr ⟨List.mem_append_left _ hfailed, hback⟩
    · exact (hrest a q ha hq).imp_right fun hback => ⟨List.mem_append_right _ hback.1, hback.2⟩
  | .fails h => h.importsKept

end

theorem Analyzes.hasPackage_of_leads {a : Analysis} (h : Analyzes lib p s (.ok a, t) d l)
    {q : String} (hq : lib.Leads s.config s.known p q) : t.hasPackage q = true := by
  obtain ⟨hp, hchain⟩ := hq
  suffices hq : t.hasPackage q = true ∧ q ∉ s.known from hq.1
  induction hchain with
  | refl => exact ⟨h.hasPackage_of_ok, hp⟩
  | tail _ hstep ih =>
    obtain ⟨hb, hnew⟩ := ih
    refine ⟨?_, hstep.2⟩
    have hdone := ((h.logs.cached _).mp hb).resolve_left hnew
    rcases h.importsKept _ _ hdone hstep.1 with hc | ⟨hfailed, _⟩
    · exact hc
    · exact absurd (h.logs.settled rfl _ hfailed) Bool.false_ne_true

/-- An analysis keeps all packages in their scopes. If it succeeds, the packages are those from
before and all that imports lead to without passing one of them. If it fails, neither the package
nor any other that failed on the way is there, and those that are new have succeeded. -/
theorem packages_of_analyze (lib : Library) (s : Session) (p : String) :
    (∀ q id, s.packages.get? q = some id → (s.analyze lib p).2.packages.get? q = some id) ∧
    (∀ a t, s.analyze lib p = (.ok a, t) → ∀ q, t.hasPackage q = true ↔
      s.hasPackage q = true ∨ lib.Leads s.config {x | s.hasPackage x = true} p q) ∧
    (∀ e t, s.analyze lib p = (.error e, t) → ∃ d l, Analyzes lib p s (.error e, t) d l ∧
      (p, false) ∈ l ∧ (∀ q, (q, false) ∈ l → t.hasPackage q = false) ∧
      ∀ q, t.hasPackage q = true ↔ s.hasPackage q = true ∨ (q, true) ∈ l) := by
  obtain ⟨d, l, h⟩ := analyzes_analyze lib s p
  refine ⟨h.keepsPackages, fun a t ht q => ?_, fun e t ht => ?_⟩
  · rw [ht] at h
    constructor
    · intro hq
      exact ((h.logs.cached q).mp hq).imp_right (h.leads (q, true))
    · rintro (hq | hq)
      · exact (h.logs.cached q).mpr (.inl hq)
      · exact h.hasPackage_of_leads hq
  · rw [ht] at h
    refine ⟨d, l, h, ?_, h.logs.failed, h.logs.cached⟩
    cases h <;> simp

/-- `C` is there already. What imports lead to from `A` without passing `C` is `A` and `B`. -/
theorem packages_of_analyze_knot :
    let s := (fresh .here false).run [.analyze .knot "C"]
    s.packages.keys = ["C"] ∧ ∃ a t, s.analyze .knot "A" = (.ok a, t) ∧
      t.packages.keys = ["A", "B", "C"] ∧
      ∀ q, t.hasPackage q = true ↔ s.hasPackage q = true ∨
        Library.knot.Leads s.config {x | s.hasPackage x = true} "A" q := by
  intro s
  have hok : (s.analyze .knot "A").1.isOk = true := by decide +kernel
  have hkeys : (s.analyze .knot "A").2.packages.keys = ["A", "B", "C"] := by decide +kernel
  obtain ⟨a, ha⟩ := exists_eq_ok hok
  exact ⟨by decide +kernel, a, _, ha, hkeys, (packages_of_analyze .knot s "A").2.1 a _ ha⟩

end Session

end Bluespec
