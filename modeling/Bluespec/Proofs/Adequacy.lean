import Bluespec.Proofs.Evaluation
import Mathlib.Data.Finset.Card

namespace Bluespec

theorem Library.imports_of_parse {lib : Library} {p path : String} {tree : Package}
    (h : lib.parse p path = .ok tree) {q : String} (hq : q ∈ tree.imports) : q ∈ lib.imports := by
  rw [parse] at h
  split at h
  · cases h
  · rename_i r hr
    have hmem : r ∈ lib.readings := List.mem_reverse.mp (List.mem_of_find?_eq_some hr)
    exact List.mem_flatMap.mpr ⟨r, hmem, by rw [Reading.imports, h]; exact hq⟩

theorem Library.parse_of_read {lib : Library} {config : Config} {p : String} {tree : Package}
    (h : lib.read config p = .ok tree) : ∃ path, lib.parse p path = .ok tree := by
  rw [read] at h
  split at h
  · cases h
  · rename_i path _
    exact ⟨path, h⟩

theorem Package.mem_imports {tree : Package} {q : String} :
    q ∈ tree.imports ↔ .requires q ∈ tree.items.map (·.entry) := by
  simp only [Package.imports, List.mem_filterMap, List.mem_map]
  constructor
  · rintro ⟨item, hi, hr⟩
    refine ⟨item, hi, ?_⟩
    cases he : item.entry with
    | requires package => rw [he] at hr; rw [Option.some.inj hr]
    | declares spec => rw [he] at hr; cases hr
  · rintro ⟨item, hi, he⟩
    exact ⟨item, hi, by rw [he]; rfl⟩

namespace Session

variable {lib : Library} {p : String} {s t : Session}

theorem hasPackage_iff : s.hasPackage p = true ↔ ∃ id, s.packages.get? p = some id :=
  Option.isSome_iff_exists

theorem hasPackage_cache (s : Session) (p q : String) (scope : ScopeId) :
    (s.cache p scope).hasPackage q = (decide (q = p) || s.hasPackage q) := by
  by_cases h : q = p <;> simp [cache, hasPackage, Table.contains, h]

def KeepsPackages (s t : Session) : Prop :=
  ∀ q id, s.packages.get? q = some id → t.packages.get? q = some id

theorem KeepsPackages.trans {s t u : Session} (hst : KeepsPackages s t)
    (htu : KeepsPackages t u) : KeepsPackages s u :=
  fun q id hq => htu q id (hst q id hq)

theorem keepsPackages_of_eq (h : t.packages = s.packages) : KeepsPackages s t :=
  fun _ _ hq => h ▸ hq

theorem ne_of_hasPackage (h : s.hasPackage p = false) {q : String} {id : ScopeId}
    (hq : s.packages.get? q = some id) : q ≠ p := by
  rintro rfl
  rw [hasPackage_iff.mpr ⟨id, hq⟩] at h
  cases h

theorem packages_of_fetch {r : Except Error Package} (hf : (s.enter p).fetch lib p = (r, t)) :
    t.packages = s.packages := by
  obtain ⟨_, rfl⟩ := fetched_eq hf
  rfl

theorem keepsPackages_cache {r : Except Error Package} (h : s.hasPackage p = false)
    (hf : (s.enter p).fetch lib p = (r, t)) (scope : ScopeId) :
    KeepsPackages s (t.cache p scope) := by
  intro q id hq
  simpa [cache, ne_of_hasPackage h hq, packages_of_fetch hf] using hq

theorem KeepsPackages.abandon (h : s.hasPackage p = false) (ht : KeepsPackages s t)
    (caller : ScopeId) : KeepsPackages s (t.abandon p caller) := by
  intro q id hq
  simpa [Session.abandon, ne_of_hasPackage h hq] using ht q id hq

theorem keepsPackages_declare (s : Session) (spec : Spec) :
    KeepsPackages s (s.declare spec).2 := by
  obtain ⟨_, _, he⟩ := declare_eq s spec
  exact keepsPackages_of_eq (by rw [he])

theorem keepsPackages_expose {r : Except Error Unit} {scope caller : ScopeId}
    (he : s.expose scope caller = (r, t)) : KeepsPackages s t := by
  obtain ⟨_, _, rfl⟩ := expose_eq he
  exact keepsPackages_of_eq rfl

mutual

theorem Analyzes.keepsPackages {p : String} {s : Session} {r : Except Error Analysis × Session}
    {d : Nat} {l : List (String × Bool)} : Analyzes lib p s r d l → KeepsPackages s r.2
  | .known _ => keepsPackages_of_eq rfl
  | .unread h hf => KeepsPackages.abandon h (keepsPackages_of_eq (packages_of_fetch hf)) _
  | .broken h hf hw =>
    KeepsPackages.abandon h ((keepsPackages_cache h hf _).trans hw.keepsPackages) _
  | .hidden h hf hw he => KeepsPackages.abandon h
    (((keepsPackages_cache h hf _).trans hw.keepsPackages).trans (keepsPackages_expose he)) _
  | .done h hf hw he => by
    have hu := (keepsPackages_cache h hf _).trans hw.keepsPackages
    exact fun q id hq => keepsPackages_expose he q id (hu q id hq)

theorem Walks.keepsPackages {es : List Entry} {s : Session} {r : Except Error Unit × Session}
    {d : Nat} {l : List (String × Bool)} : Walks lib es s r d l → KeepsPackages s r.2
  | .nil => keepsPackages_of_eq rfl
  | .declares hr => (keepsPackages_declare s _).trans hr.keepsPackages
  | .requires h hr => h.keepsPackages.trans hr.keepsPackages
  | .fails h => h.keepsPackages

end

def room (s : Session) (names : Finset String) : Nat :=
  (names.filter (fun q => s.hasPackage q = false)).card

theorem KeepsPackages.room_le (h : KeepsPackages s t) (names : Finset String) :
    t.room names ≤ s.room names := by
  refine Finset.card_le_card fun q hq => ?_
  obtain ⟨hn, ht⟩ := Finset.mem_filter.mp hq
  refine Finset.mem_filter.mpr ⟨hn, Bool.eq_false_iff.mpr fun hs => ?_⟩
  obtain ⟨id, hid⟩ := hasPackage_iff.mp hs
  rw [hasPackage_iff.mpr ⟨id, h q id hid⟩] at ht
  cases ht

theorem room_cache_lt {names : Finset String} {r : Except Error Package} (hp : p ∈ names)
    (h : s.hasPackage p = false) (hf : (s.enter p).fetch lib p = (r, t)) (scope : ScopeId) :
    (t.cache p scope).room names < s.room names := by
  refine Finset.card_lt_card (Finset.ssubset_iff_of_subset ?_ |>.mpr ⟨p, ?_, ?_⟩)
  · intro q hq
    obtain ⟨hn, hc⟩ := Finset.mem_filter.mp hq
    rw [hasPackage_cache, Bool.or_eq_false_iff] at hc
    exact Finset.mem_filter.mpr ⟨hn, by simpa only [hasPackage, packages_of_fetch hf] using hc.2⟩
  · exact Finset.mem_filter.mpr ⟨hp, h⟩
  · intro hq
    have hc := (Finset.mem_filter.mp hq).2
    rw [hasPackage_cache] at hc
    simp at hc

end Session

def Library.Covers (lib : Library) (names : Finset String) (p : String) : Prop :=
  ∀ path tree, lib.parse p path = .ok tree → p ∈ names

namespace Session

variable {lib : Library} {p : String} {s t : Session} {names : Finset String}

theorem walks_traverse {analyze : String → Session → Except Error Analysis × Session} {n : Nat}
    (ha : ∀ q s, lib.Covers names q → s.room names < n →
      ∃ d l, Analyzes lib q s (analyze q s) d l)
    (es : List Entry) (hes : ∀ q, .requires q ∈ es → lib.Covers names q) (s : Session)
    (hs : s.room names < n) :
    ∃ d l, Walks lib es s (traverse analyze es s) d l := by
  induction es generalizing s with
  | nil => exact ⟨0, [], .nil⟩
  | cons entry es ih =>
    have hrest : ∀ q, .requires q ∈ es → lib.Covers names q :=
      fun q hq => hes q (List.mem_cons_of_mem _ hq)
    cases entry with
    | declares spec =>
      have hroom := (keepsPackages_declare s spec).room_le names
      obtain ⟨d, l, hw⟩ := ih hrest (s.declare spec).2 (by omega)
      exact ⟨d, l, .declares hw⟩
    | requires q =>
      obtain ⟨c, k, hq⟩ := ha q s (hes q List.mem_cons_self) hs
      rw [traverse]
      cases hr : analyze q s with
      | mk r t =>
        rw [hr] at hq
        cases r with
        | error e => exact ⟨c, k, .fails hq⟩
        | ok a =>
          have hroom : t.room names ≤ s.room names := hq.keepsPackages.room_le names
          obtain ⟨d, l, hw⟩ := ih hrest t (by omega)
          exact ⟨max c d, k ++ l, .requires hq hw⟩

theorem analyzeWithin_known (h : s.hasPackage p = true) (n : Nat) :
    analyzeWithin lib (n + 1) p s = (.ok .known, s) := by
  rw [analyzeWithin, if_pos h]

theorem analyzeWithin_new (h : s.hasPackage p = false) (n : Nat) :
    analyzeWithin lib (n + 1) p s =
      match fill (s.enter p) lib (analyzeWithin lib n) p s.nextScope s.current with
      | (.ok tree, t) => (.ok (.done tree), t.leave s.current)
      | (.error e, t) => (.error e, t.abandon p s.current) := by
  rw [analyzeWithin, if_neg (by rw [h]; exact Bool.false_ne_true)]
  rfl

theorem fill_of_fetch {tree : Package}
    {analyze : String → Session → Except Error Analysis × Session} {scope caller : ScopeId}
    (hf : s.fetch lib p = (.ok tree, t)) :
    fill s lib analyze p scope caller =
      match traverse analyze (tree.items.map (·.entry)) (t.cache p scope) with
      | (.error e, u) => (.error e, u)
      | (.ok (), u) =>
        match u.expose scope caller with
        | (.error e, v) => (.error e, v)
        | (.ok (), v) => (.ok tree, v) := by
  rw [fill, hf]
  rfl

theorem covers_of_fetch {tree : Package} (himports : ∀ q ∈ lib.imports, lib.Covers names q)
    (hf : (s.enter p).fetch lib p = (.ok tree, t)) :
    ∀ q, .requires q ∈ tree.items.map (·.entry) → lib.Covers names q := by
  intro q hq
  obtain ⟨path, hparse⟩ := Library.parse_of_read (read_of_fetch hf)
  exact himports q (Library.imports_of_parse hparse (Package.mem_imports.mpr hq))

/-- Every level of nesting takes a name that is no package yet. -/
theorem analyzes_analyzeWithin (himports : ∀ q ∈ lib.imports, lib.Covers names q) (n : Nat)
    (p : String) (s : Session) (hp : lib.Covers names p) (hs : s.room names < n) :
    ∃ d l, Analyzes lib p s (analyzeWithin lib n p s) d l := by
  induction n generalizing p s with
  | zero => omega
  | succ n ih =>
    cases h : s.hasPackage p with
    | true => exact ⟨1, [], analyzeWithin_known h n ▸ .known h⟩
    | false =>
      rw [analyzeWithin_new h]
      cases hf : (s.enter p).fetch lib p with
      | mk r t =>
        cases r with
        | error e =>
          rw [fill, hf]
          exact ⟨1, _, .unread h hf⟩
        | ok tree =>
          obtain ⟨path, hparse⟩ := Library.parse_of_read (read_of_fetch hf)
          -- the package has just taken its name, so there is room for one level less
          have hroom := room_cache_lt (hp path tree hparse) h hf s.nextScope
          obtain ⟨d, l, hw⟩ := walks_traverse ih _ (covers_of_fetch himports hf)
            (t.cache p s.nextScope) (by omega)
          rw [fill_of_fetch hf]
          cases hr : traverse (analyzeWithin lib n) (tree.items.map (·.entry))
              (t.cache p s.nextScope) with
          | mk r u =>
            rw [hr] at hw
            cases r with
            | error e => exact ⟨d + 1, _, .broken h hf hw⟩
            | ok _ =>
              dsimp only
              cases he : u.expose s.nextScope s.current with
              | mk r v =>
                cases r with
                | error e => exact ⟨d + 1, _, .hidden h hf hw he⟩
                | ok _ => exact ⟨d + 1, _, .done h hf hw he⟩

mutual

theorem Analyzes.analyzeWithin_eq {p : String} {s : Session}
    {r : Except Error Analysis × Session} {d : Nat} {l : List (String × Bool)} :
    Analyzes lib p s r d l → ∀ n, d ≤ n → analyzeWithin lib n p s = r
  | .known h, n + 1, _ => analyzeWithin_known h n
  | .unread h hf, n + 1, _ => by
    rw [analyzeWithin_new h, fill, hf]
  | .broken h hf hw, n + 1, hn => by
    rw [analyzeWithin_new h, fill_of_fetch hf, hw.traverse_eq n (by omega)]
  | .hidden h hf hw he, n + 1, hn => by
    simp only [analyzeWithin_new h, fill_of_fetch hf, hw.traverse_eq n (by omega), he]
  | .done h hf hw he, n + 1, hn => by
    simp only [analyzeWithin_new h, fill_of_fetch hf, hw.traverse_eq n (by omega), he]

theorem Walks.traverse_eq {es : List Entry} {s : Session} {r : Except Error Unit × Session}
    {d : Nat} {l : List (String × Bool)} :
    Walks lib es s r d l → ∀ n, d ≤ n → traverse (analyzeWithin lib n) es s = r
  | .nil, _, _ => rfl
  | .declares hr, n, hn => by
    rw [traverse]
    exact hr.traverse_eq n hn
  | .requires h hr, n, hn => by
    rw [traverse, h.analyzeWithin_eq n (by omega)]
    exact hr.traverse_eq n (by omega)
  | .fails h, n, hn => by
    rw [traverse, h.analyzeWithin_eq n hn]

end

/-- An analysis without bound on its nesting ends, and it ends as `analyze` says. -/
theorem analyzes_analyze (lib : Library) (s : Session) (p : String) :
    ∃ d l, Analyzes lib p s (s.analyze lib p) d l := by
  let names : Finset String := insert p lib.imports.toFinset
  have himports : ∀ q ∈ lib.imports, lib.Covers names q :=
    fun q hq _ _ _ => Finset.mem_insert_of_mem (List.mem_toFinset.mpr hq)
  have hp : lib.Covers names p := fun _ _ _ => Finset.mem_insert_self p _
  have hroom : s.room names < lib.imports.length + 2 :=
    calc s.room names ≤ names.card := Finset.card_filter_le _ _
      _ ≤ lib.imports.toFinset.card + 1 := Finset.card_insert_le p _
      _ ≤ lib.imports.length + 1 := Nat.succ_le_succ (List.toFinset_card_le _)
      _ < lib.imports.length + 2 := Nat.lt_succ_self _
  exact analyzes_analyzeWithin himports _ p s hp hroom

theorem Analyzes.eq_analyze {r : Except Error Analysis × Session} {d : Nat}
    {l : List (String × Bool)} (h : Analyzes lib p s r d l) : r = s.analyze lib p := by
  obtain ⟨c, k, hc⟩ := analyzes_analyze lib s p
  rw [← h.analyzeWithin_eq (max c d) (by omega), hc.analyzeWithin_eq (max c d) (by omega)]

end Session

end Bluespec
