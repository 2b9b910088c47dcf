import Bluespec.Proofs.Adequacy

namespace Bluespec.Session

variable {lib : Library} {p : String} {s t : Session} {names : Finset String}

mutual

theorem Analyzes.depth_le (himports : ∀ q ∈ lib.imports, lib.Covers names q) {p : String}
    {s : Session} {r : Except Error Analysis × Session} {d : Nat} {l : List (String × Bool)}
    (hp : lib.Covers names p) : Analyzes lib p s r d l → d ≤ s.room names + 1
  | .known _ | .unread _ _ => Nat.le_add_left _ _
  | .broken h hf hw | .hidden h hf hw _ | .done h hf hw _ => by
    obtain ⟨path, hparse⟩ := Library.parse_of_read (read_of_fetch hf)
    have hroom := room_cache_lt (hp path _ hparse) h hf s.nextScope
    have hd := hw.depth_le himports (covers_of_fetch himports hf)
    omega

theorem Walks.depth_le (himports : ∀ q ∈ lib.imports, lib.Covers names q) {es : List Entry}
    {s : Session} {r : Except Error Unit × Session} {d : Nat} {l : List (String × Bool)}
    (hes : ∀ q, .requires q ∈ es → lib.Covers names q) :
    Walks lib es s r d l → d ≤ s.room names + 1
  | .nil => Nat.zero_le _
  | .declares (x := x) hr => by
    have hroom := (keepsPackages_declare s x).room_le names
    have hd := hr.depth_le himports fun q hq => hes q (List.mem_cons_of_mem _ hq)
    omega
  | .requires h hr => by
    have hroom := h.keepsPackages.room_le names
    have hc := h.depth_le himports (hes _ List.mem_cons_self)
    have hd := hr.depth_le himports fun q hq => hes q (List.mem_cons_of_mem _ hq)
    dsimp only at hroom
    omega
  | .fails h => h.depth_le himports (hes _ List.mem_cons_self)

end

/-- The sources that are read between two sessions are of different packages, all of them new;
if all went well, they are packages afterwards. -/
def ReadsOnce (s : Session) (ok : Bool) (t : Session) : Prop :=
  ∃ asked, t.requests = s.requests ++ asked ∧ (asked.map Prod.fst).Nodup ∧
    (∀ q ∈ asked.map Prod.fst, s.hasPackage q = false) ∧
    (ok = true → ∀ q ∈ asked.map Prod.fst, t.hasPackage q = true)

theorem ReadsOnce.of_eq {ok : Bool} (h : t.requests = s.requests) : ReadsOnce s ok t :=
  ⟨[], by rw [h, List.append_nil], by simp, by simp, by simp⟩

theorem ReadsOnce.fail {ok : Bool} {u : Session} (h : ReadsOnce s ok t)
    (hu : u.requests = t.requests) : ReadsOnce s false u := by
  obtain ⟨asked, hasked, hnodup, hnew, _⟩ := h
  exact ⟨asked, by rw [hu, hasked], hnodup, hnew, nofun⟩

theorem KeepsPackages.hasPackage (h : KeepsPackages s t) {q : String}
    (hq : s.hasPackage q = true) : t.hasPackage q = true := by
  obtain ⟨id, hid⟩ := hasPackage_iff.mp hq
  exact hasPackage_iff.mpr ⟨id, h q id hid⟩

theorem ReadsOnce.trans {ok : Bool} {u : Session} (hst : ReadsOnce s true t)
    (htu : ReadsOnce t ok u) (hs : KeepsPackages s t) (ht : KeepsPackages t u) :
    ReadsOnce s ok u := by
  obtain ⟨k, hk, hkn, hknew, hkdone⟩ := hst
  obtain ⟨l, hl, hln, hlnew, hldone⟩ := htu
  refine ⟨k ++ l, by rw [hl, hk, List.append_assoc], ?_, ?_, ?_⟩
  · rw [List.map_append]
    refine List.nodup_append.mpr ⟨hkn, hln, fun q hq q' hq' he => ?_⟩
    -- what was read first is a package by now, and only new ones are read after it
    subst he
    have hold := hkdone rfl q hq
    rw [hlnew q hq'] at hold
    cases hold
  · intro q hq
    rw [List.map_append] at hq
    rcases List.mem_append.mp hq with hq | hq
    · exact hknew q hq
    · refine Bool.eq_false_iff.mpr fun hc => ?_
      have hold := hs.hasPackage hc
      rw [hlnew q hq] at hold
      cases hold
  · intro hok q hq
    rw [List.map_append] at hq
    rcases List.mem_append.mp hq with hq | hq
    · exact ht.hasPackage (hkdone rfl q hq)
    · exact hldone hok q hq

theorem readsOnce_cache {r : Except Error Package} (h : s.hasPackage p = false)
    (hf : (s.enter p).fetch lib p = (r, t)) (scope : ScopeId) :
    ReadsOnce s true (t.cache p scope) := by
  obtain ⟨_, asked, rfl, hasked⟩ := fetch_eq hf
  refine ⟨asked, rfl, ?_, ?_, fun _ => ?_⟩
  · rcases hasked with rfl | ⟨path, rfl⟩ <;> simp
  · rcases hasked with rfl | ⟨path, rfl⟩ <;> simp [h]
  · rcases hasked with rfl | ⟨path, rfl⟩ <;> simp [hasPackage_cache]

mutual

theorem Analyzes.readsOnce {p : String} {s : Session} {r : Except Error Analysis × Session}
    {d : Nat} {l : List (String × Bool)} : Analyzes lib p s r d l → ReadsOnce s r.1.isOk r.2
  | .known _ => ReadsOnce.of_eq rfl
  | .unread h hf => (readsOnce_cache h hf s.nextScope).fail rfl
  | .broken h hf hw =>
    ((readsOnce_cache h hf _).trans hw.readsOnce (keepsPackages_cache h hf _)
      hw.keepsPackages).fail rfl
  | .hidden h hf hw he => by
    obtain ⟨_, _, rfl⟩ := expose_eq he
    exact ((readsOnce_cache h hf _).trans hw.readsOnce (keepsPackages_cache h hf _)
      hw.keepsPackages).fail rfl
  | .done h hf hw he => by
    obtain ⟨_, _, rfl⟩ := expose_eq he
    exact (readsOnce_cache h hf _).trans hw.readsOnce (keepsPackages_cache h hf _)
      hw.keepsPackages

theorem Walks.readsOnce {es : List Entry} {s : Session} {r : Except Error Unit × Session}
    {d : Nat} {l : List (String × Bool)} : Walks lib es s r d l → ReadsOnce s r.1.isOk r.2
  | .nil => ReadsOnce.of_eq rfl
  | .declares hr => by
    obtain ⟨_, _, hs⟩ := declare_eq s _
    have hreads := hr.readsOnce
    rw [hs] at hreads
    exact hreads
  | .requires h hr => h.readsOnce.trans hr.readsOnce h.keepsPackages hr.keepsPackages
  | .fails h => h.readsOnce

end

/-- Where reading fails for every package outside a finite set, the analysis of a package comes to
an end in any session, on any import graph. Its calls nest at most one deeper than there are
packages in the set, and no package is read twice, however it ends. -/
theorem analyze_terminates (lib : Library) (names : Finset String)
    (hnames : ∀ q path tree, lib.parse q path = .ok tree → q ∈ names) (s : Session) (p : String) :
    (∃ d l, Analyzes lib p s (s.analyze lib p) d l) ∧
    (∀ r d l, Analyzes lib p s r d l → r = s.analyze lib p ∧ d ≤ names.card + 1) ∧
    ∃ asked, (s.analyze lib p).2.requests = s.requests ++ asked ∧
      (asked.map Prod.fst).Nodup := by
  obtain ⟨d, l, h⟩ := analyzes_analyze lib s p
  refine ⟨⟨d, l, h⟩, fun r c k hr => ⟨hr.eq_analyze, ?_⟩, ?_⟩
  · have hroom : s.room names ≤ names.card := Finset.card_filter_le _ _
    have hc := hr.depth_le (fun q _ => hnames q) (hnames p)
    omega
  · obtain ⟨asked, hasked, hnodup, _⟩ := h.readsOnce
    exact ⟨asked, hasked, hnodup⟩

theorem mem_of_parse {q path : String} {tree : Package}
    (h : ∀ r ∈ lib.readings, ∃ name ∈ names, r.package = some name)
    (hparse : lib.parse q path = .ok tree) : q ∈ names := by
  rw [Library.parse] at hparse
  split at hparse
  · cases hparse
  · rename_i r hr
    obtain ⟨name, hname, hpackage⟩ := h r (List.mem_reverse.mp (List.mem_of_find?_eq_some hr))
    have hfits := List.find?_some hr
    rw [Reading.fits, hpackage, Bool.and_eq_true, Option.all_some, beq_iff_eq] at hfits
    exact hfits.1 ▸ hname

/-- Each package of the knot is read once, `C` from an absolute path. -/
theorem analyze_terminates_knot :
    let names : Finset String := {"A", "B", "C"}
    let s := start { includePath := ["/bsv", "."] }
    (∀ q path tree, Library.knot.parse q path = .ok tree → q ∈ names) ∧
    (s.analyze .knot "A").2.requests = [("A", "./A.bsv"), ("B", "./B.bsv"), ("C", "/bsv/C.bsv")] ∧
    (∃ d l, Analyzes .knot "A" s (s.analyze .knot "A") d l) ∧
    (∀ r d l, Analyzes .knot "A" s r d l → r = s.analyze .knot "A" ∧ d ≤ 4) ∧
    ∃ asked, (s.analyze .knot "A").2.requests = asked ∧ (asked.map Prod.fst).Nodup := by
  intro names s
  have hnames : ∀ q path tree, Library.knot.parse q path = .ok tree → q ∈ names :=
    fun q path tree => mem_of_parse (by simp [Library.knot, names])
  exact ⟨hnames, by decide +kernel, analyze_terminates .knot names hnames s "A"⟩

end Bluespec.Session
