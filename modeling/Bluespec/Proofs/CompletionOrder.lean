import Bluespec.Proofs.Collecting
import Bluespec.Proofs.PostOrder
import Mathlib.Data.List.Forall2

namespace Bluespec

def Entry.aggregate? : Entry → Option Spec
  | requires _ => none
  | declares spec => if spec.kind.isAggregate then some spec else none

def Package.aggregates (y : Package) : List Spec := y.items.filterMap (·.entry.aggregate?)

namespace Library

def importsOf (lib : Library) (config : Config) (package : String) : List String :=
  match lib.read config package with
  | .ok y => y.imports
  | .error _ => []

def Provides (lib : Library) (config : Config) (arena : Arena) (package : String)
    (ids : List DeclId) : Prop :=
  ∃ y, lib.read config package = .ok y ∧ arena.StoresAll ids y.aggregates ∧
    ids.Pairwise fun a b => a.index < b.index

theorem Provides.mono {lib : Library} {config : Config} {a b : Arena} (hab : a.Keeps b)
    {package : String} {ids : List DeclId} (h : lib.Provides config a package ids) :
    lib.Provides config b package ids := by
  obtain ⟨y, hy, hstores, hids⟩ := h
  exact ⟨y, hy, hstores.mono hab _ _, hids⟩

end Library

namespace Session

variable {lib : Library} {s t u v w : Session} {ps qs order rest : List String}
  {k l : List (String × Bool)}

/-- From `s` to `t` the packages `order` were completed, as a walk along imports from `ps` meets
them, and each of them has appended the aggregates that it declares to the list of types. -/
structure Completes (lib : Library) (ps : List String) (s t : Session) (l : List (String × Bool))
    (order : List String) : Prop where
  log : l = order.map (·, true)
  walk : PostOrder (lib.importsOf s.config) {q | s.hasPackage q = true} ps order
  packages : ∀ q, t.hasPackage q = true ↔ s.hasPackage q = true ∨ q ∈ order
  types : ∃ segments, t.symbols.types = s.symbols.types ++ segments.flatten ∧
    List.Forall₂ (lib.Provides s.config t.arena) order segments

theorem Completes.refl (lib : Library) (s : Session) : Completes lib [] s s [] [] where
  log := rfl
  walk := .nil
  packages q := by simp
  types := ⟨[], by simp, .nil⟩

theorem Completes.trans (hst : Completes lib ps s t k order) (htu : Completes lib qs t u l rest)
    (hconfig : t.config = s.config) (hkeeps : t.arena.Keeps u.arena) :
    Completes lib (ps ++ qs) s u (k ++ l) (order ++ rest) := by
  obtain ⟨first, hfirst, hprovides⟩ := hst.types
  obtain ⟨second, hsecond, hprovides'⟩ := htu.types
  rw [hconfig] at hprovides'
  have hmet : {q | t.hasPackage q = true} = {q | s.hasPackage q = true} ∪ {q | q ∈ order} :=
    Set.ext hst.packages
  have hwalk := htu.walk
  rw [hconfig, hmet] at hwalk
  refine ⟨?_, hst.walk.append hwalk, fun q => ?_, first ++ second, ?_, ?_⟩
  · rw [hst.log, htu.log, List.map_append]
  · rw [htu.packages, hst.packages, List.mem_append, or_assoc]
  · rw [hsecond, hfirst, List.flatten_append, List.append_assoc]
  · exact List.rel_append (hprovides.imp fun _ _ h => h.mono hkeeps) hprovides'

theorem completes_declare (lib : Library) (s : Session) (spec : Spec) :
    Completes lib [] s (s.declare spec).2 [] [] := by
  obtain ⟨scopes, symbols, h⟩ := declare_eq s spec
  refine ⟨rfl, .nil, fun q => ?_, [], ?_, .nil⟩
  · rw [h]
    exact (or_iff_left List.not_mem_nil).symm
  · rw [List.flatten_nil, List.append_nil]
    exact types_declare s spec

section Done

variable {p : String} {y : Package} {d : Nat} {own : List DeclId}

theorem fetched_stores {r : Except Error Package} (hf : (s.enter p).fetch lib p = (r, t)) :
    (t.cache p s.nextScope).arena = s.arena ∧ (t.cache p s.nextScope).symbols = s.symbols ∧
      (t.cache p s.nextScope).config = s.config := by
  obtain ⟨_, rfl⟩ := fetched_eq hf
  exact ⟨rfl, rfl, rfl⟩

theorem hasPackage_fetched {r : Except Error Package} (hf : (s.enter p).fetch lib p = (r, t))
    (scope : ScopeId) (q : String) :
    (t.cache p scope).hasPackage q = true ↔ q = p ∨ s.hasPackage q = true := by
  rw [hasPackage_cache, Bool.or_eq_true, decide_eq_true_iff, hasPackage, packages_of_fetch hf]
  rfl

theorem importsOf_of_fetch {y : Package} (hf : (s.enter p).fetch lib p = (.ok y, t)) :
    lib.importsOf s.config p = y.imports := by
  rw [Library.importsOf, read_of_fetch hf]

theorem history_fetched {r : Except Error Package} (hf : (s.enter p).fetch lib p = (r, t)) :
    (t.cache p s.nextScope).history = [] := by
  have hscope : t.scopes.get? t.current = some ⟨p, ∅, [], none⟩ := by
    obtain ⟨_, rfl⟩ := fetched_eq hf
    exact (Scopes.get?_push s.scopes p none s.nextScope).trans (if_pos rfl)
  exact history_eq (s := t.cache p s.nextScope) hscope

theorem ready_fetched {r : Except Error Package} (hs : s.Ready)
    (hf : (s.enter p).fetch lib p = (r, t)) : (t.cache p s.nextScope).Ready where
  valid := valid_fetched hs.valid hf
  symbols := (moves_fetched hf s.nextScope).symbols_sound hs.symbols
  bounded := by
    rw [history_fetched hf]
    nofun

theorem pending_fetched {r : Except Error Package} (hf : (s.enter p).fetch lib p = (r, t)) :
    (t.cache p s.nextScope).pending = [] := by
  rw [pending, history_fetched hf]
  rfl

theorem exists_source (hs : s.Ready) (hf : (s.enter p).fetch lib p = (.ok y, t))
    (hw : Walks lib (y.items.map (·.entry)) (t.cache p s.nextScope) (.ok (), u) d l) :
    ∃ source, u.scopes.get? s.nextScope = some source ∧ u.history = source.history ∧
      source.Sound s.nextScope := by
  have hvalid : u.Valid := hw.moves.valid hw.current_eq (valid_fetched hs.valid hf)
  have hnext : t.current = s.nextScope := current_fetched hf
  have hcurrent : u.current = s.nextScope := hw.current_eq.trans hnext
  obtain ⟨source, hsource⟩ := Scopes.exists_get? hvalid.current
  exact ⟨source, hcurrent ▸ hsource, history_eq hsource,
    hcurrent ▸ hvalid.sound u.current source hsource⟩

theorem Collects.young {r : Except Error Package} (hf : (s.enter p).fetch lib p = (r, t))
    (hown : Collects (t.cache p s.nextScope) u own) :
    ∀ id ∈ u.history, s.arena.size ≤ id.index := by
  intro id hid
  rcases hown.bound id hid with hid | hid
  · rw [history_fetched hf] at hid
    cases hid
  · exact (fetched_stores hf).1 ▸ hid

theorem Collects.pending_own {r : Except Error Package} (hf : (s.enter p).fetch lib p = (r, t))
    (hown : Collects (t.cache p s.nextScope) u own) : u.pending = own := by
  rw [hown.pending, pending_fetched hf]
  rfl

/-- A package that was gone through lists its own aggregates, which are all that is left to list
in its scope, and the caller has none more to list than before. -/
theorem lists_of_done (hs : s.Ready) (hf : (s.enter p).fetch lib p = (.ok y, t))
    (hw : Walks lib (y.items.map (·.entry)) (t.cache p s.nextScope) (.ok (), u) d l)
    (hown : Collects (t.cache p s.nextScope) u own)
    (he : u.expose s.nextScope s.current = (.ok (), v)) :
    v.arena = u.arena ∧ v.symbols.types = u.symbols.types ++ own ∧
      Collects s (v.leave s.current) [] := by
  obtain ⟨source, hsource, hhistory, hsound⟩ := exists_source hs hf hw
  have hpending : u.symbols.pending u.arena source.history = own := by
    rw [← hhistory]
    exact hown.pending_own hf
  have hnodup : (u.symbols.pending u.arena source.history).Nodup :=
    hpending ▸ hown.ascending.imp fun hlt heq => Nat.ne_of_lt hlt (congrArg _ heq)
  obtain ⟨harena, htypes, hkept, hmarked, receiving, copied, hreceiving, hleave, hcopied, hnone⟩ :=
    expose_lists he hsource hsound hnodup
  refine ⟨harena, hpending ▸ htypes, ?_⟩
  -- no scope from before has changed, so the caller receives on top of what it had
  have hframe : u.scopes.get? s.current = s.scopes.get? s.current :=
    hw.sameScopes hs.valid hf s.current hs.valid.current
  have hcaller : s.history = receiving.history := history_eq (hframe ▸ hreceiving)
  obtain ⟨hsame, hsymbols, _⟩ := fetched_stores hf
  have hyoung : ∀ id ∈ source.history, s.arena.size ≤ id.index := hhistory ▸ hown.young hf
  have hmarks : ∀ id, id.index < s.arena.size →
      (id ∈ v.symbols.indexed ↔ id ∈ s.symbols.indexed) := by
    intro id hid
    rw [← hsymbols, ← hown.marked id (hsame ▸ hid)]
    refine ⟨fun hv => (hmarked id hv).resolve_right fun hmem => ?_, hkept id⟩
    exact Nat.not_lt_of_le (hyoung id hmem) hid
  refine collects_copied hs (harena ▸ hsame ▸ hown.keeps) hmarks (hcaller ▸ hleave)
    (fun id hid => hyoung id (hcopied id hid)) (fun id hid => ?_) hnone
  show id.index < v.arena.size
  rw [harena]
  exact hown.bounded id (hhistory ▸ hcopied id hid)

theorem completes_of_done (h : s.hasPackage p = false)
    (hf : (s.enter p).fetch lib p = (.ok y, t))
    (hc : Completes lib y.imports (t.cache p s.nextScope) u l order)
    (hpackages : v.packages = u.packages) (harena : v.arena = u.arena)
    (htypes : v.symbols.types = u.symbols.types ++ own)
    (hown : lib.Provides s.config u.arena p own) :
    Completes lib [p] s v (l ++ [(p, true)]) (order ++ [p]) := by
  obtain ⟨_, hsymbols, hconfig⟩ := fetched_stores hf
  have hmet : {q | (t.cache p s.nextScope).hasPackage q = true} =
      insert p {q | s.hasPackage q = true} := Set.ext (hasPackage_fetched hf s.nextScope)
  have hnew : p ∉ {q | s.hasPackage q = true} := fun hmem => Bool.false_ne_true (h.symm.trans hmem)
  have hwalk := hc.walk
  rw [hconfig, hmet, ← importsOf_of_fetch hf] at hwalk
  obtain ⟨segments, hsegments, hprovides⟩ := hc.types
  rw [hconfig] at hprovides
  refine ⟨?_, .visit hnew hwalk .nil, fun q => ?_, segments ++ [own], ?_, ?_⟩
  · rw [hc.log, List.map_append]
    rfl
  · rw [hasPackage, hpackages]
    refine (hc.packages q).trans ?_
    rw [hasPackage_fetched hf, List.mem_append, List.mem_singleton, or_assoc, or_left_comm,
      or_comm (a := q = p)]
  · rw [htypes, hsegments, hsymbols, List.flatten_append, List.flatten_singleton,
      List.append_assoc]
  · rw [harena]
    exact List.rel_append hprovides (.cons hown .nil)

end Done

theorem storesAll_collected (s : Session) {spec : Spec} {arena : Arena} {own : List DeclId}
    {es : List Entry} (hkeeps : (s.declare spec).2.arena.Keeps arena)
    (h : arena.StoresAll own (es.filterMap Entry.aggregate?)) :
    arena.StoresAll (s.collected spec ++ own)
      ((.declares spec :: es).filterMap Entry.aggregate?) := by
  rw [arena_declare] at hkeeps
  rw [List.filterMap_cons, Entry.aggregate?, collected]
  cases spec.kind.isAggregate with
  | true => exact ⟨(Arena.stores_add s.arena spec).mono hkeeps, h⟩
  | false => exact h

mutual

theorem Analyzes.completes {p : String} {s : Session} {r : Except Error Analysis × Session}
    {d : Nat} {l : List (String × Bool)} {a : Analysis} (hs : s.Ready) :
    Analyzes lib p s r d l → r.1 = .ok a →
      ∃ order, Completes lib [p] s r.2 l order ∧ Collects s r.2 []
  | .known h, _ => ⟨[], { Completes.refl lib s with walk := .skip h .nil }, .refl hs⟩
  | .unread _ _, hok | .broken _ _ _, hok | .hidden _ _ _ _, hok => nomatch hok
  | .done h hf hw he, _ => by
    obtain ⟨order, own, hc, hown, hstores⟩ := hw.completes (ready_fetched hs hf) rfl
    obtain ⟨harena, htypes, hcaller⟩ := lists_of_done hs hf hw hown he
    obtain ⟨_, _, hexposed⟩ := expose_eq he
    rw [List.filterMap_map] at hc hstores
    exact ⟨_, completes_of_done h hf hc (by rw [hexposed]; rfl) harena htypes
      ⟨_, read_of_fetch hf, hstores, hown.ascending⟩, hcaller⟩

theorem Walks.completes {es : List Entry} {s : Session} {r : Except Error Unit × Session}
    {d : Nat} {l : List (String × Bool)} (hs : s.Ready) :
    Walks lib es s r d l → r.1 = .ok () →
      ∃ order own, Completes lib (es.filterMap Entry.required?) s r.2 l order ∧
        Collects s r.2 own ∧ r.2.arena.StoresAll own (es.filterMap Entry.aggregate?)
  | .nil, _ => ⟨[], [], .refl lib s, .refl hs, trivial⟩
  | .declares (x := x) hr, hok => by
    obtain ⟨order, own, hc, hown, hstores⟩ := hr.completes (hs.declare x) hok
    refine ⟨order, s.collected x ++ own, ?_, (collects_declare hs x).trans hown,
      storesAll_collected s hown.keeps hstores⟩
    exact (completes_declare lib s x).trans hc (moves_declare s x).config_eq hown.keeps
  | .requires h hr, hok => by
    obtain ⟨order, hc, hcaller⟩ := h.completes hs rfl
    obtain ⟨rest, own, hc', hown, hstores⟩ := hr.completes
      (hcaller.ready hs h.moves h.current_eq) hok
    exact ⟨order ++ rest, own, hc.trans hc' h.moves.config_eq hown.keeps, hcaller.trans hown,
      hstores⟩
  | .fails _, hok => nomatch hok

end

def analyzeAll (s : Session) (lib : Library) (packages : List String) :
    Except Error Unit × Session :=
  traverse (fun package s => s.analyze lib package) (packages.map .requires) s

theorem walks_analyzeAll (lib : Library) (packages : List String) (s : Session) :
    ∃ d l, Walks lib (packages.map .requires) s (s.analyzeAll lib packages) d l := by
  have hcovers : ∀ q, .requires q ∈ packages.map Entry.requires →
      lib.Covers packages.toFinset q := by
    intro q hq path tree hparse
    obtain ⟨name, hname, heq⟩ := List.mem_map.mp hq
    exact List.mem_toFinset.mpr (Entry.requires.inj heq ▸ hname)
  exact walks_traverse (fun q t _ _ => analyzes_analyze lib t q) _ hcovers s (Nat.lt_succ_self _)

/-- A new session, in which the function types may have been asked for once more. -/
def fresh (config : Config) (again : Bool) : Session :=
  if again then (start config).addFunctionTypes else start config

def functionSpecs (config : Config) (again : Bool) : List Spec :=
  if config.synthesizeFunctions || again then
    (List.range' 1 (config.functionArityLimit - 1)).map functionSpec
  else []

section Fresh

variable (config : Config) (again : Bool)

theorem fresh_eq : fresh config again = if config.synthesizeFunctions || again then
    (blank config).addFunctionTypes else blank config := by
  rw [fresh, start_eq]
  cases config.synthesizeFunctions with
  | false => cases again <;> rfl
  | true =>
    cases again with
    | false => rfl
    | true =>
      obtain ⟨_, _, h⟩ := addFunctionTypes_eq (blank config)
      have hadded : (blank config).addFunctionTypes.hasFunctionTypes = true := by rw [h]
      exact if_pos hadded

theorem fresh_stores : (fresh config again).scopes = (blank config).scopes ∧
    (fresh config again).current = (blank config).current ∧
    (fresh config again).packages = ∅ ∧ (fresh config again).config = config := by
  rw [fresh_eq]
  split
  · obtain ⟨_, _, h⟩ := addFunctionTypes_eq (blank config)
    rw [h]
    exact ⟨rfl, rfl, rfl, rfl⟩
  · exact ⟨rfl, rfl, rfl, rfl⟩

theorem ready_fresh : (fresh config again).Ready := by
  have hhistory : (fresh config again).history = [] := by
    obtain ⟨hscopes, hcurrent, _⟩ := fresh_stores config again
    rw [history, hscopes, hcurrent]
    rfl
  have hbounded : ∀ id ∈ (fresh config again).history,
      id.index < (fresh config again).arena.size := by
    rw [hhistory]
    exact fun id hid => absurd hid List.not_mem_nil
  cases again with
  | false => exact ⟨valid_start config, symbols_sound_start config, hbounded⟩
  | true =>
    exact ⟨(valid_start config).perform .addFunctionTypes,
      (moves_addFunctionTypes _).symbols_sound (symbols_sound_start config), hbounded⟩

theorem storesAll_fresh : (fresh config again).arena.StoresAll
    (fresh config again).symbols.types (functionSpecs config again) := by
  rw [fresh_eq, functionSpecs]
  split
  · obtain ⟨ids, htypes, hstores⟩ := functionTypes_listed
      (s := { blank config with hasFunctionTypes := true }) ⟨List.nodup_nil, nofun, nofun⟩
      (List.range' 1 (config.functionArityLimit - 1))
    exact htypes ▸ hstores
  · trivial

end Fresh

/-- When packages were analyzed one after the other in a new session, and all of them without an
error, the types are the function types and after them the aggregates of each package, in source
order. Packages come in the order in which their analysis ended, which is the one order in which
a depth-first walk along the imports leaves them. -/
theorem types_in_completion_order {config : Config} {again : Bool} {lib : Library}
    {packages : List String} {t : Session}
    (h : (fresh config again).analyzeAll lib packages = (.ok (), t)) :
    ∃ order functions segments, t.symbols.types = functions ++ List.flatten segments ∧
      t.arena.StoresAll functions (functionSpecs config again) ∧
      List.Forall₂ (lib.Provides config t.arena) order segments ∧
      t.symbols.types.Nodup ∧ order.Nodup ∧
      (∃ d, Walks lib (packages.map .requires) (fresh config again) (.ok (), t) d
        (order.map (·, true))) ∧
      ∀ other, PostOrder (lib.importsOf config) ∅ packages other ↔ other = order := by
  obtain ⟨d, l, hw⟩ := walks_analyzeAll lib packages (fresh config again)
  rw [h] at hw
  obtain ⟨order, own, hc, hown, _⟩ := hw.completes (ready_fresh config again) rfl
  obtain ⟨segments, htypes, hprovides⟩ := hc.types
  obtain ⟨_, _, hpackages, hconfig⟩ := fresh_stores config again
  have hmet : {q | (fresh config again).hasPackage q = true} = ∅ := by
    refine Set.eq_empty_of_forall_notMem fun q hq => ?_
    rw [Set.mem_ofPred_eq, hasPackage, hpackages] at hq
    cases hq
  have hroots : (packages.map Entry.requires).filterMap Entry.required? = packages := by
    rw [List.filterMap_map]
    exact List.filterMap_some
  have hwalk := hc.walk
  rw [hconfig, hmet, hroots] at hwalk
  rw [hconfig] at hprovides
  refine ⟨order, _, segments, htypes, ?_, hprovides, ?_, hwalk.nodup.1, ⟨d, hc.log ▸ hw⟩, ?_⟩
  · exact (storesAll_fresh config again).mono hown.keeps _ _
  · exact (hw.moves.symbols_sound (ready_fresh config again).symbols).nodup
  · exact fun other => ⟨fun ho => ho.unique hwalk, fun ho => ho ▸ hwalk⟩

/-- `B` is under way when it asks for `A`, and both ask for `C`. -/
theorem postOrder_knot :
    PostOrder (Library.importsOf .knot .here) ∅ ["A", "B"] ["C", "B", "A"] := by
  have hc : Library.importsOf .knot .here "C" = ["C"] := by decide +kernel
  have hb : Library.importsOf .knot .here "B" = ["A", "C"] := by decide +kernel
  have ha : Library.importsOf .knot .here "A" = ["B", "C"] := by decide +kernel
  have walkC : PostOrder (Library.importsOf .knot .here) {"C", "B", "A"} ["C"] [] :=
    .skip (by simp) .nil
  have walkB : PostOrder (Library.importsOf .knot .here) {"B", "A"} ["A", "C"] ([] ++ ["C"]) :=
    .skip (by simp) (.visit (by simp) (hc ▸ walkC) .nil)
  have walkA : PostOrder (Library.importsOf .knot .here) {"A"} ["B", "C"] (["C"] ++ ["B"]) :=
    .visit (by simp) (hb ▸ walkB) (.skip (by simp) .nil)
  rw [← ha, ← insert_empty_eq "A"] at walkA
  exact .visit (Set.notMem_empty _) walkA (.skip (p := "B") (by simp) .nil)

theorem types_in_completion_order_knot :
    ((fresh .here true).analyzeAll .knot ["A", "B"]).1 = .ok () ∧
    ∃ functions segments,
      ((fresh .here true).analyzeAll .knot ["A", "B"]).2.symbols.types =
        functions ++ List.flatten segments ∧
      ((fresh .here true).analyzeAll .knot ["A", "B"]).2.arena.StoresAll functions
        (functionSpecs .here true) ∧
      List.Forall₂ (Library.Provides .knot .here
        ((fresh .here true).analyzeAll .knot ["A", "B"]).2.arena) ["C", "B", "A"] segments := by
  have hok : ((fresh .here true).analyzeAll .knot ["A", "B"]).1 = .ok () := by decide +kernel
  obtain ⟨order, functions, segments, htypes, hfunctions, hprovides, _, _, _, horder⟩ :=
    types_in_completion_order (Prod.ext hok rfl)
  obtain rfl := (horder _).mp postOrder_knot
  exact ⟨hok, functions, segments, htypes, hfunctions, hprovides⟩

end Session

end Bluespec
