import Bluespec.Proofs.Scopes
import Bluespec.Session.Analysis

namespace Bluespec

def Library.read (lib : Library) (config : Config) (package : String) : Except Error Package :=
  match lib.locate config package with
  | .error e => .error e
  | .ok path => lib.parse package path

namespace Session

section Steps

variable (s : Session)

def nextScope : ScopeId := ⟨s.scopes.size⟩

def enter (package : String) : Session :=
  { s with scopes := (s.scopes.push package none).2, current := s.nextScope }

def cache (package : String) (scope : ScopeId) : Session :=
  { s with packages := s.packages.insert package scope }

def leave (caller : ScopeId) : Session := { s with current := caller }

def abandon (package : String) (caller : ScopeId) : Session :=
  { s with current := caller, packages := s.packages.erase package }

end Steps

variable {lib : Library} {p : String} {s t : Session} {e : Error}

theorem fetch_eq {r : Except Error Package} (h : s.fetch lib p = (r, t)) :
    r = lib.read s.config p ∧ ∃ asked, t = { s with requests := s.requests ++ asked } ∧
      (asked = [] ∨ ∃ path, asked = [(p, path)]) := by
  rw [fetch] at h
  cases hl : lib.locate s.config p with
  | error e =>
    rw [hl] at h
    obtain ⟨rfl, rfl⟩ := Prod.mk.inj h
    exact ⟨by rw [Library.read, hl], [], by simp, .inl rfl⟩
  | ok path =>
    rw [hl] at h
    obtain ⟨rfl, rfl⟩ := Prod.mk.inj h
    exact ⟨by rw [Library.read, hl], [(p, path)], rfl, .inr ⟨path, rfl⟩⟩

theorem read_of_fetch {r : Except Error Package} (hf : (s.enter p).fetch lib p = (r, t)) :
    lib.read s.config p = r :=
  (fetch_eq hf).1.symm

theorem fetched_eq {r : Except Error Package} (hf : (s.enter p).fetch lib p = (r, t)) :
    ∃ requests, t =
      { s with scopes := (s.scopes.push p none).2, current := s.nextScope, requests } := by
  obtain ⟨_, _, ht, _⟩ := fetch_eq hf
  exact ⟨_, ht⟩

theorem declare_synonym {spec : Spec} (h : spec.kind.isSynonym = true) :
    (s.declare spec).2 = { s with
      arena := (s.arena.add spec).2
      symbols := s.symbols.enterSynonym spec.name (s.arena.add spec).1 } := by
  simp only [declare, h, if_true]

theorem declare_bound {spec : Spec} (h : spec.kind.isSynonym = false) :
    (s.declare spec).2 = { s with
      arena := (s.arena.add spec).2
      scopes := s.scopes.modify s.current (·.bind spec.name (s.arena.add spec).1) } := by
  simp only [declare, h, Bool.false_eq_true, if_false, bind]

theorem expose_eq_ok {scope caller : ScopeId} (h : s.expose scope caller = (.ok (), t)) :
    ∃ symbols scopes, s.symbols.indexScope s.arena s.scopes scope = (.ok (), symbols) ∧
      s.scopes.merge caller scope s.config.importPolicy = (.ok (), scopes) ∧
      t = { s with symbols, scopes } := by
  rw [expose] at h
  split at h
  · cases h
  · rename_i symbols hi
    split at h
    rename_i scopes hm
    obtain ⟨rfl, rfl⟩ := Prod.mk.inj h
    exact ⟨symbols, scopes, hi, hm, rfl⟩

theorem expose_eq_error {scope caller : ScopeId} (h : s.expose scope caller = (.error e, t)) :
    t = { s with symbols := (s.symbols.indexScope s.arena s.scopes scope).2 } := by
  rw [expose] at h
  split at h
  · rename_i hi
    rw [hi, (Prod.mk.inj h).2]
  · rename_i hi
    split at h
    rename_i scopes hm
    obtain ⟨rfl, rfl⟩ := Prod.mk.inj h
    rw [hi, Scopes.merge_eq_error hm]

theorem declare_eq (s : Session) (spec : Spec) : ∃ scopes symbols,
    (s.declare spec).2 = { s with arena := (s.arena.add spec).2, scopes, symbols } := by
  cases h : spec.kind.isSynonym with
  | true => exact ⟨_, _, declare_synonym h⟩
  | false => exact ⟨_, _, declare_bound h⟩

theorem expose_eq {r : Except Error Unit} {scope caller : ScopeId}
    (h : s.expose scope caller = (r, t)) : ∃ scopes symbols, t = { s with scopes, symbols } := by
  cases r with
  | error e => exact ⟨_, _, expose_eq_error h⟩
  | ok _ =>
    obtain ⟨symbols, scopes, _, _, ht⟩ := expose_eq_ok h
    exact ⟨scopes, symbols, ht⟩

mutual

/-- `Analyzes lib p s r d l`: asked for the package `p` in the session `s`, and with no bound on
how deep imports nest, the analysis ends with `r`. Its calls nest `d` deep, and `l` lists the
packages whose analysis ended on the way, in this order, with whether it succeeded. -/
inductive Analyzes (lib : Library) :
    String → Session → Except Error Analysis × Session → Nat → List (String × Bool) → Prop
  | known {p : String} {s : Session} (h : s.hasPackage p = true) :
    Analyzes lib p s (.ok .known, s) 1 []
  | unread {p : String} {s t : Session} {e : Error} (h : s.hasPackage p = false)
      (hf : (s.enter p).fetch lib p = (.error e, t)) :
    Analyzes lib p s (.error e, t.abandon p s.current) 1 [(p, false)]
  | broken {p : String} {s t u : Session} {y : Package} {e : Error} {d : Nat}
      {l : List (String × Bool)} (h : s.hasPackage p = false)
      (hf : (s.enter p).fetch lib p = (.ok y, t))
      (hw : Walks lib (y.items.map (·.entry)) (t.cache p s.nextScope) (.error e, u) d l) :
    Analyzes lib p s (.error e, u.abandon p s.current) (d + 1) (l ++ [(p, false)])
  | hidden {p : String} {s t u v : Session} {y : Package} {e : Error} {d : Nat}
      {l : List (String × Bool)} (h : s.hasPackage p = false)
      (hf : (s.enter p).fetch lib p = (.ok y, t))
      (hw : Walks lib (y.items.map (·.entry)) (t.cache p s.nextScope) (.ok (), u) d l)
      (he : u.expose s.nextScope s.current = (.error e, v)) :
    Analyzes lib p s (.error e, v.abandon p s.current) (d + 1) (l ++ [(p, false)])
  | done {p : String} {s t u v : Session} {y : Package} {d : Nat}
      {l : List (String × Bool)} (h : s.hasPackage p = false)
      (hf : (s.enter p).fetch lib p = (.ok y, t))
      (hw : Walks lib (y.items.map (·.entry)) (t.cache p s.nextScope) (.ok (), u) d l)
      (he : u.expose s.nextScope s.current = (.ok (), v)) :
    Analyzes lib p s (.ok (.done y), v.leave s.current) (d + 1) (l ++ [(p, true)])

inductive Walks (lib : Library) :
    List Entry → Session → Except Error Unit × Session → Nat → List (String × Bool) → Prop
  | nil {s : Session} : Walks lib [] s (.ok (), s) 0 []
  | declares {x : Spec} {es : List Entry} {s : Session} {r : Except Error Unit × Session}
      {d : Nat} {l : List (String × Bool)} (hr : Walks lib es (s.declare x).2 r d l) :
    Walks lib (.declares x :: es) s r d l
  | requires {q : String} {es : List Entry} {s t : Session} {a : Analysis}
      {r : Except Error Unit × Session} {c d : Nat} {k l : List (String × Bool)}
      (h : Analyzes lib q s (.ok a, t) c k) (hr : Walks lib es t r d l) :
    Walks lib (.requires q :: es) s r (max c d) (k ++ l)
  | fails {q : String} {es : List Entry} {s t : Session} {e : Error} {d : Nat}
      {l : List (String × Bool)} (h : Analyzes lib q s (.error e, t) d l) :
    Walks lib (.requires q :: es) s (.error e, t) d l

end

end Session

/-- Three packages: `A` imports the others, `B` imports `A` and `C`, and `C` imports itself. The
function that `C` declares takes the name of its type, and there are two files for `C`. -/
def Library.knot : Library where
  isFile := ["./A.bsv", "./B.bsv", "./C.bsv", "/bsv/C.bsv"].contains
  readings :=
    [{ package := some "A"
       result := .ok (.ofEntries "A" "" [.declares (.aggregate .struct "P" (.named "P") []),
        .requires "B", .requires "C"]) },
     { package := some "B"
       result := .ok (.ofEntries "B" "" [.requires "A", .requires "C",
        .declares (.interface "Q" (.named "Q") [])]) },
     { package := some "C"
       result := .ok (.ofEntries "C" "" [.requires "C",
        .declares (.aggregate .struct "R" (.named "R") []),
        .declares { name := "R", type := .named "R", kind := .function }]) }]

def Config.here : Config := { includePath := ["."] }

theorem exists_eq_ok {ε α σ : Type} {r : Except ε α × σ} (h : r.1.isOk = true) :
    ∃ a, r = (.ok a, r.2) := by
  cases hr : r.1 with
  | error e =>
    rw [hr] at h
    cases h
  | ok a => exact ⟨a, Prod.ext hr rfl⟩

end Bluespec
