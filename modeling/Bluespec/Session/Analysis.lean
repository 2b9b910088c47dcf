import Bluespec.Library
import Bluespec.Session

namespace Bluespec

inductive Analysis where
  | done (tree : Package)
  /-- The package was met before, or its analysis is under way; nothing was done. -/
  | known
deriving DecidableEq

namespace Session

def fetch (s : Session) (lib : Library) (package : String) : Except Error Package × Session :=
  match lib.locate s.config package with
  | .error e => (.error e, s)
  | .ok path => (lib.parse package path, { s with requests := s.requests ++ [(package, path)] })

def traverse (analyze : String → Session → Except Error Analysis × Session) :
    List Entry → Session → Except Error Unit × Session
  | [], s => (.ok (), s)
  | .declares spec :: rest, s => traverse analyze rest (s.declare spec).2
  | .requires package :: rest, s =>
    match analyze package s with
    | (.ok _, t) => traverse analyze rest t
    | (.error e, t) => (.error e, t)

def expose (s : Session) (scope caller : ScopeId) : Except Error Unit × Session :=
  match s.symbols.indexScope s.arena s.scopes scope with
  | (.error e, symbols) => (.error e, { s with symbols })
  | (.ok (), symbols) =>
    let (result, scopes) := s.scopes.merge caller scope s.config.importPolicy
    (result, { s with symbols, scopes })

/-- Read a package into its scope. It counts as analyzed as soon as its tree is there, so that
imports which lead back to it end at once. -/
def fill (s : Session) (lib : Library)
    (analyze : String → Session → Except Error Analysis × Session)
    (package : String) (scope caller : ScopeId) : Except Error Package × Session :=
  match s.fetch lib package with
  | (.error e, t) => (.error e, t)
  | (.ok tree, t) =>
    match traverse analyze (tree.items.map (·.entry))
        { t with packages := t.packages.insert package scope } with
    | (.error e, t) => (.error e, t)
    | (.ok (), t) =>
      match t.expose scope caller with
      | (.error e, t) => (.error e, t)
      | (.ok (), t) => (.ok tree, t)

/-- Analyze a package whose imports nest at most `depth` levels. Afterwards the current scope is
what it was, and a package whose analysis failed counts as not analyzed. -/
def analyzeWithin (lib : Library) :
    (depth : Nat) → (package : String) → Session → Except Error Analysis × Session
  | 0, package, s => (.error (.endlessImports package), s)
  | depth + 1, package, s =>
    if s.hasPackage package then (.ok .known, s)
    else
      let (scope, scopes) := s.scopes.push package none
      match fill { s with scopes, current := scope } lib (analyzeWithin lib depth)
          package scope s.current with
      | (.ok tree, t) => (.ok (.done tree), { t with current := s.current })
      | (.error e, t) =>
        (.error e, { t with current := s.current, packages := t.packages.erase package })

/-- Analyze a package and all that it imports. Every level below the first is for a name that
some tree imports, and no name is under way twice. -/
def analyze (s : Session) (lib : Library) (package : String) : Except Error Analysis × Session :=
  analyzeWithin lib (lib.imports.length + 2) package s

end Session

end Bluespec
