import Bluespec.NameSupply
import Bluespec.Operator
import Bluespec.Report
import Bluespec.Session.Analysis
import Bluespec.Session.Synonym
import Bluespec.Solver

namespace Bluespec

/-- A session of type checking. Constraints hold for the universe they were built in and are
dropped when it is rebuilt. -/
structure Checker where
  session : Session
  univ : Universe
  names : NameSupply := {}
  /-- The constraints, oldest first, each under its tracker. -/
  assertions : List (String × Formula) := []
  /-- The node that each tracker stands for. -/
  trackers : Table Node := ∅
  /-- The terms recorded for nodes, newest first. -/
  exprs : List (NodeKey × Term) := []

namespace Checker

def start (session : Session) : Except CheckError Checker := do
  let univ ← Universe.build session.arena session.symbols.types
  return { session, univ }

/-- Drop all constraints and build the universe anew. If that fails the old one stays. -/
def rebuild (c : Checker) : Except CheckError Unit × Checker :=
  let cleared := { c with exprs := [], trackers := ∅, assertions := [] }
  match Universe.build c.session.arena c.session.symbols.types with
  | .error e => (.error e, cleared)
  | .ok univ => (.ok (), { cleared with univ })

def inSync (c : Checker) : Bool := c.session.symbols.types.length == c.univ.userCount

def analyze (c : Checker) (lib : Library) (package : String) :
    Except CheckError Analysis × Checker :=
  match c.session.analyze lib package with
  | (.error e, session) => (.error (.resolution e), { c with session })
  | (.ok analysis, session) =>
    let c := { c with session }
    if c.inSync then (.ok analysis, c)
    else
      match c.rebuild with
      | (.error e, c) => (.error e, c)
      | (.ok (), c) => (.ok analysis, c)

def fresh (c : Checker) (stem : String) : String × Checker :=
  let (name, names) := c.names.next stem
  (name, { c with names })

def freshConstant (c : Checker) (stem : String) (sort : Carrier) : Term × Checker :=
  let (name, c) := c.fresh stem
  (.const name sort, c)

def record (c : Checker) (node : Node) (t : Term) : Checker :=
  { c with exprs := (node.key, t) :: c.exprs }

def recorded? (c : Checker) (key : NodeKey) : Option Term := c.exprs.lookup key

def constrain (c : Checker) (f : Formula) (stem : String) (node : Node) : String × Checker :=
  let (tracker, c) := c.fresh stem
  (tracker, { c with
    assertions := c.assertions ++ [(tracker, f)]
    trackers := c.trackers.insert tracker node })

def tracker? (c : Checker) (name : String) : Option Node := c.trackers.get? name

def disjunction : List Formula → Except CheckError Formula
  | [] => .error .emptyDisjunction
  | first :: rest => .ok (.anyOf first rest)

def followSynonyms (c : Checker) (t : TypeExpr) : Except CheckError TypeExpr :=
  (c.session.followSynonyms t).mapError .resolution

def encodeHead (u : Universe) (t : TypeExpr) (encodeParams : Except CheckError (List Term)) :
    Except CheckError Term :=
  if t.isVar then .ok (.const t.name .type)
  else if t.isNumeric then
    match t.numericValue? with
    | some n => u.apply "Numeric" [.int n]
    | none => .ok (.const t.name .type)
  else do u.apply t.name (← encodeParams)

def encodeWithin (c : Checker) : (steps : Nat) → TypeExpr → Except CheckError Term
  | 0, t => .error (.resolution (.circularSynonym t.name))
  | steps + 1, t => do
    let t ← c.followSynonyms t
    encodeHead c.univ t (t.params.mapM (c.encodeWithin steps))

def declaredHeight (s : Session) (id : DeclId) : Nat :=
  ((s.arena.get? id).map (·.type.height)).getD 0

def synonymHeight (s : Session) : Nat :=
  s.symbols.valueOf.entries.foldr (fun (_, id) n => declaredHeight s id + n) 0

/-- The term of a type. On the way down no synonym is met twice, unless it is defined through
itself, so the heights of type and synonyms bound the levels. -/
def encode (c : Checker) (t : TypeExpr) : Except CheckError Term :=
  c.encodeWithin (t.height + synonymHeight c.session) t

def resultConstraint (c : Checker) (op : String) (result : Term) :
    Except CheckError (Option Formula) :=
  if Operator.isBoolean op then do
    let bool ← c.univ.apply "Bool" []
    return some (← Universe.equate result bool)
  else .ok none

def check (c : Checker) : Solver.Outcome := Solver.check c.univ c.assertions

def reportOf (c : Checker) : Solver.Outcome → Report
  | .sat => .sat
  | .unsat core => .ofCore core c.trackers
  | .unknown reason => .unknown reason

def report (c : Checker) : Report := c.reportOf c.check

end Checker

end Bluespec
