import Bluespec.Session

namespace Bluespec.Session

/-- Follow synonyms without parameters, at most `steps` types in a row. The parameters that a
synonym is applied to are dropped. -/
def followWithin (s : Session) : (steps : Nat) → TypeExpr → Except Error TypeExpr
  | 0, t => .error (.circularSynonym t.name)
  | steps + 1, t =>
    if t.isVar || t.isNumeric then .ok t
    else
      match s.symbols.value? t.name with
      | none => .ok t
      | some id =>
        match s.arena.get id with
        | .error e => .error e
        | .ok d =>
          match d.kind with
          | .synonym defined =>
            if defined.params.isEmpty then s.followWithin steps d.type
            else .error (.parametricSynonym d.name defined.arity)
          | _ => .ok t

/-- The type at the end of a chain of synonyms. A chain longer than the symbol table names one of
its entries twice. -/
def followSynonyms (s : Session) (t : TypeExpr) : Except Error TypeExpr :=
  s.followWithin (s.symbols.valueOf.size + 1) t

end Bluespec.Session
