import Bluespec.Numeral

namespace Bluespec

/-- A type expression `Name#(p, q, …)`. A variable stands for a type not known yet; a numeric type
carries its value in its name. -/
structure TypeExpr where
  name : String
  params : List TypeExpr
  isVar : Bool
  isNumeric : Bool
deriving Repr

namespace TypeExpr

def applied (name : String) (params : List TypeExpr) : TypeExpr := ⟨name, params, false, false⟩

def named (name : String) : TypeExpr := applied name []

def var (name : String) : TypeExpr := ⟨name, [], true, false⟩

def numeric (n : Nat) : TypeExpr := ⟨Numeral.write n, [], false, true⟩

def sized (name : String) (width : Nat) : TypeExpr := applied name [numeric width]

instance : Inhabited TypeExpr := ⟨named ""⟩

def arity (t : TypeExpr) : Nat := t.params.length

def numericValue? (t : TypeExpr) : Option Nat :=
  if t.isNumeric then Numeral.read? t.name else none

mutual

def render : TypeExpr → String
  | ⟨name, [], _, _⟩ => name
  | ⟨name, p :: ps, _, _⟩ => name ++ "#(" ++ p.render ++ renderRest ps ++ ")"

def renderRest : List TypeExpr → String
  | [] => ""
  | p :: ps => ", " ++ p.render ++ renderRest ps

end

mutual

def height : TypeExpr → Nat
  | ⟨_, params, _, _⟩ => heightAll params + 1

def heightAll : List TypeExpr → Nat
  | [] => 0
  | p :: ps => max p.height (heightAll ps)

end

mutual

def decEq : (s t : TypeExpr) → Decidable (s = t)
  | ⟨n, ps, v, k⟩, ⟨n', ps', v', k'⟩ =>
    match decEqAll ps ps' with
    | .isTrue hp =>
      if h : n = n' ∧ v = v' ∧ k = k' then .isTrue (by rw [hp, h.1, h.2.1, h.2.2])
      else .isFalse fun e => h (by injection e with h1 _ h3 h4; exact ⟨h1, h3, h4⟩)
    | .isFalse hp => .isFalse fun e => hp (by injection e)

def decEqAll : (ss ts : List TypeExpr) → Decidable (ss = ts)
  | [], [] => .isTrue rfl
  | [], _ :: _ => .isFalse nofun
  | _ :: _, [] => .isFalse nofun
  | s :: ss, t :: ts =>
    match decEq s t, decEqAll ss ts with
    | .isTrue h, .isTrue hs => .isTrue (by rw [h, hs])
    | .isFalse h, _ => .isFalse fun e => h (by injection e)
    | _, .isFalse hs => .isFalse fun e => hs (by injection e)

end

instance : DecidableEq TypeExpr := decEq

end TypeExpr

end Bluespec
