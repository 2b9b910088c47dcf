import Bluespec.Arena
import Bluespec.CheckError
import Bluespec.Table
import Bluespec.Term

namespace Bluespec

namespace Constructor

def arity (c : Constructor) : Nat := c.fields.length

def ofArity (name : String) (arity : Nat) : Constructor := ⟨name, List.replicate arity .type⟩

end Constructor

/-- The types as one datatype. A name stands for a variant, which builds types, and for the
predicate that tells what this variant has built. -/
structure Universe where
  variants : List Constructor
  /-- The names by ordinal. -/
  names : List String
  constructors : Table Constructor
  recognizers : Table Recognizer
deriving DecidableEq

namespace Universe

def builtinNames : List String :=
  ["Bozo", "Action", "ActionValue", "Bit", "Bool", "Function", "Int", "Module", "Integer", "Real",
   "Reg", "Rule", "String", "UInt", "Vector", "Void", "Numeric"]

/-- The type formers of the language. A module carries its interface only, and `Numeric` is the
one that takes a number. -/
def builtins : List Constructor :=
  [.ofArity "Bozo" 0, .ofArity "Action" 0, .ofArity "ActionValue" 1, .ofArity "Bit" 1,
   .ofArity "Bool" 0, .ofArity "Function" 2, .ofArity "Int" 1, .ofArity "Module" 1,
   .ofArity "Integer" 0, .ofArity "Real" 0, .ofArity "Reg" 1, .ofArity "Rule" 0,
   .ofArity "String" 0, .ofArity "UInt" 1, .ofArity "Vector" 2, .ofArity "Void" 0,
   ⟨"Numeric", [.number]⟩]

def size (u : Universe) : Nat := u.names.length

def userNames (u : Universe) : List String := u.names.drop builtinNames.length

def userCount (u : Universe) : Nat := u.size - builtinNames.length

def find? (u : Universe) (name : String) : Option Constructor := u.constructors.get? name

def recognizer? (u : Universe) (name : String) : Option Recognizer := u.recognizers.get? name

def ordinal? (u : Universe) (name : String) : Option Nat := u.names.findIdx? (· == name)

def arity? (u : Universe) (name : String) : Option Nat := (u.find? name).map (·.arity)

def recognizerName (constructor : String) : String := "is_" ++ constructor

/-- A universe in the making: the names by ordinal, and the variants of the datatype in the order
in which they are declared. -/
structure Draft where
  ordinals : List String
  variants : List Constructor

namespace Draft

def start : Draft := ⟨builtinNames, builtins⟩

def extend (w : Draft) (d : Declaration) : Except CheckError Draft :=
  if d.name ∈ w.ordinals then .error (.duplicateConstructor d.name)
  else .ok ⟨w.ordinals ++ [d.name], w.variants ++ [.ofArity d.name d.type.arity]⟩

def add (arena : Arena) (w : Draft) (id : DeclId) : Except CheckError Draft :=
  match arena.get id with
  | .error e => .error (.resolution e)
  | .ok d => w.extend d

def finish (w : Draft) : Universe :=
  let pairs := w.ordinals.zip w.variants
  { variants := w.variants
    names := w.ordinals
    constructors := .ofList pairs
    recognizers := .ofList (pairs.map fun (name, v) => (name, ⟨recognizerName name, v⟩)) }

end Draft

def build (arena : Arena) (types : List DeclId) : Except CheckError Universe := do
  let draft ← types.foldlM (Draft.add arena) .start
  return draft.finish

def apply (u : Universe) (name : String) (args : List Term) : Except CheckError Term :=
  match u.find? name with
  | none => .error (.unknownConstructor name)
  | some c =>
    if c.arity ≠ args.length then .error (.arityMismatch name c.arity args.length)
    else if args.map (·.carrier) ≠ c.fields then .error (.illSorted name)
    else .ok (.app name args)

def recognize (u : Universe) (name : String) (t : Term) : Except CheckError Formula :=
  match u.recognizer? name with
  | none => .error (.unknownConstructor name)
  | some r => if t.carrier ≠ .type then .error (.illSorted r.name) else .ok (.atom (.is r t))

def equate (a b : Term) : Except CheckError Formula :=
  if a.carrier ≠ b.carrier then .error (.illSorted "=") else .ok (.atom (.eq a b))

end Universe

end Bluespec
