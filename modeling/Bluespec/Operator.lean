import Bluespec.Table

namespace Bluespec.Operator

/-- The binary operators whose result is always of type `Bool`. -/
def booleans : List String := ["==", "!=", "<", ">", "<=", ">=", "&&", "||"]

def isBoolean (op : String) : Bool := booleans.contains op

def table : Table Bool := booleans.foldl (fun t op => t.insert op true) ∅

end Bluespec.Operator
