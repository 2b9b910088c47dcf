namespace Bluespec

/-- A supply of names `stem-n`. The number is never used again, whatever the stem. -/
structure NameSupply where
  issued : Nat := 0
deriving DecidableEq, Repr

def NameSupply.next (names : NameSupply) (stem : String) : String × NameSupply :=
  (stem ++ "-" ++ toString names.issued, ⟨names.issued + 1⟩)

end Bluespec
