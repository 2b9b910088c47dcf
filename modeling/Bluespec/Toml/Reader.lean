namespace Bluespec.Toml

/-- A reader takes a value off the front of a text, or fails and takes nothing. -/
abbrev Reader := StateT (List Char) Option

namespace Reader

variable {α : Type}

def peek : Reader (Option Char) := fun cs => some (cs.head?, cs)

def satisfy (p : Char → Bool) : Reader Char
  | [] => none
  | c :: cs => if p c then some (c, cs) else none

def char (c : Char) : Reader Unit := do let _ ← satisfy (· == c)

def exactly : List Char → Reader Unit
  | [] => pure ()
  | c :: cs => do char c; exactly cs

def word (s : String) : Reader Unit := exactly s.toList

def takeWhile (p : Char → Bool) : Reader (List Char) := fun cs =>
  some (cs.takeWhile p, cs.dropWhile p)

def takeWhile1 (p : Char → Bool) : Reader (List Char) := do
  let cs ← takeWhile p
  if cs.isEmpty then failure else return cs

def count (n : Nat) (p : Char → Bool) : Reader (List Char) := fun cs =>
  let (front, rest) := cs.splitAt n
  if front.length = n ∧ front.all p then some (front, rest) else none

def endOfText : Reader Unit
  | [] => some ((), [])
  | _ :: _ => none

/-- Read as often as that makes progress. -/
def repeated (p : Reader α) (cs : List Char) : List α × List Char :=
  match p cs with
  | none => ([], cs)
  | some (a, rest) =>
    if rest.length < cs.length then
      let (as, last) := repeated p rest
      (a :: as, last)
    else ([], cs)
termination_by cs.length

def many (p : Reader α) : Reader (List α) := fun cs => some (repeated p cs)

def separated (p : Reader α) (separator : Reader Unit) : Reader (List α) := do
  let first ← p
  let rest ← many (do separator; p)
  return first :: rest

end Reader

end Bluespec.Toml
