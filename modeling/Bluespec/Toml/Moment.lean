import Bluespec.Toml.Lexeme

namespace Bluespec.Toml

open Reader

structure Date where
  year : Nat
  month : Nat
  day : Nat
deriving DecidableEq, Repr

structure Time where
  hour : Nat
  minute : Nat
  second : Nat
  fraction : List Char
deriving DecidableEq, Repr

/-- A date, a time of day, or both; only both together may say where on Earth, by minutes east
of Greenwich. -/
inductive Moment where
  | date (d : Date)
  | time (t : Time)
  | both (d : Date) (t : Time) (offset : Option Int)
deriving DecidableEq, Repr

def isLeapYear (year : Nat) : Bool := year % 4 == 0 && (year % 100 != 0 || year % 400 == 0)

def daysIn (year month : Nat) : Nat :=
  if month = 2 then if isLeapYear year then 29 else 28
  else if month ∈ [4, 6, 9, 11] then 30
  else 31

def digits (n : Nat) : Reader Nat := valueInBase 10 <$> count n Char.isDigit

def upTo (n low high : Nat) : Reader Nat := do
  let v ← digits n
  if low ≤ v ∧ v ≤ high then return v else failure

def date : Reader Date := do
  let year ← digits 4
  char '-'
  let month ← upTo 2 1 12
  char '-'
  let day ← upTo 2 1 (daysIn year month)
  return { year, month, day }

/-- The minute may end in a leap second. -/
def time : Reader Time := do
  let hour ← upTo 2 0 23
  char ':'
  let minute ← upTo 2 0 59
  char ':'
  let second ← upTo 2 0 60
  let fraction ← optional (do char '.'; takeWhile1 Char.isDigit)
  return { hour, minute, second, fraction := fraction.getD [] }

def offset : Reader Int :=
  (do let _ ← satisfy (fun c => c == 'Z' || c == 'z'); return 0) <|> do
    let mark ← satisfy fun c => c == '+' || c == '-'
    let hour ← upTo 2 0 23
    char ':'
    let minute ← upTo 2 0 59
    let minutes : Int := hour * 60 + minute
    return if mark == '-' then -minutes else minutes

def moment : Reader Moment :=
  (do
    let d ← date
    let rest ← optional do
      let _ ← satisfy fun c => c == 'T' || c == 't' || c == ' '
      let t ← time
      return (t, ← optional offset)
    match rest with
    | some (t, offset) => return .both d t offset
    | none => return .date d) <|> Moment.time <$> time

end Bluespec.Toml
