import Bluespec.Toml.Reader

namespace Bluespec.Toml

open Reader

def isBlank (c : Char) : Bool := c == ' ' || c == '\t'

def isPrintable (c : Char) : Bool := c == '\t' || ('\x20' ≤ c && c != '\x7f')

def blanks : Reader Unit := do let _ ← takeWhile isBlank

def newline : Reader Unit := char '\n' <|> word "\r\n"

def comment : Reader Unit := do
  char '#'
  let _ ← takeWhile isPrintable

def lineEnd : Reader Unit := newline <|> endOfText

def lineRest : Reader Unit := do
  blanks
  let _ ← optional comment
  lineEnd

def gap : Reader Unit := do
  let _ ← many ((do let _ ← satisfy isBlank) <|> newline <|> comment)

def hexDigit? (c : Char) : Option Nat :=
  if c.isDigit then some (c.toNat - '0'.toNat)
  else if 'a' ≤ c ∧ c ≤ 'f' then some (c.toNat - 'a'.toNat + 10)
  else if 'A' ≤ c ∧ c ≤ 'F' then some (c.toNat - 'A'.toNat + 10)
  else none

def isHexDigit (c : Char) : Bool := (hexDigit? c).isSome

def valueInBase (base : Nat) (cs : List Char) : Nat :=
  cs.foldl (fun n c => base * n + (hexDigit? c).getD 0) 0

def codePoint (digits : Nat) : Reader Char := do
  let n := valueInBase 16 (← count digits isHexDigit)
  if n.isValidChar then return Char.ofNat n else failure

def escape : Reader Char := do
  match ← satisfy fun _ => true with
  | 'b' => return '\x08'
  | 't' => return '\t'
  | 'n' => return '\n'
  | 'f' => return '\x0c'
  | 'r' => return '\r'
  | '"' => return '"'
  | '\\' => return '\\'
  | 'u' => codePoint 4
  | 'U' => codePoint 8
  | _ => failure

def basicString : Reader String := do
  char '"'
  let cs ← many (satisfy (fun c => isPrintable c && c != '"' && c != '\\') <|>
    (do char '\\'; escape))
  char '"'
  return String.ofList cs

def literalString : Reader String := do
  char '\''
  let cs ← takeWhile fun c => isPrintable c && c != '\''
  char '\''
  return String.ofList cs

def innerQuotes (quote : Char) : Reader (List Char) := do
  let run ← takeWhile1 (· == quote)
  if run.length ≤ 2 then return run else failure

/-- The three quotes that end a string, behind up to two that still belong to it. -/
def closingQuotes (quote : Char) : Reader (List Char) := do
  let run ← takeWhile (· == quote)
  if 3 ≤ run.length ∧ run.length ≤ 5 then return run.drop 3 else failure

/-- A backslash at the end of a line hides the line end and all blank space after it. -/
def hiddenLineEnd : Reader (List Char) := do
  char '\\'
  blanks
  newline
  let _ ← many ((do let _ ← satisfy isBlank) <|> newline)
  return []

def multiline (quote : Char) (piece : Reader (List Char)) : Reader String := do
  exactly [quote, quote, quote]
  let _ ← optional newline
  let pieces ← many (piece <|> (do newline; return ['\n']) <|> innerQuotes quote)
  let last ← closingQuotes quote
  return String.ofList (pieces.flatten ++ last)

def multilineBasicString : Reader String :=
  multiline '"' (takeWhile1 (fun c => isPrintable c && c != '"' && c != '\\') <|>
    hiddenLineEnd <|> (do char '\\'; return [← escape]))

def multilineLiteralString : Reader String :=
  multiline '\'' (takeWhile1 fun c => isPrintable c && c != '\'')

def string : Reader String :=
  multilineBasicString <|> basicString <|> multilineLiteralString <|> literalString

def isBareKeyChar (c : Char) : Bool := c.isAlphanum || c == '_' || c == '-'

def bareKey : Reader String := String.ofList <$> takeWhile1 isBareKeyChar

def keyLimit : Nat := 80

def keyPart : Reader String := do
  blanks
  let key ← bareKey <|> basicString <|> literalString
  blanks
  return key

def dottedKey : Reader (List String) := do
  let parts ← separated keyPart (char '.')
  if parts.length < keyLimit then return parts else failure

end Bluespec.Toml
