import BlockCalculus.Bytes
import BlockCalculus.Number.Decimal

/-! Scanning the words of TOML: keys, strings, numbers and dates. -/

namespace BlockCalculus.Toml

/-- Takes characters off a text, or fails. -/
abbrev Scanner := StateT (List Char) Option

namespace Scanner

def peek : Scanner (Option Char) := fun cs => some (cs.head?, cs)

def char (c : Char) : Scanner Unit
  | d :: rest => if c = d then some ((), rest) else none
  | [] => none

def satisfy (p : Char → Bool) : Scanner Char
  | c :: rest => if p c then some (c, rest) else none
  | [] => none

def literal (s : String) : Scanner Unit := fun cs =>
  if s.toList.isPrefixOf cs then some ((), cs.drop s.length) else none

def takeWhile (p : Char → Bool) : Scanner (List Char) := fun cs =>
  some (cs.takeWhile p, cs.dropWhile p)

def takeWhile1 (p : Char → Bool) : Scanner (List Char) := do
  let cs ← takeWhile p
  if cs.isEmpty then failure else return cs

/-- Repeats a scanner until it fails, at most once for each entry of a list. -/
def repeatWithin {α : Type} (p : Scanner α) : List Char → Scanner (List α)
  | [], cs => some ([], cs)
  | _ :: fuel, cs =>
    match p cs with
    | some (a, rest) => do
      let (as, rest) ← repeatWithin p fuel rest
      return (a :: as, rest)
    | none => some ([], cs)

/-- Repeats a scanner that always takes something, until it fails. -/
def many {α : Type} (p : Scanner α) : Scanner (List α) := fun cs =>
  repeatWithin p cs cs

def ended : Scanner Unit
  | [] => some ((), [])
  | _ => none

end Scanner

open Scanner

def isSpace (c : Char) : Bool :=
  c == ' ' || c == '\t'

def spaces : Scanner Unit := do
  let _ ← takeWhile isSpace

def newline : Scanner Unit :=
  char '\n' <|> (do char '\r'; char '\n')

/-- Control characters other than the tab. -/
def isControl (c : Char) : Bool :=
  c.toNat < 0x20 && c != '\t' || c.toNat == 0x7f

def comment : Scanner Unit := do
  char '#'
  let _ ← takeWhile fun c => !isControl c

/-- White space, newlines and comments, as between the elements of an array. -/
def gap : Scanner Unit := do
  spaces
  let _ ← many do
    let _ ← optional comment
    newline
    spaces

/-- The character with a code written in hexadecimal digits. -/
def scalar (digits : Nat) : Scanner Char := do
  let cs ← (List.range digits).mapM fun _ => satisfy fun c => (Bytes.hexValue? c).isSome
  let n := cs.foldl (fun n c => 16 * n + (Bytes.hexValue? c).getD 0) 0
  if n < 0xd800 || 0xe000 ≤ n && n < 0x110000 then return Char.ofNat n else failure

/-- What follows a backslash. -/
def escape : Scanner Char := do
  match ← satisfy fun _ => true with
  | 'b' => return Char.ofNat 8
  | 't' => return '\t'
  | 'n' => return '\n'
  | 'f' => return Char.ofNat 12
  | 'r' => return '\r'
  | '"' => return '"'
  | '\\' => return '\\'
  | 'u' => scalar 4
  | 'U' => scalar 8
  | _ => failure

def apostrophe : Char := Char.ofNat 39

def basicChar : Scanner Char := do
  let c ← satisfy fun c => c != '"' && !isControl c
  if c = '\\' then escape else return c

def basicString : Scanner String := do
  char '"'
  let cs ← many basicChar
  char '"'
  return String.ofList cs

def literalString : Scanner String := do
  char apostrophe
  let cs ← takeWhile fun c => c != apostrophe && !isControl c
  char apostrophe
  return String.ofList cs

/-- A backslash at the end of a line takes the white space after it away. -/
def lineContinuation : Scanner (List Char) := do
  char '\\'
  spaces
  newline
  let _ ← many (newline <|> do let _ ← satisfy isSpace)
  return []

/-- Quotes inside a block: one or two that do not close it, or up to two in
front of the three that do. -/
def innerQuotes (q : Char) : Scanner (List Char) := fun cs =>
  let run := (cs.takeWhile (· == q)).length
  if run = 1 || run = 2 then some (cs.take run, cs.drop run)
  else if run = 4 || run = 5 then some (cs.take (run - 3), cs.drop (run - 3))
  else none

def blockNewline : Scanner (List Char) := do
  newline
  return ['\n']

def block (q : Char) (piece : Scanner (List Char)) : Scanner String := do
  let fence := String.ofList [q, q, q]
  literal fence
  let _ ← optional newline
  let pieces ← many (innerQuotes q <|> blockNewline <|> piece)
  literal fence
  return String.ofList pieces.flatten

def basicBlock : Scanner String :=
  block '"' (lineContinuation <|> do return [← basicChar])

def literalBlock : Scanner String :=
  block apostrophe do return [← satisfy fun c => c != apostrophe && !isControl c]

def string : Scanner String :=
  basicBlock <|> basicString <|> literalBlock <|> literalString

def isBare (c : Char) : Bool :=
  'a' ≤ c && c ≤ 'z' || 'A' ≤ c && c ≤ 'Z' || Decimal.isDigit c || c == '-' || c == '_'

def simpleKey : Scanner String :=
  basicString <|> literalString <|> do return String.ofList (← takeWhile1 isBare)

/-- Keys between dots, fewer than eighty: the path and the last one. -/
def key : Scanner (List String × String) := do
  spaces
  let first ← simpleKey
  spaces
  let rest ← many do
    char '.'
    spaces
    let k ← simpleKey
    spaces
    return k
  let all := first :: rest
  if 80 ≤ all.length then failure
  return (all.dropLast, all.getLast?.getD first)

/-- Digits with single underscores between them. -/
def digitRun (p : Char → Bool) : Scanner (List Char) := do
  let first ← satisfy p
  let rest ← many do
    let _ ← optional (char '_')
    satisfy p
  return first :: rest

def sign : Scanner Bool := do
  let s ← optional (satisfy fun c => c == '+' || c == '-')
  return s == some '-'

/-- Decimal digits without a leading zero. -/
def decimalDigits : Scanner (List Char) := do
  let ds ← digitRun Decimal.isDigit
  if ds.length > 1 && ds.head? == some '0' then failure else return ds

def radixDigits (marker : Char) (base : Nat) : Scanner Int := do
  char '0'
  char marker
  let ds ← digitRun fun c => match Bytes.hexValue? c with
    | some n => n < base
    | none => false
  return ds.foldl (fun n c => base * n + (Bytes.hexValue? c).getD 0) (0 : Nat)

/-- Integers of 64 bits with sign. -/
def integer : Scanner Int := do
  let i ← radixDigits 'x' 16 <|> radixDigits 'o' 8 <|> radixDigits 'b' 2 <|> do
    let negative ← sign
    let n : Int := Decimal.ofDigits (← decimalDigits)
    return if negative then -n else n
  if i < -Int.pow 2 63 || Int.pow 2 63 ≤ i then failure else return i

def exponent : Scanner Int := do
  let _ ← satisfy fun c => c == 'e' || c == 'E'
  let negative ← sign
  let n : Int := Decimal.ofDigits (← digitRun Decimal.isDigit)
  return if negative then -n else n

/-- Fractions and exponents; a value that rounds to positive infinity is
refused. -/
def float : Scanner Unit := do
  let negative ← sign
  let special ← optional (literal "inf" <|> literal "nan")
  if special.isSome then return ()
  let whole ← decimalDigits
  let fraction ← optional do
    char '.'
    digitRun Decimal.isDigit
  let power ← optional exponent
  if fraction.isNone && power.isNone then failure
  let places := fraction.getD []
  let d : Decimal := ⟨negative, Decimal.ofDigits (whole ++ places), power.getD 0 - places.length⟩
  if !negative && !d.toBinary64.isFinite then failure

def digits (count low high : Nat) : Scanner Nat := do
  let cs ← (List.range count).mapM fun _ => satisfy Decimal.isDigit
  let n := Decimal.ofDigits cs
  if low ≤ n && n ≤ high then return n else failure

def daysIn (year month : Nat) : Nat :=
  if month = 2 then
    if year % 4 = 0 && (year % 100 ≠ 0 || year % 400 = 0) then 29 else 28
  else if month = 4 || month = 6 || month = 9 || month = 11 then 30
  else 31

def date : Scanner Unit := do
  let year ← digits 4 0 9999
  char '-'
  let month ← digits 2 1 12
  char '-'
  let _ ← digits 2 1 (daysIn year month)

def time : Scanner Unit := do
  let _ ← digits 2 0 23
  char ':'
  let _ ← digits 2 0 59
  char ':'
  let _ ← digits 2 0 60
  let _ ← optional do
    char '.'
    takeWhile1 Decimal.isDigit

def offset : Scanner Unit :=
  (do let _ ← satisfy fun c => c == 'Z' || c == 'z') <|> do
    let _ ← satisfy fun c => c == '+' || c == '-'
    let _ ← digits 2 0 23
    char ':'
    let _ ← digits 2 0 59

def datetime : Scanner Unit :=
  (do
    date
    let _ ← optional do
      let _ ← satisfy fun c => c == 'T' || c == 't' || c == ' '
      time
      let _ ← optional offset) <|> time

end BlockCalculus.Toml
