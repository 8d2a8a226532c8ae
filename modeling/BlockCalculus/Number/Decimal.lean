import BlockCalculus.Number.Binary64

/-! Decimal literals: their written form, the value they are read as, and the
shortest one that reads back as a given value. -/

namespace BlockCalculus

/-- The number `± coefficient * 10 ^ exponent`. -/
structure Decimal where
  negative : Bool
  coefficient : Nat
  exponent : Int
  deriving DecidableEq, Repr

namespace Decimal

def isDigit (c : Char) : Bool :=
  '0' ≤ c && c ≤ '9'

def digitChar (n : Nat) : Char :=
  Char.ofNat (48 + n)

def digitsBefore (n : Nat) (rest : List Char) : List Char :=
  if n < 10 then digitChar n :: rest
  else digitsBefore (n / 10) (digitChar (n % 10) :: rest)
termination_by n

/-- Decimal digits without leading zeros; zero has one digit. -/
def digits (n : Nat) : List Char :=
  digitsBefore n []

/-- The number of decimal digits. Long numbers are cut eighteen digits at a
time. -/
def digitCount (n : Nat) : Nat :=
  if n < 10 then 1
  else if n < Nat.pow 10 18 then digitCount (n / 10) + 1
  else digitCount (n / Nat.pow 10 18) + 18
termination_by n
decreasing_by all_goals exact Nat.div_lt_self (by omega) (by decide)

def ofDigits (cs : List Char) : Nat :=
  cs.foldl (fun n c => 10 * n + (c.toNat - 48)) 0

/-- A leading minus sign, and what follows an optional sign. -/
def splitSign : List Char → Bool × List Char
  | '-' :: rest => (true, rest)
  | '+' :: rest => (false, rest)
  | rest => (false, rest)

/-- Whether the text is empty or an exponent: `e` or `E`, an optional sign and
at least one digit. -/
def isExponent : List Char → Bool
  | [] => true
  | c :: rest =>
    (c == 'e' || c == 'E') && !(splitSign rest).2.isEmpty && (splitSign rest).2.all isDigit

/-- The form of a number word: an optional sign, digits with at most one point
in front of the last of them, and an optional exponent. -/
def isNumber (word : List Char) : Bool :=
  let body := (splitSign word).2
  match body.dropWhile isDigit with
  | '.' :: rest => !(rest.takeWhile isDigit).isEmpty && isExponent (rest.dropWhile isDigit)
  | rest => !(body.takeWhile isDigit).isEmpty && isExponent rest

def readExponent? : List Char → Option Int
  | [] => some 0
  | c :: rest =>
    let (negative, ds) := splitSign rest
    if (c == 'e' || c == 'E') && !ds.isEmpty && ds.all isDigit then
      some (if negative then -ofDigits ds else ofDigits ds)
    else none

/-- Reads a literal; digits may be missing on one side of the point. -/
def ofChars? (word : List Char) : Option Decimal :=
  let (negative, body) := splitSign word
  let whole := body.takeWhile isDigit
  let tail := body.dropWhile isDigit
  let afterPoint := if tail.head? = some '.' then tail.tail else []
  let fraction := afterPoint.takeWhile isDigit
  let power := if tail.head? = some '.' then afterPoint.dropWhile isDigit else tail
  if whole.isEmpty && fraction.isEmpty then none
  else do
    let exponent ← readExponent? power
    return ⟨negative, ofDigits (whole ++ fraction), exponent - fraction.length⟩

/-- The magnitude nearest to `coefficient * 10 ^ exponent`. Exponents far out
of range are settled by the number of bits alone. -/
def magnitude (coefficient : Nat) (exponent : Int) : Nat :=
  if coefficient = 0 then 0
  else if 400 < exponent then Binary64.infinity
  else if exponent + coefficient.log2 + 1 < -400 then 0
  else
    Binary64.nearest (coefficient * Nat.pow 10 exponent.toNat * Nat.pow 2 1074)
      (Nat.pow 10 (-exponent).toNat)

def toBinary64 (d : Decimal) : Binary64 :=
  .ofMagnitude d.negative (magnitude d.coefficient d.exponent)

/-- Moves the exponent of a fraction up to zero as long as the last digit is a
zero. -/
def trimmed (coefficient places : Nat) : Nat × Nat :=
  match places with
  | 0 => (coefficient, 0)
  | places + 1 =>
    if coefficient % 10 = 0 then trimmed (coefficient / 10) places
    else (coefficient, places + 1)

/-- All digits of `coefficient * 10 ^ -places`, with a point only in front of
a fraction that is not zero. -/
def positional (coefficient places : Nat) : List Char :=
  match trimmed coefficient places with
  | (c, 0) => digits c
  | (c, p) => digits (c / Nat.pow 10 p) ++ '.' :: fractionDigits p c
where
  /-- The last `n` digits, leading zeros included. -/
  fractionDigits (n c : Nat) : List Char :=
    (List.range n).map fun i => digitChar (c / Nat.pow 10 (n - 1 - i) % 10)

def unsignedChars (coefficient : Nat) (exponent : Int) : List Char :=
  positional (coefficient * Nat.pow 10 exponent.toNat) (-exponent).toNat

/-- The decimal on the grid `10 ^ exponent` that reads back as the magnitude:
one of the two neighbours of the value, the nearer one if both do, and the
upper one at equal distance. -/
def onGrid? (magnitude : Nat) (exponent : Int) : Option (Nat × Int) :=
  let value := Binary64.unitsOf magnitude * Nat.pow 10 400
  let step := Nat.pow 2 1074 * Nat.pow 10 (exponent + 400).toNat
  let low := value / step
  let readsBack (c : Nat) : Bool := Decimal.magnitude c exponent == magnitude
  let upper := 2 * (value % step) ≥ step
  if readsBack low && !(upper && readsBack (low + 1)) then some (low, exponent)
  else if readsBack (low + 1) then some (low + 1, exponent)
  else none

/-- The position after the leading digit of a value counted in units. -/
def leading (magnitude : Nat) : Int :=
  (digitCount (Binary64.unitsOf magnitude * Nat.pow 10 400 / Nat.pow 2 1074) : Int) - 400

/-- The fewest digits that read back as a finite magnitude; seventeen always
do, and every finite value is a decimal with 1074 places. -/
def shortest (magnitude : Nat) : Nat × Int :=
  if magnitude = 0 then (0, 0)
  else
    ((List.range 17).findSome? fun (n : Nat) => onGrid? magnitude (leading magnitude - (n + 1))).getD
      (Binary64.unitsOf magnitude * Nat.pow 5 1074, -1074)

end Decimal

namespace Binary64

/-- Positional notation with the fewest digits that read back. -/
def chars (x : Binary64) : List Char :=
  if x.isNaN then "NaN".toList
  else
    (if x.isNegative then ['-'] else []) ++
      if x.isFinite then
        let (coefficient, exponent) := Decimal.shortest x.magnitude
        Decimal.unsignedChars coefficient exponent
      else "inf".toList

def text (x : Binary64) : String :=
  String.ofList x.chars

end Binary64

end BlockCalculus
