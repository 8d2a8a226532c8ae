/-! Bytes as hexadecimal text, as big-endian numbers and as lines. -/

namespace BlockCalculus

abbrev Bytes := List UInt8

namespace Bytes

/-- The lowercase hexadecimal digit of a number below sixteen. -/
def hexDigit (n : Nat) : Char :=
  if n < 10 then Char.ofNat (48 + n) else Char.ofNat (87 + n)

/-- The value of a hexadecimal digit in either case. -/
def hexValue? (c : Char) : Option Nat :=
  if '0' ≤ c ∧ c ≤ '9' then some (c.toNat - 48)
  else if 'a' ≤ c ∧ c ≤ 'f' then some (c.toNat - 87)
  else if 'A' ≤ c ∧ c ≤ 'F' then some (c.toNat - 55)
  else none

/-- Two lowercase digits for each byte. -/
def hexChars (bytes : Bytes) : List Char :=
  bytes.flatMap fun b => [hexDigit (b.toNat / 16), hexDigit (b.toNat % 16)]

def hex (bytes : Bytes) : String :=
  String.ofList bytes.hexChars

/-- Reads pairs of hexadecimal digits; an odd digit is an error. -/
def ofHexChars? : List Char → Option Bytes
  | [] => some []
  | [_] => none
  | a :: b :: rest => do
    let high ← hexValue? a
    let low ← hexValue? b
    let bytes ← ofHexChars? rest
    return UInt8.ofNat (16 * high + low) :: bytes

def ofHex? (text : String) : Option Bytes :=
  ofHexChars? text.toList

/-- The number whose big-endian digits to base 256 are the bytes. -/
def toNat (bytes : Bytes) : Nat :=
  bytes.foldl (fun n b => 256 * n + b.toNat) 0

/-- The lowest `width` big-endian digits to base 256. -/
def ofNat (width n : Nat) : Bytes :=
  match width with
  | 0 => []
  | width + 1 => UInt8.ofNat (n / Nat.pow 256 width) :: ofNat width n

/-- Lines without their ends, which are newlines with an optional carriage
return in front. -/
def lines (bytes : Bytes) : List Bytes :=
  go [] bytes
where
  go (read : Bytes) : Bytes → List Bytes
    | [] => if read.isEmpty then [] else [read.reverse]
    | b :: rest =>
      if b = 10 then
        (match read with
        | 13 :: read => read.reverse
        | read => read.reverse) :: go [] rest
      else go (b :: read) rest

@[simp] theorem length_ofNat (width n : Nat) : (ofNat width n).length = width := by
  induction width with
  | zero => rfl
  | succ width ih => simp [ofNat, ih]

end Bytes

end BlockCalculus
