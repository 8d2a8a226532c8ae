import BlockCalculus.Toml.Scan
import BlockCalculus.Toml.Value

/-! Reading a TOML document line by line. -/

namespace BlockCalculus.Toml

open Scanner

/-- Elements with commas between them; a comma may follow the last one if
`trailing` holds. -/
def separated {α : Type} (between : Scanner Unit) (trailing : Bool) (element : Scanner α) :
    Scanner (List α) := do
  between
  match ← optional element with
  | none => return []
  | some first =>
    between
    let rest ← many do
      char ','
      between
      let a ← element
      between
      return a
    if trailing then
      let _ ← optional do
        char ','
        between
    return first :: rest

def binding (value : Scanner Value) : Scanner (List String × String × Value) := do
  let (path, k) ← key
  char '='
  spaces
  return (path, k, ← value)

def simpleValue : Scanner Value :=
  (do return .string (← string)) <|>
    (do datetime; return .datetime) <|>
    (do float; return .float) <|>
    (do return .integer (← integer)) <|>
    (do literal "true"; return .boolean true) <|>
    (do literal "false"; return .boolean false)

def arrayOf (element : Scanner Value) : Scanner Value := do
  char '['
  let elements ← separated gap true element
  char ']'
  return .array elements

def bracesOf (element : Scanner Value) : Scanner Value := do
  char (Char.ofNat 123)
  let bindings ← separated spaces false (binding element)
  char (Char.ofNat 125)
  match bindings.foldlM (fun es (path, k, v) => assignInline es path k v) [] with
  | some entries => return .table .braces entries
  | none => failure

/-- A value with arrays and braces nested at most so deep. -/
def value : Nat → Scanner Value
  | 0 => simpleValue
  | depth + 1 => do
    match ← peek with
    | some '[' => arrayOf (value depth)
    | some '\x7b' => bracesOf (value depth)
    | _ => simpleValue

/-- Arrays and braces may be nested 79 deep. -/
def depthLimit : Nat := 79

def header : Scanner Statement :=
  (do
    literal "[["
    let (path, k) ← key
    literal "]]"
    return .arrayHeader path k) <|> do
    char '['
    let (path, k) ← key
    char ']'
    return .header path k

def statement : Scanner Statement :=
  header <|> do
    let (path, k, v) ← binding (value depthLimit)
    return .assign path k v

/-- A line, possibly blank, with its comment and its end. -/
def line : Scanner (Option Statement) := fun cs =>
  if cs.isEmpty then none
  else (do
    spaces
    let s ← optional statement
    spaces
    let _ ← optional comment
    newline <|> ended
    return s : Scanner (Option Statement)) cs

/-- The entries of a document; a byte order mark in front is skipped. -/
def parse (text : String) : Option Entries := do
  let cs := text.toList
  let cs := if cs.head? = some (Char.ofNat 0xfeff) then cs.tail else cs
  let (lines, rest) ← many line cs
  if rest.isEmpty then build (lines.filterMap id) else none

end BlockCalculus.Toml
