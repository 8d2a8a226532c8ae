import BlockCalculus.Block.Assembly
import BlockCalculus.FileTree
import BlockCalculus.Notation.Token
import BlockCalculus.Number.Decimal

/-! Reading the written form of a block. The first token that is not part of
the notation decides the error; a quotation left open is reported last. -/

namespace BlockCalculus

/-- Why nothing stands behind a name. -/
inductive Absence where
  | noResolver
  | undefined
  | invalidName
  | unreadable (fault : FileFault)
  deriving DecidableEq, Repr

def Absence.message : Absence → String
  | noResolver => "no resolver"
  | undefined => "not defined"
  | invalidName => "not a valid name"
  | unreadable fault => fault.message

inductive ReadError where
  | unbalanced
  | reserved (word : String)
  | unknownWord (word : String)
  | badNumber (word : String)
  | cycle (name : String)
  | missing (name : String) (reason : Absence)
  deriving DecidableEq, Repr

def ReadError.message : ReadError → String
  | unbalanced => "Unbalanced block"
  | reserved word => "`" ++ word ++ "`: words of length <= 2 are reserved"
  | unknownWord word => "`" ++ word ++ "`: unrecognized word"
  | badNumber word => "`" ++ word ++ "`: invalid number"
  | cycle name => "`" ++ name ++ "` contains a cycle"
  | missing name reason => "`" ++ name ++ "` cannot be resolved: " ++ reason.message

namespace Notation

def isLetter (c : Char) : Bool :=
  'a' ≤ c && c ≤ 'z' || 'A' ≤ c && c ≤ 'Z'

/-- A letter followed by at least one letter, digit or dash. -/
def isIdentifier : List Char → Bool
  | c :: d :: rest =>
    isLetter c && (d :: rest).all fun x => isLetter x || Decimal.isDigit x || x == '-'
  | _ => false

/-- Identifiers of more than two characters that are not mnemonics. -/
def isName (word : String) : Bool :=
  2 < word.length && isIdentifier word.toList && (Primitive.ofMnemonic? word).isNone

/-- The leaf that a word stands for. -/
def leaf (w : List Char) : Except ReadError Block :=
  let word := String.ofList w
  match Primitive.ofMnemonic? word with
  | some p => .ok (.prim p)
  | none =>
    if Decimal.isNumber w then
      match Decimal.ofChars? w with
      | some d => .ok (.num d.toBinary64)
      | none => .error (.badNumber word)
    else
      match w with
      | '#' :: digits =>
        match Address.ofHexChars? digits with
        | some target => .ok (.link target)
        | none => .error (.unknownWord word)
      | _ =>
        if w.length ≤ 2 then .error (.reserved word)
        else if isIdentifier w then .ok (.var word)
        else .error (.unknownWord word)

def place (a : Assembly) : Token → Except ReadError Assembly
  | .opening => .ok a.enter
  | .closing =>
    match a.leave? with
    | some a => .ok a
    | none => .error .unbalanced
  | .word w => (leaf w).map a.add

def assemble (tokens : List Token) : Except ReadError Block := do
  let a ← tokens.foldlM place Assembly.start
  match a.block? with
  | some b => .ok b
  | none => .error .unbalanced

/-- Reads a block and keeps its names. -/
def parse (text : String) : Except ReadError Block :=
  assemble (Token.scan text.toList)

end Notation

end BlockCalculus
