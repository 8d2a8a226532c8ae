import BlockCalculus.Block.Basic
import BlockCalculus.Bytecode.Opcode

/-! Bytecode of a block. The empty program has no bytes, and a name has none
either: it cannot be written. -/

namespace BlockCalculus

inductive EncodeError where
  | unresolved (name : String)
  /-- The destination took no more bytes. -/
  | destinationFull
  deriving DecidableEq, Repr

def EncodeError.message : EncodeError → String
  | unresolved name => "Cannot encode unresolved name `" ++ name ++ "`"
  | destinationFull => "IO error: failed to write whole buffer"

namespace Bytecode

/-- A piece of output handed over at once, or a name met in its place. -/
inductive Write where
  | bytes (bytes : Bytes)
  | name (name : String)
  deriving DecidableEq

/-- The writes for a block in program order, in front of those that follow. A
payload is a write of its own. -/
def writesBefore : Block → List Write → List Write
  | .empty, rest => rest
  | .prim p, rest => .bytes [(Opcode.prim p).byte] :: rest
  | .quote body, rest =>
    .bytes [Opcode.opening.byte] :: writesBefore body (.bytes [Opcode.closing.byte] :: rest)
  | .pair a b, rest => writesBefore a (writesBefore b rest)
  | .link target, rest => .bytes [Opcode.link.byte] :: .bytes target.bytes :: rest
  | .num x, rest => .bytes [Opcode.num.byte] :: .bytes (Bytes.ofNat 8 x.bits.toNat) :: rest
  | .var name, rest => .name name :: rest

def writes (b : Block) : List Write :=
  writesBefore b []

theorem writesBefore_append (b : Block) (l rest : List Write) :
    writesBefore b (l ++ rest) = writesBefore b l ++ rest := by
  induction b generalizing l with
  | quote body ih => simp [writesBefore, ← ih]
  | pair a b iha ihb => simp [writesBefore, iha, ihb]
  | _ => rfl

theorem writesBefore_eq (b : Block) (rest : List Write) :
    writesBefore b rest = writes b ++ rest :=
  writesBefore_append b [] rest

theorem writes_quote (body : Block) :
    writes (.quote body) =
      .bytes [Opcode.opening.byte] :: writes body ++ [.bytes [Opcode.closing.byte]] := by
  rw [writes, writesBefore, writesBefore_eq, List.cons_append]

theorem writes_pair (a b : Block) : writes (.pair a b) = writes a ++ writes b :=
  writesBefore_eq a (writes b)

/-- The bytes that reach a destination with limited room, `none` for no limit,
and how the writing ends. A write that does not fit is cut off. -/
def send (room : Option Nat) : List Write → Bytes × Except EncodeError Unit
  | [] => ([], .ok ())
  | .name name :: _ => ([], .error (.unresolved name))
  | .bytes bytes :: rest =>
    match room with
    | none =>
      let (sent, result) := send none rest
      (bytes ++ sent, result)
    | some room =>
      if bytes.length ≤ room then
        let (sent, result) := send (some (room - bytes.length)) rest
        (bytes ++ sent, result)
      else (bytes.take room, .error .destinationFull)

/-- Writes a block behind bytes that are there already. -/
def encodeInto (held : Bytes) (room : Option Nat) (b : Block) : Bytes × Except EncodeError Unit :=
  let (sent, result) := send room (writes b)
  (held ++ sent, result)

def encode (b : Block) : Except EncodeError Bytes :=
  match encodeInto [] none b with
  | (bytes, .ok ()) => .ok bytes
  | (_, .error e) => .error e

end Bytecode

end BlockCalculus
