import BlockCalculus.Block.Assembly
import BlockCalculus.Bytecode.Opcode

/-! Reading bytecode one byte at a time. Each byte moves the decoder on or is
an error, so an error stands whatever follows; the end of the stream decides
about what is still open. -/

namespace BlockCalculus

inductive DecodeError where
  | unknownOpcode (byte : UInt8)
  | unexpectedEnd
  | unclosed (depth : Nat)
  | truncatedLink (got : Nat)
  | truncatedNum (got : Nat)
  /-- A read failed. -/
  | unreadable
  deriving DecidableEq, Repr

def DecodeError.message : DecodeError → String
  | unknownOpcode b => "Unknown opcode: 0x" ++ Bytes.hex [b]
  | unexpectedEnd => "Unbalanced block: `End` without a matching `Begin`"
  | unclosed depth => "Unbalanced block: " ++ toString depth ++ " quotation(s) left open"
  | truncatedLink got => "Truncated link: expected 32 hash bytes, got " ++ toString got
  | truncatedNum got => "Truncated number: expected 8 bytes, got " ++ toString got
  | unreadable => "IO error: read failed"

namespace Bytecode

/-- How a stream stops after its bytes: at its end, or at a failed read. -/
inductive Ending where
  | complete
  | failed
  deriving DecidableEq

/-- A payload under way, newest byte first. -/
inductive Payload where
  | link (read : Bytes)
  | num (read : Bytes)
  deriving DecidableEq

structure Decoder where
  assembly : Assembly
  payload : Option Payload
  deriving DecidableEq

namespace Decoder

def start : Decoder :=
  ⟨.start, none⟩

def opcode (a : Assembly) : Opcode → Except DecodeError Decoder
  | .prim p => .ok ⟨a.add (.prim p), none⟩
  | .opening => .ok ⟨a.enter, none⟩
  | .closing =>
    match a.leave? with
    | some a => .ok ⟨a, none⟩
    | none => .error .unexpectedEnd
  | .link => .ok ⟨a, some (.link [])⟩
  | .num => .ok ⟨a, some (.num [])⟩

def feed (d : Decoder) (b : UInt8) : Except DecodeError Decoder :=
  match d.payload with
  | none =>
    match Opcode.ofByte? b with
    | some op => opcode d.assembly op
    | none => .error (.unknownOpcode b)
  | some (.link read) =>
    match Address.ofBytes? (b :: read).reverse with
    | some target => .ok ⟨d.assembly.add (.link target), none⟩
    | none => .ok { d with payload := some (.link (b :: read)) }
  | some (.num read) =>
    if read.length + 1 = 8 then
      let bits := UInt64.ofNat (Bytes.toNat (b :: read).reverse)
      .ok ⟨d.assembly.add (.num ⟨bits⟩), none⟩
    else .ok { d with payload := some (.num (b :: read)) }

def finish (d : Decoder) : Except DecodeError Block :=
  match d.payload with
  | some (.link read) => .error (.truncatedLink read.length)
  | some (.num read) => .error (.truncatedNum read.length)
  | none =>
    match d.assembly.block? with
    | some b => .ok b
    | none => .error (.unclosed d.assembly.depth)

end Decoder

def decodeFrom (ending : Ending) (bytes : Bytes) : Except DecodeError Block := do
  let d ← bytes.foldlM Decoder.feed Decoder.start
  match ending with
  | .complete => d.finish
  | .failed => .error .unreadable

def decode (bytes : Bytes) : Except DecodeError Block :=
  decodeFrom .complete bytes

/-- Reads a stream whose reads fail once `n` bytes have been given. -/
def decodeFailingAfter (n : Nat) (bytes : Bytes) : Except DecodeError Block :=
  if bytes.length < n then decode bytes else decodeFrom .failed (bytes.take n)

end Bytecode

end BlockCalculus
