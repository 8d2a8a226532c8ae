import BlockCalculus.Block.Primitive

/-! The first byte of each bytecode token. -/

namespace BlockCalculus

/-- A primitive is a token of one byte; quotations have a byte at each end,
and links and literals are followed by a payload. -/
inductive Opcode where
  | opening
  | prim (operator : Primitive)
  | link
  | closing
  | num
  deriving DecidableEq, Repr

namespace Opcode

def byte : Opcode → UInt8
  | opening => 0x00
  | prim .app => 0x01
  | prim .box => 0x02
  | prim .cat => 0x03
  | prim .copy => 0x04
  | prim .drop => 0x05
  | prim .swap => 0x06
  | prim .nocopy => 0x07
  | prim .nodrop => 0x08
  | prim .noswap => 0x09
  | prim .eq => 0x0a
  | prim .neq => 0x0b
  | prim .tag => 0x0c
  | link => 0x0d
  | closing => 0x0e
  | num => 0x0f

def all : List Opcode :=
  [opening] ++ Primitive.all.map prim ++ [link, closing, num]

def ofByte? (b : UInt8) : Option Opcode :=
  all.find? fun op => op.byte == b

def prim? : Opcode → Option Primitive
  | prim p => some p
  | _ => none

def name : Opcode → String
  | opening => "Begin"
  | prim p => p.mnemonic
  | link => "Link"
  | closing => "End"
  | num => "Num"

theorem ofByte?_byte (op : Opcode) : ofByte? op.byte = some op := by
  cases op with
  | prim p => cases p <;> rfl
  | _ => rfl

theorem byte_of_ofByte? {b : UInt8} {op : Opcode} (h : ofByte? b = some op) : op.byte = b := by
  simpa using List.find?_some h

end Opcode

end BlockCalculus
