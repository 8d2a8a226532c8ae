import BlockCalculus.Bytecode.Encode

/-! Writing bytecode as it is carried out. What is still to be written waits in
a list, the next piece first; each write goes to a destination that may take
only part of it, and the first failure ends the writing. -/

namespace BlockCalculus.Bytecode

/-- What a destination holds, and how many bytes more it takes, `none` for any
number. -/
structure Destination where
  held : Bytes
  room : Option Nat
  deriving DecidableEq

namespace Destination

/-- Takes what fits of a write. The rest of the write comes back. -/
def accept (d : Destination) (bytes : Bytes) : Bytes × Destination :=
  match d.room with
  | none => ([], { d with held := d.held ++ bytes })
  | some room => (bytes.drop room, ⟨d.held ++ bytes.take room, some (room - bytes.length)⟩)

/-- Writes what is left again, until nothing is left or nothing is taken. -/
def writeAll (bytes : Bytes) (d : Destination) : Except EncodeError Unit × Destination :=
  if bytes.isEmpty then (.ok (), d)
  else
    let (left, d) := d.accept bytes
    if left.length < bytes.length then writeAll left d else (.error .destinationFull, d)
termination_by bytes.length

end Destination

/-- What is still to be written: a block, or the end of a quotation. -/
inductive Frame where
  | block (b : Block)
  | closing
  deriving DecidableEq

/-- More than the turns that a frame takes. -/
def Frame.weight : Frame → Nat
  | block b => 2 * b.nodes
  | closing => 1

/-- Writing changes the destination also when it fails. -/
abbrev Output := ExceptT EncodeError (StateM Destination)

def put (bytes : Bytes) : Output Unit :=
  Destination.writeAll bytes

/-- Writes all that waits. -/
def emit (waiting : List Frame) : Output Unit :=
  match waiting with
  | [] => pure ()
  | .closing :: waiting => do
    put [Opcode.closing.byte]
    emit waiting
  | .block .empty :: waiting => emit waiting
  | .block (.prim p) :: waiting => do
    put [(Opcode.prim p).byte]
    emit waiting
  | .block (.quote body) :: waiting => do
    put [Opcode.opening.byte]
    emit (.block body :: .closing :: waiting)
  | .block (.pair a b) :: waiting => emit (.block a :: .block b :: waiting)
  | .block (.link target) :: waiting => do
    put [Opcode.link.byte]
    put target.bytes
    emit waiting
  | .block (.num x) :: waiting => do
    put [Opcode.num.byte]
    put (Bytes.ofNat 8 x.bits.toNat)
    emit waiting
  | .block (.var name) :: _ => throw (.unresolved name)
termination_by (waiting.map Frame.weight).foldr (· + ·) 0
decreasing_by
  all_goals
    simp only [List.map_cons, List.foldr_cons, Frame.weight, Block.nodes]
    omega

end BlockCalculus.Bytecode
