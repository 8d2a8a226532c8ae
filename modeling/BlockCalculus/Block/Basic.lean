import BlockCalculus.Address
import BlockCalculus.Block.Primitive
import BlockCalculus.Number.Binary64

/-! Blocks of code. A block is in normal form when its compositions lean to
the right and hold no empty program; the pieces of a block determine its normal
form. -/

namespace BlockCalculus

inductive Block where
  /-- The empty program. -/
  | empty
  | prim (operator : Primitive)
  /-- Code wrapped for later application. -/
  | quote (body : Block)
  /-- One program after another. -/
  | pair (first second : Block)
  /-- A block that only its content address names. -/
  | link (target : Address)
  | num (value : Binary64)
  /-- A name that stands for a block defined elsewhere. -/
  | var (name : String)
  deriving DecidableEq

namespace Block

instance : Inhabited Block := ⟨empty⟩

def isEmpty : Block → Bool
  | empty => true
  | _ => false

def isPair : Block → Bool
  | pair .. => true
  | _ => false

/-- Values can sit on the data stack. -/
def isValue : Block → Bool
  | quote _ | link _ | num _ => true
  | _ => false

def body? : Block → Option Block
  | quote body => some body
  | _ => none

/-- The number of leaves, where a quotation counts once beside its body. -/
def size : Block → Nat
  | empty => 0
  | pair a b => a.size + b.size
  | quote body => body.size + 1
  | _ => 1

/-- The number of constructors, the empty program and compositions included. -/
def nodes : Block → Nat
  | quote body => body.nodes + 1
  | pair a b => a.nodes + b.nodes + 1
  | _ => 1

theorem nodes_pos (b : Block) : 0 < b.nodes := by
  cases b <;> simp [nodes]

/-- The entries of the composition that leans to the right. -/
def items : Block → List Block
  | empty => []
  | pair a b => a :: b.items
  | b => [b]

/-- The composition of a list that leans to the right. -/
def ofItems : List Block → Block
  | [] => empty
  | [b] => b
  | b :: rest => pair b (ofItems rest)

/-- The parts in program order that are neither compositions nor empty, with
the bodies of quotations in normal form. -/
def pieces : Block → List Block
  | empty => []
  | pair a b => a.pieces ++ b.pieces
  | quote body => [quote (ofItems body.pieces)]
  | b => [b]

/-- Whether the block and every quoted body are in normal form. -/
def isNormal : Block → Bool
  | pair a b => !a.isPair && !a.isEmpty && !b.isEmpty && a.isNormal && b.isNormal
  | quote body => body.isNormal
  | _ => true

/-- One program after another, in normal form. -/
def compose (blocks : List Block) : Block :=
  ofItems (blocks.flatMap pieces)

def cat (a b : Block) : Block :=
  compose [a, b]

/-- Puts the entries of `a` in front of `b` and looks no deeper. -/
def append (a b : Block) : Block :=
  if b.isEmpty then a else a.items.foldr pair b

/-- Composition of blocks in normal form, along their outer compositions
only. -/
def join (blocks : List Block) : Block :=
  blocks.foldr append empty

/-- The value has the capability: its marker occurs nowhere in it. -/
def has (c : Capability) : Block → Bool
  | prim p => p != c.marker
  | quote body => body.has c
  | pair a b => a.has c && b.has c
  | _ => true

/-- The names in program order, at any depth. -/
def names : Block → List String
  | var name => [name]
  | quote body => body.names
  | pair a b => a.names ++ b.names
  | _ => []

end Block

end BlockCalculus
