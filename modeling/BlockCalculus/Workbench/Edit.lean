import BlockCalculus.Bytecode.Digest
import BlockCalculus.Reduction.Run
import BlockCalculus.Workbench.Stack

/-! A stack of blocks under construction, edited one entry at a time. An edit
that does not fit the stack leaves it as it is. -/

namespace BlockCalculus

structure Workbench where
  stack : Stack Block
  /-- The addresses minted here and the blocks they stand for, latest first. -/
  links : List (Address × Block)
  deriving DecidableEq

inductive Edit where
  | push (b : Block)
  /-- Quotes the top. -/
  | box
  /-- Replaces a quotation by its body. -/
  | unbox
  /-- Composes the top two entries, the lower one first. -/
  | join
  /-- Splits a composition into its first entry and the rest. -/
  | split
  /-- Replaces the top by its content address. -/
  | mint
  /-- Replaces an address that was minted here by its block. -/
  | follow
  | copy
  | drop
  | swap
  | reduce (quota : Nat)
  deriving DecidableEq

namespace Workbench

def empty : Workbench :=
  ⟨[], []⟩

/-- The whole stack as one block, from the bottom. -/
def block (w : Workbench) : Block :=
  Block.compose w.stack.fromBottom

/-- The entries from the bottom. -/
def render (w : Workbench) : String :=
  " - ".intercalate (w.stack.fromBottom.map Block.render)

variable {σ : Type}

/-- Edits the stack. Only minting an address for a block with names fails. An entry is
reduced as if it had been built anew, since entries without a NaN reduce alike whatever
they share. -/
def edit (host : Host σ) (e : Edit) (w : Workbench) (memory : σ) :
    Except EncodeError Workbench × σ :=
  match e, w.stack with
  | .push b, stack => (.ok { w with stack := b :: stack }, memory)
  | .box, top :: rest => (.ok { w with stack := .quote top :: rest }, memory)
  | .unbox, .quote body :: rest => (.ok { w with stack := body :: rest }, memory)
  | .join, upper :: lower :: rest =>
    (.ok { w with stack := Block.compose [lower, upper] :: rest }, memory)
  | .split, .pair first second :: rest => (.ok { w with stack := second :: first :: rest }, memory)
  | .mint, top :: rest =>
    match Bytecode.addressOf top with
    | .ok target =>
      (.ok ⟨.link target :: rest, (target, top) :: w.links⟩, host.record (.minted target) memory)
    | .error e => (.error e, memory)
  | .follow, .link target :: rest =>
    match w.links.lookup target with
    | some b => (.ok { w with stack := b :: rest }, memory)
    | none => (.ok w, memory)
  | .copy, top :: rest => (.ok { w with stack := top :: top :: rest }, memory)
  | .drop, _ :: rest => (.ok { w with stack := rest }, memory)
  | .swap, stack => (.ok { w with stack := stack.exchange?.getD stack }, memory)
  | .reduce quota, top :: rest =>
    let (o, memory) := Reduction.reduce host.nameless.coarse quota top memory
    (.ok { w with stack := o.block :: rest }, memory)
  | _, _ => (.ok w, memory)

end Workbench

end BlockCalculus
