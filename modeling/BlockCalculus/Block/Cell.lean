import BlockCalculus.Block.Comparison

/-! Blocks as they lie in memory. A quotation holds its body and a composition
its parts by reference, and what copies a value copies no more than its outermost
references. The labels of references tell which of them lead to the same part. -/

namespace BlockCalculus

/-- What is known of a reference. -/
inductive Label where
  /-- No other reference leads to the part. -/
  | sole
  /-- The part stood at this place of the value that was copied at this time. -/
  | shared (time : Nat) (place : Block.Place)
  deriving DecidableEq

namespace Label

/-- Both references are known to lead to one part. -/
def meets : Label → Label → Bool
  | shared time place, shared time' place' => time == time' && place == place'
  | _, _ => false

/-- The label of a reference after a copying, unless it has one from before. -/
def share (time : Nat) (place : Block.Place) : Label → Label
  | sole => shared time place
  | l => l

end Label

/-- A block with a label at every reference in it. -/
inductive Cell where
  | empty
  | prim (operator : Primitive)
  | quote (label : Label) (body : Cell)
  | pair (label : Label) (first : Cell) (label' : Label) (second : Cell)
  | link (target : Address)
  | num (value : Binary64)
  | var (name : String)
  deriving DecidableEq

namespace Cell

instance : Inhabited Cell := ⟨empty⟩

/-- The block, whatever its references. -/
def block : Cell → Block
  | empty => .empty
  | prim p => .prim p
  | quote _ body => .quote body.block
  | pair _ a _ b => .pair a.block b.block
  | link target => .link target
  | num x => .num x
  | var name => .var name

/-- A block that has just been built, with nothing in it shared. -/
def ofBlock : Block → Cell
  | .empty => empty
  | .prim p => prim p
  | .quote body => quote .sole (ofBlock body)
  | .pair a b => pair .sole (ofBlock a) .sole (ofBlock b)
  | .link target => link target
  | .num x => num x
  | .var name => var name

def isEmpty : Cell → Bool
  | empty => true
  | _ => false

/-- The entries of the composition that leans to the right. -/
def items : Cell → List Cell
  | empty => []
  | pair _ a _ b => a :: b.items
  | c => [c]

/-- A composition of two parts that are moved into it. -/
def before (entry rest : Cell) : Cell :=
  pair .sole entry .sole rest

/-- The composition of a list that leans to the right. -/
def ofItems : List Cell → Cell
  | [] => empty
  | [c] => c
  | c :: rest => c.before (ofItems rest)

/-- The parts in program order that are neither compositions nor empty. A
quotation is taken over unless its body is out of normal form. -/
def pieces : Cell → List Cell
  | empty => []
  | pair _ a _ b => a.pieces ++ b.pieces
  | quote l body => if body.block.isNormal then [quote l body] else [quote .sole (ofItems body.pieces)]
  | c => [c]

/-- One entry in front of what is composed already. -/
def prepend (entry built : Cell) : Cell :=
  if built.isEmpty then entry else entry.before built

/-- One program after another, in normal form. The last one that is not empty is
taken over if it is in normal form. -/
def compose (cells : List Cell) : Cell :=
  cells.foldr (fun c built =>
    if built.isEmpty && c.block.isNormal then c else c.pieces.foldr prepend built) empty

/-- Puts the entries of `a` in front of `b` and looks no deeper. -/
def append (a b : Cell) : Cell :=
  if b.isEmpty then a else a.items.foldr before b

/-- Labels what a copying shares, below this place of the value copied. -/
def mark (time : Nat) (place : Block.Place) : Cell → Cell
  | quote l body => quote (l.share time (.body :: place)) (body.mark time (.body :: place))
  | pair l a m b =>
    pair (l.share time (.first :: place)) (a.mark time (.first :: place))
      (m.share time (.second :: place)) (b.mark time (.second :: place))
  | c => c

/-- A value as both copies hold it. -/
def copied (time : Nat) (c : Cell) : Cell :=
  c.mark time []

/-- Comparison of two values that passes over parts known to be one and the
same. Second parts are passed over only after first parts of one compound kind. -/
def same : Cell → Cell → Bool
  | quote l a, quote m b => if l.meets m then true else a.same b
  | pair l a l' c, pair m b m' d =>
    if l.meets m then c.same d
    else
      match Block.shallow? a.block b.block with
      | some true => c.same d
      | some false => false
      | none => a.same b && (l'.meets m' || c.same d)
  | a, b => Block.leafEqual a.block b.block

end Cell

end BlockCalculus
