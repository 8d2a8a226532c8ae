/-! The primitive operators of the calculus, their written names and the
capabilities that the three markers take away. -/

namespace BlockCalculus

/-- Operators, substructural markers, equality guards and the reserved tag. -/
inductive Primitive where
  | app | box | cat | copy | drop | swap
  | nocopy | nodrop | noswap
  | eq | neq
  | tag
  deriving DecidableEq, Repr, Inhabited

namespace Primitive

/-- All primitives, in the order of their opcodes. -/
def all : List Primitive :=
  [.app, .box, .cat, .copy, .drop, .swap, .nocopy, .nodrop, .noswap, .eq, .neq, .tag]

def mnemonic : Primitive → String
  | .app => "app"
  | .box => "box"
  | .cat => "cat"
  | .copy => "copy"
  | .drop => "drop"
  | .swap => "swap"
  | .nocopy => "nocopy"
  | .nodrop => "nodrop"
  | .noswap => "noswap"
  | .eq => "eq"
  | .neq => "neq"
  | .tag => "tag"

def ofMnemonic? (word : String) : Option Primitive :=
  all.find? fun p => p.mnemonic == word

def isMarker : Primitive → Bool
  | .nocopy | .nodrop | .noswap => true
  | _ => false

theorem ofMnemonic?_mnemonic (p : Primitive) : ofMnemonic? p.mnemonic = some p := by
  cases p <;> rfl

theorem mnemonic_of_ofMnemonic? {word : String} {p : Primitive}
    (h : ofMnemonic? word = some p) : p.mnemonic = word := by
  simpa using List.find?_some h

end Primitive

/-- What an operator needs of the values that it duplicates, erases or moves. -/
inductive Capability where
  | copy | drop | swap
  deriving DecidableEq, Repr

/-- The marker whose presence takes the capability away. -/
def Capability.marker : Capability → Primitive
  | .copy => .nocopy
  | .drop => .nodrop
  | .swap => .noswap

end BlockCalculus
