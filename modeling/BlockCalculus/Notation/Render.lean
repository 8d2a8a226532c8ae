import BlockCalculus.Block.Basic
import BlockCalculus.Notation.Token
import BlockCalculus.Number.Decimal

/-! The written form of a block: its leaves in program order, separated by
single blanks, with brackets around quotations. -/

namespace BlockCalculus.Block

/-- The tokens of a block, in front of the tokens that follow it. -/
def tokensBefore : Block → List Token → List Token
  | empty, rest => rest
  | prim p, rest => .word p.mnemonic.toList :: rest
  | quote body, rest => .opening :: body.tokensBefore (.closing :: rest)
  | pair a b, rest => a.tokensBefore (b.tokensBefore rest)
  | link target, rest => .word ('#' :: target.bytes.hexChars) :: rest
  | num x, rest => .word x.chars :: rest
  | var name, rest => .word name.toList :: rest

def tokens (b : Block) : List Token :=
  b.tokensBefore []

theorem tokensBefore_append (b : Block) (l rest : List Token) :
    b.tokensBefore (l ++ rest) = b.tokensBefore l ++ rest := by
  induction b generalizing l with
  | quote body ih => simp [tokensBefore, ← ih]
  | pair a b iha ihb => simp [tokensBefore, iha, ihb]
  | _ => rfl

theorem tokensBefore_eq (b : Block) (rest : List Token) :
    b.tokensBefore rest = b.tokens ++ rest :=
  b.tokensBefore_append [] rest

theorem tokens_quote (body : Block) :
    (quote body).tokens = .opening :: body.tokens ++ [.closing] := by
  rw [tokens, tokensBefore, tokensBefore_eq, List.cons_append]

theorem tokens_pair (a b : Block) : (pair a b).tokens = a.tokens ++ b.tokens :=
  a.tokensBefore_eq b.tokens

def render (b : Block) : String :=
  String.ofList (Token.spell true b.tokens)

end BlockCalculus.Block
