import BlockCalculus.Proofs.Notation.Grammar

/-! What is written is read back exactly if each leaf is. The tokens of a block spell it if
its leaves are read back, and tokens that spell a block hold its leaves in their order. -/

namespace BlockCalculus

open Notation

def Token.word? : Token → Option (List Char)
  | word w => some w
  | _ => none

namespace Block

theorem plain_tokens {b : Block} (hb : ∀ n ∈ b.names, isName n) : ∀ t ∈ b.tokens, t.Plain := by
  induction b with
  | empty => exact List.forall_mem_nil _
  | quote body ih =>
    rw [tokens_quote]
    intro t ht
    simp only [List.cons_append, List.mem_cons, List.mem_append, List.not_mem_nil, or_false] at ht
    rcases ht with rfl | ht | rfl
    · trivial
    · exact ih hb t ht
    · trivial
  | pair a b iha ihb =>
    have hn := List.forall_mem_append.mp hb
    rw [tokens_pair]
    exact List.forall_mem_append.mpr ⟨iha hn.1, ihb hn.2⟩
  | prim p =>
    have hi := isIdentifier_mnemonic p
    exact List.forall_mem_singleton.mpr ⟨ne_nil_of_isIdentifier hi, all_of_isIdentifier hi⟩
  | link target =>
    refine List.forall_mem_singleton.mpr ⟨List.cons_ne_nil _ _, ?_⟩
    exact Bytes.all_hexChars target.bytes
  | num x => exact List.forall_mem_singleton.mpr (plain_chars x)
  | var n =>
    have hi := isIdentifier_of_isName (hb n List.mem_cons_self)
    exact List.forall_mem_singleton.mpr ⟨ne_nil_of_isIdentifier hi, all_of_isIdentifier hi⟩

theorem words_tokens (b : Block) : b.tokens.filterMap Token.word? = b.atoms.map word := by
  induction b with
  | quote body ih => simp [tokens_quote, List.filterMap_cons, Token.word?, atoms, ih]
  | pair a b iha ihb => simp [tokens_pair, atoms, iha, ihb]
  | _ => rfl

end Block

namespace Notation

theorem spells_tokens {b : Block} (hb : ∀ x ∈ b.atoms, leaf x.word = .ok x) : Spells b b.tokens := by
  induction b with
  | empty => exact .empty
  | quote body ih =>
    rw [Block.tokens_quote]
    exact .quote (ih hb)
  | pair a b iha ihb =>
    have h := List.forall_mem_append.mp hb
    rw [Block.tokens_pair]
    exact .pair (iha h.1) (ihb h.2)
  | _ =>
    have hleaf := leaf_eq_ok_iff.mp (hb _ List.mem_cons_self)
    exact .leaf hleaf

theorem Denotes.atoms {w : List Char} {b : Block} (h : Denotes w b) : b.atoms = [b] := by
  cases h <;> rfl

theorem Spells.atoms {b : Block} {tokens : List Token} (h : Spells b tokens) :
    b.atoms.map .ok = (tokens.filterMap Token.word?).map Notation.leaf := by
  induction h with
  | empty => rfl
  | leaf h => simp [h.atoms, Token.word?, leaf_of_denotes h]
  | quote h ih => simpa [Block.atoms, List.filterMap_cons, Token.word?] using ih
  | pair ha hb iha ihb => simp [Block.atoms, iha, ihb]

/-- A block is read back from its written form, up to normal form and with the literals
compared by bits, if and only if all its literals are finite. -/
theorem parse_render_iff {b : Block} (hb : ∀ n ∈ b.names, isName n) :
    parse b.render = .ok (Block.compose [b]) ↔ ∀ v, Block.num v ∈ b.atoms → v.isFinite := by
  have hscan : Token.scan b.render.toList = b.tokens := by
    rw [Block.render, String.toList_ofList, Token.scan_spell (Block.plain_tokens hb)]
  rw [parse, hscan, ← Block.leaf_word_iff hb]
  constructor
  · intro h
    have hatoms := (assemble_eq_ok_iff.mp h).2.atoms
    rw [Block.words_tokens, Block.atoms_compose, List.flatMap_singleton, List.map_map] at hatoms
    intro x hx
    exact (List.map_inj_left.mp hatoms x hx).symm
  · exact fun h => assemble_of_spells (spells_tokens h)

/-- One tenth and a name in a block that is not normal are read back; infinity is not. -/
theorem parse_render_tenth :
    (∀ n ∈ ["tenth"], isName n) ∧
    parse (Block.pair (.pair .empty (.num ⟨0x3FB999999999999A⟩)) (.quote (.var "tenth"))).render =
      .ok (.pair (.num ⟨0x3FB999999999999A⟩) (.quote (.var "tenth"))) ∧
    parse (Block.num ⟨0x7FF0000000000000⟩).render ≠ .ok (.num ⟨0x7FF0000000000000⟩) := by
  have hname : ∀ n ∈ ["tenth"], isName n := by decide
  refine ⟨hname, ?_, fun h => ?_⟩
  · refine (parse_render_iff
      (b := .pair (.pair .empty (.num ⟨0x3FB999999999999A⟩)) (.quote (.var "tenth"))) hname).mpr ?_
    intro v hv
    have hv : v = ⟨0x3FB999999999999A⟩ := by simpa [Block.atoms] using hv
    rw [hv]
    decide
  · have hfinite := (parse_render_iff (List.forall_mem_nil _)).mp h ⟨0x7FF0000000000000⟩ List.mem_cons_self
    revert hfinite
    decide

end Notation

end BlockCalculus
