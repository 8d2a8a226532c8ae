import BlockCalculus.Bytecode.Digest
import BlockCalculus.Proofs.Block.NormalForm

/-! The bytes of a block. They depend on its pieces only, and writing a block
without names succeeds with them. -/

namespace BlockCalculus

namespace Bytecode

/-- The bytes of the tokens in program order, where a name has none. -/
def written : Block → Bytes
  | .empty => []
  | .prim p => [(Opcode.prim p).byte]
  | .quote body => Opcode.opening.byte :: (written body ++ [Opcode.closing.byte])
  | .pair a b => written a ++ written b
  | .link target => Opcode.link.byte :: target.bytes
  | .num x => Opcode.num.byte :: Bytes.ofNat 8 x.bits.toNat
  | .var _ => []

@[simp] theorem written_ofItems (l : List Block) :
    written (Block.ofItems l) = l.flatMap written := by
  induction l with
  | nil => rfl
  | cons b l ih =>
    cases l with
    | nil => simp [Block.ofItems]
    | cons c l => simp [Block.ofItems, written, ih]

@[simp] theorem flatMap_written_pieces (b : Block) : b.pieces.flatMap written = written b := by
  induction b with
  | pair a b iha ihb => simp [Block.pieces, written, iha, ihb]
  | quote body ih => simp [Block.pieces, written, ih]
  | _ => simp [Block.pieces, written]

theorem send_writes {b : Block} (hb : b.names = []) (rest : List Write) :
    send none (writes b ++ rest) = (written b ++ (send none rest).1, (send none rest).2) := by
  induction b generalizing rest with
  | empty => rfl
  | prim p => rfl
  | link target => simp [writes, writesBefore, send, written]
  | num x => simp [writes, writesBefore, send, written]
  | var name => simp [Block.names] at hb
  | quote body ih =>
    have hi := ih hb ([.bytes [Opcode.closing.byte]] ++ rest)
    rw [writes_quote, List.cons_append, List.cons_append, List.append_assoc, send, hi]
    simp [send, written]
  | pair a b iha ihb =>
    have hn := List.append_eq_nil_iff.mp hb
    rw [writes_pair, List.append_assoc, iha hn.1, ihb hn.2, written, List.append_assoc]

theorem encodeInto_of_names_eq_nil {b : Block} (hb : b.names = []) (held : Bytes) :
    encodeInto held none b = (held ++ written b, .ok ()) := by
  have h := send_writes hb []
  rw [List.append_nil] at h
  simp [encodeInto, h, send]

theorem encode_of_names_eq_nil {b : Block} (hb : b.names = []) : encode b = .ok (written b) := by
  rw [encode, encodeInto_of_names_eq_nil hb]
  rfl

/-- Writing ends at the first name in program order. -/
theorem send_writes_unresolved {b : Block} {name : String} {later : List String}
    (hb : b.names = name :: later) (rest : List Write) :
    (send none (writes b ++ rest)).2 = .error (.unresolved name) := by
  induction b generalizing name later rest with
  | var n =>
    cases hb
    rfl
  | quote body ih =>
    rw [writes_quote, List.cons_append, List.cons_append, List.append_assoc, send]
    exact ih hb _
  | pair a b iha ihb =>
    rw [writes_pair, List.append_assoc]
    cases ha : a.names with
    | nil =>
      rw [Block.names, ha, List.nil_append] at hb
      rw [send_writes ha]
      exact ihb hb rest
    | cons n names =>
      rw [Block.names, ha] at hb
      cases hb
      exact iha ha _
  | _ => cases hb

theorem encode_of_names_eq_cons {b : Block} {name : String} {later : List String}
    (hb : b.names = name :: later) : encode b = .error (.unresolved name) := by
  have h := send_writes_unresolved hb []
  rw [List.append_nil] at h
  simp [encode, encodeInto, h]

/-- A block has an address if it has no names: the digest of its bytes. -/
theorem addressOf_eq_ok_iff {b : Block} {target : Address} :
    addressOf b = .ok target ↔ b.names = [] ∧ target = Sha256.digest (written b) := by
  cases hb : b.names with
  | nil =>
    rw [addressOf, encode_of_names_eq_nil hb]
    simp [Except.map, eq_comm]
  | cons name later =>
    rw [addressOf, encode_of_names_eq_cons hb]
    simp [Except.map]

end Bytecode

end BlockCalculus
