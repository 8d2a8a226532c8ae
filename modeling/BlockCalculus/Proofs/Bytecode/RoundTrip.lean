import BlockCalculus.Bytecode.Decode
import BlockCalculus.Proofs.Block.Assembly
import BlockCalculus.Proofs.Bytecode.Written
import BlockCalculus.Proofs.Bytes
import Mathlib.Logic.Equiv.Defs

/-! Decoding and encoding are inverse to each other. Forwards, the decoder adds
the pieces of a block once it has read its bytes; backwards, what has been
assembled is written with the bytes read so far. -/

namespace BlockCalculus

namespace Bytecode.Decoder

theorem feed_byte (a : Assembly) (op : Opcode) : feed ⟨a, none⟩ op.byte = opcode a op := by
  simp [feed, Opcode.ofByte?_byte]

theorem foldlM_feed_cons (d : Decoder) (b : UInt8) (bytes : Bytes) :
    (b :: bytes).foldlM feed d = (feed d b).bind fun d => bytes.foldlM feed d := rfl

theorem feed_link_last {target : Address} (a : Assembly) {read : Bytes} {b : UInt8}
    (h : (b :: read).reverse = target.bytes) :
    feed ⟨a, some (.link read)⟩ b = .ok ⟨a.add (.link target), none⟩ := by
  simp only [feed, h, Address.ofBytes?_bytes]

theorem feed_link_more (a : Assembly) {read : Bytes} {b : UInt8} (h : read.length + 1 ≠ 32) :
    feed ⟨a, some (.link read)⟩ b = .ok ⟨a, some (.link (b :: read))⟩ := by
  have hl : (b :: read).reverse.length ≠ 32 := by simpa using h
  simp only [feed, Address.ofBytes?, dif_neg hl]

theorem feed_num_last {x : Binary64} (a : Assembly) {read : Bytes} {b : UInt8}
    (h : (b :: read).reverse = Bytes.ofNat 8 x.bits.toNat) :
    feed ⟨a, some (.num read)⟩ b = .ok ⟨a.add (.num x), none⟩ := by
  have hl : read.length + 1 = 8 := by simpa using congrArg List.length h
  have hx : UInt64.ofNat (Bytes.ofNat 8 x.bits.toNat).toNat = x.bits := by
    apply UInt64.toNat_inj.mp
    have hlt : x.bits.toNat < 256 ^ 8 := x.bits.toNat_lt
    rw [Bytes.toNat_ofNat, Nat.mod_eq_of_lt hlt]
    exact UInt64.toNat_ofNat_of_lt x.bits.toNat_lt
  simp only [feed, hl, if_true, h, hx]

theorem feed_num_more (a : Assembly) {read : Bytes} {b : UInt8} (h : read.length + 1 ≠ 8) :
    feed ⟨a, some (.num read)⟩ b = .ok ⟨a, some (.num (b :: read))⟩ := by
  simp only [feed, if_neg h]

theorem foldlM_feed_link {target : Address} (a : Assembly) {read bytes : Bytes}
    (h : read.reverse ++ bytes = target.bytes) (hne : bytes ≠ []) (rest : Bytes) :
    (bytes ++ rest).foldlM feed ⟨a, some (.link read)⟩ =
      rest.foldlM feed ⟨a.add (.link target), none⟩ := by
  induction bytes generalizing read with
  | nil => exact (hne rfl).elim
  | cons b bytes ih =>
    have hr : (b :: read).reverse ++ bytes = target.bytes := by simpa using h
    have hl : read.length + (bytes.length + 1) = 32 := by
      simpa [target.length_eq] using congrArg List.length h
    rw [List.cons_append, foldlM_feed_cons]
    by_cases he : bytes = []
    · subst he
      rw [feed_link_last a (by simpa using hr)]
      rfl
    · have := List.length_pos_iff.mpr he
      rw [feed_link_more a (by omega)]
      exact ih hr he

theorem foldlM_feed_num {x : Binary64} (a : Assembly) {read bytes : Bytes}
    (h : read.reverse ++ bytes = Bytes.ofNat 8 x.bits.toNat) (hne : bytes ≠ []) (rest : Bytes) :
    (bytes ++ rest).foldlM feed ⟨a, some (.num read)⟩ =
      rest.foldlM feed ⟨a.add (.num x), none⟩ := by
  induction bytes generalizing read with
  | nil => exact (hne rfl).elim
  | cons b bytes ih =>
    have hr : (b :: read).reverse ++ bytes = Bytes.ofNat 8 x.bits.toNat := by simpa using h
    have hl : read.length + (bytes.length + 1) = 8 := by simpa using congrArg List.length h
    rw [List.cons_append, foldlM_feed_cons]
    by_cases he : bytes = []
    · subst he
      rw [feed_num_last a (by simpa using hr)]
      rfl
    · have := List.length_pos_iff.mpr he
      rw [feed_num_more a (by omega)]
      exact ih hr he

/-- Reading the bytes of a block adds its pieces, whatever follows. -/
theorem foldlM_feed_written {b : Block} (hb : b.names = []) (a : Assembly) (rest : Bytes) :
    (written b ++ rest).foldlM feed ⟨a, none⟩ = rest.foldlM feed ⟨a.addAll b.pieces, none⟩ := by
  induction b generalizing a rest with
  | empty => rfl
  | prim p => simp only [written, List.singleton_append, foldlM_feed_cons, feed_byte]; rfl
  | var name => simp [Block.names] at hb
  | link target =>
    have hne : target.bytes ≠ [] := fun h => by simpa [h] using target.length_eq
    rw [written, List.cons_append, foldlM_feed_cons, feed_byte]
    have hr : ([] : Bytes).reverse ++ target.bytes = target.bytes := rfl
    exact foldlM_feed_link a hr hne rest
  | num x =>
    rw [written, List.cons_append, foldlM_feed_cons, feed_byte]
    have hr : ([] : Bytes).reverse ++ Bytes.ofNat 8 x.bits.toNat = Bytes.ofNat 8 x.bits.toNat := rfl
    exact foldlM_feed_num a hr (by simp [Bytes.ofNat]) rest
  | pair b c ihb ihc =>
    have hn := List.append_eq_nil_iff.mp hb
    rw [written, List.append_assoc, ihb hn.1, ihc hn.2, Block.pieces, Assembly.addAll_append]
  | quote body ih =>
    rw [written, List.cons_append, foldlM_feed_cons, feed_byte, List.append_assoc]
    change List.foldlM feed ⟨a.enter, none⟩ _ = _
    rw [ih hb, List.singleton_append, foldlM_feed_cons, feed_byte, opcode,
      Assembly.leave?_enter_addAll]
    rfl

end Bytecode.Decoder

namespace Bytecode

theorem decode_written {b : Block} (hb : b.names = []) :
    decode (written b) = .ok (Block.compose [b]) := by
  have hf := Decoder.foldlM_feed_written hb .start []
  have hfinish : Decoder.finish ⟨Assembly.start.addAll b.pieces, none⟩ = .ok (Block.compose [b]) := by
    simp only [Decoder.finish, Assembly.block?_start_addAll]
  rw [List.append_nil] at hf
  rw [decode, decodeFrom, Decoder.start, hf]
  exact hfinish

/-! What a decoder has read, from what it holds. -/

/-- The bytes in front of the innermost quotation, its opening included. -/
def writtenOuter : List (List Block) → Bytes
  | [] => []
  | around :: outer =>
    writtenOuter outer ++ around.reverse.flatMap written ++ [Opcode.opening.byte]

def Payload.written : Payload → Bytes
  | link read => Opcode.link.byte :: read.reverse
  | num read => Opcode.num.byte :: read.reverse

def Decoder.written (d : Decoder) : Bytes :=
  writtenOuter d.assembly.outer ++ d.assembly.current.reverse.flatMap Bytecode.written ++
    (d.payload.map Payload.written).getD []

/-- The entries of an assembly are pieces without names. -/
def AllPieces (a : Assembly) : Prop :=
  ∀ l ∈ a.current :: a.outer, ∀ b ∈ l, b.isPiece ∧ b.names = []

theorem AllPieces.add {a : Assembly} {b : Block} (h : AllPieces a) (hp : b.isPiece)
    (hn : b.names = []) : AllPieces (a.add b) := by
  obtain ⟨hc, ho⟩ := List.forall_mem_cons.mp h
  exact List.forall_mem_cons.mpr ⟨List.forall_mem_cons.mpr ⟨⟨hp, hn⟩, hc⟩, ho⟩

theorem AllPieces.enter {a : Assembly} (h : AllPieces a) : AllPieces a.enter :=
  List.forall_mem_cons.mpr ⟨List.forall_mem_nil _, h⟩

theorem join_reverse {l : List Block} (h : ∀ b ∈ l, b.isPiece ∧ b.names = []) :
    Block.join l.reverse = Block.ofItems l.reverse :=
  Block.join_of_isPiece fun b hb => (h b (List.mem_reverse.mp hb)).1

theorem names_ofItems_reverse {l : List Block} (h : ∀ b ∈ l, b.isPiece ∧ b.names = []) :
    (Block.ofItems l.reverse).names = [] := by
  rw [Block.names_ofItems, List.flatMap_eq_nil_iff]
  exact fun b hb => (h b (List.mem_reverse.mp hb)).2

theorem isNormal_ofItems_reverse {l : List Block} (h : ∀ b ∈ l, b.isPiece ∧ b.names = []) :
    (Block.ofItems l.reverse).isNormal :=
  Block.isNormal_ofItems fun b hb => (h b (List.mem_reverse.mp hb)).1

theorem AllPieces.leave {a a' : Assembly} (h : AllPieces a) (he : a.leave? = some a') :
    AllPieces a' := by
  obtain ⟨current, outer⟩ := a
  cases outer with
  | nil => cases he
  | cons around outer =>
    cases he
    obtain ⟨hc, ho⟩ := List.forall_mem_cons.mp h
    obtain ⟨ha, ho⟩ := List.forall_mem_cons.mp ho
    refine List.forall_mem_cons.mpr ⟨List.forall_mem_cons.mpr ⟨?_, ha⟩, ho⟩
    rw [join_reverse hc]
    exact ⟨by simpa [Block.isPiece, Block.isPair, Block.isEmpty, Block.isNormal] using
      isNormal_ofItems_reverse hc, names_ofItems_reverse hc⟩

theorem Decoder.written_opcode {a : Assembly} {op : Opcode} {d : Decoder}
    (h : opcode a op = .ok d) (ha : AllPieces a) :
    d.written = (⟨a, none⟩ : Decoder).written ++ [op.byte] ∧ AllPieces d.assembly := by
  cases op with
  | prim p =>
    cases h
    exact ⟨by simp [Decoder.written, Assembly.add, Bytecode.written], ha.add rfl rfl⟩
  | opening =>
    cases h
    exact ⟨by simp [Decoder.written, Assembly.enter, writtenOuter], ha.enter⟩
  | link =>
    cases h
    exact ⟨by simp [Decoder.written, Payload.written], ha⟩
  | num =>
    cases h
    exact ⟨by simp [Decoder.written, Payload.written], ha⟩
  | closing =>
    obtain ⟨current, outer⟩ := a
    cases outer with
    | nil => cases h
    | cons around outer =>
      cases h
      have hj := join_reverse (ha current List.mem_cons_self)
      refine ⟨?_, ha.leave rfl⟩
      simp [Decoder.written, writtenOuter, hj, Bytecode.written]

theorem Decoder.written_feed {d d' : Decoder} {b : UInt8} (h : d.feed b = .ok d')
    (hd : AllPieces d.assembly) : d'.written = d.written ++ [b] ∧ AllPieces d'.assembly := by
  obtain ⟨a, payload⟩ := d
  cases payload with
  | none =>
    simp only [feed] at h
    split at h
    · rename_i op hop
      rw [← Opcode.byte_of_ofByte? hop]
      exact written_opcode h hd
    · cases h
  | some payload =>
    cases payload with
    | link read =>
      simp only [feed] at h
      split at h
      · rename_i target ht
        cases h
        have hb : target.bytes = read.reverse ++ [b] := by
          simpa using Address.bytes_of_ofBytes? ht
        exact ⟨by simp [Decoder.written, Payload.written, Assembly.add, Bytecode.written, hb],
          hd.add rfl rfl⟩
      · cases h
        exact ⟨by simp [Decoder.written, Payload.written], hd⟩
    | num read =>
      simp only [feed] at h
      split at h
      · rename_i hl
        cases h
        generalize hx : Binary64.mk (UInt64.ofNat (Bytes.toNat (b :: read).reverse)) = x
        have hb : Bytes.ofNat 8 x.bits.toNat = read.reverse ++ [b] := by
          have hlen : (b :: read).reverse.length = 8 := by simpa using hl
          rw [← hx, Bytes.ofNat_toUInt64 hlen, List.reverse_cons]
        exact ⟨by simp [Decoder.written, Payload.written, Assembly.add, Bytecode.written, hb],
          hd.add rfl rfl⟩
      · cases h
        exact ⟨by simp [Decoder.written, Payload.written], hd⟩

theorem Decoder.written_foldlM {bytes : Bytes} {d d' : Decoder} (h : bytes.foldlM feed d = .ok d')
    (hd : AllPieces d.assembly) : d'.written = d.written ++ bytes ∧ AllPieces d'.assembly := by
  induction bytes generalizing d with
  | nil =>
    cases h
    exact ⟨(List.append_nil _).symm, hd⟩
  | cons b bytes ih =>
    rw [foldlM_feed_cons] at h
    cases hf : feed d b with
    | error e =>
      rw [hf] at h
      cases h
    | ok d₁ =>
      rw [hf] at h
      have hb := written_feed hf hd
      have hi := ih h hb.2
      exact ⟨by rw [hi.1, hb.1, List.append_assoc]; rfl, hi.2⟩

theorem written_of_decode {s : Bytes} {b : Block} (h : decode s = .ok b) :
    b.isNormal ∧ b.names = [] ∧ written b = s := by
  unfold decode decodeFrom at h
  cases hf : s.foldlM Decoder.feed Decoder.start with
  | error e =>
    rw [hf] at h
    cases h
  | ok d =>
    rw [hf] at h
    have hs : AllPieces Decoder.start.assembly :=
      List.forall_mem_cons.mpr ⟨List.forall_mem_nil _, List.forall_mem_nil _⟩
    obtain ⟨hw, hp⟩ := Decoder.written_foldlM hf hs
    obtain ⟨⟨current, outer⟩, payload⟩ := d
    cases payload with
    | some p => cases p <;> cases h
    | none =>
      cases outer with
      | cons around outer => cases h
      | nil =>
        cases h
        have hc := hp current List.mem_cons_self
        rw [join_reverse hc]
        refine ⟨isNormal_ofItems_reverse hc, names_ofItems_reverse hc, ?_⟩
        simpa [Decoder.written, writtenOuter, Decoder.start, Assembly.start] using hw

theorem decode_written_of_isNormal {b : Block} (hn : b.isNormal) (hb : b.names = []) :
    decode (written b) = .ok b := by
  rw [decode_written hb, Block.compose_singleton hn]

/-- Accepted byte strings and blocks in normal form without names. -/
noncomputable def codec :
    {s : Bytes // ∃ b, decode s = .ok b} ≃ {b : Block // b.isNormal ∧ b.names = []} where
  toFun s :=
    have h := written_of_decode s.2.choose_spec
    ⟨s.2.choose, h.1, h.2.1⟩
  invFun b := ⟨written b.1, b.1, decode_written_of_isNormal b.2.1 b.2.2⟩
  left_inv s := Subtype.ext (written_of_decode s.2.choose_spec).2.2
  right_inv b := by
    have h := decode_written_of_isNormal b.2.1 b.2.2
    have hc := Exists.choose_spec (p := fun c => decode (written b.1) = .ok c) ⟨b.1, h⟩
    exact Subtype.ext (Except.ok.inj (hc.symm.trans h))

/-- Decoding is a bijection from the byte strings that it accepts to the blocks
in normal form without names, and encoding is its inverse. -/
theorem decode_encode_bijection :
    (∀ b : Block, b.names = [] → ∃ s, encode b = .ok s ∧ decode s = .ok (Block.compose [b]) ∧
      (b.isNormal → Block.compose [b] = b)) ∧
    (∀ s b, decode s = .ok b → b.isNormal ∧ b.names = [] ∧ encode b = .ok s) ∧
    ∃ e : {s // ∃ b, decode s = .ok b} ≃ {b : Block // b.isNormal ∧ b.names = []},
      ∀ s, decode s.1 = .ok (e s).1 := by
  refine ⟨fun b hb => ?_, fun s b h => ?_, codec, fun s => s.2.choose_spec⟩
  · exact ⟨written b, encode_of_names_eq_nil hb, decode_written hb, Block.compose_singleton⟩
  · obtain ⟨hn, hv, hw⟩ := written_of_decode h
    exact ⟨hn, hv, hw ▸ encode_of_names_eq_nil hv⟩

end Bytecode

end BlockCalculus
