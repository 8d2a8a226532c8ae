import BlockCalculus.Proofs.Bytecode.RoundTrip
import Mathlib.Data.List.Basic

/-! What a decoding error says about the stream. A byte that cannot be read
spoils every continuation. If only the end came too early, the error counts what
is missing, and the stream can be completed. -/

namespace BlockCalculus

/-- The errors of a byte that cannot be read. -/
def DecodeError.Corrupt (e : DecodeError) : Prop :=
  (∃ byte, e = .unknownOpcode byte) ∨ e = .unexpectedEnd

/-- The errors of an end that comes too early. -/
def DecodeError.Cut (e : DecodeError) : Prop :=
  (∃ depth, e = .unclosed depth) ∨ (∃ got, e = .truncatedLink got) ∨ ∃ got, e = .truncatedNum got

namespace Bytecode

namespace Payload

def got : Payload → Bytes
  | link read | num read => read

def width : Payload → Nat
  | link _ => 32
  | num _ => 8

def truncated : Payload → DecodeError
  | link read => .truncatedLink read.length
  | num read => .truncatedNum read.length

end Payload

namespace Decoder

/-- A payload under way lacks a byte at least. -/
def Lacking (d : Decoder) : Prop :=
  ∀ p ∈ d.payload, p.got.length < p.width

theorem lacking_none (a : Assembly) : Lacking ⟨a, none⟩ := by
  intro p hp
  cases hp

/-- What reading bytes can come to. -/
def Read : Except DecodeError Decoder → Prop
  | .ok d => d.Lacking
  | .error e => e.Corrupt

theorem read_opcode (a : Assembly) (op : Opcode) : Read (opcode a op) := by
  cases op with
  | closing =>
    obtain ⟨current, outer⟩ := a
    cases outer with
    | nil => exact .inr rfl
    | cons around outer => exact lacking_none _
  | link =>
    intro p hp
    cases hp
    exact Nat.zero_lt_succ 31
  | num =>
    intro p hp
    cases hp
    exact Nat.zero_lt_succ 7
  | _ => exact lacking_none _

theorem read_feed {d : Decoder} (hd : d.Lacking) (b : UInt8) : Read (feed d b) := by
  obtain ⟨a, payload⟩ := d
  cases payload with
  | none =>
    simp only [feed]
    split
    · exact read_opcode a _
    · exact .inl ⟨b, rfl⟩
  | some payload =>
    -- The byte completes the payload, or leaves it one byte less short.
    have hlt := hd payload rfl
    cases payload with
    | link read =>
      by_cases hl : read.length + 1 = 32
      · have hr : (b :: read).reverse.length = 32 := by simpa using hl
        let target : Address := ⟨(b :: read).reverse, hr⟩
        have htarget : (b :: read).reverse = target.bytes := rfl
        rw [feed_link_last a htarget]
        exact lacking_none _
      · rw [feed_link_more a hl]
        intro p hp
        cases hp
        change read.length < 32 at hlt
        change read.length + 1 < 32
        omega
    | num read =>
      simp only [feed]
      split
      · exact lacking_none _
      · intro p hp
        cases hp
        change read.length < 8 at hlt
        change read.length + 1 < 8
        omega

theorem read_foldlM (s : Bytes) {d : Decoder} (hd : d.Lacking) : Read (s.foldlM feed d) := by
  induction s generalizing d with
  | nil => exact hd
  | cons b s ih =>
    have hb := read_feed hd b
    rw [foldlM_feed_cons]
    cases hf : feed d b with
    | error e =>
      rw [hf] at hb
      exact hb
    | ok d' =>
      rw [hf] at hb
      exact ih hb

/-! Completing what is open. -/

theorem finish_of_depth_eq_zero {a : Assembly} (h : a.depth = 0) :
    ∃ b, finish ⟨a, none⟩ = .ok b := by
  obtain ⟨current, outer⟩ := a
  cases List.length_eq_zero_iff.mp h
  exact ⟨_, rfl⟩

theorem finish_of_depth_pos {a : Assembly} (h : 0 < a.depth) :
    finish ⟨a, none⟩ = .error (.unclosed a.depth) := by
  obtain ⟨current, outer⟩ := a
  cases outer with
  | nil => cases h
  | cons around outer => rfl

theorem finish_of_payload (a : Assembly) (p : Payload) :
    finish ⟨a, some p⟩ = .error p.truncated := by
  cases p <;> rfl

theorem foldlM_closing {a : Assembly} {k : Nat} (h : k ≤ a.depth) :
    ∃ a', (List.replicate k Opcode.closing.byte).foldlM feed ⟨a, none⟩ = .ok ⟨a', none⟩ ∧
      a'.depth = a.depth - k := by
  induction k generalizing a with
  | zero => exact ⟨a, rfl, rfl⟩
  | succ k ih =>
    obtain ⟨current, outer⟩ := a
    cases outer with
    | nil => cases h
    | cons around outer =>
      have hk : k ≤ outer.length := Nat.le_of_succ_le_succ h
      obtain ⟨a', hf, hd⟩ := ih (a := ⟨.quote (Block.join current.reverse) :: around, outer⟩) hk
      refine ⟨a', ?_, ?_⟩
      · rw [List.replicate_succ, foldlM_feed_cons, feed_byte]
        exact hf
      · rw [hd]
        simp only [Assembly.depth, List.length_cons]
        omega

theorem foldlM_closing_too_many {a : Assembly} {k : Nat} (h : a.depth < k) :
    (List.replicate k Opcode.closing.byte).foldlM feed ⟨a, none⟩ = .error .unexpectedEnd := by
  -- After `a.depth` closing bytes nothing is open, and the next one is refused.
  obtain ⟨⟨current, outer⟩, hf, hd⟩ := foldlM_closing (Nat.le_refl a.depth)
  obtain ⟨more, rfl⟩ : ∃ more, k = a.depth + (more + 1) := ⟨k - a.depth - 1, by omega⟩
  have houter : outer = [] := List.length_eq_zero_iff.mp (hd.trans (Nat.sub_self _))
  subst houter
  rw [List.replicate_add, List.foldlM_append, hf, List.replicate_succ]
  change List.foldlM feed ⟨⟨current, []⟩, none⟩ _ = _
  rw [foldlM_feed_cons, feed_byte]
  rfl

theorem foldlM_rest {a : Assembly} {p : Payload} {t : Bytes} (hp : p.got.length < p.width)
    (ht : t.length = p.width - p.got.length) :
    ∃ a', t.foldlM feed ⟨a, some p⟩ = .ok ⟨a', none⟩ := by
  have hl : (p.got.reverse ++ t).length = p.width := by
    rw [List.length_append, List.length_reverse]
    omega
  have hne : t ≠ [] := List.ne_nil_of_length_pos (by omega)
  cases p with
  | link read =>
    let target : Address := ⟨read.reverse ++ t, hl⟩
    have htarget : read.reverse ++ t = target.bytes := rfl
    have hf := foldlM_feed_link a htarget hne []
    rw [List.append_nil] at hf
    exact ⟨_, hf⟩
  | num read =>
    -- Any eight bytes are those of some literal.
    have hbits : read.reverse ++ t =
        Bytes.ofNat 8 (UInt64.ofNat (Bytes.toNat (read.reverse ++ t))).toNat :=
      (Bytes.ofNat_toUInt64 hl).symm
    have hf := foldlM_feed_num (x := ⟨UInt64.ofNat (Bytes.toNat (read.reverse ++ t))⟩) a hbits hne []
    rw [List.append_nil] at hf
    exact ⟨_, hf⟩

end Decoder

/-- The decoder stands at `d` once it has read the bytes. -/
def StandsAt (s : Bytes) (d : Decoder) : Prop :=
  ∀ t, decode (s ++ t) = (t.foldlM Decoder.feed d).bind Decoder.finish

theorem StandsAt.decode_eq {s : Bytes} {d : Decoder} (h : StandsAt s d) : decode s = d.finish := by
  have hs := h []
  rw [List.append_nil] at hs
  exact hs

theorem StandsAt.append {s t : Bytes} {d d' : Decoder} (h : StandsAt s d)
    (ht : t.foldlM Decoder.feed d = .ok d') : StandsAt (s ++ t) d' := by
  intro u
  rw [List.append_assoc, h, List.foldlM_append, ht]
  rfl

/-- A stream is spoilt, or stands between two tokens or within a payload. -/
theorem decode_standing (s : Bytes) :
    (∃ e : DecodeError, e.Corrupt ∧ ∀ t, decode (s ++ t) = .error e) ∨
    (∃ a, StandsAt s ⟨a, none⟩) ∨
    ∃ a p, p.got.length < p.width ∧ StandsAt s ⟨a, some p⟩ := by
  have hread : Decoder.Read (s.foldlM Decoder.feed .start) :=
    Decoder.read_foldlM s (Decoder.lacking_none .start)
  have hdecode (t : Bytes) : decode (s ++ t) = ((s.foldlM Decoder.feed .start).bind fun d =>
      t.foldlM Decoder.feed d).bind Decoder.finish := by
    rw [decode, decodeFrom, List.foldlM_append]
    rfl
  cases hs : s.foldlM Decoder.feed .start with
  | error e =>
    rw [hs] at hread hdecode
    exact .inl ⟨e, hread, hdecode⟩
  | ok d =>
    rw [hs] at hread hdecode
    obtain ⟨a, payload⟩ := d
    cases payload with
    | none => exact .inr (.inl ⟨a, hdecode⟩)
    | some p => exact .inr (.inr ⟨a, p, hread p rfl, hdecode⟩)

theorem standing_of_error {s : Bytes} {e : DecodeError} (h : decode s = .error e) :
    (e.Corrupt ∧ ∀ t, decode (s ++ t) = .error e) ∨
    (∃ a, 0 < a.depth ∧ e = .unclosed a.depth ∧ StandsAt s ⟨a, none⟩) ∨
    ∃ a p, p.got.length < p.width ∧ e = p.truncated ∧ StandsAt s ⟨a, some p⟩ := by
  rcases decode_standing s with ⟨e', he', hs⟩ | ⟨a, hs⟩ | ⟨a, p, hp, hs⟩
  · have hself := hs []
    rw [List.append_nil, h] at hself
    cases hself
    exact .inl ⟨he', hs⟩
  · rw [hs.decode_eq] at h
    by_cases hz : a.depth = 0
    · obtain ⟨b, hb⟩ := Decoder.finish_of_depth_eq_zero hz
      rw [hb] at h
      cases h
    · have hpos := Nat.pos_of_ne_zero hz
      rw [Decoder.finish_of_depth_pos hpos] at h
      cases h
      exact .inr (.inl ⟨a, hpos, rfl, hs⟩)
  · rw [hs.decode_eq, Decoder.finish_of_payload] at h
    cases h
    exact .inr (.inr ⟨a, p, hp, rfl, hs⟩)

theorem StandsAt.close {s : Bytes} {a : Assembly} (h : StandsAt s ⟨a, none⟩) :
    (∃ b, decode (s ++ List.replicate a.depth Opcode.closing.byte) = .ok b) ∧
    (∀ k < a.depth, decode (s ++ List.replicate k Opcode.closing.byte) =
      .error (.unclosed (a.depth - k))) ∧
    ∀ k > a.depth, decode (s ++ List.replicate k Opcode.closing.byte) = .error .unexpectedEnd := by
  refine ⟨?_, fun k hk => ?_, fun k hk => ?_⟩
  · obtain ⟨a', hf, hd⟩ := Decoder.foldlM_closing (Nat.le_refl a.depth)
    rw [(h.append hf).decode_eq]
    exact Decoder.finish_of_depth_eq_zero (hd.trans (Nat.sub_self _))
  · obtain ⟨a', hf, hd⟩ := Decoder.foldlM_closing (Nat.le_of_lt hk)
    have hpos : 0 < a'.depth := by omega
    rw [(h.append hf).decode_eq, Decoder.finish_of_depth_pos hpos, hd]
  · rw [h, Decoder.foldlM_closing_too_many hk]
    rfl

theorem StandsAt.ok_or_unclosed {s : Bytes} {a : Assembly} (h : StandsAt s ⟨a, none⟩) :
    (∃ b, decode s = .ok b) ∨ ∃ depth, decode s = .error (.unclosed depth) := by
  rw [h.decode_eq]
  by_cases hz : a.depth = 0
  · exact .inl (Decoder.finish_of_depth_eq_zero hz)
  · exact .inr ⟨a.depth, Decoder.finish_of_depth_pos (Nat.pos_of_ne_zero hz)⟩

theorem StandsAt.fill {s : Bytes} {a : Assembly} {p : Payload} (h : StandsAt s ⟨a, some p⟩)
    (hp : p.got.length < p.width) {t : Bytes} (ht : t.length = p.width - p.got.length) :
    (∃ b, decode (s ++ t) = .ok b) ∨ ∃ depth, decode (s ++ t) = .error (.unclosed depth) := by
  obtain ⟨a', hf⟩ := Decoder.foldlM_rest hp ht
  exact (h.append hf).ok_or_unclosed

theorem decode_append_of_corrupt {s : Bytes} {e : DecodeError} (he : e.Corrupt)
    (h : decode s = .error e) (t : Bytes) : decode (s ++ t) = .error e := by
  rcases standing_of_error h with ⟨-, hs⟩ | ⟨a, -, rfl, -⟩ | ⟨a, p, -, rfl, -⟩
  · exact hs t
  · rcases he with ⟨c, hc⟩ | hc <;> cases hc
  · cases p <;> rcases he with ⟨c, hc⟩ | hc <;> cases hc

theorem unclosed_closes {s : Bytes} {depth : Nat} (h : decode s = .error (.unclosed depth)) :
    1 ≤ depth ∧ (∃ b, decode (s ++ List.replicate depth Opcode.closing.byte) = .ok b) ∧
      (∀ k < depth, decode (s ++ List.replicate k Opcode.closing.byte) =
        .error (.unclosed (depth - k))) ∧
      ∀ k > depth, decode (s ++ List.replicate k Opcode.closing.byte) = .error .unexpectedEnd := by
  rcases standing_of_error h with ⟨⟨c, hc⟩ | hc, -⟩ | ⟨a, hpos, he, hs⟩ | ⟨a, p, -, he, -⟩
  · cases hc
  · cases hc
  · cases he
    exact ⟨hpos, hs.close⟩
  · cases p <;> cases he

theorem truncated_fills {s : Bytes} {p : Payload} (h : decode s = .error p.truncated) :
    p.got.length < p.width ∧ ∀ t : Bytes, t.length = p.width - p.got.length →
      (∃ b, decode (s ++ t) = .ok b) ∨ ∃ depth, decode (s ++ t) = .error (.unclosed depth) := by
  rcases standing_of_error h with ⟨hc, -⟩ | ⟨a, -, he, -⟩ | ⟨a, q, hq, he, hs⟩
  · cases p <;> rcases hc with ⟨c, hc⟩ | hc <;> cases hc
  · cases p <;> cases he
  · -- The payload under way need not be `p`, but it has as many bytes of as many.
    obtain ⟨hgot, hwidth⟩ : p.got.length = q.got.length ∧ p.width = q.width := by
      cases p <;> cases q <;> simp_all [Payload.truncated, Payload.got, Payload.width]
    rw [hgot, hwidth]
    exact ⟨hq, fun t => hs.fill hq⟩

theorem truncatedLink_fills {s : Bytes} {got : Nat} (h : decode s = .error (.truncatedLink got)) :
    got < 32 ∧ ∀ t : Bytes, t.length = 32 - got →
      (∃ b, decode (s ++ t) = .ok b) ∨ ∃ depth, decode (s ++ t) = .error (.unclosed depth) := by
  let p : Payload := .link (List.replicate got 0)
  have hgot : p.got.length = got := List.length_replicate
  have hfills := truncated_fills (s := s) (p := p) (by rw [h, ← hgot]; rfl)
  rwa [hgot] at hfills

theorem truncatedNum_fills {s : Bytes} {got : Nat} (h : decode s = .error (.truncatedNum got)) :
    got < 8 ∧ ∀ t : Bytes, t.length = 8 - got →
      (∃ b, decode (s ++ t) = .ok b) ∨ ∃ depth, decode (s ++ t) = .error (.unclosed depth) := by
  let p : Payload := .num (List.replicate got 0)
  have hgot : p.got.length = got := List.length_replicate
  have hfills := truncated_fills (s := s) (p := p) (by rw [h, ← hgot]; rfl)
  rwa [hgot] at hfills

theorem exists_completion {s : Bytes}
    (h : (∃ b, decode s = .ok b) ∨ ∃ depth, decode s = .error (.unclosed depth)) :
    ∃ t b, decode (s ++ t) = .ok b := by
  rcases h with ⟨b, hb⟩ | ⟨depth, hs⟩
  · exact ⟨[], b, (List.append_nil s).symm ▸ hb⟩
  · obtain ⟨-, ⟨b, hb⟩, -, -⟩ := unclosed_closes hs
    exact ⟨_, b, hb⟩

/-- A rejected stream is the beginning of a good one exactly if it was cut. -/
theorem exists_completion_iff_cut {s : Bytes} {e : DecodeError} (h : decode s = .error e) :
    (∃ t b, decode (s ++ t) = .ok b) ↔ e.Cut := by
  constructor
  · rintro ⟨t, b, hb⟩
    rcases standing_of_error h with ⟨-, hs⟩ | ⟨a, -, rfl, -⟩ | ⟨a, p, -, rfl, -⟩
    · rw [hs t] at hb
      cases hb
    · exact .inl ⟨a.depth, rfl⟩
    · cases p with
      | link read => exact .inr (.inl ⟨read.length, rfl⟩)
      | num read => exact .inr (.inr ⟨read.length, rfl⟩)
  · -- Zeros fill a payload as well as any bytes; then only quotations are open.
    have hfill {k : Nat} (hs : ∀ t : Bytes, t.length = k → (∃ b, decode (s ++ t) = .ok b) ∨
        ∃ depth, decode (s ++ t) = .error (.unclosed depth)) : ∃ t b, decode (s ++ t) = .ok b := by
      obtain ⟨t, b, hb⟩ := exists_completion (hs (List.replicate k 0) List.length_replicate)
      exact ⟨List.replicate k 0 ++ t, b, List.append_assoc s _ t ▸ hb⟩
    rintro (⟨depth, rfl⟩ | ⟨got, rfl⟩ | ⟨got, rfl⟩)
    · exact exists_completion (.inr ⟨depth, h⟩)
    · exact hfill (truncatedLink_fills h).2
    · exact hfill (truncatedNum_fills h).2

/-- A stream with a byte that cannot be read keeps its error whatever follows.
One that ends inside quotations lacks their closing bytes, one that ends inside
a payload the rest of it; these are the rejected streams that a good one begins
with. -/
theorem decode_errors_tell (s : Bytes) :
    (∀ e : DecodeError, (∃ byte, e = .unknownOpcode byte) ∨ e = .unexpectedEnd →
      decode s = .error e → ∀ t, decode (s ++ t) = .error e) ∧
    (∀ depth, decode s = .error (.unclosed depth) →
      1 ≤ depth ∧ (∃ b, decode (s ++ List.replicate depth Opcode.closing.byte) = .ok b) ∧
      (∀ k < depth, decode (s ++ List.replicate k Opcode.closing.byte) =
        .error (.unclosed (depth - k))) ∧
      ∀ k > depth, decode (s ++ List.replicate k Opcode.closing.byte) = .error .unexpectedEnd) ∧
    (∀ got, decode s = .error (.truncatedLink got) → got < 32 ∧
      ∀ t : Bytes, t.length = 32 - got →
        (∃ b, decode (s ++ t) = .ok b) ∨ ∃ depth, decode (s ++ t) = .error (.unclosed depth)) ∧
    (∀ got, decode s = .error (.truncatedNum got) → got < 8 ∧
      ∀ t : Bytes, t.length = 8 - got →
        (∃ b, decode (s ++ t) = .ok b) ∨ ∃ depth, decode (s ++ t) = .error (.unclosed depth)) ∧
    ∀ e, decode s = .error e → ((∃ t b, decode (s ++ t) = .ok b) ↔
      (∃ depth, e = .unclosed depth) ∨ (∃ got, e = .truncatedLink got) ∨
        ∃ got, e = .truncatedNum got) :=
  ⟨fun _ he h => decode_append_of_corrupt he h, fun _ => unclosed_closes,
    fun _ => truncatedLink_fills, fun _ => truncatedNum_fills, fun _ => exists_completion_iff_cut⟩

end Bytecode

end BlockCalculus
