import BlockCalculus.Bytecode.Reader
import BlockCalculus.Proofs.Bytecode.Truncation

/-! Decoding from a reader whose reads may fail. What the reader is going to
give, and whether it then ends or fails, decide the result; so a failed read
takes the place of the end of the stream and of nothing else. -/

namespace BlockCalculus.Bytecode

namespace Reader

/-- The bytes that the reader is going to give. -/
def ahead (r : Reader) : Bytes :=
  match r.allowance with
  | none => r.bytes
  | some n => r.bytes.take n

/-- How the reader is going to stop. -/
def ending (r : Reader) : Ending :=
  match r.allowance with
  | none => .complete
  | some n => if r.bytes.length < n then .complete else .failed

theorem next_byte {r r' : Reader} {b : UInt8} (h : r.next = .byte b r') :
    r.ahead = b :: r'.ahead ∧ r'.ending = r.ending := by
  obtain ⟨bytes, allowance⟩ := r
  by_cases ha : allowance = some 0
  · simp [next, ha] at h
  · cases bytes with
    | nil => simp [next, ha] at h
    | cons c bytes =>
      simp only [next, ha, if_false, Reading.byte.injEq] at h
      obtain ⟨rfl, rfl⟩ := h
      cases allowance with
      | none => exact ⟨rfl, rfl⟩
      | some n =>
        obtain ⟨n, rfl⟩ := Nat.exists_eq_succ_of_ne_zero (fun hz => ha (congrArg some hz))
        simp [ahead, ending]

theorem next_ended {r : Reader} (h : r.next = .ended) : r.ahead = [] ∧ r.ending = .complete := by
  obtain ⟨bytes, allowance⟩ := r
  by_cases ha : allowance = some 0
  · simp [next, ha] at h
  · cases bytes with
    | cons c bytes => simp [next, ha] at h
    | nil =>
      cases allowance with
      | none => exact ⟨rfl, rfl⟩
      | some n =>
        have hpos : 0 < n := Nat.pos_of_ne_zero fun hz => ha (congrArg some hz)
        simp [ahead, ending, hpos]

theorem next_failed {r : Reader} (h : r.next = .failed) : r.ahead = [] ∧ r.ending = .failed := by
  obtain ⟨bytes, allowance⟩ := r
  by_cases ha : allowance = some 0
  · subst ha
    simp [ahead, ending]
  · cases bytes <;> simp [next, ha] at h

theorem payload_ok {width : Nat} {r r' : Reader} {bytes : Bytes}
    (h : r.payload width = .ok (bytes, r')) :
    (bytes.length = width ∧ r.ahead = bytes ++ r'.ahead ∧ r'.ending = r.ending) ∨
      (bytes.length < width ∧ r.ahead = bytes ∧ r.ending = .complete) := by
  induction width generalizing r bytes with
  | zero =>
    cases h
    exact .inl ⟨rfl, rfl, rfl⟩
  | succ width ih =>
    rw [payload] at h
    split at h
    · cases h
    · rename_i hn
      cases h
      exact .inr ⟨Nat.zero_lt_succ width, next_ended hn⟩
    · rename_i b r₁ hn
      obtain ⟨hahead, hending⟩ := next_byte hn
      split at h
      · rename_i rest r₂ hp
        cases h
        rcases ih hp with ⟨hl, ha, he⟩ | ⟨hl, ha, he⟩
        · exact .inl ⟨congrArg Nat.succ hl, by rw [hahead, ha]; rfl, he.trans hending⟩
        · exact .inr ⟨Nat.succ_lt_succ hl, by rw [hahead, ha], hending.symm.trans he⟩
      · cases h

theorem payload_error {width : Nat} {r : Reader} {e : DecodeError}
    (h : r.payload width = .error e) :
    e = .unreadable ∧ r.ahead.length < width ∧ r.ending = .failed := by
  induction width generalizing r with
  | zero => cases h
  | succ width ih =>
    rw [payload] at h
    split at h
    · rename_i hn
      cases h
      obtain ⟨hahead, hending⟩ := next_failed hn
      exact ⟨rfl, by simp [hahead], hending⟩
    · cases h
    · rename_i b r₁ hn
      obtain ⟨hahead, hending⟩ := next_byte hn
      split at h
      · cases h
      · rename_i e' hp
        cases h
        obtain ⟨he, hl, hfailed⟩ := ih hp
        exact ⟨he, by rw [hahead]; exact Nat.succ_lt_succ hl, hending.symm.trans hfailed⟩

end Reader

/-- A payload with more bytes read. -/
def Payload.extend : Payload → Bytes → Payload
  | link read, bytes => link (bytes.reverse ++ read)
  | num read, bytes => num (bytes.reverse ++ read)

theorem Decoder.feed_more (a : Assembly) {p : Payload} {b : UInt8}
    (h : p.got.length + 1 < p.width) : feed ⟨a, some p⟩ b = .ok ⟨a, some (p.extend [b])⟩ := by
  cases p with
  | link read =>
    have hl : read.length + 1 < 32 := h
    exact feed_link_more a (by omega)
  | num read =>
    have hl : read.length + 1 < 8 := h
    exact feed_num_more a (by omega)

theorem Decoder.foldlM_feed_short (a : Assembly) {p : Payload} {bytes : Bytes}
    (h : p.got.length + bytes.length < p.width) :
    bytes.foldlM feed ⟨a, some p⟩ = .ok ⟨a, some (p.extend bytes)⟩ := by
  induction bytes generalizing p with
  | nil => cases p <;> rfl
  | cons b bytes ih =>
    rw [List.length_cons] at h
    have hgot : (p.extend [b]).got.length = p.got.length + 1 := by
      cases p <;> rfl
    have hwidth : (p.extend [b]).width = p.width := by cases p <;> rfl
    have hextend : (p.extend [b]).extend bytes = p.extend (b :: bytes) := by
      cases p <;> simp [Payload.extend]
    rw [foldlM_feed_cons, feed_more a (by omega), ← hextend]
    exact ih (by omega)

/-- What stopping comes to. -/
def Ending.close : Ending → Decoder → Except DecodeError Block
  | complete, d => d.finish
  | failed, _ => .error .unreadable

theorem decodeFrom_eq (ending : Ending) (s : Bytes) :
    decodeFrom ending s = (s.foldlM Decoder.feed .start).bind ending.close := by
  cases ending <;> rfl

namespace Reader

theorem foldlM_ahead {r r' : Reader} {b : UInt8} (h : r.next = .byte b r') (d : Decoder) :
    (r.ahead.foldlM Decoder.feed d).bind r.ending.close =
      (d.feed b).bind fun d => (r'.ahead.foldlM Decoder.feed d).bind r'.ending.close := by
  obtain ⟨hahead, hending⟩ := next_byte h
  rw [hahead, Decoder.foldlM_feed_cons, hending]
  cases d.feed b <;> rfl

theorem foldlM_payload_error {width : Nat} {r : Reader} {e : DecodeError} (a : Assembly)
    {p : Payload} (hp : p.got = []) (hw : p.width = width) (h : r.payload width = .error e) :
    (r.ahead.foldlM Decoder.feed ⟨a, some p⟩).bind r.ending.close = .error e := by
  obtain ⟨rfl, hl, hending⟩ := payload_error h
  have hshort : p.got.length + r.ahead.length < p.width := by
    rw [hp, hw, List.length_nil]
    omega
  rw [Decoder.foldlM_feed_short a hshort, hending]
  rfl

theorem foldlM_payload_short {width : Nat} {r r' : Reader} {bytes : Bytes} (a : Assembly)
    {p : Payload} (hp : p.got = []) (hw : p.width = width) (h : r.payload width = .ok (bytes, r'))
    (hl : bytes.length ≠ width) :
    (r.ahead.foldlM Decoder.feed ⟨a, some p⟩).bind r.ending.close =
      .error (p.extend bytes).truncated := by
  rcases payload_ok h with ⟨hwidth, -, -⟩ | ⟨hlt, hahead, hending⟩
  · exact (hl hwidth).elim
  · have hshort : p.got.length + r.ahead.length < p.width := by
      rw [hp, hw, hahead, List.length_nil]
      omega
    rw [Decoder.foldlM_feed_short a hshort, hending, hahead]
    exact Decoder.finish_of_payload a _

theorem payload_full {width : Nat} {r r' : Reader} {bytes : Bytes}
    (h : r.payload width = .ok (bytes, r')) (hl : bytes.length = width) :
    r.ahead = bytes ++ r'.ahead ∧ r'.ending = r.ending := by
  rcases payload_ok h with ⟨-, hahead⟩ | ⟨hlt, -⟩
  · exact hahead
  · omega

theorem foldlM_link {r r' : Reader} {bytes : Bytes} (a : Assembly)
    (h : r.payload 32 = .ok (bytes, r')) :
    (r.ahead.foldlM Decoder.feed ⟨a, some (.link [])⟩).bind r.ending.close =
      match Address.ofBytes? bytes with
      | some target =>
        (r'.ahead.foldlM Decoder.feed ⟨a.add (.link target), none⟩).bind r'.ending.close
      | none => .error (.truncatedLink bytes.length) := by
  cases ht : Address.ofBytes? bytes with
  | some target =>
    have hbytes : target.bytes = bytes := Address.bytes_of_ofBytes? ht
    have hl : bytes.length = 32 := hbytes ▸ target.length_eq
    obtain ⟨hahead, hending⟩ := payload_full h hl
    have hread : ([] : Bytes).reverse ++ bytes = target.bytes := hbytes.symm
    have hne : bytes ≠ [] := List.ne_nil_of_length_pos (by omega)
    rw [hahead, Decoder.foldlM_feed_link a hread hne, hending]
  | none =>
    have hl : bytes.length ≠ 32 := by simpa [Address.ofBytes?] using ht
    rw [foldlM_payload_short (p := .link []) a rfl rfl h hl]
    simp [Payload.extend, Payload.truncated]

theorem foldlM_num {r r' : Reader} {bytes : Bytes} (a : Assembly)
    (h : r.payload 8 = .ok (bytes, r')) :
    (r.ahead.foldlM Decoder.feed ⟨a, some (.num [])⟩).bind r.ending.close =
      if bytes.length = 8 then
        (r'.ahead.foldlM Decoder.feed ⟨a.add (.num ⟨UInt64.ofNat bytes.toNat⟩), none⟩).bind
          r'.ending.close
      else .error (.truncatedNum bytes.length) := by
  by_cases hl : bytes.length = 8
  · obtain ⟨hahead, hending⟩ := payload_full h hl
    have hread : ([] : Bytes).reverse ++ bytes = Bytes.ofNat 8 (UInt64.ofNat bytes.toNat).toNat :=
      (Bytes.ofNat_toUInt64 hl).symm
    have hne : bytes ≠ [] := List.ne_nil_of_length_pos (by omega)
    rw [if_pos hl, hahead,
      Decoder.foldlM_feed_num (x := ⟨UInt64.ofNat bytes.toNat⟩) a hread hne, hending]
  · rw [if_neg hl, foldlM_payload_short (p := .num []) a rfl rfl h hl]
    simp [Payload.extend, Payload.truncated]

/-- Reading byte by byte comes to feeding what the reader is going to give. -/
theorem decode_eq (r : Reader) (a : Assembly) :
    r.decode a = (r.ahead.foldlM Decoder.feed ⟨a, none⟩).bind r.ending.close := by
  -- A payload takes many bytes in one turn, so the induction is a strong one.
  induction h : r.bytes.length using Nat.strong_induction_on generalizing r a with
  | _ n ih =>
    subst h
    rw [decode]
    split
    · rename_i hn
      obtain ⟨hahead, hending⟩ := next_failed hn
      rw [hahead, hending]
      rfl
    · rename_i hn
      obtain ⟨hahead, hending⟩ := next_ended hn
      rw [hahead, hending]
      rfl
    · rename_i c r' hn
      have hlt := next_lt hn
      rw [foldlM_ahead hn]
      simp only [Decoder.feed]
      split
      · rename_i hc
        rw [hc]
        rfl
      · rename_i p hc
        rw [hc]
        exact ih _ hlt _ _ rfl
      · rename_i hc
        rw [hc]
        exact ih _ hlt _ _ rfl
      · rename_i hc
        rw [hc]
        simp only [Decoder.opcode]
        cases a.leave? with
        | some a => exact ih _ hlt _ _ rfl
        | none => rfl
      · rename_i hc
        rw [hc]
        change _ = (r'.ahead.foldlM Decoder.feed ⟨a, some (.link [])⟩).bind r'.ending.close
        split
        · rename_i e hp
          exact (foldlM_payload_error (p := .link []) a rfl rfl hp).symm
        · rename_i bytes r'' hp
          rw [foldlM_link a hp]
          cases Address.ofBytes? bytes with
          | some target => exact ih _ (Nat.lt_of_le_of_lt (payload_le hp) hlt) _ _ rfl
          | none => rfl
      · rename_i hc
        rw [hc]
        change _ = (r'.ahead.foldlM Decoder.feed ⟨a, some (.num [])⟩).bind r'.ending.close
        split
        · rename_i e hp
          exact (foldlM_payload_error (p := .num []) a rfl rfl hp).symm
        · rename_i bytes r'' hp
          rw [foldlM_num a hp, ih _ (Nat.lt_of_le_of_lt (payload_le hp) hlt) _ _ rfl]

theorem decode_start (r : Reader) : r.decode .start = decodeFrom r.ending r.ahead := by
  rw [decode_eq, decodeFrom_eq]
  rfl

theorem decode_limited (s : Bytes) (n : Nat) :
    decode .start ⟨s, some n⟩ = decodeFailingAfter n s := by
  rw [decode_start, decodeFailingAfter]
  by_cases hn : s.length < n
  · have hahead : (⟨s, some n⟩ : Reader).ahead = s := List.take_of_length_le (Nat.le_of_lt hn)
    have hending : (⟨s, some n⟩ : Reader).ending = .complete := if_pos hn
    rw [hahead, hending, if_pos hn]
    rfl
  · have hending : (⟨s, some n⟩ : Reader).ending = .failed := if_neg hn
    rw [hending, if_neg hn]
    rfl

end Reader

theorem Decoder.finish_ok_or_cut (d : Decoder) :
    (∃ b, d.finish = .ok b) ∨ ∃ e : DecodeError, e.Cut ∧ d.finish = .error e := by
  obtain ⟨a, payload⟩ := d
  cases payload with
  | some p =>
    refine .inr ⟨p.truncated, ?_, finish_of_payload a p⟩
    cases p with
    | link read => exact .inr (.inl ⟨_, rfl⟩)
    | num read => exact .inr (.inr ⟨_, rfl⟩)
  | none =>
    by_cases hz : a.depth = 0
    · exact .inl (finish_of_depth_eq_zero hz)
    · exact .inr ⟨_, .inl ⟨_, rfl⟩, finish_of_depth_pos (Nat.pos_of_ne_zero hz)⟩

/-- A stream that fails has the errors of its bytes, and none of its end. -/
theorem decodeFrom_failed (s : Bytes) :
    decodeFrom .failed s =
      match decode s with
      | .error (.unknownOpcode c) => .error (.unknownOpcode c)
      | .error .unexpectedEnd => .error .unexpectedEnd
      | _ => .error .unreadable := by
  have hread : Decoder.Read (s.foldlM Decoder.feed .start) :=
    Decoder.read_foldlM s (Decoder.lacking_none .start)
  have hdecode : decode s = (s.foldlM Decoder.feed .start).bind Decoder.finish :=
    decodeFrom_eq .complete s
  rw [hdecode, decodeFrom_eq]
  cases hs : s.foldlM Decoder.feed .start with
  | error e =>
    rw [hs] at hread
    rcases hread with ⟨c, rfl⟩ | rfl <;> rfl
  | ok d =>
    have hfinish : (Except.ok d : Except DecodeError Decoder).bind Decoder.finish = d.finish := rfl
    rw [hfinish]
    rcases d.finish_ok_or_cut with ⟨b, hb⟩ | ⟨e, he, hd⟩
    · rw [hb]
      rfl
    · rw [hd]
      rcases he with ⟨depth, rfl⟩ | ⟨got, rfl⟩ | ⟨got, rfl⟩ <;> rfl

theorem DecodeError.Corrupt.not_cut {e : DecodeError} (h : e.Corrupt) : ¬e.Cut := by
  rcases h with ⟨c, rfl⟩ | rfl
  all_goals
    rintro (⟨depth, h⟩ | ⟨got, h⟩ | ⟨got, h⟩) <;> cases h

theorem DecodeError.unreadable_not_cut : ¬DecodeError.unreadable.Cut := by
  rintro (⟨depth, h⟩ | ⟨got, h⟩ | ⟨got, h⟩) <;> cases h

theorem decodeFrom_failed_not_cut (s : Bytes) :
    ∃ e : DecodeError, decodeFrom .failed s = .error e ∧ ¬e.Cut := by
  rw [decodeFrom_failed]
  cases decode s with
  | ok b => exact ⟨_, rfl, DecodeError.unreadable_not_cut⟩
  | error e =>
    cases e with
    | unknownOpcode c => exact ⟨_, rfl, DecodeError.Corrupt.not_cut (.inl ⟨c, rfl⟩)⟩
    | unexpectedEnd => exact ⟨_, rfl, DecodeError.Corrupt.not_cut (.inr rfl)⟩
    | _ => exact ⟨_, rfl, DecodeError.unreadable_not_cut⟩

/-- A reader that fails once it has given `n` bytes. If the stream ends before that, decoding
is that of the stream; otherwise an error of the first `n` bytes themselves stands, and
anything else is a failed read: neither a block nor an end that comes too early. -/
theorem decode_failing_reader (s : Bytes) (n : Nat) :
    let r : Reader := ⟨s, some n⟩
    (s.length < n → r.decode .start = decode s) ∧
    (n ≤ s.length →
      r.decode .start =
        (match decode (s.take n) with
        | .error (.unknownOpcode c) => .error (.unknownOpcode c)
        | .error .unexpectedEnd => .error .unexpectedEnd
        | _ => .error .unreadable) ∧
      ∃ e : DecodeError, r.decode .start = .error e ∧ ¬e.Cut) ∧
    r.decode .start = decodeFailingAfter n s ∧
    Reader.decode .start ⟨s, none⟩ = decode s := by
  intro r
  have hr : r.decode .start = decodeFailingAfter n s := Reader.decode_limited s n
  refine ⟨fun hn => ?_, fun hn => ?_, hr, Reader.decode_start ⟨s, none⟩⟩
  · rw [hr, decodeFailingAfter, if_pos hn]
  · rw [hr, decodeFailingAfter, if_neg (Nat.not_lt.mpr hn)]
    exact ⟨decodeFrom_failed _, decodeFrom_failed_not_cut _⟩

end BlockCalculus.Bytecode
