import BlockCalculus.Bytecode.Decode

/-! Decoding as it is carried out, from a reader that is asked for one byte
after another and may fail. A payload is read by a function of its own, which
reports how much of it there was. -/

namespace BlockCalculus.Bytecode

/-- A source of bytes: those that it still has, and how many more it gives
before every read fails, `none` if no read does. -/
structure Reader where
  bytes : Bytes
  allowance : Option Nat
  deriving DecidableEq

/-- What a read comes to. -/
inductive Reading where
  | byte (b : UInt8) (r : Reader)
  | ended
  | failed

namespace Reader

/-- Asks for the next byte. A reader that may not give more fails before it
finds out that it has come to its end. -/
def next (r : Reader) : Reading :=
  if r.allowance = some 0 then .failed
  else
    match r.bytes with
    | [] => .ended
    | b :: bytes => .byte b ⟨bytes, r.allowance.map (· - 1)⟩

theorem next_lt {r r' : Reader} {b : UInt8} (h : r.next = .byte b r') :
    r'.bytes.length < r.bytes.length := by
  obtain ⟨bytes, allowance⟩ := r
  by_cases ha : allowance = some 0
  · simp [next, ha] at h
  · cases bytes with
    | nil => simp [next, ha] at h
    | cons c bytes =>
      simp only [next, ha, if_false, Reading.byte.injEq] at h
      rw [← h.2]
      exact Nat.lt_succ_self _

/-- The bytes of a payload, fewer than its width if the stream has ended. -/
def payload (width : Nat) (r : Reader) : Except DecodeError (Bytes × Reader) :=
  match width with
  | 0 => .ok ([], r)
  | width + 1 =>
    match r.next with
    | .failed => .error .unreadable
    | .ended => .ok ([], r)
    | .byte b r =>
      match r.payload width with
      | .ok (bytes, r) => .ok (b :: bytes, r)
      | .error e => .error e

theorem payload_le {width : Nat} {r r' : Reader} {bytes : Bytes}
    (h : r.payload width = .ok (bytes, r')) : r'.bytes.length ≤ r.bytes.length := by
  induction width generalizing r bytes with
  | zero =>
    cases h
    exact Nat.le_refl _
  | succ width ih =>
    rw [payload] at h
    split at h
    · cases h
    · cases h
      exact Nat.le_refl _
    · rename_i b r₁ hn
      split at h
      · rename_i rest r₂ hp
        cases h
        exact Nat.le_trans (ih hp) (Nat.le_of_lt (next_lt hn))
      · cases h

/-- Decodes what the reader gives, in front of which the assembly has been read. -/
def decode (a : Assembly) (r : Reader) : Except DecodeError Block :=
  match _hn : r.next with
  | .failed => .error .unreadable
  | .ended =>
    match a.block? with
    | some b => .ok b
    | none => .error (.unclosed a.depth)
  | .byte c r' =>
    match Opcode.ofByte? c with
    | none => .error (.unknownOpcode c)
    | some (.prim p) => decode (a.add (.prim p)) r'
    | some .opening => decode a.enter r'
    | some .closing =>
      match a.leave? with
      | some a => decode a r'
      | none => .error .unexpectedEnd
    | some .link =>
      match _hp : r'.payload 32 with
      | .error e => .error e
      | .ok (bytes, r'') =>
        match Address.ofBytes? bytes with
        | some target => decode (a.add (.link target)) r''
        | none => .error (.truncatedLink bytes.length)
    | some .num =>
      match _hp : r'.payload 8 with
      | .error e => .error e
      | .ok (bytes, r'') =>
        if bytes.length = 8 then decode (a.add (.num ⟨UInt64.ofNat bytes.toNat⟩)) r''
        else .error (.truncatedNum bytes.length)
termination_by r.bytes.length
decreasing_by
  all_goals
    have := next_lt _hn
    first
    | assumption
    | exact Nat.lt_of_le_of_lt (payload_le _hp) this

end Reader

end BlockCalculus.Bytecode
