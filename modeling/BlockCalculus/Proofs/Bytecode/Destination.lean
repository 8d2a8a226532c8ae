import BlockCalculus.Bytecode.Destination
import BlockCalculus.Proofs.Bytecode.Written

/-! What reaches a destination with limited room. Pieces of a token that are
written apart are cut off like the token as a whole, so the tokens in front of
the first name go in as far as there is room, and the name is met only if all of
them have fitted. -/

namespace BlockCalculus.Bytecode

/-- A token of bytecode, or a name in the place of one. -/
inductive Lexeme where
  | opening
  | closing
  | prim (operator : Primitive)
  | link (target : Address)
  | num (value : Binary64)
  | name (name : String)

namespace Lexeme

def bytes : Lexeme → Bytes
  | opening => [Opcode.opening.byte]
  | closing => [Opcode.closing.byte]
  | prim p => [(Opcode.prim p).byte]
  | link target => Opcode.link.byte :: target.bytes
  | num x => Opcode.num.byte :: Bytes.ofNat 8 x.bits.toNat
  | name _ => []

def name? : Lexeme → Option String
  | name n => some n
  | _ => none

end Lexeme

/-- The tokens of a block in program order. -/
def lexemes : Block → List Lexeme
  | .empty => []
  | .prim p => [.prim p]
  | .quote body => .opening :: (lexemes body ++ [.closing])
  | .pair a b => lexemes a ++ lexemes b
  | .link target => [.link target]
  | .num x => [.num x]
  | .var name => [.name name]

/-- The bytes of the tokens in front of the first name. -/
def bytesBeforeName (l : List Lexeme) : Bytes :=
  (l.takeWhile fun x => x.name?.isNone).flatMap Lexeme.bytes

theorem names_eq_filterMap (b : Block) : b.names = (lexemes b).filterMap Lexeme.name? := by
  induction b with
  | quote body ih =>
    have hopening : Lexeme.opening.name? = none := rfl
    have hclosing : Lexeme.closing.name? = none := rfl
    simp [Block.names, lexemes, hopening, hclosing, ih]
  | pair a b iha ihb => simp [Block.names, lexemes, iha, ihb]
  | _ => rfl

/-! Tokens and writes. -/

/-- A token as a single write. -/
def Lexeme.write (l : Lexeme) : Write :=
  match l.name? with
  | some n => .name n
  | none => .bytes l.bytes

/-- A token as it is written: the payload apart. -/
def Lexeme.pieces : Lexeme → List Write
  | link target => [.bytes [Opcode.link.byte], .bytes target.bytes]
  | num x => [.bytes [Opcode.num.byte], .bytes (Bytes.ofNat 8 x.bits.toNat)]
  | l => [l.write]

theorem writes_eq_flatMap (b : Block) : writes b = (lexemes b).flatMap Lexeme.pieces := by
  induction b with
  | quote body ih =>
    simp [writes_quote, lexemes, Lexeme.pieces, Lexeme.write, Lexeme.name?, Lexeme.bytes, ih]
  | pair a b iha ihb => rw [writes_pair, lexemes, List.flatMap_append, iha, ihb]
  | _ => rfl

theorem send_fits {bytes : Bytes} {room : Nat} (h : bytes.length ≤ room) (rest : List Write) :
    send (some room) (.bytes bytes :: rest) =
      (bytes ++ (send (some (room - bytes.length)) rest).1,
        (send (some (room - bytes.length)) rest).2) := by
  simp only [send, if_pos h]

theorem send_short {bytes : Bytes} {room : Nat} (h : room < bytes.length) (rest : List Write) :
    send (some room) (.bytes bytes :: rest) = (bytes.take room, .error .destinationFull) := by
  simp only [send, if_neg (Nat.not_le.mpr h)]

/-- Two writes in a row fare like one. -/
theorem send_bytes_bytes (room : Option Nat) (a c : Bytes) (rest : List Write) :
    send room (.bytes a :: .bytes c :: rest) = send room (.bytes (a ++ c) :: rest) := by
  cases room with
  | none => simp only [send, List.append_assoc]
  | some room =>
    have hl : (a ++ c).length = a.length + c.length := List.length_append
    by_cases ha : a.length ≤ room
    · rw [send_fits ha]
      by_cases hc : c.length ≤ room - a.length
      · have hroom : room - a.length - c.length = room - (a ++ c).length := by omega
        rw [send_fits hc, send_fits (by omega), hroom, List.append_assoc]
      · rw [send_short (by omega), send_short (by omega), List.take_append,
          List.take_of_length_le ha]
    · have htake : (a ++ c).take room = a.take room := List.take_append_of_le_length (by omega)
      rw [send_short (by omega), send_short (by omega), htake]

theorem send_pieces (room : Option Nat) (l : Lexeme) (rest : List Write) :
    send room (l.pieces ++ rest) = send room (l.write :: rest) := by
  cases l with
  | link target => exact send_bytes_bytes room [Opcode.link.byte] target.bytes rest
  | num x => exact send_bytes_bytes room [Opcode.num.byte] (Bytes.ofNat 8 x.bits.toNat) rest
  | _ => rfl

/-- What sending comes to once there is room for all the bytes. -/
def verdict (l : List Lexeme) : Except EncodeError Unit :=
  match (l.filterMap Lexeme.name?).head? with
  | some n => .error (.unresolved n)
  | none => .ok ()

theorem send_lexemes (l : List Lexeme) (room : Nat) :
    send (some room) (l.flatMap Lexeme.pieces) =
      ((bytesBeforeName l).take room,
        if (bytesBeforeName l).length ≤ room then verdict l else .error .destinationFull) := by
  induction l generalizing room with
  | nil => simp [send, bytesBeforeName, verdict]
  | cons x l ih =>
    rw [List.flatMap_cons, send_pieces, Lexeme.write]
    cases hx : x.name? with
    | some n => simp [send, bytesBeforeName, verdict, hx]
    | none =>
      have hbytes : bytesBeforeName (x :: l) = x.bytes ++ bytesBeforeName l := by
        simp [bytesBeforeName, hx]
      have hverdict : verdict (x :: l) = verdict l := by simp [verdict, hx]
      rw [hbytes, hverdict]
      have hl : (x.bytes ++ bytesBeforeName l).length =
          x.bytes.length + (bytesBeforeName l).length :=
        List.length_append
      by_cases hfits : x.bytes.length ≤ room
      · have hroom : (bytesBeforeName l).length ≤ room - x.bytes.length ↔
            (x.bytes ++ bytesBeforeName l).length ≤ room := by omega
        simp only [send_fits hfits, ih, hroom]
        rw [List.take_append, List.take_of_length_le hfits]
      · have htake : (x.bytes ++ bytesBeforeName l).take room = x.bytes.take room :=
          List.take_append_of_le_length (by omega)
        rw [send_short (by omega), if_neg (by omega), htake]

/-! Writing from a list of frames. -/

theorem Destination.writeAll_unlimited (held bytes : Bytes) :
    writeAll bytes ⟨held, none⟩ = (.ok (), ⟨held ++ bytes, none⟩) := by
  cases bytes with
  | nil => simp [writeAll]
  | cons b bytes =>
    rw [writeAll]
    simp only [accept, List.isEmpty_cons, Bool.false_eq_true, if_false, List.length_nil,
      List.length_cons, Nat.zero_lt_succ, if_true]
    simp [writeAll]

theorem Destination.writeAll_fits {bytes : Bytes} {room : Nat} (held : Bytes)
    (h : bytes.length ≤ room) :
    writeAll bytes ⟨held, some room⟩ = (.ok (), ⟨held ++ bytes, some (room - bytes.length)⟩) := by
  cases bytes with
  | nil => simp [writeAll]
  | cons b bytes =>
    rw [writeAll]
    simp only [accept, List.isEmpty_cons, Bool.false_eq_true, if_false, List.drop_of_length_le h,
      List.take_of_length_le h, List.length_nil, List.length_cons, Nat.zero_lt_succ, if_true]
    simp [writeAll]

theorem Destination.writeAll_full {bytes : Bytes} (held : Bytes) (h : bytes ≠ []) :
    writeAll bytes ⟨held, some 0⟩ = (.error .destinationFull, ⟨held, some 0⟩) := by
  rw [writeAll]
  simp [accept, h]

theorem Destination.writeAll_short {bytes : Bytes} {room : Nat} (held : Bytes)
    (h : room < bytes.length) :
    writeAll bytes ⟨held, some room⟩ =
      (.error .destinationFull, ⟨held ++ bytes.take room, some 0⟩) := by
  have hne : bytes ≠ [] := List.ne_nil_of_length_pos (by omega)
  by_cases hz : room = 0
  · subst hz
    simpa using writeAll_full held hne
  · -- The first write fills the destination, and the second one gets nowhere.
    have hleft : (bytes.drop room).length < bytes.length := by rw [List.length_drop]; omega
    have hmore : bytes.drop room ≠ [] := List.ne_nil_of_length_pos (by rw [List.length_drop]; omega)
    have hroom : room - bytes.length = 0 := by omega
    rw [writeAll]
    simp only [accept, List.isEmpty_iff, hne, if_false, hleft, if_true, hroom]
    exact writeAll_full _ hmore

/-- The output makes these writes one after another. -/
def Makes (o : Output Unit) (ws : List Write) : Prop :=
  ∀ d : Destination, ((o d).2.held, (o d).1) = (d.held ++ (send d.room ws).1, (send d.room ws).2)

theorem makes_nil : Makes (pure ()) [] := by
  intro d
  simp only [send, List.append_nil]
  rfl

theorem makes_name (name : String) (ws : List Write) :
    Makes (throw (.unresolved name)) (.name name :: ws) := by
  intro d
  simp only [send, List.append_nil]
  rfl

theorem put_then (bytes : Bytes) (o : Output Unit) (d : Destination) :
    (do put bytes; o) d =
      match Destination.writeAll bytes d with
      | (.ok (), d) => o d
      | (.error e, d) => (.error e, d) := by
  change (Destination.writeAll bytes d >>= fun r =>
    ExceptT.bindCont (fun _ => o) r.1 r.2 : Id _) = _
  rcases Destination.writeAll bytes d with ⟨e | u, d'⟩ <;> rfl

theorem Makes.put {o : Output Unit} {ws : List Write} (h : Makes o ws) (bytes : Bytes) :
    Makes (do put bytes; o) (.bytes bytes :: ws) := by
  rintro ⟨held, room⟩
  rw [put_then]
  cases room with
  | none =>
    rw [Destination.writeAll_unlimited]
    simp only [h ⟨held ++ bytes, none⟩, send, List.append_assoc]
  | some room =>
    by_cases hfits : bytes.length ≤ room
    · rw [Destination.writeAll_fits held hfits, send_fits hfits]
      simp only [h ⟨held ++ bytes, some (room - bytes.length)⟩, List.append_assoc]
    · rw [Destination.writeAll_short held (by omega), send_short (by omega)]

/-- The writes that a frame stands for. -/
def Frame.writes : Frame → List Write
  | block b => Bytecode.writes b
  | closing => [.bytes [Opcode.closing.byte]]

/-- What waits is written in order, bodies before the ends of their quotations. -/
theorem emit_makes (waiting : List Frame) :
    Makes (emit waiting) (waiting.flatMap Frame.writes) := by
  induction waiting using emit.induct with
  | case1 =>
    rw [emit]
    exact makes_nil
  | case2 waiting ih =>
    rw [emit]
    exact ih.put _
  | case3 waiting ih =>
    rw [emit]
    exact ih
  | case4 p waiting ih =>
    rw [emit]
    exact ih.put _
  | case5 body waiting ih =>
    rw [emit]
    have hw : (Frame.block (.quote body) :: waiting).flatMap Frame.writes =
        .bytes [Opcode.opening.byte] ::
          (Frame.block body :: .closing :: waiting).flatMap Frame.writes := by
      simp [Frame.writes, writes_quote]
    rw [hw]
    exact ih.put _
  | case6 a b waiting ih =>
    rw [emit]
    have hw : (Frame.block (.pair a b) :: waiting).flatMap Frame.writes =
        (Frame.block a :: .block b :: waiting).flatMap Frame.writes := by
      simp [Frame.writes, writes_pair]
    rw [hw]
    exact ih
  | case7 target waiting ih =>
    rw [emit]
    exact (ih.put _).put _
  | case8 x waiting ih =>
    rw [emit]
    exact (ih.put _).put _
  | case9 name waiting =>
    rw [emit]
    exact makes_name name _

theorem emit_eq_encodeInto (b : Block) (held : Bytes) (room : Option Nat) :
    encodeInto held room b =
      ((emit [.block b] ⟨held, room⟩).2.held, (emit [.block b] ⟨held, room⟩).1) := by
  have hw : [Frame.block b].flatMap Frame.writes = writes b := by simp [Frame.writes]
  rw [emit_makes [.block b] ⟨held, room⟩, hw]
  rfl

theorem encodeInto_limited (b : Block) (held : Bytes) (room : Nat) :
    encodeInto held (some room) b =
      (held ++ (bytesBeforeName (lexemes b)).take room,
        if (bytesBeforeName (lexemes b)).length ≤ room then verdict (lexemes b)
        else .error .destinationFull) := by
  rw [encodeInto, writes_eq_flatMap, send_lexemes]

theorem verdict_eq (b : Block) :
    verdict (lexemes b) = match b.names.head? with
      | some n => .error (.unresolved n)
      | none => .ok () := by
  rw [verdict, names_eq_filterMap]

theorem encode_error_iff (b : Block) : (∃ e, encode b = .error e) ↔ ∃ name, name ∈ b.names := by
  cases hb : b.names with
  | nil => simp [encode_of_names_eq_nil hb]
  | cons name later => simp [encode_of_names_eq_cons hb]

/-- Whatever room there is, the destination ends with the bytes in front of the first
name as far as they fit. It has been too small exactly if they do not fit; otherwise
the name, if there is one, is what has stopped the writing. Without a limit only a name
at some depth does. -/
theorem emit_within_room (b : Block) (held : Bytes) (room : Nat) :
    let bytes := bytesBeforeName (lexemes b)
    let after := emit [.block b] ⟨held, some room⟩
    after.2.held = held ++ bytes.take (min room bytes.length) ∧
    (after.1 = .error .destinationFull ↔ room < bytes.length) ∧
    (∀ name, after.1 = .error (.unresolved name) ↔
      b.names.head? = some name ∧ bytes.length ≤ room) ∧
    (after.1 = .ok () ↔ b.names = [] ∧ bytes.length ≤ room) ∧
    encodeInto held (some room) b = (after.2.held, after.1) ∧
    ((∃ e, encode b = .error e) ↔ ∃ name, name ∈ b.names) := by
  intro bytes after
  have hemit := emit_eq_encodeInto b held (some room)
  have hafter := hemit
  rw [encodeInto_limited, verdict_eq, Prod.mk.injEq] at hafter
  obtain ⟨hheld, hresult⟩ := hafter
  refine ⟨?_, ?_, ?_, ?_, hemit, encode_error_iff b⟩
  · rw [← hheld, List.take_eq_take_min]
  all_goals
    rw [← hresult]
    by_cases hfits : bytes.length ≤ room
    · rw [if_pos hfits]
      cases b.names <;> simp [hfits]
    · have hlt : room < bytes.length := Nat.not_le.mp hfits
      rw [if_neg hfits]
      simp [hfits, hlt]

example : encodeInto [7] (some 3) (.pair (.num ⟨1⟩) (.var "x")) =
    ([7, 0x0f, 0, 0], .error .destinationFull) := rfl

end BlockCalculus.Bytecode
