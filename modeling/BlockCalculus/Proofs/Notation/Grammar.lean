import BlockCalculus.Proofs.Block.Assembly
import BlockCalculus.Proofs.Notation.Token
import BlockCalculus.Proofs.Notation.Word

/-! The grammar of the notation. What has been read of it is kept in an assembly, whose
entries and open quotations are the tokens up to there; reading goes on until a token offends. -/

namespace BlockCalculus

namespace Notation

/-- The leaves and the brackets of a block, in order, are these tokens. -/
inductive Spells : Block → List Token → Prop
  | empty : Spells .empty []
  | leaf {w : List Char} {b : Block} (h : Denotes w b) : Spells b [.word w]
  | quote {body : Block} {tokens : List Token} (h : Spells body tokens) :
    Spells (.quote body) (.opening :: (tokens ++ [.closing]))
  | pair {a b : Block} {l m : List Token} (ha : Spells a l) (hb : Spells b m) :
    Spells (.pair a b) (l ++ m)

theorem Denotes.pieces {w : List Char} {b : Block} (h : Denotes w b) : b.pieces = [b] := by
  cases h <;> rfl

theorem Denotes.isPiece {w : List Char} {b : Block} (h : Denotes w b) : b.isPiece := by
  cases h <;> rfl

/-- Reading the tokens of a block adds its pieces, whatever follows. -/
theorem foldlM_place_spells {b : Block} {tokens : List Token} (h : Spells b tokens) (a : Assembly)
    (rest : List Token) :
    (tokens ++ rest).foldlM place a = rest.foldlM place (a.addAll b.pieces) := by
  induction h generalizing a rest with
  | empty => rfl
  | leaf h =>
    rw [List.singleton_append, List.foldlM_cons, place, leaf_of_denotes h, h.pieces]
    rfl
  | @quote body tokens h ih =>
    rw [List.cons_append, List.append_assoc, List.foldlM_cons]
    change List.foldlM place a.enter _ = _
    rw [ih, List.singleton_append, List.foldlM_cons, place, Assembly.leave?_enter_addAll]
    rfl
  | pair ha hb iha ihb => rw [List.append_assoc, iha, ihb, Block.pieces, Assembly.addAll_append]

theorem Spells.count {b : Block} {tokens : List Token} (h : Spells b tokens) :
    tokens.count .opening = tokens.count .closing := by
  induction h with
  | empty | leaf _ => rfl
  | quote h ih => simpa using ih
  | pair ha hb iha ihb => simp [iha, ihb]

theorem Spells.isName {b : Block} {tokens : List Token} (h : Spells b tokens) :
    ∀ n ∈ b.names, isName n := by
  induction h with
  | empty => exact List.forall_mem_nil _
  | leaf h =>
    cases h with
    | name h => exact List.forall_mem_singleton.mpr h
    | _ => exact List.forall_mem_nil _
  | quote h ih => exact ih
  | pair ha hb iha ihb => exact List.forall_mem_append.mpr ⟨iha, ihb⟩

/-! What has been read, from what an assembly holds. -/

/-- Entries, the newest first, and the tokens that they were read from. -/
inductive Entries : List Block → List Token → Prop
  | nil : Entries [] []
  | add {l : List Block} {b : Block} {s t : List Token} (hl : Entries l s) (hp : b.isPiece)
    (hb : Spells b t) : Entries (b :: l) (s ++ t)

theorem Entries.isPiece {l : List Block} {tokens : List Token} (h : Entries l tokens) :
    ∀ b ∈ l, b.isPiece := by
  induction h with
  | nil => exact List.forall_mem_nil _
  | add hl hp hb ih => exact List.forall_mem_cons.mpr ⟨hp, ih⟩

theorem Entries.count {l : List Block} {tokens : List Token} (h : Entries l tokens) :
    tokens.count .opening = tokens.count .closing := by
  induction h with
  | nil => rfl
  | add hl hp hb ih => rw [List.count_append, List.count_append, ih, hb.count]

theorem Entries.spells_before {l : List Block} {s : List Token} (h : Entries l s) {m : List Block}
    {t : List Token} (hm : m ≠ []) (ht : Spells (Block.ofItems m) t) :
    Spells (Block.ofItems (l.reverse ++ m)) (s ++ t) := by
  induction h generalizing m t with
  | nil => exact ht
  | @add l b s u hl hp hb ih =>
    have hpair : Spells (Block.ofItems (b :: m)) (u ++ t) := by
      rw [Block.ofItems_cons hm]
      exact .pair hb ht
    have hs := ih (List.cons_ne_nil b m) hpair
    rwa [List.reverse_cons, List.append_assoc, List.append_assoc]

theorem Entries.spells {l : List Block} {tokens : List Token} (h : Entries l tokens) :
    Spells (Block.join l.reverse) tokens ∧ (Block.join l.reverse).isNormal := by
  have hp : ∀ b ∈ l.reverse, b.isPiece := fun b hb => h.isPiece b (List.mem_reverse.mp hb)
  rw [Block.join_of_isPiece hp]
  refine ⟨?_, Block.isNormal_ofItems hp⟩
  cases h with
  | nil => exact .empty
  | @add l b s t hl hp hb =>
    rw [List.reverse_cons]
    exact hl.spells_before (List.cons_ne_nil b []) hb

/-- An assembly and the tokens that it was read from: those of its entries, with a bracket
in front of each open quotation. -/
inductive ReadFrom : Assembly → List Token → Prop
  | level {current : List Block} {tokens : List Token} (h : Entries current tokens) :
    ReadFrom ⟨current, []⟩ tokens
  | inside {current around : List Block} {outer : List (List Block)} {before tokens : List Token}
    (ho : ReadFrom ⟨around, outer⟩ before) (h : Entries current tokens) :
    ReadFrom ⟨current, around :: outer⟩ (before ++ .opening :: tokens)

theorem ReadFrom.add {a : Assembly} {before t : List Token} {b : Block} (h : ReadFrom a before)
    (hp : b.isPiece) (hb : Spells b t) : ReadFrom (a.add b) (before ++ t) := by
  cases h with
  | level h => exact .level (h.add hp hb)
  | inside ho h =>
    rw [List.append_assoc, List.cons_append]
    exact .inside ho (h.add hp hb)

theorem ReadFrom.place {a a' : Assembly} {before : List Token} {t : Token} (h : ReadFrom a before)
    (ht : place a t = .ok a') : ReadFrom a' (before ++ [t]) := by
  cases t with
  | opening =>
    cases ht
    exact .inside h .nil
  | closing =>
    cases h with
    | level _ => cases ht
    | @inside current around outer before tokens ho h =>
      cases ht
      obtain ⟨hs, hn⟩ := h.spells
      have hq : (Block.quote (Block.join current.reverse)).isPiece := by
        simpa [Block.isPiece, Block.isPair, Block.isEmpty, Block.isNormal] using hn
      rw [List.append_assoc, List.cons_append]
      exact ho.add hq hs.quote
  | word w =>
    simp only [Notation.place] at ht
    cases hw : Notation.leaf w with
    | error e =>
      rw [hw] at ht
      cases ht
    | ok b =>
      rw [hw] at ht
      cases ht
      have hb := leaf_eq_ok_iff.mp hw
      exact h.add hb.isPiece (.leaf hb)

theorem readFrom_of_foldlM {tokens : List Token} {a : Assembly}
    (h : tokens.foldlM place .start = .ok a) : ReadFrom a tokens := by
  -- From the end: what a token does depends on the assembly made of all those before it.
  induction tokens using List.reverseRecOn generalizing a with
  | nil =>
    cases h
    exact .level .nil
  | append_singleton tokens t ih =>
    rw [List.foldlM_append] at h
    obtain ⟨a₁, hf, hp⟩ := Block.bind_eq_ok_iff.mp h
    rw [List.foldlM_cons] at hp
    obtain ⟨a₂, hp, hd⟩ := Block.bind_eq_ok_iff.mp hp
    cases hd
    exact (ih hf).place hp

theorem ReadFrom.depth {a : Assembly} {before : List Token} (h : ReadFrom a before) :
    before.count .opening = before.count .closing + a.depth := by
  induction h with
  | level h => simpa [Assembly.depth] using h.count
  | inside ho h ih =>
    have hcount := h.count
    simp only [Assembly.depth, List.length_cons, List.count_append, List.count_cons] at ih ⊢
    simp
    omega

theorem assemble_of_spells {b : Block} {tokens : List Token} (h : Spells b tokens) :
    assemble tokens = .ok (Block.compose [b]) := by
  have hf := foldlM_place_spells h .start []
  rw [List.append_nil] at hf
  rw [assemble, hf]
  simp [bind, Except.bind, pure, Except.pure, Assembly.block?_start_addAll]

/-- Reading gives the one block in normal form that these tokens spell, if there is one. -/
theorem assemble_eq_ok_iff {tokens : List Token} {b : Block} :
    assemble tokens = .ok b ↔ b.isNormal ∧ Spells b tokens := by
  constructor
  · intro h
    obtain ⟨a, hf, ha⟩ := Block.bind_eq_ok_iff.mp h
    cases readFrom_of_foldlM hf with
    | level hc =>
      cases ha
      exact hc.spells.symm
    | inside ho hc => cases ha
  · rintro ⟨hn, hs⟩
    rw [assemble_of_spells hs, Block.compose_singleton hn]

/-! The first token that offends. -/

/-- What cannot come after the tokens before it, with the error that it is. -/
inductive Offends (before : List Token) : Token → ReadError → Prop
  | closing (h : before.count .opening ≤ before.count .closing) : Offends before .closing .unbalanced
  | word {w : List Char} (h : ¬ IsWord w) : Offends before (.word w) (fault w)

def Faultless (tokens : List Token) : Prop :=
  ∀ before t after e, tokens = before ++ t :: after → ¬ Offends before t e

/-- The earliest token that offends is this error. -/
def FirstFault (tokens : List Token) (e : ReadError) : Prop :=
  ∃ before t after, tokens = before ++ t :: after ∧ Faultless before ∧ Offends before t e

theorem ReadFrom.place_eq_error_iff {a : Assembly} {before : List Token} (h : ReadFrom a before)
    {t : Token} {e : ReadError} : Notation.place a t = .error e ↔ Offends before t e := by
  have hd := h.depth
  cases t with
  | opening =>
    constructor
    · rintro ⟨⟩
    · rintro ⟨⟩
  | closing =>
    obtain ⟨current, outer⟩ := a
    cases outer with
    | nil =>
      have hle : before.count .opening ≤ before.count .closing := hd.le
      constructor
      · rintro ⟨⟩
        exact .closing hle
      · rintro ⟨⟩
        rfl
    | cons around outer =>
      constructor
      · rintro ⟨⟩
      · rintro ⟨hle⟩
        have hd : before.count .opening = before.count .closing + (outer.length + 1) := hd
        omega
  | word w =>
    have hword : Notation.place a (.word w) = .error e ↔ Notation.leaf w = .error e := by
      rw [Notation.place]
      cases Notation.leaf w <;> simp [Except.map]
    rw [hword, leaf_eq_error_iff]
    constructor
    · rintro ⟨hw, rfl⟩
      exact .word hw
    · intro ho
      cases ho with
      | word hw => exact ⟨hw, rfl⟩

theorem Faultless.before {front rest : List Token} (h : Faultless (front ++ rest)) : Faultless front := by
  rintro before t after e rfl
  exact h before t (after ++ rest) e (by simp)

/-- Reading goes on exactly as long as no token offends. -/
theorem foldlM_place_eq_ok_iff {tokens : List Token} :
    (∃ a, tokens.foldlM place .start = .ok a) ↔ Faultless tokens := by
  constructor
  · rintro ⟨a, h⟩ before t after e rfl ho
    rw [List.foldlM_append] at h
    obtain ⟨a₁, hf, h⟩ := Block.bind_eq_ok_iff.mp h
    rw [List.foldlM_cons] at h
    obtain ⟨a₂, hp, -⟩ := Block.bind_eq_ok_iff.mp h
    cases hp.symm.trans ((readFrom_of_foldlM hf).place_eq_error_iff.mpr ho)
  · induction tokens using List.reverseRecOn with
    | nil => exact fun _ => ⟨_, rfl⟩
    | append_singleton tokens t ih =>
      intro h
      obtain ⟨a, hf⟩ := ih h.before
      cases hp : place a t with
      | ok a' =>
        refine ⟨a', ?_⟩
        rw [List.foldlM_append, hf]
        change List.foldlM place a [t] = .ok a'
        rw [List.foldlM_cons, hp]
        rfl
      | error e =>
        exact (h tokens t [] e rfl ((readFrom_of_foldlM hf).place_eq_error_iff.mp hp)).elim

theorem FirstFault.append {front : List Token} {e : ReadError} (h : FirstFault front e)
    (rest : List Token) : FirstFault (front ++ rest) e := by
  obtain ⟨before, t, after, rfl, hf, ho⟩ := h
  exact ⟨before, t, after ++ rest, by simp, hf, ho⟩

theorem foldlM_place_eq_error_iff {tokens : List Token} {e : ReadError} :
    tokens.foldlM place .start = .error e ↔ FirstFault tokens e := by
  constructor
  · induction tokens using List.reverseRecOn with
    | nil => rintro ⟨⟩
    | append_singleton tokens t ih =>
      intro h
      rw [List.foldlM_append] at h
      rcases Block.bind_eq_error_iff.mp h with hf | ⟨a, hf, h⟩
      · exact (ih hf).append [t]
      · rw [List.foldlM_cons] at h
        rcases Block.bind_eq_error_iff.mp h with hp | ⟨a', -, hd⟩
        · have ho := (readFrom_of_foldlM hf).place_eq_error_iff.mp hp
          exact ⟨tokens, t, [], rfl, foldlM_place_eq_ok_iff.mp ⟨a, hf⟩, ho⟩
        · cases hd
  · rintro ⟨before, t, after, rfl, hf, ho⟩
    obtain ⟨a, ha⟩ := foldlM_place_eq_ok_iff.mpr hf
    have hp := (readFrom_of_foldlM ha).place_eq_error_iff.mpr ho
    rw [List.foldlM_append, ha]
    change List.foldlM place a (t :: after) = .error e
    rw [List.foldlM_cons, hp]
    rfl

/-- An open quotation that is not closed is an error only if no token offends. -/
theorem assemble_eq_error_iff {tokens : List Token} {e : ReadError} :
    assemble tokens = .error e ↔
      FirstFault tokens e ∨
        Faultless tokens ∧ tokens.count .closing < tokens.count .opening ∧ e = .unbalanced := by
  rw [assemble, Block.bind_eq_error_iff, foldlM_place_eq_error_iff, ← foldlM_place_eq_ok_iff]
  refine or_congr_right ⟨?_, ?_⟩
  · rintro ⟨a, hf, he⟩
    have hd := (readFrom_of_foldlM hf).depth
    obtain ⟨current, outer⟩ := a
    cases outer with
    | nil => cases he
    | cons around outer =>
      cases he
      have hd : tokens.count .opening = tokens.count .closing + (outer.length + 1) := hd
      exact ⟨⟨_, hf⟩, by omega, rfl⟩
  · rintro ⟨⟨a, hf⟩, hlt, rfl⟩
    have hd := (readFrom_of_foldlM hf).depth
    obtain ⟨current, outer⟩ := a
    cases outer with
    | nil =>
      have hd : tokens.count .opening = tokens.count .closing := hd
      omega
    | cons around outer => exact ⟨_, hf, rfl⟩

/-- No bracket closes what is not open, and none stays open. -/
def Balanced (tokens : List Token) : Prop :=
  (∀ front, front <+: tokens → front.count .closing ≤ front.count .opening) ∧
    tokens.count .closing = tokens.count .opening

theorem faultless_iff {tokens : List Token} :
    Faultless tokens ↔
      (∀ front, front <+: tokens → front.count .closing ≤ front.count .opening) ∧
        ∀ w, .word w ∈ tokens → IsWord w := by
  constructor
  · intro h
    constructor
    · rintro front ⟨rest, rfl⟩
      obtain ⟨a, hf⟩ := foldlM_place_eq_ok_iff.mpr h.before
      have hd := (readFrom_of_foldlM hf).depth
      omega
    · intro w hw
      obtain ⟨before, after, he⟩ := List.append_of_mem hw
      by_contra hn
      exact h before (.word w) after (fault w) he (.word hn)
  · rintro ⟨hopen, hwords⟩ before t after e rfl ho
    cases ho with
    | closing hle =>
      have hfront := hopen (before ++ [.closing]) ⟨after, by simp⟩
      simp only [List.count_append, List.count_singleton] at hfront
      simp at hfront
      omega
    | word hn => exact hn (hwords _ (by simp))

theorem assemble_succeeds_iff {tokens : List Token} :
    (∃ b, assemble tokens = .ok b) ↔ Balanced tokens ∧ ∀ w, .word w ∈ tokens → IsWord w := by
  constructor
  · rintro ⟨b, h⟩
    obtain ⟨a, hf, -⟩ := Block.bind_eq_ok_iff.mp h
    obtain ⟨hopen, hwords⟩ := faultless_iff.mp (foldlM_place_eq_ok_iff.mp ⟨a, hf⟩)
    exact ⟨⟨hopen, (assemble_eq_ok_iff.mp h).2.count.symm⟩, hwords⟩
  · rintro ⟨⟨hopen, hcount⟩, hwords⟩
    have hfaultless := faultless_iff.mpr ⟨hopen, hwords⟩
    cases h : assemble tokens with
    | ok b => exact ⟨b, rfl⟩
    | error e =>
      rcases assemble_eq_error_iff.mp h with ⟨before, t, after, he, -, ho⟩ | ⟨-, hlt, -⟩
      · exact (hfaultless before t after e he ho).elim
      · omega

theorem Offends.ne_badNumber {before : List Token} {t : Token} {e : ReadError} (h : Offends before t e)
    (word : String) : e ≠ .badNumber word := by
  cases h with
  | closing _ => rintro ⟨⟩
  | word _ =>
    unfold fault
    split <;> rintro ⟨⟩

/-- A text is split into tokens in one way only, and it is read exactly if the brackets
balance and every word stands for something. The result is then the one block in normal
form that the tokens spell, and its names are valid. Otherwise the error is that of the first
token that offends; if there is none, a quotation has been left open. A number word is
always read. -/
theorem parse_spells_or_fault (text : String) :
    let tokens := Token.scan text.toList
    (∀ l, Token.Splits text.toList l ↔ tokens = l) ∧
    ((∃ b, parse text = .ok b) ↔ Balanced tokens ∧ ∀ w, .word w ∈ tokens → IsWord w) ∧
    (∀ b, parse text = .ok b ↔ b.isNormal ∧ Spells b tokens) ∧
    (∀ b, parse text = .ok b → ∀ n ∈ b.names, isName n) ∧
    (∀ e, parse text = .error e ↔
      FirstFault tokens e ∨
        Faultless tokens ∧ tokens.count .closing < tokens.count .opening ∧ e = .unbalanced) ∧
    ∀ word, parse text ≠ .error (.badNumber word) := by
  intro tokens
  refine ⟨fun l => Token.splits_iff, assemble_succeeds_iff, fun b => assemble_eq_ok_iff, ?_,
    fun e => assemble_eq_error_iff, ?_⟩
  · intro b h
    exact (assemble_eq_ok_iff.mp h).2.isName
  · intro word h
    rcases assemble_eq_error_iff.mp h with ⟨before, t, after, -, -, ho⟩ | ⟨-, -, he⟩
    · exact ho.ne_badNumber word rfl
    · cases he

example : parse "[#0 ab ]]" = .error (.unknownWord "#0") := by decide

end Notation

end BlockCalculus
