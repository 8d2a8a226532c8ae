import BlockCalculus.Proofs.Block.Comparison
import BlockCalculus.Proofs.Bytecode.RoundTrip

/-! Blocks that are equal and blocks with the same code. The two notions part
at literals only: a NaN has a code and is unequal to itself, and the two zeros
are equal with different codes. -/

namespace BlockCalculus

namespace Block

/-- The block with every negative zero turned into the positive one. -/
def plainZeros : Block → Block
  | num x => num x.plainZero
  | quote body => quote body.plainZeros
  | pair a b => pair a.plainZeros b.plainZeros
  | b => b

theorem sameTree_plainZeros {a : Block} (ha : a.NaNFree) : SameTree a a.plainZeros := by
  induction a with
  | num x =>
    rw [naNFree_num, ← Binary64.value?_eq_none_iff] at ha
    obtain ⟨v, hv⟩ := Option.ne_none_iff_exists'.mp ha
    exact .num hv ((Binary64.value?_plainZero x).trans hv)
  | quote body ih => exact .quote (ih ha)
  | pair a b iha ihb =>
    obtain ⟨ha, hb⟩ := naNFree_pair.mp ha
    exact .pair (iha ha) (ihb hb)
  | _ => exact .refl ha

theorem SameTree.plainZeros_eq {a b : Block} (h : SameTree a b) : a.plainZeros = b.plainZeros := by
  induction h with
  | num hx hy => rw [plainZeros, plainZeros, Binary64.plainZero_congr hx hy]
  | quote _ ih => rw [plainZeros, plainZeros, ih]
  | pair _ _ ihfirst ihsecond => rw [plainZeros, plainZeros, ihfirst, ihsecond]
  | _ => rfl

theorem equal_iff_plainZeros {a b : Block} :
    a.equal b ↔ a.NaNFree ∧ b.NaNFree ∧ a.plainZeros = b.plainZeros := by
  rw [equal_iff_sameTree]
  constructor
  · exact fun h => ⟨h.naNFree, h.symm.naNFree, h.plainZeros_eq⟩
  · rintro ⟨ha, hb, h⟩
    have hb := (sameTree_plainZeros hb).symm
    rw [← h] at hb
    exact (sameTree_plainZeros ha).trans hb

theorem names_plainZeros (b : Block) : b.plainZeros.names = b.names := by
  induction b with
  | quote body ih => exact ih
  | pair a b iha ihb => rw [plainZeros, names, iha, ihb, names]
  | _ => rfl

theorem isNormal_plainZeros (b : Block) : b.plainZeros.isNormal = b.isNormal := by
  induction b with
  | quote body ih => exact ih
  | pair a b iha ihb =>
    have hpair : a.plainZeros.isPair = a.isPair := by cases a <;> rfl
    have hempty (c : Block) : c.plainZeros.isEmpty = c.isEmpty := by cases c <;> rfl
    rw [plainZeros, isNormal, iha, ihb, hpair, hempty, hempty, isNormal]
  | _ => rfl

theorem Writable.plainZeros {b : Block} (h : b.Writable) : b.plainZeros.Writable :=
  ⟨(isNormal_plainZeros b).trans h.1, (names_plainZeros b).trans h.2⟩

/-- No literal at any depth is the negative zero. -/
def NegativeZeroFree (b : Block) : Prop :=
  ∀ x, num x ∈ b.atoms → x ≠ Binary64.negativeZero

theorem plainZeros_of_free {b : Block} (h : b.NegativeZeroFree) : b.plainZeros = b := by
  induction b with
  | num x =>
    have hx : x ≠ Binary64.negativeZero := h x (by simp [atoms])
    rw [plainZeros, Binary64.plainZero, if_neg hx]
  | quote body ih => rw [plainZeros, ih h]
  | pair a b iha ihb =>
    rw [plainZeros, iha fun x hx => h x (List.mem_append_left _ hx),
      ihb fun x hx => h x (List.mem_append_right _ hx)]
  | _ => rfl

end Block

namespace Bytecode

/-- A writable block has a code, and the code determines it. -/
theorem encode_injective {a b : Block} (ha : a.Writable) (hb : b.Writable)
    (h : encode a = encode b) : a = b := by
  rw [encode_of_names_eq_nil ha.2, encode_of_names_eq_nil hb.2, Except.ok.injEq] at h
  have hda := decode_written_of_isNormal ha.1 ha.2
  rw [h, decode_written_of_isNormal hb.1 hb.2] at hda
  exact (Except.ok.inj hda).symm

theorem addressOf_congr {a b : Block} (ha : a.Writable) (h : encode a = encode b) :
    ∃ target, addressOf a = .ok target ∧ addressOf b = .ok target := by
  have htarget := addressOf_eq_ok_iff.mpr ⟨ha.2, rfl⟩
  refine ⟨_, htarget, ?_⟩
  rwa [addressOf, ← h]

/-- Equality is having the same code once negative zeros are turned into
positive ones, without a NaN on either side. With neither NaNs nor negative
zeros it is having the same code, hence the same address. -/
theorem equal_iff_same_code {a b : Block} (ha : a.Writable) (hb : b.Writable) :
    (a.equal b ↔ a.NaNFree ∧ b.NaNFree ∧ encode a.plainZeros = encode b.plainZeros) ∧
    (a.NaNFree → b.NaNFree → a.NegativeZeroFree → b.NegativeZeroFree →
      (a.equal b ↔ encode a = encode b) ∧
      (a.equal b → ∃ target, addressOf a = .ok target ∧ addressOf b = .ok target)) := by
  have hcode : encode a.plainZeros = encode b.plainZeros ↔ a.plainZeros = b.plainZeros :=
    ⟨encode_injective ha.plainZeros hb.plainZeros, congrArg encode⟩
  have hmain : a.equal b ↔ a.NaNFree ∧ b.NaNFree ∧ encode a.plainZeros = encode b.plainZeros := by
    rw [Block.equal_iff_plainZeros, hcode]
  refine ⟨hmain, fun hna hnb hza hzb => ?_⟩
  rw [Block.plainZeros_of_free hza, Block.plainZeros_of_free hzb] at hmain
  have hsame : a.equal b ↔ encode a = encode b :=
    hmain.trans ⟨fun h => h.2.2, fun h => ⟨hna, hnb, h⟩⟩
  exact ⟨hsame, fun h => addressOf_congr ha (hsame.mp h)⟩

/-- The two zeros in a quotation: equal, with different codes. -/
theorem equal_iff_same_code_zeros :
    let a : Block := .pair (.quote (.num Binary64.negativeZero)) (.prim .drop)
    let b : Block := .pair (.quote (.num Binary64.positiveZero)) (.prim .drop)
    a.Writable ∧ b.Writable ∧ a.equal b ∧ encode a ≠ encode b ∧
      encode a.plainZeros = encode b.plainZeros := by
  intro a b
  have ha : a.Writable := ⟨rfl, rfl⟩
  have hb : b.Writable := ⟨rfl, rfl⟩
  have hequal : a.equal b := by decide
  have hzeros : Binary64.negativeZero ≠ Binary64.positiveZero := by decide
  have hne : encode a ≠ encode b := fun h => hzeros (by simpa [a, b] using encode_injective ha hb h)
  exact ⟨ha, hb, hequal, hne, ((equal_iff_same_code ha hb).1.mp hequal).2.2⟩

end Bytecode

end BlockCalculus
