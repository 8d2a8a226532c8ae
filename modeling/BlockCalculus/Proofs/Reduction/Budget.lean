import BlockCalculus.Proofs.Names.Resolution
import BlockCalculus.Proofs.Reduction.Continuation
import Mathlib

/-! The account of a budget. A run that has spent its budget goes on from there
when it is given more, and one that has come to its end stays as it is. -/

namespace BlockCalculus.Reduction

variable {o : Oracle}

theorem runWith_add {s : State} {fuel : Nat} (h : (s.runWith o fuel).fuel = 0) (extra : Nat) :
    s.runWith o (fuel + extra) = (s.runWith o fuel).state.runWith o extra := by
  induction fuel, s using runWith_induction o with
  | spent s => rw [runWith_zero, Nat.zero_add]
  | done fuel s hw =>
    rw [runWith_of_done hw] at h
    have hf : fuel = 0 := h
    rw [hf, runWith_zero, Nat.zero_add]
  | move fuel s v s' hm ih =>
    have hc : v.cost ≤ 1 := by cases v <;> decide
    have hsum : fuel + extra + 1 - v.cost = fuel + 1 - v.cost + extra := by omega
    rw [runWith_of_move hm] at h ⊢
    rw [Nat.add_right_comm, runWith_of_move hm, hsum, ih h]

/-- A run that has come to its end ends in the same state with more budget. A run
stops at an empty budget even if only moves that cost nothing are left, so what it
used is enough again only if it had no more than that. -/
theorem runWith_of_finished {s : State} {fuel extra : Nat}
    (hw : (s.runWith o fuel).state.work = [])
    (he : (s.runWith o fuel).fuel = 0 ∨ 0 < extra) :
    s.runWith o (fuel - (s.runWith o fuel).fuel + extra) =
      ⟨extra, (s.runWith o fuel).state, ()⟩ := by
  by_cases hz : 0 < extra
  · have hf := runWith_frame hw [] [] hz
    have hframe : ∀ t : State, t.frame [] [] = t := fun t => by simp [State.frame]
    rw [hframe, hframe] at hf
    rw [hf, runWith_of_done hw]
  · have h := he.resolve_right hz
    rw [h, Nat.sub_zero, runWith_add h, runWith_of_done hw]

/-- What a run has used takes it to where nothing is left. -/
theorem runWith_used (fuel : Nat) (s : State) :
    (s.runWith o (fuel - (s.runWith o fuel).fuel)).fuel = 0 := by
  induction fuel, s using runWith_induction o with
  | spent s => rw [Nat.zero_sub, runWith_zero]
  | done fuel s hw =>
    rw [runWith_of_done hw fuel]
    change (s.runWith o (fuel - fuel)).fuel = 0
    rw [Nat.sub_self, runWith_zero]
  | move fuel s v s' hm ih =>
    rw [runWith_of_move hm]
    have hle : (s'.runWith o (fuel + 1 - v.cost)).fuel ≤ fuel + 1 - v.cost := runWith_fuel_le _ s'
    generalize (s'.runWith o (fuel + 1 - v.cost)).fuel = left at hle ih ⊢
    by_cases hz : fuel + 1 - left = 0
    · rw [hz, runWith_zero]
    · obtain ⟨k, hk⟩ : ∃ k, fuel + 1 - left = k + 1 := ⟨_, (Nat.succ_pred hz).symm⟩
      have hrest : k + 1 - v.cost = fuel + 1 - v.cost - left := by omega
      rw [hk, runWith_of_move hm, hrest]
      exact ih

theorem Move.grows {s s' : State} {v : Verdict} (h : Move o s v s') :
    s.stuck ≤ s'.stuck ∧ s.tags <:+ s'.tags := by
  cases h with
  | aside => exact ⟨le_refl _, List.suffix_cons _ _⟩
  | discard _ => exact ⟨Nat.le_succ _, List.suffix_rfl⟩
  | _ => exact ⟨le_refl _, List.suffix_rfl⟩

theorem runWith_grows (fuel : Nat) (s : State) :
    s.stuck ≤ (s.runWith o fuel).state.stuck ∧ s.tags <:+ (s.runWith o fuel).state.tags := by
  refine runWith_invariant (P := fun t => s.stuck ≤ t.stuck ∧ s.tags <:+ t.tags) ?_ fuel
    ⟨le_refl _, List.suffix_rfl⟩
  intro t v t' hm ht
  have hg := hm.grows
  exact ⟨ht.1.trans hg.1, ht.2.trans hg.2⟩

theorem Outcome.ofHalt_finished {s : State} (hw : s.work = []) (quota left extra : Nat) :
    Outcome.ofHalt (quota - left + extra) (⟨extra, s, ()⟩ : Halt Unit) =
      Outcome.ofHalt quota ⟨left, s, ()⟩ := by
  have hu : quota - left + extra - extra = quota - left := Nat.add_sub_cancel _ _
  simp [ofHalt, hw, hu]

theorem reduceBy_of_finished {clock : Nat} {c : Cell} {q extra : Nat}
    (hw : ((State.initial clock c).runWith o q).state.work = [])
    (he : ((State.initial clock c).runWith o q).fuel = 0 ∨ 0 < extra) :
    reduceBy o (q - ((State.initial clock c).runWith o q).fuel + extra) clock c = reduceBy o q clock c := by
  change Outcome.ofHalt _ ((State.initial clock c).runWith o _) = .ofHalt q _
  rw [runWith_of_finished hw he]
  exact Outcome.ofHalt_finished hw q _ extra

/-- The budget that is used and the one that is left make up the quota. A run
that has exhausted its quota only goes on with a larger one; any other outcome
is the same for a larger quota, and for each one above the budget used. -/
theorem reduceShared_larger_quota (answers : String → Except ReadError Block) (clock : Nat) (c : Cell)
    (q q' : Nat) :
    let halt := (State.initial clock c).runWith (.inMemory answers) q
    let o := reduceShared answers q clock c
    let o' := reduceShared answers q' clock c
    (halt.fuel ≤ q ∧ o.fuelUsed + halt.fuel = q) ∧
    (o.exhausted = true → o.fuelUsed = q ∧
      (q ≤ q' → q ≤ o'.fuelUsed ∧ o.stuck ≤ o'.stuck ∧ o.tags <+: o'.tags)) ∧
    (o.exhausted = false → q ≤ q' ∨ o.fuelUsed < q' → o' = o) := by
  intro halt o o'
  have hle : halt.fuel ≤ q := runWith_fuel_le q (State.initial clock c)
  have hused : o.fuelUsed = q - halt.fuel := rfl
  refine ⟨⟨hle, by omega⟩, fun hx => ?_, fun hx hq => ?_⟩
  · have hz : halt.fuel = 0 := fuel_eq_zero_of_exhausted hx
    refine ⟨by omega, fun hq => ?_⟩
    obtain ⟨extra, rfl⟩ := Nat.exists_eq_add_of_le hq
    let last := halt.state.runWith (.inMemory answers) extra
    have ho' : o' = .ofHalt (q + extra) last :=
      congrArg (Outcome.ofHalt (q + extra)) (runWith_add hz extra)
    have hrest : last.fuel ≤ extra := runWith_fuel_le extra halt.state
    have hgrows : halt.state.stuck ≤ last.state.stuck ∧ halt.state.tags <:+ last.state.tags :=
      runWith_grows extra halt.state
    have hused' : o'.fuelUsed = q + extra - last.fuel := by rw [ho']; rfl
    refine ⟨by omega, ?_, ?_⟩
    · rw [ho']
      exact hgrows.1
    · rw [ho']
      exact (List.reverse_prefix.mpr hgrows.2).map Cell.block
  · have hw : halt.state.work = [] := work_eq_nil_of_not_exhausted (runWith_stopped q _) hx
    -- Enough budget: what is left was nothing, or something is left again.
    obtain ⟨extra, hextra, he⟩ : ∃ extra, q' = q - halt.fuel + extra ∧ (halt.fuel = 0 ∨ 0 < extra) :=
      ⟨q' - (q - halt.fuel), by omega, by omega⟩
    change reduceBy (.inMemory answers) q' clock c = reduceBy (.inMemory answers) q clock c
    rw [hextra]
    exact reduceBy_of_finished hw he

/-- A tag, an operator that gets stuck, a name that copies a quotation of a NaN, and a guard
that finds the copies to be one and the same. -/
theorem reduceShared_larger_quota_nan :
    let answers := Definitions.answers (some ⟨[("twice", .prim .copy)]⟩)
    let nan : Block := .quote (.num ⟨0x7ff8000000000000⟩)
    let c := Cell.ofBlock (.compose [.prim .tag, .prim .app, nan, .var "twice", .prim .eq])
    let o := fun q => reduceShared answers q 0 c
    (o 2).exhausted = true ∧ (o 2).fuelUsed = 2 ∧ 2 ≤ (o 3).fuelUsed ∧ (o 2).stuck ≤ (o 3).stuck ∧
      (o 2).tags <+: (o 3).tags ∧ (o 3).exhausted = false ∧ (o 3).fuelUsed = 3 ∧ (o 3).stuck = 1 ∧
      o 5 = o 3 ∧ o 4 = o 5 := by
  intro answers nan c o
  have hspent : o 2 = ⟨.compose [.prim .app, .prim .eq, nan, nan], [.prim .tag], 2, 1, true⟩ := by
    simp only [o, answers, c, nan]
    cbv
  have hdone : o 3 = ⟨.compose [.prim .app, nan, nan], [.prim .tag], 3, 1, false⟩ := by
    simp only [o, answers, c, nan]
    cbv
  have hx₂ : (o 2).exhausted = true := congrArg Outcome.exhausted hspent
  have hx₃ : (o 3).exhausted = false := congrArg Outcome.exhausted hdone
  have hu₃ : (o 3).fuelUsed = 3 := congrArg Outcome.fuelUsed hdone
  obtain ⟨-, hlarger, -⟩ := reduceShared_larger_quota answers 0 c 2 3
  obtain ⟨-, -, hstable⟩ := reduceShared_larger_quota answers 0 c 3 5
  obtain ⟨-, -, hcovered⟩ := reduceShared_larger_quota answers 0 c 5 4
  obtain ⟨hu₂, hgrows⟩ := hlarger hx₂
  obtain ⟨hused, hstuck, htags⟩ := hgrows (by decide)
  have h₅ : o 5 = o 3 := hstable hx₃ (.inl (by decide))
  have hx₅ : (o 5).exhausted = false := by rw [h₅, hx₃]
  have hu₅ : (o 5).fuelUsed < 4 := by rw [h₅, hu₃]; decide
  exact ⟨hx₂, hu₂, hused, hstuck, htags, hx₃, hu₃, congrArg Outcome.stuck hdone, h₅,
    hcovered hx₅ (.inr hu₅)⟩

end BlockCalculus.Reduction
