import BlockCalculus.Proofs.Reduction.Budget
import BlockCalculus.Proofs.Reduction.Replay
import Mathlib

/-! An interrupted run that is taken up again. With nothing on the data stack, the
result of the first part takes a run to where it was interrupted. -/

namespace BlockCalculus.Reduction

variable {o : Oracle}

/-- A state between two turns from which a run can be taken up again. -/
structure Resumable (o : Oracle) (s : State) : Prop where
  normal : s.Normal
  settled : Settled o s.trash s.stuck
  tidy : Tidy s.work

theorem State.initial_resumable (clock : Nat) (c : Cell) : Resumable o (State.initial clock c) where
  normal := State.initial_normal clock c
  settled := .nil
  tidy := State.initial_tidy clock c

theorem Move.resumable (hn : ∀ n body, o.resolve n = .ok body → body.block.isNormal) {s s' : State}
    {v : Verdict} (h : Move o s v s') (hs : Resumable o s) : Resumable o s' where
  normal := h.normal hn hs.normal
  settled := h.settled hs.normal hs.settled
  tidy := h.tidy hn hs.normal hs.tidy

theorem runWith_resumable (hn : ∀ n body, o.resolve n = .ok body → body.block.isNormal) (fuel clock : Nat)
    (c : Cell) : Resumable o ((State.initial clock c).runWith o fuel).state :=
  runWith_invariant (P := Resumable o) (fun _ _ _ hm => hm.resumable hn) fuel
    (State.initial_resumable clock c)

theorem pieces_package_of_empty_data {s : State} (hs : s.Normal) (hd : s.data = []) :
    s.package.pieces = s.trash.reverse ++ s.work.flatMap Cell.pieces := by
  have ht : ∀ c ∈ s.trash.reverse, c.block.isPiece := fun c hc => hs.trash c (List.mem_reverse.mp hc)
  rw [State.package, hd, Cell.pieces_compose, List.flatMap_append, List.flatMap_append,
    Cell.flatMap_pieces ht, List.reverse_nil, List.flatMap_nil, List.append_nil]

/-- The trash gets stuck again, and the pieces of the continuation run as the
continuation would have. What was shared still is. -/
theorem reduceBy_interrupted {s : State} (hs : Resumable o s) (hd : s.data = []) (fuel : Nat) :
    reduceBy o (fuel + 1) s.clock s.package =
      .ofHalt (fuel + 1) ({ s with tags := [] }.runWith o (fuel + 1)) := by
  obtain ⟨t, halike, hrun⟩ := hs.tidy.alike o [] s.trash [] s.stuck s.clock
  have hsame : (t.runWith o (fuel + 1)).fuel = _ ∧ Alike _ _ := runWith_alike halike (fuel + 1)
  have hstate : { s with tags := [] } = (⟨s.work, [], s.trash, [], s.stuck, s.clock⟩ : State) := by
    rw [← hd]
  rw [reduceBy_succ, pieces_package_of_empty_data hs.normal hd, State.start,
    hs.settled.runWith_replay, hstate, hrun]
  exact Outcome.ofHalt_alike hsame.1 hsame.2

/-- A run that was interrupted with nothing on its data stack comes, when its result
is run as it lies in memory, to where it would have come without the interruption. -/
theorem reduceShared_resume (lib : Option Definitions) (clock : Nat) (c : Cell) {q₁ q₂ : Nat}
    (hx : (reduceShared (Definitions.answers lib) q₁ clock c).exhausted = true)
    (hd : ((State.initial clock c).runWith (.inMemory (Definitions.answers lib)) q₁).state.data = [])
    (hq : 1 ≤ q₂) :
    let answers := Definitions.answers lib
    let halt := (State.initial clock c).runWith (.inMemory answers) q₁
    let first := reduceShared answers q₁ clock c
    let second := reduceShared answers q₂ halt.state.clock halt.state.package
    let whole := reduceShared answers (q₁ + q₂) clock c
    halt.state.package.block = first.block ∧ second.block = whole.block ∧ second.stuck = whole.stuck ∧
      second.exhausted = whole.exhausted ∧ first.fuelUsed + second.fuelUsed = whole.fuelUsed ∧
      first.tags ++ second.tags = whole.tags := by
  intro answers halt first second whole
  obtain ⟨k, rfl⟩ : ∃ k, q₂ = k + 1 := ⟨q₂ - 1, by omega⟩
  let o := Oracle.inMemory answers
  have hs : Resumable o halt.state :=
    runWith_resumable (Oracle.inMemory_isNormal (Definitions.answers_isNormal lib)) q₁ clock c
  have hz : halt.fuel = 0 := fuel_eq_zero_of_exhausted hx
  -- Both runs go on from `next`, the whole one with tags behind it.
  let next : State := { halt.state with tags := [] }
  have hframe : next.frame [] halt.state.tags = halt.state := by simp [State.frame, next]
  have hfirst : first = .ofHalt q₁ halt := rfl
  have hsecond : second = .ofHalt (k + 1) (next.runWith o (k + 1)) := reduceBy_interrupted hs hd k
  have hwhole : whole = .ofHalt (q₁ + (k + 1)) ⟨(next.runWith o (k + 1)).fuel,
      (next.runWith o (k + 1)).state.frame [] halt.state.tags, ()⟩ := by
    rw [← runWith_frame_tags, hframe, ← runWith_add hz]
    rfl
  have hle : (next.runWith o (k + 1)).fuel ≤ k + 1 := runWith_fuel_le (k + 1) next
  rw [hwhole, hsecond, hfirst]
  refine ⟨rfl, ?_, rfl, ?_, ?_, ?_⟩
  · simp [Outcome.ofHalt, State.package, State.frame]
  · simp [Outcome.ofHalt, State.frame]
  · simp only [Outcome.ofHalt, hz]
    omega
  · simp [Outcome.ofHalt, State.frame, next]

/-- A quotation of a NaN and its copy go to the trash with a `neq`, and get stuck again when the
result is run, since they are still one in memory. The first part ends right after an empty
quotation has been applied, with one of two tags set aside. -/
theorem reduceShared_resume_nan :
    let answers := Definitions.answers (some ⟨[("twice", .prim .copy)]⟩)
    let nan : Block := .quote (.num ⟨0x7ff8000000000000⟩)
    let c := Cell.ofBlock (.compose [nan, .prim .copy, .prim .neq, .prim .tag, .quote .empty, .prim .app,
      .num ⟨7⟩, .var "twice", .prim .tag, .var "thrice"])
    let halt := (State.initial 0 c).runWith (.inMemory answers) 2
    let first := reduceShared answers 2 0 c
    let second := reduceShared answers 3 halt.state.clock halt.state.package
    first.exhausted = true ∧ halt.state.data = [] ∧ halt.state.work.head? = some .empty ∧
      halt.state.package.block = first.block ∧
      first.block = .compose [nan, nan, .prim .neq, .num ⟨7⟩, .var "twice", .prim .tag, .var "thrice"] ∧
      second.block = .compose [nan, nan, .prim .neq, .num ⟨7⟩, .num ⟨7⟩, .var "thrice"] ∧
      second.stuck = 2 ∧ second.exhausted = false ∧ second.fuelUsed = 2 ∧
      first.tags ++ second.tags = [.prim .tag, .prim .tag] := by
  intro answers nan c halt first second
  let copied : Cell := .quote (.shared 0 [.body]) (.num ⟨0x7ff8000000000000⟩)
  have hhalt : halt = ⟨0, ⟨[.empty, .ofBlock (.compose [.num ⟨7⟩, .var "twice", .prim .tag, .var "thrice"])],
      [], [.prim .neq, copied, copied], [.prim .tag], 1, 2⟩, ()⟩ := by
    simp only [halt, answers, c, nan, copied]
    cbv
  have hd : halt.state.data = [] := congrArg (fun c => c.state.data) hhalt
  have hof : first = .ofHalt 2 halt := rfl
  rw [hhalt] at hof
  have hx : first.exhausted = true := congrArg Outcome.exhausted hof
  have hused : first.fuelUsed = 2 := congrArg Outcome.fuelUsed hof
  have hfirst : first.block = .compose [nan, nan, .prim .neq, .num ⟨7⟩, .var "twice", .prim .tag,
      .var "thrice"] := by
    rw [hof]
    simp only [nan, copied]
    cbv
  have hwhole : reduceShared answers (2 + 3) 0 c = ⟨.compose [nan, nan, .prim .neq, .num ⟨7⟩, .num ⟨7⟩,
      .var "thrice"], [.prim .tag, .prim .tag], 4, 2, false⟩ := by
    simp only [answers, c, nan]
    cbv
  have hq : 1 ≤ 3 := by decide
  obtain ⟨hpackage, hblock, hstuck, hex, hfuel, htags⟩ := reduceShared_resume _ 0 c hx hd hq
  rw [hwhole] at hblock hstuck hex hfuel htags
  have hsum : first.fuelUsed + second.fuelUsed = 4 := hfuel
  exact ⟨hx, hd, congrArg (fun c => c.state.work.head?) hhalt, hpackage, hfirst, hblock, hstuck, hex,
    by omega, htags⟩

end BlockCalculus.Reduction
