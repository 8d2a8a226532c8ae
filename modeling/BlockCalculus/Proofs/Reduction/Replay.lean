import BlockCalculus.Proofs.Names.Resolution
import BlockCalculus.Proofs.Reduction.Continuation
import BlockCalculus.Proofs.Reduction.Structure
import Mathlib

/-! A finished result that is run again. What has gone to the trash gets stuck
again on the same data stacks, so the result takes a run to where the first run
came to its end, and spends nothing. -/

namespace BlockCalculus.Reduction

variable {o : Oracle}

/-- The trash is made of segments, the latest first. Each is a block on the
values that were on the data stack when it got stuck. -/
inductive Settled (o : Oracle) : List Cell → Nat → Prop
  | nil : Settled o [] 0
  | cons {c : Cell} {data trash : List Cell} {n : Nat} (hc : Stuck o c data)
    (hd : ∀ v ∈ data, v.block.isValue) (h : Settled o trash n) :
    Settled o (c :: (data ++ trash)) (n + 1)

theorem Move.settled {s s' : State} {v : Verdict} (h : Move o s v s') (hs : s.Normal)
    (ht : Settled o s.trash s.stuck) : Settled o s'.trash s'.stuck := by
  cases h with
  | discard hc => exact .cons hc (fun v hv => (hs.data v hv).1) ht
  | _ => exact ht

theorem Move.normal_settled (hn : ∀ n body, o.resolve n = .ok body → body.block.isNormal) {s s' : State}
    {v : Verdict} (h : Move o s v s') (hs : s.Normal ∧ Settled o s.trash s.stuck) :
    s'.Normal ∧ Settled o s'.trash s'.stuck :=
  ⟨h.normal hn hs.1, h.settled hs.1 hs.2⟩

theorem runWith_settled (hn : ∀ n body, o.resolve n = .ok body → body.block.isNormal) (fuel : Nat)
    {s : State} (hs : s.Normal) (ht : Settled o s.trash s.stuck) :
    (s.runWith o fuel).state.Normal ∧
      Settled o (s.runWith o fuel).state.trash (s.runWith o fuel).state.stuck :=
  runWith_invariant (P := fun s => s.Normal ∧ Settled o s.trash s.stuck)
    (fun _ _ _ hm => hm.normal_settled hn) fuel ⟨hs, ht⟩

theorem runWith_push {values : List Cell} (hv : ∀ v ∈ values, v.block.isValue)
    (rest data trash tags : List Cell) (n time fuel : Nat) :
    State.runWith o (fuel + 1) ⟨values ++ rest, data, trash, tags, n, time⟩ =
      State.runWith o (fuel + 1) ⟨rest, values.reverse ++ data, trash, tags, n, time⟩ := by
  induction values generalizing data with
  | nil => rfl
  | cons v values ih =>
    obtain ⟨hv, hvs⟩ := List.forall_mem_cons.mp hv
    have hm : Move o ⟨v :: (values ++ rest), data, trash, tags, n, time⟩ .quiet
        ⟨values ++ rest, v :: data, trash, tags, n, time⟩ := .push hv
    have hi := ih hvs (v :: data)
    rw [List.cons_append, runWith_of_move hm, List.reverse_cons, List.append_assoc]
    exact hi

theorem Settled.runWith_replay {trash : List Cell} {n : Nat} (h : Settled o trash n)
    (rest tags : List Cell) (time fuel : Nat) :
    State.runWith o (fuel + 1) ⟨trash.reverse ++ rest, [], [], tags, 0, time⟩ =
      State.runWith o (fuel + 1) ⟨rest, [], trash, tags, n, time⟩ := by
  induction h generalizing rest with
  | nil => rfl
  | @cons c data trash n hc hd _ ih =>
    have hl : (c :: (data ++ trash)).reverse ++ rest =
        trash.reverse ++ (data.reverse ++ (c :: rest)) := by simp
    have hv : ∀ v ∈ data.reverse, v.block.isValue := fun v hv => hd v (List.mem_reverse.mp hv)
    rw [hl, ih, runWith_push hv, List.reverse_reverse, List.append_nil]
    exact runWith_of_move (.discard hc) fuel

def State.start (clock : Nat) (cells : List Cell) : State :=
  ⟨cells, [], [], [], 0, clock⟩

theorem Outcome.ofHalt_alike {quota : Nat} {h h' : Halt Unit} (hf : h'.fuel = h.fuel)
    (hs : Alike h.state h'.state) : Outcome.ofHalt quota h = Outcome.ofHalt quota h' := by
  have hw : h.state.work.isEmpty = h'.state.work.isEmpty := by
    rw [Bool.eq_iff_iff, List.isEmpty_iff, List.isEmpty_iff, hs.work_eq_nil_iff]
  simp only [ofHalt, hf, hs.block_package, hs.tags, hs.stuck, hw]

theorem reduceBy_succ (fuel clock : Nat) (c : Cell) :
    reduceBy o (fuel + 1) clock c =
      .ofHalt (fuel + 1) ((State.start clock c.pieces).runWith o (fuel + 1)) := by
  rw [reduceBy]
  by_cases hc : c = .empty
  · subst hc
    rfl
  · rw [State.initial_of_ne_empty clock hc]
    have hp : (Cell.compose [c]).pieces = c.pieces := by simp
    -- Without pieces the only entry is empty: a leaf that the other start lacks.
    by_cases he : Cell.compose [c] = .empty
    · rw [← hp, he]
      exact congrArg _ (runWith_of_move .skip fuel)
    · have hl : [Cell.compose [c]].flatMap Cell.leaves = c.pieces.flatMap Cell.leaves := by
        have hsolid : Solid [Cell.compose [c]] := by
          simpa [Solid] using ⟨Block.isNormal_compose [c.block], he⟩
        rw [← hsolid.flatMap_leaves, List.flatMap_singleton, hp]
      have ha : Alike ⟨[.compose [c]], [], [], [], 0, clock⟩ (.start clock c.pieces) :=
        ⟨hl, rfl, rfl, rfl, rfl, rfl⟩
      exact Outcome.ofHalt_alike (runWith_alike ha (fuel + 1)).1 (runWith_alike ha (fuel + 1)).2

theorem State.start_normal (clock : Nat) (c : Cell) : (State.start clock c.pieces).Normal where
  work _ hx := Block.isNormal_of_isPiece (Cell.isPiece_of_mem_pieces hx)
  data _ hx := by cases hx
  trash _ hx := by cases hx
  tags _ hx := by cases hx

theorem finished_of_not_exhausted {fuel clock : Nat} {c : Cell}
    (h : (reduceBy o fuel clock c).exhausted = false) :
    ((State.start clock c.pieces).runWith o fuel).state.work = [] ∧
      reduceBy o fuel clock c = .ofHalt fuel ((State.start clock c.pieces).runWith o fuel) := by
  cases fuel with
  | zero =>
    have hi : reduceBy o 0 clock c = .ofHalt 0 ⟨0, .initial clock c, ()⟩ :=
      congrArg (Outcome.ofHalt 0) (runWith_zero _)
    have hc : c = .empty := by
      rw [hi] at h
      by_contra hc
      simp [Outcome.ofHalt, State.initial_of_ne_empty clock hc] at h
    subst hc
    rw [hi, runWith_zero]
    exact ⟨rfl, rfl⟩
  | succ fuel =>
    have he : reduceBy o (fuel + 1) clock c = _ := reduceBy_succ fuel clock c
    rw [he] at h
    exact ⟨work_eq_nil_of_not_exhausted (runWith_stopped (fuel + 1) _) h, he⟩

theorem pieces_package {s : State} (hs : s.Normal) (hw : s.work = []) :
    s.package.pieces = s.trash.reverse ++ s.data.reverse := by
  have hp : ∀ c ∈ s.trash.reverse ++ s.data.reverse, c.block.isPiece := by
    intro c hc
    rcases List.mem_append.mp hc with hc | hc
    · exact hs.trash c (List.mem_reverse.mp hc)
    · exact hs.isPiece_of_mem_data (List.mem_reverse.mp hc)
  rw [State.package, hw, List.append_nil, Cell.pieces_compose, Cell.flatMap_pieces hp]

/-- A finished result takes a run with code behind it to where the first run has
ended, and spends nothing. What it shares is what the first run has left shared. -/
theorem reduceBy_package {s : State} (hs : s.Normal) (ht : Settled o s.trash s.stuck)
    (hw : s.work = []) (c : Cell) (fuel : Nat) :
    reduceBy o (fuel + 1) s.clock (.compose [s.package, c]) = .ofHalt (fuel + 1)
      (State.runWith o (fuel + 1) ⟨c.pieces, s.data, s.trash, [], s.stuck, s.clock⟩) := by
  have hp : (Cell.compose [s.package, c]).pieces =
      s.trash.reverse ++ (s.data.reverse ++ c.pieces) := by
    simp [pieces_package hs hw]
  have hv : ∀ v ∈ s.data.reverse, v.block.isValue := fun v hv =>
    (hs.data v (List.mem_reverse.mp hv)).1
  rw [reduceBy_succ, hp, State.start, ht.runWith_replay, runWith_push hv, List.reverse_reverse,
    List.append_nil]

/-- A run over two parts, from where the first one has come to its end. -/
theorem reduceBy_compose {clock : Nat} {a b : Cell} {qa : Nat}
    (hw : ((State.start clock a.pieces).runWith o qa).state.work = []) (fuel : Nat) :
    let first := (State.start clock a.pieces).runWith o qa
    reduceBy o (qa - first.fuel + (fuel + 1)) clock (.compose [a, b]) =
      .ofHalt (qa - first.fuel + (fuel + 1))
        ((first.state.frame b.pieces []).runWith o (fuel + 1)) := by
  intro first
  have hp : (Cell.compose [a, b]).pieces = a.pieces ++ b.pieces := by simp
  have hf : ((State.start clock a.pieces).frame b.pieces []).runWith o
      (qa - first.fuel + (fuel + 1)) = _ := runWith_frame hw b.pieces [] (Nat.succ_pos fuel)
  rw [← hf, ← Nat.add_assoc, reduceBy_succ, hp]
  rfl

/-- Reducing the first part of a program beforehand changes nothing but the
budget and the tags that it has taken already, however the guards compare. The
second part runs on what the first has left in memory. -/
theorem reduceBy_compose_left (hn : ∀ n body, o.resolve n = .ok body → body.block.isNormal) (clock : Nat)
    (a b : Cell) {qa q : Nat} (ha : (reduceBy o qa clock a).exhausted = false) (hq : 1 ≤ q) :
    ∃ left : State, left.package.block = (reduceBy o qa clock a).block ∧
      let first := reduceBy o qa clock a
      let whole := reduceBy o (first.fuelUsed + q) clock (.compose [a, b])
      let after := reduceBy o q left.clock (.compose [left.package, b])
      whole.block = after.block ∧ whole.stuck = after.stuck ∧ whole.exhausted = after.exhausted ∧
        whole.fuelUsed = first.fuelUsed + after.fuelUsed ∧ whole.tags = first.tags ++ after.tags ∧
        reduceBy o q left.clock left.package = ⟨first.block, [], 0, first.stuck, false⟩ := by
  obtain ⟨q, rfl⟩ : ∃ k, q = k + 1 := ⟨q - 1, by omega⟩
  obtain ⟨hw, ho⟩ := finished_of_not_exhausted ha
  obtain ⟨hs, ht⟩ := runWith_settled hn qa (State.start_normal clock a) .nil
  have hcompose := reduceBy_compose (b := b) hw q
  generalize (State.start clock a.pieces).runWith o qa = halt at *
  obtain ⟨remaining, ⟨work, data, trash, tags, n, time⟩, ⟨⟩⟩ := halt
  subst hw
  let left : State := ⟨[], data, trash, tags, n, time⟩
  -- Both runs come to the state `next`, the first one with tags behind it.
  let next : State := ⟨b.pieces, data, trash, [], n, time⟩
  refine ⟨left, by rw [ho]; rfl, ?_⟩
  intro first whole after
  have hafter : after = .ofHalt (q + 1) (next.runWith o (q + 1)) := reduceBy_package hs ht rfl b q
  have hwhole : whole = .ofHalt (first.fuelUsed + (q + 1)) ⟨(next.runWith o (q + 1)).fuel,
      (next.runWith o (q + 1)).state.frame [] tags, ()⟩ := by
    have hframe : left.frame b.pieces [] = next.frame [] tags := by simp [State.frame, left, next]
    change reduceBy o (first.fuelUsed + (q + 1)) clock (Cell.compose [a, b]) = _
    have hused : first.fuelUsed = qa - remaining := congrArg Outcome.fuelUsed ho
    rw [← runWith_frame_tags, ← hframe, hused]
    exact hcompose
  have hfixed : reduceBy o (q + 1) time left.package =
      .ofHalt (q + 1) ⟨q + 1, ⟨[], data, trash, [], n, time⟩, ()⟩ := by
    have hp : (Cell.compose [left.package, .empty]).pieces = left.package.pieces := by
      simp [Cell.pieces]
    have hb : reduceBy o (q + 1) time left.package =
        reduceBy o (q + 1) time (Cell.compose [left.package, .empty]) := by
      rw [reduceBy_succ, reduceBy_succ, hp]
    rw [hb]
    exact (reduceBy_package hs ht rfl .empty q).trans (congrArg _ (runWith_of_done rfl _))
  have hle : (next.runWith o (q + 1)).fuel ≤ q + 1 := runWith_fuel_le (q + 1) next
  have hfirst : first = .ofHalt qa ⟨remaining, left, ()⟩ := ho
  rw [hwhole, hafter, hfixed, hfirst]
  refine ⟨?_, rfl, ?_, ?_, ?_, ?_⟩
  · simp [Outcome.ofHalt, State.package, State.frame]
  · simp [Outcome.ofHalt, State.frame]
  · simp only [Outcome.ofHalt]
    omega
  · simp [Outcome.ofHalt, State.frame, left]
  · simp [Outcome.ofHalt, State.package, left]

/-- Under comparison by structure, reducing the first part of a program beforehand
changes nothing but the budget and the tags that it has taken already. A finished
result is a fixed point. -/
theorem reduceWith_compose_left (lib : Option Definitions) (a b : Block) {qa q : Nat}
    (ha : (reduceByStructure (Definitions.answers lib) qa a).exhausted = false) (hq : 1 ≤ q) :
    let answers := Definitions.answers lib
    let o := reduceByStructure answers qa a
    let whole := reduceByStructure answers (o.fuelUsed + q) (Block.compose [a, b])
    let after := reduceByStructure answers q (Block.compose [o.block, b])
    whole.block = after.block ∧ whole.stuck = after.stuck ∧ whole.exhausted = after.exhausted ∧
      whole.fuelUsed = o.fuelUsed + after.fuelUsed ∧ whole.tags = o.tags ++ after.tags ∧
      reduceByStructure answers q o.block = ⟨o.block, [], 0, o.stuck, false⟩ := by
  intro answers o whole after
  obtain ⟨left, hblock, h⟩ := reduceBy_compose_left (o := .byStructure answers)
    (Oracle.inMemory_isNormal (Definitions.answers_isNormal lib)) 0 (.ofBlock a) (.ofBlock b) ha hq
  have hwhole : reduceBy (.byStructure answers) (o.fuelUsed + q) 0 (.compose [.ofBlock a, .ofBlock b]) = whole :=
    reduceBy_byStructure_congr answers (by simp) _ 0 0
  have hafter : reduceBy (.byStructure answers) q left.clock (.compose [left.package, .ofBlock b]) = after :=
    reduceBy_byStructure_congr answers (by simp [hblock]; rfl) _ _ 0
  have hfixed : reduceBy (.byStructure answers) q left.clock left.package = reduceByStructure answers q o.block :=
    reduceBy_byStructure_congr answers (by simp [hblock]; rfl) _ _ 0
  rw [← hafter, ← hfixed, ← hwhole]
  exact h

/-- A marker that gets stuck, a tag and a name in the first part, whose result
the second part still works on. -/
theorem reduceWith_compose_left_twice :
    let answers := Definitions.answers (some ⟨[("twice", .prim .copy)]⟩)
    let a := Block.compose [.num ⟨5⟩, .prim .nocopy, .prim .tag, .num ⟨7⟩, .var "twice"]
    let b := Block.compose [.prim .drop, .prim .tag, .prim .drop, .var "thrice"]
    let o := reduceByStructure answers 3 a
    let whole := reduceByStructure answers (o.fuelUsed + 3) (Block.compose [a, b])
    o.exhausted = false ∧ o.fuelUsed = 2 ∧
      o.block = .compose [.num ⟨5⟩, .prim .nocopy, .num ⟨7⟩, .num ⟨7⟩] ∧
      whole.block = .compose [.num ⟨5⟩, .prim .nocopy, .var "thrice"] ∧ whole.stuck = 2 ∧
      whole.fuelUsed = 4 ∧ whole.tags = [.prim .tag, .prim .tag] := by
  intro answers a b o whole
  have ho : reduceByStructure answers 3 a = ⟨.compose [.num ⟨5⟩, .prim .nocopy, .num ⟨7⟩, .num ⟨7⟩],
      [.prim .tag], 2, 1, false⟩ := by
    simp only [answers, a]
    cbv
  have ha : reduceByStructure answers 3 (Block.compose [o.block, b]) =
      ⟨.compose [.num ⟨5⟩, .prim .nocopy, .var "thrice"], [.prim .tag], 2, 2, false⟩ := by
    simp only [o, answers, a, b]
    cbv
  have hx : o.exhausted = false := congrArg Outcome.exhausted ho
  have hf : o.fuelUsed = 2 := congrArg Outcome.fuelUsed ho
  have ht : o.tags = [.prim .tag] := congrArg Outcome.tags ho
  obtain ⟨hb, hs, -, hu, hg, -⟩ := reduceWith_compose_left _ a b hx (q := 3) (by decide)
  refine ⟨hx, hf, congrArg Outcome.block ho, ?_, ?_, ?_, ?_⟩
  · exact hb.trans (congrArg Outcome.block ha)
  · exact hs.trans (congrArg Outcome.stuck ha)
  · exact hu.trans (congrArg₂ (· + ·) hf (congrArg Outcome.fuelUsed ha))
  · exact hg.trans (congrArg₂ (· ++ ·) ht (congrArg Outcome.tags ha))

end BlockCalculus.Reduction
