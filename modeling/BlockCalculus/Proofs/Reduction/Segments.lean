import BlockCalculus.Proofs.Reduction.Replay
import Mathlib

/-! The states between the turns of a run. Everything in them is in normal form,
and the trash is cut into segments, one for each block that got stuck. -/

namespace BlockCalculus.Reduction

variable {σ : Type} {x : Setting σ} {o : Oracle}

/-- Values from the bottom of a data stack, and a block that gets stuck on
exactly these. -/
structure Segment (x : Setting σ) where
  values : List Cell
  block : Cell
  isValue : ∀ v ∈ values, v.block.isValue
  stuck : ∀ (s : State) (memory : σ), s.data = values.reverse →
    (s.rewrite x block memory).1 = .stuck

def Segment.entries (g : Segment x) : List Cell :=
  g.values ++ [g.block]

/-- The trash is made of segments, as many as blocks have got stuck. -/
def State.Segmented (x : Setting σ) (s : State) : Prop :=
  ∃ segments : List (Segment x),
    s.trash.reverse = segments.flatMap Segment.entries ∧ segments.length = s.stuck

theorem Stuck.rewrite_eq (hx : x.Fixed o) {c : Cell} {s : State} (h : Stuck o c s.data) (memory : σ) :
    (s.rewrite x c memory).1 = .stuck := by
  have he : x.oracle memory = o := hx memory
  rw [← he] at h
  obtain ⟨work, data, trash, tags, n, time⟩ := s
  have hm : Move (x.oracle memory) ⟨c :: work, data, trash, tags, n, time⟩ .stuck
      ⟨work, [], c :: (data ++ trash), tags, n + 1, time⟩ := .discard h
  obtain ⟨memory', hs⟩ := hm.step_eq
  simp only [State.step, Option.some.injEq] at hs
  rw [hs]

theorem Settled.segments (hx : x.Fixed o) {trash : List Cell} {n : Nat} (h : Settled o trash n) :
    ∃ segments : List (Segment x),
      trash.reverse = segments.flatMap Segment.entries ∧ segments.length = n := by
  induction h with
  | nil => exact ⟨[], rfl, rfl⟩
  | @cons c data trash n hc hd _ ih =>
    obtain ⟨segments, ht, hl⟩ := ih
    let last : Segment x :=
      { values := data.reverse
        block := c
        isValue := fun v hv => hd v (List.mem_reverse.mp hv)
        stuck := fun s memory hs => by
          rw [List.reverse_reverse] at hs
          subst hs
          exact hc.rewrite_eq hx memory }
    refine ⟨segments ++ [last], ?_, ?_⟩
    · simp [ht, last, Segment.entries]
    · rw [List.length_append, hl]
      rfl

/-- At the head of the loop all entries are in normal form, values on the data
stack and tags among the tags, the trash is made of segments, and an operator that
joins two quotations finds both in normal form. So is the result. -/
theorem segmented_of_reaches (lib : Option Definitions) {host : Host σ}
    (hh : host.Fixed (Definitions.answers lib)) (quota clock : Nat) (b : Cell) (memory : σ) :
    (∀ c, Reaches host.setting ⟨quota, .initial clock b, memory⟩ c →
      c.state.Normal ∧ c.state.Segmented host.setting ∧
      ∀ rest l upper m lower data, c.state.work = .prim .cat :: rest →
        c.state.data = .quote l upper :: .quote m lower :: data →
        lower.block.isNormal ∧ upper.block.isNormal ∧ lower.append upper = Cell.compose [lower, upper]) ∧
    (reduceCell host.setting quota clock b memory).1.block.isNormal := by
  refine ⟨fun c hc => ?_, Cell.isNormal_compose _⟩
  have hn : ∀ n body, (Oracle.inMemory (Definitions.answers lib)).resolve n = .ok body →
      body.block.isNormal := Oracle.inMemory_isNormal (Definitions.answers_isNormal lib)
  obtain ⟨hs, ht⟩ : c.state.Normal ∧ Settled _ c.state.trash c.state.stuck :=
    Reaches.invariant hh.setting (fun _ _ _ hm => hm.normal_settled hn) hc
      ⟨State.initial_normal clock b, .nil⟩
  refine ⟨hs, ht.segments hh.setting, fun rest l upper m lower data _ hd => ?_⟩
  have hl : lower.block.isNormal := (hs.data (.quote m lower) (by simp [hd])).2
  have hu : upper.block.isNormal := (hs.data (.quote l upper) (by simp [hd])).2
  exact ⟨hl, hu, Cell.append_eq_compose hl hu⟩

/-- A block and a definition out of normal form. A quotation of a NaN and its copy get stuck
with a `neq`, and the budget ends just before two other quotations are joined. -/
theorem segmented_of_reaches_nan :
    let lib : Option Definitions := some ⟨[("twice", .pair (.prim .copy) .empty)]⟩
    let host := Host.ofAnswers (Definitions.answers lib)
    let nan : Block := .quote (.num ⟨0x7ff8000000000000⟩)
    let b : Block := .pair (.pair nan (.pair (.prim .copy) (.prim .neq)))
      (.pair (.quote (.pair .empty (.num ⟨7⟩))) (.pair (.var "twice") (.prim .cat)))
    let copied : Cell := .quote (.shared 0 [.body]) (.num ⟨0x7ff8000000000000⟩)
    let halt := (⟨3, .initial 0 (.ofBlock b), ()⟩ : Halt Unit).resume host.setting
    halt.state.work = [.prim .cat] ∧ halt.state.trash = [.prim .neq, copied, copied] ∧
      halt.state.Normal ∧ halt.state.Segmented host.setting ∧
      halt.state.data.map Cell.block = [.quote (.num ⟨7⟩), .quote (.num ⟨7⟩)] ∧
      (Cell.num ⟨7⟩).append (.num ⟨7⟩) = Cell.compose [.num ⟨7⟩, .num ⟨7⟩] ∧
      (reduceShared (Definitions.answers lib) 3 0 (.ofBlock b)).block.isNormal := by
  intro lib host nan b copied halt
  have hh : host.Fixed (Definitions.answers lib) := Host.ofAnswers_fixed _
  let seven : Cell := .quote (.shared 2 [.body]) (.num ⟨7⟩)
  have hs : halt.state = ⟨[.prim .cat], [seven, seven], [.prim .neq, copied, copied], [], 1, 3⟩ := by
    simp only [halt, host, lib, b, nan, seven, copied]
    cbv
  have hw : halt.state.work = [.prim .cat] := congrArg State.work hs
  have hd : halt.state.data = [seven, seven] := congrArg State.data hs
  obtain ⟨hall, hblock⟩ := segmented_of_reaches lib hh 3 0 (.ofBlock b) ()
  obtain ⟨hn, hseg, hcat⟩ := hall halt (reaches_resume host.setting _)
  have hdata : halt.state.data.map Cell.block = [.quote (.num ⟨7⟩), .quote (.num ⟨7⟩)] := by
    rw [hd]
    rfl
  exact ⟨hw, congrArg State.trash hs, hn, hseg, hdata, (hcat [] _ _ _ _ [] hw hd).2.2, hblock⟩

end BlockCalculus.Reduction
