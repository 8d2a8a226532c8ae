import BlockCalculus.Proofs.Names.Determined
import BlockCalculus.Proofs.Reduction.Turn

/-! Reduction that asks for the meaning of a name when it comes to one. What it asks may
have effects of its own, so the run takes place in the monad of the answers. -/

namespace BlockCalculus.Reduction

variable {m : Type → Type} [Monad m]

def State.needs? (s : State) : Option String :=
  match s.work with
  | .var name :: _ => some name
  | _ => none

/-- Asks for what the next step needs; if that is nothing, any answer will do. -/
def State.ask (resolve : String → m (Except ReadError Block)) (s : State) :
    m (Except ReadError Block) :=
  match s.needs? with
  | some name => resolve name
  | none => pure (Host.refuse "")

/-- The step of a state for which this answer has been given. -/
def State.stepWith (answer : Except ReadError Block) (s : State) : Option (Verdict × State × Unit) :=
  s.step (Oracle.inMemory fun _ => answer).setting ()

def State.runIn (resolve : String → m (Except ReadError Block)) (fuel : Nat) (s : State) :
    m (Halt Unit) :=
  match fuel with
  | 0 => pure ⟨0, s, ()⟩
  | fuel + 1 => do
    let answer ← s.ask resolve
    match h : s.stepWith answer with
    | none => pure ⟨fuel + 1, s, ()⟩
    | some (v, s', _) =>
      if hv : v = .progress then s'.runIn resolve fuel
      else
        have := State.pending_step_lt h hv
        s'.runIn resolve (fuel + 1)
termination_by (fuel, s.pending)

def reduceIn (resolve : String → m (Except ReadError Block)) (quota : Nat) (b : Block) :
    m Outcome := do
  let halt ← (State.initial 0 (.ofBlock b)).runIn resolve quota
  pure (Outcome.ofHalt quota halt)

variable {resolve : String → m (Except ReadError Block)}

theorem runIn_zero (s : State) : s.runIn resolve 0 = pure ⟨0, s, ()⟩ := by
  rw [State.runIn]

theorem runIn_succ (fuel : Nat) (s : State) :
    s.runIn resolve (fuel + 1) = s.ask resolve >>= fun answer =>
      match s.stepWith answer with
      | none => pure ⟨fuel + 1, s, ()⟩
      | some (v, s', _) => s'.runIn resolve (fuel + 1 - v.cost) := by
  rw [State.runIn]
  congr 1
  funext answer
  split
  · rename_i he
    simp only [he]
  · rename_i v s' memory he
    simp only [he]
    by_cases hv : v = .progress
    · subst hv
      rfl
    · rw [dif_neg hv, Verdict.cost_eq_zero hv]
      rfl

theorem step_of_done {σ : Type} {s : State} (h : s.work = []) (x : Setting σ) (memory : σ) :
    s.step x memory = none := by
  simp [State.step, h]

section Host

variable {σ : Type} {host : Host σ}

/-- A step depends on its surroundings through one answer at most. -/
theorem step_eq_of_ask (hr : ∀ e memory, host.record e memory = memory) (s : State) (memory : σ) :
    s.step host.setting memory =
      (s.stepWith (s.ask (m := StateM σ) host.resolve memory).1).map
        fun t => (t.1, t.2.1, (s.ask (m := StateM σ) host.resolve memory).2) := by
  obtain ⟨work, data, trash, tags, stuck, time⟩ := s
  cases work with
  | nil => rfl
  | cons c rest =>
    cases c with
    | var name =>
      have hask : State.ask (m := StateM σ) host.resolve ⟨.var name :: rest, data, trash, tags, stuck, time⟩ memory =
          host.resolve name memory := rfl
      rw [hask]
      obtain ⟨answer, memory', he⟩ : ∃ r m, host.resolve name memory = (r, m) := ⟨_, _, rfl⟩
      cases answer <;> simp [State.stepWith, State.step, State.rewrite, State.fail, Oracle.setting,
        Oracle.inMemory, Host.setting, Except.map, hr, he]
    | prim p =>
      have hask : State.ask (m := StateM σ) host.resolve ⟨.prim p :: rest, data, trash, tags, stuck, time⟩ memory =
          (Host.refuse "", memory) := rfl
      rw [hask]
      by_cases hp : p = .tag
      · subst hp
        rfl
      · cases hf : p.fire Cell.same time data <;> simp [State.stepWith, State.step, State.rewrite, State.fail,
          Oracle.setting, Oracle.inMemory, Host.setting, hr, hf]
    | _ => rfl

theorem runIn_apply (fuel : Nat) (s : State) (memory : σ) :
    s.runIn (m := StateM σ) host.resolve (fuel + 1) memory =
      match s.stepWith (s.ask (m := StateM σ) host.resolve memory).1 with
      | none => (⟨fuel + 1, s, ()⟩, (s.ask (m := StateM σ) host.resolve memory).2)
      | some (v, s', _) => s'.runIn (m := StateM σ) host.resolve (fuel + 1 - v.cost)
          (s.ask (m := StateM σ) host.resolve memory).2 := by
  rw [runIn_succ]
  change (match s.stepWith (s.ask (m := StateM σ) host.resolve memory).1 with
    | none => pure ⟨fuel + 1, s, ()⟩
    | some (v, s', _) => s'.runIn (m := StateM σ) host.resolve (fuel + 1 - v.cost) : StateM σ _)
      (s.ask (m := StateM σ) host.resolve memory).2 = _
  cases s.stepWith (s.ask (m := StateM σ) host.resolve memory).1 <;> rfl

/-- With a memory for the monad, this is the run itself. -/
theorem runIn_eq_resume (hr : ∀ e memory, host.record e memory = memory) (c : Halt σ) :
    c.state.runIn (m := StateM σ) host.resolve c.fuel c.memory =
      (⟨(c.resume host.setting).fuel, (c.resume host.setting).state, ()⟩, (c.resume host.setting).memory) := by
  induction c using turn_induction host.setting with
  | stop c h =>
    rw [resume_of_stopped h]
    obtain ⟨fuel, s, memory⟩ := c
    cases fuel with
    | zero =>
      simp only [runIn_zero]
      rfl
    | succ fuel =>
      have hw : s.work = [] := h.resolve_left (Nat.succ_ne_zero fuel)
      have hask : s.ask (m := StateM σ) host.resolve memory = (Host.refuse "", memory) := by
        simp only [State.ask, State.needs?, hw]
        rfl
      simp only [runIn_apply, State.stepWith, step_of_done hw, hask]
  | turn c v c' h ih =>
    rw [resume_of_turn h, ← ih]
    cases h with
    | mk hw h =>
      have hrecord : ∀ e memory, host.setting.record e memory = memory := hr
      rw [hrecord, step_eq_of_ask hr] at h
      obtain ⟨⟨v, s', u⟩, hs, he⟩ := Option.map_eq_some_iff.mp h
      cases he
      simp only [runIn_apply, hs]

theorem reduceIn_eq_reduce (hr : ∀ e memory, host.record e memory = memory) (quota : Nat) (b : Block)
    (memory : σ) : reduceIn (m := StateM σ) host.resolve quota b memory = reduce host quota b memory := by
  have hrecord : ∀ e memory, host.setting.record e memory = memory := hr
  have hrun := runIn_eq_resume hr ⟨quota, .initial 0 (.ofBlock b), memory⟩
  have hreduce (p : Halt Unit × σ)
      (hp : (State.initial 0 (.ofBlock b)).runIn (m := StateM σ) host.resolve quota memory = p) :
      reduceIn (m := StateM σ) host.resolve quota b memory = (Outcome.ofHalt quota p.1, p.2) := by
    rw [← hp]
    rfl
  rw [hreduce _ hrun, reduce, reduceCell, hrecord]
  rfl

end Host

variable {Yields : {α : Type} → m α → α → Prop} {answers : String → Except ReadError Block}

theorem ask_yields (hd : Determined Yields) (h : ∀ n, Yields (resolve n) (answers n)) (s : State) :
    Yields (s.ask resolve) (s.ask (m := Id) answers) := by
  unfold State.ask
  split
  · exact h _
  · exact hd.pure _

theorem step_of_move {s s' : State} {v : Verdict} (h : Move (.inMemory answers) s v s') :
    s.stepWith (s.ask (m := Id) answers) = some (v, s', ()) := by
  have hmove : Move ((Host.ofAnswers answers).setting.oracle ()) s v s' := h
  obtain ⟨memory, hs⟩ := hmove.step_eq
  have hask : (s.ask (m := StateM Unit) (Host.ofAnswers answers).resolve ()).1 =
      s.ask (m := Id) answers := by
    unfold State.ask
    cases s.needs? <;> rfl
  rw [step_eq_of_ask (fun _ _ => rfl), hask] at hs
  obtain ⟨t, ht, he⟩ := Option.map_eq_some_iff.mp hs
  cases he
  exact ht

theorem runIn_yields (hd : Determined Yields) (h : ∀ n, Yields (resolve n) (answers n)) (fuel : Nat)
    (s : State) : Yields (s.runIn resolve fuel) (s.runWith (.inMemory answers) fuel) := by
  induction fuel, s using runWith_induction (.inMemory answers) with
  | spent s =>
    rw [runIn_zero, runWith_zero]
    exact hd.pure _
  | done fuel s hw =>
    rw [runWith_of_done hw]
    cases fuel with
    | zero =>
      rw [runIn_zero]
      exact hd.pure _
    | succ fuel =>
      rw [runIn_succ]
      refine hd.bind (ask_yields hd h s) ?_
      rw [State.stepWith, step_of_done hw]
      exact hd.pure _
  | move fuel s v s' hm ih =>
    rw [runWith_of_move hm, runIn_succ]
    refine hd.bind (ask_yields hd h s) ?_
    rw [step_of_move hm]
    exact ih

theorem reduceIn_yields (hd : Determined Yields) (h : ∀ n, Yields (resolve n) (answers n))
    (quota : Nat) (b : Block) : Yields (reduceIn resolve quota b) (reduceWith answers quota b) :=
  hd.map (runIn_yields hd h quota (State.initial 0 (.ofBlock b))) (Outcome.ofHalt quota)

end BlockCalculus.Reduction
