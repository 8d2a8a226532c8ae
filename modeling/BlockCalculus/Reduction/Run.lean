import BlockCalculus.Reduction.State

/-! Reduction under a budget of rewrites. A run ends when the budget is spent
or no work is left; reduction itself never fails. -/

namespace BlockCalculus.Reduction

variable {σ : Type}

/-- A run that has stopped: the budget left, the state and the memory. -/
structure Halt (σ : Type) where
  fuel : Nat
  state : State
  memory : σ

/-- Steps as long as there is budget and work. -/
def State.run (x : Setting σ) (fuel : Nat) (s : State) (memory : σ) : Halt σ :=
  match fuel with
  | 0 => ⟨0, s, memory⟩
  | fuel + 1 =>
    match s.work with
    | [] => ⟨fuel + 1, s, memory⟩
    | c :: _ =>
      let memory := x.record (.step c s.data (fuel + 1)) memory
      match h : s.step x memory with
      | none => ⟨fuel + 1, s, memory⟩
      | some (v, s', memory) =>
        if hv : v = .progress then s'.run x fuel memory
        else
          have := State.pending_step_lt h hv
          s'.run x (fuel + 1) memory
termination_by (fuel, s.pending)

/-- The result of a run. -/
structure Outcome where
  block : Block
  /-- The tags set aside, in the order in which they were met. -/
  tags : List Block
  fuelUsed : Nat
  stuck : Nat
  /-- The budget was spent with work left. -/
  exhausted : Bool
  deriving DecidableEq

namespace Outcome

def ofHalt (quota : Nat) (h : Halt σ) : Outcome where
  block := h.state.package.block
  tags := h.state.tags.reverse.map Cell.block
  fuelUsed := quota - h.fuel
  stuck := h.state.stuck
  exhausted := h.fuel == 0 && !h.state.work.isEmpty

/-- The run neither got stuck nor spent its budget too early. -/
def isComplete (o : Outcome) : Bool :=
  !o.exhausted && o.stuck == 0

end Outcome

/-- Reduces a block as it lies in memory with at most `quota` rewrites. Labels in
it are older than `clock`. -/
def reduceCell (x : Setting σ) (quota clock : Nat) (c : Cell) (memory : σ) : Outcome × σ :=
  let halt := (State.initial clock c).run x quota memory
  let o := Outcome.ofHalt quota halt
  (o, x.record (.finished o.fuelUsed o.stuck o.exhausted) halt.memory)

/-- Reduces a block that has just been built, so nothing in it is shared. -/
def reduce (host : Host σ) (quota : Nat) (b : Block) (memory : σ) : Outcome × σ :=
  reduceCell host.setting quota 0 (.ofBlock b) memory

/-- Reduction with fixed answers for names. -/
def reduceWith (answers : String → Except ReadError Block) (quota : Nat) (b : Block) : Outcome :=
  (reduce (.ofAnswers answers) quota b ()).1

/-- Reduction with fixed answers of a block that may share parts. -/
def reduceShared (answers : String → Except ReadError Block) (quota clock : Nat) (c : Cell) : Outcome :=
  (reduceCell (Host.ofAnswers answers).setting quota clock c ()).1

/-- Reduction without answers for names. -/
def reduceAlone (quota : Nat) (b : Block) : Outcome :=
  reduceWith Host.refuse quota b

/-- Reduces blocks one after another with a common memory. -/
def reduceAll (host : Host σ) (quota : Nat) : List Block → σ → List Outcome × σ
  | [], memory => ([], memory)
  | b :: rest, memory =>
    let (o, memory) := reduce host quota b memory
    let (os, memory) := reduceAll host quota rest memory
    (o :: os, memory)

end BlockCalculus.Reduction
