import BlockCalculus.Event
import BlockCalculus.Reduction.Rule

/-! One rewriting attempt. The next block of the continuation is rewritten
against the data stack; if that fails, the block goes to the trash together
with the whole data stack, so nothing is lost. -/

namespace BlockCalculus

/-- The surroundings of a program: answers for names, and a record of events,
both with a memory. -/
structure Host (σ : Type) where
  resolve : String → σ → Except ReadError Block × σ
  record : Event → σ → σ

/-- The surroundings of a run: answers as they lie in memory, a record of
events, and the comparison by which guards decide. -/
structure Setting (σ : Type) where
  resolve : String → σ → Except ReadError Cell × σ
  record : Event → σ → σ
  same : Cell → Cell → Bool

namespace Host

/-- Fixed answers, and no record. -/
def ofAnswers (answers : String → Except ReadError Block) : Host Unit where
  resolve name memory := (answers name, memory)
  record _ memory := memory

def refuse (name : String) : Except ReadError Block :=
  .error (.missing name .noResolver)

variable {σ : Type}

/-- The same record, with no answers for names. -/
def nameless (host : Host σ) : Host σ where
  resolve name memory := (refuse name, memory)
  record := host.record

/-- The same answers, with single steps left out of the record. -/
def coarse (host : Host σ) : Host σ where
  resolve := host.resolve
  record e memory := if e.isFine then memory else host.record e memory

/-- Answers are taken to be built anew whenever a name is resolved. A cache that hands
one out again makes no difference to a run without a NaN, and text spells none. -/
def setting (host : Host σ) : Setting σ where
  resolve name memory := Prod.map (Except.map Cell.ofBlock) id (host.resolve name memory)
  record := host.record
  same := Cell.same

end Host

namespace Reduction

inductive Verdict where
  /-- A rule has fired or a name has been resolved. -/
  | progress
  /-- The block and the data stack have moved to the trash. -/
  | stuck
  /-- A value has been pushed, a composition split or nothing read. -/
  | quiet
  /-- A tag has been set aside. -/
  | aside
  deriving DecidableEq, Repr

/-- All lists have the latest entry first. -/
structure State where
  work : List Cell
  data : List Cell
  trash : List Cell
  tags : List Cell
  stuck : Nat
  /-- The time: one more with each rewrite. -/
  clock : Nat
  deriving DecidableEq

namespace State

def initial (clock : Nat) (c : Cell) : State where
  work := if c.isEmpty then [] else [Cell.compose [c]]
  data := []
  trash := []
  tags := []
  stuck := 0
  clock := clock

/-- Moves the data stack and a block to the trash. -/
def discard (s : State) (c : Cell) : State :=
  { s with data := [], trash := c :: (s.data ++ s.trash), stuck := s.stuck + 1 }

/-- Trash in order of arrival, then the continuation, then the data stack from
the bottom. -/
def package (s : State) : Cell :=
  Cell.compose (s.trash.reverse ++ s.work ++ s.data.reverse)

variable {σ : Type}

def fail (x : Setting σ) (c : Cell) (s : State) (memory : σ) : Verdict × State × σ :=
  (.stuck, s.discard c, x.record (.stuck c s.data) memory)

/-- Rewrites a block that has been taken off the continuation. -/
def rewrite (x : Setting σ) (c : Cell) (s : State) (memory : σ) : Verdict × State × σ :=
  match c with
  | .empty => (.quiet, s, memory)
  | .pair _ first _ second => (.quiet, { s with work := first :: second :: s.work }, memory)
  | .quote .. | .link _ | .num _ => (.quiet, { s with data := c :: s.data }, memory)
  | .prim .tag => (.aside, { s with tags := c :: s.tags }, memory)
  | .prim p =>
    match p.fire x.same s.clock s.data with
    | some (code, data) =>
      (.progress, { s with work := code ++ s.work, data := data, clock := s.clock + 1 }, memory)
    | none => s.fail x c memory
  | .var name =>
    match x.resolve name memory with
    | (.ok body, memory) =>
      (.progress, { s with work := body :: s.work, clock := s.clock + 1 },
        x.record (.resolved name) memory)
    | (.error e, memory) => s.fail x c (x.record (.unresolved name e) memory)

/-- One step, or `none` if the continuation is empty. -/
def step (x : Setting σ) (s : State) (memory : σ) : Option (Verdict × State × σ) :=
  match s.work with
  | [] => none
  | c :: rest => some (rewrite x c { s with work := rest } memory)

/-- Steps that cost nothing make the continuation lighter. -/
def weight : Cell → Nat
  | .pair _ a _ b => weight a + weight b + 1
  | _ => 1

def pending (s : State) : Nat :=
  s.work.foldr (fun c n => weight c + n) 0

theorem weight_pos (c : Cell) : 0 < weight c := by
  cases c <;> simp [weight]

theorem pending_rewrite_lt (x : Setting σ) (c : Cell) (s : State) (memory : σ)
    (h : (rewrite x c s memory).1 ≠ .progress) :
    (rewrite x c s memory).2.1.pending < weight c + s.pending := by
  have hc := weight_pos c
  unfold rewrite at h ⊢
  split
  all_goals try (simp only [pending, List.foldr_cons, weight]; omega)
  · split
    · simp_all
    · simp only [fail, discard, pending]
      omega
  · split
    · simp_all
    · simp only [fail, discard, pending]
      omega

theorem pending_step_lt {x : Setting σ} {s s' : State} {memory memory' : σ} {v : Verdict}
    (h : s.step x memory = some (v, s', memory')) (hv : v ≠ .progress) :
    s'.pending < s.pending := by
  unfold step at h
  split at h
  · cases h
  · rename_i c rest hw
    have he := Option.some.inj h
    have hlt := pending_rewrite_lt x c { s with work := rest } memory (by rw [he]; exact hv)
    rw [he] at hlt
    simpa [pending, hw] using hlt

end State

end Reduction

end BlockCalculus
