import BlockCalculus.Reduction.Run
import Mathlib.Logic.Relation

/-! The loop of a run, turn by turn. All that one rewriting attempt can do is
said once, as a relation between states; a run follows it to the end. -/

namespace BlockCalculus

/-- What turns depend on besides the state: answers for names that are the same
whenever they are asked for, and the comparison by which guards decide. -/
structure Oracle where
  resolve : String → Except ReadError Cell
  same : Cell → Cell → Bool

namespace Oracle

/-- Answers that are built anew for each name, and comparison as it takes place in
memory. -/
def inMemory (answers : String → Except ReadError Block) : Oracle where
  resolve name := (answers name).map .ofBlock
  same := Cell.same

def setting (o : Oracle) : Setting Unit where
  resolve name memory := (o.resolve name, memory)
  record _ memory := memory
  same := o.same

end Oracle

/-- What the surroundings come to for one turn. -/
def Setting.oracle {σ : Type} (x : Setting σ) (memory : σ) : Oracle where
  resolve name := (x.resolve name memory).1
  same := x.same

/-- The surroundings come to this, whatever the memory. -/
def Setting.Fixed {σ : Type} (x : Setting σ) (o : Oracle) : Prop :=
  ∀ memory, x.oracle memory = o

theorem Oracle.setting_fixed (o : Oracle) : o.setting.Fixed o :=
  fun _ => rfl

/-- Names have these answers, whatever the memory. -/
def Host.Fixed {σ : Type} (host : Host σ) (answers : String → Except ReadError Block) : Prop :=
  ∀ n memory, (host.resolve n memory).1 = answers n

theorem Host.ofAnswers_fixed (answers : String → Except ReadError Block) :
    (Host.ofAnswers answers).Fixed answers :=
  fun _ _ => rfl

theorem Host.nameless_fixed {σ : Type} (host : Host σ) : host.nameless.Fixed Host.refuse :=
  fun _ _ => rfl

theorem Host.Fixed.setting {σ : Type} {host : Host σ} {answers : String → Except ReadError Block}
    (hh : host.Fixed answers) : host.setting.Fixed (.inMemory answers) := by
  intro memory
  have he : (fun n => (host.resolve n memory).1.map Cell.ofBlock) = fun n => (answers n).map .ofBlock :=
    funext fun n => congrArg _ (hh n memory)
  exact congrArg (Oracle.mk · Cell.same) he

/-- The rule table. An operator takes a data stack to code that runs next and
to a data stack, both with the top first. -/
inductive Primitive.Fires (same : Cell → Cell → Bool) (time : Nat) :
    Primitive → List Cell → List Cell → List Cell → Prop
  | app {l : Label} {body : Cell} {data : List Cell} :
    Fires same time .app (.quote l body :: data) [body] data
  | box {v : Cell} {data : List Cell} : Fires same time .box (v :: data) [] (.quote .sole v :: data)
  | cat {l m : Label} {upper lower : Cell} {data : List Cell} :
    Fires same time .cat (.quote l upper :: .quote m lower :: data) []
      (.quote .sole (lower.append upper) :: data)
  | copy {v : Cell} {data : List Cell} (h : v.block.has .copy) :
    Fires same time .copy (v :: data) [] (v.copied time :: v.copied time :: data)
  | drop {v : Cell} {data : List Cell} (h : v.block.has .drop) :
    Fires same time .drop (v :: data) [] data
  | swap {v w : Cell} {data : List Cell} (hv : v.block.has .swap) (hw : w.block.has .swap) :
    Fires same time .swap (v :: w :: data) [] (w :: v :: data)
  | eq {v w : Cell} {data : List Cell} (h : same v w) :
    Fires same time .eq (v :: w :: data) [] (v :: w :: data)
  | neq {v w : Cell} {data : List Cell} (h : same v w = false) :
    Fires same time .neq (v :: w :: data) [] (v :: w :: data)

variable {same : Cell → Cell → Bool} {time : Nat}

theorem Primitive.fires_of_fire {p : Primitive} {data code data' : List Cell}
    (h : p.fire same time data = some (code, data')) : p.Fires same time data code data' := by
  unfold fire at h
  split at h
  case h_1 => cases h; exact .app
  case h_2 => cases h; exact .box
  case h_3 => cases h; exact .cat
  case h_4 =>
    obtain ⟨hv, he⟩ := Option.ite_none_right_eq_some.mp h
    cases he
    exact .copy hv
  case h_5 =>
    obtain ⟨hv, he⟩ := Option.ite_none_right_eq_some.mp h
    cases he
    exact .drop hv
  case h_6 =>
    obtain ⟨hv, he⟩ := Option.ite_none_right_eq_some.mp h
    cases he
    exact .swap (Bool.and_eq_true_iff.mp hv).1 (Bool.and_eq_true_iff.mp hv).2
  case h_7 =>
    obtain ⟨hv, he⟩ := Option.ite_none_right_eq_some.mp h
    cases he
    exact .eq hv
  case h_8 =>
    obtain ⟨hv, he⟩ := Option.ite_none_left_eq_some.mp h
    cases he
    exact .neq (Bool.eq_false_iff.mpr hv)
  case h_9 => cases h

theorem Primitive.Fires.fire_eq {p : Primitive} {data code data' : List Cell}
    (h : p.Fires same time data code data') : p.fire same time data = some (code, data') := by
  cases h <;> simp_all [fire]

/-- Whether an operator fires does not depend on the time. -/
theorem Primitive.fire_eq_none {p : Primitive} {data : List Cell} (h : p.fire same time data = none)
    (time' : Nat) : p.fire same time' data = none := by
  rw [Option.eq_none_iff_forall_ne_some] at h ⊢
  rintro ⟨code, data'⟩ hf
  cases fires_of_fire hf with
  | copy hv => exact h _ (Fires.copy hv).fire_eq
  | app => exact h _ Fires.app.fire_eq
  | box => exact h _ Fires.box.fire_eq
  | cat => exact h _ Fires.cat.fire_eq
  | drop hv => exact h _ (Fires.drop hv).fire_eq
  | swap hv hw => exact h _ (Fires.swap hv hw).fire_eq
  | eq hs => exact h _ (Fires.eq hs).fire_eq
  | neq hs => exact h _ (Fires.neq hs).fire_eq

namespace Reduction

/-- A block that can neither be rewritten against a data stack nor be set
aside. -/
inductive Stuck (o : Oracle) : Cell → List Cell → Prop
  | operator {p : Primitive} {time : Nat} {data : List Cell} (ht : p ≠ .tag)
    (h : p.fire o.same time data = none) : Stuck o (.prim p) data
  | name {n : String} {e : ReadError} {data : List Cell} (h : o.resolve n = .error e) :
    Stuck o (.var n) data

/-- What one turn does to a state, case by case. -/
inductive Move (o : Oracle) : State → Verdict → State → Prop
  | skip {work data trash tags : List Cell} {n time : Nat} :
    Move o ⟨.empty :: work, data, trash, tags, n, time⟩ .quiet ⟨work, data, trash, tags, n, time⟩
  | split {l m : Label} {a b : Cell} {work data trash tags : List Cell} {n time : Nat} :
    Move o ⟨.pair l a m b :: work, data, trash, tags, n, time⟩ .quiet
      ⟨a :: b :: work, data, trash, tags, n, time⟩
  | push {v : Cell} {work data trash tags : List Cell} {n time : Nat} (hv : v.block.isValue) :
    Move o ⟨v :: work, data, trash, tags, n, time⟩ .quiet ⟨work, v :: data, trash, tags, n, time⟩
  | aside {work data trash tags : List Cell} {n time : Nat} :
    Move o ⟨.prim .tag :: work, data, trash, tags, n, time⟩ .aside
      ⟨work, data, trash, .prim .tag :: tags, n, time⟩
  | fire {p : Primitive} {code work data data' trash tags : List Cell} {n time : Nat}
    (h : p.Fires o.same time data code data') :
    Move o ⟨.prim p :: work, data, trash, tags, n, time⟩ .progress
      ⟨code ++ work, data', trash, tags, n, time + 1⟩
  | resolve {name : String} {body : Cell} {work data trash tags : List Cell} {n time : Nat}
    (h : o.resolve name = .ok body) :
    Move o ⟨.var name :: work, data, trash, tags, n, time⟩ .progress
      ⟨body :: work, data, trash, tags, n, time + 1⟩
  | discard {c : Cell} {work data trash tags : List Cell} {n time : Nat} (h : Stuck o c data) :
    Move o ⟨c :: work, data, trash, tags, n, time⟩ .stuck
      ⟨work, [], c :: (data ++ trash), tags, n + 1, time⟩

variable {σ : Type}

theorem rewrite_move (x : Setting σ) (c : Cell) (s : State) (memory : σ) :
    Move (x.oracle memory) { s with work := c :: s.work } (s.rewrite x c memory).1
      (s.rewrite x c memory).2.1 := by
  obtain ⟨work, data, trash, tags, stuck, time⟩ := s
  unfold State.rewrite
  split
  · exact .skip
  · exact .split
  · exact .push rfl
  · exact .push rfl
  · exact .push rfl
  · exact .aside
  · rename_i p ht
    split
    · rename_i code data' hf
      exact .fire (Primitive.fires_of_fire hf)
    · rename_i hf
      exact .discard (.operator ht hf)
  · rename_i name
    split
    · rename_i body memory' hr
      exact .resolve (congrArg Prod.fst hr)
    · rename_i e memory' hr
      exact .discard (.name (congrArg Prod.fst hr))

theorem move_of_step {x : Setting σ} {s s' : State} {memory memory' : σ} {v : Verdict}
    (h : s.step x memory = some (v, s', memory')) : Move (x.oracle memory) s v s' := by
  unfold State.step at h
  split at h
  · cases h
  · rename_i c rest hw
    have hm := rewrite_move x c { s with work := rest } memory
    rw [Option.some.inj h] at hm
    simpa only [← hw] using hm

theorem Move.step_eq {x : Setting σ} {s s' : State} {memory : σ} {v : Verdict}
    (h : Move (x.oracle memory) s v s') : ∃ memory', s.step x memory = some (v, s', memory') := by
  cases h with
  | skip => exact ⟨_, rfl⟩
  | split => exact ⟨_, rfl⟩
  | aside => exact ⟨_, rfl⟩
  | @push c _ _ _ _ _ _ hv =>
    cases c with
    | quote | link | num => exact ⟨_, rfl⟩
    | _ => cases hv
  | @fire p _ _ _ _ _ _ _ _ hf =>
    have he : p.fire x.same _ _ = _ := hf.fire_eq
    cases hf <;> simp [State.step, State.rewrite, he]
  | @resolve name _ _ _ _ _ _ _ hr =>
    obtain ⟨answer, memory', he⟩ : ∃ a m, x.resolve name memory = (a, m) := ⟨_, _, rfl⟩
    simp_all [State.step, State.rewrite, Setting.oracle]
  | @discard _ _ _ _ _ _ time hs =>
    cases hs with
    | @operator p _ _ ht hf =>
      have he : p.fire x.same time _ = none := Primitive.fire_eq_none hf time
      cases p with
      | tag => exact (ht rfl).elim
      | _ => simp [State.step, State.rewrite, State.fail, State.discard, he]
    | @name name _ _ he =>
      obtain ⟨answer, memory', hr⟩ : ∃ a m, x.resolve name memory = (a, m) := ⟨_, _, rfl⟩
      simp_all [State.step, State.rewrite, State.fail, State.discard, Setting.oracle]

def Verdict.cost : Verdict → Nat
  | progress => 1
  | _ => 0

theorem Verdict.cost_eq_zero {v : Verdict} (h : v ≠ .progress) : v.cost = 0 := by
  cases v <;> simp_all [cost]

/-- One turn of the loop. Between two turns a run is written as the halt that
it would be if it stopped there. -/
inductive Turn (x : Setting σ) : Halt σ → Verdict → Halt σ → Prop
  | mk {fuel : Nat} {s s' : State} {memory memory' : σ} {c : Cell} {rest : List Cell} {v : Verdict}
    (hw : s.work = c :: rest)
    (h : s.step x (x.record (.step c s.data (fuel + 1)) memory) = some (v, s', memory')) :
    Turn x ⟨fuel + 1, s, memory⟩ v ⟨fuel + 1 - v.cost, s', memory'⟩

/-- The second halt is met on the way of a run through the first. -/
def Reaches (x : Setting σ) : Halt σ → Halt σ → Prop :=
  Relation.ReflTransGen fun c c' => ∃ v, Turn x c v c'

namespace Halt

def resume (x : Setting σ) (c : Halt σ) : Halt σ :=
  c.state.run x c.fuel c.memory

/-- There is no budget or no work. -/
def Stopped (c : Halt σ) : Prop :=
  c.fuel = 0 ∨ c.state.work = []

/-- The memory when the next block is rewritten: its step has been recorded. -/
def noted (x : Setting σ) (c : Halt σ) : σ :=
  x.record (.step (c.state.work.headD .empty) c.state.data c.fuel) c.memory

/-- What the surroundings come to for the coming turn. -/
def oracle (x : Setting σ) (c : Halt σ) : Oracle :=
  x.oracle (c.noted x)

end Halt

theorem Turn.move {x : Setting σ} {c c' : Halt σ} {v : Verdict} (h : Turn x c v c') :
    Move (c.oracle x) c.state v c'.state := by
  cases h with
  | mk hw h =>
    unfold Halt.oracle Halt.noted
    simpa only [hw, List.headD_cons] using move_of_step h

theorem stopped_or_turn (x : Setting σ) (c : Halt σ) : c.Stopped ∨ ∃ v c', Turn x c v c' := by
  obtain ⟨fuel, s, memory⟩ := c
  cases fuel with
  | zero => exact .inl (.inl rfl)
  | succ fuel =>
    cases hw : s.work with
    | nil => exact .inl (.inr hw)
    | cons b rest =>
      have hs : s.step x (x.record (.step b s.data (fuel + 1)) memory) =
          some (State.rewrite x b { s with work := rest }
            (x.record (.step b s.data (fuel + 1)) memory)) := by
        simp [State.step, hw]
      exact .inr ⟨_, _, .mk hw hs⟩

theorem resume_of_stopped {x : Setting σ} {c : Halt σ} (h : c.Stopped) : c.resume x = c := by
  obtain ⟨fuel, s, memory⟩ := c
  cases fuel with
  | zero => rw [Halt.resume, State.run.eq_def]
  | succ fuel =>
    have hw : s.work = [] := h.resolve_left (Nat.succ_ne_zero fuel)
    rw [Halt.resume, State.run.eq_def]
    simp only
    split
    · rfl
    · rename_i hb
      cases hw.symm.trans hb

theorem resume_of_turn {x : Setting σ} {c c' : Halt σ} {v : Verdict} (h : Turn x c v c') :
    c.resume x = c'.resume x := by
  cases h with
  | @mk fuel s s' memory memory' b rest v hw h =>
    rw [Halt.resume, State.run.eq_def]
    simp only
    split
    · rename_i hn
      cases hw.symm.trans hn
    · rename_i c _ hc
      cases hw.symm.trans hc
      split
      · rename_i he
        cases h.symm.trans he
      · rename_i he
        cases h.symm.trans he
        split
        · rename_i hv
          subst hv
          rfl
        · rename_i hv
          rw [Halt.resume, Verdict.cost_eq_zero hv]
          rfl

/-- Induction along a run: what holds where a run stops, and before a turn
whenever it holds after it, holds everywhere. -/
theorem turn_induction (x : Setting σ) {P : Halt σ → Prop} (stop : ∀ c, c.Stopped → P c)
    (turn : ∀ c v c', Turn x c v c' → P c' → P c) (c : Halt σ) : P c := by
  rcases stopped_or_turn x c with h | ⟨v, c', h⟩
  · exact stop c h
  · exact turn c v c' h (turn_induction x stop turn c')
termination_by (c.fuel, c.state.pending)
decreasing_by
  cases h with
  | mk hw h =>
    by_cases hv : v = .progress
    · subst hv
      exact .left _ _ (by simp [Verdict.cost])
    · simp only [Verdict.cost_eq_zero hv, Nat.sub_zero]
      exact .right _ (State.pending_step_lt h hv)

theorem resume_stopped (x : Setting σ) (c : Halt σ) : (c.resume x).Stopped := by
  induction c using turn_induction x with
  | stop c h => rwa [resume_of_stopped h]
  | turn c v c' h ih => rwa [resume_of_turn h]

theorem work_eq_nil_of_not_exhausted {c : Halt σ} (hc : c.Stopped) {quota : Nat}
    (h : (Outcome.ofHalt quota c).exhausted = false) : c.state.work = [] := by
  rcases hc with hf | hw
  · simpa [Outcome.ofHalt, hf] using h
  · exact hw

theorem fuel_eq_zero_of_exhausted {c : Halt σ} {quota : Nat}
    (h : (Outcome.ofHalt quota c).exhausted = true) : c.fuel = 0 := by
  have hb : (c.fuel == 0 && !c.state.work.isEmpty) = true := h
  simpa using (Bool.and_eq_true_iff.mp hb).1

theorem reaches_resume (x : Setting σ) (c : Halt σ) : Reaches x c (c.resume x) := by
  induction c using turn_induction x with
  | stop c h => rw [resume_of_stopped h]; exact .refl
  | turn c v c' h ih => rw [resume_of_turn h]; exact ih.head ⟨v, h⟩

theorem Turn.fuel_eq {x : Setting σ} {c c' : Halt σ} {v : Verdict} (h : Turn x c v c') :
    c.fuel = c'.fuel + v.cost := by
  cases h with
  | mk hw h => cases v <;> simp [Verdict.cost]

/-! Runs in surroundings that come to the same for every turn. -/

theorem Turn.move_of_fixed {x : Setting σ} {o : Oracle} (hx : x.Fixed o) {c c' : Halt σ} {v : Verdict}
    (h : Turn x c v c') : Move o c.state v c'.state := by
  have he : c.oracle x = o := hx _
  rw [← he]
  exact h.move

def State.runWith (o : Oracle) (fuel : Nat) (s : State) : Halt Unit :=
  s.run o.setting fuel ()

section Fixed

variable {o : Oracle}

theorem Move.turn {s s' : State} {v : Verdict} (h : Move o s v s') (fuel : Nat) :
    Turn o.setting ⟨fuel + 1, s, ()⟩ v ⟨fuel + 1 - v.cost, s', ()⟩ := by
  obtain ⟨c, rest, hw⟩ : ∃ c rest, s.work = c :: rest := by cases h <;> exact ⟨_, _, rfl⟩
  have hs : ∃ memory, s.step o.setting () = some (v, s', memory) := Move.step_eq h
  obtain ⟨⟨⟩, hs⟩ := hs
  exact .mk hw hs

theorem runWith_zero (s : State) : s.runWith o 0 = ⟨0, s, ()⟩ :=
  resume_of_stopped (c := ⟨0, s, ()⟩) (.inl rfl)

theorem runWith_of_done {s : State} (h : s.work = []) (fuel : Nat) :
    s.runWith o fuel = ⟨fuel, s, ()⟩ :=
  resume_of_stopped (c := ⟨fuel, s, ()⟩) (.inr h)

theorem runWith_of_move {s s' : State} {v : Verdict} (h : Move o s v s') (fuel : Nat) :
    s.runWith o (fuel + 1) = s'.runWith o (fuel + 1 - v.cost) :=
  resume_of_turn (h.turn fuel)

theorem runWith_eq_resume {x : Setting σ} (hx : x.Fixed o) (c : Halt σ) :
    c.state.runWith o c.fuel = ⟨(c.resume x).fuel, (c.resume x).state, ()⟩ := by
  induction c using turn_induction x with
  | stop c h =>
    rw [resume_of_stopped h]
    rcases h with h | h
    · rw [h, runWith_zero]
    · rw [runWith_of_done h]
  | turn c v c' h ih =>
    have hm : Move o c.state v c'.state := h.move_of_fixed hx
    rw [resume_of_turn h, ← ih]
    cases h with
    | mk hw hs => exact runWith_of_move hm _

/-- The outcome of a run that starts anew, whatever else happens around it. -/
def reduceBy (o : Oracle) (quota clock : Nat) (c : Cell) : Outcome :=
  .ofHalt quota ((State.initial clock c).runWith o quota)

theorem reduceCell_eq {x : Setting σ} (hx : x.Fixed o) (quota clock : Nat) (c : Cell) (memory : σ) :
    (reduceCell x quota clock c memory).1 = reduceBy o quota clock c := by
  have he := runWith_eq_resume hx ⟨quota, .initial clock c, memory⟩
  exact (congrArg (Outcome.ofHalt quota) he).symm

/-- Whatever else happens in its surroundings, the outcome of a run is that of the
run with the same answers. -/
theorem reduce_eq_reduceWith {host : Host σ} {answers : String → Except ReadError Block}
    (hh : host.Fixed answers) (quota : Nat) (b : Block) (memory : σ) :
    (reduce host quota b memory).1 = reduceWith answers quota b :=
  reduceCell_eq hh.setting quota 0 (.ofBlock b) memory

theorem runWith_induction (o : Oracle) {P : Nat → State → Prop}
    (spent : ∀ s, P 0 s) (done : ∀ fuel s, s.work = [] → P fuel s)
    (move : ∀ fuel s v s', Move o s v s' → P (fuel + 1 - v.cost) s' → P (fuel + 1) s)
    (fuel : Nat) (s : State) : P fuel s := by
  suffices h : ∀ c : Halt Unit, P c.fuel c.state from h ⟨fuel, s, ()⟩
  intro c
  induction c using turn_induction o.setting with
  | stop c h =>
    rcases h with h | h
    · rw [h]
      exact spent _
    · exact done _ _ h
  | turn c v c' h ih =>
    have hm : Move o c.state v c'.state := h.move_of_fixed o.setting_fixed
    cases h with
    | mk hw h => exact move _ _ v _ hm ih

/-- What every turn keeps holds of all states that a run comes to. -/
theorem Reaches.invariant {x : Setting σ} (hx : x.Fixed o) {P : State → Prop}
    (step : ∀ s v s', Move o s v s' → P s → P s') {c c' : Halt σ} (h : Reaches x c c')
    (hc : P c.state) : P c'.state := by
  induction h with
  | refl => exact hc
  | tail _ hturn ih =>
    obtain ⟨v, hturn⟩ := hturn
    exact step _ v _ (hturn.move_of_fixed hx) ih

theorem runWith_invariant {P : State → Prop} (step : ∀ s v s', Move o s v s' → P s → P s')
    (fuel : Nat) {s : State} (hs : P s) : P (s.runWith o fuel).state :=
  have hr : Reaches o.setting ⟨fuel, s, ()⟩ (s.runWith o fuel) := reaches_resume _ _
  hr.invariant o.setting_fixed step hs

theorem runWith_stopped (fuel : Nat) (s : State) : (s.runWith o fuel).Stopped :=
  resume_stopped o.setting ⟨fuel, s, ()⟩

theorem runWith_fuel_le (fuel : Nat) (s : State) : (s.runWith o fuel).fuel ≤ fuel := by
  induction fuel, s using runWith_induction o with
  | spent s => simp [runWith_zero]
  | done fuel s h => simp [runWith_of_done h]
  | move fuel s v s' h ih =>
    rw [runWith_of_move h]
    omega

/-- At most so many turns of a run, by recursion on their number. -/
def Halt.turns (o : Oracle) : Nat → Halt Unit → Halt Unit
  | 0, c => c
  | n + 1, c =>
    match c.fuel, c.state.step o.setting () with
    | fuel + 1, some (v, s, _) => turns o n ⟨fuel + 1 - v.cost, s, ()⟩
    | _, _ => c

theorem runWith_turns (n : Nat) (c : Halt Unit) :
    (c.turns o n).state.runWith o (c.turns o n).fuel = c.state.runWith o c.fuel := by
  induction n generalizing c with
  | zero => rfl
  | succ n ih =>
    rw [Halt.turns]
    split
    · rename_i fuel v s memory hf hs
      have hm : Move o c.state v s := move_of_step hs
      rw [ih, hf, runWith_of_move hm]
    · rfl

/-- Enough turns are the whole run. -/
theorem runWith_of_turns {n : Nat} {c h : Halt Unit} (ht : c.turns o n = h) (hs : h.Stopped) :
    c.state.runWith o c.fuel = h := by
  rw [← runWith_turns n, ht]
  exact resume_of_stopped hs

end Fixed

end Reduction

end BlockCalculus
