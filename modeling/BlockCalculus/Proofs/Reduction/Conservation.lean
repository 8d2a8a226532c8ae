import BlockCalculus.Proofs.Block.Composition
import BlockCalculus.Proofs.Reduction.Balance
import Mathlib

/-! The account of a run in which nothing can be copied or dropped. Its literals stay, and
it gets shorter by what the operators that fire take away and by the tags set aside. -/

namespace BlockCalculus

namespace Block

/-- Numbers, links, names and markers. -/
def isLiteral : Block → Bool
  | num _ | link _ | var _ => true
  | prim p => p.isMarker
  | _ => false

def literals (b : Block) : List Block :=
  b.atoms.filter isLiteral

end Block

/-- By how much a program gets shorter when the operator fires, unless it copies or drops. -/
def Primitive.loss : Primitive → Nat
  | app | cat => 2
  | swap | eq | neq => 1
  | _ => 0

theorem Primitive.sum_loss (l : List Primitive) :
    (l.map loss).sum = 2 * (l.count .app + l.count .cat) + (l.count .swap + l.count .eq + l.count .neq) := by
  induction l with
  | nil => rfl
  | cons p l ih =>
    rw [List.map_cons, List.sum_cons, ih]
    cases p <;> simp only [loss, List.count_cons, beq_iff_eq, reduceCtorEq, if_true, if_false] <;> omega

namespace Cell

theorem size_append (a b : Cell) : (a.append b).block.size = a.block.size + b.block.size := by
  rw [block_append, ← Block.join_pair, Block.size_join]
  rfl

theorem size_compose (cells : List Cell) :
    (compose cells).block.size = (cells.map fun c => c.block.size).sum := by
  rw [block_compose, Block.size_compose, List.map_map]
  rfl

end Cell

theorem Primitive.Fires.size {same : Cell → Cell → Bool} {time : Nat} {p : Primitive}
    {data code data' : List Cell} (h : p.Fires same time data code data') (hcopy : p ≠ .copy)
    (hdrop : p ≠ .drop) :
    (data.map fun c => c.block.size).sum + 1 =
      ((data' ++ code).map fun c => c.block.size).sum + p.loss := by
  cases h with
  | copy _ => exact (hcopy rfl).elim
  | drop _ => exact (hdrop rfl).elim
  | app =>
    simp only [List.map_cons, List.map_append, List.map_nil, List.sum_cons, List.sum_append, List.sum_nil,
      Cell.block, Block.size, loss]
    omega
  | cat =>
    simp only [List.map_cons, List.append_nil, List.sum_cons, Cell.block, Block.size,
      Cell.size_append, loss]
    omega
  | box | swap =>
    simp only [List.map_cons, List.append_nil, List.sum_cons, Cell.block, Block.size, loss]
    omega
  | eq | neq => simp only [List.append_nil, loss]

/-- The operator that fires when a block comes up on a data stack, if it is one that does. -/
def Cell.firing (c : Cell) (data : List Cell) : List Primitive :=
  match c with
  | prim p =>
    match p.fire Cell.same 0 data with
    | some _ => [p]
    | none => []
  | _ => []

/-- No answers for names, and the operators that have fired, the latest first. -/
def Host.ledger : Host (List Primitive) where
  resolve name fired := (refuse name, fired)
  record
    | .step c data _, fired => c.firing data ++ fired
    | _, fired => fired

theorem Host.ledger_fixed : Host.ledger.setting.Fixed (.inMemory Host.refuse) :=
  fun _ => rfl

namespace Reduction

def State.size (s : State) : Nat :=
  ((s.trash ++ s.data ++ s.work).map fun c => c.block.size).sum

def State.firing (s : State) : List Primitive :=
  (s.work.headD .empty).firing s.data

theorem State.initial_size (clock : Nat) (c : Cell) : (State.initial clock c).size = c.block.size := by
  by_cases hc : c = .empty
  · subst hc
    rfl
  · rw [State.initial_of_ne_empty clock hc, State.size]
    simp [Block.size_compose]

theorem State.size_package (s : State) : s.package.block.size = s.size := by
  rw [State.package, Cell.size_compose, State.size]
  simp only [List.map_append, List.map_reverse, List.sum_append, List.sum_reverse]
  omega

theorem State.firing_of_fires {p : Primitive} {code data data' work trash tags : List Cell}
    {n time : Nat} (h : p.Fires Cell.same time data code data') :
    (State.mk (.prim p :: work) data trash tags n time).firing = [p] := by
  cases hf : p.fire Cell.same 0 data with
  | none => exact (Option.some_ne_none _ (h.fire_eq.symm.trans (Primitive.fire_eq_none hf time))).elim
  | some r => simp [State.firing, Cell.firing, hf]

theorem Move.cost_eq {s s' : State} {v : Verdict} (h : Move (.inMemory Host.refuse) s v s') :
    v.cost = s.firing.length := by
  cases h with
  | @push c _ _ _ _ _ _ hv =>
    cases c with
    | quote | link | num => rfl
    | _ => cases hv
  | fire hf => rw [State.firing_of_fires hf]; rfl
  | resolve ha => cases ha
  | discard hc =>
    cases hc with
    | operator _ hf =>
      have hf : Primitive.fire Cell.same 0 _ _ = none := Primitive.fire_eq_none hf 0
      simp [State.firing, Cell.firing, hf, Verdict.cost]
    | name _ => rfl
  | skip | split | aside => rfl

/-- A turn in which nothing is copied or dropped makes a state shorter by what fires, and
by a tag if it sets one aside. -/
theorem Move.size {s s' : State} {v : Verdict} (h : Move (.inMemory Host.refuse) s v s')
    (hcopy : .prim .copy ∉ s.atoms) (hdrop : .prim .drop ∉ s.atoms) :
    s.size + s.tags.length = s'.size + s'.tags.length + (s.firing.map Primitive.loss).sum := by
  -- A turn that costs nothing fires nothing, so it has no loss of its own.
  have hnone {s : State} (h : s.firing.length = 0) : (s.firing.map Primitive.loss).sum = 0 := by
    rw [List.length_eq_zero_iff.mp h]
    rfl
  have hcost := h.cost_eq
  cases h with
  | @fire p code work data data' trash tags n time hf =>
    have hp : .prim p ∈ (State.mk (.prim p :: work) data trash tags n time).atoms := by
      simp [State.atoms]
    have hsize := hf.size (fun he => hcopy (he ▸ hp)) (fun he => hdrop (he ▸ hp))
    rw [State.firing_of_fires hf]
    simp only [State.size, List.map_append, List.map_cons, List.map_nil, List.sum_append, List.sum_cons,
      List.sum_nil, Cell.block, Block.size] at hsize ⊢
    omega
  | resolve ha => cases ha
  | _ =>
    rw [hnone hcost.symm]
    simp only [State.size, List.map_append, List.map_cons, List.map_nil, List.sum_append, List.sum_cons,
      List.sum_nil, List.length_cons, Cell.block, Block.size]
    omega

def State.literals (s : State) : List Block :=
  s.atoms.filter Block.isLiteral

theorem Move.literals {s s' : State} {v : Verdict} (h : Move (.inMemory Host.refuse) s v s')
    (hcopy : .prim .copy ∉ s.atoms) (hdrop : .prim .drop ∉ s.atoms) :
    s.literals.Perm s'.literals := by
  obtain ⟨added, gone, hp, hadded, hgone⟩ := h.balance
  have ha : added = [] := List.eq_nil_iff_forall_not_mem.mpr fun x hx => hcopy (hadded x hx).1
  have hg : gone.filter Block.isLiteral = [] := by
    refine List.filter_eq_nil_iff.mpr fun x hx hl => ?_
    rcases hgone x hx with ⟨p, rfl, hp⟩ | ⟨hd, -⟩
    · exact Bool.false_ne_true (hp.symm.trans hl)
    · exact hdrop hd
  have hl := hp.filter Block.isLiteral
  rwa [List.filter_append, List.filter_append, ha, hg, List.filter_nil, List.append_nil,
    List.append_nil] at hl

theorem State.rewrite_ledger (c : Cell) (s : State) (memory : List Primitive) :
    (s.rewrite Host.ledger.setting c memory).2.2 = memory := by
  cases c with
  | prim p =>
    unfold State.rewrite
    split <;> first | rfl | (split <;> rfl)
  | _ => rfl

theorem Turn.ledger {c c' : Halt (List Primitive)} {v : Verdict} (h : Turn Host.ledger.setting c v c') :
    c'.memory = c.state.firing ++ c.memory := by
  cases h with
  | @mk fuel s s' memory memory' b rest v hw h =>
    have hr : s.step Host.ledger.setting (b.firing s.data ++ memory) = some (v, s', memory') := h
    simp only [State.step, hw, Option.some.injEq] at hr
    have hkeep := State.rewrite_ledger b { s with work := rest } (b.firing s.data ++ memory)
    rw [hr] at hkeep
    rw [State.firing, hw]
    exact hkeep

/-- Where a run of a block is, all that has gone from the block is accounted for. -/
structure Accounted (b : Block) (quota : Nat) (c : Halt (List Primitive)) : Prop where
  fired : quota = c.fuel + c.memory.length
  literals : c.state.literals.Perm b.literals
  size : b.size = c.state.size + c.state.tags.length + (c.memory.map Primitive.loss).sum

theorem initial_accounted (c : Cell) (quota clock : Nat) :
    Accounted c.block quota ⟨quota, .initial clock c, []⟩ where
  fired := rfl
  literals := by rw [State.literals, State.initial_atoms, Block.literals, Cell.atoms]
  size := by
    have ht : (State.initial clock c).tags = [] := rfl
    rw [State.initial_size, ht]
    rfl

theorem Turn.accounted {b : Block} {quota : Nat} {c c' : Halt (List Primitive)} {v : Verdict}
    (h : Turn Host.ledger.setting c v c') (hcopy : .prim .copy ∉ c.state.atoms)
    (hdrop : .prim .drop ∉ c.state.atoms) (hc : Accounted b quota c) : Accounted b quota c' := by
  have hm := h.move_of_fixed Host.ledger_fixed
  have hcost := hm.cost_eq
  have hfuel := h.fuel_eq
  refine ⟨?_, (hm.literals hcopy hdrop).symm.trans hc.literals, ?_⟩
  · rw [hc.fired, h.ledger, List.length_append]
    omega
  · have hsize := hm.size hcopy hdrop
    rw [hc.size, h.ledger, List.map_append, List.sum_append]
    omega

theorem Reaches.accounted {b : Cell} (hcopy : .prim .copy ∉ b.atoms) (hdrop : .prim .drop ∉ b.atoms)
    {quota clock : Nat} {c : Halt (List Primitive)}
    (h : Reaches Host.ledger.setting ⟨quota, .initial clock b, []⟩ c) : Accounted b.block quota c := by
  induction h with
  | refl => exact initial_accounted b quota clock
  | @tail c c' hreach hturn ih =>
    obtain ⟨v, hturn⟩ := hturn
    have hin : ∀ x ∈ c.state.atoms, x ∈ b.atoms := by
      rw [← State.initial_atoms clock b]
      exact Reaches.mem_atoms Host.ledger_fixed hreach
    exact hturn.accounted (fun h => hcopy (hin _ h)) (fun h => hdrop (hin _ h)) ih

/-- Without operators that copy or drop, a run keeps all literals of its block, wherever
its budget ends and whatever the block shares in memory. The block gets shorter by the tags
set aside, by two for each quotation that is applied or joined to another one, and by one for
each swap and each guard passed. The ledger changes nothing about the run and names each
rewrite. -/
theorem conserved_without_copy_drop {b : Cell} (hcopy : .prim .copy ∉ b.block.atoms)
    (hdrop : .prim .drop ∉ b.block.atoms) (quota clock : Nat) :
    let o := reduceShared Host.refuse quota clock b
    let ledger := reduceCell Host.ledger.setting quota clock b []
    let fired := ledger.2
    ledger.1 = o ∧ fired.length = o.fuelUsed ∧
    o.block.literals.Perm b.block.literals ∧
    b.block.size = o.block.size + o.tags.length + 2 * (fired.count .app + fired.count .cat) +
      (fired.count .swap + fired.count .eq + fired.count .neq) := by
  intro o ledger fired
  let c := (⟨quota, .initial clock b, []⟩ : Halt (List Primitive)).resume Host.ledger.setting
  have ho : Outcome.ofHalt quota c = o := reduceCell_eq Host.ledger_fixed quota clock b []
  have hc : Accounted b.block quota c := (reaches_resume _ _).accounted hcopy hdrop
  have hatoms : o.block.literals.Perm c.state.literals := by
    rw [← ho]
    exact c.state.atoms_package.filter _
  have hsize : o.block.size = c.state.size := by
    rw [← ho]
    exact c.state.size_package
  have htags : o.tags.length = c.state.tags.length := by
    rw [← ho]
    simp [Outcome.ofHalt]
  have hused : o.fuelUsed = quota - c.fuel := by
    rw [← ho]
    rfl
  refine ⟨ho, ?_, hatoms.trans hc.literals, ?_⟩
  · have hf := hc.fired
    change c.memory.length = _
    omega
  · have hs := hc.size
    have hsum : (c.memory.map Primitive.loss).sum = 2 * (fired.count .app + fired.count .cat) +
        (fired.count .swap + fired.count .eq + fired.count .neq) := Primitive.sum_loss c.memory
    omega

/-- Two references to one quotation of a NaN, so a guard lets them pass. The run spends its
budget with a tag set aside, where one quotation has been applied and two values have been
swapped. -/
theorem conserved_without_copy_drop_shared :
    let nan : Cell := .quote (.shared 0 [.body]) (.num ⟨0x7ff8000000000000⟩)
    let b := Cell.ofItems [nan, nan, .prim .eq, .quote .sole (.ofItems [.num ⟨1⟩, .prim .tag]), .prim .app,
      .prim .swap, .prim .nocopy, .prim .app]
    let o := reduceShared Host.refuse 3 1 b
    let fired := (reduceCell Host.ledger.setting 3 1 b []).2
    .prim .copy ∉ b.block.atoms ∧ .prim .drop ∉ b.block.atoms ∧ fired = [.swap, .app, .eq] ∧
      o.fuelUsed = 3 ∧ o.exhausted = true ∧
      o.block.literals.Perm [.num ⟨0x7ff8000000000000⟩, .num ⟨0x7ff8000000000000⟩, .num ⟨1⟩, .prim .nocopy] ∧
      o.tags.length = 1 ∧ b.block.size = o.block.size + 1 + 2 * 1 + 2 := by
  intro nan b o fired
  have hcopy : .prim .copy ∉ b.block.atoms := by decide
  have hdrop : .prim .drop ∉ b.block.atoms := by decide
  have ho : o = ⟨.compose [.prim .nocopy, .prim .app, nan.block, .num ⟨1⟩, nan.block],
      [.prim .tag], 3, 0, true⟩ := by
    simp only [o, b, nan]
    cbv
  have hfired : fired = [.swap, .app, .eq] := by
    simp only [fired, b, nan]
    cbv
  obtain ⟨-, hlength, hliterals, hsize⟩ := conserved_without_copy_drop hcopy hdrop 3 1
  change b.block.size = o.block.size + o.tags.length + 2 * (fired.count .app + fired.count .cat) +
    (fired.count .swap + fired.count .eq + fired.count .neq) at hsize
  have hlit : b.block.literals = [.num ⟨0x7ff8000000000000⟩, .num ⟨0x7ff8000000000000⟩, .num ⟨1⟩,
      .prim .nocopy] := by decide
  have htags : o.tags.length = 1 := by rw [ho]; rfl
  have hused : o.fuelUsed = 3 := by rw [ho]
  have hx : o.exhausted = true := by rw [ho]
  rw [hlit] at hliterals
  change fired.length = o.fuelUsed at hlength
  rw [htags, hfired] at hsize
  exact ⟨hcopy, hdrop, hfired, hused, hx, hliterals, htags, hsize⟩

end Reduction

end BlockCalculus
