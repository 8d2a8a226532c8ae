import BlockCalculus.Proofs.Reduction.Continuation
import BlockCalculus.Proofs.Reduction.Tame
import Mathlib

/-! Names that are resolved when a run comes to them, and names that have been
replaced beforehand. The eager run stands still while a name is resolved and
otherwise takes the same turns as the lazy one. -/

namespace BlockCalculus

/-- Fixed answers, and a count of the names that have been resolved. -/
def Host.counting (answers : String → Except ReadError Block) : Host Nat where
  resolve name count := (answers name, count)
  record
    | .resolved _, count => count + 1
    | _, count => count

namespace Reduction

variable {answers : String → Except ReadError Block}

/-! A continuation whose first piece is brought to the top. -/

theorem Solid.eq_nil {work : List Cell} (h : Solid work) (hp : work.flatMap Cell.pieces = []) :
    work = [] := by
  cases work with
  | nil => rfl
  | cons c work =>
    obtain ⟨hn, he⟩ := h c List.mem_cons_self
    have hc := List.flatMap_eq_nil_iff.mp hp c List.mem_cons_self
    have hb : c.block.pieces = [] := Cell.pieces_eq_nil_iff.mp hc
    exact (he (Cell.eq_empty_of_block (Block.eq_empty_of_pieces_eq_nil hn hb))).elim

/-- Splitting a composition brings the first piece to the top for free. -/
theorem Solid.front (o : Oracle) {work : List Cell} (h : Solid work) {x : Cell} {l : List Cell}
    (hp : work.flatMap Cell.pieces = x :: l) (data trash tags : List Cell) (n time : Nat) :
    ∃ rest, Solid rest ∧ rest.flatMap Cell.pieces = l ∧ ∀ fuel,
      State.runWith o (fuel + 1) ⟨work, data, trash, tags, n, time⟩ =
        State.runWith o (fuel + 1) ⟨x :: rest, data, trash, tags, n, time⟩ := by
  cases work with
  | nil => cases hp
  | cons c work =>
    obtain ⟨⟨hn, he⟩, hw⟩ := List.forall_mem_cons.mp h
    by_cases hpiece : c.block.isPiece
    · rw [List.flatMap_cons, Cell.pieces_of_isPiece hpiece] at hp
      obtain ⟨rfl, hl⟩ := List.cons.inj hp
      exact ⟨work, hw, hl, fun _ => rfl⟩
    · cases c with
      | pair l a m b =>
        obtain ⟨ha, hb, hbn⟩ := Block.isNormal_pair_iff.mp hn
        rw [List.flatMap_cons, Cell.pieces, Cell.pieces_of_isPiece ha] at hp
        obtain ⟨rfl, hl⟩ := List.cons.inj hp
        have hbe : b ≠ .empty := by
          rintro rfl
          cases hb
        exact ⟨b :: work, List.forall_mem_cons.mpr ⟨⟨hbn, hbe⟩, hw⟩, hl, fun fuel =>
          runWith_of_move .split fuel⟩
      | empty => exact (he rfl).elim
      | _ => exact (hpiece hn).elim

/-! The eager state that goes with a lazy one. -/

/-- The second state holds what the first one does, with other pieces in the
place of names. It has no work left when the first one has none. -/
structure Follows (answers : String → Except ReadError Block) (s t : State) : Prop where
  work : (t.work.flatMap Cell.pieces).map Cell.block = s.work.flatMap fun c => c.block.fill answers
  tidy : Tidy t.work
  done : s.work = [] → t.work = []
  data : t.data.map Cell.block = s.data.map fun c => c.block.filled answers
  trash : t.trash.map Cell.block = s.trash.map fun c => c.block.filled answers
  tags : t.tags = s.tags
  stuck : t.stuck = s.stuck

theorem Follows.initial {p e : Block} (h : p.substitute answers = .ok e) :
    Follows answers (.initial 0 (.ofBlock p)) (.initial 0 (.ofBlock e)) := by
  obtain ⟨-, he⟩ := Block.substitute_eq_ok_iff.mp h
  have hp : e.pieces = p.fill answers := by rw [← he, Block.pieces_filled]
  have hpieces (b : Block) :
      ((State.initial 0 (.ofBlock b)).work.flatMap Cell.pieces).map Cell.block = b.pieces := by
    by_cases hb : Cell.ofBlock b = .empty
    · obtain rfl := Cell.eq_empty_of_ofBlock hb
      rfl
    · simp [State.initial_of_ne_empty 0 hb]
  have hfill (b : Block) :
      ((State.initial 0 (.ofBlock b)).work.flatMap fun c => c.block.fill answers) = b.fill answers := by
    by_cases hb : Cell.ofBlock b = .empty
    · obtain rfl := Cell.eq_empty_of_ofBlock hb
      rfl
    · simp [State.initial_of_ne_empty 0 hb, Block.compose]
  refine ⟨by rw [hpieces, hfill, hp], State.initial_tidy 0 _, fun hw => ?_, rfl, rfl, rfl, rfl⟩
  by_cases hb : Cell.ofBlock p = .empty
  · obtain rfl := Cell.eq_empty_of_ofBlock hb
    rw [← he]
    rfl
  · rw [State.initial_of_ne_empty 0 hb] at hw
    cases hw

theorem initial_tame {p e : Block} (h : p.substitute answers = .ok e) (he : e.Plain) :
    ∀ x ∈ (State.initial 0 (.ofBlock p)).atoms, Tame answers x := by
  obtain ⟨hn, hp⟩ := Block.substitute_eq_ok_iff.mp h
  rw [State.initial_atoms, Cell.atoms, Cell.block_ofBlock]
  exact tame_iff.mp ⟨hn, hp ▸ he⟩

theorem Follows.resolve {n : String} {body : Block} {work data trash tags : List Cell} {k time time' : Nat}
    {t : State} (h : Follows answers ⟨.var n :: work, data, trash, tags, k, time⟩ t)
    (hb : answers n = .ok body) (hn : body.names = []) :
    Follows answers ⟨.ofBlock body :: work, data, trash, tags, k, time'⟩ t := by
  have hw : (Block.var n).fill answers = body.fill answers := by
    rw [Block.fill_of_names_eq_nil hn, Block.fill, Block.answerPieces, hb]
  refine ⟨?_, h.tidy, fun he => (List.cons_ne_nil _ _ he).elim, h.data, h.trash, h.tags, h.stuck⟩
  rw [h.work, List.flatMap_cons, List.flatMap_cons, Cell.block_ofBlock, ← hw]
  rfl

theorem Follows.solid {s t : State} (h : Follows answers s t) :
    ∃ u, Follows answers s u ∧ Solid u.work ∧ ∀ fuel,
      t.runWith (.inMemory Host.refuse) (fuel + 1) = u.runWith (.inMemory Host.refuse) (fuel + 1) := by
  obtain ⟨work, data, trash, tags, n, time⟩ := t
  obtain ⟨work', hs, hp, hr⟩ := h.tidy.solid (.inMemory Host.refuse) data trash tags n time
  have hw : (work'.flatMap Cell.pieces).map Cell.block = s.work.flatMap fun c => c.block.fill answers := by
    rw [hp]
    exact h.work
  refine ⟨⟨work', data, trash, tags, n, time⟩, ⟨hw, hs.tidy, fun he => ?_, h.data, h.trash,
    h.tags, h.stuck⟩, hs, hr⟩
  rw [he] at hw
  exact hs.eq_nil (List.map_eq_nil_iff.mp hw)

theorem block_flatMap_pieces (l : List Cell) :
    (l.flatMap Cell.pieces).map Cell.block = l.flatMap fun c => c.block.pieces := by
  simp only [List.map_flatMap, Cell.block_pieces]

theorem flatMap_pieces_of_filled {l l' : List Cell}
    (h : l'.map Cell.block = l.map fun c => c.block.filled answers) :
    (l'.flatMap fun c => c.block.pieces) = l.flatMap fun c => c.block.fill answers := by
  rw [← List.flatMap_map Cell.block Block.pieces, h, List.flatMap_map]
  simp only [Block.pieces_filled]

/-- The state that follows a lazy one, with at most one block of code in front of
the continuation. -/
theorem Follows.of_solid {work rest : List Cell} (hr : Solid rest)
    (hp : (rest.flatMap Cell.pieces).map Cell.block = work.flatMap fun c => c.block.fill answers)
    (code code' : List Cell) {data data' trash trash' : List Cell} (hcode : code.length ≤ 1)
    (hc : code'.map Cell.block = code.map fun c => c.block.filled answers)
    (hd : data'.map Cell.block = data.map fun c => c.block.filled answers)
    (ht : trash'.map Cell.block = trash.map fun c => c.block.filled answers)
    (tags : List Cell) (n time time' : Nat) :
    Follows answers ⟨code ++ work, data, trash, tags, n, time⟩
      ⟨code' ++ rest, data', trash', tags, n, time'⟩ := by
  refine ⟨?_, ?_, fun hw => ?_, hd, ht, rfl, rfl⟩
  · simp only [List.flatMap_append, List.map_append, hp, block_flatMap_pieces, flatMap_pieces_of_filled hc]
  · rcases code with _ | ⟨c, _ | ⟨d, code⟩⟩
    · rw [List.map_eq_nil_iff.mp hc]
      exact hr.tidy
    · obtain ⟨c', rest', rfl, hc', hnil⟩ := List.map_eq_cons_iff.mp hc
      rw [List.map_eq_nil_iff.mp hnil]
      exact ⟨hc' ▸ Block.isNormal_filled c.block, hr⟩
    · simp at hcode
  · obtain ⟨rfl, rfl⟩ := List.append_eq_nil_iff.mp hw
    rw [List.map_eq_nil_iff.mp hc]
    exact hr.eq_nil (List.map_eq_nil_iff.mp hp)

theorem Follows.front {c : Cell} {x : Block} {work data trash tags : List Cell} {n time : Nat} {t : State}
    (h : Follows answers ⟨c :: work, data, trash, tags, n, time⟩ t) (hs : Solid t.work)
    (hx : c.block.fill answers = [x]) :
    ∃ y rest, y.block = x ∧ Solid rest ∧
      ((rest.flatMap Cell.pieces).map Cell.block = work.flatMap fun c => c.block.fill answers) ∧ ∀ fuel,
      t.runWith (.inMemory Host.refuse) (fuel + 1) =
        State.runWith (.inMemory Host.refuse) (fuel + 1) ⟨y :: rest, t.data, t.trash, tags, n, t.clock⟩ := by
  obtain ⟨tw, td, tt, tg, tn, time'⟩ := t
  obtain ⟨hw, -, -, -, -, htags, hn⟩ := h
  simp only at hw htags hn
  subst htags hn
  rw [List.flatMap_cons, hx] at hw
  obtain ⟨y, l, hl, hy, hrest⟩ := List.map_eq_cons_iff.mp hw
  obtain ⟨rest, hr, hp, hrun⟩ := hs.front (.inMemory Host.refuse) hl td tt tg tn time'
  exact ⟨y, rest, hy, hr, by rw [hp]; exact hrest, hrun⟩

theorem tame_of_mem {s : State} (hs : ∀ x ∈ s.atoms, Tame answers x) {c : Cell}
    (hc : c ∈ s.trash ++ s.data ++ s.work) : Tame answers c.block :=
  tame_iff.mpr fun x hx => hs x (List.mem_flatMap.mpr ⟨c, hc, hx⟩)

/-- Apart from names that are answered, the eager run takes the turns of the
lazy one. -/
theorem Follows.move {s s' t : State} {v : Verdict} (hm : Move (.inMemory answers) s v s')
    (h : Follows answers s t) (hs : s.Normal) (ht : ∀ x ∈ s.atoms, Tame answers x)
    (hn : ∀ n body rest, s.work = .var n :: rest → answers n ≠ .ok body) :
    ∃ t', Follows answers s' t' ∧ ∀ fuel,
      t.runWith (.inMemory Host.refuse) (fuel + 1) = t'.runWith (.inMemory Host.refuse) (fuel + 1 - v.cost) := by
  obtain ⟨u, hu, hsolid, hrun⟩ := h.solid
  cases hm with
  | @skip work data trash tags n =>
    refine ⟨u, ⟨hu.work, hu.tidy, fun hw => ?_, hu.data, hu.trash, hu.tags, hu.stuck⟩, hrun⟩
    have hw : work = [] := hw
    have hp : (u.work.flatMap Cell.pieces).map Cell.block = _ := hu.work
    rw [hw] at hp
    exact hsolid.eq_nil (List.map_eq_nil_iff.mp hp)
  | split =>
    refine ⟨u, ⟨?_, hu.tidy, fun he => (List.cons_ne_nil _ _ he).elim, hu.data, hu.trash, hu.tags, hu.stuck⟩, hrun⟩
    rw [hu.work, List.flatMap_cons, List.flatMap_cons, List.flatMap_cons, Cell.block, Block.fill,
      List.append_assoc]
  | @push c work data trash tags n _ hv =>
    obtain ⟨y, rest, hy, hr, hp, hfront⟩ := hu.front hsolid (Block.fill_of_isValue hv)
    have hd : (y :: u.data).map Cell.block = (c :: data).map fun c => c.block.filled answers :=
      congrArg₂ List.cons hy hu.data
    refine ⟨_, .of_solid hr hp [] [] (Nat.zero_le 1) rfl hd hu.trash _ _ _ u.clock, fun fuel => ?_⟩
    rw [hrun, hfront]
    exact runWith_of_move (.push (hy ▸ Block.isValue_filled hv)) fuel
  | @aside work data trash tags n =>
    obtain ⟨y, rest, hy, hr, hp, hfront⟩ := hu.front hsolid rfl
    obtain rfl := Cell.eq_prim_of_block hy
    refine ⟨_, .of_solid hr hp [] [] (Nat.zero_le 1) rfl hu.data hu.trash _ _ _ u.clock, fun fuel => ?_⟩
    rw [hrun, hfront]
    exact runWith_of_move .aside fuel
  | @fire p code work data data' trash tags n time hf =>
    obtain ⟨y, rest, hy, hr, hp, hfront⟩ := hu.front hsolid rfl
    obtain rfl := Cell.eq_prim_of_block hy
    have hp' : Tame answers (.prim p) := tame_of_mem (c := .prim p) ht (by simp)
    obtain ⟨code₁, data₁, hfires, hcode, hdata⟩ := hp'.fires_filled hs.data
      (fun v hv => tame_of_mem ht (by simp [hv])) hu.data hf Cell.same u.clock
    have hlength : code.length ≤ 1 := by cases hf <;> simp
    refine ⟨_, .of_solid hr hp code code₁ hlength hcode hdata hu.trash _ _ _ (u.clock + 1), fun fuel => ?_⟩
    rw [hrun, hfront]
    exact runWith_of_move (.fire hfires) fuel
  | resolve ha =>
    obtain ⟨b, hb, -⟩ := Oracle.inMemory_resolve_eq_ok_iff.mp ha
    exact (hn _ _ _ rfl hb).elim
  | @discard c work data trash tags n time hc =>
    cases hc with
    | @operator p _ _ hne hf =>
      obtain ⟨y, rest, hy, hr, hp, hfront⟩ := hu.front hsolid rfl
      obtain rfl := Cell.eq_prim_of_block hy
      have hp' : Tame answers (.prim p) := tame_of_mem (c := .prim p) ht (by simp)
      have hnone : p.fire Cell.same u.clock u.data = none := hp'.fire_filled_eq_none hs.data
        (fun v hv => tame_of_mem ht (by simp [hv])) hu.data hf Cell.same u.clock
      have hnil : ([] : List Cell).map Cell.block = ([] : List Cell).map fun c => c.block.filled answers := rfl
      have htrash : (.prim p :: (u.data ++ u.trash)).map Cell.block =
          (.prim p :: (data ++ trash)).map fun c => c.block.filled answers := by
        rw [List.map_cons, List.map_append, hu.data, hu.trash, List.map_cons, List.map_append]
        rfl
      refine ⟨_, .of_solid hr hp [] [] (Nat.zero_le 1) rfl hnil htrash _ _ _ u.clock, fun fuel => ?_⟩
      rw [hrun, hfront]
      exact runWith_of_move (.discard (.operator hne hnone)) fuel
    | @name n e _ he =>
      have hname : Tame answers (.var n) := tame_of_mem (c := .var n) ht (by simp)
      obtain ⟨body, hb⟩ := hname.named n (List.mem_singleton.mpr rfl)
      exact (hn _ _ _ rfl hb).elim

/-! The two runs, with a count of the names that the lazy one resolves. -/

theorem rewrite_counting {c : Cell} (hc : ∀ n body, c = .var n → answers n ≠ .ok body) (s : State)
    (count : Nat) : (s.rewrite (Host.counting answers).setting c count).2.2 = count := by
  unfold State.rewrite
  split
  case h_7 => split <;> rfl
  case h_8 name =>
    cases ha : answers name with
    | ok body => exact (hc name body rfl ha).elim
    | error e => simp [Host.setting, Host.counting, ha, State.fail, Except.map]
  all_goals rfl

theorem Turn.counted {c c' : Halt Nat} {v : Verdict} (h : Turn (Host.counting answers).setting c v c') :
    (∃ n body rest, c.state.work = .var n :: rest ∧ answers n = .ok body ∧
      c'.state = { c.state with work := .ofBlock body :: rest, clock := c.state.clock + 1 } ∧
      c'.fuel + c'.memory = c.fuel + c.memory) ∨
    ((∀ n body rest, c.state.work = .var n :: rest → answers n ≠ .ok body) ∧ c'.memory = c.memory) := by
  cases h with
  | @mk fuel s s' count count' b rest v hw hs =>
    simp only [State.step, hw, Option.some.injEq] at hs
    by_cases hb : ∃ n body, b = .var n ∧ answers n = .ok body
    · obtain ⟨n, body, rfl, ha⟩ := hb
      simp only [State.rewrite, Host.setting, Host.counting, ha, Except.map, Prod.map_apply, id_eq,
        Prod.mk.injEq] at hs
      obtain ⟨rfl, rfl, rfl⟩ := hs
      exact .inl ⟨n, body, rest, hw, ha, rfl, by simp [Verdict.cost]; omega⟩
    · have hb : ∀ n body, b = .var n → answers n ≠ .ok body := fun n body he ha =>
        hb ⟨n, body, he, ha⟩
      refine .inr ⟨fun n body rest' hw' => hb n body (List.cons.inj (hw.symm.trans hw')).1, ?_⟩
      have hc := rewrite_counting hb { s with work := rest } count
      exact (congrArg (·.2.2) hs).symm.trans hc

theorem counting_fixed (answers : String → Except ReadError Block) :
    (Host.counting answers).setting.Fixed (.inMemory answers) :=
  Host.Fixed.setting fun _ _ => rfl

/-- The eager run ends in a state that follows the last one of the lazy run, with
what resolving names has cost the lazy run left over. -/
theorem resume_follows (hnormal : ∀ n body, answers n = .ok body → body.isNormal)
    (hnames : ∀ n body, answers n = .ok body → body.names = []) {c : Halt Nat} {t : State}
    (h : Follows answers c.state t) (hs : c.state.Normal) (ht : ∀ x ∈ c.state.atoms, Tame answers x)
    (hd : (c.resume (Host.counting answers).setting).state.work = []) :
    let halt := c.resume (Host.counting answers).setting
    ∃ u, t.runWith (.inMemory Host.refuse) (c.fuel + c.memory) = ⟨halt.fuel + halt.memory, u, ()⟩ ∧
      Follows answers halt.state u ∧ ∀ x ∈ halt.state.atoms, Tame answers x := by
  induction c using turn_induction (Host.counting answers).setting generalizing t with
  | stop c hstop =>
    rw [resume_of_stopped hstop] at hd ⊢
    exact ⟨t, runWith_of_done (h.done hd) _, h, ht⟩
  | turn c v c' hturn ih =>
    rw [resume_of_turn hturn] at hd ⊢
    have hm : Move (.inMemory answers) c.state v c'.state := hturn.move_of_fixed (counting_fixed answers)
    have hs' := hm.normal (Oracle.inMemory_isNormal hnormal) hs
    have ht' := hm.tame Oracle.inMemory_resolve_block hnames ht
    -- The eager budget is the lazy one and the count together, so a name that is
    -- resolved moves one unit between them and the eager run stands still.
    rcases hturn.counted with ⟨n, body, rest, hw, ha, hstate, hfuel⟩ | ⟨hn, hcount⟩
    · have h' : Follows answers c'.state t := by
        obtain ⟨fuel, ⟨work, data, trash, tags, k, time⟩, count⟩ := c
        simp only at hw hstate
        subst hw
        rw [hstate]
        exact h.resolve ha (hnames n body ha)
      rw [← hfuel]
      exact ih h' hs' ht' hd
    · obtain ⟨t', h', hrun⟩ := h.move hm hs ht hn
      have hfuel := hturn.fuel_eq
      obtain ⟨k, hk⟩ : ∃ k, c.fuel = k + 1 := by
        cases hturn
        exact ⟨_, rfl⟩
      have hleft : k + c.memory + 1 - v.cost = c'.fuel + c'.memory := by
        have hv : v.cost ≤ 1 := by cases v <;> decide
        omega
      rw [hk, Nat.add_right_comm, hrun, hleft]
      exact ih h' hs' ht' hd

theorem Follows.substitute_package {s t : State} (h : Follows answers s t)
    (ht : ∀ x ∈ s.atoms, Tame answers x) : s.package.block.substitute answers = .ok t.package.block := by
  refine Block.substitute_eq_ok_iff.mpr ⟨fun n hn => ?_, ?_⟩
  · have hx : .var n ∈ s.atoms := s.atoms_package.mem_iff.mp (Block.mem_names_iff.mp hn)
    exact (ht _ hx).named n (List.mem_singleton.mpr rfl)
  · have hreverse {l l' : List Cell} (hl : l'.map Cell.block = l.map fun c => c.block.filled answers) :
        l'.reverse.map Cell.block = l.reverse.map fun c => c.block.filled answers := by
      rw [List.map_reverse, hl, List.map_reverse]
    have hwork := h.work
    rw [block_flatMap_pieces] at hwork
    rw [Block.filled, State.package, State.package, Cell.block_compose, Cell.block_compose, Block.compose,
      Block.compose, Block.fill_ofItems]
    simp only [List.map_append, List.flatMap_append, List.flatMap_assoc, Block.flatMap_fill_pieces,
      List.flatMap_map, hwork, flatMap_pieces_of_filled (hreverse h.trash),
      flatMap_pieces_of_filled (hreverse h.data)]

/-- Resolving names on the way agrees with replacing them beforehand. The lazy
run spends as much more as it resolves names, and replacing the names that are
left turns its result into the eager one. What `p` holds apart from names, `e`
holds as well, so `p` is as plain as `e`. -/
theorem lazy_agrees_with_eager {d : Definitions} {p e : Block} (he : p.substitute d.resolve = .ok e)
    (hp : e.Plain) {quota : Nat} (hx : (reduceWith d.resolve quota p).exhausted = false) :
    let lazy := reduceWith d.resolve quota p
    let eager := reduceAlone quota e
    let counted := reduce (.counting d.resolve) quota p 0
    eager.exhausted = false ∧ lazy.block.substitute d.resolve = .ok eager.block ∧
      lazy.tags = eager.tags ∧ lazy.stuck = eager.stuck ∧ counted.1 = lazy ∧
      lazy.fuelUsed = eager.fuelUsed + counted.2 := by
  intro lazy eager counted
  let start : Halt Nat := ⟨quota, .initial 0 (.ofBlock p), 0⟩
  let halt := start.resume (Host.counting d.resolve).setting
  let eagerly := Oracle.inMemory Host.refuse
  have hrun : (State.initial 0 (.ofBlock p)).runWith (.inMemory d.resolve) quota =
      ⟨halt.fuel, halt.state, ()⟩ := runWith_eq_resume (counting_fixed d.resolve) start
  have hlazy : lazy = .ofHalt quota halt := congrArg (Outcome.ofHalt quota) hrun
  have hcounted : counted = (.ofHalt quota halt, halt.memory) := rfl
  have hd : halt.state.work = [] := by
    have hx : (Outcome.ofHalt quota halt).exhausted = false := hlazy ▸ hx
    exact work_eq_nil_of_not_exhausted (resume_stopped _ _) hx
  have ht : ∀ x ∈ (State.initial 0 (.ofBlock p)).atoms, Tame d.resolve x := initial_tame he hp
  obtain ⟨u, hu, hfollows, htame⟩ : ∃ u,
      (State.initial 0 (.ofBlock e)).runWith eagerly quota = ⟨halt.fuel + halt.memory, u, ()⟩ ∧
        Follows d.resolve halt.state u ∧ ∀ x ∈ halt.state.atoms, Tame d.resolve x :=
    resume_follows (c := start) d.resolve_isNormal d.names_of_resolve (Follows.initial he)
      (State.initial_normal 0 _) ht hd
  have heager : eager = .ofHalt quota ⟨halt.fuel + halt.memory, u, ()⟩ :=
    congrArg (Outcome.ofHalt quota) hu
  have hle : halt.fuel + halt.memory ≤ quota := by
    have hle : ((State.initial 0 (.ofBlock e)).runWith eagerly quota).fuel ≤ quota := runWith_fuel_le _ _
    rwa [hu] at hle
  have hwork : u.work = [] := hfollows.done hd
  rw [hlazy, heager, hcounted]
  refine ⟨?_, ?_, ?_, ?_, rfl, ?_⟩
  · simp [Outcome.ofHalt, hwork]
  · exact hfollows.substitute_package htame
  · simp [Outcome.ofHalt, hfollows.tags]
  · simp [Outcome.ofHalt, hfollows.stuck]
  · simp only [Outcome.ofHalt]
    omega

/-- A name whose body mentions two others, inside a quotation that is copied by
way of a name, applied, and left over. -/
theorem lazy_agrees_with_eager_both :
    let d : Definitions := ⟨[("dup", .prim .copy), ("seven", .num ⟨7⟩),
      ("both", .pair (.var "seven") (.var "dup"))]⟩
    let p := Block.compose [.quote (.pair (.var "both") (.prim .tag)), .var "dup", .prim .app,
      .quote (.var "seven"), .prim .cat]
    let e := Block.compose [.quote (.compose [.num ⟨7⟩, .prim .copy, .prim .tag]), .prim .copy,
      .prim .app, .quote (.num ⟨7⟩), .prim .cat]
    let lazy := reduceWith d.resolve 9 p
    p.substitute d.resolve = .ok e ∧ e.Plain ∧ lazy.exhausted = false ∧ lazy.fuelUsed = 5 ∧
      (reduceAlone 9 e).fuelUsed = 3 ∧ (reduceAlone 9 e).tags = [.prim .tag] ∧
      (reduceAlone 9 e).stuck = 1 ∧ (reduce (.counting d.resolve) 9 p 0).2 = 2 := by
  intro d p e lazy
  have he : p.substitute d.resolve = .ok e := by
    simp only [d, p, e]
    cbv
  have hp : e.Plain := by
    unfold Block.Plain
    decide
  have hl : reduceWith d.resolve 9 p = ⟨.compose [.quote (.pair (.var "both") (.prim .tag)),
      .num ⟨7⟩, .num ⟨7⟩, .quote (.var "seven"), .prim .cat], [.prim .tag], 5, 1, false⟩ := by
    simp only [d, p]
    cbv
  have hf : (reduceAlone 9 e).fuelUsed = 3 := by
    simp only [e]
    cbv
  have hx : lazy.exhausted = false := congrArg Outcome.exhausted hl
  have hu : lazy.fuelUsed = 5 := congrArg Outcome.fuelUsed hl
  obtain ⟨-, -, ht, hs, -, hc⟩ := lazy_agrees_with_eager he hp hx
  refine ⟨he, hp, hx, hu, hf, ?_, ?_, ?_⟩
  · exact ht.symm.trans (congrArg Outcome.tags hl)
  · exact hs.symm.trans (congrArg Outcome.stuck hl)
  · have hc : lazy.fuelUsed = (reduceAlone 9 e).fuelUsed + _ := hc
    omega

end Reduction

end BlockCalculus
