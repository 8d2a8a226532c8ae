import BlockCalculus.Proofs.Reduction.Budget
import BlockCalculus.Proofs.Reduction.Replay
import BlockCalculus.Proofs.Reduction.Word
import Mathlib

/-! A budget of exactly the rewrites that a run needs. It ends the run right after the
last of them, so what still waits then stands in front of the data stack. -/

namespace BlockCalculus.Reduction

variable {o : Oracle}

def untagged (l : List Cell) : List Cell :=
  l.filter (· ≠ .prim .tag)

theorem untagged_append (l m : List Cell) : untagged (l ++ m) = untagged l ++ untagged m :=
  List.filter_append l m

theorem untagged_of_forall_ne {l : List Cell} (h : ∀ c ∈ l, c ≠ .prim .tag) : untagged l = l :=
  List.filter_eq_self.mpr fun c hc => decide_eq_true (h c hc)

theorem ne_tag_of_isValue {v : Cell} (hv : v.block.isValue) : v ≠ .prim .tag := by
  rintro rfl
  cases hv

theorem Stuck.ne_tag {c : Cell} {data : List Cell} (h : Stuck o c data) : c ≠ .prim .tag := by
  cases h with
  | operator ht _ =>
    rintro ⟨⟩
    exact ht rfl
  | name _ => rintro ⟨⟩

theorem Settled.ne_tag {trash : List Cell} {n : Nat} (h : Settled o trash n) :
    ∀ c ∈ trash, c ≠ .prim .tag := by
  induction h with
  | nil => exact List.forall_mem_nil _
  | cons hc hd _ ih =>
    refine List.forall_mem_cons.mpr ⟨hc.ne_tag, List.forall_mem_append.mpr ⟨fun v hv => ?_, ih⟩⟩
    exact ne_tag_of_isValue (hd v hv)

/-- Tags are all that a run can lose without spending anything. -/
theorem Move.untagged_word {s s' : State} {v : Verdict} (h : Move o s v s')
    (hv : v ≠ .progress) (hs : s.Normal) (hs' : s'.Normal) : untagged s'.word = untagged s.word := by
  have he := h.effect hs hs'
  cases v with
  | progress => exact (hv rfl).elim
  | quiet => rw [he.1]
  | stuck => rw [he.1]
  | aside =>
    obtain ⟨⟨left, right, hw, hw'⟩, -⟩ := he
    have ht : untagged (.prim .tag :: right) = untagged right :=
      List.filter_cons_of_neg (by simp)
    rw [hw, hw', untagged_append, untagged_append, ht]

theorem runWith_untagged_word (hn : ∀ n body, o.resolve n = .ok body → body.block.isNormal) {fuel : Nat}
    {s : State} (hs : s.Normal) (hf : (s.runWith o fuel).fuel = fuel) :
    untagged (s.runWith o fuel).state.word = untagged s.word := by
  induction fuel, s using runWith_induction o with
  | spent s => rw [runWith_zero]
  | done fuel s hw => rw [runWith_of_done hw]
  | move fuel s v s' hm ih =>
    rw [runWith_of_move hm] at hf ⊢
    have hle : (s'.runWith o (fuel + 1 - v.cost)).fuel ≤ fuel + 1 - v.cost := runWith_fuel_le _ s'
    have hc : v.cost = 0 := by omega
    have hv : v ≠ .progress := by
      rintro rfl
      cases hc
    have hs' := hm.normal hn hs
    rw [ih hs' (by omega), hm.untagged_word hv hs hs']

/-- The data stack comes before what waited behind it, once a run ends that has nothing
left to rewrite. -/
theorem word_of_free_end (hn : ∀ n body, o.resolve n = .ok body → body.block.isNormal) {fuel : Nat}
    {s : State} (hs : s.Normal) (ht : Settled o s.trash s.stuck)
    (hf : (s.runWith o fuel).fuel = fuel) (hw : (s.runWith o fuel).state.work = []) :
    (s.runWith o fuel).state.word =
      s.trash.reverse ++ s.data.reverse ++ untagged (s.work.flatMap Cell.items) := by
  have hsame := runWith_untagged_word hn hs hf
  obtain ⟨hs', ht'⟩ := runWith_settled hn fuel hs ht
  have hplain {t : State} (hs : t.Normal) (ht : Settled o t.trash t.stuck) :
      untagged (t.trash.reverse ++ t.data.reverse) = t.trash.reverse ++ t.data.reverse := by
    refine untagged_of_forall_ne (List.forall_mem_append.mpr ⟨fun c hc => ?_, fun c hc => ?_⟩)
    · exact ht.ne_tag c (List.mem_reverse.mp hc)
    · exact ne_tag_of_isValue (hs.data c (List.mem_reverse.mp hc)).1
  rw [hs.word_eq, untagged_append, hplain hs ht, hs'.word_eq, hw, List.flatMap_nil, List.append_nil,
    hplain hs' ht'] at hsame
  rw [hs'.word_eq, hw, List.flatMap_nil, List.append_nil, hsame]

theorem State.Normal.items_package {s : State} (hs : s.Normal) :
    s.package.items = s.trash.reverse ++ s.work.flatMap Cell.items ++ s.data.reverse := by
  have ht : ∀ c ∈ s.trash.reverse, c.block.isPiece := fun c hc => hs.trash c (List.mem_reverse.mp hc)
  have hd : ∀ c ∈ s.data.reverse, c.block.isPiece := fun c hc =>
    hs.isPiece_of_mem_data (List.mem_reverse.mp hc)
  rw [Reduction.items_package hs, List.flatMap_append, List.flatMap_append, flatMap_items ht,
    flatMap_items hd]

/-- A run that ends goes through the state in which the budget that it uses would have
ended it, and spends nothing from there. -/
theorem runWith_exact (hn : ∀ n body, o.resolve n = .ok body → body.block.isNormal) (clock : Nat)
    (c : Cell) {q : Nat} (hw : ((State.initial clock c).runWith o q).state.work = []) :
    let whole := (State.initial clock c).runWith o q
    let s := ((State.initial clock c).runWith o (q - whole.fuel)).state
    whole = s.runWith o whole.fuel ∧
      whole.state.word = s.trash.reverse ++ s.data.reverse ++ untagged (s.work.flatMap Cell.items) := by
  intro whole s
  have hle : whole.fuel ≤ q := runWith_fuel_le q _
  have hon : whole = s.runWith o whole.fuel := by
    have hadd : (State.initial clock c).runWith o (q - whole.fuel + whole.fuel) =
        s.runWith o whole.fuel := runWith_add (runWith_used q _) whole.fuel
    rwa [Nat.sub_add_cancel hle] at hadd
  obtain ⟨hs, ht⟩ : s.Normal ∧ Settled o s.trash s.stuck :=
    runWith_settled hn (q - whole.fuel) (State.initial_normal clock c) .nil
  refine ⟨hon, ?_⟩
  have hfree : (s.runWith o whole.fuel).fuel = whole.fuel := by rw [← hon]
  have hdone : (s.runWith o whole.fuel).state.work = [] := by rw [← hon]; exact hw
  rw [hon]
  exact word_of_free_end hn hs ht hfree hdone

/-- With a budget of exactly the rewrites that a run needs, the same rewrites happen. What
waits behind the last of them then stands in front of the data stack, tags included, where
a larger budget brings it behind the data stack without its tags. The results are the same
if and only if that makes no difference; one more unit of budget is always enough. -/
theorem reduceShared_exact_budget (clock : Nat) (c : Cell) {q : Nat}
    (hx : (reduceShared Host.refuse q clock c).exhausted = false) :
    let o := reduceShared Host.refuse q clock c
    let tight := reduceShared Host.refuse o.fuelUsed clock c
    let s := ((State.initial clock c).runWith (.inMemory Host.refuse) o.fuelUsed).state
    let waiting := s.work.flatMap Cell.items
    tight.fuelUsed = o.fuelUsed ∧
    tight.block.items = (s.trash.reverse ++ waiting ++ s.data.reverse).map Cell.block ∧
    o.block.items =
      (s.trash.reverse ++ s.data.reverse ++ waiting.filter (· ≠ .prim .tag)).map Cell.block ∧
    (tight.block = o.block ↔ (waiting ++ s.data.reverse).map Cell.block =
      (s.data.reverse ++ waiting.filter (· ≠ .prim .tag)).map Cell.block) ∧
    (tight.exhausted = false → tight = o) ∧ reduceShared Host.refuse (o.fuelUsed + 1) clock c = o := by
  intro o tight s waiting
  let alone := Oracle.inMemory Host.refuse
  let whole := (State.initial clock c).runWith alone q
  have hw : whole.state.work = [] := work_eq_nil_of_not_exhausted (runWith_stopped q _) hx
  have hz : ((State.initial clock c).runWith alone o.fuelUsed).fuel = 0 := runWith_used q _
  have hnormal : ∀ n body, alone.resolve n = .ok body → body.block.isNormal :=
    Oracle.inMemory_isNormal (by rintro n body ⟨⟩)
  obtain ⟨hon, hword⟩ : whole = s.runWith alone whole.fuel ∧
      whole.state.word = s.trash.reverse ++ s.data.reverse ++ untagged waiting :=
    runWith_exact hnormal clock c hw
  have hn (fuel : Nat) : ((State.initial clock c).runWith alone fuel).state.Normal :=
    (runWith_settled hnormal fuel (State.initial_normal clock c) .nil).1
  have hitems (fuel : Nat) : (reduceShared Host.refuse fuel clock c).block.items =
      ((State.initial clock c).runWith alone fuel).state.package.items.map Cell.block :=
    (Cell.block_items _).symm
  have htight : tight.block.items = (s.trash.reverse ++ waiting ++ s.data.reverse).map Cell.block := by
    rw [hitems, (hn _).items_package]
  have hlong : o.block.items =
      (s.trash.reverse ++ s.data.reverse ++ untagged waiting).map Cell.block := by
    have hwhole : whole.state.Normal := hn q
    have hpackage : whole.state.package.items = whole.state.word := by
      rw [hwhole.items_package, hwhole.word_eq, hw, List.flatMap_nil, List.append_nil, List.append_nil]
    rw [hitems, ← hword, ← hpackage]
  refine ⟨?_, htight, hlong, ?_, fun hdone => ?_, reduceBy_of_finished hw (.inr Nat.zero_lt_one)⟩
  · change o.fuelUsed - ((State.initial clock c).runWith alone o.fuelUsed).fuel = o.fuelUsed
    rw [hz, Nat.sub_zero]
  · have hiff : tight.block.items = o.block.items ↔ tight.block = o.block :=
      Block.items_inj (Cell.isNormal_compose _) (Cell.isNormal_compose _)
    rw [← hiff, htight, hlong]
    simp only [List.append_assoc, List.map_append, List.append_cancel_left_eq]
    rfl
  · -- Nothing waits, so the rest of the larger budget changes nothing.
    have hwork : s.work = [] := work_eq_nil_of_not_exhausted (runWith_stopped o.fuelUsed _) hdone
    have hle : whole.fuel ≤ q := runWith_fuel_le q _
    have hused : o.fuelUsed = q - whole.fuel := rfl
    have hq : q = o.fuelUsed - ((State.initial clock c).runWith alone o.fuelUsed).fuel + whole.fuel := by
      omega
    change tight = reduceBy alone q clock c
    rw [hq]
    exact (reduceBy_of_finished hwork (.inl hz)).symm

/-- A quotation of a NaN is compared with its copy. A tag, a value and an operator that gets
stuck wait behind that. -/
theorem reduceShared_exact_budget_nan :
    let nan : Block := .quote (.num ⟨0x7ff8000000000000⟩)
    let c := Cell.ofBlock (.compose [.quote .empty, nan, .prim .copy, .prim .eq, .prim .tag, .num ⟨8⟩,
      .prim .app, .num ⟨9⟩])
    let o := fun q => reduceShared Host.refuse q 0 c
    (o 5).exhausted = false ∧ (o 5).fuelUsed = 2 ∧
      (o 2).block.items = [.prim .tag, .num ⟨8⟩, .prim .app, .num ⟨9⟩, .quote .empty, nan, nan] ∧
      (o 5).block.items = [.quote .empty, nan, nan, .num ⟨8⟩, .prim .app, .num ⟨9⟩] ∧
      (o 2).block ≠ (o 5).block ∧ o 3 = o 5 := by
  intro nan c o
  let copied : Cell := .quote (.shared 0 [.body]) (.num ⟨0x7ff8000000000000⟩)
  have ho : o 5 = ⟨.compose [.quote .empty, nan, nan, .num ⟨8⟩, .prim .app, .num ⟨9⟩],
      [.prim .tag], 2, 1, false⟩ := by
    simp only [o, c, nan]
    cbv
  have hs : ((State.initial 0 c).runWith (.inMemory Host.refuse) 2).state =
      ⟨[.ofBlock (.compose [.prim .tag, .num ⟨8⟩, .prim .app, .num ⟨9⟩])],
        [copied, copied, .quote .sole .empty], [], [], 0, 2⟩ := by
    simp only [c, nan, copied]
    cbv
  have hx : (o 5).exhausted = false := congrArg Outcome.exhausted ho
  have hu : (o 5).fuelUsed = 2 := congrArg Outcome.fuelUsed ho
  obtain ⟨-, htight, hlong, hiff, -, hmore⟩ := reduceShared_exact_budget 0 c hx
  change (o (o 5).fuelUsed).block.items = _ at htight
  change (o (o 5).fuelUsed).block = (o 5).block ↔ _ at hiff
  change o ((o 5).fuelUsed + 1) = o 5 at hmore
  rw [hu, hs] at htight hlong hiff
  rw [hu] at hmore
  refine ⟨hx, hu, htight, hlong, fun h => ?_, hmore⟩
  exact absurd (hiff.mp h) (by decide)

/-- A value that follows the last rewrite is pushed for free, but not by a budget that
the rewrite has used up. -/
theorem trailing_value_before_data :
    let b := Block.compose [.num ⟨7⟩, .prim .copy, .num ⟨8⟩]
    (reduceAlone 5 b).exhausted = false ∧ (reduceAlone 5 b).fuelUsed = 1 ∧
      (reduceAlone 5 b).block = .compose [.num ⟨7⟩, .num ⟨7⟩, .num ⟨8⟩] ∧
      (reduceAlone 1 b).block = .compose [.num ⟨8⟩, .num ⟨7⟩, .num ⟨7⟩] ∧
      (reduceAlone 1 b).block ≠ (reduceAlone 5 b).block := by
  intro b
  have hlong : reduceAlone 5 b = ⟨.compose [.num ⟨7⟩, .num ⟨7⟩, .num ⟨8⟩], [], 1, 0, false⟩ := by
    simp only [b]
    cbv
  have htight : reduceAlone 1 b = ⟨.compose [.num ⟨8⟩, .num ⟨7⟩, .num ⟨7⟩], [], 1, 0, true⟩ := by
    simp only [b]
    cbv
  rw [hlong, htight]
  decide

end BlockCalculus.Reduction
