import BlockCalculus.Proofs.Reduction.Invariant

/-! Runs that differ in what is shared. Guards are all that can tell a shared part
from a part built twice, so two runs whose guards agree go through the same
blocks. -/

namespace BlockCalculus

/-- Answers that are built anew for each name, and comparison by structure. -/
def Oracle.byStructure (answers : String → Except ReadError Block) : Oracle where
  resolve name := (answers name).map .ofBlock
  same v w := v.block.equal w.block

namespace Reduction

/-- The outcome for a block under comparison by structure. -/
def reduceByStructure (answers : String → Except ReadError Block) (quota : Nat) (b : Block) : Outcome :=
  reduceBy (.byStructure answers) quota 0 (.ofBlock b)

/-- The guards decide alike on two data stacks. -/
def GuardsAgree (o o' : Oracle) (data data' : List Cell) : Prop :=
  ∀ v w below v' w' below', data = v :: w :: below → data' = v' :: w' :: below' → o.same v w = o'.same v' w'

theorem GuardsAgree.symm {o o' : Oracle} {data data' : List Cell} (h : GuardsAgree o o' data data') :
    GuardsAgree o' o data' data :=
  fun v w below v' w' below' hd hd' => (h v' w' below' v w below hd' hd).symm

/-- The states hold the same blocks, whatever is shared in them. -/
structure SameBlocks (s t : State) : Prop where
  work : s.work.map Cell.block = t.work.map Cell.block
  data : s.data.map Cell.block = t.data.map Cell.block
  trash : s.trash.map Cell.block = t.trash.map Cell.block
  tags : s.tags.map Cell.block = t.tags.map Cell.block
  stuck : s.stuck = t.stuck

theorem SameBlocks.initial {c c' : Cell} (h : c.block = c'.block) (clock clock' : Nat) :
    SameBlocks (.initial clock c) (.initial clock' c') := by
  refine ⟨?_, rfl, rfl, rfl, rfl⟩
  have he : c.isEmpty = c'.isEmpty := by rw [← Cell.isEmpty_block, h, Cell.isEmpty_block]
  simp only [State.initial, he]
  split
  · rfl
  · simp [h]

theorem SameBlocks.block_package {s t : State} (h : SameBlocks s t) :
    s.package.block = t.package.block := by
  simp only [State.package, Cell.block_compose, List.map_append, List.map_reverse, h.work, h.data, h.trash]

theorem SameBlocks.work_eq_nil_iff {s t : State} (h : SameBlocks s t) : s.work = [] ↔ t.work = [] := by
  rw [← List.map_eq_nil_iff (f := Cell.block), h.work, List.map_eq_nil_iff]

theorem SameBlocks.top {s t : State} (h : SameBlocks s t) {v w v' w' : Cell} {below below' : List Cell}
    (hs : s.data = v :: w :: below) (ht : t.data = v' :: w' :: below') :
    v.block = v'.block ∧ w.block = w'.block := by
  have hd := h.data
  rw [hs, ht] at hd
  obtain ⟨hv, hd⟩ := List.cons.inj hd
  exact ⟨hv, (List.cons.inj hd).1⟩

theorem SameBlocks.ofHalt_eq {h h' : Halt Unit} (hf : h'.fuel = h.fuel) (hs : SameBlocks h.state h'.state)
    (quota : Nat) : Outcome.ofHalt quota h = Outcome.ofHalt quota h' := by
  have hw : h.state.work.isEmpty = h'.state.work.isEmpty := by
    rw [Bool.eq_iff_iff, List.isEmpty_iff, List.isEmpty_iff, hs.work_eq_nil_iff]
  simp only [Outcome.ofHalt, hf, hs.block_package, List.map_reverse, hs.tags, hs.stuck, hw]

variable {o o' : Oracle}

theorem fires_of_same_blocks {p : Primitive} {data code data' : List Cell} {time : Nat}
    (h : p.Fires o.same time data code data') {e : List Cell} (he : data.map Cell.block = e.map Cell.block)
    (hg : GuardsAgree o o' data e) (time' : Nat) :
    ∃ code' e', p.Fires o'.same time' e code' e' ∧ code.map Cell.block = code'.map Cell.block ∧
      data'.map Cell.block = e'.map Cell.block := by
  cases h with
  | app =>
    obtain ⟨x, e, rfl, hx, hrest⟩ := List.map_eq_cons_iff.mp he.symm
    obtain ⟨m, body, rfl, hb⟩ := Cell.exists_quote_of_block hx
    exact ⟨_, _, .app, by simp [hb], hrest.symm⟩
  | box =>
    obtain ⟨x, e, rfl, hx, hrest⟩ := List.map_eq_cons_iff.mp he.symm
    exact ⟨_, _, .box, rfl, by simp [Cell.block, hx, hrest]⟩
  | cat =>
    obtain ⟨x, e, rfl, hx, hrest⟩ := List.map_eq_cons_iff.mp he.symm
    obtain ⟨y, e, rfl, hy, hbelow⟩ := List.map_eq_cons_iff.mp hrest
    obtain ⟨m, upper, rfl, hu⟩ := Cell.exists_quote_of_block hx
    obtain ⟨n, lower, rfl, hl⟩ := Cell.exists_quote_of_block hy
    exact ⟨_, _, .cat, rfl, by simp [Cell.block, hu, hl, hbelow]⟩
  | copy hv =>
    obtain ⟨x, e, rfl, hx, hrest⟩ := List.map_eq_cons_iff.mp he.symm
    exact ⟨_, _, .copy (hx ▸ hv), rfl, by simp [hx, hrest]⟩
  | drop hv =>
    obtain ⟨x, e, rfl, hx, hrest⟩ := List.map_eq_cons_iff.mp he.symm
    exact ⟨_, _, .drop (hx ▸ hv), rfl, hrest.symm⟩
  | swap hv hw =>
    obtain ⟨x, e, rfl, hx, hrest⟩ := List.map_eq_cons_iff.mp he.symm
    obtain ⟨y, e, rfl, hy, hbelow⟩ := List.map_eq_cons_iff.mp hrest
    exact ⟨_, _, .swap (hx ▸ hv) (hy ▸ hw), rfl, by simp [hx, hy, hbelow]⟩
  | eq hs =>
    obtain ⟨x, e, rfl, hx, hrest⟩ := List.map_eq_cons_iff.mp he.symm
    obtain ⟨y, e, rfl, hy, hbelow⟩ := List.map_eq_cons_iff.mp hrest
    exact ⟨_, _, .eq ((hg _ _ _ _ _ _ rfl rfl).symm.trans hs), rfl, by simp [hx, hy, hbelow]⟩
  | neq hs =>
    obtain ⟨x, e, rfl, hx, hrest⟩ := List.map_eq_cons_iff.mp he.symm
    obtain ⟨y, e, rfl, hy, hbelow⟩ := List.map_eq_cons_iff.mp hrest
    exact ⟨_, _, .neq ((hg _ _ _ _ _ _ rfl rfl).symm.trans hs), rfl, by simp [hx, hy, hbelow]⟩

theorem fire_eq_none_of_same_blocks {p : Primitive} {data e : List Cell} {time : Nat}
    (h : p.fire o.same time data = none) (he : data.map Cell.block = e.map Cell.block)
    (hg : GuardsAgree o o' data e) (time' : Nat) : p.fire o'.same time' e = none := by
  rw [Option.eq_none_iff_forall_ne_some]
  rintro ⟨code, e'⟩ hf
  obtain ⟨code', data', hfires, -, -⟩ :=
    fires_of_same_blocks (Primitive.fires_of_fire hf) he.symm hg.symm time
  exact Option.some_ne_none _ (hfires.fire_eq.symm.trans h)

/-- Answers for names are the same blocks or the same errors. -/
def AnswersAgree (o o' : Oracle) : Prop :=
  ∀ n, (o.resolve n).map Cell.block = (o'.resolve n).map Cell.block

theorem AnswersAgree.ok {n : String} {body : Cell} (h : AnswersAgree o o') (ho : o.resolve n = .ok body) :
    ∃ body', o'.resolve n = .ok body' ∧ body.block = body'.block := by
  have he := h n
  rw [ho] at he
  cases ho' : o'.resolve n with
  | ok body' =>
    rw [ho'] at he
    exact ⟨body', rfl, Except.ok.inj he⟩
  | error e =>
    rw [ho'] at he
    cases he

theorem AnswersAgree.error {n : String} {e : ReadError} (h : AnswersAgree o o') (ho : o.resolve n = .error e) :
    o'.resolve n = .error e := by
  have he := h n
  rw [ho] at he
  cases ho' : o'.resolve n with
  | ok body' =>
    rw [ho'] at he
    cases he
  | error e' =>
    rw [ho'] at he
    rw [Except.error.inj he]

/-- Where the guards agree, a turn is a turn of the state with the same blocks. -/
theorem Move.same_blocks (ho : AnswersAgree o o') {s s' t : State} {v : Verdict} (h : Move o s v s')
    (ht : SameBlocks s t) (hg : GuardsAgree o o' s.data t.data) :
    ∃ t', Move o' t v t' ∧ SameBlocks s' t' := by
  obtain ⟨work, data, trash, tags, n, time⟩ := t
  obtain ⟨hw, hd, htrash, htags, hn⟩ := ht
  simp only at hw hd htrash htags hn hg
  subst hn
  cases h with
  | skip =>
    obtain ⟨c, work, rfl, hc, hrest⟩ := List.map_eq_cons_iff.mp hw.symm
    obtain rfl := Cell.eq_empty_of_block hc
    exact ⟨_, .skip, hrest.symm, hd, htrash, htags, rfl⟩
  | split =>
    obtain ⟨c, work, rfl, hc, hrest⟩ := List.map_eq_cons_iff.mp hw.symm
    obtain ⟨l, a, m, b, rfl, ha, hb⟩ := Cell.exists_pair_of_block hc
    exact ⟨_, .split, by simp [ha, hb, hrest], hd, htrash, htags, rfl⟩
  | push hv =>
    obtain ⟨c, work, rfl, hc, hrest⟩ := List.map_eq_cons_iff.mp hw.symm
    exact ⟨_, .push (hc ▸ hv), hrest.symm, by simp [hc, hd], htrash, htags, rfl⟩
  | aside =>
    obtain ⟨c, work, rfl, hc, hrest⟩ := List.map_eq_cons_iff.mp hw.symm
    obtain rfl := Cell.eq_prim_of_block hc
    exact ⟨_, .aside, hrest.symm, hd, htrash, by simp [htags], rfl⟩
  | fire hf =>
    obtain ⟨c, work, rfl, hc, hrest⟩ := List.map_eq_cons_iff.mp hw.symm
    obtain rfl := Cell.eq_prim_of_block hc
    obtain ⟨code', e', hf', hcode, he'⟩ := fires_of_same_blocks hf hd hg time
    exact ⟨_, .fire hf', by simp [hcode, hrest], he', htrash, htags, rfl⟩
  | resolve hr =>
    obtain ⟨c, work, rfl, hc, hrest⟩ := List.map_eq_cons_iff.mp hw.symm
    obtain rfl := Cell.eq_var_of_block hc
    obtain ⟨body', hr', hb⟩ := ho.ok hr
    exact ⟨_, .resolve hr', by simp [hb, hrest], hd, htrash, htags, rfl⟩
  | discard hs =>
    obtain ⟨c, work, rfl, hc, hrest⟩ := List.map_eq_cons_iff.mp hw.symm
    have hs' : Stuck o' c data := by
      cases hs with
      | operator hne hf =>
        obtain rfl := Cell.eq_prim_of_block hc
        exact .operator hne (fire_eq_none_of_same_blocks hf hd hg 0)
      | name hr =>
        obtain rfl := Cell.eq_var_of_block hc
        exact .name (ho.error hr)
    exact ⟨_, .discard hs', hrest.symm, rfl, by simp [hc, hd, htrash], htags, rfl⟩

/-- Two runs through the same blocks. What keeps their guards in agreement is an
invariant of the first. -/
theorem runWith_same_blocks {P : State → Prop} (ho : AnswersAgree o o')
    (guards : ∀ s t, P s → SameBlocks s t → GuardsAgree o o' s.data t.data)
    (step : ∀ s v s', Move o s v s' → P s → P s') {s t : State} (hs : P s) (ht : SameBlocks s t)
    (fuel : Nat) :
    (t.runWith o' fuel).fuel = (s.runWith o fuel).fuel ∧
      SameBlocks (s.runWith o fuel).state (t.runWith o' fuel).state := by
  induction fuel, s using runWith_induction o generalizing t with
  | spent s =>
    rw [runWith_zero, runWith_zero]
    exact ⟨rfl, ht⟩
  | done fuel s hw =>
    rw [runWith_of_done hw, runWith_of_done (ht.work_eq_nil_iff.mp hw)]
    exact ⟨rfl, ht⟩
  | move fuel s v s' hm ih =>
    obtain ⟨t', hm', ht'⟩ := hm.same_blocks ho ht (guards s t hs ht)
    rw [runWith_of_move hm, runWith_of_move hm']
    exact ih (step s v s' hm hs) ht'

theorem reduceBy_same_blocks {P : State → Prop} (ho : AnswersAgree o o')
    (guards : ∀ s t, P s → SameBlocks s t → GuardsAgree o o' s.data t.data)
    (step : ∀ s v s', Move o s v s' → P s → P s') {c c' : Cell} (hc : c.block = c'.block) {clock : Nat}
    (hs : P (.initial clock c)) (quota clock' : Nat) :
    reduceBy o quota clock c = reduceBy o' quota clock' c' := by
  have hrun := runWith_same_blocks ho guards step hs (.initial hc clock clock') quota
  exact SameBlocks.ofHalt_eq hrun.1 hrun.2 quota

/-- Under comparison by structure, sharing makes no difference. -/
theorem reduceBy_byStructure_congr (answers : String → Except ReadError Block) {c c' : Cell}
    (hc : c.block = c'.block) (quota clock clock' : Nat) :
    reduceBy (.byStructure answers) quota clock c = reduceBy (.byStructure answers) quota clock' c' := by
  refine reduceBy_same_blocks (P := fun _ => True) (fun _ => rfl) ?_ (fun _ _ _ _ _ => trivial) hc trivial
    quota clock'
  intro s t _ h v w below v' w' below' hs ht
  obtain ⟨hv, hw⟩ := h.top hs ht
  change v.block.equal w.block = v'.block.equal w'.block
  rw [hv, hw]

end Reduction

end BlockCalculus
