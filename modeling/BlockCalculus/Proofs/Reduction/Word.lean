import BlockCalculus.Proofs.Block.Sharing
import BlockCalculus.Proofs.Reduction.Invariant
import Mathlib.Data.List.Basic

/-! Reduction as rewriting of words. A state stands for one flat list of items,
and each turn replaces at most one factor of it by a rule of the table. Items
keep their labels, since guards look at them. -/

namespace BlockCalculus.Reduction

/-- The items of the trash, of the data stack from the bottom and of the
continuation. -/
def State.word (s : State) : List Cell :=
  (s.trash.reverse ++ s.data.reverse ++ s.work).flatMap Cell.items

/-- The rule table on words, where names have been given these answers. Guards
compare the upper value with the lower one, and a copy is made at a time. -/
inductive Rule (same : Cell → Cell → Bool) (answer : String → Cell → Prop) (time : Nat) :
    List Cell → List Cell → Prop
  | app {l : Label} {a : Cell} : Rule same answer time [.quote l a, .prim .app] a.items
  | box {v : Cell} (hv : v.block.isValue) : Rule same answer time [v, .prim .box] [.quote .sole v]
  | cat {l m : Label} {a b : Cell} :
    Rule same answer time [.quote l a, .quote m b, .prim .cat] [.quote .sole (.compose [a, b])]
  | copy {v : Cell} (hv : v.block.isValue) (h : v.block.has .copy) :
    Rule same answer time [v, .prim .copy] [v.copied time, v.copied time]
  | drop {v : Cell} (hv : v.block.isValue) (h : v.block.has .drop) :
    Rule same answer time [v, .prim .drop] []
  | swap {v w : Cell} (hv : v.block.isValue) (hw : w.block.isValue) (h : v.block.has .swap)
    (h' : w.block.has .swap) : Rule same answer time [v, w, .prim .swap] [w, v]
  | eq {v w : Cell} (hv : v.block.isValue) (hw : w.block.isValue) (h : same w v) :
    Rule same answer time [v, w, .prim .eq] [v, w]
  | neq {v w : Cell} (hv : v.block.isValue) (hw : w.block.isValue) (h : same w v = false) :
    Rule same answer time [v, w, .prim .neq] [v, w]
  | name {n : String} {body : Cell} (h : answer n body) : Rule same answer time [.var n] body.items

/-- One factor of a word is replaced by a rule; what stands left and right of
it remains. -/
def Rewrites (same : Cell → Cell → Bool) (answer : String → Cell → Prop) (time : Nat)
    (w w' : List Cell) : Prop :=
  ∃ left l r right, Rule same answer time l r ∧ w = left ++ l ++ right ∧ w' = left ++ r ++ right

/-- What a turn does to the word and to the tags, by its verdict. -/
def Effect (same : Cell → Cell → Bool) (answer : String → Cell → Prop) (s s' : State) : Verdict → Prop
  | .quiet | .stuck => s'.word = s.word ∧ s'.tags = s.tags
  | .aside => (∃ left right, s.word = left ++ .prim .tag :: right ∧ s'.word = left ++ right) ∧
      s'.tags = .prim .tag :: s.tags
  | .progress => Rewrites same answer s.clock s.word s'.word ∧ s'.tags = s.tags

/-- A word is reached by this many rules from a time on while these tags are set
aside. -/
inductive Derives (same : Cell → Cell → Bool) (answer : String → Cell → Prop) (time : Nat)
    (w : List Cell) : Nat → List Block → List Cell → Prop
  | refl : Derives same answer time w 0 [] w
  | rule {n : Nat} {tags : List Block} {w' w'' : List Cell} (h : Derives same answer time w n tags w')
    (hr : Rewrites same answer (time + n) w' w'') : Derives same answer time w (n + 1) tags w''
  | aside {n : Nat} {tags : List Block} {left right : List Cell}
    (h : Derives same answer time w n tags (left ++ .prim .tag :: right)) :
    Derives same answer time w n (tags ++ [.prim .tag]) (left ++ right)

section Words

variable {same : Cell → Cell → Bool} {answer answer' : String → Cell → Prop} {time : Nat}

theorem Rewrites.mono {w w' : List Cell} (h : Rewrites same answer time w w')
    (ha : ∀ n body, answer n body → answer' n body) : Rewrites same answer' time w w' := by
  obtain ⟨left, l, r, right, hr, hw, hw'⟩ := h
  refine ⟨left, l, r, right, ?_, hw, hw'⟩
  cases hr with
  | app => exact .app
  | box hv => exact .box hv
  | cat => exact .cat
  | copy hv h => exact .copy hv h
  | drop hv h => exact .drop hv h
  | swap hv hv' h h' => exact .swap hv hv' h h'
  | eq hv hv' h => exact .eq hv hv' h
  | neq hv hv' h => exact .neq hv hv' h
  | name h => exact .name (ha _ _ h)

theorem Derives.mono {w w' : List Cell} {tags : List Block} {n : Nat}
    (h : Derives same answer time w n tags w') (ha : ∀ n body, answer n body → answer' n body) :
    Derives same answer' time w n tags w' := by
  induction h with
  | refl => exact .refl
  | rule _ hr ih => exact .rule ih (hr.mono ha)
  | aside _ ih => exact .aside ih

theorem flatMap_items {l : List Cell} (hl : ∀ c ∈ l, c.block.isPiece) : l.flatMap Cell.items = l := by
  induction l with
  | nil => rfl
  | cons c l ih =>
    obtain ⟨hc, hl⟩ := List.forall_mem_cons.mp hl
    rw [List.flatMap_cons, Cell.items_of_isPiece hc, ih hl]
    rfl

theorem State.Normal.word_eq {s : State} (hs : s.Normal) :
    s.word = s.trash.reverse ++ s.data.reverse ++ s.work.flatMap Cell.items := by
  have ht := flatMap_items (l := s.trash.reverse) fun c hc => hs.trash c (List.mem_reverse.mp hc)
  have hd := flatMap_items (l := s.data.reverse) fun c hc =>
    hs.isPiece_of_mem_data (List.mem_reverse.mp hc)
  rw [State.word, List.flatMap_append, List.flatMap_append, ht, hd]

theorem State.initial_word (clock : Nat) (c : Cell) :
    (State.initial clock c).word = (Cell.compose [c]).items := by
  by_cases h : c = .empty
  · subst h
    rfl
  · simp [State.word, State.initial_of_ne_empty clock h]

theorem fires_rule {p : Primitive} {data code data' : List Cell}
    (h : p.Fires same time data code data') (hd : ∀ c ∈ data, c.block.isValue ∧ c.block.isNormal) :
    ∃ below l r, Rule same answer time (l ++ [.prim p]) r ∧ data.reverse = below ++ l ∧
      data'.reverse ++ code.flatMap Cell.items = below ++ r := by
  cases h with
  | @app l body data' =>
    exact ⟨data'.reverse, [.quote l body], body.items, .app, by simp, by simp⟩
  | @box v data =>
    have hv := (hd v (by simp)).1
    exact ⟨data.reverse, [v], [.quote .sole v], .box hv, by simp, by simp⟩
  | @cat l m upper lower data =>
    have hu : upper.block.isNormal := (hd (.quote l upper) (by simp)).2
    have hl : lower.block.isNormal := (hd (.quote m lower) (by simp)).2
    exact ⟨data.reverse, [.quote m lower, .quote l upper], [.quote .sole (.compose [lower, upper])], .cat,
      by simp, by simp [Cell.append_eq_compose hl hu]⟩
  | @copy v data h =>
    have hv := (hd v (by simp)).1
    exact ⟨data.reverse, [v], [v.copied time, v.copied time], .copy hv h, by simp, by simp⟩
  | @drop v data' h =>
    have hv := (hd v (by simp)).1
    exact ⟨data'.reverse, [v], [], .drop hv h, by simp, by simp⟩
  | @swap v w data h h' =>
    have hv := (hd v (by simp)).1
    have hw := (hd w (by simp)).1
    exact ⟨data.reverse, [w, v], [v, w], .swap hw hv h' h, by simp, by simp⟩
  | @eq v w data h =>
    have hv := (hd v (by simp)).1
    have hw := (hd w (by simp)).1
    exact ⟨data.reverse, [w, v], [w, v], .eq hw hv h, by simp, by simp⟩
  | @neq v w data h =>
    have hv := (hd v (by simp)).1
    have hw := (hd w (by simp)).1
    exact ⟨data.reverse, [w, v], [w, v], .neq hw hv h, by simp, by simp⟩

end Words

variable {o : Oracle}

theorem Move.effect {s s' : State} {v : Verdict} (h : Move o s v s') (hs : s.Normal) (hs' : s'.Normal) :
    Effect o.same (fun n body => o.resolve n = .ok body) s s' v := by
  have hw := hs.word_eq
  have hw' := hs'.word_eq
  cases h with
  | skip => exact ⟨by simp [hw, hw', Cell.items], rfl⟩
  | @split l m a b work data trash tags n =>
    have ha := (Block.isNormal_pair_iff.mp (hs.work (.pair l a m b) List.mem_cons_self)).1
    exact ⟨by simp [hw, hw', Cell.items, Cell.items_of_isPiece ha], rfl⟩
  | @push c work data trash tags n _ hv =>
    have hi := Cell.items_of_isPiece (hs'.isPiece_of_mem_data (c := c) List.mem_cons_self)
    exact ⟨by simp [hw, hw', hi], rfl⟩
  | @aside work data trash tags n =>
    exact ⟨⟨trash.reverse ++ data.reverse, work.flatMap Cell.items,
      by simp [hw, Cell.items], by simp [hw']⟩, rfl⟩
  | @fire p code work data data' trash tags n _ hf =>
    obtain ⟨below, l, r, hr, hd, hd'⟩ := fires_rule hf hs.data
    refine ⟨⟨trash.reverse ++ below, l ++ [.prim p], r, work.flatMap Cell.items, hr, ?_, ?_⟩, rfl⟩
    · simp [hw, hd, Cell.items]
    · rw [hw', List.flatMap_append, ← List.append_assoc, List.append_assoc trash.reverse, hd']
      simp
  | @resolve n body work data trash tags k _ hr =>
    refine ⟨⟨trash.reverse ++ data.reverse, [.var n], body.items, work.flatMap Cell.items,
      .name hr, ?_, ?_⟩, rfl⟩
    · simp [hw, Cell.items]
    · simp [hw']
  | @discard c work data trash tags n _ hc =>
    have hi := Cell.items_of_isPiece hc.isPiece
    exact ⟨by simp [hw, hw', hi], rfl⟩

theorem Move.clock_eq {s s' : State} {v : Verdict} (h : Move o s v s') : s'.clock = s.clock + v.cost := by
  cases h <;> rfl

variable {σ : Type} {x : Setting σ} {good : σ → Prop}

theorem Turn.effect (hx : x.AnswersNormal good) {c c' : Halt σ} {v : Verdict}
    (h : Turn x c v c') (hm : good c.memory) (hs : c.state.Normal) :
    Effect x.same (fun n body => (c.oracle x).resolve n = .ok body) c.state c'.state v :=
  have ha := fun _ _ => Halt.oracle_normal hx hm
  h.move.effect hs (h.move.normal ha hs)

/-- The word on the way of a run is derived from the first word by one rule for
each unit of the budget that has been spent, which is one for each unit of time. -/
theorem Reaches.derives (hx : x.AnswersNormal good) {start c : Halt σ}
    (h : Reaches x start c) (hm : good start.memory) (hs : start.state.Normal)
    (ht : start.state.tags = []) :
    ∃ n, start.fuel = c.fuel + n ∧ c.state.clock = start.state.clock + n ∧
      Derives x.same (fun n body => ∃ c, Reaches x start c ∧ (c.oracle x).resolve n = .ok body)
        start.state.clock start.state.word n (c.state.tags.reverse.map Cell.block) c.state.word := by
  induction h with
  | refl => exact ⟨0, rfl, rfl, by rw [ht]; exact .refl⟩
  | @tail c c' hc hturn ih =>
    obtain ⟨n, hf, hclock, hd⟩ := ih
    obtain ⟨v, hturn⟩ := hturn
    have hn := Reaches.normal hx hc hm hs
    have he := hturn.effect hx hn.1 hn.2
    have hfuel := hturn.fuel_eq
    have htime := hturn.move.clock_eq
    cases v with
    | quiet =>
      rw [he.1, he.2]
      exact ⟨n, hf.trans (by rw [hfuel]; rfl), htime.trans hclock, hd⟩
    | stuck =>
      rw [he.1, he.2]
      exact ⟨n, hf.trans (by rw [hfuel]; rfl), htime.trans hclock, hd⟩
    | aside =>
      obtain ⟨⟨left, right, hw, hw'⟩, htags⟩ := he
      rw [hw] at hd
      rw [htags, hw', List.reverse_cons, List.map_append]
      exact ⟨n, hf.trans (by rw [hfuel]; rfl), htime.trans hclock, .aside hd⟩
    | progress =>
      rw [he.2]
      simp only [Verdict.cost] at hfuel htime
      have hr : Rewrites x.same (fun n body => ∃ c, Reaches x start c ∧ (c.oracle x).resolve n = .ok body)
          c.state.clock c.state.word c'.state.word := he.1.mono fun _ _ h => ⟨c, hc, h⟩
      rw [hclock] at hr
      exact ⟨n + 1, by omega, by omega, .rule hd hr⟩

theorem items_package {s : State} (hs : s.Normal) :
    s.package.items = (s.trash.reverse ++ s.work ++ s.data.reverse).flatMap Cell.items := by
  rw [State.package, ← Cell.pieces_eq_items (Cell.isNormal_compose _), Cell.pieces_compose]
  apply List.flatMap_congr
  intro c hc
  apply Cell.pieces_eq_items
  simp only [List.mem_append, List.mem_reverse] at hc
  rcases hc with (hc | hc) | hc
  · exact Block.isNormal_of_isPiece (hs.trash c hc)
  · exact hs.work c hc
  · exact (hs.data c hc).2

/-- The engine simulates the rewriting system of the rule table, whatever parts the
program and the answers for names share in memory: each turn of its loop has the effect
on the word that its verdict tells, and the result is what has been derived, with what
is left of the continuation in front of the data stack. -/
theorem reduceCell_simulates_rules (hx : x.AnswersNormal good) {memory : σ} (hm : good memory)
    (quota clock : Nat) (b : Cell) :
    let start : Halt σ := ⟨quota, .initial clock b, memory⟩
    let halt := start.resume x
    let o := (reduceCell x quota clock b memory).1
    (∀ c c' v, Reaches x start c → Turn x c v c' →
      Effect x.same (fun n body => (c.oracle x).resolve n = .ok body) c.state c'.state v) ∧
    Reaches x start halt ∧ halt.Stopped ∧
    Derives x.same (fun n body => ∃ c, Reaches x start c ∧ (c.oracle x).resolve n = .ok body) clock
      (Cell.compose [b]).items o.fuelUsed o.tags halt.state.word ∧
    o.block.items =
      ((halt.state.trash.reverse ++ halt.state.work ++ halt.state.data.reverse).flatMap Cell.items).map
        Cell.block ∧
    (o.exhausted = false → o.block.items = halt.state.word.map Cell.block) := by
  intro start halt o
  have hr : Reaches x start halt := reaches_resume x start
  have hstop : halt.Stopped := resume_stopped x start
  have hn := Reaches.normal hx hr hm (State.initial_normal clock b)
  have hi : o.block.items =
      ((halt.state.trash.reverse ++ halt.state.work ++ halt.state.data.reverse).flatMap Cell.items).map
        Cell.block := by
    rw [← items_package hn.2, Cell.block_items]
    rfl
  refine ⟨?_, hr, hstop, ?_, hi, ?_⟩
  · intro c c' v hc hturn
    have hc := Reaches.normal hx hc hm (State.initial_normal clock b)
    exact hturn.effect hx hc.1 hc.2
  · obtain ⟨n, hf, -, hd⟩ := Reaches.derives hx hr hm (State.initial_normal clock b) rfl
    have hu : o.fuelUsed = n := by
      change quota - halt.fuel = n
      change quota = halt.fuel + n at hf
      omega
    rw [State.initial_word] at hd
    rw [hu]
    exact hd
  · intro hx
    have hw : halt.state.work = [] := work_eq_nil_of_not_exhausted hstop hx
    rw [hi, State.word, hw]
    simp

/-- A quotation of a NaN is copied by way of a name. The copies are one in memory and pass
`eq`. A quotation of the same NaN that was written out is another one: it passes `neq`, and
the last `eq` gets stuck on it. -/
theorem reduceCell_simulates_rules_nan :
    let answers : String → Except ReadError Block := fun n =>
      if n = "twice" then .ok (.prim .copy) else Host.refuse n
    let x := (Host.ofAnswers answers).setting
    let nan : Block := .quote (.num ⟨0x7ff8000000000000⟩)
    let copied : Cell := .quote (.shared 2 [.body]) (.num ⟨0x7ff8000000000000⟩)
    let w : List Block := [.num ⟨5⟩, .prim .nocopy, .prim .tag, nan, .quote (.var "twice"), .prim .app,
      .prim .eq, nan, .prim .neq, .prim .eq]
    let o := (reduceCell x 9 0 (.ofBlock (.compose w)) ()).1
    x.AnswersNormal (fun _ => True) ∧ o.fuelUsed = 5 ∧ o.stuck = 2 ∧ o.tags = [.prim .tag] ∧
      o.block.items = [.num ⟨5⟩, .prim .nocopy, nan, nan, nan, .prim .eq] ∧
      Derives Cell.same (fun n body => x.resolve n () = (.ok body, ())) 0 (w.map .ofBlock) 5 [.prim .tag]
        [.num ⟨5⟩, .prim .nocopy, copied, copied, .ofBlock nan, .prim .eq] := by
  intro answers x nan copied w o
  have hx : x.AnswersNormal fun _ => True := by
    refine Oracle.setting_answersNormal (o := .inMemory answers) (Oracle.inMemory_isNormal ?_)
    intro n body h
    by_cases hn : n = "twice"
    · simp only [answers, hn, if_true, Except.ok.injEq] at h
      rw [← h]
      rfl
    · simp [answers, hn, Host.refuse] at h
  let halt : Halt Unit := ⟨4, ⟨[], [], [.prim .eq, .ofBlock nan, copied, copied, .prim .nocopy, .num ⟨5⟩],
    [.prim .tag], 2, 5⟩, ()⟩
  have hrun : (State.initial 0 (.ofBlock (.compose w))).runWith (.inMemory answers) 9 = halt :=
    runWith_of_turns (n := 40) (c := ⟨9, _, ()⟩) rfl (.inr rfl)
  have ho : o = .ofHalt 9 halt := congrArg (Outcome.ofHalt 9) hrun
  have hf : o.fuelUsed = 5 := congrArg Outcome.fuelUsed ho
  have ht : o.tags = [.prim .tag] := congrArg Outcome.tags ho
  obtain ⟨-, -, -, hd, hi, -⟩ :=
    @reduceCell_simulates_rules Unit x _ hx () trivial 9 0 (.ofBlock (.compose w))
  have hw : (Cell.compose [.ofBlock (.compose w)]).items = w.map .ofBlock := rfl
  have hhalt : (Halt.resume x ⟨9, .initial 0 (.ofBlock (.compose w)), ()⟩) = halt := hrun
  have he : (reduceCell x 9 0 (.ofBlock (.compose w)) ()).1 = o := rfl
  rw [he, hw, hf, ht, hhalt] at hd
  rw [he, hhalt] at hi
  refine ⟨hx, hf, congrArg Outcome.stuck ho, ht, hi, hd.mono ?_⟩
  rintro n body ⟨c, -, h⟩
  exact Prod.ext h rfl

end BlockCalculus.Reduction
