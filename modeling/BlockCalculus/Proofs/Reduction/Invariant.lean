import BlockCalculus.Proofs.Block.Cell
import BlockCalculus.Proofs.Reduction.Turn

/-! The shape of the states that a run goes through. As long as names are
answered in normal form, all entries are in normal form, only values are on the
data stack, and only tags have been set aside. -/

namespace BlockCalculus

/-- Names are answered in normal form while the memory is good, and a good
memory stays good. -/
structure Setting.AnswersNormal {σ : Type} (x : Setting σ) (good : σ → Prop) : Prop where
  record : ∀ e memory, good memory → good (x.record e memory)
  resolve : ∀ n memory, good memory → good (x.resolve n memory).2
  normal : ∀ n memory body, good memory → (x.resolve n memory).1 = .ok body → body.block.isNormal

theorem Oracle.setting_answersNormal {o : Oracle}
    (h : ∀ n body, o.resolve n = .ok body → body.block.isNormal) :
    o.setting.AnswersNormal fun _ => True where
  record _ _ _ := trivial
  resolve _ _ _ := trivial
  normal n _ body _ he := h n body he

theorem Oracle.inMemory_resolve_block {answers : String → Except ReadError Block} (n : String) :
    ((inMemory answers).resolve n).map Cell.block = answers n := by
  have he : (inMemory answers).resolve n = (answers n).map .ofBlock := rfl
  rw [he]
  cases answers n <;> simp [Except.map]

theorem Oracle.inMemory_resolve_eq_ok_iff {answers : String → Except ReadError Block} {n : String}
    {body : Cell} : (inMemory answers).resolve n = .ok body ↔ ∃ b, answers n = .ok b ∧ .ofBlock b = body := by
  have he : (inMemory answers).resolve n = (answers n).map .ofBlock := rfl
  rw [he]
  cases answers n <;> simp [Except.map]

theorem Oracle.inMemory_isNormal {answers : String → Except ReadError Block}
    (h : ∀ n body, answers n = .ok body → body.isNormal) (n : String) (body : Cell)
    (hbody : (inMemory answers).resolve n = .ok body) : body.block.isNormal := by
  obtain ⟨b, hb, rfl⟩ := inMemory_resolve_eq_ok_iff.mp hbody
  rw [Cell.block_ofBlock]
  exact h n b hb

namespace Reduction

structure State.Normal (s : State) : Prop where
  work : ∀ c ∈ s.work, c.block.isNormal
  data : ∀ c ∈ s.data, c.block.isValue ∧ c.block.isNormal
  trash : ∀ c ∈ s.trash, c.block.isPiece
  tags : ∀ c ∈ s.tags, c = .prim .tag

theorem State.Normal.isPiece_of_mem_data {s : State} (hs : s.Normal) {c : Cell} (hc : c ∈ s.data) :
    c.block.isPiece :=
  Block.isPiece_of_isValue (hs.data c hc).1 (hs.data c hc).2

theorem State.initial_of_ne_empty (clock : Nat) {c : Cell} (hc : c ≠ .empty) :
    State.initial clock c = ⟨[.compose [c]], [], [], [], 0, clock⟩ := by
  cases c <;> first | rfl | exact (hc rfl).elim

theorem State.initial_normal (clock : Nat) (c : Cell) : (State.initial clock c).Normal where
  work x hx := by
    simp only [State.initial] at hx
    split at hx
    · cases hx
    · rw [List.mem_singleton.mp hx]
      exact Cell.isNormal_compose [c]
  data _ hx := by cases hx
  trash _ hx := by cases hx
  tags _ hx := by cases hx

variable {same : Cell → Cell → Bool} {time : Nat}

theorem fires_normal {p : Primitive} {data code data' : List Cell}
    (h : p.Fires same time data code data') (hd : ∀ c ∈ data, c.block.isValue ∧ c.block.isNormal) :
    (∀ c ∈ code, c.block.isNormal) ∧ ∀ c ∈ data', c.block.isValue ∧ c.block.isNormal := by
  cases h with
  | app => simp_all [Cell.block, Block.isNormal]
  | box => simp_all [Cell.block, Block.isNormal, Block.isValue]
  | @cat l m upper lower data =>
    have hu : upper.block.isNormal := (hd (.quote l upper) (by simp)).2
    have hl : lower.block.isNormal := (hd (.quote m lower) (by simp)).2
    have hj : (Cell.quote .sole (lower.append upper)).block.isNormal := by
      rw [Cell.block, Cell.block_append, ← Block.join_pair, Block.join_of_isNormal (by simp [hu, hl])]
      exact Block.isNormal_compose [lower.block, upper.block]
    simp_all [Cell.block, Block.isValue]
  | copy _ => simp_all
  | drop _ => simp_all
  | swap _ _ => simp_all
  | eq _ => simpa using hd
  | neq _ => simpa using hd

variable {o : Oracle}

theorem Stuck.isPiece {c : Cell} {data : List Cell} (h : Stuck o c data) : c.block.isPiece := by
  cases h <;> rfl

theorem Move.normal {s s' : State} {v : Verdict} (h : Move o s v s')
    (ha : ∀ n body, o.resolve n = .ok body → body.block.isNormal) (hs : s.Normal) : s'.Normal := by
  obtain ⟨hw, hd, ht, hg⟩ := hs
  cases h with
  | skip => exact ⟨fun c hc => hw c (List.mem_cons_of_mem _ hc), hd, ht, hg⟩
  | @split l m a b work data trash tags n =>
    obtain ⟨hp, hw⟩ := List.forall_mem_cons.mp hw
    obtain ⟨ha, -, hb⟩ := Block.isNormal_pair_iff.mp hp
    exact ⟨List.forall_mem_cons.mpr ⟨Block.isNormal_of_isPiece ha,
      List.forall_mem_cons.mpr ⟨hb, hw⟩⟩, hd, ht, hg⟩
  | push hv =>
    obtain ⟨hn, hw⟩ := List.forall_mem_cons.mp hw
    exact ⟨hw, List.forall_mem_cons.mpr ⟨⟨hv, hn⟩, hd⟩, ht, hg⟩
  | aside =>
    exact ⟨(List.forall_mem_cons.mp hw).2, hd, ht, List.forall_mem_cons.mpr ⟨rfl, hg⟩⟩
  | fire hf =>
    have hn := fires_normal hf hd
    refine ⟨fun c hc => ?_, hn.2, ht, hg⟩
    rcases List.mem_append.mp hc with hc | hc
    · exact hn.1 c hc
    · exact hw c (List.mem_cons_of_mem _ hc)
  | resolve hr =>
    exact ⟨List.forall_mem_cons.mpr ⟨ha _ _ hr, (List.forall_mem_cons.mp hw).2⟩, hd, ht, hg⟩
  | discard hc =>
    refine ⟨(List.forall_mem_cons.mp hw).2, by simp, ?_, hg⟩
    refine List.forall_mem_cons.mpr ⟨hc.isPiece, fun c hx => ?_⟩
    rcases List.mem_append.mp hx with hx | hx
    · exact Block.isPiece_of_isValue (hd c hx).1 (hd c hx).2
    · exact ht c hx

variable {σ : Type} {x : Setting σ} {good : σ → Prop}

theorem rewrite_good (hx : x.AnswersNormal good) (c : Cell) (s : State) {memory : σ}
    (hm : good memory) : good (s.rewrite x c memory).2.2 := by
  have hr := fun n => hx.resolve n memory hm
  unfold State.rewrite
  split
  case h_7 =>
    split
    · exact hm
    · exact hx.record _ _ hm
  case h_8 name =>
    have hn := hr name
    split <;> simp_all [State.fail, hx.record]
  all_goals exact hm

theorem Turn.keeps_good (hx : x.AnswersNormal good) {c c' : Halt σ} {v : Verdict}
    (h : Turn x c v c') (hm : good c.memory) : good c'.memory := by
  cases h with
  | @mk fuel s s' memory memory' b rest v hw hs =>
    simp only [State.step, hw, Option.some.injEq] at hs
    have hg := rewrite_good hx b { s with work := rest } (hx.record (.step b s.data (fuel + 1)) _ hm)
    rw [hs] at hg
    exact hg

theorem Halt.oracle_normal (hx : x.AnswersNormal good) {c : Halt σ} (hm : good c.memory)
    {n : String} {body : Cell} (h : (c.oracle x).resolve n = .ok body) : body.block.isNormal :=
  hx.normal n _ body (hx.record _ _ hm) h

theorem Reaches.normal (hx : x.AnswersNormal good) {c c' : Halt σ} (h : Reaches x c c')
    (hm : good c.memory) (hs : c.state.Normal) : good c'.memory ∧ c'.state.Normal := by
  induction h with
  | refl => exact ⟨hm, hs⟩
  | tail _ ht ih =>
    obtain ⟨v, ht⟩ := ht
    exact ⟨ht.keeps_good hx ih.1, ht.move.normal (fun _ _ => Halt.oracle_normal hx ih.1) ih.2⟩

end Reduction

end BlockCalculus
