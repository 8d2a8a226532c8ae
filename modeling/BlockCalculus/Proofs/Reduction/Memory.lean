import BlockCalculus.Proofs.Block.Sharing
import BlockCalculus.Proofs.Reduction.Tame

/-! What a run knows of its memory. Only copying shares anything, and it labels
what it shares, so labels stay faithful on the way of a run. As long as there is
no NaN, a run is then the same as under comparison by structure. -/

namespace BlockCalculus

/-- Labels in the answers are from before the run, and each belongs to one block. -/
def Oracle.Faithful (o : Oracle) (start : Contents) (since : Nat) : Prop :=
  ∀ n body, o.resolve n = .ok body → body.Faithful start since

theorem Oracle.inMemory_faithful (answers : String → Except ReadError Block) (start : Contents) (since : Nat) :
    (inMemory answers).Faithful start since := by
  intro n body h
  obtain ⟨b, -, rfl⟩ := inMemory_resolve_eq_ok_iff.mp h
  exact Cell.faithful_ofBlock b

namespace Reduction

variable {o : Oracle} {answers : String → Except ReadError Block} {start : Contents} {since : Nat}

/-- Each label in the state belongs to one block. What was known before the run began is
known still. -/
def State.Sound (start : Contents) (since : Nat) (s : State) : Prop :=
  since ≤ s.clock ∧ ∃ contents : Contents, contents.Extends start since ∧
    ∀ c ∈ s.trash ++ s.data ++ s.work, c.Faithful contents s.clock

theorem State.initial_sound {c : Cell} (hc : c.Faithful start since) :
    (State.initial since c).Sound start since := by
  refine ⟨Nat.le_refl since, start, fun _ _ => rfl, fun x hx => ?_⟩
  by_cases he : c = .empty
  · subst he
    cases hx
  · rw [State.initial_of_ne_empty since he] at hx
    rw [List.mem_singleton.mp hx]
    exact Cell.faithful_compose fun y hy => List.mem_singleton.mp hy ▸ hc

/-- What an operator leaves behind is labelled as it was, but for a copy. -/
theorem fires_faithful {same : Cell → Cell → Bool} {time : Nat} {p : Primitive}
    {data code data' : List Cell} (h : p.Fires same time data code data') {contents : Contents}
    (hd : ∀ c ∈ data, c.Faithful contents time) :
    ∃ value, (∀ c ∈ code, c.Faithful (contents.after time value) (time + 1)) ∧
      ∀ c ∈ data', c.Faithful (contents.after time value) (time + 1) := by
  have hkeep : ∀ c ∈ data, c.Faithful (contents.after time .empty) (time + 1) := fun c hc =>
    (hd c hc).later .empty
  cases h with
  | @copy v _ _ =>
    obtain ⟨hv, hd⟩ := List.forall_mem_cons.mp hd
    refine ⟨v.block, List.forall_mem_nil _, ?_⟩
    simp only [List.forall_mem_cons]
    exact ⟨Cell.faithful_copied hv, Cell.faithful_copied hv, fun c hc => (hd c hc).later _⟩
  | app =>
    obtain ⟨hq, hd⟩ := List.forall_mem_cons.mp hkeep
    exact ⟨.empty, fun c hc => List.mem_singleton.mp hc ▸ hq.2, hd⟩
  | box =>
    obtain ⟨hv, hd⟩ := List.forall_mem_cons.mp hkeep
    exact ⟨.empty, List.forall_mem_nil _, List.forall_mem_cons.mpr ⟨⟨Label.tells_sole, hv⟩, hd⟩⟩
  | cat =>
    obtain ⟨hu, hd⟩ := List.forall_mem_cons.mp hkeep
    obtain ⟨hl, hd⟩ := List.forall_mem_cons.mp hd
    exact ⟨.empty, List.forall_mem_nil _,
      List.forall_mem_cons.mpr ⟨⟨Label.tells_sole, Cell.faithful_append hl.2 hu.2⟩, hd⟩⟩
  | drop => exact ⟨.empty, List.forall_mem_nil _, (List.forall_mem_cons.mp hkeep).2⟩
  | swap =>
    obtain ⟨hv, hd⟩ := List.forall_mem_cons.mp hkeep
    obtain ⟨hw, hd⟩ := List.forall_mem_cons.mp hd
    exact ⟨.empty, List.forall_mem_nil _,
      List.forall_mem_cons.mpr ⟨hw, List.forall_mem_cons.mpr ⟨hv, hd⟩⟩⟩
  | eq | neq => exact ⟨.empty, List.forall_mem_nil _, hkeep⟩

/-- A turn keeps labels faithful. -/
theorem Move.sound (ho : o.Faithful start since) {s s' : State} {v : Verdict} (h : Move o s v s')
    (hs : s.Sound start since) : s'.Sound start since := by
  obtain ⟨hle, contents, hext, hs⟩ := hs
  have hlater {time : Nat} (hle : since ≤ time) (value : Block) :
      (contents.after time value).Extends start since := fun t ht =>
    (contents.after_extends time value t (Nat.lt_of_lt_of_le ht hle)).trans (hext t ht)
  unfold State.Sound
  simp only [List.forall_mem_append] at hs ⊢
  obtain ⟨⟨htrash, hdata⟩, hwork⟩ := hs
  cases h with
  | skip => exact ⟨hle, contents, hext, ⟨htrash, hdata⟩, (List.forall_mem_cons.mp hwork).2⟩
  | split =>
    obtain ⟨hp, hwork⟩ := List.forall_mem_cons.mp hwork
    exact ⟨hle, contents, hext, ⟨htrash, hdata⟩,
      List.forall_mem_cons.mpr ⟨hp.1.2, List.forall_mem_cons.mpr ⟨hp.2.2, hwork⟩⟩⟩
  | push _ =>
    obtain ⟨hv, hwork⟩ := List.forall_mem_cons.mp hwork
    exact ⟨hle, contents, hext, ⟨htrash, List.forall_mem_cons.mpr ⟨hv, hdata⟩⟩, hwork⟩
  | aside => exact ⟨hle, contents, hext, ⟨htrash, hdata⟩, (List.forall_mem_cons.mp hwork).2⟩
  | discard _ =>
    obtain ⟨hc, hwork⟩ := List.forall_mem_cons.mp hwork
    refine ⟨hle, contents, hext, ⟨?_, List.forall_mem_nil _⟩, hwork⟩
    exact List.forall_mem_cons.mpr ⟨hc, List.forall_mem_append.mpr ⟨hdata, htrash⟩⟩
  | fire hf =>
    obtain ⟨value, hcode, hdata'⟩ := fires_faithful hf hdata
    have hrest := (List.forall_mem_cons.mp hwork).2
    refine ⟨Nat.le_succ_of_le hle, _, hlater hle value, ⟨fun c hc => (htrash c hc).later value, hdata'⟩, ?_⟩
    exact List.forall_mem_append.mpr ⟨hcode, fun c hc => (hrest c hc).later value⟩
  | @resolve name body _ _ _ _ _ _ hr =>
    have hrest := (List.forall_mem_cons.mp hwork).2
    have hbody := (ho name body hr).mono (hlater hle .empty) (Nat.le_succ_of_le hle)
    refine ⟨Nat.le_succ_of_le hle, _, hlater hle .empty,
      ⟨fun c hc => (htrash c hc).later _, fun c hc => (hdata c hc).later _⟩, ?_⟩
    exact List.forall_mem_cons.mpr ⟨hbody, fun c hc => (hrest c hc).later _⟩

def State.NaNFree (s : State) : Prop :=
  ∀ x, .num x ∈ s.atoms → ¬x.isNaN

theorem Move.naNFree (ho : AnswersAgree o (.byStructure answers))
    (ha : ∀ n b, answers n = .ok b → b.NaNFree) {s s' : State} {v : Verdict} (h : Move o s v s')
    (hs : s.NaNFree) : s'.NaNFree := by
  intro x hx
  rcases h.mem_atoms hx with hx | ⟨n, body, -, hr, hx⟩
  · exact hs x hx
  · obtain ⟨body', hr', hb⟩ := ho.ok hr
    obtain ⟨b, ha', rfl⟩ := Oracle.inMemory_resolve_eq_ok_iff.mp hr'
    rw [Cell.atoms, hb, Cell.block_ofBlock] at hx
    exact ha n b ha' x hx

theorem State.Sound.guardsAgree (hsame : o.same = Cell.same) {s t : State} (hs : s.Sound start since)
    (hn : s.NaNFree) (ht : SameBlocks s t) : GuardsAgree o (.byStructure answers) s.data t.data := by
  intro v w below v' w' below' hd hd'
  obtain ⟨-, contents, -, hs⟩ := hs
  have hmem (c : Cell) (hc : c ∈ s.data) : c ∈ s.trash ++ s.data ++ s.work := by simp [hc]
  have hv := hmem v (by simp [hd])
  have hw := hmem w (by simp [hd])
  have hnv : v.block.NaNFree := fun x hx => hn x (List.mem_flatMap.mpr ⟨v, hv, hx⟩)
  obtain ⟨hv', hw'⟩ := ht.top hd hd'
  change o.same v w = v'.block.equal w'.block
  rw [hsame, Cell.same_eq_equal (hs v hv) (hs w hw) hnv, hv', hw']

/-- Without a NaN, a run is the run under comparison by structure, whatever is shared in the
block and in the answers for names. -/
theorem reduceBy_eq_byStructure (hsame : o.same = Cell.same) (ho : AnswersAgree o (.byStructure answers))
    (hf : o.Faithful start since) (ha : ∀ n b, answers n = .ok b → b.NaNFree) {c : Cell}
    (hc : c.Faithful start since) (hn : c.block.NaNFree) (quota : Nat) :
    reduceBy o quota since c = reduceByStructure answers quota c.block := by
  refine reduceBy_same_blocks (P := fun s => s.Sound start since ∧ s.NaNFree) ho
    (fun _ _ hs ht => hs.1.guardsAgree hsame hs.2 ht) ?_ (Cell.block_ofBlock _).symm
    ⟨State.initial_sound hc, ?_⟩ quota 0
  · exact fun s v s' hm hs => ⟨hm.sound hf hs.1, hm.naNFree ho ha hs.2⟩
  · intro x hx
    rw [State.initial_atoms] at hx
    exact hn x hx

/-- Without a NaN, sharing makes no difference to a run. -/
theorem reduceBy_eq_reduceWith (hsame : o.same = Cell.same) (ho : AnswersAgree o (.byStructure answers))
    (hf : o.Faithful start since) (ha : ∀ n b, answers n = .ok b → b.NaNFree) {c : Cell}
    (hc : c.Faithful start since) (hn : c.block.NaNFree) (quota : Nat) :
    reduceBy o quota since c = reduceWith answers quota c.block := by
  have hsole : (Cell.ofBlock c.block).Faithful start 0 := Cell.faithful_ofBlock c.block
  have hwith := reduceBy_eq_byStructure (o := .inMemory answers) rfl (fun _ => rfl)
    (Oracle.inMemory_faithful answers start 0) ha hsole (by rwa [Cell.block_ofBlock]) quota
  rw [Cell.block_ofBlock] at hwith
  exact (reduceBy_eq_byStructure hsame ho hf ha hc hn quota).trans hwith.symm

end Reduction

end BlockCalculus
