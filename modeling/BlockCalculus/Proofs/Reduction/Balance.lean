import BlockCalculus.Proofs.Reduction.Tame
import Mathlib

/-! What the turns of a run add to the atoms of a state and what they take away, as
long as names have no answers. Atoms come from values that may be copied and go
with values that may be dropped, apart from the operators themselves. -/

namespace BlockCalculus

/-- How often an operator stands in a block, at any depth. -/
def Block.occurrences (b : Block) (p : Primitive) : Nat :=
  b.atoms.count (.prim p)

/-- How often an operator stands in the trash, the data stack and the
continuation, at any depth. -/
def Reduction.State.occurrences (s : State) (p : Primitive) : Nat :=
  s.atoms.count (.prim p)

theorem Primitive.Fires.balance {same : Cell → Cell → Bool} {time : Nat} {p : Primitive}
    {data code data' : List Cell} (h : p.Fires same time data code data') :
    ∃ added gone, (data.flatMap Cell.atoms ++ added).Perm ((data' ++ code).flatMap Cell.atoms ++ gone) ∧
      (∀ x ∈ added, p = .copy ∧ x ≠ .prim .nocopy) ∧ ∀ x ∈ gone, p = .drop ∧ x ≠ .prim .nodrop := by
  cases h with
  | @copy v data h =>
    refine ⟨v.atoms, [], ?_, fun x hx => ⟨rfl, fun he => ?_⟩, List.forall_mem_nil _⟩
    · refine List.perm_iff_count.mpr fun x => ?_
      simp only [List.flatMap_append, List.flatMap_cons, List.flatMap_nil, List.count_append,
        List.count_nil, Cell.atoms_copied]
      omega
    · exact Block.has_iff.mp h (he ▸ hx)
  | @drop v data' h =>
    refine ⟨[], v.atoms, ?_, List.forall_mem_nil _, fun x hx => ⟨rfl, fun he => ?_⟩⟩
    · refine List.perm_iff_count.mpr fun x => ?_
      simp only [List.flatMap_append, List.flatMap_cons, List.flatMap_nil, List.count_append,
        List.count_nil]
      omega
    · exact Block.has_iff.mp h (he ▸ hx)
  | app | cat | swap =>
    refine ⟨[], [], List.perm_iff_count.mpr fun x => ?_, List.forall_mem_nil _, List.forall_mem_nil _⟩
    simp only [List.flatMap_append, List.flatMap_cons, List.flatMap_nil, Cell.atoms_quote,
      Cell.atoms_append, List.count_append, List.count_nil]
    omega
  | box | eq | neq =>
    exact ⟨[], [], by simp, List.forall_mem_nil _, List.forall_mem_nil _⟩

namespace Reduction

/-- What a turn adds comes from a copy. What it takes away is the operator that fires, a
tag, or a value that is dropped. -/
theorem Move.balance {s s' : State} {v : Verdict} (h : Move (.inMemory Host.refuse) s v s') :
    ∃ added gone, (s.atoms ++ added).Perm (s'.atoms ++ gone) ∧
      (∀ x ∈ added, .prim .copy ∈ s.atoms ∧ x ≠ .prim .nocopy) ∧
      ∀ x ∈ gone, (∃ p : Primitive, x = .prim p ∧ p.isMarker = false) ∨
        .prim .drop ∈ s.atoms ∧ x ≠ .prim .nodrop := by
  unfold State.atoms
  cases h with
  | aside =>
    refine ⟨[], [.prim .tag], List.perm_iff_count.mpr fun x => ?_, List.forall_mem_nil _, fun x hx => ?_⟩
    · simp only [List.flatMap_append, List.flatMap_cons, Cell.atoms_prim, List.count_append,
        List.count_nil]
      omega
    · exact .inl ⟨.tag, List.mem_singleton.mp hx, rfl⟩
  | @fire p code work data data' trash _ _ _ hf =>
    obtain ⟨added, gone, hp, hadded, hgone⟩ := hf.balance
    refine ⟨added, .prim p :: gone, List.perm_iff_count.mpr fun x => ?_, fun x hx => ?_, fun x hx => ?_⟩
    · have hc := hp.count_eq x
      simp only [List.flatMap_append, List.flatMap_cons, Cell.atoms_prim, List.count_append,
        ← List.singleton_append (l := gone)] at hc ⊢
      omega
    · obtain ⟨rfl, hne⟩ := hadded x hx
      exact ⟨by simp, hne⟩
    · rcases List.mem_cons.mp hx with he | hx
      · exact .inl ⟨p, he, by cases hf <;> rfl⟩
      · obtain ⟨rfl, hne⟩ := hgone x hx
        exact .inr ⟨by simp, hne⟩
  | resolve ha => cases ha
  | _ =>
    refine ⟨[], [], List.perm_iff_count.mpr fun x => ?_, List.forall_mem_nil _, List.forall_mem_nil _⟩
    simp only [List.flatMap_append, List.flatMap_cons, List.flatMap_nil, Cell.atoms_empty, Cell.atoms_pair,
      List.count_append, List.count_nil]
    omega

theorem Move.occurrences {s s' : State} {v : Verdict} (h : Move (.inMemory Host.refuse) s v s') :
    s'.occurrences .nocopy ≤ s.occurrences .nocopy ∧ s.occurrences .nodrop ≤ s'.occurrences .nodrop := by
  obtain ⟨added, gone, hp, hadded, hgone⟩ := h.balance
  have hcopy := hp.count_eq (.prim .nocopy)
  have hdrop := hp.count_eq (.prim .nodrop)
  have ha : added.count (.prim .nocopy) = 0 := List.count_eq_zero.mpr fun hx => (hadded _ hx).2 rfl
  have hg : gone.count (.prim .nodrop) = 0 := by
    refine List.count_eq_zero.mpr fun hx => ?_
    rcases hgone _ hx with ⟨p, he, hp⟩ | ⟨-, hne⟩
    · cases he
      cases hp
    · exact hne rfl
  rw [List.count_append, List.count_append] at hcopy hdrop
  unfold State.occurrences
  omega

variable {σ : Type} {x : Setting σ}

theorem Reaches.occurrences (hx : x.Fixed (.inMemory Host.refuse)) {c c' : Halt σ} (h : Reaches x c c') :
    c'.state.occurrences .nocopy ≤ c.state.occurrences .nocopy ∧
      c.state.occurrences .nodrop ≤ c'.state.occurrences .nodrop := by
  refine h.invariant (P := fun s => s.occurrences .nocopy ≤ c.state.occurrences .nocopy ∧
    c.state.occurrences .nodrop ≤ s.occurrences .nodrop) hx ?_ ⟨le_refl _, le_refl _⟩
  intro s v s' hm hs
  have hturn := hm.occurrences
  exact ⟨hturn.1.trans hs.1, hs.2.trans hturn.2⟩

theorem State.occurrences_package (s : State) (p : Primitive) :
    s.package.block.occurrences p = s.occurrences p :=
  s.atoms_package.count_eq (.prim p)

/-- No turn adds a marker that forbids copying or loses one that forbids dropping;
hence no run does, whatever the block shares in memory, and its result holds at
most the former and at least the latter of the block. -/
theorem markers_of_reaches (host : Host σ) (quota clock : Nat) (b : Cell) (memory : σ) :
    let unnamed := host.nameless.setting
    let o := (reduceCell unnamed quota clock b memory).1
    (∀ c, Reaches unnamed ⟨quota, .initial clock b, memory⟩ c →
      (c.state.occurrences .nocopy ≤ b.block.occurrences .nocopy ∧
        b.block.occurrences .nodrop ≤ c.state.occurrences .nodrop) ∧
      ∀ v c', Turn unnamed c v c' →
        c'.state.occurrences .nocopy ≤ c.state.occurrences .nocopy ∧
          c.state.occurrences .nodrop ≤ c'.state.occurrences .nodrop) ∧
    o.block.occurrences .nocopy ≤ b.block.occurrences .nocopy ∧
    b.block.occurrences .nodrop ≤ o.block.occurrences .nodrop := by
  intro unnamed o
  have hfixed : unnamed.Fixed (.inMemory Host.refuse) := host.nameless_fixed.setting
  have hinitial : ∀ p, (State.initial clock b).occurrences p = b.block.occurrences p := by
    intro p
    rw [State.occurrences, State.initial_atoms, Block.occurrences, Cell.atoms]
  have hbound : ∀ c, Reaches unnamed ⟨quota, .initial clock b, memory⟩ c →
      c.state.occurrences .nocopy ≤ b.block.occurrences .nocopy ∧
        b.block.occurrences .nodrop ≤ c.state.occurrences .nodrop := by
    intro c hc
    have hr := Reaches.occurrences hfixed hc
    rwa [hinitial, hinitial] at hr
  refine ⟨fun c hc => ⟨hbound c hc, fun v c' ht => (ht.move_of_fixed hfixed).occurrences⟩, ?_⟩
  have hend := hbound _ (reaches_resume unnamed ⟨quota, .initial clock b, memory⟩)
  rw [← State.occurrences_package, ← State.occurrences_package] at hend
  exact hend

/-- A value that may be copied but not dropped, a guard that finds both copies to be one and the
same although they hold a NaN, and a value that may be dropped but not copied. -/
theorem markers_of_reaches_copy_drop :
    let host := Host.ofAnswers Host.refuse
    let v : Block := .quote (.pair (.num ⟨0x7ff8000000000000⟩) (.prim .nodrop))
    let b := Cell.ofBlock (.pair (.pair v (.prim .copy))
      (.pair (.prim .eq) (.pair (.quote (.prim .nocopy)) (.prim .drop))))
    let halt := (⟨9, .initial 0 b, ()⟩ : Halt Unit).resume host.nameless.setting
    let o := (reduceCell host.nameless.setting 9 0 b ()).1
    b.block.occurrences .nocopy = 1 ∧ b.block.occurrences .nodrop = 1 ∧
      halt.state.occurrences .nocopy ≤ 1 ∧ 1 ≤ halt.state.occurrences .nodrop ∧
      o.block.occurrences .nocopy ≤ 1 ∧ 1 ≤ o.block.occurrences .nodrop ∧
      o.block = .pair v v ∧ o.fuelUsed = 3 ∧ o.stuck = 0 := by
  intro host v b halt o
  have hcopy : b.block.occurrences .nocopy = 1 := by decide
  have hdrop : b.block.occurrences .nodrop = 1 := by decide
  have ho : o = ⟨.pair v v, [], 3, 0, false⟩ := by
    simp only [o, host, b, v]
    cbv
  obtain ⟨hreached, hfew, hmany⟩ := markers_of_reaches host 9 0 b ()
  obtain ⟨⟨hless, hmore⟩, -⟩ := hreached halt (reaches_resume host.nameless.setting _)
  rw [hcopy] at hless hfew
  rw [hdrop] at hmore hmany
  exact ⟨hcopy, hdrop, hless, hmore, hfew, hmany, congrArg Outcome.block ho,
    congrArg Outcome.fuelUsed ho, congrArg Outcome.stuck ho⟩

end Reduction

end BlockCalculus
