import BlockCalculus.Proofs.Block.Atoms
import BlockCalculus.Proofs.Names.Resolution
import BlockCalculus.Proofs.Reduction.Structure

/-! Blocks whose names can be replaced by their answers without an operator
noticing. A run keeps to such blocks, since it brings in no atoms of its own. -/

namespace BlockCalculus

/-- The guards and the markers: they tell a name from what it stands for. -/
def Primitive.restraints : List Primitive :=
  [.eq, .neq, .nocopy, .nodrop, .noswap]

/-- There is no guard and no marker at any depth. -/
def Block.Plain (b : Block) : Prop :=
  ∀ p ∈ Primitive.restraints, .prim p ∉ b.atoms

namespace Cell

def atoms (c : Cell) : List Block :=
  c.block.atoms

@[simp] theorem atoms_empty : empty.atoms = [] :=
  rfl

@[simp] theorem atoms_prim (p : Primitive) : (prim p).atoms = [.prim p] :=
  rfl

@[simp] theorem atoms_quote (l : Label) (body : Cell) : (quote l body).atoms = body.atoms :=
  rfl

@[simp] theorem atoms_pair (l m : Label) (a b : Cell) : (pair l a m b).atoms = a.atoms ++ b.atoms :=
  rfl

@[simp] theorem atoms_var (name : String) : (var name).atoms = [.var name] :=
  rfl

@[simp] theorem atoms_copied (time : Nat) (c : Cell) : (c.copied time).atoms = c.atoms := by
  rw [atoms, block_copied, atoms]

@[simp] theorem atoms_append (a b : Cell) : (a.append b).atoms = a.atoms ++ b.atoms := by
  rw [atoms, block_append, ← Block.join_pair, Block.atoms_join]
  simp [atoms]

@[simp] theorem atoms_compose (cells : List Cell) : (compose cells).atoms = cells.flatMap atoms := by
  rw [atoms, block_compose, Block.atoms_compose, List.flatMap_map]
  rfl

end Cell

namespace Reduction

def State.atoms (s : State) : List Block :=
  (s.trash ++ s.data ++ s.work).flatMap Cell.atoms

theorem State.initial_atoms (clock : Nat) (c : Cell) : (State.initial clock c).atoms = c.atoms := by
  by_cases hc : c = .empty
  · subst hc
    rfl
  · simp [State.initial_of_ne_empty clock hc, State.atoms]

theorem State.atoms_package (s : State) : s.package.atoms.Perm s.atoms := by
  have hp : (s.trash.reverse ++ s.work ++ s.data.reverse).Perm (s.trash ++ s.data ++ s.work) := by
    rw [List.append_assoc, List.append_assoc]
    have hd := (List.reverse_perm s.data).append_left s.work
    exact (List.reverse_perm s.trash).append (hd.trans List.perm_append_comm)
  rw [State.package, Cell.atoms_compose]
  exact hp.flatMap_right _

theorem fires_mem_atoms {same : Cell → Cell → Bool} {time : Nat} {p : Primitive}
    {data code data' : List Cell} (h : p.Fires same time data code data') {x : Block}
    (hx : x ∈ (data' ++ code).flatMap Cell.atoms) : x ∈ data.flatMap Cell.atoms := by
  cases h with
  | app => simpa [or_comm] using hx
  | box => simpa using hx
  | cat => simpa [or_assoc, or_left_comm] using hx
  | copy _ => simpa using hx
  | drop _ => exact List.mem_append_right _ (by simpa using hx)
  | swap _ _ => simpa [or_left_comm] using hx
  | eq _ => simpa using hx
  | neq _ => simpa using hx

theorem Move.mem_atoms {o : Oracle} {s s' : State} {v : Verdict}
    (h : Move o s v s') {x : Block} (hx : x ∈ s'.atoms) :
    x ∈ s.atoms ∨ ∃ n body, .var n ∈ s.atoms ∧ o.resolve n = .ok body ∧ x ∈ body.atoms := by
  unfold State.atoms at hx ⊢
  cases h with
  | skip => exact .inl (by simpa using hx)
  | split => exact .inl (by simpa using hx)
  | push _ => exact .inl (by simpa [or_left_comm, or_assoc] using hx)
  | aside =>
    left
    simp only [List.flatMap_append, List.flatMap_cons, List.mem_append] at hx ⊢
    tauto
  | @fire p code work data data' trash _ _ _ hf =>
    left
    have hm := fires_mem_atoms (x := x) hf
    simp only [List.flatMap_append, List.flatMap_cons, List.mem_append] at hx hm ⊢
    tauto
  | @resolve n body work data trash _ _ _ ha =>
    simp only [List.flatMap_append, List.flatMap_cons, List.mem_append] at hx ⊢
    rcases hx with hx | hx | hx
    · exact .inl (.inl hx)
    · exact .inr ⟨n, body, .inr (.inl (by simp)), ha, hx⟩
    · exact .inl (.inr (.inr hx))
  | discard _ =>
    left
    simp only [List.flatMap_append, List.flatMap_cons, List.flatMap_nil, List.mem_append,
      List.not_mem_nil] at hx ⊢
    tauto

section Unanswered

variable {σ : Type} {y : Setting σ}

theorem Reaches.mem_atoms (hy : y.Fixed (.inMemory Host.refuse)) {c c' : Halt σ} (h : Reaches y c c') :
    ∀ x ∈ c'.state.atoms, x ∈ c.state.atoms := by
  refine h.invariant (P := fun s => ∀ x ∈ s.atoms, x ∈ c.state.atoms) hy ?_ fun _ hx => hx
  intro s v s' hm hs x hx
  rcases hm.mem_atoms hx with hx | ⟨n, body, -, ha, -⟩
  · exact hs x hx
  · cases ha

theorem mem_atoms_of_mem_reduceCell (hy : y.Fixed (.inMemory Host.refuse)) {quota clock : Nat} {c : Cell}
    {memory : σ} {x : Block} (hx : x ∈ (reduceCell y quota clock c memory).1.block.atoms) : x ∈ c.atoms := by
  let start : Halt σ := ⟨quota, .initial clock c, memory⟩
  have hstate : x ∈ (start.resume y).state.atoms := (State.atoms_package _).mem_iff.mp hx
  have hinitial := (reaches_resume y start).mem_atoms hy x hstate
  rwa [State.initial_atoms] at hinitial

end Unanswered

variable {answers : String → Except ReadError Block}

/-- All names are answered, and with the answers in their place the block is
plain. -/
structure Tame (answers : String → Except ReadError Block) (b : Block) : Prop where
  named : ∀ n ∈ b.names, ∃ c, answers n = .ok c
  plain : (b.filled answers).Plain

theorem tame_iff {b : Block} : Tame answers b ↔ ∀ x ∈ b.atoms, Tame answers x := by
  constructor
  · rintro ⟨hn, hp⟩ x hx
    refine ⟨fun n h => hn n ?_, fun p hr h => hp p hr ?_⟩
    · have hm := Block.mem_names_iff.mp h
      rw [Block.atoms_of_mem_atoms hx, List.mem_singleton] at hm
      exact Block.mem_names_iff.mpr (hm ▸ hx)
    · rw [Block.atoms_filled]
      exact List.mem_flatMap.mpr ⟨x, hx, h⟩
  · intro h
    refine ⟨fun n hn => ?_, fun p hr hp => ?_⟩
    · exact (h _ (Block.mem_names_iff.mp hn)).named n (List.mem_singleton.mpr rfl)
    · rw [Block.atoms_filled] at hp
      obtain ⟨x, hx, hp⟩ := List.mem_flatMap.mp hp
      exact (h x hx).plain p hr hp

theorem Tame.answer (ha : ∀ n body, answers n = .ok body → body.names = []) {n : String} {body : Block}
    (h : Tame answers (.var n)) (hb : answers n = .ok body) : Tame answers body := by
  have hn := ha n body hb
  refine ⟨by simp [hn], ?_⟩
  have hf : body.filled answers = (Block.var n).filled answers := by
    rw [Block.filled, Block.fill_of_names_eq_nil hn, Block.filled, Block.fill, Block.answerPieces, hb]
  rw [hf]
  exact h.plain

theorem Move.tame {o : Oracle} (ho : ∀ n, (o.resolve n).map Cell.block = answers n)
    (ha : ∀ n body, answers n = .ok body → body.names = []) {s s' : State} {v : Verdict}
    (h : Move o s v s') (hs : ∀ x ∈ s.atoms, Tame answers x) : ∀ x ∈ s'.atoms, Tame answers x := by
  intro x hx
  rcases h.mem_atoms hx with hx | ⟨n, body, hn, hb, hx⟩
  · exact hs x hx
  · have hb' : answers n = .ok body.block := by rw [← ho, hb]; rfl
    exact tame_iff.mp ((hs _ hn).answer ha hb') x hx

theorem Tame.has {b : Block} (h : Tame answers b) (c : Capability) : b.has c := by
  refine Block.has_iff.mpr fun hm => ?_
  have hp := (tame_iff.mp h _ hm).plain c.marker
  cases c <;> simp [Primitive.restraints, Capability.marker, Block.filled, Block.fill, Block.ofItems,
    Block.atoms] at hp

theorem Tame.has_filled {b : Block} (h : Tame answers b) (c : Capability) :
    (b.filled answers).has c :=
  Block.has_iff.mpr (h.plain c.marker (by cases c <;> decide))

/-- Filling commutes with the rule table, whatever is shared. -/
theorem Tame.fire_filled {p : Primitive} (hp : Tame answers (.prim p)) {data e : List Cell}
    (hd : ∀ v ∈ data, v.block.isValue ∧ v.block.isNormal) (ht : ∀ v ∈ data, Tame answers v.block)
    (he : e.map Cell.block = data.map fun c => c.block.filled answers) (same same' : Cell → Cell → Bool)
    (time time' : Nat) :
    Option.Rel (fun r r' => r'.1.map Cell.block = r.1.map (fun c => c.block.filled answers) ∧
      r'.2.map Cell.block = r.2.map fun c => c.block.filled answers)
      (p.fire same time data) (p.fire same' time' e) := by
  have hr : p ∉ Primitive.restraints := fun hr => hp.plain p hr (List.mem_singleton.mpr rfl)
  cases data with
  | nil =>
    rw [List.map_eq_nil_iff.mp he]
    cases p <;> exact .none
  | cons v data =>
    obtain ⟨x, e, rfl, hx, hrest⟩ := List.map_eq_cons_iff.mp he
    obtain ⟨hv, hd⟩ := List.forall_mem_cons.mp hd
    obtain ⟨htv, ht⟩ := List.forall_mem_cons.mp ht
    have hhas (c : Capability) : x.block.has c := hx ▸ htv.has_filled c
    cases p with
    | box => exact .some ⟨rfl, congrArg₂ List.cons (congrArg Block.quote hx) hrest⟩
    | app =>
      cases v with
      | quote l body =>
        obtain ⟨m, b, rfl, hb⟩ := Cell.exists_quote_of_block hx
        exact .some ⟨congrArg (fun c => [c]) hb, hrest⟩
      | link | num => cases x <;> first | exact .none | cases hx
      | _ => cases hv.1
    | copy =>
      rw [Primitive.fire, Primitive.fire, if_pos (htv.has .copy), if_pos (hhas .copy)]
      exact .some ⟨rfl, by simp [hx, hrest]⟩
    | drop =>
      rw [Primitive.fire, Primitive.fire, if_pos (htv.has .drop), if_pos (hhas .drop)]
      exact .some ⟨rfl, hrest⟩
    | cat =>
      cases data with
      | nil =>
        rw [List.map_eq_nil_iff.mp hrest]
        cases v <;> cases x <;> exact .none
      | cons w data =>
        obtain ⟨y, e, rfl, hy, hbelow⟩ := List.map_eq_cons_iff.mp hrest
        obtain ⟨hw, -⟩ := List.forall_mem_cons.mp hd
        cases v with
        | quote l upper =>
          obtain ⟨l', upper', rfl, hu⟩ := Cell.exists_quote_of_block hx
          cases w with
          | quote m lower =>
            obtain ⟨m', lower', rfl, hl⟩ := Cell.exists_quote_of_block hy
            have hn : ∀ b ∈ [lower.block, upper.block], b.isNormal := by
              simpa using ⟨hw.2, hv.2⟩
            have hj : (Block.join [lower.block, upper.block]).filled answers = _ := Block.filled_join hn
            refine .some ⟨rfl, congrArg₂ List.cons ?_ hbelow⟩
            change Block.quote (lower'.append upper').block = .quote ((lower.append upper).block.filled answers)
            rw [Cell.block_append, Cell.block_append, ← Block.join_pair, ← Block.join_pair, hj, hl, hu]
            rfl
          | link | num => cases y <;> first | exact .none | cases hy
          | _ => cases hw.1
        | link | num => cases x <;> first | exact .none | cases hx
        | _ => cases hv.1
    | swap =>
      cases data with
      | nil =>
        rw [List.map_eq_nil_iff.mp hrest]
        exact .none
      | cons w data =>
        obtain ⟨y, e, rfl, hy, hbelow⟩ := List.map_eq_cons_iff.mp hrest
        obtain ⟨htw, -⟩ := List.forall_mem_cons.mp ht
        have hy' : y.block.has .swap := hy ▸ htw.has_filled .swap
        simp only [Primitive.fire, htv.has, htw.has, hhas, hy', Bool.and_self, if_true]
        exact .some ⟨rfl, by simp [hx, hy, hbelow]⟩
    | tag => exact .none
    | _ => simp [Primitive.restraints] at hr

theorem Tame.fires_filled {p : Primitive} (hp : Tame answers (.prim p)) {data code data' e : List Cell}
    (hd : ∀ v ∈ data, v.block.isValue ∧ v.block.isNormal) (ht : ∀ v ∈ data, Tame answers v.block)
    (he : e.map Cell.block = data.map fun c => c.block.filled answers) {same : Cell → Cell → Bool}
    {time : Nat} (h : p.Fires same time data code data') (same' : Cell → Cell → Bool) (time' : Nat) :
    ∃ code' e', p.Fires same' time' e code' e' ∧
      code'.map Cell.block = code.map (fun c => c.block.filled answers) ∧
      e'.map Cell.block = data'.map fun c => c.block.filled answers := by
  have hrel := hp.fire_filled hd ht he same same' time time'
  rw [h.fire_eq] at hrel
  cases hf : p.fire same' time' e with
  | none =>
    rw [hf] at hrel
    cases hrel
  | some r =>
    rw [hf] at hrel
    cases hrel with
    | some hr => exact ⟨r.1, r.2, Primitive.fires_of_fire hf, hr⟩

theorem Tame.fire_filled_eq_none {p : Primitive} (hp : Tame answers (.prim p)) {data e : List Cell}
    (hd : ∀ v ∈ data, v.block.isValue ∧ v.block.isNormal) (ht : ∀ v ∈ data, Tame answers v.block)
    (he : e.map Cell.block = data.map fun c => c.block.filled answers) {same : Cell → Cell → Bool}
    {time : Nat} (h : p.fire same time data = none) (same' : Cell → Cell → Bool) (time' : Nat) :
    p.fire same' time' e = none := by
  have hrel := hp.fire_filled hd ht he same same' time time'
  rw [h] at hrel
  cases hf : p.fire same' time' e with
  | none => rfl
  | some r =>
    rw [hf] at hrel
    cases hrel

end Reduction

end BlockCalculus
