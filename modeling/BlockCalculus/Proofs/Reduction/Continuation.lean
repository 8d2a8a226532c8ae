import BlockCalculus.Proofs.Reduction.Invariant
import Mathlib.Data.List.Basic

/-! What a run depends on. How the continuation is composed makes no difference,
and code waiting behind it runs as if the rest had been run alone. -/

namespace BlockCalculus

namespace Cell

/-- The parts in program order that are no compositions. -/
def leaves : Cell → List Cell
  | pair _ a _ b => a.leaves ++ b.leaves
  | c => [c]

theorem leaves_ne_nil (c : Cell) : c.leaves ≠ [] := by
  induction c with
  | pair _ a _ b iha _ => simp [leaves, iha]
  | _ => simp [leaves]

theorem leaves_of_isPair_eq_false {c : Cell} (h : c.block.isPair = false) : c.leaves = [c] := by
  cases c <;> simp_all [leaves, block, Block.isPair]

theorem flatMap_pieces_leaves (c : Cell) : c.leaves.flatMap pieces = c.pieces := by
  induction c with
  | pair _ a _ b iha ihb => simp [leaves, pieces, iha, ihb]
  | _ => simp [leaves]

theorem leaves_of_isPiece {c : Cell} (h : c.block.isPiece) : c.leaves = [c] :=
  leaves_of_isPair_eq_false (by simp_all [Block.isPiece])

theorem leaves_of_isNormal {c : Cell} (hn : c.block.isNormal) (hne : c ≠ empty) :
    c.leaves = c.pieces := by
  induction c with
  | empty => exact (hne rfl).elim
  | pair l a m b _ ihb =>
    obtain ⟨ha, hbe, hb⟩ := Block.isNormal_pair_iff.mp hn
    have hb' : b ≠ empty := by
      rintro rfl
      cases hbe
    rw [leaves, pieces, leaves_of_isPiece ha, pieces_of_isPiece ha, ihb hb hb']
  | quote l body => exact (pieces_of_isPiece (c := quote l body) hn).symm
  | _ => rfl

end Cell

theorem Block.isPair_of_isValue {b : Block} (h : b.isValue) : b.isPair = false := by
  cases b <;> first | rfl | cases h

namespace Reduction

variable {o : Oracle}

/-- The states differ at most in how their continuations are composed. -/
structure Alike (s t : State) : Prop where
  work : s.work.flatMap Cell.leaves = t.work.flatMap Cell.leaves
  data : s.data = t.data
  trash : s.trash = t.trash
  tags : s.tags = t.tags
  stuck : s.stuck = t.stuck
  clock : s.clock = t.clock

theorem flatMap_leaves_eq_nil_iff {l : List Cell} : l.flatMap Cell.leaves = [] ↔ l = [] := by
  cases l with
  | nil => simp
  | cons b l => simp [Cell.leaves_ne_nil]

theorem Alike.work_eq_nil_iff {s t : State} (h : Alike s t) : s.work = [] ↔ t.work = [] := by
  rw [← flatMap_leaves_eq_nil_iff, h.work, flatMap_leaves_eq_nil_iff]

theorem Alike.pieces_package {s t : State} (h : Alike s t) : s.package.pieces = t.package.pieces := by
  have hw (l : List Cell) : l.flatMap Cell.pieces = (l.flatMap Cell.leaves).flatMap Cell.pieces := by
    rw [List.flatMap_assoc]
    exact List.flatMap_congr fun c _ => (Cell.flatMap_pieces_leaves c).symm
  simp only [State.package, Cell.pieces_compose, List.flatMap_append, hw s.work, hw t.work, h.work,
    h.data, h.trash]

theorem Alike.block_package {s t : State} (h : Alike s t) : s.package.block = t.package.block := by
  apply Block.eq_of_pieces_eq (Cell.isNormal_compose _) (Cell.isNormal_compose _)
  rw [← Cell.block_pieces, ← Cell.block_pieces]
  exact congrArg (List.map Cell.block) h.pieces_package

theorem runWith_leaf (o : Oracle) {t : State} {c : Cell} {l : List Cell}
    (h : t.work.flatMap Cell.leaves = c :: l) :
    ∃ rest, rest.flatMap Cell.leaves = l ∧ ∀ fuel,
      t.runWith o (fuel + 1) = { t with work := c :: rest }.runWith o (fuel + 1) := by
  obtain ⟨work, data, trash, tags, stuck, time⟩ := t
  cases work with
  | nil => cases h
  | cons x work =>
    induction x generalizing work with
    | pair _ y _ z ihy _ =>
      obtain ⟨rest, hr, hrun⟩ := ihy (z :: work) (by simpa [Cell.leaves] using h)
      exact ⟨rest, hr, fun fuel => (runWith_of_move .split fuel).trans (hrun fuel)⟩
    | _ =>
      obtain ⟨rfl, hr⟩ := List.cons.inj h
      exact ⟨work, hr, fun _ => rfl⟩

theorem Alike.leaf {c : Cell} {work data trash tags : List Cell} {n time : Nat} {t : State}
    (h : Alike ⟨c :: work, data, trash, tags, n, time⟩ t) (hc : c.block.isPair = false) :
    ∃ rest, work.flatMap Cell.leaves = rest.flatMap Cell.leaves ∧ ∀ fuel,
      t.runWith o (fuel + 1) = State.runWith o (fuel + 1) ⟨c :: rest, data, trash, tags, n, time⟩ := by
  obtain ⟨hw, rfl, rfl, rfl, rfl, rfl, rfl⟩ := h
  have hl : t.work.flatMap Cell.leaves = c :: work.flatMap Cell.leaves := by
    rw [← hw, List.flatMap_cons, Cell.leaves_of_isPair_eq_false hc]
    rfl
  obtain ⟨rest, hr, hrun⟩ := runWith_leaf o hl
  exact ⟨rest, hr.symm, hrun⟩

theorem runWith_alike {s t : State} (h : Alike s t) (fuel : Nat) :
    (t.runWith o fuel).fuel = (s.runWith o fuel).fuel ∧
      Alike (s.runWith o fuel).state (t.runWith o fuel).state := by
  induction fuel, s using runWith_induction o generalizing t with
  | spent s =>
    rw [runWith_zero, runWith_zero]
    exact ⟨rfl, h⟩
  | done fuel s hw =>
    rw [runWith_of_done hw, runWith_of_done (h.work_eq_nil_iff.mp hw)]
    exact ⟨rfl, h⟩
  | move fuel s v s' hm ih =>
    rw [runWith_of_move hm]
    cases hm with
    | split =>
      exact ih ⟨by rw [← h.work]; simp [Cell.leaves], h.data, h.trash, h.tags, h.stuck, h.clock⟩
    | skip =>
      obtain ⟨rest, hr, hrun⟩ := h.leaf rfl
      rw [hrun, runWith_of_move .skip]
      exact ih ⟨hr, rfl, rfl, rfl, rfl, rfl⟩
    | push hv =>
      obtain ⟨rest, hr, hrun⟩ := h.leaf (Block.isPair_of_isValue hv)
      rw [hrun, runWith_of_move (.push hv)]
      exact ih ⟨hr, rfl, rfl, rfl, rfl, rfl⟩
    | aside =>
      obtain ⟨rest, hr, hrun⟩ := h.leaf rfl
      rw [hrun, runWith_of_move .aside]
      exact ih ⟨hr, rfl, rfl, rfl, rfl, rfl⟩
    | fire hf =>
      obtain ⟨rest, hr, hrun⟩ := h.leaf rfl
      rw [hrun, runWith_of_move (.fire hf)]
      exact ih ⟨by simp [hr], rfl, rfl, rfl, rfl, rfl⟩
    | resolve ha =>
      obtain ⟨rest, hr, hrun⟩ := h.leaf rfl
      rw [hrun, runWith_of_move (.resolve ha)]
      exact ih ⟨by simp [hr], rfl, rfl, rfl, rfl, rfl⟩
    | discard hb =>
      obtain ⟨rest, hr, hrun⟩ := h.leaf (by cases hb <;> rfl)
      rw [hrun, runWith_of_move (.discard hb)]
      exact ih ⟨hr, rfl, rfl, rfl, rfl, rfl⟩

/-! Continuations in normal form. -/

def Solid (work : List Cell) : Prop :=
  ∀ c ∈ work, c.block.isNormal ∧ c ≠ .empty

/-- No entry is empty, except perhaps the next one. -/
def Tidy : List Cell → Prop
  | [] => True
  | c :: work => c.block.isNormal ∧ Solid work

theorem Solid.tidy {work : List Cell} (h : Solid work) : Tidy work := by
  cases work with
  | nil => trivial
  | cons b work =>
    obtain ⟨hb, hw⟩ := List.forall_mem_cons.mp h
    exact ⟨hb.1, hw⟩

theorem Tidy.solid (o : Oracle) {work : List Cell} (h : Tidy work)
    (data trash tags : List Cell) (n time : Nat) :
    ∃ work', Solid work' ∧ work'.flatMap Cell.pieces = work.flatMap Cell.pieces ∧ ∀ fuel,
      State.runWith o (fuel + 1) ⟨work, data, trash, tags, n, time⟩ =
        State.runWith o (fuel + 1) ⟨work', data, trash, tags, n, time⟩ := by
  cases work with
  | nil => exact ⟨[], List.forall_mem_nil _, rfl, fun _ => rfl⟩
  | cons b work =>
    by_cases hb : b = .empty
    · subst hb
      exact ⟨work, h.2, by simp [Cell.pieces], fun fuel => runWith_of_move .skip fuel⟩
    · exact ⟨b :: work, List.forall_mem_cons.mpr ⟨⟨h.1, hb⟩, h.2⟩, rfl, fun _ => rfl⟩

theorem State.initial_tidy (clock : Nat) (c : Cell) : Tidy (State.initial clock c).work := by
  by_cases hc : c = .empty
  · subst hc
    trivial
  · rw [State.initial_of_ne_empty clock hc]
    exact ⟨Cell.isNormal_compose [c], List.forall_mem_nil _⟩

theorem Move.tidy (hn : ∀ n body, o.resolve n = .ok body → body.block.isNormal) {s s' : State} {v : Verdict}
    (h : Move o s v s') (hs : s.Normal) (ht : Tidy s.work) : Tidy s'.work := by
  obtain ⟨hb, hw⟩ : (s.work.headD .empty).block.isNormal ∧ Solid s.work.tail := by
    cases h <;> exact ht
  cases h with
  | skip | push _ | aside | discard _ => exact hw.tidy
  | @split l m a b =>
    obtain ⟨ha, hbe, hbn⟩ := Block.isNormal_pair_iff.mp hb
    have hne : b ≠ .empty := by
      rintro rfl
      cases hbe
    exact ⟨Block.isNormal_of_isPiece ha, List.forall_mem_cons.mpr ⟨⟨hbn, hne⟩, hw⟩⟩
  | fire hf =>
    have hcode := (fires_normal hf hs.data).1
    cases hf with
    | app => exact ⟨hcode _ List.mem_cons_self, hw⟩
    | _ => exact hw.tidy
  | resolve ha => exact ⟨hn _ _ ha, hw⟩

theorem Solid.flatMap_leaves {work : List Cell} (h : Solid work) :
    (work.flatMap Cell.pieces).flatMap Cell.leaves = work.flatMap Cell.leaves := by
  rw [List.flatMap_assoc]
  refine List.flatMap_congr fun c hc => ?_
  obtain ⟨hn, hne⟩ := h c hc
  have hl : c.pieces.flatMap Cell.leaves = c.pieces.flatMap fun x => [x] :=
    List.flatMap_congr fun x hx => Cell.leaves_of_isPiece (Cell.isPiece_of_mem_pieces hx)
  rw [hl, Cell.leaves_of_isNormal hn hne, List.flatMap_singleton']

/-- The pieces of a tidy continuation run as the continuation does. -/
theorem Tidy.alike (o : Oracle) {work : List Cell} (h : Tidy work)
    (data trash tags : List Cell) (n time : Nat) :
    ∃ t, Alike ⟨work.flatMap Cell.pieces, data, trash, tags, n, time⟩ t ∧ ∀ fuel,
      State.runWith o (fuel + 1) ⟨work, data, trash, tags, n, time⟩ = t.runWith o (fuel + 1) := by
  obtain ⟨work', hsolid, hp, hrun⟩ := h.solid o data trash tags n time
  refine ⟨⟨work', data, trash, tags, n, time⟩, ⟨?_, rfl, rfl, rfl, rfl, rfl⟩, hrun⟩
  rw [← hp]
  exact hsolid.flatMap_leaves

/-- Code waits behind the continuation, and tags have been set aside before. -/
def State.frame (s : State) (rest tags : List Cell) : State :=
  { s with work := s.work ++ rest, tags := s.tags ++ tags }

theorem Move.frame {s s' : State} {v : Verdict} (h : Move o s v s') (rest tags : List Cell) :
    Move o (s.frame rest tags) v (s'.frame rest tags) := by
  cases h with
  | skip => exact .skip
  | split => exact .split
  | push hv => exact .push hv
  | aside => exact .aside
  | fire hf =>
    simp only [State.frame, List.append_assoc]
    exact .fire hf
  | resolve ha => exact .resolve ha
  | discard hb => exact .discard hb

theorem runWith_frame_tags (s : State) (tags : List Cell) (fuel : Nat) :
    (s.frame [] tags).runWith o fuel =
      ⟨(s.runWith o fuel).fuel, (s.runWith o fuel).state.frame [] tags, ()⟩ := by
  induction fuel, s using runWith_induction o with
  | spent s => rw [runWith_zero, runWith_zero]
  | done fuel s h => rw [runWith_of_done h, runWith_of_done (by simpa [State.frame] using h)]
  | move fuel s v s' h ih => rw [runWith_of_move h, runWith_of_move (h.frame [] tags), ih]

/-- A run that comes to its end is a stretch of the run with code behind it, as
long as some budget is left for that code. -/
theorem runWith_frame {s : State} {fuel : Nat} (hd : (s.runWith o fuel).state.work = [])
    (rest tags : List Cell) {q : Nat} (hq : 0 < q) :
    (s.frame rest tags).runWith o (fuel - (s.runWith o fuel).fuel + q) =
      ((s.runWith o fuel).state.frame rest tags).runWith o q := by
  induction fuel, s using runWith_induction o with
  | spent s => simp [runWith_zero]
  | done fuel s h => simp [runWith_of_done h]
  | move fuel s v s' h ih =>
    rw [runWith_of_move h] at hd ⊢
    have hle : (s'.runWith o (fuel + 1 - v.cost)).fuel ≤ _ := runWith_fuel_le _ s'
    have hc : v.cost ≤ 1 := by cases v <;> decide
    obtain ⟨k, hk⟩ : ∃ k, fuel + 1 - (s'.runWith o (fuel + 1 - v.cost)).fuel + q = k + 1 :=
      ⟨_, (Nat.succ_pred (by omega)).symm⟩
    rw [hk, runWith_of_move (h.frame rest tags), ← ih hd]
    congr 1
    omega

end Reduction

end BlockCalculus
