import BlockCalculus.Proofs.Names.Library
import BlockCalculus.Proofs.Reduction.Tame
import Mathlib

/-! Definitions that a program cannot come to do not matter to it. What a run asks for are
names of the program it started with, since what stands for a name holds no names. -/

namespace BlockCalculus

namespace Glossary

/-- Expansion looks up the names that a name leads to, and no others. -/
theorem expand_congr {g h : Glossary} {inFlight : List String} {n : String}
    (hb : ∀ m, g.LeadsTo n m → g.body m = h.body m) : g.expand inFlight n = h.expand inFlight n := by
  induction inFlight, n using expand.induct g with
  | case1 inFlight n hn => rw [expand_of_mem hn, expand_of_mem hn]
  | case2 inFlight n hn e he =>
    have he' : h.body n = .error e := (hb n .refl).symm.trans he
    rw [expand_of_error hn he, expand_of_error hn he']
  | case3 inFlight n hn b hbody ih =>
    have hbody' : h.body n = .ok b := (hb n .refl).symm.trans hbody
    rw [expand_of_body hn hbody, expand_of_body hn hbody']
    apply Block.substitute_congr
    intro k hk
    have hm : g.Mentions n k := ⟨b, hbody, hk⟩
    exact ih k fun m hkm => hb m (.head hm hkm)

end Glossary

namespace Definitions

theorem resolve_congr {d d' : Definitions} {n : String}
    (h : ∀ m, Relation.ReflTransGen d.Mentions n m → d.find? m = d'.find? m) :
    d.resolve n = d'.resolve n := by
  have hb : ∀ m, d.glossary.LeadsTo n m → d.glossary.body m = d'.glossary.body m := by
    intro m hm
    rw [Glossary.LeadsTo, glossary_mentions] at hm
    simp only [glossary, h m hm]
  rw [resolve, resolve, expand_eq_glossary, expand_eq_glossary, Glossary.expand_congr hb]

end Definitions

namespace Reduction

variable {answers answers' : String → Except ReadError Block}

def SameAnswers (answers answers' : String → Except ReadError Block) (s : State) : Prop :=
  ∀ n, .var n ∈ s.atoms → answers n = answers' n

theorem SameAnswers.initial {clock : Nat} {c : Cell} (h : ∀ n ∈ c.block.names, answers n = answers' n) :
    SameAnswers answers answers' (.initial clock c) := by
  intro n hn
  rw [State.initial_atoms] at hn
  exact h n (Block.mem_names_iff.mpr hn)

theorem SameAnswers.resolve_eq {name : String} {work data trash tags : List Cell} {k time : Nat}
    (h : SameAnswers answers answers' ⟨.var name :: work, data, trash, tags, k, time⟩) :
    (Oracle.inMemory answers).resolve name = (Oracle.inMemory answers').resolve name :=
  congrArg (Except.map Cell.ofBlock) (h name (by simp [State.atoms]))

theorem SameAnswers.move {s s' : State} {v : Verdict} (h : SameAnswers answers answers' s)
    (hm : Move (.inMemory answers) s v s') : Move (.inMemory answers') s v s' := by
  cases hm with
  | skip => exact .skip
  | split => exact .split
  | push hv => exact .push hv
  | aside => exact .aside
  | fire hf => exact .fire hf
  | resolve ha => exact .resolve (h.resolve_eq.symm.trans ha)
  | discard hs =>
    cases hs with
    | operator ht hf => exact .discard (.operator ht hf)
    | name ha => exact .discard (.name (h.resolve_eq.symm.trans ha))

theorem SameAnswers.next (hnames : ∀ n body, answers n = .ok body → body.names = []) {s s' : State}
    {v : Verdict} (h : SameAnswers answers answers' s) (hm : Move (.inMemory answers) s v s') :
    SameAnswers answers answers' s' := by
  intro n hn
  rcases hm.mem_atoms hn with hn | ⟨k, body, -, hr, hn⟩
  · exact h n hn
  · obtain ⟨b, hb, rfl⟩ := Oracle.inMemory_resolve_eq_ok_iff.mp hr
    rw [Cell.atoms, Cell.block_ofBlock] at hn
    have hk : n ∈ b.names := Block.mem_names_iff.mpr hn
    rw [hnames k b hb] at hk
    cases hk

theorem runWith_congr (hnames : ∀ n body, answers n = .ok body → body.names = []) {s : State}
    (h : SameAnswers answers answers' s) (fuel : Nat) :
    s.runWith (.inMemory answers) fuel = s.runWith (.inMemory answers') fuel := by
  induction fuel, s using runWith_induction (.inMemory answers) with
  | spent s => rw [runWith_zero, runWith_zero]
  | done fuel s hw => rw [runWith_of_done hw, runWith_of_done hw]
  | move fuel s v s' hm ih =>
    rw [runWith_of_move hm, runWith_of_move (h.move hm)]
    exact ih (h.next hnames hm)

theorem reduceShared_congr (hnames : ∀ n body, answers n = .ok body → body.names = []) {c : Cell}
    (h : ∀ n ∈ c.block.names, answers n = answers' n) (quota clock : Nat) :
    reduceShared answers quota clock c = reduceShared answers' quota clock c :=
  congrArg (Outcome.ofHalt quota) (runWith_congr hnames (.initial h) quota)

/-- Definitions that agree on all that the names of a block lead to, be it a body or a gap,
make no difference to reducing the block or to replacing its names, whatever is shared in
the block and in the bodies. -/
theorem reduceCell_by_relevant {d d' : Library} {c : Cell}
    (h : ∀ n ∈ c.block.names, ∀ m, Relation.ReflTransGen d.definitions.Mentions n m →
      d.definitions.find? m = d'.definitions.find? m) :
    (∀ quota clock,
      (reduceCell d.setting quota clock c ()).1 = (reduceCell d'.setting quota clock c ()).1) ∧
      c.substitute d.resolve = c.substitute d'.resolve := by
  have hresolve : ∀ n ∈ c.block.names, d.definitions.resolve n = d'.definitions.resolve n := fun n hn =>
    Definitions.resolve_congr (h n hn)
  refine ⟨fun quota clock => ?_, ?_⟩
  · rw [Library.setting_eq, Library.setting_eq]
    exact reduceShared_congr d.definitions.names_of_resolve hresolve quota clock
  · have hnormal (d : Library) (n : String) (b : Block) (hb : d.definitions.resolve n = .ok b) : b.isNormal :=
      d.definitions.resolve_isNormal n b hb
    rw [Cell.substitute_ofBlock d.resolve_eq, Cell.substitute_ofBlock d'.resolve_eq,
      Block.substituteInPlace_eq_substitute (hnormal d), Block.substituteInPlace_eq_substitute (hnormal d'),
      Block.substitute_congr hresolve]

/-- Under the second definitions `spare` means something else, and the quotation in `nans` is
one in memory; what the program names leads to `once` as well, and to no body for `none`. The
two quotations that `nans` brings into the run are different ones under both, so `eq` gets
stuck on them. -/
theorem reduceCell_by_relevant_spare :
    let nan (l : Label) : Cell := .quote l (.num ⟨0x7ff8000000000000⟩)
    let one : Label := .shared 0 [.body]
    let d : Library := ⟨[("nans", .pair .sole (nan .sole) .sole (nan .sole)), ("once", .prim .eq),
      ("both", .pair .sole (.var "nans") .sole (.var "once")), ("spare", .var "both")]⟩
    let d' : Library := ⟨[("spare", .num ⟨7⟩), ("once", .prim .eq),
      ("both", .pair .sole (.var "nans") .sole (.var "once")),
      ("nans", .pair .sole (nan one) .sole (nan one))]⟩
    let c := Cell.ofBlock (.compose [.num ⟨1⟩, .quote (.var "both"), .prim .app, .var "none"])
    (∀ n ∈ c.block.names, ∀ m, Relation.ReflTransGen d.definitions.Mentions n m →
      d.definitions.find? m = d'.definitions.find? m) ∧
      d.definitions.find? "spare" ≠ d'.definitions.find? "spare" ∧
      (reduceCell d.setting 9 0 c ()).1.stuck = 2 ∧
      (∀ quota clock,
        (reduceCell d.setting quota clock c ()).1 = (reduceCell d'.setting quota clock c ()).1) ∧
      c.substitute d.resolve = c.substitute d'.resolve := by
  intro nan one d d' c
  have hclosed : ∀ n m, n ∈ ["both", "nans", "once", "none"] → d.definitions.Mentions n m →
      m ∈ ["both", "nans", "once", "none"] := by
    rintro n m hn ⟨body, hf, hm⟩
    simp only [List.mem_cons, List.not_mem_nil, or_false] at hn
    rcases hn with rfl | rfl | rfl | rfl
    · obtain rfl : Block.pair (.var "nans") (.var "once") = body := Option.some.inj hf
      rcases (by simpa [Block.names] using hm : m = "nans" ∨ m = "once") with rfl | rfl <;> decide
    · obtain rfl : (Cell.pair .sole (nan .sole) .sole (nan .sole)).block = body := Option.some.inj hf
      cases hm
    · obtain rfl : Block.prim .eq = body := Option.some.inj hf
      cases hm
    · cases hf
  have hagree : ∀ m ∈ ["both", "nans", "once", "none"], d.definitions.find? m = d'.definitions.find? m := by
    decide
  have hnames : ∀ n ∈ c.block.names, n ∈ ["both", "nans", "once", "none"] := by decide
  have h : ∀ n ∈ c.block.names, ∀ m, Relation.ReflTransGen d.definitions.Mentions n m →
      d.definitions.find? m = d'.definitions.find? m := by
    intro n hn m hnm
    apply hagree
    induction hnm with
    | refl => exact hnames n hn
    | tail _ hm ih => exact hclosed _ _ ih hm
  have hstuck : (reduceCell d.setting 9 0 c ()).1.stuck = 2 := by
    -- With its answers at hand the run can be followed turn by turn.
    let answers : String → Except ReadError Block := fun n =>
      if n = "both" then .ok (.compose [(nan .sole).block, (nan .sole).block, .prim .eq])
      else .error (.missing n .undefined)
    have hboth : d.definitions.resolve "both" = answers "both" := by
      simp only [d, nan, answers]
      cbv
    have hnone : d.definitions.resolve "none" = answers "none" := by
      simp only [d, nan, answers]
      cbv
    have hasked : c.block.names = ["both", "none"] := rfl
    have hfixed : reduceShared d.definitions.resolve 9 0 c = reduceShared answers 9 0 c :=
      reduceShared_congr d.definitions.names_of_resolve (by simp [hasked, hboth, hnone]) 9 0
    have hrun : (State.initial 0 c).runWith (.inMemory answers) 9 =
        ⟨7, ⟨[], [], [.var "none", .prim .eq, nan .sole, nan .sole, .num ⟨1⟩], [], 2, 2⟩, ()⟩ :=
      runWith_of_turns (n := 20) (c := ⟨9, _, ()⟩) rfl (.inr rfl)
    rw [Library.setting_eq]
    exact (congrArg Outcome.stuck hfixed).trans (congrArg (fun h => h.state.stuck) hrun)
  exact ⟨h, by decide, hstuck, reduceCell_by_relevant h⟩

end Reduction

end BlockCalculus
