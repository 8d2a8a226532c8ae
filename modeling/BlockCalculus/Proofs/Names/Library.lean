import BlockCalculus.Names.Library
import BlockCalculus.Proofs.Names.Replacement
import BlockCalculus.Proofs.Names.Resolution

/-! What stands for a name shares nothing. Substitution builds every quotation and
every composition again, so names are answered with what would be built for the
blocks alone. -/

namespace BlockCalculus

namespace Cell

theorem substitute_pair {m : Type → Type} [Monad m] [LawfulMonad m] (lookup : String → m Cell)
    (l l' : Label) (a b : Cell) :
    (pair l a l' b).substitute lookup =
      compose <$> (pair l a l' b).items.mapM (substitute lookup) := by
  have hattach : (pair l a l' b).items.attach.mapM (fun entry => entry.1.substitute lookup) =
      (pair l a l' b).items.mapM (substitute lookup) := by
    conv_rhs => rw [← List.attach_map_subtype_val (pair l a l' b).items, List.mapM_map]
    rfl
  rw [substitute, hattach, map_eq_pure_bind]

theorem mapM_ofBlock {m : Type → Type} [Monad m] [LawfulMonad m] {f : Cell → m Cell} {g : Block → m Block}
    {cells : List Cell} (h : ∀ c ∈ cells, f c = ofBlock <$> g c.block) :
    cells.mapM f = List.map ofBlock <$> (cells.map block).mapM g := by
  induction cells with
  | nil => simp
  | cons c cells ih =>
    obtain ⟨hc, hcells⟩ := List.forall_mem_cons.mp h
    simp [hc, ih hcells]

/-- Where names are answered with nothing shared, nothing is shared in what replaces
them, nor around it. -/
theorem substitute_ofBlock {m : Type → Type} [Monad m] [LawfulMonad m] {lookup : String → m Cell}
    {lookup' : String → m Block} (hl : ∀ n, lookup n = ofBlock <$> lookup' n) (c : Cell) :
    c.substitute lookup = ofBlock <$> c.block.substituteInPlace lookup' := by
  induction c using substitute.induct with
  | case1 name => rw [substitute, block, Block.substituteInPlace, hl]
  | case2 l body ih => simp [substitute, block, Block.substituteInPlace, ih, ofBlock]
  | case3 l a l' b ih =>
    rw [substitute_pair, mapM_ofBlock fun entry he => ih ⟨entry, he⟩, block_items, block,
      Block.substituteInPlace_pair]
    simp [compose_map_ofBlock, Block.composeInPlace_eq_compose]
  | case4 c hvar hquote hpair =>
    cases c with
    | var name => exact (hvar name rfl).elim
    | quote l body => exact (hquote l body rfl).elim
    | pair l a l' b => exact (hpair l a l' b rfl).elim
    | _ => simp [substitute, block, Block.substituteInPlace, ofBlock]

end Cell

namespace Library

variable {d : Library}

theorem find?_definitions (d : Library) (n : String) : d.definitions.find? n = (d.find? n).map Cell.block := by
  unfold Definitions.find? definitions find?
  induction d.entries with
  | nil => rfl
  | cons e entries ih =>
    rw [List.map_cons, List.lookup_cons, List.lookup_cons, ih]
    cases n == e.1 <;> rfl

/-- Names are answered with what their definitions come to, and nothing in the answers
is shared. -/
theorem expand_eq (d : Library) (inFlight : List String) (n : String) :
    d.expand inFlight n = (d.definitions.expand inFlight n).map Cell.ofBlock := by
  induction inFlight, n using expand.induct d with
  | case1 inFlight n hn =>
    rw [expand, Definitions.expand, dif_pos hn, dif_pos hn]
    rfl
  | case2 inFlight n hn hf =>
    have hf' : d.definitions.find? n = none := by rw [find?_definitions, hf]; rfl
    rw [Definitions.expand_of_undefined hn hf', expand, dif_neg hn]
    split <;> simp_all [Except.map]
  | case3 inFlight n hn body hf ih =>
    have hf' : d.definitions.find? n = some body.block := by rw [find?_definitions, hf]; rfl
    have hnormal (k : String) (a : Block) (h : d.definitions.expand (n :: inFlight) k = .ok a) : a.isNormal :=
      Definitions.expand_isNormal h
    have hbody : body.substitute (d.expand (n :: inFlight)) =
        Cell.ofBlock <$> body.block.substituteInPlace (d.definitions.expand (n :: inFlight)) :=
      Cell.substitute_ofBlock ih body
    rw [Block.substituteInPlace_eq_substitute hnormal, ← Definitions.expand_of_find hn hf'] at hbody
    rw [expand, dif_neg hn]
    split
    · rename_i hnone
      cases hf.symm.trans hnone
    · rename_i found hsome
      obtain rfl : body = found := Option.some.inj (hf.symm.trans hsome)
      exact hbody

theorem resolve_eq (d : Library) (n : String) : d.resolve n = (d.definitions.resolve n).map Cell.ofBlock :=
  d.expand_eq [] n

/-- A run that resolves names in memory is a run with fixed answers that are built anew. -/
theorem setting_eq (d : Library) : d.setting = (Host.ofAnswers d.definitions.resolve).setting := by
  have he : (fun n (memory : Unit) => (d.resolve n, memory)) =
      fun n memory => ((d.definitions.resolve n).map Cell.ofBlock, memory) := by
    funext n memory
    rw [resolve_eq]
  exact congrArg (Setting.mk · (fun _ memory => memory) Cell.same) he

end Library

end BlockCalculus
