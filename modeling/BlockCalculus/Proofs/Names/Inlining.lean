import BlockCalculus.Proofs.Names.Determined
import BlockCalculus.Proofs.Names.Glossary
import BlockCalculus.Proofs.Names.Resolution

/-! Resolution by definitions is inlining. It replaces names by what they resolve to, as
long as the definitions that a name leads to are complete and without a circle. -/

namespace BlockCalculus

namespace Block

def replace (f : String → Block) : Block → Block
  | var n => f n
  | pair a b => pair (a.replace f) (b.replace f)
  | quote body => quote (body.replace f)
  | b => b

theorem filled_eq_compose_replace {answers : String → Except ReadError Block} {f : String → Block}
    {b : Block} (h : ∀ n ∈ b.names, answers n = .ok (f n)) :
    b.filled answers = compose [b.replace f] := by
  have hp : b.fill answers = (b.replace f).pieces := by
    induction b with
    | pair a b iha ihb =>
      have hab := List.forall_mem_append.mp h
      rw [fill, replace, pieces, iha hab.1, ihb hab.2]
    | quote body ih => rw [fill, replace, pieces, ih h]
    | var n =>
      have hn := h n (by simp [names])
      simp [fill, replace, answerPieces, hn]
    | _ => rfl
  rw [filled, hp, compose, List.flatMap_singleton]

end Block

namespace Definitions

/-- The first name has a definition, and the second one occurs in it at some depth. -/
def Mentions (d : Definitions) (n m : String) : Prop :=
  ∃ body, d.find? n = some body ∧ m ∈ body.names

variable {d : Definitions}

def glossary (d : Definitions) : Glossary where
  body n :=
    match d.find? n with
    | none => .error (.missing n .undefined)
    | some body => .ok body
  room := remaining d.entries
  room_lt := by
    intro inFlight n b hn hb
    cases hf : d.find? n with
    | none => simp [hf] at hb
    | some body => exact remaining_cons_lt hf hn

theorem glossary_body_eq_ok_iff {n : String} {b : Block} :
    d.glossary.body n = .ok b ↔ d.find? n = some b := by
  cases h : d.find? n <;> simp [glossary, h]

theorem glossary_body_eq_error_iff {n : String} {e : ReadError} :
    d.glossary.body n = .error e ↔ e = .missing n .undefined ∧ d.find? n = none := by
  cases h : d.find? n <;> simp [glossary, h, eq_comm]

theorem glossary_mentions (d : Definitions) : d.glossary.Mentions = d.Mentions := by
  funext n m
  simp only [Glossary.Mentions, Mentions, glossary_body_eq_ok_iff]

theorem expand_eq_glossary (d : Definitions) (inFlight : List String) (n : String) :
    d.expand inFlight n = d.glossary.expand inFlight n := by
  induction inFlight, n using expand.induct d with
  | case1 inFlight n hn => rw [expand, dif_pos hn, Glossary.expand_of_mem hn]
  | case2 inFlight n hn hf =>
    rw [Glossary.expand_of_error hn (glossary_body_eq_error_iff.mpr ⟨rfl, hf⟩), expand, dif_neg hn]
    split <;> simp_all
  | case3 inFlight n hn body hf ih =>
    have hinner : d.expand (n :: inFlight) = d.glossary.expand (n :: inFlight) := funext ih
    rw [Glossary.expand_of_body hn (glossary_body_eq_ok_iff.mpr hf), expand, dif_neg hn, ← hinner]
    split <;> simp_all

theorem expand_of_find {inFlight : List String} {n : String} {body : Block} (hn : n ∉ inFlight)
    (hf : d.find? n = some body) :
    d.expand inFlight n = body.substitute (d.expand (n :: inFlight)) := by
  have hinner : d.expand (n :: inFlight) = d.glossary.expand (n :: inFlight) :=
    funext fun m => d.expand_eq_glossary (n :: inFlight) m
  rw [expand_eq_glossary, Glossary.expand_of_body hn (glossary_body_eq_ok_iff.mpr hf), hinner]

theorem expand_of_undefined {inFlight : List String} {n : String} (hn : n ∉ inFlight)
    (hf : d.find? n = none) : d.expand inFlight n = .error (.missing n .undefined) := by
  rw [expand_eq_glossary, Glossary.expand_of_error hn (glossary_body_eq_error_iff.mpr ⟨rfl, hf⟩)]

abbrev Marks (least : List String) : Type :=
  {s : List String // least ⊆ s}

def unmark {name : String} {marks : List String} (hn : name ∉ marks) (s : Marks (name :: marks)) :
    Marks marks :=
  ⟨s.1.erase name, fun n hm => by
    have hne : n ≠ name := fun he => hn (he ▸ hm)
    exact (List.mem_erase_of_ne hne).mpr (s.2 (List.mem_cons_of_mem name hm))⟩

/-- Expansion with a set of marks that all calls share. A name is marked when its
expansion begins and no longer when it ends, well or not. -/
def expandMarking (d : Definitions) (name : String) (marks : List String) :
    Except ReadError Block × Marks marks :=
  if hn : name ∈ marks then (.error (.cycle name), ⟨marks, List.Subset.refl marks⟩)
  else
    let marked : Marks (name :: marks) := ⟨name :: marks, List.Subset.refl _⟩
    match hb : d.find? name with
    | none => (.error (.missing name .undefined), unmark hn marked)
    | some body =>
      let lookup (inner : String) : ExceptT ReadError (StateM (Marks (name :: marks))) Block :=
        fun s =>
          have : remaining d.entries s.1 < remaining d.entries marks :=
            Nat.lt_of_le_of_lt (remaining_anti d.entries s.2) (remaining_cons_lt hb hn)
          let (r, t) := d.expandMarking inner s.1
          (r, ⟨t.1, List.Subset.trans s.2 t.2⟩)
      let (r, s) := body.substitute lookup marked
      (r, unmark hn s)
termination_by remaining d.entries marks

theorem expandMarking_eq (d : Definitions) (name : String) (marks : List String) :
    (d.expandMarking name marks).1 = d.expand marks name ∧ (d.expandMarking name marks).2.1 = marks := by
  induction marks, name using expand.induct d with
  | case1 marks name hn =>
    rw [expandMarking, dif_pos hn, expand, dif_pos hn]
    exact ⟨rfl, rfl⟩
  | case2 marks name hn hf =>
    rw [expand_of_undefined hn hf, expandMarking, dif_neg hn]
    split
    · exact ⟨rfl, List.erase_cons_head name marks⟩
    · simp_all
  | case3 marks name hn body hf ih =>
    rw [expand_of_find hn hf, expandMarking, dif_neg hn]
    split
    · simp_all
    · rename_i body' hf'
      obtain rfl : body = body' := Option.some.inj (hf.symm.trans hf')
      let marked : Marks (name :: marks) := ⟨name :: marks, List.Subset.refl _⟩
      have hsub (lookup : String → ExceptT ReadError (StateM (Marks (name :: marks))) Block)
          (hl : ∀ n, lookup n marked = (d.expand (name :: marks) n, marked)) :
          body.substitute lookup marked = (body.substitute (d.expand (name :: marks)), marked) := by
        have hs : Steady (· = marked) (body.substitute lookup).run
            (body.substitute (d.expand (name :: marks))) := by
          refine (steady_determined (· = marked)).substitute fun n _ s hs => ?_
          rw [show s = marked from hs]
          exact ⟨congrArg Prod.fst (hl n), congrArg Prod.snd (hl n)⟩
        exact Prod.ext (hs marked rfl).1 (hs marked rfl).2
      dsimp only
      rw [hsub _ fun n => Prod.ext (ih n).1 (Subtype.ext (ih n).2)]
      exact ⟨rfl, List.erase_cons_head name marks⟩

/-- A name is resolved exactly if all names that it leads to are defined and none of them
leads back to itself. It then stands for its definition with names replaced by what they
resolve to; otherwise the failure tells of a circle or of a gap. Marks for names under
expansion are as before after each expansion. -/
theorem resolve_inlines (d : Definitions) (n : String) :
    ((∃ b, d.resolve n = .ok b) ↔
      ∀ m, Relation.ReflTransGen d.Mentions n m →
        (∃ body, d.find? m = some body) ∧ ¬ Relation.TransGen d.Mentions m m) ∧
    (∀ b, d.resolve n = .ok b → b.isNormal ∧ b.names = [] ∧
      ∃ body, d.find? n = some body ∧ ∃ f, (∀ m ∈ body.names, d.resolve m = .ok (f m)) ∧
        b = Block.compose [body.replace f]) ∧
    (∀ e, d.resolve n = .error e →
      (∃ m, e = .cycle m ∧ Relation.ReflTransGen d.Mentions n m ∧ Relation.TransGen d.Mentions m m) ∨
      ∃ m, e = .missing m .undefined ∧ Relation.ReflTransGen d.Mentions n m ∧ d.find? m = none) ∧
    ∀ marks name, (d.expandMarking name marks).1 = d.expand marks name ∧
      (d.expandMarking name marks).2.1 = marks := by
  have hresolve (m : String) : d.resolve m = d.glossary.expand [] m := d.expand_eq_glossary [] m
  simp only [hresolve, ← glossary_mentions]
  refine ⟨⟨?_, ?_⟩, ?_, ?_, fun marks name => d.expandMarking_eq name marks⟩
  · rintro ⟨b, h⟩ m hm
    obtain ⟨⟨body, hb⟩, -, hc⟩ := Glossary.leads_of_expand h hm
    exact ⟨⟨body, glossary_body_eq_ok_iff.mp hb⟩, hc⟩
  · intro h
    refine Glossary.expand_of_leads fun m hm => ?_
    obtain ⟨⟨body, hb⟩, hc⟩ := h m hm
    exact ⟨⟨body, glossary_body_eq_ok_iff.mpr hb⟩, List.not_mem_nil, hc⟩
  · intro b h
    obtain ⟨-, body, hb, hs⟩ := Glossary.expand_ok_inv h
    obtain ⟨hin, rfl⟩ := Block.substitute_eq_ok_iff.mp hs
    have hnames : (body.filled (d.glossary.expand [n])).names = [] :=
      d.names_of_resolve n _ ((hresolve n).trans h)
    choose! f hf using hin
    refine ⟨Block.isNormal_filled body, hnames, body, glossary_body_eq_ok_iff.mp hb, f, ?_, ?_⟩
    · exact fun m hm => Glossary.resolve_of_expand (hf m hm)
    · exact Block.filled_eq_compose_replace hf
  · intro e h
    rcases Glossary.expand_error (fun a ha => by cases ha) h with ⟨m, he, hm, hc⟩ | ⟨m, hm, hb⟩
    · exact .inl ⟨m, he, hm, hc⟩
    · obtain ⟨he, hf⟩ := glossary_body_eq_error_iff.mp hb
      exact .inr ⟨m, he, hm, hf⟩

end Definitions

end BlockCalculus
