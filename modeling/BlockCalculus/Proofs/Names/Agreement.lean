import BlockCalculus.Proofs.Names.Cache
import BlockCalculus.Proofs.Names.Inlining
import BlockCalculus.Proofs.Notation.Grammar

/-! The files of a folder against definitions with the texts of these files. Both ways of
resolving a name come to the same block or to the same circle, or fail at the same gap. -/

namespace BlockCalculus

/-- A failure that a text alone can have. -/
def ReadError.OfText : ReadError → Prop
  | cycle _ | missing .. => False
  | _ => True

namespace Notation

theorem ofText_of_parse {text : String} {e : ReadError} (h : parse text = .error e) : e.OfText := by
  rcases assemble_eq_error_iff.mp h with ⟨before, t, after, -, -, ho⟩ | ⟨-, -, he⟩
  · cases ho with
    | closing _ => trivial
    | word _ =>
      unfold fault
      split <;> trivial
  · cases he
    trivial

end Notation

namespace Glossary

/-- What becomes of a name under two glossaries with the same bodies. -/
inductive Parallel (g h : Glossary) (n : String) :
    Except ReadError Block → Except ReadError Block → Prop
  | answer (b : Block) : Parallel g h n (.ok b) (.ok b)
  | circle (m : String) : Parallel g h n (.error (.cycle m)) (.error (.cycle m))
  | gap {m : String} {e e' : ReadError} (hm : g.LeadsTo n m) (hg : g.body m = .error e)
    (hh : h.body m = .error e') : Parallel g h n (.error e) (.error e')

variable {g h : Glossary} {n : String}

theorem Parallel.head {k : String} {r r' : Except ReadError Block} (hm : g.Mentions n k)
    (hp : Parallel g h k r r') : Parallel g h n r r' := by
  cases hp with
  | answer b => exact .answer b
  | circle m => exact .circle m
  | gap hk hg hh => exact .gap (.head hm hk) hg hh

theorem Parallel.failure?_eq_none {answers answers' : String → Except ReadError Block} {k : String}
    (hp : Parallel g h n (answers k) (answers' k)) (hk : Block.failure? answers k = none) :
    answers k = answers' k := by
  obtain ⟨b, hb⟩ := Block.failure?_eq_none_iff.mp hk
  rw [hb] at hp
  generalize answers' k = r' at hp
  cases hp
  exact hb

/-- Names in a block are come to in the same order, so the first failure is in the same
place. -/
theorem Parallel.substitute {answers answers' : String → Except ReadError Block} {b : Block}
    (hp : ∀ k ∈ b.names, Parallel g h n (answers k) (answers' k)) :
    Parallel g h n (b.substitute answers) (b.substitute answers') := by
  cases hf : b.names.findSome? (Block.failure? answers) with
  | none =>
    have hsame : ∀ k ∈ b.names, answers k = answers' k := fun k hk =>
      (hp k hk).failure?_eq_none (List.findSome?_eq_none_iff.mp hf k hk)
    rw [← Block.substitute_congr hsame]
    cases hb : b.substitute answers with
    | ok c => exact .answer c
    | error e =>
      rw [Block.substitute_eq_error_iff, hf] at hb
      cases hb
  | some e =>
    obtain ⟨before, k, after, hnames, hk, hbefore⟩ := List.findSome?_eq_some_iff.mp hf
    have hmem : ∀ j ∈ before ++ [k], j ∈ b.names := by
      intro j hj
      rw [hnames, List.append_cons]
      exact List.mem_append_left after hj
    have hbefore' : ∀ j ∈ before, Block.failure? answers' j = none := by
      intro j hj
      have hsame := (hp j (hmem j (List.mem_append_left _ hj))).failure?_eq_none (hbefore j hj)
      rw [Block.failure?, ← hsame]
      exact hbefore j hj
    have hfail (e' : ReadError) (he : answers' k = .error e') : b.substitute answers' = .error e' :=
      Block.substitute_eq_error_iff.mpr (List.findSome?_eq_some_iff.mpr
        ⟨before, k, after, hnames, Block.failure?_eq_some_iff.mpr he, hbefore'⟩)
    have hhere := hp k (hmem k (by simp))
    rw [Block.substitute_eq_error_iff.mpr hf]
    rw [Block.failure?_eq_some_iff.mp hk] at hhere
    cases he : answers' k with
    | ok c =>
      rw [he] at hhere
      cases hhere
    | error e' =>
      rw [hfail e' he]
      rwa [he] at hhere

theorem expand_parallel (hb : ∀ n b, g.body n = .ok b ↔ h.body n = .ok b) (inFlight : List String)
    (n : String) : Parallel g h n (g.expand inFlight n) (h.expand inFlight n) := by
  induction inFlight, n using expand.induct g with
  | case1 inFlight n hn =>
    rw [expand_of_mem hn, expand_of_mem hn]
    exact .circle n
  | case2 inFlight n hn e he =>
    cases he' : h.body n with
    | ok b =>
      rw [(hb n b).mpr he'] at he
      cases he
    | error e' =>
      rw [expand_of_error hn he, expand_of_error hn he']
      exact .gap .refl he he'
  | case3 inFlight n hn b hbody ih =>
    rw [expand_of_body hn hbody, expand_of_body hn ((hb n b).mp hbody)]
    refine Parallel.substitute fun k hk => ?_
    have hm : g.Mentions n k := ⟨b, hbody, hk⟩
    exact (ih k).head hm

end Glossary

namespace Definitions

theorem lookup_filter_ne {α : Type} {l : List (String × α)} {n name : String} (h : n ≠ name) :
    (l.filter fun e => e.1 ≠ name).lookup n = l.lookup n := by
  induction l with
  | nil => rfl
  | cons e l ih =>
    obtain ⟨k, a⟩ := e
    by_cases hk : k = name
    · have hn : (n == k) = false := beq_false_of_ne (hk ▸ h)
      rw [List.filter_cons_of_neg (by simp [hk]), ih, List.lookup_cons, hn]
    · rw [List.filter_cons_of_pos (by simp [hk]), List.lookup_cons, List.lookup_cons, ih]

theorem find?_define (d : Definitions) (name : String) (body : Block) (n : String) :
    (d.define name body).find? n = if n = name then some body else d.find? n := by
  by_cases h : n = name
  · subst h
    rw [if_pos rfl, find?, define, List.lookup_cons_self]
  · have hn : (n == name) = false := beq_false_of_ne h
    rw [if_neg h, find?, define, List.lookup_cons, hn]
    exact lookup_filter_ne h

end Definitions

namespace Folder

/-- Takes over the text of a file, if it has one that can be read as what its name stands for. -/
def takeOver (folder : Folder) (d : Definitions) (file : String × Bytes) : Definitions :=
  if Notation.isName file.1 then
    match folder.text file.1 with
    | .error _ => d
    | .ok text => (d.defineText file.1 text).toOption.getD d
  else d

/-- The definitions that the files of a folder give. -/
def definitions (folder : Folder) : Definitions :=
  folder.files.foldl folder.takeOver .empty

variable {folder : Folder}

theorem body_eq_ok_iff {n : String} {b : Block} :
    folder.glossary.body n = .ok b ↔
      Notation.isName n ∧ ∃ text, folder.text n = .ok text ∧ Notation.parse text = .ok b := by
  by_cases hv : Notation.isName n
  · cases ht : folder.text n with
    | error fault => simp [body_of_fault hv ht]
    | ok text => simp [body_of_text hv ht, hv]
  · have hv' : Notation.isName n = false := by simpa using hv
    simp [body_of_not_isName hv', hv']

theorem body_eq_error {n : String} {e : ReadError} (h : folder.glossary.body n = .error e) :
    (∃ reason, e = .missing n reason) ∨
      ∃ text, folder.text n = .ok text ∧ Notation.parse text = .error e := by
  by_cases hv : Notation.isName n
  · cases ht : folder.text n with
    | error fault =>
      rw [body_of_fault hv ht] at h
      exact .inl ⟨_, (Except.error.inj h).symm⟩
    | ok text =>
      rw [body_of_text hv ht] at h
      exact .inr ⟨text, rfl, h⟩
  · rw [body_of_not_isName (by simpa using hv)] at h
    exact .inl ⟨_, (Except.error.inj h).symm⟩

theorem takeOver_eq (d : Definitions) (file : String × Bytes) :
    folder.takeOver d file =
      match folder.glossary.body file.1 with
      | .error _ => d
      | .ok body => d.define file.1 body := by
  unfold takeOver
  by_cases hv : Notation.isName file.1
  · rw [if_pos hv]
    cases ht : folder.text file.1 with
    | error fault => rw [body_of_fault hv ht]
    | ok text =>
      rw [body_of_text hv ht]
      cases hp : Notation.parse text <;>
        simp [Definitions.defineText, hp, bind, Except.bind, pure, Except.pure, Except.toOption]
  · rw [if_neg hv, body_of_not_isName (by simpa using hv)]

theorem find?_takeOver (d : Definitions) (file : String × Bytes) (n : String) :
    (folder.takeOver d file).find? n =
      if n = file.1 then (folder.glossary.body n).toOption.or (d.find? n) else d.find? n := by
  rw [takeOver_eq]
  by_cases h : n = file.1
  · subst h
    cases folder.glossary.body file.1 <;> simp [Definitions.find?_define, Except.toOption]
  · cases folder.glossary.body file.1 <;> simp [Definitions.find?_define, h]

theorem find?_foldl_takeOver (files : List (String × Bytes)) (d : Definitions) (n : String) :
    (files.foldl folder.takeOver d).find? n =
      if n ∈ files.map Prod.fst then (folder.glossary.body n).toOption.or (d.find? n)
      else d.find? n := by
  induction files generalizing d with
  | nil => rfl
  | cons file files ih =>
    rw [List.foldl_cons, ih, find?_takeOver, List.map_cons]
    by_cases h : n = file.1
    · cases (folder.glossary.body n).toOption <;> simp [h]
    · simp only [h, if_false, List.mem_cons, false_or]

/-- A name is defined by the file of that name, as long as there is a text that can be read. -/
theorem find?_definitions (n : String) :
    folder.definitions.find? n = (folder.glossary.body n).toOption := by
  have hempty : Definitions.empty.find? n = none := rfl
  rw [definitions, find?_foldl_takeOver, hempty, Option.or_none]
  by_cases h : n ∈ folder.files.map Prod.fst
  · rw [if_pos h]
  · rw [if_neg h]
    cases hb : folder.glossary.body n with
    | error e => rfl
    | ok b =>
      obtain ⟨-, text, ht, -⟩ := body_eq_ok_iff.mp hb
      obtain ⟨content, hc⟩ := lookup_of_text ht
      exact (h (List.mem_map_of_mem (mem_of_lookup hc))).elim

theorem find?_definitions_eq_some_iff {n : String} {b : Block} :
    folder.definitions.find? n = some b ↔ folder.glossary.body n = .ok b := by
  rw [find?_definitions]
  cases folder.glossary.body n <;> simp [Except.toOption]

theorem glossary_body_definitions (n : String) (b : Block) :
    folder.glossary.body n = .ok b ↔ folder.definitions.glossary.body n = .ok b := by
  rw [Definitions.glossary_body_eq_ok_iff, find?_definitions_eq_some_iff]

theorem meaning_parallel (folder : Folder) (n : String) :
    Glossary.Parallel folder.glossary folder.definitions.glossary n (folder.meaning n)
      (folder.definitions.resolve n) := by
  rw [Definitions.resolve, Definitions.expand_eq_glossary]
  exact Glossary.expand_parallel glossary_body_definitions [] n

theorem mentions_definitions (folder : Folder) :
    folder.glossary.Mentions = folder.definitions.Mentions := by
  funext n m
  rw [← Definitions.glossary_mentions]
  simp only [Glossary.Mentions, glossary_body_definitions]

/-- Files and definitions with their texts resolve a name to the same block or find the same
circle. Else both come to the same name without a body: the definitions miss it, and of the
files either there is none to read or its text is at fault. -/
theorem resolve_agrees_with_definitions (folder : Folder) (n : String) :
    let d := folder.definitions
    let r := (folder.resolve n []).1
    (∀ name body, d.find? name = some body ↔ Notation.isName name ∧
      ∃ text, folder.text name = .ok text ∧ Notation.parse text = .ok body) ∧
    (∀ b, r = .ok b ↔ d.resolve n = .ok b) ∧
    (∀ m, r = .error (.cycle m) ↔ d.resolve n = .error (.cycle m)) ∧
    ((∃ b, r = .ok b) ∨ (∃ m, r = .error (.cycle m)) ∨
      ∃ m, Relation.ReflTransGen d.Mentions n m ∧ d.resolve n = .error (.missing m .undefined) ∧
        ((∃ reason, r = .error (.missing m reason)) ∨
          ∃ text e, folder.text m = .ok text ∧ Notation.parse text = .error e ∧ e.OfText ∧
            r = .error e)) := by
  intro d r
  have hr : r = folder.meaning n := folder.resolve_fresh n
  refine ⟨fun name body => find?_definitions_eq_some_iff.trans body_eq_ok_iff, ?_⟩
  have hp : Glossary.Parallel folder.glossary d.glossary n r (d.resolve n) :=
    hr ▸ folder.meaning_parallel n
  clear_value r
  generalize d.resolve n = r' at hp ⊢
  cases hp with
  | answer b => exact ⟨fun c => Iff.rfl, fun m => Iff.rfl, .inl ⟨b, rfl⟩⟩
  | circle m => exact ⟨fun c => Iff.rfl, fun k => Iff.rfl, .inr (.inl ⟨m, rfl⟩)⟩
  | @gap m e e' hm hg hh =>
    obtain ⟨rfl, -⟩ := Definitions.glossary_body_eq_error_iff.mp hh
    rw [Glossary.LeadsTo, mentions_definitions] at hm
    have he : ∀ k, e ≠ .cycle k := by
      rintro k rfl
      rcases body_eq_error hg with ⟨reason, he⟩ | ⟨text, -, hparse⟩
      · cases he
      · exact Notation.ofText_of_parse hparse
    refine ⟨by simp, by simpa using he, .inr (.inr ⟨m, hm, rfl, ?_⟩)⟩
    rcases body_eq_error hg with ⟨reason, rfl⟩ | ⟨text, ht, hparse⟩
    · exact .inl ⟨reason, rfl⟩
    · exact .inr ⟨text, e, ht, hparse, Notation.ofText_of_parse hparse, rfl⟩

end Folder

end BlockCalculus
