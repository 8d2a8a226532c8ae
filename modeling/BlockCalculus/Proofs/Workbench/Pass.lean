import BlockCalculus.Proofs.Notation.Words
import BlockCalculus.Proofs.Workbench.Edits
import BlockCalculus.Workbench.Pass

/-! One pass over the text of a line. Cutting words off one after another comes to
running the commands of all its words. -/

namespace BlockCalculus.Workbench

/-- The text does not begin with white space. -/
def Tight (text : List Char) : Prop :=
  ∀ c ∈ text.head?, isBlank c = false

theorem tight_dropWhile (text : List Char) : Tight (text.dropWhile isBlank) := by
  intro c hc
  have hhead := List.head?_dropWhile_not isBlank text
  rwa [hc] at hhead

theorem dropWhile_eq_trim (text : List Char) :
    text.dropWhile isBlank =
      trim text ++ ((text.dropWhile isBlank).reverse.takeWhile isBlank).reverse := by
  rw [trim, ← List.reverse_append, List.takeWhile_append_dropWhile, List.reverse_reverse]

theorem tight_trim (text : List Char) : Tight (trim text) := by
  have ht := tight_dropWhile text
  rw [dropWhile_eq_trim] at ht
  intro c hc
  exact ht c (by simp_all)

theorem words_trim (text : List Char) : words (trim text) = words text := by
  rw [← words_dropWhile text, dropWhile_eq_trim, words_append_of_blank]
  intro c hc
  exact List.mem_takeWhile_imp (List.mem_reverse.mp hc)

theorem words_cutWord {text : List Char} (hne : text ≠ []) (ht : Tight text) :
    words text = (cutWord text).1 :: words (cutWord text).2 := by
  have hsplit := List.takeWhile_append_dropWhile (p := fun c => !isBlank c) (l := text)
  rw [cutWord, words_dropWhile]
  conv_lhs => rw [← hsplit]
  apply words_word
  · cases text with
    | nil => exact (hne rfl).elim
    | cons c text => simp [ht c rfl]
  · intro c hc
    simpa using List.mem_takeWhile_imp hc
  · intro c hc
    have hhead := List.head?_dropWhile_not (fun c => !isBlank c) text
    rw [hc] at hhead
    simpa using hhead

variable {σ : Type} {host : Host σ} {quota : Nat}

theorem runCommands_act (host : Host σ) (c : Command) (cs : List Command) (p : Pass σ) :
    runCommands host (c :: cs) p.bench p.said p.memory =
      match p.act host c with
      | none => (.exit, p.bench, p.memory)
      | some q => runCommands host cs q.bench q.said q.memory := by
  cases c with
  | edit e =>
    simp only [runCommands, Pass.act, perform_of_edit]
    rcases p.bench.edit host e p.memory with ⟨_ | _, memory⟩ <;> rfl
  | push words =>
    simp only [runCommands, Pass.act]
    rcases readWith host (words.flatMap Token.scan) p.memory with ⟨_ | _, memory⟩ <;> rfl
  | help => rfl
  | quit => rfl
  | unknown word => rfl

/-- The commands that are still to run on a pass. -/
def Pass.finish (host : Host σ) (quota : Nat) (p : Pass σ) : LineResult × Workbench × σ :=
  runCommands host (Command.ofWords quota (words p.rest)) p.bench p.said p.memory

theorem Pass.act_finish {p : Pass σ} {c : Command} :
    runCommands host (c :: Command.ofWords quota (words p.rest)) p.bench p.said p.memory =
      match p.act host c with
      | none => (.exit, p.bench, p.memory)
      | some q => q.finish host quota := by
  rw [runCommands_act]
  cases h : p.act host c with
  | none => rfl
  | some q => simp only [finish, rest_act h]

theorem Pass.turn_finish {p : Pass σ} (hp : p.rest ≠ []) (ht : Tight p.rest) :
    p.finish host quota =
      match p.turn host quota with
      | none => (.exit, p.bench, p.memory)
      | some q => q.finish host quota := by
  rw [finish, words_cutWord hp ht, Command.ofWords, turn]
  by_cases hw : (cutWord p.rest).1 = "push".toList
  · -- A push reads the rest as it stands, not the words it falls into.
    have hread : (words (cutWord p.rest).2).flatMap Token.scan =
        [(cutWord p.rest).2].flatMap Token.scan := by
      rw [Token.flatMap_scan_words, List.flatMap_singleton]
    simp only [if_pos hw, ← act_finish, runCommands, hread]
    rfl
  · simp only [if_neg hw, ← act_finish]

theorem Pass.tight_turn {p q : Pass σ} (h : p.turn host quota = some q) : Tight q.rest := by
  simp only [turn] at h
  split at h
  · rw [rest_act h]
    exact fun c hc => (Option.not_mem_none c hc).elim
  · rw [rest_act h]
    exact tight_dropWhile _

theorem Pass.run_eq_finish {p : Pass σ} (ht : Tight p.rest) :
    p.run host quota = p.finish host quota := by
  -- Every turn leaves a text that is tight again: cutting a word off trims what follows.
  induction p using run.induct host quota with
  | case1 p hp =>
    rw [run, dif_pos hp, finish, hp]
    rfl
  | case2 p hp hturn =>
    rw [run, dif_neg hp, turn_finish hp ht]
    split <;> simp_all
  | case3 p hp next hturn ih =>
    have hnext := ih (tight_turn hturn)
    rw [run, dif_neg hp, turn_finish hp ht]
    split <;> simp_all

theorem executeInPlace_eq_execute (host : Host σ) (quota : Nat) (line : String) (w : Workbench)
    (memory : σ) : w.executeInPlace host quota line memory = w.execute host quota line memory := by
  rw [executeInPlace, Pass.run_eq_finish (tight_trim _), Pass.finish, words_trim, execute]

end BlockCalculus.Workbench
