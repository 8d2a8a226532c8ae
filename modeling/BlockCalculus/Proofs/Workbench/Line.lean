import BlockCalculus.Proofs.Workbench.Pass

/-! A line is the sequence of its commands. Those that run after others see the
workbench that these have left, and nothing of what they have said. -/

namespace BlockCalculus

namespace Messages

def add (earlier later : Messages) : Messages :=
  ⟨later.output ++ earlier.output, later.errors ++ earlier.errors⟩

theorem add_assoc (a b c : Messages) : (a.add b).add c = a.add (b.add c) := by
  simp [add]

theorem empty_add (m : Messages) : add ⟨[], []⟩ m = m := by
  simp [add]

theorem add_empty (m : Messages) : m.add ⟨[], []⟩ = m := by
  simp [add]

end Messages

namespace LineResult

def isError : LineResult → Bool
  | error _ => true
  | _ => false

def isOutput : LineResult → Bool
  | output _ => true
  | _ => false

/-- How the result of a whole line follows from those of its two parts. -/
structure Sequence (first second whole : LineResult) : Prop where
  exit : whole = .exit ↔ second = .exit
  error : whole ≠ .exit → (whole.isError ↔ first.isError ∨ second.isError)
  output : whole ≠ .exit → whole.isError = false →
    (whole.isOutput ↔ first.isOutput ∨ second.isOutput)

end LineResult

namespace Messages

theorem result_ne_exit (m : Messages) : m.result ≠ .exit := by
  unfold result
  split_ifs <;> exact LineResult.noConfusion

theorem isError_result (m : Messages) : m.result.isError ↔ m.errors ≠ [] := by
  unfold result
  split_ifs <;> simp_all [LineResult.isError]

theorem isOutput_result (m : Messages) : m.result.isOutput ↔ m.errors = [] ∧ m.output ≠ [] := by
  unfold result
  split_ifs <;> simp_all [LineResult.isOutput]

theorem sequence_result (a b : Messages) : LineResult.Sequence a.result b.result (a.add b).result where
  exit := iff_of_false (result_ne_exit _) (result_ne_exit _)
  error := by
    intro _
    simp only [isError_result, add, ne_eq, List.append_eq_nil_iff]
    tauto
  output := by
    intro _ herror
    rw [← Bool.not_eq_true, isError_result] at herror
    simp only [isOutput_result]
    simp only [add, ne_eq, not_not, List.append_eq_nil_iff] at herror ⊢
    tauto

end Messages

namespace Workbench

variable {σ : Type} {host : Host σ} {quota : Nat}

theorem runCommands_cons (host : Host σ) {c : Command} (hc : c ≠ .quit) (w : Workbench)
    (memory : σ) :
    ∃ told w' memory', ∀ said rest, runCommands host (c :: rest) w said memory =
      runCommands host rest w' (said.add told) memory' := by
  -- What a command tells and leaves is fixed before what has been said is looked at.
  cases c with
  | edit e =>
    rcases he : w.edit host e memory with ⟨fault | w', memory'⟩
    · refine ⟨⟨[], ["Error: " ++ fault.message]⟩, w, memory', fun said rest => ?_⟩
      rw [runCommands, he]
      rfl
    · refine ⟨⟨[], []⟩, w', memory', fun said rest => ?_⟩
      rw [runCommands, he, Messages.add_empty]
  | push words =>
    rcases hr : readWith host (words.flatMap Token.scan) memory with ⟨fault | b, memory'⟩
    · refine ⟨⟨[], ["Error: " ++ fault.message]⟩, w, memory', fun said rest => ?_⟩
      rw [runCommands, hr]
      rfl
    · refine ⟨⟨[], []⟩, { w with stack := b :: w.stack }, memory', fun said rest => ?_⟩
      rw [runCommands, hr, Messages.add_empty]
  | help => exact ⟨⟨[Command.helpText], []⟩, w, memory, fun said rest => rfl⟩
  | quit => exact (hc rfl).elim
  | unknown word => exact ⟨⟨[], ["Unknown command: " ++ word]⟩, w, memory, fun said rest => rfl⟩

theorem runCommands_append (host : Host σ) {cs : List Command} (hcs : ∀ c ∈ cs, c ≠ .quit)
    (w : Workbench) (memory : σ) :
    ∃ told w' memory', ∀ said rest, runCommands host (cs ++ rest) w said memory =
      runCommands host rest w' (said.add told) memory' := by
  induction cs generalizing w memory with
  | nil => exact ⟨⟨[], []⟩, w, memory, fun said rest => by rw [Messages.add_empty]; rfl⟩
  | cons c cs ih =>
    obtain ⟨hc, hcs⟩ := List.forall_mem_cons.mp hcs
    obtain ⟨told₁, w₁, memory₁, h₁⟩ := runCommands_cons host hc w memory
    obtain ⟨told₂, w₂, memory₂, h₂⟩ := ih hcs w₁ memory₁
    refine ⟨told₁.add told₂, w₂, memory₂, fun said rest => ?_⟩
    rw [List.cons_append, h₁, h₂, Messages.add_assoc]

/-- What has been said before makes no difference to what commands do, only to what is said
of them in the end. -/
theorem runCommands_said (host : Host σ) (cs : List Command) (w : Workbench) (memory : σ) :
    ∃ w' memory', (∀ said, runCommands host cs w said memory = (.exit, w', memory')) ∨
      ∃ told, ∀ said, runCommands host cs w said memory = ((said.add told).result, w', memory') := by
  induction cs generalizing w memory with
  | nil =>
    refine ⟨w, memory, .inr ⟨⟨[], []⟩, fun said => ?_⟩⟩
    rw [Messages.add_empty]
    rfl
  | cons c cs ih =>
    by_cases hc : c = .quit
    · subst hc
      exact ⟨w, memory, .inl fun said => rfl⟩
    · obtain ⟨told, w₁, memory₁, h₁⟩ := runCommands_cons host hc w memory
      obtain ⟨w', memory', h | ⟨later, h⟩⟩ := ih w₁ memory₁
      · exact ⟨w', memory', .inl fun said => by rw [h₁, h]⟩
      · exact ⟨w', memory', .inr ⟨told.add later, fun said => by rw [h₁, h, Messages.add_assoc]⟩⟩

end Workbench

namespace Command

variable {quota : Nat}

def vocabulary : List String :=
  ["opid", "opapp", "opbox", "opcat", "opcopy", "opdrop", "opswap", "mkbox", "rmbox", "mkcat",
    "rmcat", "mklink", "rmlink", "copy", "drop", "swap", "reduce", "push", "help", "quit"]

theorem ofWord_unknown {word : String} (h : word ∉ vocabulary) :
    ofWord quota word = .unknown word := by
  unfold ofWord
  split <;> first | rfl | exact (h (by decide)).elim

theorem ofWord_ne_unknown {word : String} (h : word ∈ vocabulary) (hpush : word ≠ "push")
    (word' : String) : ofWord quota word ≠ .unknown word' := by
  revert word
  simp [vocabulary, ofWord]

theorem ofWord_ne_push (word : String) (words : List (List Char)) :
    ofWord quota word ≠ .push words := by
  unfold ofWord
  split <;> exact Command.noConfusion

theorem eq_mklink_of_ofWord {word : String} (h : ofWord quota word = .edit .mint) :
    word = "mklink" := by
  unfold ofWord at h
  split at h <;> first | rfl | cases h

theorem eq_quit_of_ofWord {word : String} (h : ofWord quota word = .quit) : word = "quit" := by
  unfold ofWord at h
  split at h <;> first | rfl | cases h

theorem ofWords_append {l : List (List Char)} (h : ∀ word ∈ l, word ≠ "push".toList)
    (l' : List (List Char)) : ofWords quota (l ++ l') = ofWords quota l ++ ofWords quota l' := by
  induction l with
  | nil => rfl
  | cons word l ih =>
    obtain ⟨hword, hl⟩ := List.forall_mem_cons.mp h
    rw [List.cons_append, ofWords, if_neg hword, ih hl, ofWords, if_neg hword, List.cons_append]

theorem ne_quit_of_mem_ofWords {l : List (List Char)} (h : ∀ word ∈ l, word ≠ "quit".toList) :
    ∀ c ∈ ofWords quota l, c ≠ .quit := by
  induction l with
  | nil => exact List.forall_mem_nil _
  | cons word l ih =>
    obtain ⟨hword, hl⟩ := List.forall_mem_cons.mp h
    rw [ofWords]
    split_ifs
    · exact List.forall_mem_singleton.mpr Command.noConfusion
    · refine List.forall_mem_cons.mpr ⟨fun hc => hword ?_, ih hl⟩
      rw [← String.toList_ofList (l := word), eq_quit_of_ofWord hc]

end Command

namespace Workbench

variable {σ : Type} {host : Host σ} {quota : Nat}

/-- No word of the line is `push` or `quit`. -/
def Plain (line : String) : Prop :=
  ∀ word ∈ words line.toList, word ≠ "push".toList ∧ word ≠ "quit".toList

theorem execute_append {line : String} (hline : Plain line) {c : Char} (hc : isBlank c)
    (line' : String) (w : Workbench) (memory : σ) :
    let first := w.execute host quota line memory
    let second := first.2.1.execute host quota line' first.2.2
    let whole := w.execute host quota (line.push c ++ line') memory
    whole.2 = second.2 ∧ first.1 ≠ .exit ∧ LineResult.Sequence first.1 second.1 whole.1 := by
  have hwords : words (line.push c ++ line').toList = words line.toList ++ words line'.toList := by
    simp only [String.toList_append, String.toList_push, List.append_assoc, List.singleton_append]
    exact words_append_blank hc line.toList line'.toList
  have hcommands : Command.ofWords quota (words line.toList ++ words line'.toList) =
      Command.ofWords quota (words line.toList) ++ Command.ofWords quota (words line'.toList) :=
    Command.ofWords_append (fun word hw => (hline word hw).1) (words line'.toList)
  have hquit : ∀ c ∈ Command.ofWords quota (words line.toList), c ≠ .quit :=
    Command.ne_quit_of_mem_ofWords fun word hw => (hline word hw).2
  obtain ⟨told, w₁, memory₁, h⟩ := runCommands_append host hquit w memory
  have hfirst : w.execute host quota line memory = (told.result, w₁, memory₁) := by
    have hnil := h ⟨[], []⟩ []
    rw [List.append_nil, Messages.empty_add] at hnil
    exact hnil
  have hwhole : w.execute host quota (line.push c ++ line') memory =
      runCommands host (Command.ofWords quota (words line'.toList)) w₁ told memory₁ := by
    rw [execute, hwords, hcommands, h, Messages.empty_add]
  rw [hfirst, hwhole]
  -- Either the second line quits, and then nothing that was said matters, or it runs to its end.
  obtain ⟨w₂, memory₂, hexit | ⟨later, hlater⟩⟩ :=
    runCommands_said host (Command.ofWords quota (words line'.toList)) w₁ memory₁
  · simp only [execute, hexit]
    exact ⟨trivial, told.result_ne_exit, ⟨Iff.rfl, fun h => (h rfl).elim, fun h => (h rfl).elim⟩⟩
  · simp only [execute, hlater, Messages.empty_add]
    exact ⟨trivial, told.result_ne_exit, Messages.sequence_result told later⟩

/-! Commands that fail. -/

/-- The word stands alone: it is what cutting words off gives. -/
def IsWord (word : String) : Prop :=
  word ≠ "" ∧ ∀ c ∈ word.toList, isBlank c = false

theorem IsWord.words_eq {word : String} (h : IsWord word) : words word.toList = [word.toList] := by
  have hne : word.toList ≠ [] := fun he => h.1 (String.toList_eq_nil_iff.mp he)
  have hend : words (word.toList ++ []) = word.toList :: words [] :=
    words_word hne h.2 fun c hc => (Option.not_mem_none c hc).elim
  rwa [List.append_nil] at hend

/-- A word fails on a workbench: it stands for no command, or the top has no address. -/
inductive Fails (w : Workbench) : String → String → Prop
  | unknown {word : String} (hword : IsWord word) (h : word ∉ Command.vocabulary) :
    Fails w word ("Unknown command: " ++ word)
  | mint {top : Block} {rest : Stack Block} {fault : EncodeError} (hw : w.stack = top :: rest)
    (h : Bytecode.addressOf top = .error fault) : Fails w "mklink" ("Error: " ++ fault.message)

theorem Fails.plain {w : Workbench} {word message : String} (h : Fails w word message) :
    Plain word := by
  cases h with
  | unknown hword h =>
    rw [Plain, hword.words_eq, List.forall_mem_singleton]
    have hne (known : String) (hk : known ∈ Command.vocabulary) : word.toList ≠ known.toList :=
      fun he => h (String.toList_inj.mp he ▸ hk)
    exact ⟨hne "push" (by decide), hne "quit" (by decide)⟩
  | mint _ _ => exact List.forall_mem_singleton.mpr ⟨by decide, by decide⟩

theorem execute_word {word : String} (hword : IsWord word) (hpush : word ≠ "push") (w : Workbench)
    (memory : σ) :
    w.execute host quota word memory =
      runCommands host [.ofWord quota word] w ⟨[], []⟩ memory := by
  have hlist : word.toList ≠ "push".toList := fun he => hpush (String.toList_inj.mp he)
  rw [execute, hword.words_eq, Command.ofWords, if_neg hlist, String.ofList_toList]
  rfl

theorem result_of_error (message : String) : Messages.result ⟨[], [message]⟩ = .error message :=
  rfl

theorem Fails.execute_eq {w : Workbench} {word message : String} (h : Fails w word message)
    (memory : σ) : w.execute host quota word memory = (.error message, w, memory) := by
  cases h with
  | unknown hword h =>
    have hpush : word ≠ "push" := by
      rintro rfl
      exact h (by decide)
    rw [execute_word hword hpush, Command.ofWord_unknown h]
    simp only [runCommands, result_of_error]
  | @mint top rest fault hw h =>
    have hedit : w.edit host .mint memory = (.error fault, memory) := by
      simp only [edit, hw, h]
    rw [execute_word ⟨by decide, by simp [isBlank]⟩ (by decide)]
    simp only [Command.ofWord, runCommands, hedit, result_of_error]

theorem mint_of_edit_error {e : Edit} {w : Workbench} {memory memory' : σ} {fault : EncodeError}
    (h : w.edit host e memory = (.error fault, memory')) :
    e = .mint ∧ ∃ top rest, w.stack = top :: rest ∧ Bytecode.addressOf top = .error fault := by
  unfold edit at h
  split at h
  case h_6 top rest hw =>
    split at h
    · cases h
    · cases h
      exact ⟨rfl, top, rest, hw, by assumption⟩
  case h_7 => split at h <;> cases h
  all_goals cases h

theorem fails_of_isError {word : String} (hword : IsWord word) (hpush : word ≠ "push")
    {w : Workbench} {memory : σ} (h : (w.execute host quota word memory).1.isError) :
    ∃ message, Fails w word message := by
  rw [execute_word hword hpush] at h
  cases hc : Command.ofWord quota word with
  | edit e =>
    rw [hc, runCommands] at h
    rcases he : w.edit host e memory with ⟨fault | w', memory'⟩
    · obtain ⟨rfl, top, rest, hw, ha⟩ := mint_of_edit_error he
      rw [Command.eq_mklink_of_ofWord hc]
      exact ⟨_, .mint hw ha⟩
    · rw [he] at h
      cases h
  | push words => exact (Command.ofWord_ne_push word words hc).elim
  | help =>
    rw [hc] at h
    cases h
  | quit =>
    rw [hc] at h
    cases h
  | unknown word' =>
    exact ⟨_, .unknown hword fun hmem => Command.ofWord_ne_unknown hmem hpush word' hc⟩

theorem execute_push {tail : String} (htail : ∀ c ∈ tail.toList.head?, isBlank c) (w : Workbench)
    (memory : σ) :
    w.execute host quota ("push" ++ tail) memory =
      match readWith host (Token.scan tail.toList) memory with
      | (.ok b, memory) => (.success, { w with stack := b :: w.stack }, memory)
      | (.error fault, memory) => (.error ("Error: " ++ fault.message), w, memory) := by
  have hwords : words ("push" ++ tail).toList = "push".toList :: words tail.toList := by
    rw [String.toList_append]
    exact words_word (by decide) (by simp [isBlank]) htail
  rw [execute, hwords, Command.ofWords, if_pos rfl, runCommands, Token.flatMap_scan_words]
  rcases readWith host (Token.scan tail.toList) memory with ⟨fault | b, memory⟩
  · simp only [runCommands, result_of_error]
  · simp only [runCommands]
    rfl

/-- A line does what its commands do one after another, cut off its text or taken from its
words. Running two lines as one, without `push` and `quit` in the first, leaves the workbench
that running them in a row leaves, and tells of an error or has something to show if one of
them does. A word that fails leaves the workbench alone and does not stop what comes after
it, and no other word gives an error; a push takes all that is left of the line. -/
theorem line_runs_in_sequence (host : Host σ) (quota : Nat) (w : Workbench) (memory : σ) :
    (∀ line, w.executeInPlace host quota line memory = w.execute host quota line memory) ∧
    (∀ line c line', Plain line → isBlank c →
      let first := w.executeInPlace host quota line memory
      let second := first.2.1.executeInPlace host quota line' first.2.2
      let whole := w.executeInPlace host quota (line.push c ++ line') memory
      whole.2 = second.2 ∧ first.1 ≠ .exit ∧ LineResult.Sequence first.1 second.1 whole.1) ∧
    (∀ word message, Fails w word message →
      w.executeInPlace host quota word memory = (.error message, w, memory) ∧
      ∀ c line, isBlank c →
        let after := w.executeInPlace host quota line memory
        let whole := w.executeInPlace host quota (word.push c ++ line) memory
        whole.2 = after.2 ∧ (whole.1 = .exit ↔ after.1 = .exit) ∧
          (whole.1 ≠ .exit → whole.1.isError)) ∧
    (∀ word, IsWord word → word ≠ "push" →
      ((w.executeInPlace host quota word memory).1.isError ↔ ∃ message, Fails w word message)) ∧
    ∀ tail : String, (∀ c ∈ tail.toList.head?, isBlank c) →
      w.executeInPlace host quota ("push" ++ tail) memory =
        match readWith host (Token.scan tail.toList) memory with
        | (.ok b, memory) => (.success, { w with stack := b :: w.stack }, memory)
        | (.error fault, memory) => (.error ("Error: " ++ fault.message), w, memory) := by
  simp only [executeInPlace_eq_execute]
  refine ⟨fun line => trivial, fun line c line' hline hc => execute_append hline hc line' w memory,
    fun word message hfails => ⟨hfails.execute_eq memory, fun c line hc => ?_⟩,
    fun word hword hpush => ⟨fails_of_isError hword hpush, ?_⟩,
    fun tail htail => execute_push htail w memory⟩
  · have hseq : _ ∧ _ ∧ LineResult.Sequence (w.execute host quota word memory).1 _ _ :=
      execute_append hfails.plain hc line w memory
    simp only [hfails.execute_eq] at hseq
    obtain ⟨hstate, -, hresult⟩ := hseq
    exact ⟨hstate, hresult.exit, fun h => (hresult.error h).mpr (.inl rfl)⟩
  · rintro ⟨message, hfails⟩
    rw [hfails.execute_eq]
    rfl

example (host : Host σ) (memory : σ) : empty.executeInPlace host 0 " opapp  what\tmkbox" memory =
    (.error "Unknown command: what", { empty with stack := [.quote (.prim .app)] }, memory) := by
  rw [executeInPlace_eq_execute]
  rfl

end Workbench

end BlockCalculus
