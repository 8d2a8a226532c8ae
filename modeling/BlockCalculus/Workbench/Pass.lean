import BlockCalculus.Workbench.InPlace
import BlockCalculus.Workbench.Line

/-! A line carried out in one pass over its text. One word after another is cut
off the front, and its command runs before the next word is looked for; a push
reads all that is left. -/

namespace BlockCalculus.Workbench

/-- The first word of a text, and what follows the white space behind it. -/
def cutWord (text : List Char) : List Char × List Char :=
  (text.takeWhile fun c => !isBlank c, (text.dropWhile fun c => !isBlank c).dropWhile isBlank)

def trim (text : List Char) : List Char :=
  ((text.dropWhile isBlank).reverse.dropWhile isBlank).reverse

theorem cutWord_lt {text : List Char} (h : text ≠ []) : (cutWord text).2.length < text.length := by
  cases text with
  | nil => exact (h rfl).elim
  | cons c text =>
    have htail (l : List Char) : (l.dropWhile isBlank).length ≤ l.length :=
      (List.dropWhile_sublist isBlank).length_le
    have hrest : (text.dropWhile fun c => !isBlank c).length ≤ text.length :=
      (List.dropWhile_sublist _).length_le
    by_cases hc : isBlank c
    · have := htail text
      simp only [cutWord, hc, List.dropWhile_cons, List.length_cons, Bool.not_true,
        Bool.false_eq_true, if_true, if_false]
      omega
    · have := htail (text.dropWhile fun c => !isBlank c)
      simp only [cutWord, hc, List.dropWhile_cons, List.length_cons, Bool.not_false, if_true]
      omega

variable {σ : Type}

/-- A line under way: the text that is left, the workbench with what the
commands have said so far, and the memory of the host. -/
structure Pass (σ : Type) where
  rest : List Char
  bench : Workbench
  said : Messages
  memory : σ

namespace Pass

def report (message : String) (p : Pass σ) : Pass σ :=
  { p with said := { p.said with errors := message :: p.said.errors } }

/-- Runs a command; only `quit` gives nothing to go on with. -/
def act (host : Host σ) (p : Pass σ) : Command → Option (Pass σ)
  | .edit e =>
    match perform host e (p.bench, p.memory) with
    | (.ok (), bench, memory) => some { p with bench := bench, memory := memory }
    | (.error e, bench, memory) =>
      some (report ("Error: " ++ e.message) { p with bench := bench, memory := memory })
  | .push words =>
    match readWith host (words.flatMap Token.scan) p.memory with
    | (.ok b, memory) =>
      some { p with bench := { p.bench with stack := b :: p.bench.stack }, memory := memory }
    | (.error e, memory) => some (report ("Error: " ++ e.message) { p with memory := memory })
  | .help => some { p with said := { p.said with output := Command.helpText :: p.said.output } }
  | .quit => none
  | .unknown word => some (report ("Unknown command: " ++ word) p)

def turn (host : Host σ) (quota : Nat) (p : Pass σ) : Option (Pass σ) :=
  let (word, tail) := cutWord p.rest
  if word = "push".toList then { p with rest := [] }.act host (.push [tail])
  else { p with rest := tail }.act host (.ofWord quota (String.ofList word))

theorem rest_act {host : Host σ} {p p' : Pass σ} {c : Command} (h : p.act host c = some p') :
    p'.rest = p.rest := by
  unfold act at h
  split at h
  · split at h <;> cases h <;> rfl
  · split at h <;> cases h <;> rfl
  all_goals cases h <;> rfl

theorem turn_lt {host : Host σ} {quota : Nat} {p p' : Pass σ} (hp : p.rest ≠ [])
    (h : p.turn host quota = some p') : p'.rest.length < p.rest.length := by
  have hlt := cutWord_lt hp
  simp only [turn] at h
  split at h
  · rw [rest_act h]
    exact List.length_pos_iff.mpr hp
  · rw [rest_act h]
    exact hlt

def run (host : Host σ) (quota : Nat) (p : Pass σ) : LineResult × Workbench × σ :=
  if _hp : p.rest = [] then (p.said.result, p.bench, p.memory)
  else
    match _h : p.turn host quota with
    | none => (.exit, p.bench, p.memory)
    | some next => next.run host quota
termination_by p.rest.length
decreasing_by exact turn_lt _hp _h

end Pass

def executeInPlace (host : Host σ) (quota : Nat) (line : String) (w : Workbench) (memory : σ) :
    LineResult × Workbench × σ :=
  Pass.run host quota ⟨trim line.toList, w, ⟨[], []⟩, memory⟩

end BlockCalculus.Workbench
