import BlockCalculus.CommandLine.Arguments
import Mathlib

/-! Arguments that are understood. Code is taken as an operand as it is, unless it looks like
a switch; behind two dashes it always is. -/

namespace BlockCalculus.CommandLine

theorem Verb.ofName?_name (v : Verb) : Verb.ofName? v.name = some v := by
  cases v <;> rfl

/-- Arguments that hand over some code. -/
inductive Hands (code : String) : List String → Prop
  | plain (h : code.toList.head? ≠ some '-' ∨ code = "-") : Hands code [code]
  | dashes : Hands code ["--", code]

variable {v : Verb} {g : Given} {code : String}

theorem operand_of_lt (code : String) (hg : g.operands.length < operandLimit (some v)) :
    g.operand (some v) code = .ok { g with operands := g.operands ++ [code] } := by
  rw [Given.operand, if_pos hg]

theorem scan_hands {operand : List String} (h : Hands code operand)
    (hg : g.operands.length < operandLimit (some v)) :
    scan (some v) g operand = .ok ({ g with operands := g.operands ++ [code] }, none) := by
  have hoperand := operand_of_lt code hg
  cases h with
  | dashes =>
    have hdashes : "--".toList = ['-', '-'] := rfl
    simp [scan, hdashes, hoperand]
  | plain h =>
    have hword : ∀ c body, code.toList ≠ '-' :: c :: body := by
      intro c body hc
      rcases h with h | rfl
      · exact h (congrArg List.head? hc)
      · cases hc
    rw [scan]
    simp only [Option.isNone_some, Bool.false_eq_true, if_false]
    split
    · rename_i hc
      exact absurd hc (hword '-' [])
    · rename_i c body _ hc
      exact absurd hc (hword c body)
    · rw [hoperand]
      rfl

/-- A request with nothing but an action. -/
def Request.plain (a : Action) : Request :=
  ⟨0, false, none, a⟩

theorem scan_verb (v : Verb) (rest : List String) :
    scan none {} (v.name :: rest) = .ok ({}, some (v, rest)) := by
  simp [scan, Verb.ofName?_name]

theorem parse_of_scan {rest : List String} {a : Action} (hv : v ≠ .help)
    (hs : scan (some v) {} rest = .ok (g, none)) (ha : action v g = .ok a)
    (hplain : g.verbose = 0 ∧ .quiet ∉ g.flags ∧ g.config = none) :
    parse (v.name :: rest) = .ok (.plain a) := by
  obtain ⟨hverbose, hquiet, hconfig⟩ := hplain
  rw [parse, scan_verb]
  cases v with
  | help => exact absurd rfl hv
  | _ =>
    dsimp only [bind, Except.bind]
    rw [hs]
    simp [ha, hverbose, hquiet, hconfig]
    rfl

theorem isDigit_of_mem_toDigits {n : Nat} {c : Char} (h : c ∈ Nat.toDigits 10 n) :
    Decimal.isDigit c = true := by
  have hd := Nat.isDigit_of_mem_toDigits (by decide) (by decide) h
  simp only [Char.isDigit, Bool.and_eq_true, decide_eq_true_eq] at hd
  simp only [Decimal.isDigit, Bool.and_eq_true, decide_eq_true_eq]
  exact hd

theorem ofDigits_toDigits (n : Nat) : Decimal.ofDigits (Nat.toDigits 10 n) = n := by
  have hvalue : Nat.ofDigitChars 10 (Nat.toDigits 10 n) 0 = n := Nat.ofDigitChars_ten_toDigits
  rw [Nat.ofDigitChars_eq_foldl] at hvalue
  exact hvalue

theorem toList_toString (n : Nat) : (toString n).toList = Nat.toDigits 10 n :=
  Nat.toList_repr

theorem count?_toString {n : Nat} (h : n < 2 ^ 64) : count? (toString n) = some n := by
  have hdigits : (Nat.toDigits 10 n).all Decimal.isDigit := List.all_eq_true.mpr fun c hc =>
    isDigit_of_mem_toDigits hc
  have hempty : (Nat.toDigits 10 n).isEmpty = false := by
    rw [List.isEmpty_eq_false_iff]
    exact Nat.toDigits_ne_nil
  have hlt : n < Nat.pow 2 64 := h
  rw [count?, toList_toString]
  split
  · rename_i rest hrest
    have hplus : Decimal.isDigit '+' = true := isDigit_of_mem_toDigits (hrest ▸ List.mem_cons_self)
    cases hplus
  · simp [hdigits, hempty, ofDigits_toDigits, hlt]

/-- A number does not look like a switch. -/
theorem startsWith_toString (n : Nat) : (toString n).startsWith "-" = false := by
  rw [String.startsWith_string_eq_false_iff, toList_toString]
  intro h
  have hdash : Decimal.isDigit '-' = true := isDigit_of_mem_toDigits (h.subset List.mem_cons_self)
  cases hdash

theorem scan_short {arg value : String} {c : Char} {s : Switch} {g' : Given}
    (harg : arg.toList = ['-', c]) (hc : c ≠ '-')
    (hs : (switches (some v)).find? (fun s => s.short? == some c) = some s) (ht : s.takesValue)
    (hlook : value.startsWith "-" = false) (hvalue : g.value s value = .ok g') (rest : List String) :
    scan (some v) g (arg :: value :: rest) = scan (some v) g' rest := by
  have hcluster : cluster (some v) g [c] = .ok (g, some s) := by
    simp only [cluster, hs, ht, if_true]
  rw [scan]
  simp only [Option.isNone_some, Bool.false_eq_true, if_false, harg]
  split
  · rename_i hdash
    exact absurd (by simpa using hdash) hc
  · rename_i hdash
    obtain ⟨rfl, rfl⟩ : c = _ ∧ [] = _ := by simpa using hdash
    rw [if_neg hc, hcluster]
    simp only [hlook, Bool.false_and, Bool.false_eq_true, if_false, hvalue]
  · rename_i hdash
    exact absurd rfl (hdash c [])

theorem scan_long {arg : String} {c : Char} {body : List Char} {g' : Given}
    (harg : arg.toList = '-' :: '-' :: c :: body)
    (hfound : longSwitch (some v) g (c :: body) = .ok (g', none)) (rest : List String) :
    scan (some v) g (arg :: rest) = scan (some v) g' rest := by
  rw [scan]
  simp only [Option.isNone_some, Bool.false_eq_true, if_false, harg, if_true, hfound]

theorem scan_quota {n : Nat} (hn : n < 2 ^ 64) (hg : g.quota = none) (rest : List String) :
    scan (some .reduce) g ("-q" :: toString n :: rest) =
      scan (some .reduce) { g with quota := some n } rest := by
  have hvalue : g.value .quota (toString n) = .ok { g with quota := some n } := by
    simp only [Given.value, hg, count?_toString hn]
  exact scan_short rfl (by decide) rfl rfl (startsWith_toString n) hvalue rest

theorem scan_text (hg : g.output = none) (rest : List String) :
    scan (some .reduce) g ("-o" :: "text" :: rest) =
      scan (some .reduce) { g with output := some .text } rest := by
  have hvalue : g.value .output "text" = .ok { g with output := some .text } := by
    simp only [Given.value, hg, Format.ofName?]
  have hlook : "text".startsWith "-" = false := by simp
  exact scan_short rfl (by decide) rfl rfl hlook hvalue rest

theorem scan_hex (hg : Switch.hex ∉ g.flags) (rest : List String) :
    scan (some .encode) g ("--hex" :: rest) =
      scan (some .encode) { g with flags := .hex :: g.flags } rest := by
  have hflag : g.flag .hex = .ok { g with flags := .hex :: g.flags } := if_neg hg
  have hfound : longSwitch (some .encode) g ['h', 'e', 'x'] =
      .ok ({ g with flags := .hex :: g.flags }, none) := by
    have hname : longSwitch (some .encode) g ['h', 'e', 'x'] = (do return (← g.flag .hex, none)) := rfl
    rw [hname, hflag]
    rfl
  exact scan_long rfl hfound rest

theorem parse_encode {operand : List String} (h : Hands code operand) :
    parse ("encode" :: operand) = .ok (.plain (.encode code false)) :=
  parse_of_scan (v := .encode) (by decide) (scan_hands h (by decide)) rfl (by simp)

theorem parse_encode_hex {operand : List String} (h : Hands code operand) :
    parse ("encode" :: "--hex" :: operand) = .ok (.plain (.encode code true)) := by
  have hscan := (scan_hex (g := {}) (by decide) operand).trans (scan_hands h (by decide))
  exact parse_of_scan (v := .encode) (by decide) hscan rfl (by simp)

theorem parse_hash {operand : List String} (h : Hands code operand) :
    parse ("hash" :: operand) = .ok (.plain (.hash code)) :=
  parse_of_scan (v := .hash) (by decide) (scan_hands h (by decide)) rfl (by simp)

theorem parse_decode : parse ["decode"] = .ok (.plain (.decode none)) :=
  parse_of_scan (v := .decode) (by decide) rfl rfl (by simp)

theorem parse_reduce {n : Nat} (hn : n < 2 ^ 64) :
    parse ["reduce", "-q", toString n] = .ok (.plain (.reduce none (some n) .bytes false)) :=
  parse_of_scan (v := .reduce) (by decide) (scan_quota hn rfl []) rfl (by simp)

theorem parse_reduce_text {n : Nat} (hn : n < 2 ^ 64) :
    parse ["reduce", "-q", toString n, "-o", "text"] =
      .ok (.plain (.reduce none (some n) .text false)) := by
  have hscan := (scan_quota (g := {}) hn rfl ["-o", "text"]).trans (scan_text rfl [])
  exact parse_of_scan (v := .reduce) (by decide) hscan rfl (by simp)

end BlockCalculus.CommandLine
