import BlockCalculus.Proofs.Names.Determined
import BlockCalculus.Proofs.Reduction.Bytecode
import BlockCalculus.Workbench.Line
import Mathlib.Tactic.Tauto

/-! Sessions at a workbench. Commands, and what is read, bring in blocks in normal form
without names only, so a stack can always be written and read again. -/

namespace BlockCalculus

namespace Workbench

/-- Everything on the stack and every block behind an address can be written. -/
structure Clean (w : Workbench) : Prop where
  stack : ∀ b ∈ w.stack, b.Writable
  links : ∀ l ∈ w.links, l.2.Writable

theorem empty_clean : empty.Clean :=
  ⟨List.forall_mem_nil _, List.forall_mem_nil _⟩

end Workbench

def Command.Plain : Command → Prop
  | .edit (.push b) => b.Writable
  | _ => True

theorem Stack.mem_of_exchange? {α : Type} {s t : Stack α} (h : s.exchange? = some t) {x : α}
    (hx : x ∈ t) : x ∈ s := by
  unfold exchange? at h
  split at h
  · rename_i a b rest
    obtain rfl := Option.some.inj h
    simp only [List.mem_cons] at hx ⊢
    tauto
  · cases h

theorem Command.ofWord_plain (quota : Nat) (word : String) : (ofWord quota word).Plain := by
  unfold ofWord
  split <;> trivial

theorem Command.ofWords_plain (quota : Nat) (words : List (List Char)) :
    ∀ c ∈ ofWords quota words, c.Plain := by
  induction words with
  | nil => exact List.forall_mem_nil _
  | cons w rest ih =>
    unfold ofWords
    split
    · exact List.forall_mem_singleton.mpr trivial
    · exact List.forall_mem_cons.mpr ⟨ofWord_plain quota _, ih⟩

namespace Workbench

variable {σ : Type} {host : Host σ} {lib : Option Definitions}

theorem Clean.restack {w : Workbench} (hw : w.Clean) {s : Stack Block} (hs : ∀ b ∈ s, b.Writable) :
    ({ w with stack := s } : Workbench).Clean :=
  ⟨hs, hw.links⟩

theorem Clean.top {w : Workbench} (hw : w.Clean) {top : Block} {rest : Stack Block}
    (h : w.stack = top :: rest) : top.Writable ∧ ∀ b ∈ rest, b.Writable :=
  List.forall_mem_cons.mp (h ▸ hw.stack)

theorem Clean.lookup {w : Workbench} (hw : w.Clean) {target : Address} {b : Block}
    (h : w.links.lookup target = some b) : b.Writable :=
  hw.links (target, b) (mem_of_lookup h)

theorem Clean.edit {w : Workbench} (hw : w.Clean) {e : Edit} (he : (Command.edit e).Plain)
    (host : Host σ) (memory : σ) :
    ∃ w' memory', w.edit host e memory = (.ok w', memory') ∧ w'.Clean := by
  unfold Workbench.edit
  split
  case h_1 b _ => exact ⟨_, _, rfl, hw.restack (List.forall_mem_cons.mpr ⟨he, hw.stack⟩)⟩
  case h_2 top rest h =>
    obtain ⟨ht, hr⟩ := hw.top h
    exact ⟨_, _, rfl, hw.restack (List.forall_mem_cons.mpr ⟨Block.writable_quote_iff.mpr ht, hr⟩)⟩
  case h_3 body rest h =>
    obtain ⟨ht, hr⟩ := hw.top h
    exact ⟨_, _, rfl, hw.restack (List.forall_mem_cons.mpr ⟨Block.writable_quote_iff.mp ht, hr⟩)⟩
  case h_4 upper lower rest h =>
    obtain ⟨hu, hs⟩ := hw.top h
    obtain ⟨hl, hr⟩ := List.forall_mem_cons.mp hs
    have hc : (Block.compose [lower, upper]).Writable := Block.writable_compose (by simp [hl, hu])
    exact ⟨_, _, rfl, hw.restack (List.forall_mem_cons.mpr ⟨hc, hr⟩)⟩
  case h_5 first second rest h =>
    obtain ⟨ht, hr⟩ := hw.top h
    obtain ⟨ha, hb⟩ := ht.pair
    exact ⟨_, _, rfl, hw.restack (List.forall_mem_cons.mpr ⟨hb, List.forall_mem_cons.mpr ⟨ha, hr⟩⟩)⟩
  case h_6 top rest h =>
    obtain ⟨ht, hr⟩ := hw.top h
    have ha : Bytecode.addressOf top = .ok (Sha256.digest (Bytecode.written top)) :=
      Bytecode.addressOf_eq_ok_iff.mpr ⟨ht.2, rfl⟩
    rw [ha]
    exact ⟨_, _, rfl, List.forall_mem_cons.mpr ⟨⟨rfl, rfl⟩, hr⟩, List.forall_mem_cons.mpr ⟨ht, hw.links⟩⟩
  case h_7 target rest h =>
    split
    · rename_i b hb
      exact ⟨_, _, rfl, hw.restack (List.forall_mem_cons.mpr ⟨hw.lookup hb, (hw.top h).2⟩)⟩
    · exact ⟨_, _, rfl, hw⟩
  case h_8 top rest h =>
    have ht := hw.top h
    exact ⟨_, _, rfl, hw.restack (List.forall_mem_cons.mpr ⟨ht.1, List.forall_mem_cons.mpr ht⟩)⟩
  case h_9 top rest h => exact ⟨_, _, rfl, hw.restack (hw.top h).2⟩
  case h_10 =>
    refine ⟨_, _, rfl, hw.restack fun x hx => ?_⟩
    cases hs : w.stack.exchange? with
    | none => exact hw.stack x (by simpa [hs] using hx)
    | some s => exact hw.stack x (Stack.mem_of_exchange? hs (by simpa [hs] using hx))
  case h_11 quota top rest h =>
    obtain ⟨ht, hr⟩ := hw.top h
    have hfixed : host.nameless.coarse.Fixed Host.refuse := fun _ _ => rfl
    have ho : (Reduction.reduce host.nameless.coarse quota top memory).1.block.Writable :=
      ⟨Cell.isNormal_compose _, Reduction.names_reduce hfixed ht.2 quota memory⟩
    exact ⟨_, _, rfl, hw.restack (List.forall_mem_cons.mpr ⟨ho, hr⟩)⟩
  case h_12 => exact ⟨_, _, rfl, hw⟩

theorem writable_of_readWith (hh : host.Fixed (Definitions.answers lib)) {tokens : List Token}
    {memory memory' : σ} {b : Block} (h : readWith host tokens memory = (.ok b, memory')) :
    b.Writable := by
  have hsteady : ∀ n, Steady (fun _ => True) (host.resolve n) (Definitions.answers lib n) :=
    fun n m _ => ⟨hh n m, trivial⟩
  have hr := (readWith_steady hsteady tokens memory trivial).1
  rw [h] at hr
  obtain ⟨read, -, hs⟩ := Block.bind_eq_ok_iff.mp hr.symm
  exact ⟨Block.substitute_isNormal hs, Block.names_of_substitute (Definitions.names_of_answers lib) hs⟩

theorem runCommands_clean (hh : host.Fixed (Definitions.answers lib)) {commands : List Command}
    (hc : ∀ c ∈ commands, c.Plain) {w : Workbench} (hw : w.Clean) (said : Messages) (memory : σ) :
    (runCommands host commands w said memory).2.1.Clean := by
  induction commands generalizing w said memory with
  | nil => exact hw
  | cons c rest ih =>
    obtain ⟨hp, hr⟩ := List.forall_mem_cons.mp hc
    cases c with
    | quit => exact hw
    | help => exact ih hr hw _ memory
    | unknown word => exact ih hr hw _ memory
    | edit e =>
      obtain ⟨w', memory', he, hw'⟩ := hw.edit hp host memory
      rw [runCommands, he]
      exact ih hr hw' said memory'
    | push words =>
      rw [runCommands]
      split
      · rename_i b memory' hread
        exact ih hr (hw.restack (List.forall_mem_cons.mpr ⟨writable_of_readWith hh hread, hw.stack⟩)) _ _
      · exact ih hr hw _ _

def session (host : Host σ) (quota : Nat) : List String → Workbench → σ → Workbench × σ
  | [], w, memory => (w, memory)
  | line :: rest, w, memory =>
    let (_, w, memory) := w.execute host quota line memory
    session host quota rest w memory

theorem session_clean (hh : host.Fixed (Definitions.answers lib)) (quota : Nat) (lines : List String)
    {w : Workbench} (hw : w.Clean) (memory : σ) : (session host quota lines w memory).1.Clean := by
  induction lines generalizing w memory with
  | nil => exact hw
  | cons line rest ih =>
    exact ih (runCommands_clean hh (Command.ofWords_plain quota _) hw _ memory) _

/-- After every line of a session the whole workbench can be written: minting an address
never fails, nor does writing the stack, and what has been written reads as the stack. -/
theorem session_writable (host : Host σ) (lib : Option Definitions)
    (hh : host.Fixed (Definitions.answers lib)) (quota : Nat) (lines : List String) (memory : σ) :
    let w := (session host quota lines empty memory).1
    w.Clean ∧
    (∀ (line : String) (before rest : List Command),
      Command.ofWords quota (words line.toList) = before ++ .edit .mint :: rest → ∀ said m m',
        ∃ w' m'', (runCommands host before w said m).2.1.edit host .mint m' = (.ok w', m'')) ∧
    ∃ bytes, w.written = (bytes, .ok ()) ∧ Bytecode.decode bytes = .ok w.block := by
  intro w
  have hw : w.Clean := session_clean hh quota lines empty_clean memory
  refine ⟨hw, fun line before rest hline said m m' => ?_, ?_⟩
  · have hplain : ∀ c ∈ before, c.Plain := fun c hc =>
      Command.ofWords_plain quota (words line.toList) c (hline ▸ List.mem_append_left _ hc)
    have hb := runCommands_clean hh hplain hw said m
    obtain ⟨w', m'', he, -⟩ := hb.edit (e := .mint) trivial host m'
    exact ⟨w', m'', he⟩
  · have hblock : w.block.Writable :=
      Block.writable_compose fun b hb => hw.stack b (List.mem_reverse.mp hb)
    refine ⟨Bytecode.written w.block, ?_, Bytecode.decode_written_of_isNormal hblock.1 hblock.2⟩
    exact Bytecode.encodeInto_of_names_eq_nil hblock.2 []

/-- A quotation is read with its names, taken apart, and put together in another order. -/
theorem session_writable_twice :
    let lib : Option Definitions := some ⟨[("twice", .pair (.pair (.prim .copy) .empty) (.var "join")),
      ("join", .quote (.prim .cat))]⟩
    let host := Host.ofAnswers (Definitions.answers lib)
    let w := (session host 10 ["push [twice] app", "rmcat swap rmbox"] empty ()).1
    w.stack = [.pair (.prim .copy) (.quote (.prim .cat)), .prim .app] ∧ w.Clean ∧
      (∃ w' m, (runCommands host [.edit .join] w ⟨[], []⟩ ()).2.1.edit host .mint () = (.ok w', m)) ∧
      ∃ bytes, w.written = (bytes, .ok ()) ∧ Bytecode.decode bytes = .ok w.block := by
  intro lib host w
  have hh : host.Fixed (Definitions.answers lib) := Host.ofAnswers_fixed _
  have hs : w.stack = [.pair (.prim .copy) (.quote (.prim .cat)), .prim .app] := by
    simp only [w, host, lib]
    cbv
  have hline : Command.ofWords 10 (words "mkcat mklink".toList) = [.edit .join] ++ .edit .mint :: [] := rfl
  obtain ⟨hclean, hmint, hwritten⟩ :=
    session_writable host lib hh 10 ["push [twice] app", "rmcat swap rmbox"] ()
  exact ⟨hs, hclean, hmint "mkcat mklink" _ _ hline ⟨[], []⟩ () (), hwritten⟩

end Workbench

end BlockCalculus
