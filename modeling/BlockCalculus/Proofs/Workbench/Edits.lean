import BlockCalculus.Proofs.Block.Composition
import BlockCalculus.Workbench.InPlace

/-! Edits and the block that a workbench builds. Carried out in place, an edit has
the result of the edit as a whole, and a failing one leaves everything as it was.
Laws of edits follow by looking at the top entries only. -/

namespace BlockCalculus

/-- The number of entries that an edit needs. -/
def Edit.arity : Edit → Nat
  | push _ => 0
  | join | swap => 2
  | _ => 1

/-- Whether an edit that takes something apart finds such a thing on top. -/
def Edit.suits : Edit → Block → Bool
  | unbox, .quote _ => true
  | split, .pair .. => true
  | follow, .link _ => true
  | unbox, _ | split, _ | follow, _ => false
  | _, _ => true

namespace Workbench

variable {σ : Type}

/-- Following an address that is on top comes down to looking it up. -/
theorem perform_follow_link (host : Host σ) (target : Address) (rest : Stack Block)
    (links : List (Address × Block)) (memory : σ) :
    perform host .follow (⟨.link target :: rest, links⟩, memory) =
      (match links.lookup target with
        | some b => Program.replaceTop b
        | none => pure ()) (⟨.link target :: rest, links⟩, memory) :=
  rfl

/-- Minting comes down to finding the address of the top. -/
theorem perform_mint_top (host : Host σ) (top : Block) (rest : Stack Block)
    (links : List (Address × Block)) (memory : σ) :
    perform host .mint (⟨top :: rest, links⟩, memory) =
      (match Bytecode.addressOf top with
        | .error e => throw e
        | .ok target => do
          match ← Program.takeOff with
          | some b => do
            Program.record host (.minted target)
            Program.remember target b
          | none => pure ()
          Program.putOn (.link target)) (⟨top :: rest, links⟩, memory) :=
  rfl

theorem perform_of_edit (host : Host σ) (e : Edit) (w : Workbench) (memory : σ) :
    perform host e (w, memory) =
      match w.edit host e memory with
      | (.ok w', memory') => (.ok (), w', memory')
      | (.error fault, memory') => (.error fault, w, memory') := by
  obtain ⟨stack, links⟩ := w
  cases e with
  | push b => rfl
  | box => cases stack <;> rfl
  | unbox =>
    cases stack with
    | nil => rfl
    | cons top rest => cases top <;> rfl
  | split =>
    cases stack with
    | nil => rfl
    | cons top rest => cases top <;> rfl
  | join =>
    cases stack with
    | nil => rfl
    | cons upper rest => cases rest <;> rfl
  | copy => cases stack <;> rfl
  | drop => cases stack <;> rfl
  | swap => rfl
  | reduce quota => cases stack <;> rfl
  | follow =>
    cases stack with
    | nil => rfl
    | cons top rest =>
      cases top with
      | link target =>
        rw [perform_follow_link]
        simp only [edit]
        cases links.lookup target <;> rfl
      | _ => rfl
  | mint =>
    cases stack with
    | nil => rfl
    | cons top rest =>
      rw [perform_mint_top]
      simp only [edit]
      cases Bytecode.addressOf top <;> rfl

theorem perform_of_ok {host : Host σ} {e : Edit} {w w' : Workbench} {memory memory' : σ}
    (h : w.edit host e memory = (.ok w', memory')) :
    perform host e (w, memory) = (.ok (), w', memory') := by
  rw [perform_of_edit, h]

theorem perform_of_error {host : Host σ} {e : Edit} {w : Workbench} {memory memory' : σ}
    {fault : EncodeError} (h : w.edit host e memory = (.error fault, memory')) :
    perform host e (w, memory) = (.error fault, w, memory') := by
  rw [perform_of_edit, h]

theorem perform_mint_of_ok (host : Host σ) {w : Workbench} {top : Block} {rest : Stack Block}
    {target : Address} (hw : w.stack = top :: rest) (h : Bytecode.addressOf top = .ok target)
    (memory : σ) :
    perform host .mint (w, memory) =
      (.ok (), ⟨.link target :: rest, (target, top) :: w.links⟩,
        host.record (.minted target) memory) := by
  apply perform_of_ok
  simp only [edit, hw, h]

theorem perform_mint_of_error (host : Host σ) {w : Workbench} {top : Block} {rest : Stack Block}
    {fault : EncodeError} (hw : w.stack = top :: rest) (h : Bytecode.addressOf top = .error fault)
    (memory : σ) : perform host .mint (w, memory) = (.error fault, w, memory) := by
  apply perform_of_error
  simp only [edit, hw, h]

theorem perform_follow (host : Host σ) {w : Workbench} {target : Address} {rest : Stack Block}
    {b : Block} (hw : w.stack = .link target :: rest) (h : w.links.lookup target = some b)
    (memory : σ) :
    perform host .follow (w, memory) = (.ok (), { w with stack := b :: rest }, memory) := by
  apply perform_of_ok
  simp only [edit, hw, h]

theorem edit_of_lt_arity (host : Host σ) {e : Edit} {w : Workbench} (h : w.stack.length < e.arity)
    (memory : σ) : w.edit host e memory = (.ok w, memory) := by
  obtain ⟨stack, links⟩ := w
  cases stack with
  | nil =>
    cases e with
    | push b => exact (Nat.lt_irrefl 0 h).elim
    | _ => rfl
  | cons top rest =>
    cases rest with
    | nil =>
      -- One entry is too few for an edit of the top two only.
      cases e with
      | join => rfl
      | swap => rfl
      | _ => simp [Edit.arity] at h
    | cons below rest => cases e <;> simp [Edit.arity] at h

theorem edit_of_not_suits (host : Host σ) {e : Edit} {w : Workbench} {top : Block}
    {rest : Stack Block} (hw : w.stack = top :: rest) (h : e.suits top = false) (memory : σ) :
    w.edit host e memory = (.ok w, memory) := by
  obtain ⟨stack, links⟩ := w
  cases hw
  cases e with
  | unbox => cases top <;> first | rfl | cases h
  | split => cases top <;> first | rfl | cases h
  | follow => cases top <;> first | rfl | cases h
  | _ => cases h

/-! The block of a workbench. -/

theorem block_push (w : Workbench) (b : Block) :
    ({ w with stack := b :: w.stack } : Workbench).block = Block.compose [w.block, b] := by
  have hb : ({ w with stack := b :: w.stack } : Workbench).block =
      Block.compose (w.stack.reverse ++ [b]) := by
    simp [block, Stack.fromBottom]
  rw [hb]
  apply Block.compose_congr
  simp [block, Stack.fromBottom]

theorem block_congr {links links' : List (Address × Block)} {upper upper' rest : Stack Block}
    (h : upper.reverse.flatMap Block.pieces = upper'.reverse.flatMap Block.pieces) :
    (⟨upper ++ rest, links⟩ : Workbench).block = (⟨upper' ++ rest, links'⟩ : Workbench).block := by
  apply Block.compose_congr
  simp only [Stack.fromBottom, List.reverse_append, List.flatMap_append, h]

theorem block_join (host : Host σ) (w : Workbench) (memory : σ) :
    (perform host .join (w, memory)).2.1.block = w.block := by
  obtain ⟨stack, links⟩ := w
  cases stack with
  | nil => rfl
  | cons upper rest =>
    cases rest with
    | nil => rfl
    | cons lower rest =>
      have hpieces : [Block.compose [lower, upper]].reverse.flatMap Block.pieces =
          [upper, lower].reverse.flatMap Block.pieces := by simp
      exact block_congr hpieces

theorem block_split (host : Host σ) (w : Workbench) (memory : σ) :
    (perform host .split (w, memory)).2.1.block = w.block := by
  obtain ⟨stack, links⟩ := w
  cases stack with
  | nil => rfl
  | cons top rest =>
    cases top with
    | pair a b =>
      have hpieces : [b, a].reverse.flatMap Block.pieces =
          [Block.pair a b].reverse.flatMap Block.pieces := by
        simp [Block.pieces]
      exact block_congr hpieces
    | _ => rfl

/-! Edits that undo one another. -/

theorem split_join (host : Host σ) {w : Workbench} {a b : Block} {rest : Stack Block}
    (hw : w.stack = .pair a b :: rest) (hn : (Block.pair a b).isNormal) (memory : σ) :
    performAll host [.split, .join] (w, memory) = (w, memory) := by
  obtain ⟨stack, links⟩ := w
  cases hw
  have hc : Block.compose [a, b] = .pair a b := by
    rw [← Block.compose_singleton hn]
    exact Block.compose_congr (by simp [Block.pieces])
  change ((⟨Block.compose [a, b] :: rest, links⟩ : Workbench), memory) = _
  rw [hc]

theorem box_unbox (host : Host σ) (w : Workbench) (memory : σ) :
    performAll host [.box, .unbox] (w, memory) = (w, memory) := by
  obtain ⟨stack, links⟩ := w
  cases stack <;> rfl

theorem mint_follow (host : Host σ) {w : Workbench} {memory : σ}
    (h : (perform host .mint (w, memory)).1 = .ok ()) :
    (performAll host [.mint, .follow] (w, memory)).1.stack = w.stack := by
  obtain ⟨stack, links⟩ := w
  cases stack with
  | nil => rfl
  | cons top rest =>
    cases ha : Bytecode.addressOf top with
    | error fault =>
      rw [perform_mint_of_error host rfl ha] at h
      cases h
    | ok target =>
      have hlookup : ((target, top) :: links).lookup target = some top := List.lookup_cons_self
      have hfollow := perform_follow host
        (w := ⟨.link target :: rest, (target, top) :: links⟩) rfl hlookup
      rw [performAll, perform_mint_of_ok host rfl ha, performAll, hfollow]
      rfl

/-- Joining and splitting leave the block of a workbench alone, boxing, splitting a normal
composition and minting are undone by their inverses, pushing composes, and an edit that does
not fit the stack changes nothing. In place and as a whole, edits come to the same. -/
theorem edits_and_block (host : Host σ) (w : Workbench) (memory : σ) :
    (perform host .join (w, memory)).2.1.block = w.block ∧
    (perform host .split (w, memory)).2.1.block = w.block ∧
    (∀ a b rest, w.stack = .pair a b :: rest → (Block.pair a b).isNormal →
      performAll host [.split, .join] (w, memory) = (w, memory)) ∧
    performAll host [.box, .unbox] (w, memory) = (w, memory) ∧
    ((perform host .mint (w, memory)).1 = .ok () →
      (performAll host [.mint, .follow] (w, memory)).1.stack = w.stack) ∧
    (∀ b, (perform host (.push b) (w, memory)).2.1.block = Block.compose [w.block, b]) ∧
    (∀ e : Edit, w.stack.length < e.arity → perform host e (w, memory) = (.ok (), w, memory)) ∧
    (∀ (e : Edit) top rest, w.stack = top :: rest → e.suits top = false →
      perform host e (w, memory) = (.ok (), w, memory)) ∧
    ∀ e, perform host e (w, memory) =
      match w.edit host e memory with
      | (.ok w', memory') => (.ok (), w', memory')
      | (.error fault, memory') => (.error fault, w, memory') := by
  refine ⟨block_join host w memory, block_split host w memory,
    fun a b rest hw hn => split_join host hw hn memory, box_unbox host w memory, mint_follow host,
    block_push w, fun e h => ?_, fun e top rest hw h => ?_,
    fun e => perform_of_edit host e w memory⟩
  · exact perform_of_ok (edit_of_lt_arity host h memory)
  · exact perform_of_ok (edit_of_not_suits host hw h memory)

end Workbench

end BlockCalculus
