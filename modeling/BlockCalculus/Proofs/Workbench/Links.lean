import BlockCalculus.Names.InFlight
import BlockCalculus.Proofs.Bytecode.Identity
import BlockCalculus.Proofs.Workbench.Edits

/-! Addresses minted at a workbench. Every edit keeps what has been minted, and adds
only blocks under their own addresses; so following an address leads to a block with
that address, whatever has happened in between. -/

namespace BlockCalculus

namespace Bytecode

/-- Two blocks have different codes with the same digest. -/
def CodesCollide (a b : Block) : Prop :=
  ∃ s t, encode a = .ok s ∧ encode b = .ok t ∧ s ≠ t ∧ Sha256.digest s = Sha256.digest t

/-- Blocks with the same address have the same code, unless their codes collide. -/
theorem encode_eq_of_addressOf_eq {a b : Block} {target : Address} (ha : addressOf a = .ok target)
    (hb : addressOf b = .ok target) (h : ¬CodesCollide a b) : encode a = encode b := by
  obtain ⟨hna, hta⟩ := addressOf_eq_ok_iff.mp ha
  obtain ⟨hnb, htb⟩ := addressOf_eq_ok_iff.mp hb
  have hea := encode_of_names_eq_nil hna
  have heb := encode_of_names_eq_nil hnb
  by_contra hne
  refine h ⟨written a, written b, hea, heb, fun hw => hne ?_, hta.symm.trans htb⟩
  rw [hea, heb, hw]

end Bytecode

namespace Workbench

variable {σ : Type}

/-- Every block is remembered under its own address. -/
def Truthful (w : Workbench) : Prop :=
  ∀ l ∈ w.links, Bytecode.addressOf l.2 = .ok l.1

/-- An edit leaves what is remembered, or adds a block under its own address. -/
theorem links_edit {host : Host σ} {e : Edit} {w w' : Workbench} {memory memory' : σ}
    (h : w.edit host e memory = (.ok w', memory')) :
    w'.links = w.links ∨ ∃ b target, Bytecode.addressOf b = .ok target ∧
      w'.links = (target, b) :: w.links := by
  unfold edit at h
  split at h
  case h_6 top rest hs =>
    split at h
    · rename_i target ha
      cases h
      exact .inr ⟨top, target, ha, rfl⟩
    · cases h
  case h_7 target rest hs =>
    split at h
    all_goals
      cases h
      exact .inl rfl
  all_goals
    cases h
    exact .inl rfl

theorem links_perform (host : Host σ) (e : Edit) (w : Workbench) (memory : σ) :
    (perform host e (w, memory)).2.1.links = w.links ∨
      ∃ b target, Bytecode.addressOf b = .ok target ∧
        (perform host e (w, memory)).2.1.links = (target, b) :: w.links := by
  rw [perform_of_edit]
  split
  · rename_i w' memory' h
    exact links_edit h
  · exact .inl rfl

theorem Truthful.perform {w : Workbench} (hw : w.Truthful) (host : Host σ) (e : Edit) (memory : σ) :
    (perform host e (w, memory)).2.1.Truthful := by
  intro l hl
  rcases links_perform host e w memory with h | ⟨b, target, hb, h⟩
  · exact hw l (h ▸ hl)
  · rw [h] at hl
    rcases List.mem_cons.mp hl with rfl | hl
    · exact hb
    · exact hw l hl

theorem Truthful.performAll {s : Workbench × σ} (hs : s.1.Truthful) (host : Host σ)
    (edits : List Edit) : (performAll host edits s).1.Truthful := by
  induction edits generalizing s with
  | nil => exact hs
  | cons e edits ih => exact ih (hs.perform host e s.2)

theorem links_performAll (host : Host σ) (edits : List Edit) (s : Workbench × σ) :
    s.1.links <:+ (performAll host edits s).1.links := by
  induction edits generalizing s with
  | nil => exact List.suffix_rfl
  | cons e edits ih =>
    have hone : s.1.links <:+ (Workbench.perform host e s).2.1.links := by
      rcases links_perform host e s.1 s.2 with h | ⟨b, target, -, h⟩
      · exact h ▸ List.suffix_rfl
      · exact h ▸ List.suffix_cons _ _
    exact hone.trans (ih _)

/-- What is remembered stays so, though a later block may take the place. -/
theorem lookup_performAll {host : Host σ} {s : Workbench × σ} {target : Address}
    (h : (s.1.links.lookup target).isSome) (edits : List Edit) :
    ((performAll host edits s).1.links.lookup target).isSome := by
  obtain ⟨more, hmore⟩ := links_performAll host edits s
  rw [← hmore, List.lookup_append, Option.isSome_or, h, Bool.or_true]

theorem Truthful.lookup {w : Workbench} (hw : w.Truthful) {target : Address} {b : Block}
    (h : w.links.lookup target = some b) : Bytecode.addressOf b = .ok target :=
  hw (target, b) (mem_of_lookup h)

theorem empty_truthful : empty.Truthful :=
  List.forall_mem_nil _

theorem exists_target_of_mint {host : Host σ} {s s' : Workbench × σ} {t : Block}
    {rest : Stack Block} (hs : s.1.stack = t :: rest) (h : perform host .mint s = (.ok (), s')) :
    ∃ target, Bytecode.addressOf t = .ok target ∧ s'.1.stack = .link target :: rest ∧
      s'.1.links = (target, t) :: s.1.links := by
  cases ha : Bytecode.addressOf t with
  | error fault =>
    rw [perform_mint_of_error host hs ha s.2] at h
    cases h
  | ok target =>
    rw [perform_mint_of_ok host hs ha s.2] at h
    cases h
    exact ⟨target, rfl, rfl, rfl⟩

theorem eq_of_mint_error {host : Host σ} {s s' : Workbench × σ} {fault : EncodeError}
    (h : perform host .mint s = (.error fault, s')) : s' = s := by
  cases hs : s.1.stack with
  | nil =>
    have hsmall : s.1.stack.length < Edit.mint.arity := by rw [hs]; exact Nat.one_pos
    rw [perform_of_ok (edit_of_lt_arity host hsmall s.2)] at h
    cases h
  | cons top rest =>
    cases ha : Bytecode.addressOf top with
    | error fault' =>
      rw [perform_mint_of_error host hs ha s.2] at h
      cases h
      rfl
    | ok target =>
      rw [perform_mint_of_ok host hs ha s.2] at h
      cases h

theorem follow_minted (host : Host σ) {s s' : Workbench × σ} {t : Block} {rest below : Stack Block}
    {target : Address} (hs : s.1.Truthful) (ht : s.1.stack = t :: rest)
    (hmint : perform host .mint s = (.ok (), s')) (htop : s'.1.stack = .link target :: rest)
    (later : List Edit) (hlater : (performAll host later s').1.stack = .link target :: below) :
    ∃ t', perform host .follow (performAll host later s') =
        (.ok (), { (performAll host later s').1 with stack := t' :: below },
          (performAll host later s').2) ∧
      Bytecode.addressOf t = .ok target ∧ Bytecode.addressOf t' = .ok target := by
  obtain ⟨target', ha, hstack, hlinks⟩ := exists_target_of_mint ht hmint
  have htarget : target' = target := by
    rw [hstack] at htop
    exact Block.link.inj (List.cons.inj htop).1
  subst htarget
  have hfound : (s'.1.links.lookup target').isSome := by
    rw [hlinks, List.lookup_cons_self]
    rfl
  obtain ⟨t', hlookup⟩ := Option.isSome_iff_exists.mp (lookup_performAll hfound later)
  have hs' : s'.1.Truthful := by
    have h := hs.perform host .mint s.2
    rw [show perform host .mint (s.1, s.2) = _ from hmint] at h
    exact h
  exact ⟨t', perform_follow host hlater hlookup _, ha, (hs'.performAll host later).lookup hlookup⟩

/-- In a session of edits every block is remembered under its own address, and no address is
forgotten. An address that was minted for a block, once it is on top again, leads to a block with
that address: one with the same code unless the codes collide, and the very block if both are in
normal form. Where minting fails nothing has changed. -/
theorem minted_links_truthful (host : Host σ) (edits : List Edit) (memory : σ) :
    let s := performAll host edits (empty, memory)
    (∀ target b, s.1.links.lookup target = some b → Bytecode.addressOf b = .ok target) ∧
    (∀ target, (s.1.links.lookup target).isSome →
      ∀ later, ((performAll host later s).1.links.lookup target).isSome) ∧
    (∀ fault s', perform host .mint s = (.error fault, s') → s' = s) ∧
    ∀ t rest target s', s.1.stack = t :: rest → perform host .mint s = (.ok (), s') →
      s'.1.stack = .link target :: rest →
      ∀ later below, (performAll host later s').1.stack = .link target :: below →
        ∃ t', perform host .follow (performAll host later s') =
            (.ok (), { (performAll host later s').1 with stack := t' :: below },
              (performAll host later s').2) ∧
          Bytecode.addressOf t' = .ok target ∧
          (¬Bytecode.CodesCollide t t' → Bytecode.encode t' = Bytecode.encode t ∧
            (t.isNormal → t'.isNormal → t' = t)) := by
  intro s
  have hs : s.1.Truthful := empty_truthful.performAll (s := (empty, memory)) host edits
  refine ⟨fun target b h => hs.lookup h, fun target h later => lookup_performAll h later,
    fun fault s' => eq_of_mint_error, ?_⟩
  intro t rest target s' ht hmint htop later below hlater
  obtain ⟨t', hfollow, ha, ha'⟩ := follow_minted host hs ht hmint htop later hlater
  refine ⟨t', hfollow, ha', fun hfree => ?_⟩
  have hcode : Bytecode.encode t = Bytecode.encode t' :=
    Bytecode.encode_eq_of_addressOf_eq ha ha' hfree
  refine ⟨hcode.symm, fun hn hn' => ?_⟩
  have hwritable : t.Writable := ⟨hn, (Bytecode.addressOf_eq_ok_iff.mp ha).1⟩
  have hwritable' : t'.Writable := ⟨hn', (Bytecode.addressOf_eq_ok_iff.mp ha').1⟩
  exact (Bytecode.encode_injective hwritable hwritable' hcode).symm

/-- A block of another shape with the same code takes the place of the one minted first. -/
theorem minted_links_truthful_overwritten :
    let host := Host.ofAnswers Host.refuse
    let first := Block.prim .copy
    let second := Block.pair .empty first
    ∃ target s', perform host .mint (performAll host [.push first] (empty, ())) = (.ok (), s') ∧
      perform host .follow (performAll host [.push second, .mint, .drop] s') =
        (.ok (), ⟨[second], [(target, second), (target, first)]⟩, ()) ∧
      Bytecode.addressOf second = .ok target ∧
      (¬Bytecode.CodesCollide first second → Bytecode.encode second = Bytecode.encode first) := by
  intro host first second
  obtain ⟨target, ha⟩ : ∃ target, Bytecode.addressOf first = .ok target :=
    ⟨_, Bytecode.addressOf_eq_ok_iff.mpr ⟨rfl, rfl⟩⟩
  have ha' : Bytecode.addressOf second = .ok target :=
    Bytecode.addressOf_eq_ok_iff.mpr ⟨rfl, (Bytecode.addressOf_eq_ok_iff.mp ha).2⟩
  have hmint : perform host .mint (performAll host [.push first] (empty, ())) =
      (.ok (), ⟨[.link target], [(target, first)]⟩, ()) :=
    perform_mint_of_ok host rfl ha ()
  have hlater : performAll host [.push second, .mint, .drop]
      (⟨[.link target], [(target, first)]⟩, ()) =
      (⟨[.link target], [(target, second), (target, first)]⟩, ()) := by
    have hover := perform_mint_of_ok host
      (w := ⟨[second, .link target], [(target, first)]⟩) rfl ha' ()
    change performAll host [.drop] (perform host .mint
      (⟨[second, .link target], [(target, first)]⟩, ())).2 = _
    rw [hover]
    rfl
  obtain ⟨t', hfollow, hat', hcode⟩ := (minted_links_truthful host [.push first] ()).2.2.2
    first [] target _ rfl hmint rfl [.push second, .mint, .drop] [] (by rw [hlater])
  have hlookup : ([(target, second), (target, first)] : List (Address × Block)).lookup target =
      some second := List.lookup_cons_self
  have hsecond := perform_follow host
    (w := ⟨[.link target], [(target, second), (target, first)]⟩) rfl hlookup ()
  rw [hlater, hsecond] at hfollow
  have ht' : t' = second :=
    (List.cons.inj (congrArg (fun r => r.2.1.stack) hfollow)).1.symm
  subst ht'
  exact ⟨target, _, hmint, by rw [hlater, hsecond], hat', fun hfree => (hcode hfree).1⟩

end Workbench

end BlockCalculus
