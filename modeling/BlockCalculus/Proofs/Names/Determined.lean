import BlockCalculus.Proofs.Block.NormalForm
import BlockCalculus.Workbench.Line

/-! Substitution with a memory. If the result of each look-up is determined, whatever
the memory does, so is the result of the substitution; what look-ups keep of a memory the
substitution keeps, and it shows as much of a memory as they do. -/

namespace BlockCalculus

variable {m : Type → Type} [Monad m]

/-- A way to say that a computation has a certain result, whatever happens on the side. -/
structure Determined (Yields : {α : Type} → m α → α → Prop) : Prop where
  pure : ∀ {α : Type} (a : α), Yields (Pure.pure a) a
  bind : ∀ {α β : Type} {x : m α} {f : α → m β} {a : α} {b : β}, Yields x a → Yields (f a) b →
    Yields (x >>= f) b

namespace Determined

variable {Yields : {α : Type} → m α → α → Prop}

theorem map (hd : Determined Yields) {α β : Type} {x : m α} {a : α} (hx : Yields x a) (f : α → β) :
    Yields (x >>= fun a => Pure.pure (f a)) (f a) :=
  hd.bind hx (hd.pure (f a))

theorem bindExcept (hd : Determined Yields) {α β : Type} {x : ExceptT ReadError m α}
    {f : α → ExceptT ReadError m β} {r : Except ReadError α} {g : α → Except ReadError β}
    (hx : Yields x.run r) (hf : ∀ a, r = .ok a → Yields (f a).run (g a)) :
    Yields (x >>= f).run (r >>= g) := by
  refine hd.bind (f := ExceptT.bindCont f) hx ?_
  cases r with
  | error e => exact hd.pure (Except.error e)
  | ok a => exact hf a rfl

theorem mapExcept (hd : Determined Yields) {α β : Type} {x : ExceptT ReadError m α}
    {r : Except ReadError α} (hx : Yields x.run r) (f : α → β) :
    Yields (x >>= fun a => Pure.pure (f a)).run (r >>= fun a => Pure.pure (f a)) :=
  hd.bindExcept hx fun a _ => hd.pure (Except.ok (f a))

theorem substitutePieces (hd : Determined Yields) {lookup : String → ExceptT ReadError m Block}
    {answers : String → Except ReadError Block} {b : Block}
    (h : ∀ n ∈ b.names, Yields (lookup n).run (answers n)) :
    Yields (b.substitutePieces lookup).run (b.substitutePieces answers) := by
  induction b with
  | var n => exact hd.mapExcept (h n (by simp [Block.names])) Block.pieces
  | quote body ih => exact hd.mapExcept (ih h) fun inner => [Block.quote (Block.ofItems inner)]
  | pair a b iha ihb =>
    have hp := List.forall_mem_append.mp h
    exact hd.bindExcept (iha hp.1) fun before _ =>
      hd.mapExcept (ihb hp.2) fun after => before ++ after
  | _ => exact hd.pure (Except.ok _)

theorem substitute (hd : Determined Yields) {lookup : String → ExceptT ReadError m Block}
    {answers : String → Except ReadError Block} {b : Block}
    (h : ∀ n ∈ b.names, Yields (lookup n).run (answers n)) :
    Yields (b.substitute lookup).run (b.substitute answers) :=
  hd.mapExcept (hd.substitutePieces h) Block.ofItems

end Determined

/-- From any good memory the computation has this result, and leaves a good memory. -/
def Steady {σ : Type} (good : σ → Prop) {α : Type} (x : StateM σ α) (a : α) : Prop :=
  ∀ s, good s → (x s).1 = a ∧ good (x s).2

theorem steady_determined {σ : Type} (good : σ → Prop) : Determined (Steady good) where
  pure _ _ hs := ⟨rfl, hs⟩
  bind := by
    intro α β x f a b hx hf s hs
    obtain ⟨ha, ht⟩ := hx s hs
    have hbind : (x >>= f) s = f (x s).1 (x s).2 := rfl
    rw [hbind, ha]
    exact hf _ ht

theorem readWith_steady {σ : Type} {host : Host σ} {good : σ → Prop}
    {answers : String → Except ReadError Block} (h : ∀ n, Steady good (host.resolve n) (answers n))
    (tokens : List Token) :
    Steady good (Workbench.readWith host tokens)
      (Notation.assemble tokens >>= fun b => b.substitute answers) := by
  unfold Workbench.readWith
  cases Notation.assemble tokens with
  | error e => exact fun _ hs => ⟨rfl, hs⟩
  | ok b => exact (steady_determined good).substitute fun n _ => h n

section Memory

variable {σ α β : Type}

theorem bind_apply (x : ExceptT ReadError (StateM σ) α) (f : α → ExceptT ReadError (StateM σ) β)
    (s : σ) :
    (x >>= f) s = match (x s).1 with
      | .ok a => f a (x s).2
      | .error e => (.error e, (x s).2) := by
  have hbind : (x >>= f) s = ExceptT.bindCont f (x s).1 (x s).2 := rfl
  rw [hbind]
  cases (x s).1 <;> rfl

/-- The memory stays good, and a result is as promised. -/
def Keeps (good : σ → Prop) (post : α → Prop) (x : ExceptT ReadError (StateM σ) α) : Prop :=
  ∀ s, good s → good (x s).2 ∧ ∀ a, (x s).1 = .ok a → post a

variable {good : σ → Prop} {post : α → Prop} {post' : β → Prop}

theorem Keeps.pure {a : α} (ha : post a) : Keeps good post (Pure.pure a) := by
  intro s hs
  refine ⟨hs, fun b hb => ?_⟩
  cases hb
  exact ha

theorem Keeps.bind {x : ExceptT ReadError (StateM σ) α} {f : α → ExceptT ReadError (StateM σ) β}
    (hx : Keeps good post x) (hf : ∀ a, post a → Keeps good post' (f a)) :
    Keeps good post' (x >>= f) := by
  intro s hs
  obtain ⟨hgood, hpost⟩ := hx s hs
  rw [bind_apply]
  cases hr : (x s).1 with
  | error e =>
    refine ⟨hgood, fun b hb => ?_⟩
    cases hb
  | ok a => exact hf a (hpost a hr) _ hgood

variable {lookup : String → ExceptT ReadError (StateM σ) Block}

theorem Keeps.substitutePieces {b : Block} (h : ∀ n, Keeps good Block.Writable (lookup n)) :
    Keeps good (fun l => ∀ x ∈ l, x.isPiece ∧ x.names = []) (b.substitutePieces lookup) := by
  induction b with
  | empty =>
    refine .pure fun x hx => ?_
    cases hx
  | var n => exact (h n).bind fun a ha => .pure fun x hx => Block.piece_of_names_eq_nil ha.2 hx
  | quote body ih =>
    refine ih.bind fun inner hinner => .pure fun x hx => ?_
    obtain ⟨hnormal, hnames⟩ := Block.writable_ofItems hinner
    rw [List.mem_singleton.mp hx]
    exact ⟨Block.isPiece_of_isValue rfl hnormal, hnames⟩
  | pair a b iha ihb =>
    refine iha.bind fun before hbefore => ihb.bind fun after hafter => .pure fun x hx => ?_
    rcases List.mem_append.mp hx with hx | hx
    · exact hbefore x hx
    · exact hafter x hx
  | _ =>
    refine .pure fun x hx => ?_
    rw [List.mem_singleton.mp hx]
    exact ⟨rfl, rfl⟩

theorem Keeps.substitute {b : Block} (h : ∀ n, Keeps good Block.Writable (lookup n)) :
    Keeps good Block.Writable (b.substitute lookup) :=
  (Keeps.substitutePieces h).bind fun _ hparts => .pure (Block.writable_ofItems hparts)

theorem Keeps.readWith {host : Host σ} (h : ∀ n, Keeps good Block.Writable (host.resolve n))
    (tokens : List Token) : Keeps good Block.Writable (Workbench.readWith host tokens) := by
  unfold Workbench.readWith
  cases Notation.assemble tokens with
  | error e =>
    refine fun s hs => ⟨hs, fun b hb => ?_⟩
    cases hb
  | ok b => exact Keeps.substitute h

end Memory

section Shadows

variable {σ τ α β : Type}

/-- The first computation does to what is seen of its memory what the second one does. -/
def Shadows (seen : σ → τ) (x : ExceptT ReadError (StateM σ) α)
    (y : ExceptT ReadError (StateM τ) α) : Prop :=
  ∀ s, (x s).1 = (y (seen s)).1 ∧ seen (x s).2 = (y (seen s)).2

variable {seen : σ → τ}

theorem Shadows.pure (a : α) : Shadows seen (Pure.pure a) (Pure.pure a) :=
  fun _ => ⟨rfl, rfl⟩

theorem Shadows.throw (e : ReadError) :
    Shadows seen (throw e : ExceptT ReadError (StateM σ) α) (MonadExcept.throw e) :=
  fun _ => ⟨rfl, rfl⟩

theorem Shadows.bind {x : ExceptT ReadError (StateM σ) α} {y : ExceptT ReadError (StateM τ) α}
    {f : α → ExceptT ReadError (StateM σ) β} {g : α → ExceptT ReadError (StateM τ) β}
    (hx : Shadows seen x y) (hf : ∀ a, Shadows seen (f a) (g a)) :
    Shadows seen (x >>= f) (y >>= g) := by
  intro s
  obtain ⟨hresult, hseen⟩ := hx s
  rw [bind_apply, bind_apply, hresult, ← hseen]
  cases (y (seen s)).1 with
  | error e => exact ⟨rfl, rfl⟩
  | ok a => exact hf a _

variable {lookup : String → ExceptT ReadError (StateM σ) Block}
  {lookup' : String → ExceptT ReadError (StateM τ) Block}

theorem Shadows.substitutePieces (h : ∀ n, Shadows seen (lookup n) (lookup' n)) (b : Block) :
    Shadows seen (b.substitutePieces lookup) (b.substitutePieces lookup') := by
  induction b with
  | var n => exact (h n).bind fun a => .pure a.pieces
  | quote body ih => exact ih.bind fun inner => .pure [Block.quote (Block.ofItems inner)]
  | pair a b iha ihb => exact iha.bind fun before => ihb.bind fun after => .pure (before ++ after)
  | _ => exact .pure _

theorem Shadows.substitute (h : ∀ n, Shadows seen (lookup n) (lookup' n)) (b : Block) :
    Shadows seen (b.substitute lookup) (b.substitute lookup') :=
  (Shadows.substitutePieces h b).bind fun parts => .pure (Block.ofItems parts)

theorem Shadows.readWith {host : Host σ} {host' : Host τ}
    (h : ∀ n, Shadows seen (host.resolve n) (host'.resolve n)) (tokens : List Token) :
    Shadows seen (Workbench.readWith host tokens) (Workbench.readWith host' tokens) := by
  unfold Workbench.readWith
  cases Notation.assemble tokens with
  | error e => exact .throw e
  | ok b => exact Shadows.substitute h b

end Shadows

end BlockCalculus
