import BlockCalculus.Proofs.Names.Cache

/-! Computations that share a cache. Between two accesses of one of them the others may
have their turn, so a computation is the tree of its accesses. -/

namespace BlockCalculus

inductive Access (α : Type) where
  | done (result : α)
  | find (name : String) (next : Option Block → Access α)
  | keep (name : String) (b : Block) (next : Access α)
  | clear (next : Access α)

namespace Access

variable {α β : Type}

def bind (f : α → Access β) : Access α → Access β
  | done a => f a
  | find name next => find name fun found => (next found).bind f
  | keep name b next => keep name b (next.bind f)
  | clear next => clear (next.bind f)

instance : Monad Access where
  pure := done
  bind x f := x.bind f

theorem bind_done (x : Access α) : x.bind done = x := by
  induction x with
  | done a => rfl
  | find name next ih => exact congrArg (find name) (funext ih)
  | keep name b next ih => exact congrArg (keep name b) ih
  | clear next ih => exact congrArg clear ih

theorem bind_bind {γ : Type} (x : Access α) (f : α → Access β) (g : β → Access γ) :
    (x.bind f).bind g = x.bind fun a => (f a).bind g := by
  induction x with
  | done a => rfl
  | find name next ih => exact congrArg (find name) (funext ih)
  | keep name b next ih => exact congrArg (keep name b) ih
  | clear next ih => exact congrArg clear ih

instance : LawfulMonad Access :=
  LawfulMonad.mk' Access bind_done (fun _ _ => rfl) bind_bind

def step : Access α → Folder.Cache → Access α × Folder.Cache
  | done a, cache => (done a, cache)
  | find name next, cache => (next (cache.lookup name), cache)
  | keep name b next, cache => (next, (name, b) :: cache)
  | clear next, _ => (next, [])

variable {folder : Folder}

/-- The computation ends with this result and keeps meanings only, as long as what it finds
are meanings, no matter which of them are there. -/
inductive Gives (folder : Folder) : Access α → α → Prop
  | done (a : α) : Gives folder (done a) a
  | find {name : String} {next : Option Block → Access α} {a : α}
    (h : ∀ found, (∀ b, found = some b → folder.meaning name = .ok b) → Gives folder (next found) a) :
    Gives folder (find name next) a
  | keep {name : String} {b : Block} {next : Access α} {a : α} (hb : folder.meaning name = .ok b)
    (h : Gives folder next a) : Gives folder (keep name b next) a
  | clear {next : Access α} {a : α} (h : Gives folder next a) : Gives folder (clear next) a

theorem Gives.bind {x : Access α} {f : α → Access β} {a : α} {b : β} (hx : Gives folder x a)
    (hf : Gives folder (f a) b) : Gives folder (x.bind f) b := by
  induction hx with
  | done a => exact hf
  | find _ ih => exact .find fun found hfound => ih found hfound hf
  | keep hb _ ih => exact .keep hb (ih hf)
  | clear _ ih => exact .clear (ih hf)

theorem gives_caching (folder : Folder) :
    Folder.Caching folder.meaning (fun name => find name done) (fun name b => keep name b (done ()))
      (Gives folder) where
  pure a := .done a
  bind hx hf := hx.bind hf
  find h := .find fun found hfound => h found hfound
  keep hb := .keep hb (.done _)

theorem Gives.step {x : Access α} {a : α} (h : Gives folder x a) {cache : Folder.Cache}
    (hc : folder.Sound cache) :
    Gives folder (x.step cache).1 a ∧ folder.Sound (x.step cache).2 := by
  cases h with
  | done a => exact ⟨.done a, hc⟩
  | @find name next a h => exact ⟨h _ fun b hb => hc name b hb, hc⟩
  | keep hb h => exact ⟨h, hc.cons hb⟩
  | clear h => exact ⟨h, folder.sound_nil⟩

theorem Gives.eq_of_done {a b : α} (h : Gives folder (Access.done a) b) : a = b := by
  cases h
  rfl

end Access

end BlockCalculus
