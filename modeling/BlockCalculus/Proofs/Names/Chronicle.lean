import BlockCalculus.Proofs.Names.Sharing
import Mathlib

/-! The cache of a resolver while files come and go. Beside the cache runs a chronicle of all
expansions, inner ones too, each with the cache as it was when the expansion returned. -/

namespace BlockCalculus

namespace Folder

/-- An expansion that has returned, with the cache before it and after it. -/
structure Expansion where
  folder : Folder
  inFlight : List String
  name : String
  before : Cache
  answer : Except ReadError Block
  after : Cache

/-- A cache, and the expansions that have used it, latest first. -/
structure Chronicle where
  cache : Cache
  past : List Expansion

def Chronicle.empty : Chronicle :=
  ⟨[], []⟩

variable {folder : Folder} {inFlight : List String} {name : String}

def Chronicle.store : Store (StateM Chronicle) where
  find name := do return (← get).cache.lookup name
  keep name b := modify fun c => { c with cache := (name, b) :: c.cache }
  clear := modify fun c => { c with cache := [] }

theorem Store.memory_find (name : String) (cache : Cache) :
    (liftM (Store.memory.find name) : ExceptT ReadError (StateM Cache) (Option Block)) cache =
      (.ok (cache.lookup name), cache) :=
  rfl

theorem Chronicle.store_find (name : String) (c : Chronicle) :
    (liftM (store.find name) : ExceptT ReadError (StateM Chronicle) (Option Block)) c =
      (.ok (c.cache.lookup name), c) :=
  rfl

/-- Expansion with each return written down. -/
def expandNoting (folder : Folder) (inFlight : List String) (name : String) :
    ExceptT ReadError (StateM Chronicle) Block :=
  fun c =>
    let (answer, after) := folder.expandOnce Chronicle.store.find Chronicle.store.keep inFlight name
      (fun _ inner => folder.expandNoting (name :: inFlight) inner) c
    (answer, { after with past := ⟨folder, inFlight, name, c.cache, answer, after.cache⟩ :: after.past })
termination_by remaining folder.files inFlight

theorem head?_past_expandNoting (folder : Folder) (inFlight : List String) (name : String)
    (c : Chronicle) :
    (folder.expandNoting inFlight name c).2.past.head? =
      some ⟨folder, inFlight, name, c.cache, (folder.expandNoting inFlight name c).1,
        (folder.expandNoting inFlight name c).2.cache⟩ := by
  rw [expandNoting]
  rfl

section Shadows

variable {σ τ : Type} {seen : σ → τ} {store : Store (StateM σ)} {store' : Store (StateM τ)}

/-- What is seen of a memory is used by the one cache as by the other. -/
structure Store.Shadows (seen : σ → τ) (store : Store (StateM σ)) (store' : Store (StateM τ)) :
    Prop where
  find : ∀ n, BlockCalculus.Shadows seen (liftM (store.find n)) (liftM (store'.find n))
  keep : ∀ n b, BlockCalculus.Shadows seen (liftM (store.keep n b)) (liftM (store'.keep n b))

theorem expandOnce_shadows (hs : Store.Shadows seen store store')
    {again : remaining folder.files (name :: inFlight) < remaining folder.files inFlight →
      String → ExceptT ReadError (StateM σ) Block}
    {again' : remaining folder.files (name :: inFlight) < remaining folder.files inFlight →
      String → ExceptT ReadError (StateM τ) Block}
    (h : ∀ less n, Shadows seen (again less n) (again' less n)) :
    Shadows seen (folder.expandOnce store.find store.keep inFlight name again)
      (folder.expandOnce store'.find store'.keep inFlight name again') := by
  refine (hs.find name).bind fun found => ?_
  cases found with
  | some kept => exact .pure kept
  | none =>
    dsimp only
    cases folder.start inFlight name with
    | error e => exact .throw e
    | ok start =>
      refine (Shadows.substitute (h start.less) start.body).bind fun b => ?_
      exact (hs.keep name b).bind fun _ => .pure b

theorem expandWith_shadows (hs : Store.Shadows seen store store') (folder : Folder)
    (inFlight : List String) (name : String) :
    Shadows seen (folder.expandWith store.find store.keep inFlight name)
      (folder.expandWith store'.find store'.keep inFlight name) := by
  induction hroom : remaining folder.files inFlight using Nat.strongRecOn generalizing inFlight name with
  | ind _ ih =>
    rw [expandWith_eq_expandOnce, expandWith_eq_expandOnce]
    exact expandOnce_shadows hs fun less n => ih _ (hroom ▸ less) _ n rfl

theorem Chronicle.store_shadows : Store.Shadows Chronicle.cache Chronicle.store Store.memory where
  find _ _ := ⟨rfl, rfl⟩
  keep _ _ _ := ⟨rfl, rfl⟩

theorem expandNoting_shadows (folder : Folder) (inFlight : List String) (name : String) :
    Shadows Chronicle.cache (folder.expandNoting inFlight name)
      (folder.expandWith Store.memory.find Store.memory.keep inFlight name) := by
  induction hroom : remaining folder.files inFlight using Nat.strongRecOn generalizing inFlight name with
  | ind _ ih =>
    intro c
    rw [expandNoting, expandWith_eq_expandOnce]
    exact expandOnce_shadows Chronicle.store_shadows (fun less n => ih _ (hroom ▸ less) _ n rfl) c

end Shadows

/-- Whatever the old cache has for a name, the new one has too. -/
def Within (old new : Cache) : Prop :=
  ∀ n b, old.lookup n = some b → new.lookup n = some b

theorem Within.refl (cache : Cache) : Within cache cache :=
  fun _ _ h => h

theorem Within.cons {old new : Cache} (h : Within old new) {n : String} (hn : new.lookup n = none)
    (b : Block) : Within old ((n, b) :: new) := by
  intro k c hk
  have hne : k ≠ n := by
    rintro rfl
    cases hn.symm.trans (h k c hk)
  rw [List.lookup_cons, beq_false_of_ne hne]
  exact h k c hk

/-- A cache holds valid names with blocks in normal form that mention no names. -/
def Valid (cache : Cache) : Prop :=
  ∀ e ∈ cache, Notation.isName e.1 ∧ e.2.Writable

def Absent (names : List String) (cache : Cache) : Prop :=
  ∀ n ∈ names, cache.lookup n = none

/-- What is right about an expansion that has returned. -/
structure Expansion.Settled (e : Expansion) : Prop where
  replayed :
    e.folder.expandWith Store.memory.find Store.memory.keep e.inFlight e.name e.before =
      (e.answer, e.after)
  valid : Valid e.after
  kept : ∀ b, e.answer = .ok b → e.after.lookup e.name = some b
  traceless : ∀ r, e.answer = .error r → Absent (e.name :: e.inFlight) e.after

/-- A chronicle in the middle of expansions, which began with an old cache. -/
structure Chronicle.Pending (old : Cache) (inFlight : List String) (c : Chronicle) : Prop where
  valid : Valid c.cache
  grown : Within old c.cache
  absent : Absent inFlight c.cache
  past : ∀ e ∈ c.past, e.Settled ∧ Within e.after c.cache

/-- A chronicle right after an expansion, before that is written down. -/
structure Chronicle.Returned (old : Cache) (inFlight : List String) (name : String)
    (answer : Except ReadError Block) (c : Chronicle) : Prop extends Chronicle.Pending old inFlight c where
  kept : ∀ b, answer = .ok b → b.Writable ∧ c.cache.lookup name = some b
  traceless : ∀ r, answer = .error r → c.cache.lookup name = none

namespace Chronicle

variable {old : Cache} {c : Chronicle}

theorem Pending.enter (h : c.Pending old inFlight) (hn : c.cache.lookup name = none) :
    c.Pending old (name :: inFlight) where
  valid := h.valid
  grown := h.grown
  absent := List.forall_mem_cons.mpr ⟨hn, h.absent⟩
  past := h.past

theorem Pending.found (h : c.Pending old inFlight) {b : Block} (hb : c.cache.lookup name = some b) :
    c.Returned old inFlight name (.ok b) where
  toPending := h
  kept := by
    intro b' he
    cases he
    exact ⟨(h.valid (name, b) (mem_of_lookup hb)).2, hb⟩
  traceless := by
    intro r he
    cases he

theorem Pending.failed (h : c.Pending old (name :: inFlight)) (r : ReadError) :
    c.Returned old inFlight name (.error r) where
  valid := h.valid
  grown := h.grown
  absent := (List.forall_mem_cons.mp h.absent).2
  past := h.past
  kept := by
    intro b he
    cases he
  traceless := fun _ _ => (List.forall_mem_cons.mp h.absent).1

theorem Pending.keep (h : c.Pending old (name :: inFlight)) (hv : Notation.isName name)
    (hn : name ∉ inFlight) {b : Block} (hb : b.Writable) :
    Returned old inFlight name (.ok b) { c with cache := (name, b) :: c.cache } := by
  -- the name has been absent all along, so the new entry hides no other one
  obtain ⟨habsent, hinFlight⟩ := List.forall_mem_cons.mp h.absent
  refine ⟨⟨?_, h.grown.cons habsent b, ?_, ?_⟩, ?_, ?_⟩
  · exact List.forall_mem_cons.mpr ⟨⟨hv, hb⟩, h.valid⟩
  · intro n hmem
    have hne : n ≠ name := fun he => hn (he ▸ hmem)
    simp only [List.lookup_cons, beq_false_of_ne hne]
    exact hinFlight n hmem
  · intro e he
    obtain ⟨hsettled, hwithin⟩ := h.past e he
    exact ⟨hsettled, hwithin.cons habsent b⟩
  · intro b' he
    cases he
    exact ⟨hb, List.lookup_cons_self⟩
  · intro r he
    cases he

theorem Returned.note {answer : Except ReadError Block} (h : c.Returned old inFlight name answer)
    {before : Cache}
    (hreplay : folder.expandWith Store.memory.find Store.memory.keep inFlight name before =
      (answer, c.cache)) :
    Pending old inFlight
      { c with past := ⟨folder, inFlight, name, before, answer, c.cache⟩ :: c.past } where
  valid := h.valid
  grown := h.grown
  absent := h.absent
  past := by
    refine List.forall_mem_cons.mpr ⟨⟨⟨hreplay, h.valid, ?_, ?_⟩, Within.refl c.cache⟩, h.past⟩
    · exact fun b hb => (h.kept b hb).2
    · exact fun r hr => List.forall_mem_cons.mpr ⟨h.traceless r hr, h.absent⟩

end Chronicle

section Keeps

variable {old : Cache}

theorem expandOnce_returned
    {again : remaining folder.files (name :: inFlight) < remaining folder.files inFlight →
      String → ExceptT ReadError (StateM Chronicle) Block}
    (h : ∀ less n, Keeps (Chronicle.Pending old (name :: inFlight)) Block.Writable (again less n))
    {c : Chronicle} (hc : c.Pending old inFlight) :
    (folder.expandOnce Chronicle.store.find Chronicle.store.keep inFlight name again c).2.Returned old inFlight name
      (folder.expandOnce Chronicle.store.find Chronicle.store.keep inFlight name again c).1 := by
  rw [expandOnce, bind_apply, Chronicle.store_find]
  dsimp only
  cases hl : c.cache.lookup name with
  | some kept => exact hc.found hl
  | none =>
    -- from here to its return the name counts as in flight, so a failure finds it absent
    have henter := hc.enter hl
    dsimp only
    cases folder.start inFlight name with
    | error e => exact henter.failed e
    | ok start =>
      obtain ⟨hpending, hwritable⟩ := Keeps.substitute (b := start.body) (h start.less) c henter
      dsimp only
      rw [bind_apply]
      cases hr : (start.body.substitute (again start.less) c).1 with
      | error e => exact hpending.failed e
      | ok b => exact hpending.keep start.valid start.fresh (hwritable b hr)

theorem expandNoting_keeps (folder : Folder) (inFlight : List String) (name : String) :
    Keeps (Chronicle.Pending old inFlight) Block.Writable (folder.expandNoting inFlight name) := by
  induction hroom : remaining folder.files inFlight using Nat.strongRecOn generalizing inFlight name with
  | ind _ ih =>
    intro c hc
    have hinner (less : remaining folder.files (name :: inFlight) < remaining folder.files inFlight)
        (n : String) : Keeps (Chronicle.Pending old (name :: inFlight)) Block.Writable
          (folder.expandNoting (name :: inFlight) n) := ih _ (hroom ▸ less) _ n rfl
    have hreturned := expandOnce_returned hinner hc
    have hreplay := folder.expandNoting_shadows inFlight name c
    rw [expandNoting] at hreplay ⊢
    refine ⟨hreturned.note ?_, fun b hb => (hreturned.kept b hb).1⟩
    exact Prod.ext hreplay.1.symm hreplay.2.symm

end Keeps

end Folder

end BlockCalculus
