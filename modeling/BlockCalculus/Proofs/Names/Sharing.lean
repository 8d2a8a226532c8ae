import BlockCalculus.Proofs.Names.Access
import BlockCalculus.Proofs.Reduction.Asking
import BlockCalculus.Reduction.Source
import Mathlib

/-! One resolver for many callers. Whatever its cache has been used for, and whatever other
callers do with it in the meantime, each call is answered as by a new resolver. -/

namespace BlockCalculus

namespace Folder

structure Store (m : Type → Type) where
  find : String → m (Option Block)
  keep : String → Block → m Unit
  clear : m Unit

inductive Call where
  | resolve (name : String)
  | read (text : String)
  | eval (quota : Nat) (text : String)
  | reduce (quota : Nat) (b : Block)
  | clear

inductive Reply where
  | block (r : Except ReadError Block)
  | outcome (r : Except Reduction.SourceError Reduction.Outcome)
  | cleared

def host (folder : Folder) : Host Cache where
  resolve name cache := folder.resolve name cache
  record _ cache := cache

/-- A call to a resolver that nobody else uses. -/
def serve (folder : Folder) (c : Call) (cache : Cache) : Reply × Cache :=
  match c with
  | .resolve name => let (r, cache) := folder.resolve name cache; (.block r, cache)
  | .read text =>
    let (r, cache) := Workbench.readWith folder.host (Token.scan text.toList) cache
    (.block r, cache)
  | .eval quota text =>
    let (r, cache) := Reduction.evalText folder.host quota text cache
    (.outcome r, cache)
  | .reduce quota b =>
    let (o, cache) := Reduction.reduce folder.host quota b cache
    (.outcome (.ok o), cache)
  | .clear => (.cleared, [])

def fresh (folder : Folder) (c : Call) : Reply :=
  (folder.serve c []).1

section Reply

variable {m : Type → Type} [Monad m]

/-- A call to a resolver with any kind of cache. -/
def reply (folder : Folder) (store : Store m) (c : Call) : m Reply :=
  let resolve (name : String) : ExceptT ReadError m Block :=
    folder.expandWith store.find store.keep [] name
  match c with
  | .resolve name => do
    let r ← (resolve name).run
    pure (.block r)
  | .read text =>
    match Notation.parse text with
    | .error e => pure (.block (.error e))
    | .ok b => do
      let r ← (b.substitute resolve).run
      pure (.block r)
  | .eval quota text =>
    match Notation.parse text with
    | .error e => pure (.outcome (.error (.code e)))
    | .ok b => do
      let o ← Reduction.reduceIn (fun name => (resolve name).run) quota b
      pure (.outcome (.ok o))
  | .reduce quota b => do
    let o ← Reduction.reduceIn (fun name => (resolve name).run) quota b
    pure (.outcome (.ok o))
  | .clear => do
    store.clear
    pure .cleared

def replies (reply : Call → m Reply) : List Call → m (List Reply)
  | [] => pure []
  | c :: rest => do
    let r ← reply c
    let rs ← replies reply rest
    pure (r :: rs)

/-- The reply by meanings, with no cache at all. -/
def answer (folder : Folder) : Call → Reply
  | .resolve name => .block (folder.meaning name)
  | .read text => .block (Notation.parse text >>= fun b => b.substitute folder.meaning)
  | .eval quota text =>
    match Notation.parse text with
    | .error e => .outcome (.error (.code e))
    | .ok b => .outcome (.ok (Reduction.reduceWith folder.meaning quota b))
  | .reduce quota b => .outcome (.ok (Reduction.reduceWith folder.meaning quota b))
  | .clear => .cleared

variable {folder : Folder} {store : Store m} {Yields : {α : Type} → m α → α → Prop}

theorem reply_yields [LawfulMonad m] (hc : Caching folder.meaning store.find store.keep Yields)
    (hclear : Yields store.clear ()) (c : Call) : Yields (folder.reply store c) (folder.answer c) := by
  have hresolve (n : String) :
      Yields (folder.expandWith store.find store.keep [] n).run (folder.meaning n) :=
    hc.expandWith fun a ha => by cases ha
  have hreduce (quota : Nat) (b : Block) := Reduction.reduceIn_yields hc.toDetermined hresolve quota b
  cases c with
  | resolve name => exact hc.map (hresolve name) Reply.block
  | read text =>
    simp only [reply, answer]
    cases Notation.parse text with
    | error e => exact hc.pure _
    | ok b => exact hc.map (hc.substitute fun n _ => hresolve n) Reply.block
  | eval quota text =>
    simp only [reply, answer]
    cases Notation.parse text with
    | error e => exact hc.pure _
    | ok b => exact hc.map (hreduce quota b) fun o => Reply.outcome (.ok o)
  | reduce quota b => exact hc.map (hreduce quota b) fun o => Reply.outcome (.ok o)
  | clear => exact hc.bind hclear (hc.pure _)

theorem replies_yield (hd : Determined Yields) {reply : Call → m Reply} {answer : Call → Reply}
    (h : ∀ c, Yields (reply c) (answer c)) (calls : List Call) :
    Yields (replies reply calls) (calls.map answer) := by
  induction calls with
  | nil => exact hd.pure _
  | cons c rest ih => exact hd.bind (h c) (hd.map ih fun rs => answer c :: rs)

end Reply

def Store.memory : Store (StateM Cache) where
  find name := do return (← get).lookup name
  keep name b := modify ((name, b) :: ·)
  clear := set ([] : Cache)

def Store.access : Store Access where
  find name := .find name .done
  keep name b := .keep name b (.done ())
  clear := .clear (.done ())

theorem serve_eq_reply (folder : Folder) (c : Call) : folder.serve c = folder.reply .memory c := by
  funext cache
  have hrecord : ∀ e cache, folder.host.record e cache = cache := fun _ _ => rfl
  have hreduce (quota : Nat) (b : Block) := Reduction.reduceIn_eq_reduce hrecord quota b cache
  cases c with
  | resolve name => rfl
  | read text =>
    simp only [serve, reply, Workbench.readWith, Notation.parse]
    cases Notation.assemble (Token.scan text.toList) <;> rfl
  | eval quota text =>
    simp only [serve, reply, Reduction.evalText]
    cases Notation.parse text with
    | error e => rfl
    | ok b =>
      simp only [← hreduce]
      rfl
  | reduce quota b =>
    simp only [serve, reply, ← hreduce]
    rfl
  | clear => rfl

theorem serve_steady (folder : Folder) (c : Call) :
    Steady folder.Sound (folder.serve c) (folder.answer c) := by
  rw [serve_eq_reply]
  exact reply_yields folder.caching_steady (fun _ _ => ⟨rfl, folder.sound_nil⟩) c

theorem fresh_eq_answer (folder : Folder) (c : Call) : folder.fresh c = folder.answer c :=
  (folder.serve_steady c [] folder.sound_nil).1

theorem reduce_steady (folder : Folder) (quota : Nat) (b : Block) :
    Steady folder.Sound (Reduction.reduce folder.host quota b)
      (Reduction.reduce folder.host quota b []).1 := by
  have hreduce (cache : Cache) (hc : folder.Sound cache) :
      (Reduction.reduce folder.host quota b cache).1 = Reduction.reduceWith folder.meaning quota b := by
    have hserve := (folder.serve_steady (.reduce quota b) cache hc).1
    exact Except.ok.inj (Reply.outcome.inj hserve)
  intro cache hc
  refine ⟨?_, (folder.serve_steady (.reduce quota b) cache hc).2⟩
  rw [hreduce cache hc, hreduce [] folder.sound_nil]

theorem reduceAll_steady (folder : Folder) (quota : Nat) (blocks : List Block) :
    Steady folder.Sound (Reduction.reduceAll folder.host quota blocks)
      (blocks.map fun b => (Reduction.reduce folder.host quota b []).1) := by
  induction blocks with
  | nil => exact fun _ hc => ⟨rfl, hc⟩
  | cons b rest ih =>
    intro cache hc
    obtain ⟨hb, hc'⟩ := folder.reduce_steady quota b cache hc
    obtain ⟨hrest, hc''⟩ := ih _ hc'
    exact ⟨congrArg₂ List.cons hb hrest, hc''⟩

/-- Callers that use one resolver at the same time, each in the middle of its calls. -/
structure Shared (n : Nat) where
  cache : Cache
  callers : Fin n → Access (List Reply)

/-- What happens next to a cache: one of the callers has its turn, or something is put into the
cache on behalf of somebody else. -/
inductive Happening (n : Nat) where
  | turn (i : Fin n)
  | arrival (name : String) (b : Block)

namespace Shared

variable {n : Nat}

def start (folder : Folder) (sessions : Fin n → List Call) : Shared n where
  cache := []
  callers i := replies (folder.reply .access) (sessions i)

def after (s : Shared n) : Happening n → Shared n
  | .turn i =>
    let (x, cache) := (s.callers i).step s.cache
    ⟨cache, Function.update s.callers i x⟩
  | .arrival name b => { s with cache := (name, b) :: s.cache }

def run (s : Shared n) (events : Nat → Happening n) : Nat → Shared n
  | 0 => s
  | t + 1 => (s.run events t).after (events t)

variable {folder : Folder} {sessions : Fin n → List Call} {events : Nat → Happening n}

structure Sound (folder : Folder) (sessions : Fin n → List Call) (s : Shared n) : Prop where
  cache : folder.Sound s.cache
  callers : ∀ i, Access.Gives folder (s.callers i) ((sessions i).map folder.answer)

theorem start_sound (folder : Folder) (sessions : Fin n → List Call) :
    (start folder sessions).Sound folder sessions where
  cache := folder.sound_nil
  callers i := by
    have hc : Caching folder.meaning Store.access.find Store.access.keep (Access.Gives folder) :=
      Access.gives_caching folder
    have hclear : Access.Gives folder Store.access.clear () := .clear (.done ())
    have hreply (c : Call) : Access.Gives folder (folder.reply .access c) (folder.answer c) :=
      reply_yields hc hclear c
    exact replies_yield hc.toDetermined hreply (sessions i)

theorem Sound.after {s : Shared n} (h : s.Sound folder sessions) {e : Happening n}
    (he : ∀ name b, e = .arrival name b → folder.meaning name = .ok b) :
    (s.after e).Sound folder sessions := by
  cases e with
  | arrival name b => exact ⟨h.cache.cons (he name b rfl), h.callers⟩
  | turn i =>
    obtain ⟨hx, hc⟩ := (h.callers i).step h.cache
    refine ⟨hc, fun j => ?_⟩
    by_cases hj : j = i
    · subst hj
      change Access.Gives folder (Function.update s.callers j _ j) _
      rw [Function.update_self]
      exact hx
    · change Access.Gives folder (Function.update s.callers i _ j) _
      rw [Function.update_of_ne hj]
      exact h.callers j

theorem Sound.run {s : Shared n} (h : s.Sound folder sessions)
    (he : ∀ t name b, events t = .arrival name b → folder.meaning name = .ok b) (t : Nat) :
    (s.run events t).Sound folder sessions := by
  induction t with
  | zero => exact h
  | succ t ih => exact ih.after (he t)

/-! A caller changes only in its turns. -/

theorem callers_after_turn (s : Shared n) (i : Fin n) :
    (s.after (.turn i)).callers i = ((s.callers i).step s.cache).1 :=
  Function.update_self ..

theorem callers_after_of_ne (s : Shared n) {e : Happening n} {i : Fin n} (h : e ≠ .turn i) :
    (s.after e).callers i = s.callers i := by
  cases e with
  | arrival name b => rfl
  | turn j =>
    have hj : i ≠ j := fun hij => h (by rw [hij])
    exact Function.update_of_ne hj ..

theorem callers_after_of_done {s : Shared n} {i : Fin n} {rs : List Reply}
    (h : s.callers i = .done rs) (e : Happening n) : (s.after e).callers i = .done rs := by
  by_cases he : e = .turn i
  · rw [he, callers_after_turn, h]
    rfl
  · rw [callers_after_of_ne s he, h]

theorem done_of_le {s : Shared n} {i : Fin n} {rs : List Reply} {t u : Nat} (htu : t ≤ u)
    (h : (s.run events t).callers i = .done rs) : (s.run events u).callers i = .done rs := by
  induction u, htu using Nat.le_induction with
  | base => exact h
  | succ u _ ih => exact callers_after_of_done ih (events u)

/-- The next turn of a caller finds it as it is. -/
theorem exists_turn {s : Shared n} {i : Fin n} {t : Nat} (h : ∃ u, t ≤ u ∧ events u = .turn i) :
    ∃ u, events u = .turn i ∧ (s.run events u).callers i = (s.run events t).callers i := by
  obtain ⟨u, htu, hu⟩ := h
  obtain ⟨k, rfl⟩ := Nat.exists_eq_add_of_le htu
  induction k generalizing t with
  | zero => exact ⟨t, hu, rfl⟩
  | succ k ih =>
    by_cases ht : events t = .turn i
    · exact ⟨t, ht, rfl⟩
    · have hk : events (t + 1 + k) = .turn i := by rwa [Nat.add_right_comm]
      obtain ⟨v, hv, hsame⟩ := ih (by omega) hk
      exact ⟨v, hv, hsame.trans (callers_after_of_ne _ ht)⟩

/-- The accesses of a caller form a tree without infinite branches, so it does not take turns
for ever. -/
theorem exists_done {s : Shared n} {i : Fin n} (hfair : ∀ t, ∃ u, t ≤ u ∧ events u = .turn i)
    (t : Nat) : ∃ u rs, (s.run events u).callers i = .done rs := by
  have hnext (t : Nat) : ∃ u, (s.run events u).callers i =
      (((s.run events t).callers i).step (s.run events (u - 1)).cache).1 := by
    obtain ⟨u, hu, hsame⟩ := exists_turn (s := s) (hfair t)
    refine ⟨u + 1, ?_⟩
    rw [run, hu, callers_after_turn, hsame, Nat.add_sub_cancel]
  induction hx : (s.run events t).callers i generalizing t with
  | done rs => exact ⟨t, rs, hx⟩
  | find name next ih =>
    obtain ⟨u, hu⟩ := hnext t
    rw [hx] at hu
    exact ih _ u hu
  | keep name b next ih =>
    obtain ⟨u, hu⟩ := hnext t
    rw [hx] at hu
    exact ih u hu
  | clear next ih =>
    obtain ⟨u, hu⟩ := hnext t
    rw [hx] at hu
    exact ih u hu

theorem exists_all_done {s : Shared n} (hfair : ∀ i t, ∃ u, t ≤ u ∧ events u = .turn i) :
    ∃ t, ∀ i, ∃ rs, (s.run events t).callers i = .done rs := by
  choose u rs hu using fun i => exists_done (s := s) (hfair i) 0
  exact ⟨Finset.univ.sup u, fun i => ⟨rs i, done_of_le (Finset.le_sup (Finset.mem_univ i)) (hu i)⟩⟩

end Shared

/-- Calls to one resolver, one after another or from many callers at once, are answered as by
new resolvers: a cache of what names mean is never noticed. Callers that keep having turns
are all answered in the end. -/
theorem cache_transparent (folder : Folder) :
    (∀ calls, (replies (m := StateM Cache) folder.serve calls []).1 = calls.map folder.fresh) ∧
    (∀ quota blocks, (Reduction.reduceAll folder.host quota blocks []).1 =
      blocks.map fun b => (Reduction.reduce folder.host quota b []).1) ∧
    ∀ (n : Nat) (sessions : Fin n → List Call) (events : Nat → Happening n),
      (∀ t name b, events t = .arrival name b → (folder.resolve name []).1 = .ok b) →
      (∀ t i rs, ((Shared.start folder sessions).run events t).callers i = .done rs →
        rs = (sessions i).map folder.fresh) ∧
      ((∀ i t, ∃ u, t ≤ u ∧ events u = .turn i) →
        ∃ t, ∀ i, ((Shared.start folder sessions).run events t).callers i =
          .done ((sessions i).map folder.fresh)) := by
  have hfresh : folder.fresh = folder.answer := funext folder.fresh_eq_answer
  refine ⟨fun calls => ?_, fun quota blocks => ?_, fun n sessions events harrive => ?_⟩
  · rw [hfresh]
    exact (replies_yield (steady_determined folder.Sound) folder.serve_steady calls [] folder.sound_nil).1
  · exact (folder.reduceAll_steady quota blocks [] folder.sound_nil).1
  · simp only [resolve_fresh] at harrive
    have hsound := (Shared.start_sound folder sessions).run harrive
    have hright (t : Nat) (i : Fin n) (rs : List Reply)
        (h : ((Shared.start folder sessions).run events t).callers i = .done rs) :
        rs = (sessions i).map folder.fresh := by
      have hgives := (hsound t).callers i
      rw [h] at hgives
      rw [hfresh, hgives.eq_of_done]
    refine ⟨hright, fun hfair => ?_⟩
    obtain ⟨t, ht⟩ := Shared.exists_all_done hfair
    refine ⟨t, fun i => ?_⟩
    obtain ⟨rs, hrs⟩ := ht i
    rw [hrs, hright t i rs hrs]

/-- Two callers take turns, and every third time the meaning of a name arrives. -/
theorem cache_transparent_twice :
    let folder : Folder := ⟨[("once", [99, 111, 112, 121]), ("twice", "once once".toUTF8.toList)],
      fun _ => .notFound⟩
    let events : Nat → Happening 2 := fun t =>
      if t % 3 = 0 then .arrival "once" (.prim .copy) else .turn ⟨t % 2, Nat.mod_lt t (by decide)⟩
    let sessions : Fin 2 → List Call := fun i =>
      if i = 0 then [.resolve "twice", .clear, .resolve "none"] else [.reduce 4 (.var "twice")]
    (∀ t name b, events t = .arrival name b → (folder.resolve name []).1 = .ok b) ∧
    (∀ i t, ∃ u, t ≤ u ∧ events u = .turn i) ∧
      ∃ t, ∀ i, ((Shared.start folder sessions).run events t).callers i =
        .done ((sessions i).map folder.fresh) := by
  intro folder events sessions
  have honce : (folder.resolve "once" []).1 = .ok (.prim .copy) := by
    simp only [folder]
    cbv
  have harrive : ∀ t name b, events t = .arrival name b → (folder.resolve name []).1 = .ok b := by
    intro t name b he
    by_cases ht : t % 3 = 0
    · simp only [events, if_pos ht] at he
      cases he
      exact honce
    · simp only [events, if_neg ht] at he
      cases he
  have hfair : ∀ i t, ∃ u, t ≤ u ∧ events u = .turn i := by
    intro i t
    have hi := i.isLt
    have hthird : (6 * t + 4 - 3 * i) % 3 ≠ 0 := by omega
    have hturn : (6 * t + 4 - 3 * i) % 2 = i := by omega
    refine ⟨6 * t + 4 - 3 * i, by omega, ?_⟩
    simp only [events, if_neg hthird, hturn]
  exact ⟨harrive, hfair, ((cache_transparent folder).2.2 2 sessions events harrive).2 hfair⟩

end Folder

end BlockCalculus
