import BlockCalculus.Proofs.Names.Determined
import BlockCalculus.Proofs.Names.Expansion
import BlockCalculus.Proofs.Names.Glossary

/-! Names that stand for files, with a cache. A name that is kept leads to no circle, so
nothing that is under expansion can need it again: leaving its expansion out changes
neither a result nor which failure comes first. -/

namespace BlockCalculus.Folder

variable {folder : Folder}

def glossary (folder : Folder) : Glossary where
  body n :=
    if Notation.isName n then
      match folder.text n with
      | .error fault => .error (.missing n (.unreadable fault))
      | .ok text => Notation.parse text
    else .error (.missing n .invalidName)
  room := remaining folder.files
  room_lt := by
    intro inFlight n b hn hb
    split at hb
    · split at hb
      · cases hb
      · rename_i text ht
        obtain ⟨content, hl⟩ := lookup_of_text ht
        exact remaining_cons_lt hl hn
    · cases hb

def meaning (folder : Folder) (n : String) : Except ReadError Block :=
  folder.glossary.expand [] n

theorem body_of_not_isName {n : String} (hv : Notation.isName n = false) :
    folder.glossary.body n = .error (.missing n .invalidName) := by
  simp [glossary, hv]

theorem body_of_fault {n : String} {fault : FileFault} (hv : Notation.isName n)
    (ht : folder.text n = .error fault) :
    folder.glossary.body n = .error (.missing n (.unreadable fault)) := by
  simp [glossary, hv, ht]

theorem body_of_text {n text : String} (hv : Notation.isName n) (ht : folder.text n = .ok text) :
    folder.glossary.body n = Notation.parse text := by
  simp [glossary, hv, ht]

variable {m : Type → Type} [Monad m]

/-- The cache of the computation answers with meanings only, as long as it is given meanings
only. What it holds is left open. -/
structure Caching (meaning : String → Except ReadError Block) (find : String → m (Option Block))
    (keep : String → Block → m Unit) (Yields : {α : Type} → m α → α → Prop) : Prop
    extends Determined Yields where
  find : ∀ {α : Type} {n : String} {f : Option Block → ExceptT ReadError m α} {r : Except ReadError α},
    (∀ found, (∀ b, found = some b → meaning n = .ok b) → Yields (f found).run r) →
    Yields ((liftM (find n) : ExceptT ReadError m (Option Block)) >>= f).run r
  keep : ∀ {n : String} {b : Block}, meaning n = .ok b →
    Yields (liftM (keep n b) : ExceptT ReadError m Unit).run (.ok ())

variable {Yields : {α : Type} → m α → α → Prop} {find : String → m (Option Block)}
  {keep : String → Block → m Unit}

theorem Caching.substitute_keep {meaning : String → Except ReadError Block}
    (hc : Caching meaning find keep Yields) {lookup : String → ExceptT ReadError m Block}
    {answers : String → Except ReadError Block} {n : String} {body : Block}
    (hl : ∀ k ∈ body.names, Yields (lookup k).run (answers k))
    (hm : ∀ b, body.substitute answers = .ok b → meaning n = .ok b) :
    Yields (do
      let b ← body.substitute lookup
      keep n b
      pure b : ExceptT ReadError m Block).run (body.substitute answers) := by
  rw [← bind_pure (body.substitute answers)]
  refine hc.bindExcept (hc.substitute hl) fun b hb => ?_
  exact hc.bindExcept (r := .ok ()) (g := fun _ => .ok b) (hc.keep (hm b hb)) fun _ _ =>
    hc.pure (Except.ok b)

theorem body_of_start {inFlight : List String} {n : String} {start : Start folder inFlight n}
    (h : folder.start inFlight n = .ok start) : folder.glossary.body n = .ok start.body := by
  cases ht : folder.text n with
  | error fault =>
    rw [start_of_fault start.valid start.fresh ht] at h
    cases h
  | ok text =>
    rw [start_of_text start.valid start.fresh ht] at h
    rw [body_of_text start.valid ht]
    cases hp : Notation.parse text with
    | error e =>
      rw [hp] at h
      cases h
    | ok body =>
      rw [hp] at h
      rw [← Except.ok.inj h]

theorem expand_of_start_error {inFlight : List String} {n : String} {e : ReadError}
    (hs : ∀ a ∈ inFlight, Relation.TransGen folder.glossary.Mentions a n)
    (h : folder.start inFlight n = .error e) : folder.glossary.expand inFlight n = .error e := by
  by_cases hv : Notation.isName n
  · by_cases hn : n ∈ inFlight
    · rw [start, dif_pos hv, dif_pos hn] at h
      cases h
      exact Glossary.expand_of_mem hn
    · cases ht : folder.text n with
      | error fault =>
        rw [start_of_fault hv hn ht] at h
        cases h
        exact Glossary.expand_of_error hn (body_of_fault hv ht)
      | ok text =>
        rw [start_of_text hv hn ht] at h
        cases hp : Notation.parse text with
        | error e' =>
          rw [hp] at h
          cases h
          exact Glossary.expand_of_error hn ((body_of_text hv ht).trans hp)
        | ok body =>
          rw [hp] at h
          cases h
  · -- names under expansion have bodies, so this one is not among them
    have hbody : folder.glossary.body n = .error (.missing n .invalidName) :=
      body_of_not_isName (by simpa using hv)
    have hn : n ∉ inFlight := fun hn => by
      obtain ⟨k, ⟨b, hb, -⟩, -⟩ := Relation.TransGen.head'_iff.mp (hs n hn)
      cases hbody.symm.trans hb
    rw [start, dif_neg hv] at h
    cases h
    exact Glossary.expand_of_error hn hbody

theorem Caching.expandWith [LawfulMonad m] (hc : Caching folder.meaning find keep Yields)
    {inFlight : List String} {n : String}
    (hs : ∀ a ∈ inFlight, Relation.TransGen folder.glossary.Mentions a n) :
    Yields (folder.expandWith find keep inFlight n).run (folder.glossary.expand inFlight n) := by
  induction hroom : folder.glossary.room inFlight using Nat.strongRecOn generalizing inFlight n with
  | ind _ ih =>
    rw [expandWith_eq_expandOnce, expandOnce]
    refine hc.find fun found hfound => ?_
    cases found with
    | some kept =>
      -- a name with a meaning leads to no name that needs it, so it is not under expansion
      rw [Glossary.expand_of_resolve (hfound kept rfl) hs]
      exact hc.pure (Except.ok kept)
    | none =>
      dsimp only
      cases hstart : folder.start inFlight n with
      | error e =>
        rw [expand_of_start_error hs hstart]
        exact hc.pure (Except.error e)
      | ok start =>
        have hb := body_of_start hstart
        have hlt := folder.glossary.room_lt start.fresh hb
        rw [Glossary.expand_of_body start.fresh hb]
        refine hc.substitute_keep (fun k hk => ?_) fun b hsub =>
          Glossary.resolve_of_expand ((Glossary.expand_of_body start.fresh hb).trans hsub)
        have hm : folder.glossary.Mentions n k := ⟨start.body, hb, hk⟩
        refine ih _ (hroom ▸ hlt) (fun a ha => ?_) rfl
        rcases List.mem_cons.mp ha with rfl | ha
        · exact .single hm
        · exact (hs a ha).tail hm

def Sound (folder : Folder) (cache : Cache) : Prop :=
  ∀ n b, cache.lookup n = some b → folder.meaning n = .ok b

theorem sound_nil (folder : Folder) : folder.Sound [] := by
  intro n b h
  cases h

theorem Sound.cons {cache : Cache} (h : folder.Sound cache) {n : String} {b : Block}
    (hn : folder.meaning n = .ok b) : folder.Sound ((n, b) :: cache) := by
  intro k c hk
  by_cases he : k = n
  · subst he
    rw [List.lookup_cons_self] at hk
    rw [hn, Option.some.inj hk]
  · rw [List.lookup_cons, beq_false_of_ne he] at hk
    exact h k c hk

theorem caching_steady (folder : Folder) :
    Caching folder.meaning (m := StateM Cache) (fun name => do return (← get).lookup name)
      (fun name b => modify ((name, b) :: ·)) (Steady folder.Sound) where
  toDetermined := steady_determined folder.Sound
  find h cache hc := h _ (fun b hb => hc _ b hb) cache hc
  keep hn _ hc := ⟨rfl, hc.cons hn⟩

theorem resolve_steady (folder : Folder) (n : String) :
    Steady folder.Sound (folder.resolve n) (folder.meaning n) := by
  have hs : ∀ a ∈ [], Relation.TransGen folder.glossary.Mentions a n := List.forall_mem_nil _
  exact folder.caching_steady.expandWith hs

/-- The meaning of a name is what it resolves to with an empty cache. -/
theorem resolve_fresh (folder : Folder) (n : String) :
    (folder.resolve n []).1 = folder.meaning n :=
  (folder.resolve_steady n [] folder.sound_nil).1

end BlockCalculus.Folder
