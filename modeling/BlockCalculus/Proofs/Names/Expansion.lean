import BlockCalculus.Names.Folder

/-! One expansion of a name. What decides between a failure and a body does not depend on the
cache, so it is settled first; the names in the body are left to further expansions. -/

namespace BlockCalculus.Folder

/-- What an expansion of a name in its turn starts from. -/
structure Start (folder : Folder) (inFlight : List String) (name : String) where
  body : Block
  valid : Notation.isName name
  fresh : name ∉ inFlight
  less : remaining folder.files (name :: inFlight) < remaining folder.files inFlight

theorem remaining_of_text {folder : Folder} {inFlight : List String} {name text : String}
    (hn : name ∉ inFlight) (ht : folder.text name = .ok text) :
    remaining folder.files (name :: inFlight) < remaining folder.files inFlight := by
  obtain ⟨content, hl⟩ := lookup_of_text ht
  exact remaining_cons_lt hl hn

def start (folder : Folder) (inFlight : List String) (name : String) :
    Except ReadError (Start folder inFlight name) :=
  if hv : Notation.isName name then
    if hn : name ∈ inFlight then .error (.cycle name)
    else
      match ht : folder.text name with
      | .error fault => .error (.missing name (.unreadable fault))
      | .ok text => (Notation.parse text).map fun body => ⟨body, hv, hn, remaining_of_text hn ht⟩
  else .error (.missing name .invalidName)

variable {folder : Folder} {inFlight : List String} {name : String}

theorem start_of_fault {fault : FileFault} (hv : Notation.isName name) (hn : name ∉ inFlight)
    (ht : folder.text name = .error fault) :
    folder.start inFlight name = .error (.missing name (.unreadable fault)) := by
  unfold start
  rw [dif_pos hv, dif_neg hn]
  split
  · rename_i fault' h
    cases ht.symm.trans h
    rfl
  · rename_i text h
    cases ht.symm.trans h

theorem start_of_text {text : String} (hv : Notation.isName name) (hn : name ∉ inFlight)
    (ht : folder.text name = .ok text) :
    folder.start inFlight name =
      (Notation.parse text).map fun body => ⟨body, hv, hn, remaining_of_text hn ht⟩ := by
  unfold start
  rw [dif_pos hv, dif_neg hn]
  split
  · rename_i fault h
    cases ht.symm.trans h
  · rename_i text' h
    cases ht.symm.trans h
    rfl

section Once

variable {m : Type → Type} [Monad m]

/-- An expansion that leaves the names in the body to `again`. -/
def expandOnce (folder : Folder) (find : String → m (Option Block))
    (keep : String → Block → m Unit) (inFlight : List String) (name : String)
    (again : remaining folder.files (name :: inFlight) < remaining folder.files inFlight →
      String → ExceptT ReadError m Block) : ExceptT ReadError m Block := do
  match ← find name with
  | some kept => pure kept
  | none =>
    match folder.start inFlight name with
    | .error e => throw e
    | .ok start =>
      let b ← start.body.substitute (again start.less)
      keep name b
      pure b

theorem expandWith_eq_expandOnce [LawfulMonad m] (folder : Folder) (find : String → m (Option Block))
    (keep : String → Block → m Unit) (inFlight : List String) (name : String) :
    folder.expandWith find keep inFlight name =
      folder.expandOnce find keep inFlight name fun _ inner =>
        folder.expandWith find keep (name :: inFlight) inner := by
  rw [expandWith, expandOnce]
  congr 1
  funext found
  cases found with
  | some kept => rfl
  | none =>
    dsimp only
    by_cases hv : Notation.isName name
    · have hvalid : ¬ (!Notation.isName name) = true := by simp [hv]
      rw [if_neg hvalid]
      by_cases hn : name ∈ inFlight
      · rw [dif_pos hn, start, dif_pos hv, dif_pos hn]
      · rw [dif_neg hn]
        split
        · rename_i fault ht
          rw [start_of_fault hv hn ht]
        · rename_i text ht
          rw [start_of_text hv hn ht]
          cases Notation.parse text with
          | error e => exact ExceptT.ext (by simp [expandWith.liftExcept, Except.map])
          | ok body => exact ExceptT.ext (by simp [expandWith.liftExcept, Except.map])
    · have hinvalid : (!Notation.isName name) = true := by simp [hv]
      rw [if_pos hinvalid, start, dif_neg hv]

end Once

end BlockCalculus.Folder
