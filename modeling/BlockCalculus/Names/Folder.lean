import BlockCalculus.Names.InFlight
import BlockCalculus.Names.Substitution
import BlockCalculus.Notation.Read

/-! Names that stand for the text of the file of the same name. Blocks that
have been resolved are kept, so a name keeps its meaning when files change;
failures are not kept. -/

namespace BlockCalculus

/-- The readable files of a directory, and why any other name is unreadable. -/
structure Folder where
  files : List (String × Bytes)
  fault : String → FileFault

namespace Folder

def text (folder : Folder) (name : String) : Except FileFault String :=
  match folder.files.lookup name with
  | some content => FileTree.decodeText content
  | none => .error (folder.fault name)

theorem lookup_of_text {folder : Folder} {name text : String} (h : folder.text name = .ok text) :
    ∃ content, folder.files.lookup name = some content := by
  unfold Folder.text at h
  split at h
  · exact ⟨_, by assumption⟩
  · cases h

/-- The directory that a path leads to, seen through a file tree. -/
def ofPath (t : FileTree) (root : String) : Folder where
  files := t.entries.filterMap fun e => do
    let name ← e.1.getLast?
    let content ← (t.read (Path.join root name)).toOption
    return (name, content)
  fault name :=
    match t.read (Path.join root name) with
    | .error fault => fault
    | .ok _ => .notFound

section Expand

variable {m : Type → Type} [Monad m]

/-- The block behind a name, with kept blocks found by `find` and added by
`keep`, met while other names are being expanded. -/
def expandWith (folder : Folder) (find : String → m (Option Block))
    (keep : String → Block → m Unit) (inFlight : List String) (name : String) :
    ExceptT ReadError m Block := do
  match ← find name with
  | some kept => pure kept
  | none =>
    if !Notation.isName name then throw (.missing name .invalidName)
    else if _ : name ∈ inFlight then throw (.cycle name)
    else
      match _ : folder.text name with
      | .error fault => throw (.missing name (.unreadable fault))
      | .ok text =>
        let body ← liftExcept (Notation.parse text)
        let b ← body.substitute fun inner =>
          folder.expandWith find keep (name :: inFlight) inner
        keep name b
        pure b
termination_by remaining folder.files inFlight
decreasing_by
  obtain ⟨content, hc⟩ := lookup_of_text (by assumption)
  exact remaining_cons_lt hc (by assumption)
where
  liftExcept {α : Type} : Except ReadError α → ExceptT ReadError m α
    | .ok a => pure a
    | .error e => throw e

end Expand

/-- Resolved blocks by name. -/
abbrev Cache := List (String × Block)

def resolve (folder : Folder) (name : String) : ExceptT ReadError (StateM Cache) Block :=
  folder.expandWith (fun name => do return (← get).lookup name)
    (fun name b => modify ((name, b) :: ·)) [] name

end Folder

end BlockCalculus
