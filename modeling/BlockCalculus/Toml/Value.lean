/-! Values of a TOML document, and the rules for tables that are written in
several places: a table may be named by one header only, and keys with dots
add to tables that keys with dots have made. -/

namespace BlockCalculus.Toml

/-- How a table came to be. -/
inductive Origin where
  /-- It has a header of its own, or is the document. -/
  | header
  /-- It was named on the way to another table. -/
  | path
  /-- It was named on the way to a value. -/
  | dotted
  /-- It was written in braces. -/
  | braces
  deriving DecidableEq, Repr

inductive Value where
  | string (s : String)
  | integer (i : Int)
  | float
  | boolean (b : Bool)
  | datetime
  | array (elements : List Value)
  /-- An array of tables with headers, latest first. -/
  | tables (elements : List Value)
  | table (origin : Origin) (entries : List (String × Value))
  deriving Inhabited

abbrev Entries := List (String × Value)

namespace Entries

def put (entries : Entries) (key : String) (v : Value) : Entries :=
  (key, v) :: entries.filter fun e => e.1 ≠ key

def add? (entries : Entries) (key : String) (v : Value) : Option Entries :=
  if (entries.lookup key).isSome then none else some ((key, v) :: entries)

end Entries

/-- A change of the table at the end of a path. -/
abbrev Change := Origin → Entries → Option Entries

/-- Follows a path through tables, making those that are missing, and changes
the last one. Keys with dots do not enter tables with headers or braces. -/
def alter (dotted : Bool) (change : Change) : List String → Change
  | [], origin, entries => change origin entries
  | key :: path, _, entries =>
    match entries.lookup key with
    | none => do
      let made := if dotted then .dotted else .path
      let inner ← alter dotted change path made []
      return entries.put key (.table made inner)
    | some (.table origin inner) => do
      if origin = .braces || dotted && origin = .header then none
      let inner ← alter dotted change path origin inner
      return entries.put key (.table origin inner)
    | some (.tables (.table origin inner :: earlier)) => do
      let inner ← alter dotted change path origin inner
      return entries.put key (.tables (.table origin inner :: earlier))
    | some _ => none

/-- Adds a value behind a path of keys with dots; tables on the way have to
come from such keys. -/
def assign (path : List String) (key : String) (v : Value) : Change :=
  alter true
    (fun origin entries =>
      if !path.isEmpty && origin ≠ .dotted then none else entries.add? key v) path

/-- Adds a value within braces. -/
def assignInline (entries : Entries) (path : List String) (key : String) (v : Value) :
    Option Entries :=
  assign path key v .header entries

inductive Statement where
  | header (path : List String) (key : String)
  | arrayHeader (path : List String) (key : String)
  | assign (path : List String) (key : String) (v : Value)

def openTable (key : String) : Change := fun _ entries =>
  match entries.lookup key with
  | none => some (entries.put key (.table .header []))
  | some (.table .path inner) => some (entries.put key (.table .header inner))
  | some _ => none

def openArray (key : String) : Change := fun _ entries =>
  match entries.lookup key with
  | none => some (entries.put key (.tables [.table .header []]))
  | some (.tables earlier) => some (entries.put key (.tables (.table .header [] :: earlier)))
  | some _ => none

/-- The document so far and the path of the latest header. -/
structure Document where
  entries : Entries
  current : List String

namespace Document

def add (d : Document) : Statement → Option Document
  | .header path key => do
    return ⟨← alter false (openTable key) path .header d.entries, path ++ [key]⟩
  | .arrayHeader path key => do
    return ⟨← alter false (openArray key) path .header d.entries, path ++ [key]⟩
  | .assign path key v => do
    return { d with entries := ← alter false (assign path key v) d.current .header d.entries }

end Document

/-- The entries of a document with the given statements. -/
def build (statements : List Statement) : Option Entries := do
  let d ← statements.foldlM Document.add ⟨[], []⟩
  return d.entries

end BlockCalculus.Toml
