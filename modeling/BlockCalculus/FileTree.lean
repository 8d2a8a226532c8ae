import BlockCalculus.Bytes

/-! A finite tree of files and directories, and how a path leads through it. -/

namespace BlockCalculus

/-- Why a path gives no content. -/
inductive FileFault where
  | notFound
  | isDirectory
  | notDirectory
  | nameTooLong
  | invalidText
  | embeddedNul
  deriving DecidableEq, Repr

def FileFault.message : FileFault → String
  | notFound => "No such file or directory (os error 2)"
  | isDirectory => "Is a directory (os error 21)"
  | notDirectory => "Not a directory (os error 20)"
  | nameTooLong => "File name too long (os error 36)"
  | invalidText => "stream did not contain valid UTF-8"
  | embeddedNul => "file name contained an unexpected NUL byte"

inductive Entry where
  | file (content : Bytes)
  | directory
  /-- What can be read and written but is no file. -/
  | device (content : Bytes)
  deriving DecidableEq

namespace Path

/-- Appends a relative path; an absolute one stands for itself. -/
def join (base path : String) : String :=
  if path.startsWith "/" || base.isEmpty then path
  else if base.endsWith "/" then base ++ path
  else base ++ "/" ++ path

/-- The parts between slashes, without empty ones. -/
def parts (path : String) : List String :=
  (go [] path.toList).filter fun part => !part.isEmpty
where
  go (part : List Char) : List Char → List String
    | [] => [String.ofList part.reverse]
    | c :: rest => if c = '/' then String.ofList part.reverse :: go [] rest else go (c :: part) rest

/-- Refuses what is no path anywhere. -/
def check (path : String) : Except FileFault Unit := do
  if path.toList.contains (Char.ofNat 0) then throw .embeddedNul
  if path.isEmpty then throw .notFound
  if 4095 < path.utf8ByteSize then throw .nameTooLong

end Path

/-- Files and directories by the parts of their absolute paths. -/
structure FileTree where
  entries : List (List String × Entry)
  /-- The working directory. -/
  cwd : List String

namespace FileTree

def cwdText (t : FileTree) : String :=
  "/" ++ "/".intercalate t.cwd

def entry? (t : FileTree) (place : List String) : Option Entry :=
  if place.isEmpty then some .directory else t.entries.lookup place

/-- Follows one part of a path from a place that exists. -/
def descend (t : FileTree) (place : List String) (part : String) : Except FileFault (List String) :=
  if t.entry? place ≠ some .directory then .error .notDirectory
  else if part = "." then .ok place
  else if part = ".." then .ok place.dropLast
  else if 255 < part.utf8ByteSize then .error .nameTooLong
  else if (t.entry? (place ++ [part])).isSome then .ok (place ++ [part])
  else .error .notFound

/-- Where a path starts. -/
def start (t : FileTree) (path : String) : List String :=
  if path.startsWith "/" then [] else t.cwd

/-- The place of a path as seen from the working directory. -/
def locate (t : FileTree) (path : String) : Except FileFault (List String) := do
  Path.check path
  let place ← (Path.parts path).foldlM t.descend (t.start path)
  if path.endsWith "/" && t.entry? place ≠ some .directory then throw .notDirectory
  return place

/-- The place where a file can be written, new or in place of an old one. -/
def locateNew (t : FileTree) (path : String) : Except FileFault (List String) := do
  Path.check path
  let parts := Path.parts path
  let above ← parts.dropLast.foldlM t.descend (t.start path)
  if t.entry? above ≠ some .directory then throw .notDirectory
  match parts.getLast? with
  | none => throw .isDirectory
  | some name =>
    if name = "." || name = ".." || path.endsWith "/" then throw .isDirectory
    if 255 < name.utf8ByteSize then throw .nameTooLong
    let place := above ++ [name]
    if t.entry? place = some .directory then throw .isDirectory
    return place

def read (t : FileTree) (path : String) : Except FileFault Bytes := do
  match t.entry? (← t.locate path) with
  | some (.file content) | some (.device content) => return content
  | some .directory => throw .isDirectory
  | none => throw .notFound

/-- The text of UTF-8 content. -/
def decodeText (content : Bytes) : Except FileFault String :=
  match String.fromUTF8? ⟨content.toArray⟩ with
  | some text => .ok text
  | none => .error .invalidText

def readText (t : FileTree) (path : String) : Except FileFault String := do
  decodeText (← t.read path)

def isFile (t : FileTree) (path : String) : Bool :=
  match (t.locate path).toOption.bind t.entry? with
  | some (.file _) => true
  | _ => false

def insert (t : FileTree) (place : List String) (e : Entry) : FileTree :=
  { t with entries := (place, e) :: t.entries.filter fun old => old.1 ≠ place }

/-- Follows one part of a path and makes a directory of what is missing. -/
def enter (state : FileTree × List String) (part : String) : FileTree × List String :=
  let (t, place) := state
  if part = "." then (t, place)
  else if part = ".." then (t, place.dropLast)
  else
    let place := place ++ [part]
    if (t.entry? place).isNone then (t.insert place .directory, place) else (t, place)

/-- Puts a file into the tree and makes the directories on the way to it. A path
that ends in a slash makes a directory only. -/
def write (t : FileTree) (path : String) (content : Bytes) : FileTree :=
  let parts := Path.parts path
  if path.endsWith "/" then (parts.foldl enter (t, t.start path)).1
  else
    let (t, above) := parts.dropLast.foldl enter (t, t.start path)
    match parts.getLast? with
    | none => t
    | some name => t.insert (above ++ [name]) (.file content)

/-- Takes what a path leads to away, with everything under it. -/
def remove (t : FileTree) (path : String) : FileTree :=
  match t.locate path with
  | .error _ => t
  | .ok place => { t with entries := t.entries.filter fun old => !place.isPrefixOf old.1 }

def contains (t : FileTree) (path : String) : Bool :=
  (t.locate path).isOk

/-- Nothing but the working directory and the directories above it. -/
def bare (cwd : List String) : FileTree :=
  ⟨(List.range cwd.length).map fun n => (cwd.take (n + 1), .directory), cwd⟩

end FileTree

end BlockCalculus
