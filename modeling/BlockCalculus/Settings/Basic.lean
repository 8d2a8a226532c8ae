import BlockCalculus.FileTree
import BlockCalculus.Toml.Document
import BlockCalculus.Toml.Text

/-! Settings and their TOML form. Keys that are not known are ignored, keys
that are missing keep their defaults, and a list stands for the values of a
section in order. -/

namespace BlockCalculus

structure Settings where
  /-- The most rewrites in a run. -/
  quota : Nat := 1000
  /-- Report single steps. -/
  trace : Bool := false
  prompt : String := "abc> "
  historySize : Nat := 1000
  historyFile : Option String := none
  /-- The directory with one file for each name. -/
  root : Option String := none
  deriving DecidableEq, Repr

inductive SettingsError where
  | notToml
  /-- A value of the wrong type or out of range. -/
  | wrongValue
  /-- A number that TOML cannot hold. -/
  | unwritable
  | unreadable (path : String) (fault : FileFault)
  | notFound (path : String)
  deriving DecidableEq, Repr

/-- The message and the messages behind it. -/
def SettingsError.causes : SettingsError → List String
  | notToml => ["Config parse error: invalid TOML", "invalid TOML"]
  | wrongValue => ["Config parse error: invalid value", "invalid value"]
  | unwritable => ["Config serialize error: out-of-range value", "out-of-range value"]
  | unreadable path fault => ["Cannot read " ++ path ++ ": " ++ fault.message, fault.message]
  | notFound path => ["Config file not found: " ++ path]

namespace Settings

open Toml (Value Entries)

def count? : Value → Option Nat
  | .integer i => if 0 ≤ i then some i.toNat else none
  | _ => none

def flag? : Value → Option Bool
  | .boolean b => some b
  | _ => none

def text? : Value → Option String
  | .string s => some s
  | _ => none

/-- A key of a section and what its value changes. -/
structure Field where
  key : String
  set : Value → Settings → Option Settings

def reduceFields : List Field :=
  [⟨"quota", fun v s => do return { s with quota := ← count? v }⟩,
    ⟨"trace", fun v s => do return { s with trace := ← flag? v }⟩]

def shellFields : List Field :=
  [⟨"prompt", fun v s => do return { s with prompt := ← text? v }⟩,
    ⟨"history_size", fun v s => do return { s with historySize := ← count? v }⟩,
    ⟨"history_file", fun v s => do return { s with historyFile := some (← text? v) }⟩]

def readerFields : List Field :=
  [⟨"root", fun v s => do return { s with root := some (← text? v) }⟩]

def setAll (fields : List Field) (values : List Value) (s : Settings) : Option Settings :=
  (fields.zip values).foldlM (fun s (f, v) => f.set v s) s

/-- Takes over the values of a section. A date holds none of its keys. -/
def readSection (fields : List Field) (v : Value) (s : Settings) : Option Settings :=
  match v with
  | .table _ entries =>
    fields.foldlM (fun s f => match entries.lookup f.key with
      | some v => f.set v s
      | none => some s) s
  | .array elements => setAll fields elements s
  | .tables latestFirst => setAll fields latestFirst.reverse s
  | .datetime => some s
  | _ => none

def ofEntries (entries : Entries) : Option Settings :=
  [("reduce", reduceFields), ("shell", shellFields), ("reader", readerFields)].foldlM
    (fun s (key, fields) => match entries.lookup key with
      | some v => readSection fields v s
      | none => some s) {}

def ofToml (text : String) : Except SettingsError Settings :=
  match Toml.parse text with
  | none => .error .notToml
  | some entries =>
    match ofEntries entries with
    | none => .error .wrongValue
    | some s => .ok s

def line (key value : String) : String :=
  key ++ " = " ++ value ++ "\n"

def textLine (key : String) : Option String → String
  | some s => line key (Toml.quote s)
  | none => ""

/-- All sections; TOML integers have 64 bits with sign. -/
def toToml (s : Settings) : Except SettingsError String :=
  if Nat.pow 2 63 ≤ s.quota || Nat.pow 2 63 ≤ s.historySize then .error .unwritable
  else
    .ok ("[reduce]\n" ++ line "quota" (toString s.quota) ++ line "trace" (toString s.trace) ++
      "\n[shell]\n" ++ line "prompt" (Toml.quote s.prompt) ++
      line "history_size" (toString s.historySize) ++ textLine "history_file" s.historyFile ++
      "\n[reader]\n" ++ textLine "root" s.root)

end Settings

end BlockCalculus
