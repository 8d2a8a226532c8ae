import BlockCalculus.CommandLine.Arguments
import BlockCalculus.CommandLine.History
import BlockCalculus.CommandLine.Verbosity
import BlockCalculus.Names.Folder
import BlockCalculus.Reduction.Source
import BlockCalculus.Settings.Load
import BlockCalculus.Text.Erasure
import BlockCalculus.Workbench.Line

/-! What a request does: from its arguments, a file tree and the standard
input to the standard output, the report and the exit code. -/

namespace BlockCalculus.CommandLine

/-- What is read from outside. -/
structure Surroundings where
  tree : FileTree
  env : Environment
  stdin : Bytes

structure Answer where
  code : Nat
  stdout : Bytes
  stderr : String
  deriving DecidableEq

/-- Kept blocks, the lines of the report so far and the lines entered in a
shell, latest first. -/
structure Memory where
  cache : Folder.Cache
  lines : List String
  entered : List String

def Memory.empty : Memory :=
  ⟨[], [], []⟩

def Memory.record (v : Verbosity) (e : Event) (m : Memory) : Memory :=
  if v.reports e then { m with lines := e.line :: m.lines } else m

def Memory.recordAll (v : Verbosity) (es : List Event) (m : Memory) : Memory :=
  es.foldl (fun m e => m.record v e) m

/-- Names from the files of a folder, with everything reported. -/
def folderHost (v : Verbosity) (folder : Folder) : Host Memory where
  resolve name memory :=
    folder.expandWith (m := StateM Memory) (fun name => do return (← get).cache.lookup name)
      (fun name b => modify fun m => { m.record v (.loaded name) with cache := (name, b) :: m.cache })
      [] name memory
  record := Memory.record v

/-- A message and the messages behind it. -/
abbrev Failure := List String

/-- The bytes for standard output, or a failure after some of them. -/
abbrev Outcome := Bytes × Option Failure

def bytesOf (text : String) : Bytes :=
  text.toUTF8.toList

def lineOut (text : String) : Outcome :=
  (bytesOf (text ++ "\n"), none)

def failed (context : String) (causes : List String) : Outcome :=
  ([], some (context :: causes))

/-- Moves the lines after the first to the right. -/
def indent (width : Nat) (text : String) : String :=
  text.replace "\n" ("\n" ++ String.ofList (List.replicate width ' '))

/-- The failure as text: the context, and the causes, numbered if there are
several. -/
def failureText : Failure → String
  | [] => "Error: \n"
  | [context] => "Error: " ++ context ++ "\n"
  | [context, cause] => "Error: " ++ context ++ "\n\nCaused by:\n    " ++ indent 4 cause ++ "\n"
  | context :: causes =>
    "Error: " ++ context ++ "\n\nCaused by:\n" ++
      String.join (causes.zipIdx.map fun (cause, i) =>
        "    " ++ toString i ++ ": " ++ indent 7 cause ++ "\n")

def failedSource (e : Reduction.SourceError) : Outcome :=
  failed e.context [e.cause]

def readInput (s : Surroundings) (file : Option String) : Except Reduction.SourceError Bytes :=
  match file with
  | none => .ok s.stdin
  | some path => Reduction.readFile s.tree path

/-- The counts of a run as a JSON object. -/
def statsLine (o : Reduction.Outcome) : String :=
  "\x7b\"fuel_used\":" ++ toString o.fuelUsed ++ ",\"stuck\":" ++ toString o.stuck ++
    ",\"exhausted\":" ++ toString o.exhausted ++ ",\"tags\":" ++ toString o.tags.length ++ "\x7d\n"

def reportOutcome (v : Verbosity) (o : Reduction.Outcome) (stats : Bool) (m : Memory) : Memory :=
  let m := if stats then { m with lines := statsLine o :: m.lines } else m
  m.recordAll v (o.tags.map Event.tag)

def writeBlock (format : Format) (b : Block) : Outcome :=
  match format, Bytecode.encode b with
  | .text, _ => lineOut b.render
  | .hex, .ok bytes => lineOut bytes.hex
  | .bytes, .ok bytes => (bytes, none)
  | _, .error e => failed "Failed to encode result" [e.message]

def runReduce (v : Verbosity) (host : Host Memory) (bytes : Bytes) (quota : Nat)
    (format : Format) (stats : Bool) (m : Memory) : Outcome × Memory :=
  match Reduction.reduceBytes host quota bytes m with
  | (.error e, m) => (failedSource e, m)
  | (.ok o, m) => (writeBlock format o.block, reportOutcome v o stats m)

def runEval (v : Verbosity) (host : Host Memory) (code : String) (quota : Nat) (stats : Bool)
    (m : Memory) : Outcome × Memory :=
  match Reduction.evalText host quota code m with
  | (.error e, m) => (failedSource e, m)
  | (.ok o, m) => (lineOut o.block.render, reportOutcome v o stats m)

/-- Reads code with its names resolved, and hands on the block. -/
def withCode (host : Host Memory) (code : String) (next : Block → Outcome) (m : Memory) :
    Outcome × Memory :=
  match Workbench.readWith host (Token.scan code.toList) m with
  | (.error e, m) => (failed "Failed to read code" [e.message], m)
  | (.ok b, m) => (next b, m)

def encodeOut (hex : Bool) (b : Block) : Outcome :=
  match Bytecode.encode b with
  | .error e => failed "Failed to encode" [e.message]
  | .ok bytes => if hex then lineOut bytes.hex else (bytes, none)

def hashOut (b : Block) : Outcome :=
  match Bytecode.addressOf b with
  | .error e => failed "Failed to encode" [e.message]
  | .ok target => lineOut ("#" ++ target.hex)

def runDecode (host : Host Memory) (bytes : Bytes) (m : Memory) : Outcome × Memory :=
  match Reduction.decode host bytes m with
  | (.error e, m) => (failedSource e, m)
  | (.ok b, m) => (lineOut b.render, m)

def banner : String :=
  "ABC shell v" ++ Event.version ++ " - type `help` for commands\n"

/-- What a shell shows after a line: its message, and the stack. -/
def shown (r : LineResult) (w : Workbench) : String :=
  (match r with
  | .output text | .error text => text ++ "\n"
  | .success | .exit => "") ++ w.render ++ "\n"

/-- What a shell does with a line: it goes on with a workbench, or stops. -/
inductive LineStep where
  | next (shown : Bytes) (w : Workbench)
  | stop (out : Outcome)

/-- Runs a line; `quit` writes the stack as bytecode. -/
def runLine (v : Verbosity) (host : Host Memory) (quota : Nat) (line : Bytes) (w : Workbench)
    (m : Memory) : LineStep × Memory :=
  let m := m.record v .noTerminal
  match FileTree.decodeText line with
  | .error fault =>
    (.stop ([], some ["Shell failed", "Readline error: " ++ fault.message, fault.message,
      fault.message]), m)
  | .ok typed =>
    let line := String.ofList (Text.erase typed.toList)
    match w.execute host quota line { m with entered := line :: m.entered } with
    | (.exit, w, m) =>
      match w.written with
      | (bytes, .ok ()) => (.stop (bytes, none), m)
      | (bytes, .error e) => (.stop (bytes, some ["Shell failed", e.message]), m)
    | (r, w, m) => (.next (bytesOf (shown r w)) w, m)

/-- Runs lines up to a `quit` or the end of the input. -/
def runLines (v : Verbosity) (host : Host Memory) (quota : Nat) :
    List Bytes → Workbench → Memory → Outcome × Memory
  | [], _, m => (([], none), m.record v .noTerminal)
  | line :: rest, w, m =>
    match runLine v host quota line w m with
    | (.stop out, m) => (out, m)
    | (.next shown w, m) =>
      let ((bytes, failure), m) := runLines v host quota rest w m
      ((shown ++ bytes, failure), m)

def openShell (v : Verbosity) (tree : FileTree) (settings : Settings) (m : Memory) : Memory :=
  m.recordAll v (History.loadEvents tree settings)

/-- The history is saved unless the shell failed. -/
def closeShell (v : Verbosity) (tree : FileTree) (settings : Settings) (out : Outcome)
    (m : Memory) : Memory :=
  if out.2.isNone then m.recordAll v (History.saveEvents tree settings m.entered) else m

def runShell (v : Verbosity) (s : Surroundings) (settings : Settings) (host : Host Memory)
    (quota : Nat) (m : Memory) : Outcome × Memory :=
  let (out, m) :=
    runLines v host quota s.stdin.lines Workbench.empty (openShell v s.tree settings m)
  ((bytesOf banner ++ out.1, out.2), closeShell v s.tree settings out m)

def settingsHost (v : Verbosity) (tree : FileTree) (settings : Settings) : Host Memory :=
  folderHost v (Folder.ofPath tree (settings.resolverRoot tree.cwdText))

def perform (v : Verbosity) (s : Surroundings) (settings : Settings) (m : Memory) :
    Action → Outcome × Memory
  | .reduce file quota output stats =>
    match readInput s file with
    | .error e => (failedSource e, m)
    | .ok bytes => runReduce v host bytes (quota.getD settings.quota) output stats m
  | .eval code quota stats => runEval v host code (quota.getD settings.quota) stats m
  | .encode code hex => withCode host code (encodeOut hex) m
  | .decode file =>
    match readInput s file with
    | .error e => (failedSource e, m)
    | .ok bytes => runDecode host bytes m
  | .hash code => withCode host code hashOut m
  | .shell quota => runShell v s settings host (quota.getD settings.quota) m
where
  host : Host Memory := settingsHost v s.tree settings

def usageText : String :=
  "Usage: abc [OPTIONS] <COMMAND>\n"

def helpText : String :=
  usageText ++ "\nCommands: " ++ ", ".intercalate (Verb.all.map Verb.name) ++ "\n"

/-- The settings for a request, with the report up to there. -/
def prepare (tree : FileTree) (env : Environment) (r : Request) :
    Except SettingsError Settings × Memory :=
  let v := Verbosity.ofFlags r.verbose r.quiet
  let (events, loaded) := Settings.load tree r.config (Settings.searchPaths tree.cwdText env)
  (loaded, (Memory.empty.record v .starting).recordAll v events)

def answer (out : Outcome) (m : Memory) : Answer :=
  let lines := String.join m.lines.reverse
  match out with
  | (stdout, none) => ⟨0, stdout, lines⟩
  | (stdout, some failure) => ⟨1, stdout, lines ++ failureText failure⟩

/-- The answer to a request. -/
def serve (s : Surroundings) (r : Request) : Answer :=
  match prepare s.tree s.env r with
  | (.error e, m) => answer (failed "Failed to load configuration" e.causes) m
  | (.ok settings, m) =>
    let (out, m) := perform (Verbosity.ofFlags r.verbose r.quiet) s settings m r.action
    answer out m

/-- The answer to arguments. -/
def run (s : Surroundings) (args : List String) : Answer :=
  match parse args with
  | .error .usage => ⟨2, [], usageText⟩
  | .error .help => ⟨0, bytesOf helpText, ""⟩
  | .error .version => ⟨0, bytesOf ("abc " ++ Event.version ++ "\n"), ""⟩
  | .ok request => serve s request

end BlockCalculus.CommandLine
