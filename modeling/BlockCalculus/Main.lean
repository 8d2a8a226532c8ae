import BlockCalculus.CommandLine.Run

/-! The command line. Files that a request may need are read beforehand; a
shell reads its lines one by one. -/

namespace BlockCalculus.CommandLine

/-- Adds what a path leads to, and the directories on the way. -/
def gather (tree : FileTree) (path : String) : IO FileTree := do
  let cwd ← IO.currentDir
  let start := if path.startsWith "/" then [] else tree.cwd
  let step (state : FileTree × List String) (part : String) : IO (FileTree × List String) := do
    let (tree, place) := state
    if part = "." then return (tree, place)
    if part = ".." then return (tree, place.dropLast)
    let place := place ++ [part]
    let file := cwd / ("/" ++ "/".intercalate place)
    try
      let kind := (← file.metadata).type
      if kind == .dir then return (tree.insert place .directory, place)
      let content := (← IO.FS.readBinFile file).toList
      return (tree.insert place (if kind == .file then .file content else .device content), place)
    catch _ => return (tree, place)
  let (tree, _) ← (Path.parts path).foldlM step (tree, start)
  return tree

/-- Adds the files of a directory whose names can be names of blocks. -/
def gatherFolder (tree : FileTree) (root : String) : IO FileTree := do
  let cwd ← IO.currentDir
  let tree ← gather tree root
  try
    let entries ← (cwd / root).readDir
    let names := (entries.toList.map fun e => e.fileName).filter Notation.isName
    names.foldlM (fun tree name => gather tree (Path.join root name)) tree
  catch _ => return tree

def surroundings (r : Request) : IO Surroundings := do
  let cwd ← IO.currentDir
  let env : Environment := {
    xdgConfigHome := ← IO.getEnv "XDG_CONFIG_HOME"
    home := ← IO.getEnv "HOME"
    appData := ← IO.getEnv "APPDATA" }
  let tree := FileTree.bare (Path.parts cwd.toString)
  let tree ← (r.config.toList ++ Settings.searchPaths tree.cwdText env).foldlM gather tree
  let settings := (prepare tree env r).1.toOption.getD {}
  let tree ← gatherFolder tree (settings.resolverRoot tree.cwdText)
  match r.action with
  | .reduce file .. | .decode file =>
    match file with
    | some path => return ⟨← gather tree path, env, []⟩
    | none => return ⟨tree, env, (← (← IO.getStdin).readBinToEnd).toList⟩
  | .shell _ =>
    match settings.historyFile with
    | some path => return ⟨← gather tree path, env, []⟩
    | none => return ⟨tree, env, []⟩
  | _ => return ⟨tree, env, []⟩

def put (a : Answer) : IO UInt32 := do
  (← IO.getStdout).write ⟨a.stdout.toArray⟩
  (← IO.getStderr).putStr a.stderr
  return UInt32.ofNat a.code

/-- The next line with its end, or nothing at the end of the input. -/
partial def readLine (input : IO.FS.Stream) (read : Bytes) : IO Bytes := do
  let chunk ← input.read 1
  match chunk.toList with
  | [b] => if b = 10 then return (b :: read).reverse else readLine input (b :: read)
  | _ => return read.reverse

partial def shellLoop (v : Verbosity) (s : Surroundings) (settings : Settings) (quota : Nat)
    (w : Workbench) (m : Memory) : IO UInt32 := do
  let finish (out : Outcome) (m : Memory) : IO UInt32 :=
    put (answer out (closeShell v s.tree settings out m))
  let line ← readLine (← IO.getStdin) []
  if line.isEmpty then finish ([], none) (m.record v .noTerminal)
  else
    match runLine v (settingsHost v s.tree settings) quota (line.lines.headD []) w m with
    | (.stop out, m) => finish out m
    | (.next shown w, m) =>
      let _ ← put (answer (shown, none) m)
      (← IO.getStdout).flush
      shellLoop v s settings quota w { m with lines := [] }

def start (args : List String) : IO UInt32 := do
  match parse args with
  | .error _ => put (run ⟨FileTree.bare [], {}, []⟩ args)
  | .ok r =>
    let s ← surroundings r
    match r.action, prepare s.tree s.env r with
    | .shell quota, (.ok settings, m) =>
      let v := Verbosity.ofFlags r.verbose r.quiet
      let _ ← put (answer (bytesOf banner, none) (openShell v s.tree settings m))
      (← IO.getStdout).flush
      shellLoop v s settings (quota.getD settings.quota) Workbench.empty { m with lines := [] }
    | _, _ => put (serve s r)

end BlockCalculus.CommandLine

def main (args : List String) : IO UInt32 :=
  BlockCalculus.CommandLine.start args
