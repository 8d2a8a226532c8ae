import BlockCalculus.Event
import BlockCalculus.Settings.Basic

/-! Where settings come from: an explicit file, or else the first that exists
of the project file and the user file, or else the defaults. -/

namespace BlockCalculus

/-- The variables that lead to the user file. -/
structure Environment where
  xdgConfigHome : Option String := none
  home : Option String := none
  appData : Option String := none

namespace Settings

/-- The directory in which names are looked up. -/
def resolverRoot (s : Settings) (cwd : String) : String :=
  s.root.getD cwd

def userDirectory? (env : Environment) : Option String :=
  match env.xdgConfigHome, env.home, env.appData with
  | some dir, _, _ => some (Path.join dir "abc")
  | none, some dir, _ => some (Path.join (Path.join dir ".config") "abc")
  | none, none, some dir => some (Path.join dir "abc")
  | none, none, none => none

/-- The project file and then the user file. -/
def searchPaths (cwd : String) (env : Environment) : List String :=
  Path.join cwd "abc.toml" ::
    ((userDirectory? env).map fun dir => Path.join dir "config.toml").toList

/-- Reads one file, with the events on the way. -/
def loadFile (t : FileTree) (path : String) : List Event × Except SettingsError Settings :=
  match t.readText path with
  | .error fault => ([], .error (.unreadable path fault))
  | .ok text => ([.configLoaded path], ofToml text)

def loadFirst (t : FileTree) (paths : List String) : List Event × Except SettingsError Settings :=
  match paths.find? t.isFile with
  | some path => loadFile t path
  | none => ([], .ok {})

/-- An explicit file has to exist. -/
def load (t : FileTree) (explicit : Option String) (paths : List String) :
    List Event × Except SettingsError Settings :=
  match explicit with
  | some path => if t.isFile path then loadFile t path else ([], .error (.notFound path))
  | none => loadFirst t paths

end Settings

end BlockCalculus
