import BlockCalculus.Event
import BlockCalculus.Settings.Basic

/-! The file in which a shell keeps its lines. -/

namespace BlockCalculus.CommandLine.History

/-- The first line of a file whose other lines are escaped. -/
def mark : String :=
  "#V2"

/-- Whether every backslash stands before an `n`, for a newline, or before
another backslash. -/
def isEscaped : List Char → Bool
  | [] => true
  | ['\\'] => false
  | '\\' :: c :: rest => (c = 'n' || c = '\\') && isEscaped rest
  | _ :: rest => isEscaped rest

/-- The lines before the first one that is not UTF-8. -/
def readable : List Bytes → List String
  | [] => []
  | line :: rest =>
    match FileTree.decodeText line with
    | .ok text => text :: readable rest
    | .error _ => []

/-- The lines of a file that cannot be read back. -/
def badLines (content : Bytes) : List String :=
  match readable content.lines with
  | first :: rest => if first = mark then rest.filter fun line => !isEscaped line.toList else []
  | [] => []

/-- Whether a line is kept. -/
def isMemorable (line : String) : Bool :=
  line.toList.head?.any fun c => !isBlank c

/-- What is reported when a shell starts. -/
def loadEvents (tree : FileTree) (settings : Settings) : List Event :=
  match settings.historyFile.map tree.read with
  | some (.ok content) => (badLines content).map Event.badHistoryLine
  | _ => []

/-- What is reported when a shell with these lines ends. -/
def saveEvents (tree : FileTree) (settings : Settings) (lines : List String) : List Event :=
  match settings.historyFile.map tree.locateNew with
  | some (.error fault) =>
    if settings.historySize = 0 || !lines.any isMemorable then [] else [.historyNotSaved fault]
  | _ => []

end BlockCalculus.CommandLine.History
