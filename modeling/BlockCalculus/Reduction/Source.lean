import BlockCalculus.Bytecode.Decode
import BlockCalculus.Reduction.Run

/-! Reduction of bytecode, of files of bytecode and of text. -/

namespace BlockCalculus.Reduction

/-- Why there is nothing to reduce. -/
inductive SourceError where
  | bytecode (error : DecodeError)
  | code (error : ReadError)
  | file (path : String) (fault : FileFault)
  deriving DecidableEq

namespace SourceError

def context : SourceError → String
  | bytecode _ => "Failed to decode bytecode"
  | code _ => "Failed to read code"
  | file path _ => "Failed to read file: " ++ path

def cause : SourceError → String
  | bytecode error => error.message
  | code error => error.message
  | file _ fault => fault.message

def message (e : SourceError) : String :=
  e.context ++ ": " ++ e.cause

end SourceError

variable {σ : Type}

/-- Decodes bytecode and records when a quotation has been left open. -/
def decode (host : Host σ) (bytes : Bytes) (memory : σ) : Except SourceError Block × σ :=
  match Bytecode.decode bytes with
  | .ok b => (.ok b, memory)
  | .error (.unclosed depth) =>
    (.error (.bytecode (.unclosed depth)), host.record (.endedInsideQuotation depth) memory)
  | .error e => (.error (.bytecode e), memory)

/-- Decodes bytecode and reduces it; names in it have no answers. -/
def reduceBytes (host : Host σ) (quota : Nat) (bytes : Bytes) (memory : σ) :
    Except SourceError Outcome × σ :=
  match decode host bytes (host.record (.decoding bytes.length) memory) with
  | (.error e, memory) => (.error e, memory)
  | (.ok b, memory) =>
    let (o, memory) := reduce host.nameless quota b memory
    (.ok o, memory)

def readFile (t : FileTree) (path : String) : Except SourceError Bytes :=
  match t.read path with
  | .ok bytes => .ok bytes
  | .error fault => .error (.file path fault)

def reduceFile (host : Host σ) (quota : Nat) (t : FileTree) (path : String) (memory : σ) :
    Except SourceError Outcome × σ :=
  match readFile t path with
  | .ok bytes => reduceBytes host quota bytes memory
  | .error e => (.error e, memory)

/-- Reads text and reduces it. Names are resolved when the run comes to them. -/
def evalText (host : Host σ) (quota : Nat) (text : String) (memory : σ) :
    Except SourceError Outcome × σ :=
  match Notation.parse text with
  | .error e => (.error (.code e), memory)
  | .ok b =>
    let (o, memory) := reduce host quota b memory
    (.ok o, memory)

end BlockCalculus.Reduction
