import BlockCalculus.Text.Cluster

/-! Lines as they were typed: a backspace takes back the cluster before it. -/

namespace BlockCalculus.Text

def backspace : Char :=
  Char.ofNat 8

/-- Text that was typed, last character first, and the widths of its clusters
in bytes. -/
structure Typed where
  text : List Char
  widths : List UInt8

def utf8Width (text : List Char) : Nat :=
  text.foldr (fun c n => c.utf8Size + n) 0

/-- Takes characters away that fill a number of bytes. -/
def dropWidth (n : Nat) : List Char → List Char
  | [] => []
  | c :: rest => if n < c.utf8Size then c :: rest else dropWidth (n - c.utf8Size) rest

/-- Adds a cluster. A width is kept in one byte, so of a cluster of more than
255 bytes only the remainder is taken back. -/
def Typed.add (t : Typed) (cluster : List Char) : Typed :=
  if cluster = [backspace] then
    match t.widths with
    | [] => t
    | width :: widths => ⟨dropWidth width.toNat t.text, widths⟩
  else ⟨cluster.reverse ++ t.text, UInt8.ofNat (utf8Width cluster) :: t.widths⟩

/-- What is left of a line. Without backspaces that is the line. -/
def erase (line : List Char) : List Char :=
  if line.contains backspace then
    ((clusters line).foldl Typed.add ⟨[], []⟩).text.reverse
  else line

end BlockCalculus.Text
