import BlockCalculus.Number.Decimal

/-! Writing TOML strings. Of the forms that need no escape the simplest is
taken: double quotes, single quotes, a block of one or the other. Where each
needs one, double quotes with escapes are taken, in a block if there are
newlines. -/

namespace BlockCalculus.Toml

def isControlChar (c : Char) : Bool :=
  c.toNat < 0x20 || c.toNat == 0x7f

def upperHex (n : Nat) : Char :=
  if n < 10 then Char.ofNat (48 + n) else Char.ofNat (55 + n)

def escaped (c : Char) : List Char :=
  if c = '"' then ['\\', '"']
  else if c = '\\' then ['\\', '\\']
  else if c = '\t' then ['\\', 't']
  else if c = '\n' then ['\\', 'n']
  else if c = '\r' then ['\\', 'r']
  else if c.toNat = 8 then ['\\', 'b']
  else if c.toNat = 12 then ['\\', 'f']
  else if isControlChar c then
    ['\\', 'u', '0', '0', upperHex (c.toNat / 16), upperHex (c.toNat % 16)]
  else [c]

/-- The inside of a block: newlines stay, and of quotes in a row each third
one is escaped. -/
def blockChars (quotes : Nat) : List Char → List Char
  | [] => []
  | c :: rest =>
    if c = '\n' then c :: blockChars 0 rest
    else if c = '"' then
      if quotes < 2 then c :: blockChars (quotes + 1) rest else escaped c ++ blockChars 0 rest
    else escaped c ++ blockChars 0 rest

/-- The length of the longest run of a character. -/
def longestRun (c : Char) (cs : List Char) : Nat :=
  (cs.foldl (fun (longest, run) d =>
    let run := if d = c then run + 1 else 0
    (max longest run, run)) (0, 0)).1

def quote (s : String) : String :=
  let cs := s.toList
  let apostrophe := Char.ofNat 39
  let newline := cs.contains '\n'
  let backslash := cs.contains '\\'
  let control := cs.any fun c => isControlChar c && c != '\t' && c != '\n'
  let doubles := longestRun '"' cs
  let singles := longestRun apostrophe cs
  let start := if newline then "\n" else ""
  if !control && !backslash && doubles = 0 && !newline then basic cs
  else if !control && singles = 0 && !newline then "'" ++ s ++ "'"
  else if !control && !backslash && doubles ≤ 2 then basicBlock start cs
  else if !control && singles ≤ 2 then "'''" ++ start ++ s ++ "'''"
  else if newline then basicBlock start cs
  else basic cs
where
  basic (cs : List Char) : String :=
    "\"" ++ String.ofList (cs.flatMap escaped) ++ "\""
  basicBlock (start : String) (cs : List Char) : String :=
    "\"\"\"" ++ start ++ String.ofList (blockChars 0 cs) ++ "\"\"\""

end BlockCalculus.Toml
