/-! Text as tokens: brackets stand for themselves and words are what lies
between brackets and white space. -/

namespace BlockCalculus

/-- Characters with the Unicode property White_Space. -/
def isBlank (c : Char) : Bool :=
  let n := c.toNat
  (9 ≤ n && n ≤ 13) || n == 0x20 || n == 0x85 || n == 0xa0 || n == 0x1680 ||
    (0x2000 ≤ n && n ≤ 0x200a) || n == 0x2028 || n == 0x2029 || n == 0x202f ||
    n == 0x205f || n == 0x3000

inductive Token where
  | opening
  | closing
  | word (chars : List Char)
  deriving DecidableEq, Repr

namespace Token

/-- The word whose characters have been read, newest first. -/
def ofRead : List Char → List Token
  | [] => []
  | cs => [word cs.reverse]

def scanFrom (read : List Char) : List Char → List Token
  | [] => ofRead read
  | c :: rest =>
    if c = '[' then ofRead read ++ opening :: scanFrom [] rest
    else if c = ']' then ofRead read ++ closing :: scanFrom [] rest
    else if isBlank c then ofRead read ++ scanFrom [] rest
    else scanFrom (c :: read) rest

def scan (text : List Char) : List Token :=
  scanFrom [] text

/-- Tokens apart by single blanks, with none inside a bracket. -/
def spell (first : Bool) : List Token → List Char
  | [] => []
  | closing :: rest => ']' :: spell false rest
  | opening :: rest => gap first ++ '[' :: spell true rest
  | word w :: rest => gap first ++ w ++ spell false rest
where
  gap (first : Bool) : List Char := if first then [] else [' ']

end Token

/-- The maximal runs without white space. -/
def wordsFrom (read : List Char) : List Char → List (List Char)
  | [] => if read.isEmpty then [] else [read.reverse]
  | c :: rest =>
    if isBlank c then
      if read.isEmpty then wordsFrom [] rest else read.reverse :: wordsFrom [] rest
    else wordsFrom (c :: read) rest

def words (text : List Char) : List (List Char) :=
  wordsFrom [] text

end BlockCalculus
