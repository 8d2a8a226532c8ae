import BlockCalculus.Text.ClusterRanges

/-! The visible characters of a line: code points that belong together, such as
a letter with its accents, form one cluster. -/

namespace BlockCalculus.Text

def within (ranges : List (Nat × Nat)) (c : Char) : Bool :=
  ranges.any fun r => r.1 ≤ c.toNat && c.toNat ≤ r.2

/-- What a character does to the place before and after it. -/
inductive BreakClass where
  | control | extend | joiner | flagLetter | prepend | spacing
  /-- The parts of a Korean syllable. -/
  | leading | vowel | trailing
  /-- Whole Korean syllables, without and with a trailing part. -/
  | openSyllable | closedSyllable
  | other
  deriving DecidableEq, Repr

/-- Letters that name a flag by twos. -/
def flagLetterRanges : List (Nat × Nat) :=
  [(0x1F1E6, 0x1F1FF)]

def leadingRanges : List (Nat × Nat) :=
  [(0x1100, 0x115F), (0xA960, 0xA97C)]

def vowelRanges : List (Nat × Nat) :=
  [(0x1160, 0x11A7), (0xD7B0, 0xD7C6), (0x16D63, 0x16D63), (0x16D67, 0x16D6A)]

def trailingRanges : List (Nat × Nat) :=
  [(0x11A8, 0x11FF), (0xD7CB, 0xD7FB)]

def syllableRanges : List (Nat × Nat) :=
  [(0xAC00, 0xD7A3)]

def joinerCode : Nat :=
  0x200D

def breakClass (c : Char) : BreakClass :=
  if c.toNat < 0x20 || c.toNat = 0x7F then .control
  else if c.toNat < 0x7F then .other
  else if c.toNat = joinerCode then .joiner
  else if within controlRanges c then .control
  else if within extendRanges c then .extend
  else if within flagLetterRanges c then .flagLetter
  else if within prependRanges c then .prepend
  else if within spacingRanges c then .spacing
  else if within leadingRanges c then .leading
  else if within vowelRanges c then .vowel
  else if within trailingRanges c then .trailing
  else if within syllableRanges c then
    if (c.toNat - 0xAC00) % 28 = 0 then .openSyllable else .closedSyllable
  else .other

/-- Marks that may stand between the consonants of a conjunct. A non-joiner
keeps them apart. -/
def isConjunctMark (c : Char) : Bool :=
  c.toNat ≠ 0x200C && (breakClass c = .extend || breakClass c = .joiner)

/-- Whether text, last character first, ends in a consonant and marks after it
with a linker among them. -/
def endsLinked (text : List Char) : Bool :=
  (text.takeWhile isConjunctMark).any (within linkerRanges) &&
    (text.dropWhile isConjunctMark).head?.any (within consonantRanges)

/-- Whether text, last character first, ends in a pictograph with its marks. -/
def endsPictured (text : List Char) : Bool :=
  (text.dropWhile fun c => breakClass c = .extend).head?.any (within pictographRanges)

/-- Whether a character goes on with a cluster, given last character first.
Flag letters go by twos. A line holds no newline, so none is joined. -/
def joins (cluster : List Char) (c : Char) : Bool :=
  match cluster with
  | [] => true
  | last :: before =>
    match breakClass last, breakClass c with
    | .control, _ | _, .control => false
    | _, .extend | _, .joiner | _, .spacing | .prepend, _ => true
    | .leading, .leading | .leading, .vowel | .leading, .openSyllable
    | .leading, .closedSyllable => true
    | .openSyllable, .vowel | .openSyllable, .trailing | .vowel, .vowel | .vowel, .trailing => true
    | .closedSyllable, .trailing | .trailing, .trailing => true
    | .flagLetter, .flagLetter =>
      (cluster.takeWhile fun c => breakClass c = .flagLetter).length % 2 = 1
    | .joiner, .other =>
      within pictographRanges c && endsPictured before ||
        within consonantRanges c && endsLinked cluster
    | _, .other => within consonantRanges c && endsLinked cluster
    | _, _ => false

/-- The clusters of a line. -/
def clusters (line : List Char) : List (List Char) :=
  go [] line
where
  go (cluster : List Char) : List Char → List (List Char)
    | [] => if cluster.isEmpty then [] else [cluster.reverse]
    | c :: rest =>
      if joins cluster c then go (c :: cluster) rest else cluster.reverse :: go [c] rest

end BlockCalculus.Text
