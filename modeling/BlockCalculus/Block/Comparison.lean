import BlockCalculus.Block.Equality

/-! Comparison in place: a walk down two blocks at once that keeps a list of
second parts to come back to. Parts that are one and the same in memory are not
looked into. Which parts are depends on where they stand, since equal parts may
be shared at one place and lie apart at another. -/

namespace BlockCalculus.Block

/-- A step from a block to one of its parts. -/
inductive Descent where
  | body | first | second
  deriving DecidableEq

/-- Where a part stands in a block, the last step first. -/
abbrev Place := List Descent

/-- Comparison of blocks that have no parts. -/
def leafEqual : Block → Block → Bool
  | empty, empty => true
  | prim p, prim q => p == q
  | link s, link t => s == t
  | num x, num y => x.sameValue y
  | var m, var n => m == n
  | _, _ => false

/-- Comparison without a descent, unless both sides have parts of the same
kind. -/
def shallow? : Block → Block → Option Bool
  | quote _, quote _ | pair .., pair .. => none
  | a, b => some (leafEqual a b)

/-- Parts at the same place of two blocks. -/
structure Parts where
  place : Place
  left : Block
  right : Block
  deriving DecidableEq

structure Walk where
  current : Parts
  postponed : List Parts
  deriving DecidableEq

namespace Walk

/-- What a turn of the walk comes to. -/
inductive Turn where
  | verdict (same : Bool)
  | onward (next : Walk)
  deriving DecidableEq

/-- Goes on with the parts postponed last, once the current ones are settled. -/
def settle : Bool → List Parts → Turn
  | false, _ => .verdict false
  | true, [] => .verdict true
  | true, next :: rest => .onward ⟨next, rest⟩

/-- One turn of the walk. First parts that a look settles are passed over, and
second parts are postponed only if they lie apart. -/
def turn (shared : Place → Block → Block → Bool) : Walk → Turn
  | ⟨⟨place, quote a, quote b⟩, postponed⟩ =>
    if shared (.body :: place) a b then settle true postponed
    else .onward ⟨⟨.body :: place, a, b⟩, postponed⟩
  | ⟨⟨place, pair a c, pair b d⟩, postponed⟩ =>
    if shared (.first :: place) a b then .onward ⟨⟨.second :: place, c, d⟩, postponed⟩
    else
      match shallow? a b with
      | some true => .onward ⟨⟨.second :: place, c, d⟩, postponed⟩
      | some false => .verdict false
      | none =>
        .onward ⟨⟨.first :: place, a, b⟩,
          if shared (.second :: place) c d then postponed
          else ⟨.second :: place, c, d⟩ :: postponed⟩
  | ⟨⟨_, a, b⟩, postponed⟩ => settle (leafEqual a b) postponed

/-- The number of constructors on the left that are still to be walked. -/
def remaining (w : Walk) : Nat :=
  (w.current :: w.postponed).foldr (fun parts n => parts.left.nodes + n) 0

theorem settle_lt {same : Bool} {current : Parts} {postponed : List Parts} {next : Walk}
    (h : settle same postponed = .onward next) :
    next.remaining < (Walk.mk current postponed).remaining := by
  have hpos := current.left.nodes_pos
  cases same with
  | false => cases h
  | true =>
    cases postponed with
    | nil => cases h
    | cons parts rest =>
      cases h
      simp only [remaining, List.foldr_cons]
      omega

theorem turn_lt {shared : Place → Block → Block → Bool} {w next : Walk}
    (h : w.turn shared = .onward next) : next.remaining < w.remaining := by
  fun_cases turn shared w with
  | case1 place a b postponed hs =>
    rw [turn, if_pos hs] at h
    exact settle_lt h
  | case2 place a b postponed hs =>
    rw [turn, if_neg hs] at h
    cases h
    simp only [remaining, List.foldr_cons, nodes]
    omega
  | case3 place a c b d postponed hs =>
    rw [turn, if_pos hs] at h
    cases h
    simp only [remaining, List.foldr_cons, nodes]
    omega
  | case4 place a c b d postponed hs hl =>
    simp only [turn, if_neg hs, hl] at h
    cases h
    simp only [remaining, List.foldr_cons, nodes]
    omega
  | case5 place a c b d postponed hs hl =>
    simp only [turn, if_neg hs, hl] at h
    cases h
  | case6 place a c b d postponed hs hl =>
    simp only [turn, if_neg hs, hl] at h
    cases h
    split <;> simp only [remaining, List.foldr_cons, nodes] <;> omega
  | case7 place a b postponed hq hp =>
    rw [turn] at h
    · exact settle_lt h
    · exact hq
    · exact hp

/-- Turns until there is a verdict. -/
def run (shared : Place → Block → Block → Bool) (w : Walk) : Bool :=
  match _h : w.turn shared with
  | .verdict same => same
  | .onward next => run shared next
termination_by w.remaining
decreasing_by exact turn_lt _h

end Walk

/-- Comparison of two blocks by walking them. -/
def walk (shared : Place → Block → Block → Bool) (a b : Block) : Bool :=
  Walk.run shared ⟨⟨[], a, b⟩, []⟩

end BlockCalculus.Block
