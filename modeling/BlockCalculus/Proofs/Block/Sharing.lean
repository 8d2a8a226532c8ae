import BlockCalculus.Proofs.Block.Cell
import BlockCalculus.Proofs.Block.Comparison

/-! What labels say about blocks. The comparison of cells is the walk down two
blocks that passes over parts with labels that meet. Labels are faithful if each
of them has led to one block only; then meeting labels never join different
blocks, and without a NaN the comparison is that of separately built blocks. -/

namespace BlockCalculus

namespace Cell

def child : Block.Descent → Cell → Cell
  | .body, quote _ body => body
  | .first, pair _ a _ _ => a
  | .second, pair _ _ _ b => b
  | _, _ => empty

/-- The label of the reference that a step follows. -/
def label : Block.Descent → Cell → Label
  | .body, quote l _ => l
  | .first, pair l .. => l
  | .second, pair _ _ m _ => m
  | _, _ => .sole

def part : Block.Place → Cell → Cell
  | [], c => c
  | d :: place, c => (c.part place).child d

/-- Parts of two values are one part if the references to them say so. -/
def sharing (v w : Cell) : Block.Place → Block → Block → Bool
  | [], _, _ => false
  | d :: place, _, _ => ((v.part place).label d).meets ((w.part place).label d)

theorem same_of_shallow? {a b : Cell} {answer : Bool} (h : Block.shallow? a.block b.block = some answer) :
    a.same b = answer := by
  cases a with
  | quote l a => cases b <;> simp_all [block, Block.shallow?, same]
  | pair l a m c => cases b <;> simp_all [block, Block.shallow?, same]
  | _ => simpa [block, Block.shallow?, same] using h

theorem same_quote (l m : Label) (a b : Cell) :
    (quote l a).same (quote m b) = (l.meets m || a.same b) := by
  rw [same]
  cases l.meets m <;> rfl

theorem same_pair (l l' m m' : Label) (a b c d : Cell) :
    (pair l a l' c).same (pair m b m' d) =
      ((l.meets m || a.same b) &&
        (!l.meets m && (Block.shallow? a.block b.block).isNone && l'.meets m' || c.same d)) := by
  rw [same]
  split
  · simp [*]
  · split
    all_goals simp_all [same_of_shallow?]

theorem same_eq_agreeAt (v w : Cell) {a b : Cell} (place : Block.Place) (ha : v.part place = a)
    (hb : w.part place = b) : a.same b = Block.agreeAt (v.sharing w) place a.block b.block := by
  have hpart (c : Cell) (d : Block.Descent) : c.part (d :: place) = (c.part place).child d := rfl
  have hshared (d : Block.Descent) (x y : Block) :
      v.sharing w (d :: place) x y = (a.label d).meets (b.label d) := by rw [sharing, ha, hb]
  induction a generalizing b place with
  | quote l a ih =>
    cases b with
    | quote m b =>
      have hin : a.same b = _ := ih (.body :: place) (by rw [hpart, ha]; rfl)
        (by rw [hpart, hb]; rfl) (fun _ _ => rfl) fun d x y => by rw [sharing, hpart, hpart, ha, hb]; rfl
      rw [same_quote, block, block, Block.agreeAt, hshared, ← hin]
      rfl
    | _ => rfl
  | pair l a l' c iha ihc =>
    cases b with
    | pair m b m' d =>
      have hfirst : a.same b = _ := iha (.first :: place) (by rw [hpart, ha]; rfl)
        (by rw [hpart, hb]; rfl) (fun _ _ => rfl) fun d x y => by rw [sharing, hpart, hpart, ha, hb]; rfl
      have hsecond : c.same d = _ := ihc (.second :: place) (by rw [hpart, ha]; rfl)
        (by rw [hpart, hb]; rfl) (fun _ _ => rfl) fun d x y => by rw [sharing, hpart, hpart, ha, hb]; rfl
      rw [same_pair, block, block, Block.agreeAt, hshared, hshared, ← hfirst, ← hsecond]
      rfl
    | _ => rfl
  | _ => cases b <;> rfl

/-- Guards walk down both values at once and pass over what is one in memory. -/
theorem same_eq_walk (v w : Cell) : v.same w = Block.walk (v.sharing w) v.block w.block := by
  rw [Block.walk_eq_agreeAt]
  exact same_eq_agreeAt v w [] rfl rfl

theorem part_ofBlock (b : Block) (place : Block.Place) : (ofBlock b).part place = ofBlock (b.part place) := by
  have hchild (d : Block.Descent) (b : Block) : (ofBlock b).child d = ofBlock (b.child d) := by
    cases d <;> cases b <;> rfl
  induction place with
  | nil => rfl
  | cons d place ih => rw [part, ih, hchild, Block.part]

theorem label_ofBlock (d : Block.Descent) (b : Block) : (ofBlock b).label d = .sole := by
  cases d <;> cases b <;> rfl

/-- With nothing shared, guards compare separately built blocks. -/
theorem same_ofBlock (a b : Block) : (ofBlock a).same (ofBlock b) = a.equal b := by
  have hsharing : (ofBlock a).sharing (ofBlock b) = Block.apart := by
    funext place x y
    cases place with
    | nil => rfl
    | cons d place =>
      rw [sharing, part_ofBlock, label_ofBlock]
      rfl
  rw [same_eq_walk, hsharing, Block.walk_apart, block_ofBlock, block_ofBlock]

end Cell

/-! Faithful labels. -/

/-- What stood at each place of the value that was copied at each time. -/
abbrev Contents := Nat → Block.Place → Block

/-- The contents once a value has been copied. -/
def Contents.after (contents : Contents) (clock : Nat) (value : Block) : Contents :=
  fun time place => if time = clock then value.part place else contents time place

/-- What was copied before a time is known alike. -/
def Contents.Extends (contents' contents : Contents) (clock : Nat) : Prop :=
  ∀ time < clock, contents' time = contents time

theorem Contents.after_extends (contents : Contents) (clock : Nat) (value : Block) :
    (contents.after clock value).Extends contents clock := by
  intro time ht
  funext place
  rw [after, if_neg (Nat.ne_of_lt ht)]

/-- A label older than the clock belongs to one block. -/
def Label.Tells (contents : Contents) (clock : Nat) (l : Label) (b : Block) : Prop :=
  ∀ time place, l = .shared time place → time < clock ∧ contents time place = b

namespace Label

variable {contents : Contents} {clock : Nat} {l m : Label} {a b : Block}

theorem tells_sole : sole.Tells contents clock b := by
  rintro _ _ ⟨⟩

theorem Tells.eq_of_meets (ha : l.Tells contents clock a) (hb : m.Tells contents clock b)
    (h : l.meets m) : a = b := by
  cases l with
  | sole => cases h
  | shared time place =>
    cases m with
    | sole => cases h
    | shared time' place' =>
      simp only [meets, Bool.and_eq_true, beq_iff_eq] at h
      obtain ⟨rfl, rfl⟩ := h
      rw [← (ha _ _ rfl).2, ← (hb _ _ rfl).2]

theorem Tells.mono (h : l.Tells contents clock b) {contents' : Contents} {clock' : Nat}
    (hc : contents'.Extends contents clock) (hle : clock ≤ clock') : l.Tells contents' clock' b := by
  rintro time place rfl
  obtain ⟨hlt, he⟩ := h time place rfl
  exact ⟨Nat.lt_of_lt_of_le hlt hle, by rw [hc time hlt, he]⟩

theorem Tells.share (h : l.Tells contents clock b) {value : Block} {place : Block.Place}
    (hp : value.part place = b) :
    (l.share clock place).Tells (contents.after clock value) (clock + 1) b := by
  cases l with
  | shared time place => exact h.mono (contents.after_extends clock value) (Nat.le_succ clock)
  | sole =>
    rintro _ _ ⟨⟩
    exact ⟨by omega, by rw [Contents.after, if_pos rfl, hp]⟩

end Label

namespace Cell

/-- Every label in the cell belongs to the block behind it. -/
def Faithful (contents : Contents) (clock : Nat) : Cell → Prop
  | quote l body => l.Tells contents clock body.block ∧ body.Faithful contents clock
  | pair l a m b =>
    (l.Tells contents clock a.block ∧ a.Faithful contents clock) ∧
      m.Tells contents clock b.block ∧ b.Faithful contents clock
  | _ => True

variable {contents : Contents} {clock : Nat}

theorem block_part (c : Cell) (place : Block.Place) : (c.part place).block = c.block.part place := by
  have hchild (d : Block.Descent) (c : Cell) : (c.child d).block = c.block.child d := by
    cases d <;> cases c <;> rfl
  induction place with
  | nil => rfl
  | cons d place ih => rw [part, hchild, ih, Block.part]

theorem Faithful.child {c : Cell} (h : c.Faithful contents clock) (d : Block.Descent) :
    (c.child d).Faithful contents clock := by
  cases c with
  | quote l body =>
    cases d with
    | body => exact h.2
    | _ => trivial
  | pair l a m b =>
    cases d with
    | first => exact h.1.2
    | second => exact h.2.2
    | body => trivial
  | _ => cases d <;> trivial

theorem Faithful.part {c : Cell} (h : c.Faithful contents clock) (place : Block.Place) :
    (c.part place).Faithful contents clock := by
  induction place with
  | nil => exact h
  | cons d place ih => exact ih.child d

theorem Faithful.label {c : Cell} (h : c.Faithful contents clock) (d : Block.Descent) :
    (c.label d).Tells contents clock (c.child d).block := by
  cases c with
  | quote l body =>
    cases d with
    | body => exact h.1
    | _ => exact Label.tells_sole
  | pair l a m b =>
    cases d with
    | first => exact h.1.1
    | second => exact h.2.1
    | body => exact Label.tells_sole
  | _ => cases d <;> exact Label.tells_sole

/-- Without a NaN, sharing makes no difference to guards. -/
theorem same_eq_equal {v w : Cell} (hv : v.Faithful contents clock) (hw : w.Faithful contents clock)
    (hn : v.block.NaNFree) : v.same w = v.block.equal w.block := by
  rw [same_eq_walk]
  refine Block.walk_eq_equal_of_parts (fun place hs => ?_) hn
  cases place with
  | nil => cases hs
  | cons d place =>
    rw [← block_part, ← block_part]
    exact ((hv.part place).label d).eq_of_meets ((hw.part place).label d) hs

theorem faithful_ofBlock (b : Block) : (ofBlock b).Faithful contents clock := by
  induction b with
  | quote body ih => exact ⟨Label.tells_sole, ih⟩
  | pair a b iha ihb => exact ⟨⟨Label.tells_sole, iha⟩, Label.tells_sole, ihb⟩
  | _ => trivial

theorem faithful_before {entry rest : Cell} (he : entry.Faithful contents clock)
    (hr : rest.Faithful contents clock) : (entry.before rest).Faithful contents clock :=
  ⟨⟨Label.tells_sole, he⟩, Label.tells_sole, hr⟩

theorem faithful_of_mem_items {c x : Cell} (hc : c.Faithful contents clock) (hx : x ∈ c.items) :
    x.Faithful contents clock := by
  induction c with
  | empty => cases hx
  | pair l a m b _ ihb =>
    rcases List.mem_cons.mp hx with rfl | hx
    · exact hc.1.2
    · exact ihb hc.2.2 hx
  | _ => exact List.mem_singleton.mp hx ▸ hc

theorem faithful_foldr_before {l : List Cell} {c : Cell} (hl : ∀ x ∈ l, x.Faithful contents clock)
    (hc : c.Faithful contents clock) : (l.foldr before c).Faithful contents clock := by
  induction l with
  | nil => exact hc
  | cons x l ih =>
    obtain ⟨hx, hl⟩ := List.forall_mem_cons.mp hl
    exact faithful_before hx (ih hl)

theorem faithful_append {a b : Cell} (ha : a.Faithful contents clock) (hb : b.Faithful contents clock) :
    (a.append b).Faithful contents clock := by
  rw [append]
  split
  · exact ha
  · exact faithful_foldr_before (fun _ hx => faithful_of_mem_items ha hx) hb

theorem faithful_ofItems {l : List Cell} (hl : ∀ x ∈ l, x.Faithful contents clock) :
    (ofItems l).Faithful contents clock := by
  induction l with
  | nil => trivial
  | cons x l ih =>
    obtain ⟨hx, hl⟩ := List.forall_mem_cons.mp hl
    cases l with
    | nil => exact hx
    | cons y l => exact faithful_before hx (ih hl)

theorem faithful_of_mem_pieces {c x : Cell} (hc : c.Faithful contents clock) (hx : x ∈ c.pieces) :
    x.Faithful contents clock := by
  induction c generalizing x with
  | empty => cases hx
  | pair l a m b iha ihb =>
    rcases List.mem_append.mp hx with hx | hx
    · exact iha hc.1.2 hx
    · exact ihb hc.2.2 hx
  | quote l body ih =>
    rw [pieces] at hx
    split at hx
    · exact List.mem_singleton.mp hx ▸ hc
    · rw [List.mem_singleton.mp hx]
      exact ⟨Label.tells_sole, faithful_ofItems fun y hy => ih hc.2 hy⟩
  | _ => exact List.mem_singleton.mp hx ▸ hc

theorem faithful_compose {cells : List Cell} (h : ∀ c ∈ cells, c.Faithful contents clock) :
    (compose cells).Faithful contents clock := by
  induction cells with
  | nil => trivial
  | cons c rest ih =>
    obtain ⟨hc, hrest⟩ := List.forall_mem_cons.mp h
    have hprepend (l : List Cell) (hl : ∀ x ∈ l, x.Faithful contents clock) :
        (l.foldr prepend (compose rest)).Faithful contents clock := by
      induction l with
      | nil => exact ih hrest
      | cons x l ihl =>
        obtain ⟨hx, hl⟩ := List.forall_mem_cons.mp hl
        rw [List.foldr_cons, prepend]
        split
        · exact hx
        · exact faithful_before hx (ihl hl)
    rw [compose_cons]
    split
    · exact hc
    · exact hprepend _ fun _ hx => faithful_of_mem_pieces hc hx

theorem Faithful.mono {c : Cell} (h : c.Faithful contents clock) {contents' : Contents} {clock' : Nat}
    (hc : contents'.Extends contents clock) (hle : clock ≤ clock') : c.Faithful contents' clock' := by
  induction c with
  | quote l body ih => exact ⟨h.1.mono hc hle, ih h.2⟩
  | pair l a m b iha ihb =>
    exact ⟨⟨h.1.1.mono hc hle, iha h.1.2⟩, h.2.1.mono hc hle, ihb h.2.2⟩
  | _ => trivial

theorem Faithful.later {c : Cell} (h : c.Faithful contents clock) (value : Block) :
    c.Faithful (contents.after clock value) (clock + 1) :=
  h.mono (contents.after_extends clock value) (Nat.le_succ clock)

theorem faithful_mark {value : Block} {c : Cell} (hc : c.Faithful contents clock) {place : Block.Place}
    (hp : value.part place = c.block) :
    (c.mark clock place).Faithful (contents.after clock value) (clock + 1) := by
  have hpart (d : Block.Descent) : value.part (d :: place) = c.block.child d := congrArg (·.child d) hp
  induction c generalizing place with
  | quote l body ih =>
    have hbody : value.part (.body :: place) = body.block := hpart .body
    refine ⟨?_, ih hc.2 hbody fun d => congrArg (·.child d) hbody⟩
    rw [block_mark]
    exact hc.1.share hbody
  | pair l a m b iha ihb =>
    have ha : value.part (.first :: place) = a.block := hpart .first
    have hb : value.part (.second :: place) = b.block := hpart .second
    refine ⟨⟨?_, iha hc.1.2 ha fun d => congrArg (·.child d) ha⟩, ?_,
      ihb hc.2.2 hb fun d => congrArg (·.child d) hb⟩
    · rw [block_mark]
      exact hc.1.1.share ha
    · rw [block_mark]
      exact hc.2.1.share hb
  | _ => trivial

/-- Copying labels what it shares with the part that stood there. -/
theorem faithful_copied {v : Cell} (hv : v.Faithful contents clock) :
    (v.copied clock).Faithful (contents.after clock v.block) (clock + 1) :=
  faithful_mark hv rfl

end Cell

end BlockCalculus
