import BlockCalculus.Block.Comparison
import BlockCalculus.Proofs.Block.Atoms
import BlockCalculus.Proofs.Block.Equality
import BlockCalculus.Proofs.Number.Value

/-! The walk down two blocks says whether they are the same tree. What is still
to be compared agrees before a turn exactly if it agrees after it, and every
turn leaves less to walk; so neither the short cuts nor the parts put off change
the verdict. -/

namespace BlockCalculus.Block

variable {shared : Place → Block → Block → Bool}

/-- What comparing two parts comes to, by recursion on the parts. -/
def agreeAt (shared : Place → Block → Block → Bool) : Place → Block → Block → Bool
  | place, quote a, quote b => shared (.body :: place) a b || agreeAt shared (.body :: place) a b
  | place, pair a c, pair b d =>
    (shared (.first :: place) a b || agreeAt shared (.first :: place) a b) &&
      (!shared (.first :: place) a b && (shallow? a b).isNone && shared (.second :: place) c d ||
        agreeAt shared (.second :: place) c d)
  | _, a, b => leafEqual a b

theorem agreeAt_of_shallow? {a b : Block} {same : Bool} (h : shallow? a b = some same)
    (place : Place) : agreeAt shared place a b = same := by
  cases a with
  | quote a => cases b <;> simp_all [shallow?, agreeAt]
  | pair a c => cases b <;> simp_all [shallow?, agreeAt]
  | _ => simpa [shallow?, agreeAt] using h

namespace Walk

/-- All that is still to be compared agrees. -/
def agree (shared : Place → Block → Block → Bool) (w : Walk) : Bool :=
  (w.current :: w.postponed).all fun parts => agreeAt shared parts.place parts.left parts.right

def Turn.agree (shared : Place → Block → Block → Bool) : Turn → Bool
  | .verdict same => same
  | .onward next => next.agree shared

theorem settle_agree {current : Parts} {same : Bool} (postponed : List Parts)
    (h : agreeAt shared current.place current.left current.right = same) :
    (settle same postponed).agree shared = (Walk.mk current postponed).agree shared := by
  cases same with
  | false => simp [settle, Turn.agree, agree, h]
  | true => cases postponed <;> simp [settle, Turn.agree, agree, h]

theorem turn_agree (w : Walk) : (w.turn shared).agree shared = w.agree shared := by
  -- One case for each way a turn can go, the short cuts before the descents.
  fun_cases turn shared w with
  | case1 place a b postponed hs =>
    apply settle_agree
    simp [agreeAt, hs]
  | case2 place a b postponed hs =>
    simp [Turn.agree, agree, agreeAt, hs]
  | case3 place a c b d postponed hs =>
    simp [Turn.agree, agree, agreeAt, hs]
  | case4 place a c b d postponed hs hl =>
    simp [Turn.agree, agree, agreeAt, agreeAt_of_shallow? hl, hs, hl]
  | case5 place a c b d postponed hs hl =>
    simp [Turn.agree, agree, agreeAt, agreeAt_of_shallow? hl, hs]
  | case6 place a c b d postponed hs hl =>
    by_cases ht : shared (.second :: place) c d
    · simp [Turn.agree, agree, agreeAt, hs, hl, ht]
    · simp [Turn.agree, agree, agreeAt, hs, hl, ht, Bool.and_assoc]
  | case7 place a b postponed hq hp =>
    apply settle_agree
    rw [agreeAt]
    · exact hq
    · exact hp

theorem run_of_verdict {w : Walk} {same : Bool} (h : w.turn shared = .verdict same) :
    w.run shared = same := by
  rw [run, h]

theorem run_of_onward {w next : Walk} (h : w.turn shared = .onward next) :
    w.run shared = next.run shared := by
  rw [run, h]

theorem run_eq_agree (w : Walk) : w.run shared = w.agree shared := by
  induction w using run.induct shared with
  | case1 w same h =>
    rw [run_of_verdict h, ← turn_agree, h, Turn.agree]
  | case2 w next h ih =>
    rw [run_of_onward h, ih, ← turn_agree w, h, Turn.agree]

/-- The walk comes to its verdict in this many turns. -/
inductive Ends (shared : Place → Block → Block → Bool) : Walk → Nat → Bool → Prop
  | verdict {w : Walk} {same : Bool} (h : w.turn shared = .verdict same) : Ends shared w 1 same
  | onward {w next : Walk} {turns : Nat} {same : Bool} (h : w.turn shared = .onward next)
      (hnext : Ends shared next turns same) : Ends shared w (turns + 1) same

theorem ends_run (w : Walk) : ∃ turns ≤ w.remaining, Ends shared w turns (w.run shared) := by
  induction w using run.induct shared with
  | case1 w same h =>
    have hpos := w.current.left.nodes_pos
    refine ⟨1, ?_, ?_⟩
    · simp only [remaining, List.foldr_cons]
      omega
    · rw [run_of_verdict h]
      exact .verdict h
  | case2 w next h ih =>
    obtain ⟨turns, hle, hends⟩ := ih
    have hlt := turn_lt h
    refine ⟨turns + 1, by omega, ?_⟩
    rw [run_of_onward h]
    exact .onward h hends

end Walk

theorem walk_eq_agreeAt (a b : Block) : walk shared a b = agreeAt shared [] a b := by
  rw [walk, Walk.run_eq_agree]
  simp [Walk.agree]

theorem walk_eq_equalUpTo (shared : Block → Block → Bool) (a b : Block) :
    walk (fun _ => shared) a b = equalUpTo shared a b := by
  rw [walk_eq_agreeAt]
  -- The place grows on the way down, so the induction is over every place.
  generalize [] = place
  induction a generalizing b place with
  | quote a ih =>
    cases b with
    | quote b => rw [agreeAt, equalUpTo, ih]
    | _ => rfl
  | pair a c iha ihc =>
    cases b with
    | pair b d =>
      have hkind : (shallow? a b).isNone = equalUpTo.sameCompound a b := by
        cases a <;> cases b <;> rfl
      rw [agreeAt, equalUpTo, iha, ihc, hkind]
    | _ => rfl
  | _ => cases b <;> rfl

/-- No two parts are one and the same in memory. -/
def apart (_ : Place) (_ _ : Block) : Bool :=
  false

theorem walk_apart (a b : Block) : walk apart a b = a.equal b :=
  walk_eq_equalUpTo (fun _ _ => false) a b

/-- Only identical parts are shared. -/
def Sound (shared : Place → Block → Block → Bool) : Prop :=
  ∀ place a b, shared place a b → a = b

/-- No literal at any depth is a NaN. -/
def NaNFree (b : Block) : Prop :=
  ∀ x, num x ∈ b.atoms → ¬x.isNaN

theorem naNFree_num {x : Binary64} : (num x).NaNFree ↔ ¬x.isNaN := by
  simp [NaNFree, atoms]

theorem naNFree_pair {a b : Block} : (pair a b).NaNFree ↔ a.NaNFree ∧ b.NaNFree := by
  simp only [NaNFree, atoms, List.mem_append]
  grind

/-- The same constructors all the way down with the same operators, addresses
and names, and literals that stand for the same number. -/
inductive SameTree : Block → Block → Prop
  | empty : SameTree empty empty
  | prim (p : Primitive) : SameTree (prim p) (prim p)
  | quote {a b : Block} (h : SameTree a b) : SameTree (quote a) (quote b)
  | pair {a b c d : Block} (hfirst : SameTree a b) (hsecond : SameTree c d) :
      SameTree (pair a c) (pair b d)
  | link (target : Address) : SameTree (link target) (link target)
  | num {x y : Binary64} {v : Binary64.Value} (hx : x.value? = some v) (hy : y.value? = some v) :
      SameTree (num x) (num y)
  | var (name : String) : SameTree (var name) (var name)

namespace SameTree

theorem refl {a : Block} (ha : a.NaNFree) : SameTree a a := by
  induction a with
  | empty => exact .empty
  | prim p => exact .prim p
  | quote a ih => exact .quote (ih ha)
  | pair a c iha ihc =>
    obtain ⟨ha, hc⟩ := naNFree_pair.mp ha
    exact .pair (iha ha) (ihc hc)
  | link target => exact .link target
  | num x =>
    rw [naNFree_num, ← Binary64.value?_eq_none_iff] at ha
    obtain ⟨v, hv⟩ := Option.ne_none_iff_exists'.mp ha
    exact .num hv hv
  | var name => exact .var name

theorem symm {a b : Block} (h : SameTree a b) : SameTree b a := by
  induction h with
  | empty => exact .empty
  | prim p => exact .prim p
  | quote _ ih => exact .quote ih
  | pair _ _ ihfirst ihsecond => exact .pair ihfirst ihsecond
  | link target => exact .link target
  | num hx hy => exact .num hy hx
  | var name => exact .var name

theorem trans {a b c : Block} (h : SameTree a b) (h' : SameTree b c) : SameTree a c := by
  induction h generalizing c with
  | quote _ ih =>
    cases h' with
    | quote h' => exact .quote (ih h')
  | pair _ _ ihfirst ihsecond =>
    cases h' with
    | pair hfirst hsecond => exact .pair (ihfirst hfirst) (ihsecond hsecond)
  | num hx hy =>
    cases h' with
    | num hy' hz =>
      cases hy.symm.trans hy'
      exact .num hx hz
  | _ => exact h'

theorem naNFree {a b : Block} (h : SameTree a b) : a.NaNFree := by
  induction h with
  | quote _ ih => exact ih
  | pair _ _ ihfirst ihsecond => exact naNFree_pair.mpr ⟨ihfirst, ihsecond⟩
  | num hx hy =>
    rw [naNFree_num, ← Binary64.value?_eq_none_iff, hx]
    exact Option.some_ne_none _
  | _ => simp [NaNFree, atoms]

end SameTree

theorem sameTree_of_equal {a b : Block} (h : a.equal b) : SameTree a b := by
  unfold equal at h
  fun_induction equalUpTo (fun _ _ => false) a b with
  | case1 => exact .empty
  | case2 p q =>
    cases eq_of_beq h
    exact .prim p
  | case3 s t =>
    cases eq_of_beq h
    exact .link s
  | case4 x y =>
    obtain ⟨v, hx, hy⟩ := Binary64.sameValue_iff.mp h
    exact .num hx hy
  | case5 m n =>
    cases eq_of_beq h
    exact .var m
  | case6 a b ih => exact .quote (ih h)
  | case7 a c b d ih ih' =>
    simp only [Bool.and_false, Bool.false_or, Bool.and_eq_true] at h
    exact .pair (ih h.1) (ih' h.2)
  | case8 => cases h

theorem SameTree.equal {a b : Block} (h : SameTree a b) : a.equal b := by
  unfold Block.equal
  induction h with
  | empty => rfl
  | prim p => exact beq_self_eq_true p
  | quote _ ih => exact ih
  | pair _ _ ihfirst ihsecond =>
    simp only [equalUpTo, ihfirst, ihsecond, Bool.or_true, Bool.and_true]
  | link target => exact beq_self_eq_true target
  | num hx hy => exact Binary64.sameValue_iff.mpr ⟨_, hx, hy⟩
  | var name => exact beq_self_eq_true name

theorem equal_iff_sameTree {a b : Block} : a.equal b ↔ SameTree a b :=
  ⟨sameTree_of_equal, SameTree.equal⟩

theorem equal_self {a : Block} (ha : a.NaNFree) : a.equal a :=
  (SameTree.refl ha).equal

/-- The part that a step leads to. -/
def child : Descent → Block → Block
  | .body, quote body => body
  | .first, pair a _ => a
  | .second, pair _ b => b
  | _, _ => empty

/-- The part at a place. -/
def part : Place → Block → Block
  | [], b => b
  | d :: place, b => (b.part place).child d

/-- Sharing makes no difference, as long as there is no NaN and parts that are
passed over are identical. -/
theorem agreeAt_eq_equal {v w : Block}
    (hs : ∀ place, shared place (v.part place) (w.part place) → v.part place = w.part place)
    {a b : Block} {place : Place} (hv : v.part place = a) (hw : w.part place = b) (ha : a.NaNFree) :
    agreeAt shared place a b = a.equal b := by
  -- A short cut passes over a block and itself, which are equal without a NaN.
  unfold equal
  induction a generalizing b place with
  | quote a ih =>
    cases b with
    | quote b =>
      have hva : v.part (.body :: place) = a := congrArg (child .body) hv
      have hwb : w.part (.body :: place) = b := congrArg (child .body) hw
      have hab : shared (.body :: place) a b → a = b := by simpa only [hva, hwb] using hs (.body :: place)
      rw [agreeAt, ih hva hwb ha, equalUpTo]
      by_cases h : shared (.body :: place) a b
      · cases hab h
        simp only [h, Bool.true_or, Bool.false_or]
        exact (equal_self ha).symm
      · simp [h]
    | _ => rfl
  | pair a c iha ihc =>
    obtain ⟨ha, hc⟩ := naNFree_pair.mp ha
    cases b with
    | pair b d =>
      have hva : v.part (.first :: place) = a := congrArg (child .first) hv
      have hwb : w.part (.first :: place) = b := congrArg (child .first) hw
      have hvc : v.part (.second :: place) = c := congrArg (child .second) hv
      have hwd : w.part (.second :: place) = d := congrArg (child .second) hw
      have hab : shared (.first :: place) a b → a.equal b := fun h => by
        have he : a = b := by simpa only [hva, hwb, h, true_imp_iff] using hs (.first :: place)
        exact he ▸ equal_self ha
      have hcd : shared (.second :: place) c d → c.equal d := fun h => by
        have he : c = d := by simpa only [hvc, hwd, h, true_imp_iff] using hs (.second :: place)
        exact he ▸ equal_self hc
      rw [agreeAt, iha hva hwb ha, ihc hvc hwd hc, equalUpTo]
      unfold equal at hab hcd
      grind
    | _ => rfl
  | _ => cases b <;> rfl

theorem walk_eq_equal_of_parts {a b : Block}
    (hs : ∀ place, shared place (a.part place) (b.part place) → a.part place = b.part place)
    (ha : a.NaNFree) : walk shared a b = a.equal b := by
  rw [walk_eq_agreeAt]
  exact agreeAt_eq_equal hs rfl rfl ha

theorem walk_eq_equal (hs : Sound shared) {a : Block} (ha : a.NaNFree) (b : Block) :
    walk shared a b = a.equal b :=
  walk_eq_equal_of_parts (fun place => hs place _ _) ha

/-- Whatever is shared, the walk ends, and on blocks without a NaN it says whether
they are the same tree, which is an equivalence. With nothing shared, a block
with a NaN is unequal to every block. -/
theorem walk_structural :
    (∀ shared a b, ∃ turns ≤ a.nodes,
      Walk.Ends shared ⟨⟨[], a, b⟩, []⟩ turns (walk shared a b)) ∧
    (∀ shared, Sound shared → ∀ a b : Block, a.NaNFree → b.NaNFree →
      (walk shared a b ↔ SameTree a b)) ∧
    (∀ shared, Sound shared → ∀ a : Block, a.NaNFree → walk shared a a) ∧
    (∀ shared shared', Sound shared → Sound shared' → ∀ a b : Block, a.NaNFree → b.NaNFree →
      walk shared a b → walk shared' b a) ∧
    (∀ shared shared' shared'', Sound shared → Sound shared' → Sound shared'' →
      ∀ a b c : Block, a.NaNFree → b.NaNFree → c.NaNFree →
        walk shared a b → walk shared' b c → walk shared'' a c) ∧
    (∀ a b : Block, ¬a.NaNFree → walk apart a b = false ∧ walk apart b a = false) ∧
    (∀ a b, walk apart a b = a.equal b) ∧
    ∀ (shared : Block → Block → Bool) (a b : Block),
      walk (fun _ => shared) a b = equalUpTo shared a b := by
  refine ⟨fun shared a b => ?_, fun shared hs a b ha hb => ?_, fun shared hs a ha => ?_,
    fun shared shared' hs hs' a b ha hb h => ?_,
    fun shared shared' shared'' hs hs' hs'' a b c ha hb hc hab hbc => ?_, fun a b ha => ?_,
    walk_apart, walk_eq_equalUpTo⟩
  · exact Walk.ends_run ⟨⟨[], a, b⟩, []⟩
  · rw [walk_eq_equal hs ha, equal_iff_sameTree]
  · rw [walk_eq_equal hs ha]
    exact equal_self ha
  · rw [walk_eq_equal hs ha, equal_iff_sameTree] at h
    rw [walk_eq_equal hs' hb, equal_iff_sameTree]
    exact h.symm
  · rw [walk_eq_equal hs ha, equal_iff_sameTree] at hab
    rw [walk_eq_equal hs' hb, equal_iff_sameTree] at hbc
    rw [walk_eq_equal hs'' ha, equal_iff_sameTree]
    exact hab.trans hbc
  · have hab : ¬a.equal b := fun h => ha (sameTree_of_equal h).naNFree
    rw [walk_apart, walk_apart, equal_comm b a]
    simpa using hab

end BlockCalculus.Block
