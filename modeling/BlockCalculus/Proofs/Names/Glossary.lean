import BlockCalculus.Proofs.Names.Substitution
import Mathlib.Logic.Relation

/-! Expansion of names by the bodies behind them. It succeeds exactly if all that a
name leads to has a body and nothing on the way leads back to itself. -/

namespace BlockCalculus

/-- A body for each name, or why there is none. The room that is left when some names
are under expansion bounds how many more can be. -/
structure Glossary where
  body : String → Except ReadError Block
  room : List String → Nat
  room_lt : ∀ {inFlight n b}, n ∉ inFlight → body n = .ok b → room (n :: inFlight) < room inFlight

namespace Glossary

def expand (g : Glossary) (inFlight : List String) (n : String) : Except ReadError Block :=
  if _ : n ∈ inFlight then .error (.cycle n)
  else
    match _ : g.body n with
    | .error e => .error e
    | .ok b => b.substitute (g.expand (n :: inFlight))
termination_by g.room inFlight
decreasing_by exact g.room_lt (by assumption) (by assumption)

def Mentions (g : Glossary) (n m : String) : Prop :=
  ∃ b, g.body n = .ok b ∧ m ∈ b.names

/-- What the first name stands for needs the second one, at once or in the end. -/
abbrev LeadsTo (g : Glossary) : String → String → Prop :=
  Relation.ReflTransGen g.Mentions

abbrev Circular (g : Glossary) (n : String) : Prop :=
  Relation.TransGen g.Mentions n n

variable {g : Glossary} {inFlight : List String} {n : String}

theorem expand_of_mem (hn : n ∈ inFlight) : g.expand inFlight n = .error (.cycle n) := by
  rw [expand, dif_pos hn]

theorem expand_of_error {e : ReadError} (hn : n ∉ inFlight) (hb : g.body n = .error e) :
    g.expand inFlight n = .error e := by
  rw [expand, dif_neg hn]
  split <;> simp_all

theorem expand_of_body {b : Block} (hn : n ∉ inFlight) (hb : g.body n = .ok b) :
    g.expand inFlight n = b.substitute (g.expand (n :: inFlight)) := by
  rw [expand, dif_neg hn]
  split <;> simp_all

theorem expand_ok_inv {c : Block} (h : g.expand inFlight n = .ok c) :
    n ∉ inFlight ∧ ∃ b, g.body n = .ok b ∧ b.substitute (g.expand (n :: inFlight)) = .ok c := by
  by_cases hn : n ∈ inFlight
  · rw [expand_of_mem hn] at h
    cases h
  · cases hb : g.body n with
    | error e =>
      rw [expand_of_error hn hb] at h
      cases h
    | ok b =>
      rw [expand_of_body hn hb] at h
      exact ⟨hn, b, rfl, h⟩

/-- A name that can be expanded leads to names with bodies that are not under expansion
and do not lead back to themselves. -/
theorem leads_of_expand {c : Block} (h : g.expand inFlight n = .ok c) {m : String}
    (hm : g.LeadsTo n m) : (∃ b, g.body m = .ok b) ∧ m ∉ inFlight ∧ ¬ g.Circular m := by
  induction inFlight, n using expand.induct g generalizing c m with
  | case1 inFlight n hn =>
    rw [expand_of_mem hn] at h
    cases h
  | case2 inFlight n hn e hb =>
    rw [expand_of_error hn hb] at h
    cases h
  | case3 inFlight n hn b hb ih =>
    rw [expand_of_body hn hb] at h
    have hin := (Block.substitute_eq_ok_iff.mp h).1
    have hstep : ∀ k m, g.Mentions n k → g.LeadsTo k m →
        (∃ b, g.body m = .ok b) ∧ m ∉ n :: inFlight ∧ ¬ g.Circular m := by
      intro k m hk hkm
      obtain ⟨b', hb', hkb⟩ := hk
      obtain rfl : b' = b := Except.ok.inj (hb'.symm.trans hb)
      obtain ⟨c', hc'⟩ := hin k hkb
      exact ih k hc' hkm
    rcases Relation.ReflTransGen.cases_head hm with rfl | ⟨k, hk, hkm⟩
    · refine ⟨⟨b, hb⟩, hn, fun hcirc => ?_⟩
      obtain ⟨k, hk, hkn⟩ := Relation.TransGen.head'_iff.mp hcirc
      exact (hstep k n hk hkn).2.1 List.mem_cons_self
    · obtain ⟨hd, hf, hc⟩ := hstep k m hk hkm
      exact ⟨hd, fun hmem => hf (List.mem_cons_of_mem _ hmem), hc⟩

theorem expand_of_leads
    (h : ∀ m, g.LeadsTo n m → (∃ b, g.body m = .ok b) ∧ m ∉ inFlight ∧ ¬ g.Circular m) :
    ∃ c, g.expand inFlight n = .ok c := by
  induction inFlight, n using expand.induct g with
  | case1 inFlight n hn => exact ((h n .refl).2.1 hn).elim
  | case2 inFlight n hn e hb =>
    obtain ⟨b, hb'⟩ := (h n .refl).1
    cases hb.symm.trans hb'
  | case3 inFlight n hn b hb ih =>
    have hin : ∀ k ∈ b.names, ∃ c, g.expand (n :: inFlight) k = .ok c := by
      intro k hk
      have hm : g.Mentions n k := ⟨b, hb, hk⟩
      refine ih k fun m hkm => ?_
      obtain ⟨hd, hf, hc⟩ := h m (Relation.ReflTransGen.head hm hkm)
      refine ⟨hd, fun hmem => ?_, hc⟩
      rcases List.mem_cons.mp hmem with rfl | hmem
      · exact hc (Relation.TransGen.head'_iff.mpr ⟨k, hm, hkm⟩)
      · exact hf hmem
    exact ⟨_, (expand_of_body hn hb).trans (Block.substitute_eq_ok_iff.mpr ⟨hin, rfl⟩)⟩

/-- Which names are under expansion decides whether there is an answer, but not which. -/
theorem expand_unique {inFlight' : List String} {c c' : Block} (h : g.expand inFlight n = .ok c)
    (h' : g.expand inFlight' n = .ok c') : c = c' := by
  induction inFlight, n using expand.induct g generalizing inFlight' c c' with
  | case1 inFlight n hn =>
    rw [expand_of_mem hn] at h
    cases h
  | case2 inFlight n hn e hb =>
    rw [expand_of_error hn hb] at h
    cases h
  | case3 inFlight n hn b hb ih =>
    rw [expand_of_body hn hb] at h
    obtain ⟨-, b', hb', h'⟩ := expand_ok_inv h'
    obtain rfl : b = b' := Except.ok.inj (hb.symm.trans hb')
    obtain ⟨hin, rfl⟩ := Block.substitute_eq_ok_iff.mp h
    obtain ⟨hin', rfl⟩ := Block.substitute_eq_ok_iff.mp h'
    unfold Block.filled
    congr 1
    refine Block.fill_congr fun k hk => ?_
    obtain ⟨x, hx⟩ := hin k hk
    obtain ⟨x', hx'⟩ := hin' k hk
    rw [hx, hx', ih k hx hx']

theorem resolve_of_expand {c : Block} (h : g.expand inFlight n = .ok c) : g.expand [] n = .ok c := by
  obtain ⟨c', hc'⟩ : ∃ c', g.expand [] n = .ok c' := expand_of_leads fun m hm => by
    obtain ⟨hd, -, hc⟩ := leads_of_expand h hm
    exact ⟨hd, List.not_mem_nil, hc⟩
  rw [hc', expand_unique hc' h]

/-- A name that can be resolved can also be expanded on behalf of names that need it. -/
theorem expand_of_resolve {c : Block} (h : g.expand [] n = .ok c)
    (hs : ∀ a ∈ inFlight, Relation.TransGen g.Mentions a n) : g.expand inFlight n = .ok c := by
  obtain ⟨c', hc'⟩ : ∃ c', g.expand inFlight n = .ok c' := expand_of_leads fun m hm => by
    obtain ⟨hd, -, hc⟩ := leads_of_expand h hm
    exact ⟨hd, fun hmem => hc ((hs m hmem).trans_left hm), hc⟩
  rw [hc', expand_unique hc' h]

/-- A failure names a name that leads back to itself, or is that of a name without a body. -/
theorem expand_error {e : ReadError} (hs : ∀ a ∈ inFlight, Relation.TransGen g.Mentions a n)
    (h : g.expand inFlight n = .error e) :
    (∃ m, e = .cycle m ∧ g.LeadsTo n m ∧ g.Circular m) ∨
      ∃ m, g.LeadsTo n m ∧ g.body m = .error e := by
  induction inFlight, n using expand.induct g with
  | case1 inFlight n hn =>
    rw [expand_of_mem hn] at h
    exact .inl ⟨n, (Except.error.inj h).symm, .refl, hs n hn⟩
  | case2 inFlight n hn e' hb =>
    rw [expand_of_error hn hb] at h
    exact .inr ⟨n, .refl, hb.trans h⟩
  | case3 inFlight n hn b hb ih =>
    rw [expand_of_body hn hb] at h
    obtain ⟨k, hk, he⟩ := Block.substitute_error h
    have hm : g.Mentions n k := ⟨b, hb, hk⟩
    have hs' : ∀ a ∈ n :: inFlight, Relation.TransGen g.Mentions a k := by
      intro a ha
      rcases List.mem_cons.mp ha with rfl | ha
      · exact .single hm
      · exact (hs a ha).tail hm
    rcases ih k hs' he with ⟨m, rfl, hkm, hc⟩ | ⟨m, hkm, hb'⟩
    · exact .inl ⟨m, rfl, .head hm hkm, hc⟩
    · exact .inr ⟨m, .head hm hkm, hb'⟩

end Glossary

end BlockCalculus
