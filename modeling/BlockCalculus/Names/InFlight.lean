/-! The measure behind expansion of names: each name that is being expanded
leaves fewer entries to expand. -/

namespace BlockCalculus

variable {α : Type}

theorem mem_of_lookup {κ : Type} [BEq κ] [LawfulBEq κ] {entries : List (κ × α)} {key : κ} {a : α}
    (h : entries.lookup key = some a) : (key, a) ∈ entries := by
  obtain ⟨l₁, l₂, rfl, -⟩ := List.lookup_eq_some_iff.mp h
  exact List.mem_append_right l₁ List.mem_cons_self

/-- The number of entries whose names are not being expanded. -/
def remaining (entries : List (String × α)) (inFlight : List String) : Nat :=
  (entries.filter fun e => e.1 ∉ inFlight).length

theorem remaining_append (l₁ l₂ : List (String × α)) (inFlight : List String) :
    remaining (l₁ ++ l₂) inFlight = remaining l₁ inFlight + remaining l₂ inFlight := by
  simp [remaining]

theorem remaining_anti (entries : List (String × α)) {s t : List String} (h : s ⊆ t) :
    remaining entries t ≤ remaining entries s := by
  unfold remaining
  rw [← List.countP_eq_length_filter, ← List.countP_eq_length_filter]
  apply List.countP_mono_left
  intro e _ he
  simp only [decide_eq_true_eq] at he ⊢
  exact fun hmem => he (h hmem)

theorem remaining_cons_lt {entries : List (String × α)} {name : String} {a : α}
    {inFlight : List String} (h : entries.lookup name = some a) (hn : name ∉ inFlight) :
    remaining entries (name :: inFlight) < remaining entries inFlight := by
  obtain ⟨l₁, l₂, hl, -⟩ := List.lookup_eq_some_iff.mp h
  have h₁ := remaining_anti l₁ (List.subset_cons_self name inFlight)
  have h₂ := remaining_anti l₂ (List.subset_cons_self name inFlight)
  have hc : remaining [(name, a)] (name :: inFlight) = 0 := by simp [remaining]
  have hd : remaining [(name, a)] inFlight = 1 := by simp [remaining, hn]
  rw [hl, ← List.singleton_append (l := l₂)]
  simp only [remaining_append]
  omega

end BlockCalculus
