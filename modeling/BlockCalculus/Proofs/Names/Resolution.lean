import BlockCalculus.Names.Definitions
import BlockCalculus.Proofs.Names.Substitution
import BlockCalculus.Reduction.State

/-! Names that definitions answer. The block behind a name is in normal form and
mentions no names, since those in its body have been replaced in turn. -/

namespace BlockCalculus.Definitions

variable {d : Definitions}

theorem expand_isNormal {inFlight : List String} {name : String} {b : Block}
    (h : d.expand inFlight name = .ok b) : b.isNormal := by
  rw [expand] at h
  split at h
  · cases h
  · split at h
    · cases h
    · exact Block.substitute_isNormal h

theorem names_of_expand {inFlight : List String} {name : String} {b : Block}
    (h : d.expand inFlight name = .ok b) : b.names = [] := by
  induction inFlight, name using expand.induct d generalizing b with
  | case1 inFlight name hc =>
    rw [expand, dif_pos hc] at h
    cases h
  | case2 inFlight name hc hd =>
    rw [expand, dif_neg hc] at h
    split at h
    · cases h
    · rename_i body hb
      cases hd.symm.trans hb
  | case3 inFlight name hc body hb ih =>
    rw [expand, dif_neg hc] at h
    split at h
    · cases h
    · exact Block.names_of_substitute (fun n c hn => ih n hn) h

theorem resolve_isNormal (d : Definitions) (n : String) (b : Block) (h : d.resolve n = .ok b) :
    b.isNormal :=
  expand_isNormal h

theorem names_of_resolve (d : Definitions) (n : String) (b : Block) (h : d.resolve n = .ok b) :
    b.names = [] :=
  names_of_expand h

/-- Fixed answers for names: those of the definitions, if there are any. -/
def answers : Option Definitions → String → Except ReadError Block
  | none => Host.refuse
  | some d => d.resolve

theorem answers_isNormal (lib : Option Definitions) (n : String) (b : Block)
    (h : answers lib n = .ok b) : b.isNormal := by
  cases lib with
  | none => cases h
  | some d => exact d.resolve_isNormal n b h

theorem names_of_answers (lib : Option Definitions) (n : String) (b : Block)
    (h : answers lib n = .ok b) : b.names = [] := by
  cases lib with
  | none => cases h
  | some d => exact d.names_of_resolve n b h

end BlockCalculus.Definitions
