import ShaDiff.Equation

/-!
# Clauses and equations under a valuation

A valuation gives every atom a value, unlike the partial one a host makes. An
equation reads the difference of an atom as the value of the atom, so one
valuation says both whether an antecedent is false and whether the equation
holds. An equation is valid under a valuation if it holds there or its antecedent
is not false: then it may be used wherever the antecedent is.
-/

namespace ShaDiff

def Literal.Holds (l : Literal) (v : Atom → Bool) : Prop := v l.atom = l.polarity

def Clause.Holds (c : Clause) (v : Atom → Bool) : Prop := ∃ l ∈ c, l.Holds v

theorem Literal.holds_negate {l : Literal} {v : Atom → Bool} :
    l.negate.Holds v ↔ ¬ l.Holds v := by
  simp only [Holds, negate]
  cases v l.atom <;> cases l.polarity <;> decide

theorem Clause.holds_cons {l : Literal} {c : Clause} {v : Atom → Bool} :
    Clause.Holds (l :: c) v ↔ l.Holds v ∨ c.Holds v := by
  simp [Clause.Holds]

theorem Clause.not_holds {c : Clause} {v : Atom → Bool} :
    ¬ c.Holds v ↔ ∀ l ∈ c, ¬ l.Holds v := by
  simp [Clause.Holds]

namespace Equation

/-- Whether the differences of the two atoms sum to the value. -/
def Holds (e : Equation) (v : Atom → Bool) : Prop := (v e.a ^^ v e.b) = e.value

def Valid (e : Equation) (v : Atom → Bool) : Prop :=
  (∀ l ∈ e.antecedent, ¬ l.Holds v) → e.Holds v

theorem holds_between {a b : Atom} {value : Bool} {c : Clause} {v : Atom → Bool} :
    (between a b value c).Holds v ↔ (v a ^^ v b) = value := by
  unfold between Holds
  split
  · exact Iff.rfl
  · simp only [Bool.xor_comm]

theorem antecedent_between {a b : Atom} {value : Bool} {c : Clause} :
    (between a b value c).antecedent = c := by
  unfold between
  split <;> rfl

end Equation

namespace TwoBit

def Solves (v : Atom → Bool) (es : List Equation) : Prop := ∀ e ∈ es, e.Holds v

/-- Whether the equations have a solution over GF(2), antecedents aside. -/
def Consistent (es : List Equation) : Prop := ∃ v, Solves v es

theorem solves_cons {v : Atom → Bool} {e : Equation} {es : List Equation} :
    Solves v (e :: es) ↔ e.Holds v ∧ Solves v es := by
  simp [Solves]

theorem Consistent.subset {es fs : List Equation} (h : Consistent es) (hsub : fs ⊆ es) :
    Consistent fs := by
  obtain ⟨v, hv⟩ := h
  exact ⟨v, fun f hf => hv f (hsub hf)⟩

end TwoBit

namespace Equation

theorem mem_blockingClause {l : Literal} {es : List Equation} :
    l ∈ blockingClause es ↔ ∃ e ∈ es, l ∈ e.antecedent := by
  simp [blockingClause, Clause.mem_ofList]

/-- Valid equations without a common solution cannot all be live. -/
theorem blockingClause_holds {es : List Equation} {v : Atom → Bool}
    (hc : ¬ TwoBit.Consistent es) (hv : ∀ e ∈ es, e.Valid v) : (blockingClause es).Holds v := by
  refine Classical.byContradiction fun h => hc ⟨v, fun e he => hv e he fun l hl => ?_⟩
  exact Clause.not_holds.mp h l (mem_blockingClause.mpr ⟨e, he, hl⟩)

end Equation

end ShaDiff
