import ShaDiff.Propagator.Callbacks

/-!
# Dialogues

A dialogue is a sequence of calls the host makes of a propagator, in any order,
with the answers to them. Statements about all that can happen to a propagator
are statements about dialogues.
-/

namespace ShaDiff

inductive Call
  | assign (l : Literal) (isFixed : Bool)
  | openLevel
  | backtrack (level : Nat)
  | model (ls : List Literal)
  | decide
  | propagate
  | reason (l : Literal)
  | hasClause
  | clause
deriving DecidableEq

inductive Answer
  /-- A notification was taken. -/
  | noted
  | verdict (b : Bool)
  /-- The literal asked for, if there is one. -/
  | literal (l : Option Literal)
deriving DecidableEq

namespace Propagator

variable {ρ : Type} [Coin ρ]

def answer (p : Propagator ρ) : Call → Except Breach (Answer × Propagator ρ)
  | .assign l isFixed => .ok (.noted, p.assign l isFixed)
  | .openLevel => .ok (.noted, p.openLevel)
  | .backtrack level => .ok (.noted, p.backtrack level)
  | .model ls => .ok (.verdict (p.acceptsModel ls), p)
  | .decide => let (l, p) := p.decide; .ok (.literal l, p)
  | .propagate => let (l, p) := p.propagate; .ok (.literal l, p)
  | .reason l => (p.reason l).map fun (k, p) => (.literal k, p)
  | .hasClause => let (b, p) := p.hasClause; .ok (.verdict b, p)
  | .clause => let (l, p) := p.clause; .ok (.literal l, p)

theorem reason_of_answer {p q : Propagator ρ} {l : Literal} {a : Answer}
    (h : p.answer (.reason l) = .ok (a, q)) : ∃ k, p.reason l = .ok (k, q) ∧ a = .literal k := by
  simp only [answer] at h
  cases hr : p.reason l with
  | error breach =>
    rw [hr] at h
    cases h
  | ok given =>
    rw [hr] at h
    obtain ⟨rfl, rfl⟩ := Prod.mk.inj (Except.ok.inj h)
    exact ⟨given.1, rfl, rfl⟩

def converse (p : Propagator ρ) : List Call → Except Breach (List Answer × Propagator ρ)
  | [] => .ok ([], p)
  | c :: cs => do
    let (a, p) ← p.answer c
    let (rest, p) ← p.converse cs
    return (a :: rest, p)

theorem converse_append (p : Propagator ρ) (cs ds : List Call) :
    p.converse (cs ++ ds) = (do
      let (as, q) ← p.converse cs
      let (bs, q) ← q.converse ds
      return (as ++ bs, q)) := by
  induction cs generalizing p with
  | nil =>
    simp only [List.nil_append, converse, bind, Except.bind]
    cases p.converse ds <;> rfl
  | cons c cs ih =>
    simp only [List.cons_append, converse]
    cases p.answer c with
    | error b => rfl
    | ok r =>
      simp only [bind, Except.bind, ih r.2]
      cases r.2.converse cs with
      | error b => rfl
      | ok s =>
        simp only [pure, Except.pure]
        cases s.2.converse ds <;> rfl

end Propagator

end ShaDiff
