import ShaDiff.Proofs.Propagator.Invariant

/-!
# Requests

Everything that can happen to a propagator is a sequence of requests: entries of a
configuration, rule databases and calls of the host, in any order. What a request
preserves holds of every propagator that is reached.
-/

namespace ShaDiff

inductive Request
  | entry (name : String) (value : Int)
  | rules (lines : List Text.Line)
  | call (c : Call)
deriving DecidableEq

def Request.isRules : Request → Bool
  | .rules _ => true
  | _ => false

namespace Propagator

variable {ρ : Type} [Coin ρ] {rules : Prop} {p q : Propagator ρ}

/-- Serves a request. Nothing is left after an entry that is not accepted or a breach. -/
def serve? (p : Propagator ρ) : Request → Option (Propagator ρ)
  | .entry name value =>
    match p.configure name value with
    | .ok (.ok (), p) => some p
    | _ => none
  | .rules lines => some (p.readRules lines).2
  | .call c =>
    match p.answer c with
    | .ok (_, p) => some p
    | .error _ => none

def serveAll? (p : Propagator ρ) : List Request → Option (Propagator ρ)
  | [] => some p
  | r :: rs =>
    match p.serve? r with
    | some p => p.serveAll? rs
    | none => none

theorem Sound.serve? (h : p.Sound rules) {r : Request} (hr : r.isRules = true → rules)
    (hq : p.serve? r = some q) : q.Sound rules := by
  cases r with
  | entry name value =>
    dsimp only [Propagator.serve?] at hq
    split at hq
    · rename_i hc
      obtain rfl := Option.some.inj hq
      exact h.configure hc
    · cases hq
  | rules lines =>
    obtain rfl := Option.some.inj hq
    obtain rfl : rules = True := eq_true (hr rfl)
    exact h.readRules lines
  | call c =>
    dsimp only [Propagator.serve?] at hq
    split at hq
    · rename_i ha
      obtain rfl := Option.some.inj hq
      exact h.answer ha
    · cases hq

theorem Sound.serveAll? (h : p.Sound rules) {requests : List Request}
    (hr : ∀ r ∈ requests, r.isRules = true → rules) (hq : p.serveAll? requests = some q) :
    q.Sound rules := by
  induction requests generalizing p with
  | nil => exact Option.some.inj hq ▸ h
  | cons r requests ih =>
    unfold Propagator.serveAll? at hq
    split at hq
    · rename_i p' hp
      exact ih (h.serve? (hr r (.head _)) hp) (fun r' hr' => hr r' (.tail _ hr')) hq
    · cases hq

theorem sound_of_serveAll? {config : Config} (hn : config.wordSize ≤ wordSizeMax) {source : ρ}
    {requests : List Request} (hr : ∀ r ∈ requests, r.isRules = true → rules)
    (hq : (new config source).serveAll? requests = some q) : q.Sound rules :=
  (sound_new hn source).serveAll? hr hq

end Propagator

end ShaDiff
