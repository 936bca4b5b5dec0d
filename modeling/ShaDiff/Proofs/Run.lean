import Mathlib.Data.List.Induction
import ShaDiff.Proofs.Propagator.Frame
import ShaDiff.Proofs.Request

/-!
# Runs of a host

A propagator is prepared by entries of a configuration, not all of which need be accepted,
and by rule databases. Nothing is assigned then, as long as the host makes no call. From
there a host runs it: in turn it calls, and it may read more rules. A host that keeps its
word notifies a literal only while its atom has no value, or once more, as fixed, when the
literal is true.
-/

namespace ShaDiff

def Request.isCall : Request → Bool
  | .call _ => true
  | _ => false

def Request.isNotice : Request → Bool
  | .call c => !c.isQuestion
  | _ => false

namespace Propagator

variable {ρ : Type} {config : Config} {source : ρ} {p q r : Propagator ρ}

-- ---------------------------------------------------------------------------
-- Before the host calls
-- ---------------------------------------------------------------------------

/-- The propagators that the host has not called yet. -/
inductive Prepared (config : Config) (source : ρ) : Propagator ρ → Prop
  | fresh : Prepared config source (new config source)
  | configure {p q : Propagator ρ} {name : String} {value : Int} {result : Except Fault Unit} :
      Prepared config source p → p.configure name value = .ok (result, q) →
      Prepared config source q
  | rules {p : Propagator ρ} (lines : List Text.Line) : Prepared config source p →
      Prepared config source (p.readRules lines).2

theorem Prepared.exists_eq (h : Prepared config source p) : ∃ t : Topology, t.Tracks ∧
    ∃ columnCache, p = { new config source with topology := t, columnCache } := by
  induction h with
  | fresh => exact ⟨_, (Topology.sane_initial config.encoding config.wordSize).tracks, _, rfl⟩
  | configure _ hc ih =>
    obtain ⟨t, htracks, columnCache, rfl⟩ := ih
    simp only [Propagator.configure, bind, Except.bind] at hc
    split at hc
    · cases hc
    · next entered henter =>
      simp only [pure, Except.pure, Except.ok.injEq, Prod.mk.injEq] at hc
      obtain ⟨-, rfl⟩ := hc
      refine ⟨entered.2, htracks.enter henter, columnCache, ?_⟩
      have hvaluation : (new config source).valuation = .empty := rfl
      simp only [hvaluation, ite_self]
  | rules lines _ ih =>
    obtain ⟨t, htracks, columnCache, rfl⟩ := ih
    exact ⟨t, htracks, _, rfl⟩

theorem Prepared.of_serveAll? [Coin ρ] (h : Prepared config source p) {requests : List Request}
    (hcalls : ∀ r ∈ requests, r.isCall = false) (hq : p.serveAll? requests = some q) :
    Prepared config source q := by
  induction requests generalizing p with
  | nil => exact Option.some.inj hq ▸ h
  | cons r requests ih =>
    obtain ⟨hr, hlater⟩ := List.forall_mem_cons.mp hcalls
    unfold Propagator.serveAll? at hq
    cases r with
    | entry name value =>
      simp only [Propagator.serve?] at hq
      split at hq
      · next hserved =>
        split at hserved
        · next hc =>
          obtain rfl := Option.some.inj hserved
          exact ih (h.configure hc) hlater hq
        · cases hserved
      · cases hq
    | rules lines => exact ih (h.rules lines) hlater hq
    | call => cases hr

-- ---------------------------------------------------------------------------
-- Runs
-- ---------------------------------------------------------------------------

/-- Whether the host may make a request at this point of a run. -/
def allows (p : Propagator ρ) : Request → Bool
  | .call (.assign l isFixed) =>
    (p.value? l.atom).isNone || isFixed && p.literal? l == some true
  | _ => true

/-- A literal that may be notified agrees with the value of its atom, if there is one. -/
theorem polarity_of_allows {l : Literal} {isFixed : Bool}
    (h : p.allows (.call (.assign l isFixed)) = true) {v : Bool}
    (hv : p.value? l.atom = some v) : isFixed = true ∧ v = l.polarity := by
  have hv : p.valuation.value? l.atom = some v := hv
  simpa [allows, value?, literal?, Valuation.literal?, hv] using h

variable [Coin ρ]

theorem serve?_entry (hb : p.isBuilt = true) (name : String) (value : Int) :
    p.serve? (.entry name value) = none := by
  have hbuilt : p.topology.isBuilt = true := hb
  simp [serve?, configure, Topology.enter, hbuilt, bind, Except.bind, pure, Except.pure]

theorem serve?_cases (hb : p.isBuilt = true) {r : Request} (hq : p.serve? r = some q) :
    r.isNotice = false ∧ p.Asked q ∨
      (∃ l isFixed, r = .call (.assign l isFixed) ∧ q = p.assign l isFixed) ∨
      r = .call .openLevel ∧ q = p.openLevel ∨
      ∃ level, r = .call (.backtrack level) ∧ q = p.backtrack level := by
  cases r with
  | entry name value =>
    rw [serve?_entry hb] at hq
    cases hq
  | rules lines =>
    obtain rfl := Option.some.inj hq
    exact .inl ⟨rfl, rfl, rfl, rfl, rfl, rfl, id⟩
  | call c =>
    simp only [serve?] at hq
    split at hq
    · next ha =>
      obtain rfl := Option.some.inj hq
      cases hc : c.isQuestion with
      | true => exact .inl ⟨by simp [Request.isNotice, hc], asked_answer hc ha⟩
      | false =>
        cases c with
        | assign l isFixed =>
          obtain ⟨-, rfl⟩ := Prod.mk.inj (Except.ok.inj ha)
          exact .inr (.inl ⟨l, isFixed, rfl, rfl⟩)
        | openLevel =>
          obtain ⟨-, rfl⟩ := Prod.mk.inj (Except.ok.inj ha)
          exact .inr (.inr (.inl ⟨rfl, rfl⟩))
        | backtrack level =>
          obtain ⟨-, rfl⟩ := Prod.mk.inj (Except.ok.inj ha)
          exact .inr (.inr (.inr ⟨level, rfl, rfl⟩))
        | _ => cases hc
    · cases hq

theorem topology_serve? (hb : p.isBuilt = true) {r : Request} (hq : p.serve? r = some q) :
    q.topology = p.topology := by
  rcases serve?_cases hb hq with ⟨-, hasked⟩ | ⟨l, isFixed, -, rfl⟩ | ⟨-, rfl⟩ | ⟨level, -, rfl⟩
  · exact hasked.topology
  · exact topology_assign p l isFixed
  · rw [openLevel_frame]
  · exact (returned_backtrack p level).topology

/-- Serves the requests of a host that keeps its word. -/
def follow? (p : Propagator ρ) : List Request → Option (Propagator ρ)
  | [] => some p
  | r :: rs => if p.allows r then (p.serve? r).bind (·.follow? rs) else none

theorem follow?_append (p : Propagator ρ) (rs ss : List Request) :
    p.follow? (rs ++ ss) = (p.follow? rs).bind (·.follow? ss) := by
  induction rs generalizing p with
  | nil => rfl
  | cons r rs ih =>
    simp only [List.cons_append, follow?]
    split
    · cases p.serve? r with
      | none => rfl
      | some q => exact ih q
    · rfl

theorem follow?_concat {rs : List Request} {r : Request} :
    p.follow? (rs ++ [r]) = some q ↔
      ∃ s, p.follow? rs = some s ∧ s.allows r = true ∧ s.serve? r = some q := by
  rw [follow?_append, Option.bind_eq_some_iff]
  refine exists_congr fun s => and_congr_right fun _ => ?_
  unfold follow?
  split
  · next hr =>
    simp only [hr, true_and]
    cases s.serve? r <;> simp [follow?]
  · next hr => simp [hr]

theorem follow?_induction {P : List Request → Propagator ρ → Prop} (hb : p.isBuilt = true)
    (hp : P [] p) (hstep : ∀ {rs r s q}, p.follow? rs = some s → s.isBuilt = true → P rs s →
      s.allows r = true → s.serve? r = some q → P (rs ++ [r]) q)
    {rs : List Request} (hq : p.follow? rs = some q) : P rs q := by
  suffices h : q.isBuilt = true ∧ P rs q from h.2
  induction rs using List.reverseRecOn generalizing q with
  | nil => exact Option.some.inj hq ▸ ⟨hb, hp⟩
  | append_singleton rs r ih =>
    obtain ⟨s, hs, hr, hq⟩ := follow?_concat.mp hq
    obtain ⟨hbuilt, hrun⟩ := ih hs
    refine ⟨?_, hstep hs hbuilt hrun hr hq⟩
    rw [isBuilt, topology_serve? hbuilt hq]
    exact hbuilt

end Propagator

end ShaDiff
