import ShaDiff.Proofs.Request

/-!
# Soundness of what the host is told

However a propagator is configured and driven, all clauses it gives the host hold in
every pair of instances and so never exclude one. The equations it keeps are valid for
good, not only while what they were found from is assigned. So both ways to check them
answer alike.
-/

namespace ShaDiff.Propagator

variable {ρ : Type} [Coin ρ] {config : Config} {source : ρ} {requests : List Request}
  {q : Propagator ρ}

/-- The entries of one round and then calls of the host. -/
def sampleRequests (calls : List Call) : List Request :=
  Topology.sampleEntries.map (fun (name, value) => .entry name value) ++ calls.map .call

/-- Without a rule database all reasons and blocking clauses hold in every pair of
instances. -/
theorem entails_of_served (hn : config.wordSize ≤ wordSizeMax)
    (hr : ∀ r ∈ requests, r.isRules = false)
    (hq : (new config source).serveAll? requests = some q) :
    (∀ (l : Literal) c, q.reasons[l]? = some c → q.topology.Entails c) ∧
      ∀ c given, q.status = .blocking c given → q.topology.Entails c := by
  have hsound : q.Sound False :=
    sound_of_serveAll? hn (fun r hmem hrules => by simp [hr r hmem] at hrules) hq
  exact ⟨hsound.reasons not_false, hsound.blocking not_false⟩

def wideRequests (calls : List Call) : List Request :=
  Topology.wideEntries.map (fun (name, value) => .entry name value) ++ calls.map .call

/-- Where only the carry into its highest bit differs, `E` differs there. -/
theorem entails_of_wideRequests : ∃ (q : Propagator Pcg) (c : Clause),
    (new { encoding := .li2024, wordSize := 2 } (.ofSeed 0)).serveAll?
      (wideRequests [.assign ⟨55, true⟩ false, .assign ⟨5, false⟩ false,
        .assign ⟨49, false⟩ false, .propagate]) = some q ∧
      q.reasons[(⟨41, true⟩ : Literal)]? = some c ∧ q.topology.Entails c := by
  have hserved : ((new { encoding := .li2024, wordSize := 2 } (Pcg.ofSeed 0)).serveAll?
      (wideRequests [.assign ⟨55, true⟩ false, .assign ⟨5, false⟩ false,
        .assign ⟨49, false⟩ false, .propagate])).bind (·.reasons[(⟨41, true⟩ : Literal)]?) =
      some [⟨41, true⟩, ⟨49, true⟩, ⟨5, true⟩, ⟨55, false⟩] := by decide +kernel
  obtain ⟨q, hq, hc⟩ := Option.bind_eq_some_iff.mp hserved
  exact ⟨q, _, hq, hc, (entails_of_served (by decide) (by decide +kernel) hq).1 _ _ hc⟩

/-- All equations kept are valid, and clauses that block some hold in every pair of
instances. -/
theorem validates_of_served (hn : config.wordSize ≤ wordSizeMax)
    (hr : ∀ r ∈ requests, r.isRules = false)
    (hq : (new config source).serveAll? requests = some q) :
    q.topology.ValidatesAll q.columnEquations ∧ q.topology.ValidatesAll q.sumEquations ∧
      (∀ c, q.checkTwoBit.1 = some c → q.topology.Entails c) ∧
      ∀ c, q.refresh.checkTwoBit.1 = some c → q.topology.Entails c := by
  have hsound : q.Sound False :=
    sound_of_serveAll? hn (fun r hmem hrules => by simp [hr r hmem] at hrules) hq
  refine ⟨hsound.columnEquations, hsound.sumEquations,
    fun c => entails_checkTwoBit hsound.validates, fun c hc => ?_⟩
  have hentails := entails_checkTwoBit hsound.refresh.validates hc
  rwa [refresh_frame] at hentails

/-- An equation is kept, and valid, when its antecedent is taken back. -/
theorem validates_of_sampleRequests : ∃ q : Propagator Pcg,
    (new { encoding := .li2024, wordSize := 1 } (.ofSeed 0)).serveAll?
      (sampleRequests [.openLevel, .assign ⟨3, false⟩ false, .propagate, .backtrack 0]) =
        some q ∧
      q.equations.length = 1 ∧ q.liveEquations = [] ∧
      q.topology.ValidatesAll q.columnEquations := by
  have hserved : ((new { encoding := .li2024, wordSize := 1 } (Pcg.ofSeed 0)).serveAll?
      (sampleRequests [.openLevel, .assign ⟨3, false⟩ false, .propagate, .backtrack 0])).map
        (fun q => (q.equations.length, q.liveEquations)) = some (1, []) := by decide +kernel
  obtain ⟨q, hq, hkept⟩ := Option.map_eq_some_iff.mp hserved
  obtain ⟨hlength, hlive⟩ := Prod.mk.inj hkept
  exact ⟨q, hq, hlength, hlive, (validates_of_served (by decide) (by decide +kernel) hq).1⟩

/-- All ways to check equations agree with their having no common solution, and so do the
checks of every propagator that is reached, whatever rules it has read. -/
theorem checkTwoBit_agrees :
    (∀ es : List Equation,
      [¬ TwoBit.Consistent es, (TwoBit.SignedSets.empty.firstContradiction? es).isSome = true,
        TwoBit.SignedSets.empty.contradictions es ≠ [], TwoBit.Kernel.inconsistentSubsets es ≠ [],
        (TwoBit.Kernel.shortestClause? es).isSome = true,
        (TwoBit.Cycle.shortestClause? es).isSome = true].TFAE) ∧
    ∀ {ρ : Type} [Coin ρ] {config : Config} {source : ρ} {requests : List Request}
      {q : Propagator ρ}, config.wordSize ≤ wordSizeMax →
      (new config source).serveAll? requests = some q →
      q.encoding.differenceSlot?.isSome = true →
      ({ q with config.twoBit := .unionFind }.checkTwoBit.1.isSome = true ↔
        ¬ TwoBit.Consistent q.liveEquations) ∧
      ({ q with config.twoBit := .graph }.checkTwoBit.1.isSome = true ↔
        ¬ TwoBit.Consistent q.liveEquations) := by
  refine ⟨TwoBit.tfae_not_consistent, fun {ρ} _ {config source requests q} hn hq hslot => ?_⟩
  have hsound : q.Sound True := sound_of_serveAll? hn (fun _ _ _ => trivial) hq
  have hex := Topology.exists_instances hsound.open_or_built
  exact ⟨isSome_checkTwoBit (p := { q with config.twoBit := .unionFind }) hsound.tracks hex
      hsound.validates nofun hslot,
    isSome_checkTwoBit (p := { q with config.twoBit := .graph }) hsound.tracks hex
      hsound.validates nofun hslot⟩

theorem checkTwoBit_agrees_of_sampleRequests : ∃ q : Propagator Pcg,
    (new { encoding := .li2024, wordSize := 1 } (.ofSeed 0)).serveAll?
      (sampleRequests [.assign ⟨3, false⟩ false, .propagate]) = some q ∧
      q.liveEquations.length = 1 ∧
      ({ q with config.twoBit := .unionFind }.checkTwoBit.1.isSome = true ↔
        ¬ TwoBit.Consistent q.liveEquations) ∧
      ({ q with config.twoBit := .graph }.checkTwoBit.1.isSome = true ↔
        ¬ TwoBit.Consistent q.liveEquations) := by
  have hserved : ((new { encoding := .li2024, wordSize := 1 } (Pcg.ofSeed 0)).serveAll?
      (sampleRequests [.assign ⟨3, false⟩ false, .propagate])).map
        (fun q => (q.liveEquations.length, q.encoding.differenceSlot?.isSome)) =
      some (1, true) := by decide +kernel
  obtain ⟨q, hq, hlive⟩ := Option.map_eq_some_iff.mp hserved
  obtain ⟨hlength, hslot⟩ := Prod.mk.inj hlive
  exact ⟨q, hq, hlength, checkTwoBit_agrees.2 (by decide) hq hslot⟩

end ShaDiff.Propagator
