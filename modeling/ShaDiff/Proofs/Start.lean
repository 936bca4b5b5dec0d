import ShaDiff.Proofs.Propagator.Attentive

/-!
# From the start

A propagator that entries of a configuration have built knows of no value. So no column is
contradictory or forces a literal, no sum is derived, and all is underway (`Started`).
-/

namespace ShaDiff.Propagator

variable {ρ : Type} {config : Config} {source : ρ} {entries : List (String × Int)}
  {p q : Propagator ρ}

def entryRequests (entries : List (String × Int)) : List Request :=
  entries.map fun (name, value) => .entry name value

structure Started (config : Config) (p : Propagator ρ) : Prop where
  attentive : p.Attentive
  built : p.isBuilt = true
  underway : p.Underway []
  config : p.config = config
  status : p.status = .idle
  trail : p.trail = .empty
  value : ∀ a, p.value? a = none

variable [Coin ρ]

theorem indexed_of_entries (h : p.isBuilt = true → p.topology.Indexed)
    (hq : p.serveAll? (entryRequests entries) = some q) (hb : q.isBuilt = true) :
    q.topology.Indexed := by
  induction entries generalizing p with
  | nil =>
    obtain rfl := Option.some.inj hq
    exact h hb
  | cons entry entries ih =>
    obtain ⟨name, value⟩ := entry
    simp only [entryRequests, List.map_cons, Propagator.serveAll?] at hq
    split at hq
    · next p' hserved =>
      refine ih (fun hb' => ?_) hq
      simp only [Propagator.serve?] at hserved
      split at hserved
      · next hconfigured =>
        obtain rfl := Option.some.inj hserved
        simp only [Propagator.configure, bind, Except.bind] at hconfigured
        split at hconfigured
        · cases hconfigured
        · next entered henter =>
          simp only [pure, Except.pure, Except.ok.injEq, Prod.mk.injEq] at hconfigured
          obtain ⟨-, rfl⟩ := hconfigured
          exact .of_enter h henter hb'
      · cases hserved
    · cases hq

omit [Coin ρ] in
theorem underway_of_any {order : Nat} (hbuilt : p.topology.Built order)
    (hany : ∀ b : Bit, b.isZero = false → p.condition b = .any) : p.Underway [] where
  column _ _ ho _ := .inr (columnForces_free (fun b _ => hany b) hbuilt (Array.mem_of_getElem? ho))
  sum _ i s hs := by
    refine .inr (.inl ?_)
    rw [SumSettled, propagate_sum_free hbuilt (Array.mem_of_getElem? hs) fun b _ => hany b]
    trivial

theorem started_of_entries (hn : config.wordSize ≤ wordSizeMax)
    (hp : (new config source).serveAll? (entryRequests entries) = some p)
    (hb : p.isBuilt = true) : p.Started config := by
  have hentry (r : Request) (hr : r ∈ entryRequests entries) :
      r.isCall = false ∧ r.isRules = false := by
    obtain ⟨entry, -, rfl⟩ := List.mem_map.mp hr
    exact ⟨rfl, rfl⟩
  have hprepared := Prepared.fresh.of_serveAll? (fun r hr => (hentry r hr).1) hp
  have hsound : p.Sound False := sound_of_serveAll? hn
    (fun r hr hrules => Bool.false_ne_true ((hentry r hr).2.symm.trans hrules)) hp
  have hnew : (new config source).isBuilt = false := rfl
  have hindexed : p.topology.Indexed :=
    indexed_of_entries (fun hb => nomatch hnew.symm.trans hb) hp hb
  have hjustified := hprepared.justified
  obtain ⟨order, hbuilt⟩ := exists_order hsound (Option.isSome_iff_ne_none.mp hb)
  obtain ⟨t, -, columnCache, rfl⟩ := hprepared.exists_eq
  have hreflects := reflects_of_clean hsound.mirrors rfl
  have hunderway := underway_of_any hbuilt fun b hz =>
    (hreflects b hz).trans (Topology.conditionOf_of_none Valuation.value?_empty b)
  refine ⟨⟨hsound, hjustified, hindexed, Marks.queued_empty, relaxed_of_reflects hreflects,
    fun a ha => ?_⟩, hb, hunderway, rfl, rfl, rfl,
    Valuation.value?_empty⟩
  simp [new, Valuation.empty] at ha

end ShaDiff.Propagator
