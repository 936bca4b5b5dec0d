import ShaDiff.Proofs.Propagator.Finding
import ShaDiff.Proofs.TwoBit.Strategy
import ShaDiff.Propagator.TwoBit

/-!
# Checks of two-bit equations

As all equations are valid, live ones that have no common solution cannot be live in a
pair of instances, so the clause that blocks them is entailed. There is such a pair, and
so the clause has a literal and a check never drops it for being empty.
-/

namespace ShaDiff

namespace Topology

variable {t : Topology}

theorem exists_instances (h : t.Open ∨ ∃ order, t.Built order) : ∃ σ, t.Instances σ := by
  have hcomputes : ∃ ν, t.Computes ν := by
    rcases h with hopen | ⟨order, hbuilt⟩
    · refine ⟨fun _ => false, fun _ _ => rfl, fun o ho => ?_⟩
      rw [hopen.operations] at ho
      exact absurd ho (Array.not_mem_empty o)
    · obtain ⟨ν, hν, -⟩ := hbuilt.exists_computes (fun _ => false) fun _ _ => rfl
      exact ⟨ν, hν⟩
  obtain ⟨ν, hν⟩ := hcomputes
  exact ⟨fun b => ⟨ν b, ν b⟩, hν, hν⟩

theorem entails_blockingClause {es : List Equation} (hc : ¬ TwoBit.Consistent es)
    (hv : ∀ e ∈ es, t.Validates e) : t.Entails (Equation.blockingClause es) :=
  fun σ v hσ hr => Equation.blockingClause_holds hc fun e he => hv e he σ v hσ hr

theorem Entails.ne_nil (ht : t.Tracks) (hex : ∃ σ, t.Instances σ) {c : Clause} (h : t.Entails c) :
    c ≠ [] := by
  obtain ⟨σ, hσ⟩ := hex
  obtain ⟨l, hl, -⟩ := h σ _ hσ (ht.reads_truth σ)
  exact List.ne_nil_of_mem hl

end Topology

namespace Propagator

variable {ρ : Type} {p : Propagator ρ} {c : Clause}

theorem checkTwoBit_frame (p : Propagator ρ) :
    p.checkTwoBit.2 = { p with counters := p.checkTwoBit.2.counters } := by
  unfold checkTwoBit
  split
  · rfl
  · dsimp only
    split <;> rfl

theorem mem_of_mem_liveEquations {e : Equation} (h : e ∈ p.liveEquations) : e ∈ p.equations :=
  (List.mem_filter.mp (Equation.mem_sort.mp h)).1

theorem validates_equations (hc : p.topology.ValidatesAll p.columnEquations)
    (hs : p.topology.ValidatesAll p.sumEquations) : ∀ e ∈ p.equations, p.topology.Validates e := by
  intro e he
  rcases List.mem_append.mp he with he | he
  · obtain ⟨es, hes, he⟩ := List.mem_flatten.mp he
    obtain ⟨s, hs⟩ := exists_of_mem_values hes
    exact hc s es hs e he
  · obtain ⟨es, hes, he⟩ := List.mem_flatten.mp he
    obtain ⟨sum, hsum⟩ := exists_of_mem_values hes
    exact hs sum es hsum e he

theorem conflict?_of_checkTwoBit (h : p.checkTwoBit.1 = some c) :
    p.config.twoBit.conflict? p.liveEquations = some c := by
  unfold checkTwoBit at h
  split at h
  · cases h
  · dsimp only at h
    split at h
    · cases h
    · cases h
    · rename_i hconflict
      rw [← h]
      exact hconflict

/-- What a check blocks is entailed if all equations are valid. -/
theorem entails_checkTwoBit (hv : ∀ e ∈ p.equations, p.topology.Validates e)
    (h : p.checkTwoBit.1 = some c) : p.topology.Entails c := by
  obtain ⟨fs, hfs, hc, rfl⟩ := TwoBit.Strategy.conflict?_eq_some (conflict?_of_checkTwoBit h)
  exact Topology.entails_blockingClause hc fun f hf => hv f (mem_of_mem_liveEquations (hfs f hf))

/-- A check blocks something exactly where the live equations have no common solution. -/
theorem isSome_checkTwoBit (ht : p.topology.Tracks) (hex : ∃ σ, p.topology.Instances σ)
    (hv : ∀ e ∈ p.equations, p.topology.Validates e) (hstrategy : p.config.twoBit ≠ .off)
    (hslot : p.encoding.differenceSlot?.isSome = true) :
    p.checkTwoBit.1.isSome = true ↔ ¬ TwoBit.Consistent p.liveEquations := by
  rw [← TwoBit.Strategy.conflict?_isSome hstrategy]
  have henabled : ¬ (p.config.twoBit = .off ∨ p.encoding.differenceSlot?.isNone = true) := by
    rw [not_or, Option.isNone_iff_eq_none]
    exact ⟨hstrategy, Option.isSome_iff_ne_none.mp hslot⟩
  unfold checkTwoBit
  rw [if_neg henabled]
  dsimp only
  split
  · rename_i hnone
    exact iff_of_eq (congrArg (Option.isSome · = true) hnone.symm)
  · rename_i hnil
    obtain ⟨fs, hfs, hc, hclause⟩ := TwoBit.Strategy.conflict?_eq_some hnil
    have hentails := Topology.entails_blockingClause hc
      fun f hf => hv f (mem_of_mem_liveEquations (hfs f hf))
    exact absurd hclause.symm (hentails.ne_nil ht hex)
  · rename_i c _ hsome
    have hsome : p.config.twoBit.conflict? p.liveEquations = some c := hsome
    rw [hsome]

end Propagator

end ShaDiff
