import ShaDiff.Proofs.Mirroring
import ShaDiff.Proofs.Propagator.Examined

/-!
# No wake-up is lost

Once a column is propagated it is left alone until one of its bits is refined, and so is a
sum. A backtrack may relax bits in between and a later literal refine them again. Still, while
there is no mark, each bit allows what it allowed when the column was last propagated, or
before the run if it never was.
-/

namespace ShaDiff.Propagator

variable {ρ : Type} [Coin ρ] {config : Config} {source : ρ} {requests : List Request}
  {replies : List Reply} {calls : List Call} {answers : List Answer} {p q : Propagator ρ}

theorem indexed_of_replyAll (hq : (new config source).replyAll requests = .ok (replies, q))
    (hb : q.isBuilt = true) : q.topology.Indexed := by
  have hnew : (new config source).isBuilt = false := rfl
  refine replyAll_induction (P := fun p => p.isBuilt = true → p.topology.Indexed)
    (fun h hr hb => ?_) (fun hb => nomatch hnew.symm.trans hb) hq hb
  rcases topology_reply hr with hsame | ⟨name, value, result, henter⟩
  · rw [isBuilt, hsame] at hb
    exact hsame ▸ h hb
  · exact .of_enter h henter hb

/-- In any dialogue with a propagator that is built, the bits of a column that is not marked
allow all that they allowed when the column was last propagated, or at first, and likewise
those of a sum. The record that says so has a column for each that is counted. -/
theorem subset_of_unmarked (hp : (new config source).replyAll requests = .ok (replies, p))
    (hb : p.isBuilt = true) (hq : p.converse calls = .ok (answers, q)) :
    (∀ (u : Site) o, q.topology.operations[u.operation]? = some o →
      u.column < q.topology.wordSize → q.marks.marked.contains u = false →
      ∀ b ∈ q.topology.inputBits o u.column ++ q.topology.outputBits o u.column,
        ((lastAt (p.searchedIn columnsSearched calls) u p).condition b).subset
          (q.condition b) = true) ∧
    (q.config.wordwise = true → ∀ (i : Nat) s, q.topology.sums[i]? = some s →
      i ∉ q.marks.sums → ∀ b ∈ s.words.flatMap q.topology.wordBits,
        ((lastAt (p.searchedIn sumsSearched calls) i p).condition b).subset
          (q.condition b) = true) ∧
    q.counters.columns =
      p.counters.columns + (p.searchedIn columnsSearched calls).length := by
  have hawake := (awake_start p).converse (indexed_of_replyAll hp hb) hq
  exact ⟨hawake.column, hawake.sum, columns_converse hq⟩

/-- A column is propagated twice, its bits are relaxed and refined again, and it is propagated
once more, on less than is allowed in the end. -/
theorem subset_of_unmarked_sample :
    let calls : List Call := [.openLevel, .assign ⟨25, false⟩ false, .assign ⟨3, false⟩ false,
      .propagate, .assign ⟨21, false⟩ false, .propagate, .assign ⟨22, false⟩ false, .propagate,
      .propagate, .backtrack 0, .openLevel, .assign ⟨3, false⟩ false, .propagate, .backtrack 0]
    ∃ (replies : List Reply) (p : Propagator Pcg) (answers : List Answer) (q : Propagator Pcg),
      (new { encoding := .li2024, wordSize := 1 } (.ofSeed 0)).replyAll (sampleRequests []) =
        .ok (replies, p) ∧
      p.isBuilt = true ∧ p.converse calls = .ok (answers, q) ∧
      (p.searchedIn columnsSearched calls).map (·.1) = [⟨5, 0⟩, ⟨5, 0⟩, ⟨4, 0⟩, ⟨6, 0⟩, ⟨5, 0⟩] ∧
      q.marks.marked.contains ⟨5, 0⟩ = false ∧
      (lastAt (p.searchedIn columnsSearched calls) ⟨5, 0⟩ p).condition ⟨1, 0⟩ = .same ∧
      q.condition ⟨1, 0⟩ = .any ∧
      ∀ b ∈ [⟨1, 0⟩, ⟨12, 0⟩, ⟨0, 0⟩, ⟨20, 0⟩, ⟨10, 0⟩],
        ((lastAt (p.searchedIn columnsSearched calls) ⟨5, 0⟩ p).condition b).subset
          (q.condition b) = true := by
  intro calls
  have hreplied : (((new { encoding := .li2024, wordSize := 1 } (Pcg.ofSeed 0)).replyAll
      (sampleRequests [])).bind fun (_, p) => (p.converse calls).map fun (_, q) =>
        ([p.isBuilt, q.topology.wordSize == 1, q.marks.marked.contains ⟨5, 0⟩],
          (p.searchedIn columnsSearched calls).map (·.1),
          [(lastAt (p.searchedIn columnsSearched calls) ⟨5, 0⟩ p).condition ⟨1, 0⟩,
            q.condition ⟨1, 0⟩],
          q.topology.operations[5]?.map fun o =>
            q.topology.inputBits o 0 ++ q.topology.outputBits o 0)) =
      .ok ([true, true, false], [⟨5, 0⟩, ⟨5, 0⟩, ⟨4, 0⟩, ⟨6, 0⟩, ⟨5, 0⟩], [.same, .any],
        some [⟨1, 0⟩, ⟨12, 0⟩, ⟨0, 0⟩, ⟨20, 0⟩, ⟨10, 0⟩]) := by decide +kernel
  obtain ⟨⟨replies, p⟩, hp, hconversed⟩ := exists_of_bind_eq_ok hreplied
  obtain ⟨⟨answers, q⟩, hq, hresult⟩ := exists_of_map_eq_ok hconversed
  simp only [Prod.mk.injEq, List.cons.injEq, beq_iff_eq, and_true] at hresult
  obtain ⟨⟨hb, hsize, hunmarked⟩, hrecord, ⟨hlast, hnow⟩, hbits⟩ := hresult
  obtain ⟨o, ho, hbits⟩ := Option.map_eq_some_iff.mp hbits
  refine ⟨replies, p, answers, q, hp, hb, hq, hrecord, hunmarked, hlast, hnow, fun b hmem => ?_⟩
  refine (subset_of_unmarked hp hb hq).1 ⟨5, 0⟩ o ho (hsize ▸ Nat.one_pos) hunmarked b ?_
  exact hbits ▸ hmem

end ShaDiff.Propagator
