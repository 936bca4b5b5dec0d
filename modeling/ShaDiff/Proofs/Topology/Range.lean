import ShaDiff.Column
import ShaDiff.Proofs.Topology.Apart
import ShaDiff.Proofs.Topology.Filling

/-!
# Ranges

Topologies name words, operations and sums by index. All indices that a topology holds are in
range (`Ranged`), for every order of rounds and every size of words: those of atoms since words
are named before slots of their bits are filled, those of views and sums since the words of steps
are there, and those of readers since they are read off the operations and sums. So what an
operation or a sum reads are bits of words that are there (`Built.hasBit_of_operation`,
`Built.word_lt_of_sum`).
-/

namespace ShaDiff

namespace Topology

variable {t t' : Topology}

-- ---------------------------------------------------------------------------
-- Views
-- ---------------------------------------------------------------------------

theorem hasBit_view {v : View} {column : Nat} (hpos : 0 < t.words.size)
    (hword : v.word < t.words.size) (hcolumn : column < t.wordSize) :
    t.HasBit (v.bit t.wordSize column) := by
  cases v with
  | whole w => exact ⟨hword, hcolumn⟩
  | rotated w amount => exact ⟨hword, Nat.mod_lt _ (Nat.zero_lt_of_lt hcolumn)⟩
  | lowered w amount =>
    simp only [View.bit]
    split
    · next hlt => exact ⟨hword, hlt⟩
    · exact ⟨hpos, hcolumn⟩
  | raised w amount =>
    simp only [View.bit]
    split
    · exact ⟨hword, Nat.lt_of_le_of_lt (Nat.sub_le _ _) hcolumn⟩
    · exact ⟨hpos, hcolumn⟩

theorem narrow_operationsOfRound (word : Role → (back : Nat) → Nat) (size : Nat) (round : Int) :
    ∀ o ∈ operationsOfRound word size round,
      1 ≤ o.gate.width ∧ o.gate.arity + o.gate.width ≤ Column.positionsMax := by
  have hfunctions : ∀ o ∈ functionOperations word size round,
      1 ≤ o.gate.width ∧ o.gate.arity + o.gate.width ≤ Column.positionsMax := by
    simp only [functionOperations, xorOf, List.forall_mem_cons]
    exact ⟨by decide, by decide, by decide, by decide, List.forall_mem_nil _⟩
  have hmessages : ∀ o ∈ messageOperations word size round,
      1 ≤ o.gate.width ∧ o.gate.arity + o.gate.width ≤ Column.positionsMax := by
    simp only [messageOperations, xorOf, List.forall_mem_cons]
    exact ⟨by decide, by decide, by decide, List.forall_mem_nil _⟩
  have hregisters : ∀ o ∈ registerOperations word round,
      1 ≤ o.gate.width ∧ o.gate.arity + o.gate.width ≤ Column.positionsMax := by
    simp only [registerOperations, List.forall_mem_cons]
    exact ⟨by decide, by decide, by decide, List.forall_mem_nil _⟩
  rw [operationsOfRound, List.forall_mem_append, List.forall_mem_append]
  refine ⟨⟨hfunctions, ?_⟩, hregisters⟩
  split
  · exact hmessages
  · exact List.forall_mem_nil _

section

variable {word : Role → (back : Nat) → Nat} {size n : Nat} {round : Int}
  (hword : ∀ r k, word r k < n)

include hword

theorem word_lt_operationsOfRound : ∀ o ∈ operationsOfRound word size round,
    ∀ v ∈ o.inputs ++ o.outputs, v.word < n := by
  have hfunctions : ∀ o ∈ functionOperations word size round,
      ∀ v ∈ o.inputs ++ o.outputs, v.word < n := by
    simp [functionOperations, xorOf, rotation, View.word, or_imp, forall_and, hword]
  have hmessages : ∀ o ∈ messageOperations word size round,
      ∀ v ∈ o.inputs ++ o.outputs, v.word < n := by
    simp [messageOperations, xorOf, rotation, View.word, or_imp, forall_and, hword]
  have hregisters : ∀ o ∈ registerOperations word round,
      ∀ v ∈ o.inputs ++ o.outputs, v.word < n := by
    simp [registerOperations, View.word, or_imp, forall_and, hword]
  rw [operationsOfRound, List.forall_mem_append, List.forall_mem_append]
  refine ⟨⟨hfunctions, ?_⟩, hregisters⟩
  split
  · exact hmessages
  · exact List.forall_mem_nil _

theorem word_lt_sumsOfRound : ∀ s ∈ sumsOfRound word round, ∀ w ∈ s.words, w < n := by
  simp only [sumsOfRound, List.forall_mem_append]
  constructor
  · split
    · simp [SumEquation.words, or_imp, forall_and, hword]
    · exact List.forall_mem_nil _
  · simp [SumEquation.words, or_imp, forall_and, hword]

end

-- ---------------------------------------------------------------------------
-- Indices of a topology
-- ---------------------------------------------------------------------------

/-- Whether all that is named by an index is there. -/
structure Ranged (t : Topology) : Prop where
  tracked : ∀ {a : Atom} {p : Place}, t.tracked[a]? = some p → t.Stands a p.bit
  named : ∀ {w : Word} {i : Nat}, t.named[w]? = some i → i < t.words.size
  wordOf : ∀ r k, t.wordOf r k < t.words.size
  sites : ∀ {b : Bit} {s : Site}, s ∈ (t.readersOf b).sites → s.operation < t.operations.size
  sums : ∀ {b : Bit} {i : Nat}, i ∈ (t.readersOf b).sums → i < t.sums.size

theorem Ranged.size_pos (h : t.Ranged) : 0 < t.words.size := Nat.zero_lt_of_lt (h.wordOf .a 0)

theorem Ranged.wordAt?_lt (h : t.Ranged) {r : Role} {k : Int} {i : Nat}
    (hi : t.wordAt? r k = some i) : i < t.words.size := by
  unfold wordAt? at hi
  split at hi
  · next s hs =>
    have hword := h.wordOf r k
    rwa [Topology.wordOf, stepWord?, hs, Option.bind_some, hi] at hword
  · exact h.named hi

theorem Bounded.ranged (h : t.Bounded) : t.Ranged where
  tracked := h.tracked
  named := h.named_lt
  wordOf r k := by
    have hnone : t.stepWord? r k = none := by
      rw [stepWord?, stepAt?, h.steps]
      simp
    rw [wordOf, hnone]
    exact Nat.pos_of_ne_zero h.size_ne_zero
  sites hs := by simp [readersOf, h.readers] at hs
  sums hi := by simp [readersOf, h.readers] at hi

theorem stepWord?_lt {added : List Step} (hsteps : t.steps.toList = added)
    (hentries : ∀ {w i}, (w, i) ∈ added.flatMap Step.entries → i < t.words.size)
    {r : Role} {k : Int} {i : Nat} (h : t.stepWord? r k = some i) : i < t.words.size := by
  obtain ⟨s, hs, hi⟩ := Option.bind_eq_some_iff.mp h
  have hmem : s ∈ added := by
    unfold stepAt? at hs
    dsimp only at hs
    split at hs
    · rw [← hsteps]
      exact Array.mem_toList_iff.mpr (Array.mem_of_getElem? hs)
    · cases hs
  have hlookup : (r, i) ∈ s.words := by
    obtain ⟨before, after, hwords, -⟩ := List.lookup_eq_some_iff.mp hi
    rw [hwords]
    exact List.mem_append_right _ (.head _)
  exact hentries (List.mem_flatMap.mpr ⟨s, hmem, List.mem_map.mpr ⟨_, hlookup, rfl⟩⟩)

theorem Bounded.ranged_of_build (h : t.Bounded) {order : Nat}
    (hbuild : t.build order = .ok (.ok (), t')) : t'.Ranged := by
  obtain ⟨-, t₁, t₂, hsteps, hrounds, rfl⟩ := build_ok hbuild
  obtain ⟨added, hadded, -, -, hrest, hfills⟩ := addSteps_ok h.toNames hsteps
  obtain ⟨-, -, hrest₂⟩ := addRounds_ok hrounds
  have hwords : t₂.words = t₁.words := by rw [hrest₂]
  have hreaders : t₂.readers = ∅ := by rw [hrest₂, hrest, ← h.readers]
  have hsize : t.words.size ≤ t₂.words.size := by
    rw [hwords]
    refine Nat.le_of_not_lt fun hlt => ?_
    have hkept := hfills.kept (Array.getElem?_eq_getElem hlt)
    exact Nat.lt_irrefl _ (Array.getElem?_eq_some_iff.mp hkept).1
  have hpos : 0 < t₂.words.size := Nat.lt_of_lt_of_le (Nat.pos_of_ne_zero h.size_ne_zero) hsize
  refine ⟨fun {a p} ha => ?_, fun {w i} hw => ?_, fun r k => ?_, fun {b s} hs => ?_,
    fun {b i} hi => ?_⟩
  · have ha : t₂.tracked[a]? = some p := ha
    rw [hrest₂, hrest] at ha
    refine (h.tracked ha).mono hsize ?_
    show t₂.wordSize = t.wordSize
    rw [hrest₂, hrest]
  · have hw : t₂.named[w]? = some i := hw
    rw [hrest₂, hrest] at hw
    exact Nat.lt_of_lt_of_le (h.named_lt hw) hsize
  · show (t₂.stepWord? r k).getD zeroWord < t₂.words.size
    cases hword : t₂.stepWord? r k with
    | none => exact hpos
    | some i =>
      have hsteps₂ : t₂.steps.toList = added := by
        rw [hrest₂]
        show t₁.steps.toList = added
        rw [hadded, h.steps]
        rfl
      refine stepWord?_lt hsteps₂ (fun hmem => ?_) hword
      rw [hwords]
      exact (Array.getElem?_eq_some_iff.mp (hfills.word hmem).2).1
  · have hs : s ∈ (t₂.addReaders.readers.getD b {}).sites := hs
    unfold addReaders at hs
    dsimp only at hs
    rw [sites_foldl_addSum, mem_sites_foldl_addSite, hreaders, mem_operationBits] at hs
    obtain ⟨⟨o, ho, -⟩, -⟩ | hs := hs
    · exact (Array.getElem?_eq_some_iff.mp ho).1
    · simp at hs
  · have hi : i ∈ (t₂.addReaders.readers.getD b {}).sums := hi
    unfold addReaders at hi
    dsimp only at hi
    rw [mem_sums_foldl_addSum, sums_foldl_addSite, hreaders, mem_sumBits] at hi
    obtain ⟨s, hs, -⟩ | hi := hi
    · exact (Array.getElem?_eq_some_iff.mp hs).1
    · simp at hi

theorem Bounded.ranged_of_enter (h : t.Bounded) {name : String} {value : Int}
    (henter : t.enter name value = .ok (.ok (), t')) : t'.Ranged := by
  cases horder : t'.order with
  | none => exact (h.enter henter horder).ranged
  | some order =>
    obtain ⟨order, hbuild⟩ := build_of_enter henter (by simp [horder])
    exact h.ranged_of_build hbuild

-- ---------------------------------------------------------------------------
-- What operations and sums read
-- ---------------------------------------------------------------------------

theorem Built.hasBit_of_operation {order : Nat} (h : t.Built order) (hr : t.Ranged)
    {o : Operation} (ho : o ∈ t.operations) {column : Nat} (hcolumn : column < t.wordSize) :
    ∀ b ∈ t.inputBits o column ++ t.outputBits o column, t.HasBit b := by
  rw [← Array.mem_toList_iff, h.operations] at ho
  obtain ⟨i, -, ho⟩ := List.mem_flatMap.mp ho
  have hviews := word_lt_operationsOfRound (fun r k => hr.wordOf r (i - k)) o ho
  intro b hb
  rw [inputBits, outputBits, ← List.map_append] at hb
  obtain ⟨v, hv, rfl⟩ := List.mem_map.mp hb
  exact hasBit_view hr.size_pos (hviews v hv) hcolumn

theorem Built.narrow {order : Nat} (h : t.Built order) {o : Operation} (ho : o ∈ t.operations) :
    1 ≤ o.gate.width ∧ o.gate.arity + o.gate.width ≤ Column.positionsMax := by
  rw [← Array.mem_toList_iff, h.operations] at ho
  obtain ⟨i, -, ho⟩ := List.mem_flatMap.mp ho
  exact narrow_operationsOfRound _ _ i o ho

theorem Built.word_lt_of_sum {order : Nat} (h : t.Built order) (hr : t.Ranged)
    {s : SumEquation} (hs : s ∈ t.sums) : ∀ w ∈ s.words, w < t.words.size := by
  rw [← Array.mem_toList_iff, h.sums] at hs
  obtain ⟨i, -, hs⟩ := List.mem_flatMap.mp hs
  exact word_lt_sumsOfRound (fun r k => hr.wordOf r (i - k)) s hs

end Topology

end ShaDiff
