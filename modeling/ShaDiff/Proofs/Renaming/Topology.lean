import Mathlib.Logic.Equiv.Defs
import ShaDiff.Topology.Build

/-!
# Other indices for words

Words get their indices in the order in which they are named. Two topologies are the same up
to a renaming of the indices if each says of a word under its index what the other says of it
under the other index (`Renamed`). What the build does with a word does not depend on its
index. So if an order is accepted by one of two such topologies, it is accepted by the other,
and the topologies built are the same up to the same renaming (`Renamed.build`).
-/

namespace ShaDiff

variable {π : Equiv.Perm Nat}

def Bit.rename (π : Equiv.Perm Nat) (b : Bit) : Bit := { b with word := π b.word }

def Place.rename (π : Equiv.Perm Nat) (p : Place) : Place := { p with bit := p.bit.rename π }

def View.rename (π : Equiv.Perm Nat) : View → View
  | whole w => whole (π w)
  | rotated w k => rotated (π w) k
  | lowered w k => lowered (π w) k
  | raised w k => raised (π w) k

def Operation.rename (π : Equiv.Perm Nat) (o : Operation) : Operation :=
  { o with inputs := o.inputs.map (·.rename π), outputs := o.outputs.map (·.rename π) }

def SumEquation.rename (π : Equiv.Perm Nat) (s : SumEquation) : SumEquation :=
  { s with positive := s.positive.map π, negative := s.negative.map π }

def Step.rename (π : Equiv.Perm Nat) (s : Step) : Step :=
  { s with words := s.words.map (Prod.map id π) }

theorem Bit.rename_inj {b c : Bit} : b.rename π = c.rename π ↔ b = c := by
  rcases b with ⟨v, i⟩
  rcases c with ⟨w, j⟩
  simp [rename]

theorem Bit.isZero_rename (hzero : π zeroWord = zeroWord) (b : Bit) :
    (b.rename π).isZero = b.isZero := by
  have hiff : π b.word = zeroWord ↔ b.word = zeroWord := by
    rw [← π.injective.eq_iff (a := b.word), hzero]
  simp only [isZero, rename, beq_eq_beq]
  exact hiff

theorem View.bit_rename (hzero : π zeroWord = zeroWord) (size : Nat) (v : View) (j : Nat) :
    (v.rename π).bit size j = (v.bit size j).rename π := by
  cases v with
  | whole | rotated => rfl
  | lowered | raised =>
    simp only [View.rename, View.bit]
    split
    · rfl
    · rw [Bit.rename, hzero]

theorem SumEquation.words_rename (s : SumEquation) : (s.rename π).words = s.words.map π :=
  List.map_append.symm

theorem Step.word?_rename (s : Step) (r : Role) : (s.rename π).word? r = (s.word? r).map π := by
  rcases s with ⟨round, words⟩
  simp only [word?, rename]
  induction words with
  | nil => rfl
  | cons entry words ih =>
    obtain ⟨role, word⟩ := entry
    simp only [List.map_cons, Prod.map, id_eq, List.lookup_cons]
    split
    · rfl
    · exact ih

namespace Topology

variable {t u t' : Topology} {round : Int} {order : Nat}

/-- Whether `u` is `t` with other indices of words. Words still to be added get the same
indices. -/
structure Renamed (π : Equiv.Perm Nat) (t u : Topology) : Prop where
  zero : π zeroWord = zeroWord
  fixed : ∀ i, t.words.size ≤ i → π i = i
  encoding : u.encoding = t.encoding
  wordSize : u.wordSize = t.wordSize
  order : u.order = t.order
  size : u.words.size = t.words.size
  words : ∀ i, u.words[π i]? = t.words[i]?
  steps : u.steps = t.steps.map (·.rename π)
  operations : u.operations = t.operations.map (·.rename π)
  sums : u.sums = t.sums.map (·.rename π)
  atoms : ∀ b : Bit, u.atoms[b.rename π]? = t.atoms[b]?
  tracked : ∀ a : Atom, u.tracked[a]? = t.tracked[a]?.map (·.rename π)
  zeroAtoms : u.zeroAtoms = t.zeroAtoms
  named : ∀ w : Word, u.named[w]? = t.named[w]?.map π
  readers : ∀ b : Bit, u.readers[b.rename π]? = t.readers[b]?

-- ---------------------------------------------------------------------------
-- Steps
-- ---------------------------------------------------------------------------

theorem Renamed.push (h : t.Renamed π u) (w : Word) :
    Renamed π { t with words := t.words.push w } { u with words := u.words.push w } where
  zero := h.zero
  fixed i hi := h.fixed i (by simp at hi; omega)
  encoding := h.encoding
  wordSize := h.wordSize
  order := h.order
  size := by simp [h.size]
  words i := by
    have hsize : π t.words.size = t.words.size := h.fixed _ (Nat.le_refl _)
    have hiff : π i = u.words.size ↔ i = t.words.size := by
      rw [h.size, ← π.injective.eq_iff (a := i), hsize]
    simp only [Array.getElem?_push, hiff, h.words]
  steps := h.steps
  operations := h.operations
  sums := h.sums
  atoms := h.atoms
  tracked := h.tracked
  zeroAtoms := h.zeroAtoms
  named := h.named
  readers := h.readers

theorem Renamed.fillStep (h : t.Renamed π u) (round : Int) (roles : List Role)
    (words : List (Role × Nat)) :
    (u.fillStep round roles (words.map (Prod.map id π))).1 =
        (t.fillStep round roles words).1.map (·.map (Prod.map id π)) ∧
      (t.fillStep round roles words).2.Renamed π
        (u.fillStep round roles (words.map (Prod.map id π))).2 := by
  induction roles generalizing t u words with
  | nil => exact ⟨congrArg Except.ok List.map_reverse.symm, h⟩
  | cons role roles ih =>
    unfold Topology.fillStep
    rw [h.named]
    cases t.named[(⟨role, round⟩ : Word)]? with
    | some i => exact ih h ((role, i) :: words)
    | none =>
      simp only [Option.map_none]
      split
      · exact ⟨rfl, h⟩
      · have hindex : π t.words.size = u.words.size :=
          (h.fixed _ (Nat.le_refl _)).trans h.size.symm
        have hnext := ih (h.push ⟨role, round⟩) ((role, t.words.size) :: words)
        rw [List.map_cons, Prod.map, hindex] at hnext
        exact hnext

theorem Renamed.addSteps (h : t.Renamed π u) (order : Nat) (rounds : List Int) :
    (u.addSteps order rounds).1 = (t.addSteps order rounds).1 ∧
      (t.addSteps order rounds).2.Renamed π (u.addSteps order rounds).2 := by
  induction rounds generalizing t u with
  | nil => exact ⟨rfl, h⟩
  | cons round rounds ih =>
    obtain ⟨hresult, hfilled⟩ :=
      h.fillStep round (Role.configurable.filter (·.applicable round order)) []
    rw [List.map_nil] at hresult hfilled
    unfold Topology.addSteps
    cases ht : t.fillStep round (Role.configurable.filter (·.applicable round order)) [] with
    | mk result t₁ =>
    cases hu : u.fillStep round (Role.configurable.filter (·.applicable round order)) [] with
    | mk result' u₁ =>
    rw [ht, hu] at hresult hfilled
    obtain rfl : result' = result.map _ := hresult
    cases result with
    | error fault => exact ⟨rfl, hfilled⟩
    | ok words =>
      refine ih { hfilled with steps := ?_ }
      rw [hfilled.steps, Array.map_push]
      rfl

-- ---------------------------------------------------------------------------
-- Rounds
-- ---------------------------------------------------------------------------

theorem Renamed.stepAt? (h : t.Renamed π u) (round : Int) :
    u.stepAt? round = (t.stepAt? round).map (·.rename π) := by
  unfold Topology.stepAt?
  rw [h.steps]
  dsimp only
  split
  · exact Array.getElem?_map
  · rfl

theorem Renamed.stepWord? (h : t.Renamed π u) (role : Role) (round : Int) :
    u.stepWord? role round = (t.stepWord? role round).map π := by
  unfold Topology.stepWord?
  rw [h.stepAt?]
  cases t.stepAt? round with
  | none => rfl
  | some step => exact step.word?_rename role

theorem Renamed.wordAt? (h : t.Renamed π u) (role : Role) (round : Int) :
    u.wordAt? role round = (t.wordAt? role round).map π := by
  unfold Topology.wordAt?
  rw [h.stepAt?]
  cases t.stepAt? round with
  | none => exact h.named _
  | some step => exact step.word?_rename role

theorem Renamed.absentWord? (h : t.Renamed π u) (round : Int) :
    u.absentWord? round = t.absentWord? round := by
  simp only [Topology.absentWord?, h.stepWord?, Option.isNone_map]

theorem operationsOfRound_rename (word : Role → Nat → Nat) (size : Nat) (round : Int) :
    operationsOfRound (fun role back => π (word role back)) size round =
      (operationsOfRound word size round).map (·.rename π) := by
  unfold operationsOfRound
  split <;> rfl

theorem sumsOfRound_rename (word : Role → Nat → Nat) (round : Int) :
    sumsOfRound (fun role back => π (word role back)) round =
      (sumsOfRound word round).map (·.rename π) := by
  unfold sumsOfRound
  split <;> rfl

theorem Renamed.append (h : t.Renamed π u) {os os' : List Operation} {ss ss' : List SumEquation}
    (hos : os' = os.map (·.rename π)) (hss : ss' = ss.map (·.rename π)) :
    Renamed π { t with operations := t.operations ++ os, sums := t.sums ++ ss }
      { u with operations := u.operations ++ os', sums := u.sums ++ ss' } :=
  { h with
    operations := Array.toList_inj.mp (by simp [h.operations, hos])
    sums := Array.toList_inj.mp (by simp [h.sums, hss]) }

theorem Renamed.addRounds (h : t.Renamed π u) {rounds : List Int}
    (ht : t.addRounds rounds = .ok t') :
    ∃ u', u.addRounds rounds = .ok u' ∧ t'.Renamed π u' := by
  induction rounds generalizing t u with
  | nil => exact ⟨u, rfl, Except.ok.inj ht ▸ h⟩
  | cons round rounds ih =>
    unfold Topology.addRounds at ht ⊢
    rw [h.absentWord?]
    split at ht
    · cases ht
    · have hword : (fun role (back : Nat) => (u.stepWord? role (round - back)).getD zeroWord) =
          fun role (back : Nat) => π ((t.stepWord? role (round - back)).getD zeroWord) := by
        funext role back
        rw [h.stepWord?, ← h.zero, Option.getD_map, h.zero]
      exact ih (h.append (by rw [hword, h.wordSize, operationsOfRound_rename])
        (by rw [hword, sumsOfRound_rename])) ht

-- ---------------------------------------------------------------------------
-- Readers
-- ---------------------------------------------------------------------------

theorem Renamed.inputBits (h : t.Renamed π u) (o : Operation) (column : Nat) :
    u.inputBits (o.rename π) column = (t.inputBits o column).map (·.rename π) := by
  simp only [Topology.inputBits, Operation.rename, List.map_map, Function.comp_def, h.wordSize,
    View.bit_rename h.zero]

theorem Renamed.outputBits (h : t.Renamed π u) (o : Operation) (column : Nat) :
    u.outputBits (o.rename π) column = (t.outputBits o column).map (·.rename π) := by
  simp only [Topology.outputBits, Operation.rename, List.map_map, Function.comp_def, h.wordSize,
    View.bit_rename h.zero]

theorem Renamed.wordBits (h : t.Renamed π u) (word : Nat) :
    u.wordBits (π word) = (t.wordBits word).map (·.rename π) := by
  simp only [Topology.wordBits, List.map_map, Function.comp_def, h.wordSize, Bit.rename]

theorem Renamed.operationBits (h : t.Renamed π u) :
    u.operationBits = t.operationBits.map (Prod.map id (·.rename π)) := by
  simp only [Topology.operationBits, h.operations, h.wordSize, Array.toList_map, List.zipIdx_map,
    List.flatMap_map, List.map_flatMap, Prod.map, h.inputBits, h.outputBits, List.map_append,
    List.map_map, Function.comp_def, id_eq]

theorem Renamed.sumBits (h : t.Renamed π u) :
    u.sumBits = t.sumBits.map (Prod.map id (·.rename π)) := by
  simp only [Topology.sumBits, h.sums, Array.toList_map, List.zipIdx_map, List.flatMap_map,
    List.map_flatMap, Prod.map, SumEquation.words_rename, h.wordBits, List.map_map,
    Function.comp_def, id_eq]

section

variable {readers readers' : Std.TreeMap Bit Readers}

def SameReaders (π : Equiv.Perm Nat) (readers readers' : Std.TreeMap Bit Readers) : Prop :=
  ∀ b : Bit, readers'[b.rename π]? = readers[b]?

theorem SameReaders.getD (h : SameReaders π readers readers') (b : Bit) :
    readers'.getD (b.rename π) {} = readers.getD b {} := by
  rw [Std.TreeMap.getD_eq_getD_getElem?, h b, Std.TreeMap.getD_eq_getD_getElem?]

theorem SameReaders.insert (h : SameReaders π readers readers') (b : Bit) (r : Readers) :
    SameReaders π (readers.insert b r) (readers'.insert (b.rename π) r) := by
  intro c
  simp only [Std.TreeMap.getElem?_insert, Std.LawfulEqCmp.compare_eq_iff_eq, Bit.rename_inj, h c]

theorem SameReaders.addSite (h : SameReaders π readers readers') (hzero : π zeroWord = zeroWord)
    (s : Site) (b : Bit) :
    SameReaders π (addSite readers s b) (addSite readers' s (b.rename π)) := by
  unfold Topology.addSite
  rw [Bit.isZero_rename hzero, h.getD b]
  split
  · exact h
  · dsimp only
    split
    · exact h
    · exact h.insert b _

theorem SameReaders.addSum (h : SameReaders π readers readers') (sum : Nat) (b : Bit) :
    SameReaders π (addSum readers sum b) (addSum readers' sum (b.rename π)) := by
  unfold Topology.addSum
  rw [h.getD b]
  dsimp only
  split
  · exact h
  · exact h.insert b _

theorem SameReaders.foldl {α : Type} {add : Std.TreeMap Bit Readers → α → Bit →
    Std.TreeMap Bit Readers} (hadd : ∀ {readers readers'}, SameReaders π readers readers' →
      ∀ x b, SameReaders π (add readers x b) (add readers' x (b.rename π)))
    (h : SameReaders π readers readers') (read : List (α × Bit)) :
    SameReaders π (read.foldl (fun r (x, b) => add r x b) readers)
      ((read.map (Prod.map id (·.rename π))).foldl (fun r (x, b) => add r x b) readers') := by
  induction read generalizing readers readers' with
  | nil => exact h
  | cons entry read ih => exact ih (hadd h entry.1 entry.2)

end

theorem Renamed.addReaders (h : t.Renamed π u) : t.addReaders.Renamed π u.addReaders := by
  refine { h with readers := ?_ }
  show SameReaders π _ _
  simp only [Topology.addReaders]
  rw [h.operationBits, h.sumBits]
  exact .foldl .addSum (.foldl (fun hs => hs.addSite h.zero) h.readers _) _

-- ---------------------------------------------------------------------------
-- The build
-- ---------------------------------------------------------------------------

theorem Renamed.contains_named (h : t.Renamed π u) (w : Word) :
    u.named.contains w = t.named.contains w := by
  rw [Std.TreeMap.contains_eq_isSome_getElem?, h.named, Option.isSome_map,
    ← Std.TreeMap.contains_eq_isSome_getElem?]

theorem Renamed.find?_keys (h : t.Renamed π u) {f : Word → Bool}
    (hf : t.named.keys.find? f = none) : u.named.keys.find? f = none := by
  simp only [List.find?_eq_none, Std.TreeMap.mem_keys, ← Std.TreeMap.contains_iff_mem] at hf ⊢
  exact fun w hw => hf w (h.contains_named w ▸ hw)

/-- An order that one topology takes is taken by the other. -/
theorem Renamed.build (h : t.Renamed π u) (ht : t.build order = .ok (.ok (), t')) :
    ∃ u', u.build order = .ok (.ok (), u') ∧ t'.Renamed π u' := by
  unfold Topology.build at ht ⊢
  rw [h.zeroAtoms]
  split at ht
  · cases ht
  · next hzero =>
    rw [if_neg hzero]
    split at ht
    · cases ht
    · next hfind =>
      rw [h.find?_keys hfind]
      obtain ⟨hresult, hadded⟩ := h.addSteps order (rounds order)
      split at ht
      · cases ht
      · next t₁ hsteps =>
        cases hrounds : t₁.addRounds ((List.range order).map Int.ofNat) with
        | error breach => simp [hrounds, bind, Except.bind] at ht
        | ok t₂ =>
          simp only [hrounds, bind, Except.bind, pure, Except.pure, Except.ok.injEq,
            Prod.mk.injEq, true_and] at ht
          rw [hsteps] at hresult hadded
          obtain ⟨u₁, hsteps'⟩ : ∃ u₁, u.addSteps order (rounds order) = (.ok (), u₁) :=
            ⟨(u.addSteps order (rounds order)).2, Prod.ext hresult rfl⟩
          rw [hsteps'] at hadded ⊢
          obtain ⟨u₂, hu, hrenamed⟩ := hadded.addRounds hrounds
          simp only [hu, bind, Except.bind, pure, Except.pure]
          exact ⟨_, rfl, ht ▸ { hrenamed.addReaders with order := rfl }⟩

end Topology

end ShaDiff
