import ShaDiff.Proofs.Topology.Build

/-!
# Who reads a bit, and what a column reads

A built topology lists with each bit all columns and sums that read it (`Indexed`). No
column writes a bit of the zero word, and each reads so many bits of other words that all
its outputs but the highest carry may be anything as long as nothing is known (`Fed`).
-/

namespace ShaDiff

/-- The number of free inputs with which an output can be anything. The highest carry of
an addition comes first. -/
def Gate.demand (g : Gate) (output : Nat) : Nat :=
  match g with
  | xor3 => 1
  | maj | ch => 3
  | add _ => 1 <<< (g.width - 1 - output)

theorem Gate.demand_le (g : Gate) {output : Nat} (h : output ≠ 0) :
    g.demand output ≤ g.demand 1 := by
  cases g with
  | add n =>
    simp only [Gate.demand, Nat.one_shiftLeft]
    exact Nat.pow_le_pow_right (by decide) (by omega)
  | _ => exact Nat.le_refl _

namespace Topology

variable {t t' : Topology} {readers : Std.TreeMap Bit Readers} {s u : Site} {b c : Bit} {i : Nat}

-- ---------------------------------------------------------------------------
-- Lists that take each entry once
-- ---------------------------------------------------------------------------

section

variable {α : Type} [DecidableEq α]

def addOnce (l : List α) (a : α) : List α := if a ∈ l then l else l ++ [a]

theorem mem_addOnce {l : List α} {a x : α} : x ∈ addOnce l a ↔ x = a ∨ x ∈ l := by
  unfold addOnce
  split <;> grind

theorem mem_foldl_addOnce {l : List α} {x : α} (as : List α) :
    x ∈ as.foldl addOnce l ↔ x ∈ as ∨ x ∈ l := by
  induction as generalizing l with
  | nil => simp
  | cons a as ih =>
    rw [List.foldl_cons, ih, mem_addOnce, List.mem_cons]
    exact or_left_comm.trans or_assoc.symm

end

-- ---------------------------------------------------------------------------
-- Adding readers
-- ---------------------------------------------------------------------------

theorem sites_addSite : ((addSite readers s b).getD c {}).sites =
    if b = c ∧ c.isZero = false then addOnce (readers.getD c {}).sites s
    else (readers.getD c {}).sites := by
  unfold addSite addOnce
  cases hb : b.isZero with
  | true => grind
  | false =>
    simp only [List.contains_iff_mem, Bool.false_eq_true, if_false]
    split
    · grind
    · rw [Std.TreeMap.getD_insert]
      simp only [Std.LawfulEqCmp.compare_eq_iff_eq]
      split <;> grind

theorem sums_addSum {sum : Nat} : ((addSum readers sum b).getD c {}).sums =
    if b = c then addOnce (readers.getD c {}).sums sum else (readers.getD c {}).sums := by
  unfold addSum addOnce
  simp only [List.contains_iff_mem]
  split
  · grind
  · rw [Std.TreeMap.getD_insert]
    simp only [Std.LawfulEqCmp.compare_eq_iff_eq]
    split <;> grind

theorem sites_addSum {sum : Nat} :
    ((addSum readers sum b).getD c {}).sites = (readers.getD c {}).sites := by
  unfold addSum
  dsimp only
  split
  · rfl
  · rw [Std.TreeMap.getD_insert]
    split
    · next heq => rw [Std.LawfulEqCmp.compare_eq_iff_eq.mp heq]
    · rfl

theorem sums_addSite :
    ((addSite readers s b).getD c {}).sums = (readers.getD c {}).sums := by
  unfold addSite
  dsimp only
  split
  · rfl
  · split
    · rfl
    · rw [Std.TreeMap.getD_insert]
      split
      · next heq => rw [Std.LawfulEqCmp.compare_eq_iff_eq.mp heq]
      · rfl

theorem sites_foldl_addSite (read : List (Site × Bit)) :
    ((read.foldl (fun r (s, b) => addSite r s b) readers).getD c {}).sites =
      ((read.filter fun x => x.2 = c ∧ c.isZero = false).map (·.1)).foldl addOnce
        (readers.getD c {}).sites := by
  induction read generalizing readers with
  | nil => rfl
  | cons x read ih =>
    rw [List.foldl_cons, ih, sites_addSite, List.filter_cons]
    simp only [decide_eq_true_eq]
    split <;> rfl

theorem mem_sites_foldl_addSite (read : List (Site × Bit)) :
    u ∈ ((read.foldl (fun r (s, b) => addSite r s b) readers).getD c {}).sites ↔
      (u, c) ∈ read ∧ c.isZero = false ∨ u ∈ (readers.getD c {}).sites := by
  rw [sites_foldl_addSite, mem_foldl_addOnce]
  simp only [List.mem_map, List.mem_filter, decide_eq_true_eq]
  constructor
  · rintro (⟨x, ⟨hx, rfl, hzero⟩, rfl⟩ | hu)
    · exact .inl ⟨hx, hzero⟩
    · exact .inr hu
  · exact Or.imp_left fun ⟨hread, hzero⟩ => ⟨(u, c), ⟨hread, rfl, hzero⟩, rfl⟩

theorem sites_foldl_addSum (read : List (Nat × Bit)) :
    ((read.foldl (fun r (s, b) => addSum r s b) readers).getD c {}).sites =
      (readers.getD c {}).sites := by
  induction read generalizing readers with
  | nil => rfl
  | cons x read ih => exact ih.trans sites_addSum

theorem sums_foldl_addSite (read : List (Site × Bit)) :
    ((read.foldl (fun r (s, b) => addSite r s b) readers).getD c {}).sums =
      (readers.getD c {}).sums := by
  induction read generalizing readers with
  | nil => rfl
  | cons x read ih => exact ih.trans sums_addSite

theorem sums_foldl_addSum (read : List (Nat × Bit)) :
    ((read.foldl (fun r (s, b) => addSum r s b) readers).getD c {}).sums =
      ((read.filter (·.2 = c)).map (·.1)).foldl addOnce (readers.getD c {}).sums := by
  induction read generalizing readers with
  | nil => rfl
  | cons x read ih =>
    rw [List.foldl_cons, ih, sums_addSum, List.filter_cons]
    simp only [decide_eq_true_eq]
    split <;> rfl

theorem mem_sums_foldl_addSum (read : List (Nat × Bit)) :
    i ∈ ((read.foldl (fun r (s, b) => addSum r s b) readers).getD c {}).sums ↔
      (i, c) ∈ read ∨ i ∈ (readers.getD c {}).sums := by
  rw [sums_foldl_addSum, mem_foldl_addOnce]
  simp only [List.mem_map, List.mem_filter, decide_eq_true_eq]
  constructor
  · rintro (⟨x, ⟨hx, rfl⟩, rfl⟩ | hi)
    · exact .inl hx
    · exact .inr hi
  · exact Or.imp_left fun hread => ⟨(i, c), ⟨hread, rfl⟩, rfl⟩

-- ---------------------------------------------------------------------------
-- Readers of a built topology
-- ---------------------------------------------------------------------------

theorem mem_operationBits : (s, b) ∈ t.operationBits ↔ ∃ o, t.operations[s.operation]? = some o ∧
    s.column < t.wordSize ∧ b ∈ t.inputBits o s.column ++ t.outputBits o s.column := by
  simp only [operationBits, List.mem_flatMap, List.mem_map, Prod.mk.injEq, Prod.exists,
    List.mem_zipIdx_iff_getElem?, List.mem_range, Array.getElem?_toList]
  constructor
  · rintro ⟨o, operation, ho, column, hcolumn, b, hb, rfl, rfl⟩
    exact ⟨o, ho, hcolumn, hb⟩
  · rintro ⟨o, ho, hcolumn, hb⟩
    exact ⟨o, s.operation, ho, s.column, hcolumn, b, hb, rfl, rfl⟩

theorem mem_sumBits : (i, b) ∈ t.sumBits ↔
    ∃ s, t.sums[i]? = some s ∧ b ∈ s.words.flatMap t.wordBits := by
  simp only [sumBits, List.mem_flatMap, List.mem_map, Prod.mk.injEq, Prod.exists,
    List.mem_zipIdx_iff_getElem?, Array.getElem?_toList]
  constructor
  · rintro ⟨s, _, hs, w, hw, b, hb, rfl, rfl⟩
    exact ⟨s, hs, w, hw, hb⟩
  · rintro ⟨s, hs, w, hw, hb⟩
    exact ⟨s, i, hs, w, hw, b, hb, rfl, rfl⟩

/-- Whether every column and sum is listed with the bits it reads, those of the zero word
apart. -/
structure Indexed (t : Topology) : Prop where
  site : ∀ {s b}, (s, b) ∈ t.operationBits → b.isZero = false → s ∈ (t.readersOf b).sites
  sum : ∀ {i b}, (i, b) ∈ t.sumBits → i ∈ (t.readersOf b).sums

theorem indexed_addReaders (t : Topology) : t.addReaders.Indexed where
  site {s b} hread hb := by
    show s ∈ (t.addReaders.readers.getD b {}).sites
    unfold addReaders
    dsimp only
    rw [sites_foldl_addSum, mem_sites_foldl_addSite]
    exact .inl ⟨hread, hb⟩
  sum {i b} hread := by
    show i ∈ (t.addReaders.readers.getD b {}).sums
    unfold addReaders
    dsimp only
    rw [mem_sums_foldl_addSum]
    exact .inl hread

/-- The entry that builds a topology lists the readers, and entries after it change nothing. -/
theorem Indexed.of_enter {name : String} {value : Int} {result : Except Fault Unit}
    (hindexed : t.isBuilt = true → t.Indexed) (h : t.enter name value = .ok (result, t'))
    (hb : t'.isBuilt = true) : t'.Indexed := by
  cases hopen : t.isBuilt with
  | true =>
    rw [enter_of_isBuilt hopen, Except.ok.injEq, Prod.mk.injEq] at h
    exact h.2 ▸ hindexed hopen
  | false =>
    have hnone : t.order = none := by simpa [isBuilt] using hopen
    rcases enter_cases h with rfl | ⟨atoms, -, rfl⟩ | ⟨w, column, filled, -, hfill⟩ |
      ⟨order, -, hbuild⟩
    · simp [hopen] at hb
    · simp [isBuilt, hnone] at hb
    · have hnamed : (t.nameWord w).2.order = none := by
        unfold nameWord
        split <;> exact hnone
      have hfilled := fillSlots_induction (P := fun t => t.order = none)
        (b := ⟨(t.nameWord w).1, column⟩) (fun h _ => h) hnamed filled
      rw [hfill] at hfilled
      have hfilled : t'.order = none := hfilled
      simp [isBuilt, hfilled] at hb
    · cases result with
      | ok =>
        obtain ⟨-, t₁, t₂, -, -, rfl⟩ := build_ok hbuild
        have hlisted := indexed_addReaders t₂
        exact ⟨hlisted.site, hlisted.sum⟩
      | error fault =>
        obtain ⟨words, steps, hframe⟩ := t.addSteps_frame order (rounds order)
        rcases build_error hbuild with ⟨rfl, -⟩ | ⟨-, rfl⟩
        · simp [hopen] at hb
        · simp [hframe, isBuilt, hnone] at hb

-- ---------------------------------------------------------------------------
-- What columns read and write
-- ---------------------------------------------------------------------------

/-- Whether an operation writes words that are there, and reads enough bits of such words
at each column. -/
structure Fed (size : Nat) (o : Operation) : Prop where
  outputs : ∀ v ∈ o.outputs, ∃ w, v = .whole w ∧ w ≠ zeroWord
  inputs : ∀ j, o.gate.demand 1 ≤ (o.inputs.map (·.bit size j)).countP (!·.isZero)
  arity : o.inputs.length = o.gate.arity

section

variable {word : Role → (back : Nat) → Nat} {size : Nat} {round : Int}

theorem isZero_whole {w : Nat} (hw : w ≠ zeroWord) (j : Nat) :
    ((View.whole w).bit size j).isZero = false := beq_eq_false_iff_ne.mpr hw

theorem isZero_rotation {w : Nat} (hw : w ≠ zeroWord) (amount j : Nat) :
    ((rotation size w amount).bit size j).isZero = false := beq_eq_false_iff_ne.mpr hw

theorem fed_xorOf {role : Role} (hword : word role 0 ≠ zeroWord) {w : Nat} (hw : w ≠ zeroWord)
    (amount : Nat) (v v' : View) :
    Fed size (xorOf word round role [rotation size w amount, v, v']) where
  outputs u hu := ⟨_, List.mem_singleton.mp hu, hword⟩
  inputs j := by
    show 1 ≤ _
    simp [xorOf, isZero_rotation hw]
  arity := rfl

theorem fed_of_whole {g : Gate} {role : Role} (ws outs : List Nat) (rest : List View)
    (hws : ∀ w ∈ ws, w ≠ zeroWord) (houts : ∀ w ∈ outs, w ≠ zeroWord)
    (hdemand : g.demand 1 ≤ ws.length) (harity : ws.length + rest.length = g.arity) :
    Fed size ⟨g, round, role, ws.map .whole ++ rest, outs.map .whole⟩ where
  outputs v hv := by
    obtain ⟨w, hw, rfl⟩ := List.mem_map.mp hv
    exact ⟨w, rfl, houts w hw⟩
  inputs j := by
    have hall : (ws.map fun w => (View.whole w).bit size j).countP (!·.isZero) = ws.length := by
      rw [List.countP_map, List.countP_eq_length]
      intro w hw
      simp [isZero_whole (hws w hw)]
    rw [List.map_append, List.countP_append, List.map_map]
    exact Nat.le_trans hdemand (hall ▸ Nat.le_add_right _ _)
  arity := by simpa using harity

variable (hround : 0 ≤ round)
  (hword : ∀ r (k : Nat), r ≠ .zero → r.since ≤ round - k → word r k ≠ zeroWord)

include hround hword

theorem fed_functionOperations : ∀ o ∈ functionOperations word size round, Fed size o := by
  have hw (r : Role) (k : Nat) (hr : r = .a ∨ r = .e) (hk : k ≤ 4) : word r k ≠ zeroWord := by
    rcases hr with rfl | rfl <;> exact hword _ k (by decide) (by simp only [Role.since]; omega)
  have hnew (r : Role) (hzero : r ≠ .zero) (hr : r.since = 0) : word r 0 ≠ zeroWord :=
    hword r 0 hzero (by omega)
  simp only [functionOperations, List.forall_mem_cons]
  refine ⟨?_, ?_, ?_, ?_, List.forall_mem_nil _⟩
  case refine_1 => exact fed_xorOf (hnew _ (by decide) rfl) (hw .a 1 (.inl rfl) (by decide)) _ _ _
  case refine_2 => exact fed_xorOf (hnew _ (by decide) rfl) (hw .e 1 (.inr rfl) (by decide)) _ _ _
  case refine_3 =>
    refine fed_of_whole [word .a 1, word .a 2, word .a 3] [word .maj 0] [] ?_ ?_
      (Nat.le_refl 3) rfl
    · simp (disch := decide) [hw]
    · simp (disch := decide) [hnew]
  case refine_4 =>
    refine fed_of_whole [word .e 1, word .e 2, word .e 3] [word .ch 0] [] ?_ ?_
      (Nat.le_refl 3) rfl
    · simp (disch := decide) [hw]
    · simp (disch := decide) [hnew]

theorem fed_registerOperations : ∀ o ∈ registerOperations word round, Fed size o := by
  have hold (r : Role) (hr : r = .a ∨ r = .e) : word r 4 ≠ zeroWord := by
    rcases hr with rfl | rfl <;> exact hword _ 4 (by decide) (by simp only [Role.since]; omega)
  have hnew (r : Role) (hzero : r ≠ .zero) (hr : r.since ≤ 0) : word r 0 ≠ zeroWord :=
    hword r 0 hzero (by omega)
  simp only [registerOperations, List.forall_mem_cons]
  refine ⟨?_, ?_, ?_, List.forall_mem_nil _⟩
  case refine_1 =>
    refine fed_of_whole [word .e 4, word .bigSigma1 0, word .ch 0, word .k 0, word .w 0]
      [word .tCarry2 0, word .tCarry 0, word .t 0]
      [.raised (word .tCarry 0) 1, .raised (word .tCarry2 0) 2] ?_ ?_ (show _ ≤ 5 by decide) rfl
    · simp (disch := decide) [hold, hnew]
    · simp (disch := decide) [hnew]
  case refine_2 =>
    refine fed_of_whole [word .a 4, word .t 0] [word .eCarry 0, word .e 0]
      [.raised (word .eCarry 0) 1] ?_ ?_ (show _ ≤ 2 by decide) rfl
    · simp (disch := decide) [hold, hnew]
    · simp (disch := decide) [hnew]
  case refine_3 =>
    refine fed_of_whole [word .t 0, word .bigSigma0 0, word .maj 0]
      [word .aCarry2 0, word .aCarry 0, word .a 0]
      [.raised (word .aCarry 0) 1, .raised (word .aCarry2 0) 2] ?_ ?_ (show _ ≤ 3 by decide) rfl
    · simp (disch := decide) [hnew]
    · simp (disch := decide) [hnew]

omit hround in
theorem fed_messageOperations (hmin : 16 ≤ round) :
    ∀ o ∈ messageOperations word size round, Fed size o := by
  have hw (k : Nat) (hk : k ≤ 16) : word .w k ≠ zeroWord :=
    hword _ k (by decide) (by simp only [Role.since]; omega)
  have hnew (r : Role) (hzero : r ≠ .zero) (hr : r.since ≤ 16) : word r 0 ≠ zeroWord :=
    hword r 0 hzero (by omega)
  simp only [messageOperations, List.forall_mem_cons]
  refine ⟨?_, ?_, ?_, List.forall_mem_nil _⟩
  case refine_1 => exact fed_xorOf (hnew _ (by decide) (by decide)) (hw 15 (by decide)) _ _ _
  case refine_2 => exact fed_xorOf (hnew _ (by decide) (by decide)) (hw 2 (by decide)) _ _ _
  case refine_3 =>
    refine fed_of_whole [word .smallSigma1 0, word .w 7, word .smallSigma0 0, word .w 16]
      [word .wCarry2 0, word .wCarry 0, word .w 0]
      [.raised (word .wCarry 0) 1, .raised (word .wCarry2 0) 2] ?_ ?_ (show _ ≤ 4 by decide) rfl
    · simp (disch := decide) [hw, hnew]
    · simp (disch := decide) [hw, hnew]

theorem fed_operationsOfRound : ∀ o ∈ operationsOfRound word size round, Fed size o := by
  simp only [operationsOfRound, List.forall_mem_append]
  refine ⟨⟨fed_functionOperations hround hword, ?_⟩, fed_registerOperations hround hword⟩
  split
  · next hmin => exact fed_messageOperations hword hmin
  · exact List.forall_mem_nil _

theorem words_sumsOfRound : ∀ s ∈ sumsOfRound word round,
    s.positive ≠ [] ∧ s.negative ≠ [] ∧ ∀ w ∈ s.words, w ≠ zeroWord := by
  have hnew (r : Role) (hzero : r ≠ .zero) (hr : r.since ≤ 0) : word r 0 ≠ zeroWord :=
    hword r 0 hzero (by omega)
  have hold (r : Role) (hr : r = .a ∨ r = .e) : word r 4 ≠ zeroWord := by
    rcases hr with rfl | rfl <;> exact hword _ 4 (by decide) (by simp only [Role.since]; omega)
  simp only [sumsOfRound, List.forall_mem_append, List.forall_mem_cons]
  refine ⟨?_, ?_, ?_, ?_, List.forall_mem_nil _⟩
  · split
    · next hmin =>
      have hw (k : Nat) (hk : k ≤ 16) : word .w k ≠ zeroWord :=
        hword _ k (by decide) (by simp only [Role.since]; omega)
      have hlate (r : Role) (hzero : r ≠ .zero) (hr : r.since ≤ 16) : word r 0 ≠ zeroWord :=
        hword r 0 hzero (by omega)
      simp (disch := decide) [SumEquation.words, or_imp, forall_and, hw, hlate]
    · exact List.forall_mem_nil _
  all_goals simp (disch := decide) [SumEquation.words, hnew, hold]

end

theorem Built.back_ne_zeroWord {order i : Nat} (h : t.Built order) (hi : i < order) (r : Role)
    (k : Nat) (hr : r ≠ .zero) (hsince : r.since ≤ Int.ofNat i - k) :
    back t.wordOf (Int.ofNat i) r k ≠ zeroWord := by
  have happlicable : r.applicable (Int.ofNat i - k) order = true :=
    (Role.applicable_iff h.le_max).mpr ⟨hr, hsince, by rw [Int.ofNat_eq_natCast]; omega⟩
  obtain ⟨w, hw, hne, -⟩ := h.stepWord happlicable
  rw [back, wordOf, hw]
  exact hne

theorem Built.fed {order : Nat} (h : t.Built order) {o : Operation} (ho : o ∈ t.operations) :
    Fed t.wordSize o := by
  rw [← Array.mem_toList_iff, h.operations] at ho
  obtain ⟨_, hround, ho⟩ := List.mem_flatMap.mp ho
  obtain ⟨i, hi, rfl⟩ := List.mem_map.mp hround
  exact fed_operationsOfRound (Int.natCast_nonneg i)
    (h.back_ne_zeroWord (List.mem_range.mp hi)) o ho

theorem Built.sumWords {order : Nat} (h : t.Built order) {s : SumEquation} (hs : s ∈ t.sums) :
    s.positive ≠ [] ∧ s.negative ≠ [] ∧ ∀ w ∈ s.words, w ≠ zeroWord := by
  rw [← Array.mem_toList_iff, h.sums] at hs
  obtain ⟨_, hround, hs⟩ := List.mem_flatMap.mp hs
  obtain ⟨i, hi, rfl⟩ := List.mem_map.mp hround
  exact words_sumsOfRound (Int.natCast_nonneg i)
    (h.back_ne_zeroWord (List.mem_range.mp hi)) s hs

end Topology

end ShaDiff
