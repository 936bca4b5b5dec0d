import ShaDiff.Memo
import ShaDiff.Proofs.Column.Idempotent

/-!
# A column propagated by counting

The selections of a column can be counted through: each input has a digit, which takes as many
values as the input allows pairs, and the first digit changes fastest. What survives is noted in
numbers, a digit for each pair that is seen at a position and a pattern with a digit for each
position that differs. Counting and selecting find the same survivors (`mem_counted`), so that the
numbers that are noted in the end make the outcome (`outcome?_count`).
-/

namespace ShaDiff

def Condition.ofMask (mask : Nat) : Condition := ⟨.ofNat 4 mask⟩

theorem Condition.ofMask_or (mask : Nat) (p : Pair) :
    ofMask (mask ||| 1 <<< p.index) = (ofMask mask).union (.only p) := by
  refine ext fun q => ?_
  have hq := q.index_lt
  rw [allows_union, allows_only, allows, allows, ofMask, ofMask, BitVec.getLsbD_ofNat,
    BitVec.getLsbD_ofNat, Nat.testBit_or, decide_eq_true hq, Bool.true_and, Bool.true_and,
    Nat.one_shiftLeft, Nat.testBit_two_pow]
  simp only [Pair.index_inj]

namespace Column

variable {g : Gate} {inputs outputs : List Condition} {ps : List Pair} {n : Nat}

-- ---------------------------------------------------------------------------
-- Counting
-- ---------------------------------------------------------------------------

/-- How many numbers have digits of the given bases. -/
def volume : List Nat → Nat
  | [] => 1
  | base :: bases => base * volume bases

/-- The digits of a number, the first one with the least weight. -/
def digits : List Nat → Nat → List Nat
  | [], _ => []
  | base :: bases, n => n % base :: digits bases (n / base)

def pick : List Condition → Nat → List Pair
  | [], _ => []
  | c :: cs, n => c.pairs.getD (n % c.pairs.length) ⟨false, false⟩ :: pick cs (n / c.pairs.length)

def bases (cs : List Condition) : List Nat := cs.map (·.pairs.length)

theorem length_pick (cs : List Condition) (n : Nat) : (pick cs n).length = cs.length := by
  induction cs generalizing n with
  | nil => rfl
  | cons c cs ih => rw [pick, List.length_cons, List.length_cons, ih]

theorem div_lt_volume {base : Nat} {bases : List Nat} (h : n < volume (base :: bases)) :
    n / base < volume bases :=
  Nat.div_lt_of_lt_mul h

theorem base_pos {base : Nat} {bases : List Nat} (h : n < volume (base :: bases)) : 0 < base := by
  rcases Nat.eq_zero_or_pos base with rfl | hpos
  · rw [volume, Nat.zero_mul] at h
    exact absurd h (Nat.not_lt_zero n)
  · exact hpos

theorem mem_counted {cs : List Condition} :
    (∃ n < volume (bases cs), pick cs n = ps) ↔ ps ∈ selections (cs.map (·.pairs)) := by
  induction cs generalizing ps with
  | nil =>
    have hone : ∃ n, n < volume (bases []) := ⟨0, by decide⟩
    simp [pick, selections, eq_comm, hone]
  | cons c cs ih =>
    rw [List.map_cons, mem_selections_cons]
    constructor
    · rintro ⟨n, hn, rfl⟩
      have hlt : n % c.pairs.length < c.pairs.length := Nat.mod_lt n (base_pos hn)
      refine ⟨_, ?_, _, ih.mp ⟨_, div_lt_volume hn, rfl⟩, rfl⟩
      rw [List.getD_eq_getElem?_getD, List.getElem?_eq_getElem hlt]
      exact List.getElem_mem hlt
    · rintro ⟨p, hp, r, hr, rfl⟩
      obtain ⟨m, hm, rfl⟩ := ih.mpr hr
      obtain ⟨i, hi, rfl⟩ := List.getElem_of_mem hp
      refine ⟨i + c.pairs.length * m, ?_, ?_⟩
      · calc i + c.pairs.length * m
          _ < c.pairs.length * (m + 1) := by rw [Nat.mul_succ]; omega
          _ ≤ volume (bases (c :: cs)) := Nat.mul_le_mul_left _ hm
      · have hpos : 0 < c.pairs.length := Nat.zero_lt_of_lt hi
        rw [pick, Nat.add_mul_mod_self_left, Nat.mod_eq_of_lt hi, Nat.add_mul_div_left _ _ hpos,
          Nat.div_eq_of_lt hi, Nat.zero_add, List.getD_eq_getElem?_getD,
          List.getElem?_eq_getElem hi]
        rfl

-- ---------------------------------------------------------------------------
-- Notes
-- ---------------------------------------------------------------------------

def withDigits : (place : Nat) → List Bool → Nat → Nat
  | _, [], m => m
  | place, b :: bs, m => withDigits (place + 1) bs (if b then m ||| 1 <<< place else m)

def withPairs (masks : List Nat) (ps : List Pair) : List Nat :=
  List.zipWith (fun mask p => mask ||| 1 <<< p.index) masks ps

def pattern (ps : List Pair) : Nat := withDigits 0 (ps.map (·.differs)) 0

def differences (positions m : Nat) : List Bool := (List.range positions).map m.testBit

theorem testBit_withDigits (place : Nat) (bs : List Bool) (m k : Nat) :
    (withDigits place bs m).testBit k =
      (m.testBit k || decide (place ≤ k) && bs.getD (k - place) false) := by
  induction bs generalizing place m with
  | nil => simp [withDigits]
  | cons b bs ih =>
    have hadded : (if b then m ||| 1 <<< place else m).testBit k =
        (m.testBit k || b && decide (place = k)) := by
      cases b
      · simp
      · simp [Nat.one_shiftLeft, Nat.testBit_two_pow]
    rw [withDigits, ih, hadded]
    rcases Nat.lt_trichotomy k place with hlt | rfl | hlt
    · simp [show ¬ place = k by omega, show ¬ place ≤ k by omega, show ¬ place + 1 ≤ k by omega]
    · simp
    · obtain ⟨d, rfl⟩ := Nat.exists_eq_add_of_lt hlt
      have hback : place + d + 1 - place = (place + d + 1 - (place + 1)) + 1 := by omega
      simp [hback, show place + 1 ≤ place + d + 1 by omega, show place ≤ place + d + 1 by omega,
        show ¬ place = place + d + 1 by omega]

theorem withDigits_append (place : Nat) (as bs : List Bool) (m : Nat) :
    withDigits place (as ++ bs) m = withDigits (place + as.length) bs (withDigits place as m) := by
  induction as generalizing place m with
  | nil => rfl
  | cons a as ih =>
    rw [List.cons_append, withDigits, ih, withDigits, List.length_cons, Nat.add_right_comm,
      Nat.add_assoc]

theorem differences_pattern (ps : List Pair) :
    differences ps.length (pattern ps) = ps.map (·.differs) := by
  refine List.ext_getElem (by simp [differences]) fun i hi _ => ?_
  have hi : i < ps.length := by simpa [differences] using hi
  simp [differences, pattern, testBit_withDigits, hi]

structure Notes where
  inputs : List Nat
  outputs : List Nat
  patterns : List Nat

namespace Notes

def blank (inputs outputs : Nat) : Notes := ⟨.replicate inputs 0, .replicate outputs 0, []⟩

def add (notes : Notes) (ps qs : List Pair) : Notes where
  inputs := withPairs notes.inputs ps
  outputs := withPairs notes.outputs qs
  patterns :=
    if notes.patterns.contains (pattern (ps ++ qs)) then notes.patterns
    else notes.patterns ++ [pattern (ps ++ qs)]

def outcome? (notes : Notes) : Option Outcome :=
  let positions := notes.inputs.length + notes.outputs.length
  if notes.patterns.isEmpty then none
  else some {
    inputs := notes.inputs.map .ofMask
    outputs := notes.outputs.map .ofMask
    relations := Relation.all (notes.patterns.map (differences positions)) positions }

structure Shows (notes : Notes) (arity places : Nat) (ss : List (List Pair)) : Prop where
  length_inputs : notes.inputs.length = arity
  length_outputs : notes.outputs.length = places
  masks : (notes.inputs ++ notes.outputs).map .ofMask = seen ss (arity + places)
  patterns : ∀ m, m ∈ notes.patterns ↔ ∃ s ∈ ss, pattern s = m

variable {notes : Notes} {qs : List Pair} {ss : List (List Pair)} {arity places : Nat}

theorem shows_blank (arity places : Nat) : (blank arity places).Shows arity places [] where
  length_inputs := List.length_replicate
  length_outputs := List.length_replicate
  masks := by
    rw [blank, List.replicate_append_replicate, List.map_replicate]
    rfl
  patterns m := by simp [blank]

theorem map_withPairs (masks : List Nat) (ps : List Pair) :
    (withPairs masks ps).map Condition.ofMask =
      List.zipWith (fun c p => c.union (.only p)) (masks.map Condition.ofMask) ps := by
  rw [withPairs, List.map_zipWith, List.zipWith_map_left]
  simp only [Condition.ofMask_or]

theorem Shows.add (h : notes.Shows arity places ss) (hps : ps.length = arity)
    (hqs : qs.length = places) : (notes.add ps qs).Shows arity places (ss ++ [ps ++ qs]) where
  length_inputs := by simp [Notes.add, withPairs, h.length_inputs, hps]
  length_outputs := by simp [Notes.add, withPairs, h.length_outputs, hqs]
  masks := by
    have hpairs : withPairs (notes.inputs ++ notes.outputs) (ps ++ qs) =
        withPairs notes.inputs ps ++ withPairs notes.outputs qs :=
      List.zipWith_append (h.length_inputs.trans hps.symm)
    rw [Notes.add, ← hpairs, map_withPairs, h.masks, seen, seen, List.foldl_append]
    rfl
  patterns m := by
    simp only [List.mem_append, List.mem_singleton, or_and_right, exists_or, exists_eq_left]
    rw [← h.patterns, Notes.add]
    split
    · next hmem =>
      rw [List.contains_iff_mem] at hmem
      exact ⟨.inl, fun hm => hm.elim id fun heq => heq ▸ hmem⟩
    · rw [List.mem_append, List.mem_singleton, eq_comm (a := m)]

end Notes

/-- Notes a selection of pairs of the inputs if it survives. -/
def tally (k : ColumnKey) (notes : Notes) (ps : List Pair) : Notes :=
  let qs := image k.gate k.outputs.length ps
  if allowed k.outputs qs then notes.add ps qs else notes

variable {k : ColumnKey} {notes : Notes} {ss : List (List Pair)}

def surviving (k : ColumnKey) (pss : List (List Pair)) : List (List Pair) :=
  pss.filterMap fun ps =>
    let qs := image k.gate k.outputs.length ps
    if allowed k.outputs qs then some (ps ++ qs) else none

theorem surviving_cons (k : ColumnKey) (ps : List Pair) (pss : List (List Pair)) :
    surviving k (ps :: pss) =
      (if allowed k.outputs (image k.gate k.outputs.length ps) then
        [ps ++ image k.gate k.outputs.length ps] else []) ++ surviving k pss := by
  simp only [surviving, List.filterMap_cons]
  split <;> simp_all

theorem shows_foldl {pss : List (List Pair)} (hpss : ∀ ps ∈ pss, ps.length = k.inputs.length)
    (h : notes.Shows k.inputs.length k.outputs.length ss) :
    (pss.foldl (tally k) notes).Shows k.inputs.length k.outputs.length (ss ++ surviving k pss) := by
  induction pss generalizing notes ss with
  | nil => rwa [surviving, List.filterMap_nil, List.append_nil]
  | cons ps pss ih =>
    obtain ⟨hps, hpss⟩ := List.forall_mem_cons.mp hpss
    rw [List.foldl_cons, surviving_cons, tally]
    split
    · rw [← List.append_assoc]
      exact ih hpss (h.add hps (length_image k.gate k.outputs.length ps))
    · exact ih hpss h

-- ---------------------------------------------------------------------------
-- Outcomes
-- ---------------------------------------------------------------------------

theorem seen_congr {ss ss' : List (List Pair)} (h : ∀ s, s ∈ ss ↔ s ∈ ss')
    (hl : ∀ s ∈ ss, s.length = n) : seen ss n = seen ss' n := by
  have hl' : ∀ s ∈ ss', s.length = n := fun s hs => hl s ((h s).mpr hs)
  refine List.ext_getElem ((length_seen hl).trans (length_seen hl').symm) fun i hi hi' => ?_
  have hlt : i < n := length_seen hl ▸ hi
  obtain ⟨c, hc, hallows⟩ := exists_getElem?_seen hl hlt
  obtain ⟨c', hc', hallows'⟩ := exists_getElem?_seen hl' hlt
  have hc := (List.getElem?_eq_some_iff.mp hc).2
  have hc' := (List.getElem?_eq_some_iff.mp hc').2
  rw [hc, hc']
  refine Condition.ext fun p => Bool.eq_iff_iff.mpr ?_
  simp only [hallows, hallows', h]

def counted (k : ColumnKey) : List (List Pair) :=
  (List.range (volume (bases k.inputs))).map (pick k.inputs)

theorem length_of_mem_counted (k : ColumnKey) : ∀ ps ∈ counted k, ps.length = k.inputs.length := by
  intro ps hps
  obtain ⟨n, -, rfl⟩ := List.mem_map.mp hps
  exact length_pick _ _

theorem mem_surviving_counted (k : ColumnKey) {s : List Pair} :
    s ∈ surviving k (counted k) ↔ s ∈ survivors k.gate k.inputs k.outputs := by
  simp only [surviving, survivors, counted, List.mem_filterMap, List.mem_map, List.mem_range,
    mem_counted]

theorem Notes.Shows.positions (h : notes.Shows k.inputs.length k.outputs.length ss) :
    notes.inputs.length + notes.outputs.length = k.inputs.length + k.outputs.length := by
  rw [h.length_inputs, h.length_outputs]

theorem Notes.Shows.outcome? (h : notes.Shows k.inputs.length k.outputs.length ss)
    (hss : ∀ s, s ∈ ss ↔ s ∈ survivors k.gate k.inputs k.outputs) :
    notes.outcome? = propagate k.gate k.inputs k.outputs := by
  have hlength : ∀ s ∈ ss, s.length = k.inputs.length + k.outputs.length :=
    fun s hs => length_of_mem_survivors ((hss s).mp hs)
  have hempty : notes.patterns.isEmpty = (survivors k.gate k.inputs k.outputs).isEmpty := by
    rw [Bool.eq_iff_iff, List.isEmpty_iff, List.isEmpty_iff, List.eq_nil_iff_forall_not_mem,
      List.eq_nil_iff_forall_not_mem]
    refine ⟨fun hnone s hs => hnone _ ((h.patterns _).mpr ⟨s, (hss s).mpr hs, rfl⟩),
      fun hnone m hm => ?_⟩
    obtain ⟨s, hs, -⟩ := (h.patterns m).mp hm
    exact hnone s ((hss s).mp hs)
  rw [Notes.outcome?, propagate, hempty, h.positions]
  dsimp only
  split
  · rfl
  · next hne =>
    have hmasks := h.masks
    rw [List.map_append, seen_congr hss hlength] at hmasks
    have hinputs : (notes.inputs.map Condition.ofMask).length = k.inputs.length := by
      rw [List.length_map, h.length_inputs]
    rw [← hmasks, List.take_left' hinputs, List.drop_left' hinputs]
    congr 2
    refine Relation.all_congr ?_ fun bs => ?_
    · rw [← hempty, List.isEmpty_iff] at hne
      exact mt List.map_eq_nil_iff.mp hne
    · have hview {s : List Pair} (hs : s ∈ ss) :
          differences (k.inputs.length + k.outputs.length) (pattern s) = s.map (·.differs) :=
        hlength s hs ▸ differences_pattern s
      simp only [List.mem_map, h.patterns]
      constructor
      · rintro ⟨-, ⟨s, hs, rfl⟩, rfl⟩
        exact ⟨s, (hss s).mp hs, (hview hs).symm⟩
      · rintro ⟨s, hs, rfl⟩
        exact ⟨_, ⟨s, (hss s).mpr hs, rfl⟩, hview ((hss s).mpr hs)⟩

/-- A column is propagated by counting through its selections. -/
theorem outcome?_count (k : ColumnKey) :
    ((counted k).foldl (tally k) (.blank k.inputs.length k.outputs.length)).outcome? =
      propagate k.gate k.inputs k.outputs := by
  have hblank := Notes.shows_blank k.inputs.length k.outputs.length
  have hshows := shows_foldl (length_of_mem_counted k) hblank
  exact hshows.outcome? fun s => mem_surviving_counted k

end Column

end ShaDiff
