import ShaDiff.Proofs.Column.Counter
import ShaDiff.Proofs.Guarded.Relation
import ShaDiff.Proofs.Propagator.Memory

/-!
# Guarded propagation of columns

The pairs that each input allows stand in a list, and a counter has an index into each of these. A
step reads the pairs at the counter, evaluates the gate in both instances and notes what survives,
all of it by index; then the counter advances, until it runs over. As indices stay below the bases
of the counter (`advance_eq`), all selections are counted through (`combinations_eq`), and the
numbers that are noted give the outcome of the column (`column_eq`).
-/

namespace ShaDiff.Guarded

open Column (Notes digits volume withDigits withPairs)

-- ---------------------------------------------------------------------------
-- Definitions
-- ---------------------------------------------------------------------------

def maskWidth : Nat := 8

def patternWidth : Nat := 16

/-- A gate reads three places and writes one. An addition writes the digits of its sum. -/
def evaluate (g : Gate) (inputs outputs : Nat) : Except Panic Unit :=
  match g with
  | .add _ => (List.range outputs).forM fun i => do
    let last ← less outputs 1
    let digit ← less last i
    shift digit 64
  | _ => do
    within 2 inputs
    within 0 outputs

def places (c : Condition) : Except Panic (List Nat) :=
  (List.range Pair.all.length).filterM fun i => do
    shift i maskWidth
    return c.mask.getLsbD i

def pairsAt (inputs : Nat) (options : List (List Nat)) (counter : List Nat) :
    Except Panic (List Pair) :=
  counter.zipIdx.mapM fun (option, index) => do
    within index inputs
    let place ← read (← read options index) option
    read Pair.all place

def imagesAt (first second : List Bool) (outputs : Nat) : Except Panic (List Pair) :=
  (List.range outputs).mapM fun index => do return ⟨← read first index, ← read second index⟩

def notePair (offset : Nat) (masks : List Nat) (pattern : Nat) (p : Pair) (index : Nat) :
    Except Panic (List Nat × Nat) := do
  shift p.index maskWidth
  let masks ← write masks index ((← read masks index) ||| 1 <<< p.index)
  if p.differs then
    shift (offset + index) patternWidth
    return (masks, pattern ||| 1 <<< (offset + index))
  else return (masks, pattern)

def notePairs (offset : Nat) (masks : List Nat) (pattern : Nat) (ps : List Pair) :
    Except Panic (List Nat × Nat) :=
  ps.zipIdx.foldlM (fun (masks, pattern) (p, index) => notePair offset masks pattern p index)
    (masks, pattern)

def allows (outputs : List Condition) (first second : List Bool) : Except Panic Bool :=
  outputs.zipIdx.allM fun (c, index) => do
    return c.allows ⟨← read first index, ← read second index⟩

def combine (k : ColumnKey) (options : List (List Nat)) (counter : List Nat) (notes : Notes) :
    Except Panic Notes := do
  let ps ← pairsAt k.inputs.length options counter
  evaluate k.gate k.inputs.length k.outputs.length
  let first := k.gate.write k.outputs.length (ps.map (·.first))
  let second := k.gate.write k.outputs.length (ps.map (·.second))
  if ← allows k.outputs first second then
    let (inputs, pattern) ← notePairs 0 notes.inputs 0 (← pairsAt k.inputs.length options counter)
    let images ← imagesAt first second k.outputs.length
    let (outputs, pattern) ← notePairs k.inputs.length notes.outputs pattern images
    let patterns :=
      if notes.patterns.contains pattern then notes.patterns else notes.patterns ++ [pattern]
    return { inputs, outputs, patterns }
  else return notes

/-- The next counter. An index that reaches its base starts again, and the one after it moves. -/
def advance (options : List (List Nat)) : (index : Nat) → List Nat →
    Except Panic (Option (List Nat))
  | _, [] => .ok none
  | index, option :: counter => do
    if option + 1 < (← read options index).length then return some ((option + 1) :: counter)
    else
      let later ← advance options (index + 1) counter
      return later.map (0 :: ·)

def combinations (k : ColumnKey) (options : List (List Nat)) : (steps : Nat) → List Nat → Notes →
    Except Panic Notes
  | 0, _, _ => .error .endless
  | steps + 1, counter, notes => do
    let notes ← combine k options counter notes
    match ← advance options 0 counter with
    | none => return notes
    | some counter => combinations k options steps counter notes

def patternDigit (pattern p : Nat) : Except Panic Bool := do
  shift p patternWidth
  return pattern.testBit p

def freePlaces (patterns : List Nat) (positions : Nat) : Except Panic (List Nat) :=
  let always := patterns.foldl (· &&& ·) (1 <<< patternWidth - 1)
  let sometimes := patterns.foldl (· ||| ·) 0
  (List.range positions).filterM fun p => do
    return (← patternDigit sometimes p) && !(← patternDigit always p)

def patternRelations (patterns : List Nat) (positions : Nat) : Except Panic (List Relation) := do
  let free ← freePlaces patterns positions
  relations patternDigit patterns free

/-- There is a step for each combination. -/
def column (k : ColumnKey) : Except Panic (Option Column.Outcome) := do
  let positions := k.inputs.length + k.outputs.length
  unbreached (if positions ≤ Column.positionsMax then .ok () else .error (.columnTooWide positions))
  let options ← k.inputs.mapM places
  if options.any List.isEmpty then return none
  else
    let notes ← combinations k options (volume (options.map List.length))
      (List.replicate k.inputs.length 0) (.blank k.inputs.length k.outputs.length)
    if notes.patterns.isEmpty then return none
    else
      let relations ← patternRelations notes.patterns positions
      return some {
        inputs := notes.inputs.map .ofMask
        outputs := notes.outputs.map .ofMask
        relations }

-- ---------------------------------------------------------------------------
-- Combinations
-- ---------------------------------------------------------------------------

theorem evaluate_eq {g : Gate} {inputs outputs : Nat} (hinputs : inputs = g.arity)
    (houtputs : outputs = g.width) (hpos : 1 ≤ g.width) (hroom : g.width ≤ 64) :
    evaluate g inputs outputs = .ok () := by
  subst hinputs houtputs
  cases g with
  | add n =>
    refine forM_eq fun i hi => ?_
    have hi := List.mem_range.mp hi
    rw [less_eq hpos, ok_bind, less_eq (Nat.le_sub_one_of_lt hi), ok_bind]
    exact shift_eq (by omega)
  | _ => rfl

def optionsOf (c : Condition) : List Nat := (List.range Pair.all.length).filter (c.mask.getLsbD ·)

theorem places_eq (c : Condition) : places c = .ok (optionsOf c) :=
  filterM_eq fun i hi => by
    have hi : i < 4 := List.mem_range.mp hi
    rw [shift_eq (show i < maskWidth by unfold maskWidth; omega), ok_bind, pure_eq_ok]

theorem pairs_eq_map (c : Condition) :
    c.pairs = (optionsOf c).map fun i => Pair.all.getD i ⟨false, false⟩ := by
  rcases c with ⟨c⟩
  revert c
  decide

theorem lt_of_mem_optionsOf {c : Condition} {i : Nat} (h : i ∈ optionsOf c) :
    i < Pair.all.length :=
  List.mem_range.mp (List.mem_filter.mp h).1

theorem read_option {c : Condition} {option : Nat} (h : option < c.pairs.length) :
    (read (optionsOf c) option >>= read Pair.all) = .ok (c.pairs.getD option ⟨false, false⟩) := by
  have hoption : option < (optionsOf c).length := by rwa [pairs_eq_map, List.length_map] at h
  have hplace := lt_of_mem_optionsOf (List.getElem_mem hoption)
  have hpair : c.pairs.getD option ⟨false, false⟩ =
      Pair.all.getD (optionsOf c)[option] ⟨false, false⟩ := by
    rw [List.getD_eq_getElem?_getD, List.getElem?_eq_getElem h]
    simp only [pairs_eq_map c, List.getElem_map, Option.getD_some]
  rw [read_eq (List.getElem?_eq_getElem hoption), ok_bind, read_getD hplace ⟨false, false⟩, hpair]

theorem pairsAt_eq {cs : List Condition} {n : Nat} (hn : n < volume (Column.bases cs)) :
    pairsAt cs.length (cs.map optionsOf) (digits (Column.bases cs) n) = .ok (Column.pick cs n) := by
  have hrest (before rest : List Condition) (n : Nat) (hn : n < volume (Column.bases rest)) :
      ((digits (Column.bases rest) n).zipIdx before.length).mapM (fun (option, index) => do
        within index (before ++ rest).length
        let place ← read (← read ((before ++ rest).map optionsOf) index) option
        read Pair.all place) = .ok (Column.pick rest n) := by
    induction rest generalizing before n with
    | nil => rfl
    | cons c rest ih =>
      have hlater := ih (before ++ [c]) _ (Column.div_lt_volume hn)
      have hlength : (before ++ [c]).length = before.length + 1 := List.length_append
      rw [← List.append_cons, hlength] at hlater
      have hin : before.length < (before ++ c :: rest).length := by simp
      have hoptions : read ((before ++ c :: rest).map optionsOf) before.length =
          .ok (optionsOf c) := read_eq (by simp)
      have hpair := read_option (Nat.mod_lt n (Column.base_pos hn))
      rw [Column.bases, List.map_cons, digits, List.zipIdx_cons, List.mapM_cons]
      dsimp only
      rw [within_eq hin, ok_bind, hoptions, ok_bind, hpair, ok_bind, ← Column.bases, hlater,
        ok_bind]
      rfl
  exact hrest [] cs n hn

theorem notePair_eq {offset : Nat} {before : List Nat}
    (hroom : offset + before.length < patternWidth) (masks : List Nat) (mask pattern : Nat)
    (p : Pair) : notePair offset (before ++ mask :: masks) pattern p before.length =
      .ok (before ++ (mask ||| 1 <<< p.index) :: masks,
        if p.differs then pattern ||| 1 <<< (offset + before.length) else pattern) := by
  have hpair : p.index < maskWidth := Nat.lt_trans p.index_lt (by decide)
  rw [notePair, shift_eq hpair, ok_bind, read_append, ok_bind, write_append, ok_bind]
  split
  · rw [shift_eq hroom, ok_bind, pure_eq_ok]
  · rfl

theorem notePairs_eq {offset : Nat} {masks : List Nat} {ps : List Pair}
    (hlength : ps.length = masks.length) (hroom : offset + ps.length ≤ patternWidth)
    (pattern : Nat) : notePairs offset masks pattern ps =
      .ok (withPairs masks ps, withDigits offset (ps.map (·.differs)) pattern) := by
  have hrest (before masks : List Nat) (ps : List Pair) (pattern : Nat)
      (hlength : ps.length = masks.length)
      (hroom : offset + (before.length + ps.length) ≤ patternWidth) :
      (ps.zipIdx before.length).foldlM (fun (x : List Nat × Nat) y =>
        notePair offset x.1 x.2 y.1 y.2) (before ++ masks, pattern) =
      .ok (before ++ withPairs masks ps,
        withDigits (offset + before.length) (ps.map (·.differs)) pattern) := by
    induction ps generalizing before masks pattern with
    | nil =>
      obtain rfl := List.eq_nil_of_length_eq_zero hlength.symm
      rfl
    | cons p ps ih =>
      cases masks with
      | nil => cases hlength
      | cons mask masks =>
        rw [List.length_cons] at hroom
        have hlater (pattern : Nat) := ih (before ++ [mask ||| 1 <<< p.index]) masks pattern
          (Nat.succ.inj hlength) (by simp only [List.length_append, List.length_singleton]; omega)
        simp only [← List.append_cons, List.length_append, List.length_singleton] at hlater
        have hdigit : offset + before.length < patternWidth := by omega
        have hnoted := notePair_eq hdigit masks mask pattern p
        rw [List.zipIdx_cons, List.foldlM_cons, hnoted, ok_bind, hlater]
        rfl
  exact hrest [] masks ps pattern hlength (by simpa using hroom)

theorem imagesAt_eq {first second : List Bool} {n : Nat} (hfirst : first.length = n)
    (hsecond : second.length = n) :
    imagesAt first second n = .ok (List.zipWith Pair.mk first second) := by
  have hread := mapM_eq (f := fun index : Nat => do
      return (⟨← read first index, ← read second index⟩ : Pair))
    (g := fun index => ⟨first.getD index false, second.getD index false⟩)
    fun index (hindex : index ∈ List.range n) => by
      have hlt := List.mem_range.mp hindex
      rw [read_getD (hfirst.symm ▸ hlt) false, ok_bind, read_getD (hsecond.symm ▸ hlt) false,
        ok_bind, pure_eq_ok]
  rw [imagesAt, hread]
  congr 1
  refine List.ext_getElem (by simp [hfirst, hsecond]) fun i hi hi' => ?_
  have hlt : i < n := by simpa using hi
  simp [hfirst ▸ hlt, hsecond ▸ hlt]

theorem allowed_eq_all {cs : List Condition} {ps : List Pair} (h : cs.length = ps.length) :
    Column.allowed cs ps =
      cs.zipIdx.all fun (c, index) => c.allows (ps.getD index ⟨false, false⟩) := by
  induction cs generalizing ps with
  | nil => rfl
  | cons c cs ih =>
    cases ps with
    | nil => cases h
    | cons p ps =>
      rw [Column.allowed, ih (Nat.succ.inj h), List.zipIdx_cons, List.zipIdx_succ, List.all_cons,
        List.all_map]
      rfl

theorem allows_eq {outputs : List Condition} {first second : List Bool}
    (hfirst : first.length = outputs.length) (hsecond : second.length = outputs.length) :
    allows outputs first second =
      .ok (Column.allowed outputs (List.zipWith Pair.mk first second)) := by
  rw [allowed_eq_all (by simp [hfirst, hsecond])]
  refine allM_eq fun x hx => ?_
  have hlt := List.snd_lt_of_mem_zipIdx hx
  rw [Nat.add_zero] at hlt
  dsimp only
  rw [read_getD (hfirst.symm ▸ hlt) false, ok_bind, read_getD (hsecond.symm ▸ hlt) false, ok_bind,
    pure_eq_ok]
  simp [hfirst ▸ hlt, hsecond ▸ hlt]

variable {k : ColumnKey} {notes : Notes} {n : Nat}

/-- Whether a column has the places of its gate, and no more positions than a pattern has. -/
structure Shaped (k : ColumnKey) : Prop where
  inputs : k.inputs.length = k.gate.arity
  outputs : k.outputs.length = k.gate.width
  pos : 1 ≤ k.gate.width
  narrow : k.gate.arity + k.gate.width ≤ Column.positionsMax

theorem Shaped.le (h : Shaped k) : k.inputs.length + k.outputs.length ≤ patternWidth := by
  rw [h.inputs, h.outputs]
  exact h.narrow

theorem Shaped.evaluate (h : Shaped k) :
    evaluate k.gate k.inputs.length k.outputs.length = .ok () := by
  have hmax : Column.positionsMax = 16 := rfl
  have hnarrow := h.narrow
  exact evaluate_eq h.inputs h.outputs h.pos (by omega)

/-- A step notes the selection at the counter, if it survives. -/
theorem combine_eq (h : Shaped k) (hinputs : notes.inputs.length = k.inputs.length)
    (houtputs : notes.outputs.length = k.outputs.length)
    (hn : n < volume (Column.bases k.inputs)) :
    combine k (k.inputs.map optionsOf) (digits (Column.bases k.inputs) n) notes =
      .ok (Column.tally k notes (Column.pick k.inputs n)) := by
  have hroom := h.le
  have hpick := Column.length_pick k.inputs n
  have hfirst := k.gate.length_write k.outputs.length
    ((Column.pick k.inputs n).map (·.first))
  have hsecond := k.gate.length_write k.outputs.length
    ((Column.pick k.inputs n).map (·.second))
  have himage := Column.length_image k.gate k.outputs.length (Column.pick k.inputs n)
  have hnoted (pattern : Nat) :
      notePairs 0 notes.inputs pattern (Column.pick k.inputs n) = .ok (_, _) :=
    notePairs_eq (by omega) (by omega) pattern
  have hnoted' (pattern : Nat) : notePairs k.inputs.length notes.outputs pattern
      (Column.image k.gate k.outputs.length (Column.pick k.inputs n)) = .ok (_, _) :=
    notePairs_eq (by omega) (by omega) pattern
  have hpattern : withDigits k.inputs.length
      ((Column.image k.gate k.outputs.length (Column.pick k.inputs n)).map (·.differs))
      (withDigits 0 ((Column.pick k.inputs n).map (·.differs)) 0) =
      Column.pattern (Column.pick k.inputs n ++
        Column.image k.gate k.outputs.length (Column.pick k.inputs n)) := by
    rw [Column.pattern, List.map_append, Column.withDigits_append, List.length_map, hpick,
      Nat.zero_add]
  unfold combine
  simp only [pairsAt_eq hn, h.evaluate, allows_eq hfirst hsecond, imagesAt_eq hfirst hsecond,
    ok_bind]
  rw [Column.tally]
  show (if Column.allowed k.outputs (Column.image k.gate k.outputs.length _) = true then _ else _) =
    _
  split
  · simp only [hnoted, ok_bind]
    rw [show List.zipWith Pair.mk _ _ = Column.image k.gate k.outputs.length _ from rfl, hnoted',
      ok_bind, pure_eq_ok, hpattern]
    rfl
  · rfl

theorem advance_eq {options : List (List Nat)} (hn : n < volume (options.map List.length)) :
    advance options 0 (digits (options.map List.length) n) =
      .ok (if n + 1 < volume (options.map List.length) then
        some (digits (options.map List.length) (n + 1)) else none) := by
  have hrest (before rest : List (List Nat)) (n : Nat) (hn : n < volume (rest.map List.length)) :
      advance (before ++ rest) before.length (digits (rest.map List.length) n) =
        .ok (if n + 1 < volume (rest.map List.length) then
          some (digits (rest.map List.length) (n + 1)) else none) := by
    induction rest generalizing before n with
    | nil =>
      have hnone : ¬ n + 1 < volume [] := by
        simp only [volume]
        omega
      simp [digits, advance, hnone]
    | cons o rest ih =>
      have hpos : 0 < o.length := Column.base_pos hn
      have hlater := ih (before ++ [o]) _ (Column.div_lt_volume hn)
      have hlength : (before ++ [o]).length = before.length + 1 := List.length_append
      rw [← List.append_cons, hlength] at hlater
      have hn' : n / o.length < volume (rest.map List.length) := Column.div_lt_volume hn
      have hdiv := Nat.div_add_mod n o.length
      have hmod := Nat.mod_lt n hpos
      rw [List.map_cons, digits, advance, read_append, ok_bind]
      by_cases hturn : n % o.length + 1 < o.length
      · have hsum : n % o.length + 1 + o.length * (n / o.length) = n + 1 := by omega
        have hnext := (Nat.div_mod_unique hpos).mpr ⟨hsum, hturn⟩
        have hlt : n + 1 < volume (o.length :: rest.map List.length) :=
          calc n + 1
            _ = o.length * (n / o.length) + (n % o.length + 1) := by omega
            _ < o.length * (n / o.length + 1) := by rw [Nat.mul_succ]; omega
            _ ≤ volume (o.length :: rest.map List.length) := Nat.mul_le_mul_left _ hn'
        rw [if_pos hturn, if_pos hlt, digits, hnext.1, hnext.2, pure_eq_ok]
      · have hsum : 0 + o.length * (n / o.length + 1) = n + 1 := by
          rw [Nat.mul_succ]
          omega
        have hnext := (Nat.div_mod_unique hpos).mpr ⟨hsum, hpos⟩
        have hlt : n + 1 < volume (o.length :: rest.map List.length) ↔
            n / o.length + 1 < volume (rest.map List.length) := by
          rw [volume, Nat.mul_comm, ← Nat.div_lt_iff_lt_mul hpos, hnext.1]
        rw [if_neg hturn, hlater, ok_bind, pure_eq_ok, digits, hnext.1, hnext.2]
        simp only [hlt]
        split <;> rfl
  exact hrest [] options n hn

theorem bases_eq (cs : List Condition) :
    (cs.map optionsOf).map List.length = Column.bases cs := by
  rw [List.map_map, Column.bases]
  refine List.map_congr_left fun c _ => ?_
  rw [pairs_eq_map, List.length_map]
  rfl

theorem length_tally (ps : List Pair) (hps : ps.length = k.inputs.length)
    (hinputs : notes.inputs.length = k.inputs.length)
    (houtputs : notes.outputs.length = k.outputs.length) :
    (Column.tally k notes ps).inputs.length = k.inputs.length ∧
      (Column.tally k notes ps).outputs.length = k.outputs.length := by
  unfold Column.tally
  dsimp only
  split
  · simp [Notes.add, withPairs, hinputs, houtputs, hps, Column.length_image]
  · exact ⟨hinputs, houtputs⟩

/-- From a counter on, all selections are noted, each in a step. -/
theorem combinations_eq (h : Shaped k) (hinputs : notes.inputs.length = k.inputs.length)
    (houtputs : notes.outputs.length = k.outputs.length) {left : Nat}
    (hleft : n + (left + 1) = volume (Column.bases k.inputs)) :
    combinations k (k.inputs.map optionsOf) (left + 1) (digits (Column.bases k.inputs) n) notes =
      .ok (((List.range' n (left + 1)).map (Column.pick k.inputs)).foldl (Column.tally k)
        notes) := by
  induction left generalizing n notes with
  | zero =>
    have hn : n < volume (Column.bases k.inputs) := by omega
    have hlast : ¬ n + 1 < volume (Column.bases k.inputs) := by omega
    have hadvance := advance_eq (bases_eq k.inputs ▸ hn)
    rw [bases_eq, if_neg hlast] at hadvance
    rw [combinations, combine_eq h hinputs houtputs hn, ok_bind, hadvance, ok_bind]
    rfl
  | succ left ih =>
    have hn : n < volume (Column.bases k.inputs) := by omega
    have hnext : n + 1 < volume (Column.bases k.inputs) := by omega
    have hadvance := advance_eq (bases_eq k.inputs ▸ hn)
    rw [bases_eq, if_pos hnext] at hadvance
    obtain ⟨hinputs', houtputs'⟩ :=
      length_tally _ (Column.length_pick k.inputs n) hinputs houtputs
    rw [combinations, combine_eq h hinputs houtputs hn, ok_bind, hadvance, ok_bind]
    exact ih hinputs' houtputs' (by omega)

-- ---------------------------------------------------------------------------
-- Columns
-- ---------------------------------------------------------------------------

theorem patternDigit_eq {p : Nat} (hp : p < patternWidth) (m : Nat) :
    patternDigit m p = .ok (m.testBit p) := by
  rw [patternDigit, shift_eq hp, ok_bind, pure_eq_ok]

theorem difference_differences {positions p : Nat} (hp : p < positions) (m : Nat) :
    Relation.difference (Column.differences positions m) p = m.testBit p := by
  simp [Relation.difference, Column.differences, hp]

theorem testBit_foldl_or (ms : List Nat) (m p : Nat) :
    (ms.foldl (· ||| ·) m).testBit p = (m.testBit p || ms.any (·.testBit p)) := by
  induction ms generalizing m with
  | nil => simp
  | cons n ms ih => rw [List.foldl_cons, ih, Nat.testBit_or, List.any_cons, Bool.or_assoc]

theorem testBit_foldl_and (ms : List Nat) (m p : Nat) :
    (ms.foldl (· &&& ·) m).testBit p = (m.testBit p && ms.all (·.testBit p)) := by
  induction ms generalizing m with
  | nil => simp
  | cons n ms ih => rw [List.foldl_cons, ih, Nat.testBit_and, List.all_cons, Bool.and_assoc]

theorem freePlaces_eq {positions : Nat} (h : positions ≤ patternWidth) (patterns : List Nat) :
    freePlaces patterns positions = .ok ((List.range positions).filter
      (Relation.isFree (patterns.map (Column.differences positions)))) := by
  refine filterM_eq fun p hp => ?_
  have hp := List.mem_range.mp hp
  have hdigit := Nat.lt_of_lt_of_le hp h
  have hall : (1 <<< patternWidth - 1).testBit p = true := by
    rw [Nat.one_shiftLeft, Nat.testBit_two_pow_sub_one, decide_eq_true hdigit]
  rw [patternDigit_eq hdigit, ok_bind, patternDigit_eq hdigit, ok_bind, pure_eq_ok,
    testBit_foldl_or, testBit_foldl_and, hall]
  simp only [Nat.zero_testBit, Bool.false_or, Bool.true_and, Relation.isFree, List.any_map,
    Function.comp_def, difference_differences hp, List.not_all_eq_any_not]

theorem patternRelations_eq {positions : Nat} (h : positions ≤ patternWidth) {patterns : List Nat}
    (hne : patterns ≠ []) : patternRelations patterns positions =
      .ok (Relation.all (patterns.map (Column.differences positions)) positions) := by
  rw [patternRelations, freePlaces_eq h, ok_bind]
  refine relations_eq hne fun m _ p hp => ?_
  have hp := List.mem_range.mp (List.mem_filter.mp hp).1
  rw [patternDigit_eq (Nat.lt_of_lt_of_le hp h), difference_differences hp]

theorem volume_pos {bases : List Nat} : 0 < volume bases ↔ ∀ base ∈ bases, 0 < base := by
  induction bases with
  | nil => exact ⟨fun _ => List.forall_mem_nil _, fun _ => Nat.one_pos⟩
  | cons base bases ih =>
    rw [List.forall_mem_cons, ← ih, volume, Nat.pos_iff_ne_zero, Nat.pos_iff_ne_zero,
      Nat.pos_iff_ne_zero, Ne, Nat.mul_eq_zero, not_or]

theorem digits_zero (bases : List Nat) : digits bases 0 = List.replicate bases.length 0 := by
  induction bases with
  | nil => rfl
  | cons base bases ih =>
    rw [digits, Nat.zero_mod, Nat.zero_div, ih, List.length_cons, List.replicate_succ]

theorem combinations_start (h : Shaped k) (hpos : 0 < volume (Column.bases k.inputs)) :
    combinations k (k.inputs.map optionsOf) (volume (Column.bases k.inputs))
      (List.replicate k.inputs.length 0) (.blank k.inputs.length k.outputs.length) =
      .ok ((Column.counted k).foldl (Column.tally k)
        (.blank k.inputs.length k.outputs.length)) := by
  obtain ⟨left, hleft⟩ := Nat.exists_eq_succ_of_ne_zero (Nat.ne_of_gt hpos)
  have hstart := digits_zero (Column.bases k.inputs)
  rw [Column.bases, List.length_map, ← Column.bases] at hstart
  rw [Column.counted, hleft, ← hstart, List.range_eq_range']
  exact combinations_eq h (by simp [Notes.blank]) (by simp [Notes.blank])
    (by rw [hleft, Nat.zero_add])

/-- A column of a gate that is narrow enough is propagated. -/
theorem column_eq (h : Shaped k) : column k = .ok k.propagate := by
  have hroom := h.le
  have hnarrow : k.inputs.length + k.outputs.length ≤ Column.positionsMax := hroom
  have hoptions := mapM_eq fun c (_ : c ∈ k.inputs) => places_eq c
  have hcount := Column.outcome?_count k
  have hpos : (k.inputs.map optionsOf).any List.isEmpty = true ↔
      ¬ 0 < volume (Column.bases k.inputs) := by
    rw [volume_pos, ← bases_eq]
    simp [Nat.pos_iff_ne_zero]
  rw [column, if_pos hnarrow, unbreached_ok, ok_bind, hoptions, ok_bind]
  split
  · next hempty =>
    have hnone : volume (Column.bases k.inputs) = 0 := by have := hpos.mp hempty; omega
    rw [Column.counted, hnone] at hcount
    exact congrArg Except.ok hcount
  · next hne =>
    have hshows := Column.shows_foldl (Column.length_of_mem_counted k)
      (Notes.shows_blank k.inputs.length k.outputs.length)
    rw [bases_eq, combinations_start h (Decidable.not_not.mp (mt hpos.mpr hne)), ok_bind]
    generalize (Column.counted k).foldl (Column.tally k) _ = notes at hcount hshows
    rw [← hshows.positions] at hroom ⊢
    rw [ColumnKey.propagate, ← hcount, Notes.outcome?]
    split
    · rfl
    · next hpatterns =>
      rw [patternRelations_eq hroom (mt List.isEmpty_iff.mpr hpatterns), ok_bind, pure_eq_ok]

end ShaDiff.Guarded
