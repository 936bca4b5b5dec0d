import ShaDiff.Proofs.Guarded.Island
import ShaDiff.Proofs.Guarded.Relation

/-!
# Guarded propagation of sums

The open words of a sum are read by index and settled on a board. Relations are searched among the
patterns of each column, where a place of a pattern is an open word, and the settled words are
written back by index. All patterns of a column have as many places as there are open words
(`length_of_settle`). So a sum of words of one size is propagated without panic (`sum_eq`).
-/

namespace ShaDiff.Guarded

-- ---------------------------------------------------------------------------
-- Definitions
-- ---------------------------------------------------------------------------

def settleWords (words : List (List Condition)) (constant : Nat) : Except Panic (Option Board) :=
  match words with
  | [] => .ok (if constant = 0 then some ⟨[], []⟩ else none)
  | word :: _ => do
    unbreached (if Sum.sameSize words then .ok () else .error .distinctSizes)
    let columns ← (List.range word.length).mapM fun column => words.mapM (read · column)
    crossColumns columns constant word.length 0 0 [[0]]
      ⟨words, List.replicate word.length []⟩

def freeWords (patterns : List (List Bool)) (count : Nat) : Except Panic (List Nat) :=
  (List.range count).filterM fun index => do
    let some ← patterns.anyM (read · index)
    let others ← patterns.anyM fun pattern => do return !(← read pattern index)
    return some && others

def wordRelation (places : List Nat) (column : Nat) (r : Relation) :
    Except Panic Sum.WordRelation := do
  let first ← read places r.first
  let second ← read places r.second
  return { first, second, column, value := r.value }

def columnRelations (places : List Nat) (patterns : List (List Bool)) (column : Nat) :
    Except Panic (List Sum.WordRelation) :=
  match patterns with
  | [] => .ok []
  | first :: _ => do
    let free ← freeWords patterns first.length
    let found ← relations read patterns free
    found.mapM (wordRelation places column)

def wordRelations (places : List Nat) (patterns : List (List (List Bool))) :
    Except Panic (List Sum.WordRelation) := do
  let relations ← patterns.zipIdx.mapM fun (patterns, column) =>
    columnRelations places patterns column
  return relations.flatten

def replace (words : List (List Condition)) (places : List Nat)
    (derived : List (List Condition)) : Except Panic (List (List Condition)) :=
  (places.zip derived).foldlM (fun words (place, word) => write words place word) words

def sum (positive negative : List (List Condition)) : Except Panic Sum.Derivation :=
  match Sum.openWords? positive negative with
  | none => .ok .skipped
  | some places => do
    let words := positive ++ negative
    let opened ← places.mapM (read words)
    match ← settleWords opened (Sum.constant positive negative) with
    | none => return .contradiction
    | some board =>
      let relations ← wordRelations places board.patterns
      return .refined (← replace words places board.words) relations

-- ---------------------------------------------------------------------------
-- Words
-- ---------------------------------------------------------------------------

section

variable {words positive negative : List (List Condition)} {places : List Nat} {constant n : Nat}
  {settled : List Sum.Settled}

theorem ofColumns_columns (h : ∀ word ∈ words, word.length = n) :
    Sum.ofColumns (Sum.columns words n) words.length = words := by
  refine List.ext_getElem (by simp [Sum.ofColumns]) fun i _ hi => ?_
  refine List.ext_getElem (by simp [Sum.ofColumns, Sum.columns, h]) fun col _ hcol => ?_
  simp [Sum.ofColumns, Sum.columns, hi, hcol]

theorem settleWords_eq (hwords : ∀ word ∈ words, word.length = n) (hn : n ≤ 64)
    (hfew : words.length ≤ 1 <<< 16) (constant : Nat) :
    settleWords words constant =
      .ok ((Sum.settleWords words constant).map (Board.of words.length)) := by
  cases words with
  | nil =>
    rw [settleWords, Sum.settleWords]
    split <;> rfl
  | cons word words =>
    have hsame : Sum.sameSize (word :: words) = true := Sum.sameSize_of_length hwords
    obtain rfl : word.length = n := hwords word (.head _)
    have hcolumns : ((List.range word.length).mapM fun column =>
        (word :: words).mapM (read · column)) =
        .ok (Sum.columns (word :: words) word.length) := by
      refine mapM_eq fun column hcolumn => mapM_eq fun w hw => read_getD ?_ _
      exact hwords w hw ▸ List.mem_range.mp hcolumn
    have hsizes : ∀ column ∈ Sum.columns (word :: words) word.length,
        column.length = (word :: words).length := by simp [Sum.columns]
    have hsize : (Sum.columns (word :: words) word.length).length = word.length := by
      simp [Sum.columns]
    have hboard : Board.of (word :: words).length
        ((Sum.columns (word :: words) word.length).map unsettled) =
        ⟨word :: words, List.replicate word.length []⟩ := by
      have hconditions : ((Sum.columns (word :: words) word.length).map unsettled).map
          (·.conditions) = Sum.columns (word :: words) word.length := by
        rw [List.map_map]
        exact List.map_id _
      have hpatterns : ((Sum.columns (word :: words) word.length).map unsettled).map
          (·.patterns) = List.replicate word.length [] := by
        rw [List.map_map]
        exact List.map_const'.trans (congrArg (List.replicate · []) hsize)
      rw [Board.of, hconditions, hpatterns, ofColumns_columns hwords]
    have hcrossed := crossColumns_start hsizes hfew (hsize.le.trans hn) constant
    rw [hsize, hboard] at hcrossed
    rw [settleWords, hsame, if_pos rfl, unbreached_ok, ok_bind, hcolumns, ok_bind, hcrossed]
    rfl

theorem length_of_settle {columns : List (List Condition)} {carries alive : List Int} {m : Nat}
    (hcolumns : ∀ column ∈ columns, column.length = m)
    (h : Sum.settle columns constant carries = some (alive, settled)) :
    settled.length = columns.length ∧
      ∀ s ∈ settled, s.conditions.length = m ∧ ∀ pattern ∈ s.patterns, pattern.length = m := by
  obtain ⟨-, hlength, hexact⟩ := Sum.exact_settle h
  refine ⟨hlength, fun s hs => ?_⟩
  obtain ⟨k, hk, rfl⟩ := List.getElem_of_mem hs
  have hlt : k < columns.length := hlength ▸ hk
  have hm := hcolumns _ (List.getElem_mem hlt)
  have hk := hexact k _ _ (List.getElem?_eq_getElem hk) (List.getElem?_eq_getElem hlt)
  refine ⟨hk.length.trans hm, fun pattern hpattern => ?_⟩
  obtain ⟨ps, ⟨pss, hpss, hps⟩, rfl⟩ := (hk.patterns pattern).mp hpattern
  obtain ⟨hlt', rfl⟩ := List.getElem?_eq_some_iff.mp hps
  have hallow := (List.forall₂_iff_get.mp hpss.1).2 k hlt hlt'
  rw [List.length_map, ← hm]
  exact hallow.length_eq.symm

theorem length_of_settleWords (hne : words ≠ []) (hwords : ∀ word ∈ words, word.length = n)
    (h : Sum.settleWords words constant = some settled) : settled.length = n ∧
      ∀ s ∈ settled, s.conditions.length = words.length ∧
        ∀ pattern ∈ s.patterns, pattern.length = words.length := by
  cases words with
  | nil => exact absurd rfl hne
  | cons word words =>
    rw [Sum.settleWords_cons, hwords word (.head _)] at h
    obtain ⟨⟨alive, settled⟩, hsettle, rfl⟩ := Option.map_eq_some_iff.mp h
    obtain ⟨hlength, hshape⟩ := length_of_settle (m := (word :: words).length)
      (by simp [Sum.columns]) hsettle
    exact ⟨by simpa [Sum.columns] using hlength, hshape⟩

theorem freeWords_eq {patterns : List (List Bool)} {count : Nat}
    (h : ∀ pattern ∈ patterns, pattern.length = count) :
    freeWords patterns count = .ok ((List.range count).filter (Relation.isFree patterns)) := by
  refine filterM_eq fun index hindex => ?_
  have hread (pattern : List Bool) (hpattern : pattern ∈ patterns) :
      read pattern index = .ok (Relation.difference pattern index) :=
    read_getD (h pattern hpattern ▸ List.mem_range.mp hindex) false
  have hothers := anyM_eq (f := fun pattern : List Bool => do return !(← read pattern index))
    fun pattern hpattern => by rw [hread pattern hpattern]; rfl
  rw [anyM_eq hread, ok_bind, hothers, ok_bind, pure_eq_ok]
  rfl

theorem columnRelations_eq {patterns : List (List Bool)}
    (h : ∀ pattern ∈ patterns, pattern.length = places.length) (column : Nat) :
    columnRelations places patterns column = .ok ((Relation.all patterns places.length).map fun r =>
      { first := places.getD r.first 0, second := places.getD r.second 0, column,
        value := r.value }) := by
  cases patterns with
  | nil =>
    have hfree : (List.range places.length).filter (Relation.isFree []) = [] :=
      List.filter_eq_nil_iff.mpr fun p _ => Bool.false_ne_true
    rw [columnRelations, Relation.all, hfree]
    rfl
  | cons first patterns =>
    have hfound : relations read (first :: patterns)
        ((List.range places.length).filter (Relation.isFree (first :: patterns))) =
        .ok (Relation.all (first :: patterns) places.length) := by
      have hdigit : ∀ pattern ∈ first :: patterns, ∀ p ∈ (List.range places.length).filter
          (Relation.isFree (first :: patterns)),
          read pattern p = .ok (Relation.difference (id pattern) p) := fun pattern hpattern p hp =>
        read_getD (h pattern hpattern ▸ List.mem_range.mp (List.mem_filter.mp hp).1) false
      rw [relations_eq (List.cons_ne_nil first patterns) hdigit, List.map_id]
      rfl
    rw [columnRelations, h first (.head _), freeWords_eq h, ok_bind, hfound, ok_bind]
    refine mapM_eq fun r hr => ?_
    obtain ⟨hfirst, hsecond, -⟩ := Relation.sum_of_mem_all hr
    rw [wordRelation, read_getD hfirst 0, read_getD hsecond 0]
    rfl

theorem wordRelations_eq (h : ∀ s ∈ settled, ∀ pattern ∈ s.patterns,
    pattern.length = places.length) :
    wordRelations places (settled.map (·.patterns)) = .ok (Sum.wordRelations places settled) := by
  have hshape (x : List (List Bool) × Nat) (hx : x ∈ (settled.map (·.patterns)).zipIdx) :
      ∀ pattern ∈ x.1, pattern.length = places.length := by
    obtain ⟨s, hs, heq⟩ := List.mem_map.mp (List.fst_mem_of_mem_zipIdx hx)
    exact heq ▸ h s hs
  have hcolumns (x : List (List Bool) × Nat) (hx : x ∈ (settled.map (·.patterns)).zipIdx) :=
    columnRelations_eq (hshape x hx) x.2
  rw [wordRelations, mapM_eq hcolumns, ok_bind, pure_eq_ok, List.zipIdx_map, List.map_map]
  rfl

theorem openWords?_places (h : Sum.openWords? positive negative = some places) :
    places ≠ [] ∧ places.length ≤ 2 ∧ ∀ place ∈ places, place < (positive ++ negative).length := by
  obtain ⟨-, -, rfl⟩ := Sum.openWords?_eq_some h
  have hall (ws : List (List Condition)) : (List.range ws.length).map (ws.getD · []) = ws :=
    List.ext_getElem (by simp) fun i _ hi => by simp [hi]
  have hlength : ((List.range (positive ++ negative).length).filter fun i =>
      !Sum.isGrounded ((positive ++ negative).getD i [])).length =
      positive.countP (!Sum.isGrounded ·) + negative.countP (!Sum.isGrounded ·) := by
    rw [← List.countP_append, ← List.countP_eq_length_filter]
    conv_rhs => rw [← hall (positive ++ negative), List.countP_map]
    rfl
  simp only [Sum.openWords?, Option.ite_none_left_eq_some, not_or, not_and] at h
  obtain ⟨⟨hopen, -, hfew⟩, -⟩ := h
  refine ⟨fun hnil => ?_, by omega, fun place hplace => ?_⟩
  · rw [hnil, List.length_nil] at hlength
    omega
  · exact List.mem_range.mp (List.mem_filter.mp hplace).1

theorem length_opened (hwords : ∀ word ∈ positive ++ negative, word.length = n)
    (hplaces : ∀ place ∈ places, place < (positive ++ negative).length) :
    ∀ word ∈ places.map ((positive ++ negative).getD · []), word.length = n := by
  intro word hword
  obtain ⟨place, hplace, rfl⟩ := List.mem_map.mp hword
  rw [List.getD_eq_getElem?_getD, List.getElem?_eq_getElem (hplaces place hplace)]
  exact hwords _ (List.getElem_mem _)

theorem replace_eq {derived : List (List Condition)}
    (h : ∀ place ∈ places, place < words.length) :
    replace words places derived = .ok (Sum.replace words places derived) :=
  foldlM_eq (P := fun ws => ws.length = words.length) (fun ws hws x hx =>
    ⟨write_eq (hws ▸ h x.1 (List.of_mem_zip hx).1) x.2, by rw [List.length_set, hws]⟩) rfl

/-- A sum of words of one size is propagated as it is without guards. -/
theorem sum_eq (hwords : ∀ word ∈ positive ++ negative, word.length = n) (hn : n ≤ 64) :
    sum positive negative = .ok (Sum.propagate positive negative) := by
  unfold sum Sum.propagate
  cases hopen : Sum.openWords? positive negative with
  | none => rfl
  | some places =>
    obtain ⟨hne, hfew, hplaces⟩ := openWords?_places hopen
    have hopened : places.mapM (read (positive ++ negative)) =
        .ok (places.map ((positive ++ negative).getD · [])) :=
      mapM_eq fun place hplace => read_getD (hplaces place hplace) []
    have hsize := length_opened hwords hplaces
    have hsettle := settleWords_eq hsize hn
      (by simp only [List.length_map, Nat.reduceShiftLeft]; omega) (Sum.constant positive negative)
    simp only [hopened, ok_bind, hsettle]
    cases hsettled : Sum.settleWords (places.map ((positive ++ negative).getD · []))
        (Sum.constant positive negative) with
    | none => rfl
    | some settled =>
      obtain ⟨-, hshape⟩ := length_of_settleWords (by simpa using hne) hsize hsettled
      have hrelations : wordRelations places (settled.map (·.patterns)) =
          .ok (Sum.wordRelations places settled) :=
        wordRelations_eq fun s hs pattern hpattern => by
          simpa using (hshape s hs).2 pattern hpattern
      simp only [Option.map_some, Board.of, hrelations, replace_eq hplaces, ok_bind, pure_eq_ok]

theorem lt_of_mem_relations (hwords : ∀ word ∈ positive ++ negative, word.length = n)
    {refined : List (List Condition)} {relations : List Sum.WordRelation}
    (h : Sum.propagate positive negative = .refined refined relations) : ∀ r ∈ relations,
      r.first < (positive ++ negative).length ∧ r.second < (positive ++ negative).length ∧
        r.column < n := by
  unfold Sum.propagate at h
  cases hopen : Sum.openWords? positive negative with
  | none => simp [hopen] at h
  | some places =>
    obtain ⟨hne, -, hplaces⟩ := openWords?_places hopen
    simp only [hopen] at h
    split at h
    · cases h
    · next settled hsettled =>
      obtain ⟨-, rfl⟩ := Sum.Derivation.refined.inj h
      obtain ⟨hlength, -⟩ :=
        length_of_settleWords (by simpa using hne) (length_opened hwords hplaces) hsettled
      intro r hr
      obtain ⟨rs, hrs, hr⟩ := List.mem_flatten.mp hr
      obtain ⟨⟨s, column⟩, hs, rfl⟩ := List.mem_map.mp hrs
      obtain ⟨q, hq, rfl⟩ := List.mem_map.mp hr
      obtain ⟨hfirst, hsecond, -⟩ := Relation.sum_of_mem_all hq
      have hplace {i : Nat} (hi : i < places.length) :
          places.getD i 0 < (positive ++ negative).length := by
        rw [List.getD_eq_getElem?_getD, List.getElem?_eq_getElem hi]
        exact hplaces _ (List.getElem_mem hi)
      obtain ⟨hlt, -⟩ := List.getElem?_eq_some_iff.mp (List.mk_mem_zipIdx_iff_getElem?.mp hs)
      exact ⟨hplace hfirst, hplace hsecond, hlength ▸ hlt⟩

end

end ShaDiff.Guarded
