import ShaDiff.Proofs.Guarded.Basic
import ShaDiff.Proofs.Sum.Exact

/-!
# Guarded settling of columns

The words that are settled stand side by side, and so do the patterns of all columns. A loop goes
over the columns of the words by index and collects the carries of an island in a list, from the
carries that enter its first column to those that leave its last. Where the island closes, a second
loop comes back over its columns by index, restricts the words there and notes the patterns.

Carries are so small that they fit (`ways_eq`). The carries collected tell the ways through each
column again (`Records`), so the loop back settles what the island is settled to without indices
(`closeColumns_eq`), and so does the loop over all columns (`crossColumns_eq`).
-/

namespace ShaDiff.Guarded

-- ---------------------------------------------------------------------------
-- Definitions
-- ---------------------------------------------------------------------------

def total (start : Int) (ds : List Int) : Except Panic Int :=
  ds.foldlM (fun sum d => do
    fits 64 (sum + d)
    return sum + d) start

def carryOut (carry : Int) (contributions : List Int) (target : Bool) :
    Except Panic (Option Int) := do
  let sum ← total 0 contributions
  fits 64 (carry + sum)
  fits 64 (carry + sum - target.toInt)
  return Sum.carryOut? carry contributions target

def ways (column : List Condition) (target : Bool) (carries : List Int) :
    Except Panic (List Sum.Way) := do
  let options := selections (column.map (·.signedDifferences))
  let ways ← carries.mapM fun carry => options.mapM fun contributions => do
    let leaves ← carryOut carry contributions target
    return leaves.map (Sum.Way.mk carry contributions)
  return ways.flatMap (·.filterMap id)

/-- The words that are settled, and the patterns of differences at each column. -/
structure Board where
  words : List (List Condition)
  patterns : List (List (List Bool))

section

variable (columns : List (List Condition)) (constant : Nat)

/-- The ways through a column that is not before the start of an island. The digits of the constant
are those of a number of 64 bits. -/
def waysAt (carries : List (List Int)) (start col : Nat) : Except Panic (List Sum.Way) := do
  let place ← less col start
  let entering ← read carries place
  let column ← read columns col
  shift col 64
  ways column ((constant >>> col) % 2 == 1) entering

def contribute (admissible : List Condition) (contributions : List Int) :
    Except Panic (List Condition) :=
  contributions.zipIdx.foldlM (fun admissible (d, index) => do
    write admissible index ((← read admissible index).union (.ofSigned d))) admissible

def noteWay (col : Nat) (noted : List Condition × List (List (List Bool))) (way : Sum.Way) :
    Except Panic (List Condition × List (List (List Bool))) := do
  let admissible ← contribute noted.1 way.contributions
  let patterns ← write noted.2 col ((← read noted.2 col) ++ [way.contributions.map (· != 0)])
  return (admissible, patterns)

def restrictWords (words : List (List Condition)) (col : Nat) (admissible : List Condition) :
    Except Panic (List (List Condition)) :=
  (words.zip admissible).mapM fun (word, allowed) => do
    write word col ((← read word col).inter allowed)

/-- Settles a column, from the carries that may leave it. Answers those that may enter. -/
def closeColumn (carries : List (List Int)) (start col : Nat) (reachable : List Int)
    (board : Board) : Except Panic (Option (List Int × Board)) := do
  let kept := Sum.keep (← waysAt columns constant carries start col) reachable
  let (admissible, patterns) ←
    kept.foldlM (noteWay col) (List.replicate board.words.length .never, board.patterns)
  if kept.isEmpty then return none
  else
    let words ← restrictWords board.words col admissible
    return some (Sum.entering kept, ⟨words, patterns⟩)

def closeColumns (carries : List (List Int)) (start : Nat) :
    (count : Nat) → (reachable : List Int) → Board → Except Panic (Option Board)
  | 0, _, board => .ok (some board)
  | count + 1, reachable, board => do
    match ← closeColumn columns constant carries start (start + count) reachable board with
    | none => return none
    | some (reachable, board) => closeColumns carries start count reachable board

def closeIsland (carries : List (List Int)) (start last : Nat) (board : Board) :
    Except Panic (Option Board) := do
  let count ← less (last + 1) start
  let reachable ← read carries count
  closeColumns columns constant carries start count reachable board

/-- Settles so many columns from the one at an index on, in an island that starts at or before
it. -/
def crossColumns : (left col start : Nat) → (carries : List (List Int)) → Board →
    Except Panic (Option Board)
  | 0, _, _, _, board => .ok (some board)
  | left + 1, col, start, carries, board => do
    let leaving := Sum.leaving (← waysAt columns constant carries start col)
    if leaving.isEmpty then return none
    else
      let carries := carries ++ [leaving]
      let last ← less carries.length 1
      if (← read carries last).length = 1 ∨ col + 1 = columns.length then
        match ← closeIsland columns constant carries start col board with
        | none => return none
        | some board => crossColumns left (col + 1) (col + 1) [carries.getLastD []] board
      else crossColumns left (col + 1) start carries board

end

-- ---------------------------------------------------------------------------
-- Carries
-- ---------------------------------------------------------------------------

/-- Whether a number is small enough to be added to others of 64 bits. -/
def Small (bound : Nat) (n : Int) : Prop := -(bound : Int) ≤ n ∧ n ≤ bound

theorem fits_eq {bound : Nat} {n : Int} (h : Small bound n) (hbound : bound ≤ 1 <<< 32) :
    fits 64 n = .ok () := by
  obtain ⟨hlow, hhigh⟩ := h
  have hbound : (bound : Int) ≤ 4294967296 := Int.ofNat_le.mpr hbound
  refine if_pos ?_
  simp only [Nat.reduceSub, Nat.reduceShiftLeft]
  omega

theorem small_of_mem_signedDifferences {c : Condition} {d : Int} (h : d ∈ c.signedDifferences) :
    Small 1 d := by
  have hmem : d ∈ [-1, 0, 1] := (List.mem_filter.mp h).1
  rcases List.mem_cons.mp hmem with rfl | hmem
  · exact ⟨by omega, by omega⟩
  · rcases List.mem_cons.mp hmem with rfl | hmem
    · exact ⟨by omega, by omega⟩
    · obtain rfl := List.mem_singleton.mp hmem
      exact ⟨by omega, by omega⟩

theorem total_eq {ds : List Int} (hds : ∀ d ∈ ds, Small 1 d) {start : Int} {bound : Nat}
    (hstart : Small bound start) (hbound : bound + ds.length ≤ 1 <<< 32) :
    total start ds = .ok (start + Sum.total ds) ∧
      Small (bound + ds.length) (start + Sum.total ds) := by
  induction ds generalizing start bound with
  | nil => simpa [total, Sum.total] using hstart
  | cons d ds ih =>
    obtain ⟨hd, hds⟩ := List.forall_mem_cons.mp hds
    rw [List.length_cons] at hbound
    have hnext : Small (bound + 1) (start + d) := by
      simp only [Small] at hstart hd ⊢
      omega
    obtain ⟨hrest, hsmall⟩ := ih hds hnext (by omega)
    have hfits := fits_eq hnext (by omega)
    rw [Int.add_assoc] at hrest hsmall
    rw [List.length_cons, Nat.add_comm ds.length, ← Nat.add_assoc]
    refine ⟨?_, hsmall⟩
    rw [total, List.foldlM_cons, hfits]
    exact hrest

/-- What leaves a column is no greater than what enters it and contributes. -/
theorem carryOut_eq {carry : Int} {contributions : List Int} {m : Nat}
    (hlength : contributions.length = m) (hsmall : ∀ d ∈ contributions, Small 1 d)
    (hcarry : Small (m + 1) carry) (hm : m ≤ 1 <<< 16) (target : Bool) :
    carryOut carry contributions target = .ok (Sum.carryOut? carry contributions target) ∧
      ∀ out, Sum.carryOut? carry contributions target = some out → Small (m + 1) out := by
  have hm : m ≤ 65536 := hm
  have hstart : Small 0 0 := ⟨by omega, by omega⟩
  obtain ⟨htotal, hsum⟩ := total_eq hsmall hstart
    (by rw [hlength]; simp only [Nat.reduceShiftLeft]; omega)
  rw [hlength, Int.zero_add, Nat.zero_add] at hsum
  rw [Int.zero_add] at htotal
  have htarget : 0 ≤ target.toInt ∧ target.toInt ≤ 1 := by cases target <;> decide
  have hadded : Small (2 * m + 2) (carry + Sum.total contributions) := by
    simp only [Small] at hcarry hsum ⊢
    omega
  have htwice : Small (2 * m + 2) (carry + Sum.total contributions - target.toInt) := by
    simp only [Small] at hcarry hsum ⊢
    omega
  have hfits {n : Int} (h : Small (2 * m + 2) n) : fits 64 n = .ok () :=
    fits_eq h (by simp only [Nat.reduceShiftLeft]; omega)
  refine ⟨?_, fun out hout => ?_⟩
  · simp [carryOut, htotal, hfits hadded, hfits htwice]
  · simp only [Sum.carryOut?, Option.ite_none_right_eq_some, Option.some.injEq] at hout
    obtain ⟨-, rfl⟩ := hout
    simp only [Small] at htwice ⊢
    omega

section

variable {column : List Condition} {columns : List (List Condition)} {carries : List Int} {m : Nat}

theorem small_of_mem_selections {contributions : List Int}
    (h : contributions ∈ selections (column.map (·.signedDifferences))) :
    contributions.length = column.length ∧ ∀ d ∈ contributions, Small 1 d := by
  have hmem := mem_selections.mp h
  refine ⟨by simpa using length_of_mem_selections h, fun d hd => ?_⟩
  rw [List.forall₂_map_right_iff] at hmem
  obtain ⟨i, hi, rfl⟩ := List.getElem_of_mem hd
  have hget := (List.forall₂_iff_get.mp hmem).2 i hi (hmem.length_eq ▸ hi)
  exact small_of_mem_signedDifferences hget

theorem ways_eq (hcolumn : column.length = m) (hm : m ≤ 1 <<< 16)
    (hcarries : ∀ carry ∈ carries, Small (m + 1) carry) (target : Bool) :
    ways column target carries = .ok (Sum.ways column target carries) ∧
      ∀ carry ∈ Sum.leaving (Sum.ways column target carries), Small (m + 1) carry := by
  have hout {carry : Int} (hcarry : carry ∈ carries) {contributions : List Int}
      (hmem : contributions ∈ selections (column.map (·.signedDifferences))) :=
    carryOut_eq ((small_of_mem_selections hmem).1.trans hcolumn)
      (small_of_mem_selections hmem).2 (hcarries carry hcarry) hm target
  refine ⟨?_, fun carry hcarry => ?_⟩
  · have hinner : ∀ carry ∈ carries,
        (selections (column.map (·.signedDifferences))).mapM (fun contributions => do
          let leaves ← carryOut carry contributions target
          return leaves.map (Sum.Way.mk carry contributions)) =
        .ok ((selections (column.map (·.signedDifferences))).map fun contributions =>
          (Sum.carryOut? carry contributions target).map (Sum.Way.mk carry contributions)) :=
      fun carry hcarry => mapM_eq fun contributions hmem => by simp [(hout hcarry hmem).1]
    rw [ways, mapM_eq hinner]
    simp [Sum.ways, List.flatMap_map, List.filterMap_map]
  · obtain ⟨way, hway, rfl⟩ := Sum.mem_leaving.mp hcarry
    obtain ⟨henters, hmem, hleaves⟩ := Sum.mem_ways.mp hway
    exact (hout henters hmem).2 _ hleaves

end

-- ---------------------------------------------------------------------------
-- Boards
-- ---------------------------------------------------------------------------

def unsettled (column : List Condition) : Sum.Settled := ⟨column, []⟩

def Board.of (n : Nat) (settled : List Sum.Settled) : Board :=
  ⟨Sum.ofColumns (settled.map (·.conditions)) n, settled.map (·.patterns)⟩

/-- The board when an island is underway: columns before it are settled, and its own are not. -/
def Board.midway (n : Nat) (before : List Sum.Settled) (island : List Sum.Crossing)
    (after : List Sum.Settled) : Board :=
  .of n (before ++ (island.reverse.map fun crossing => unsettled crossing.column) ++ after)

section

variable {n constant start col : Nat} {column admissible : List Condition}
  {columns : List (List Condition)} {carries : List (List Int)} {kept : List Sum.Way}
  {before after : List Sum.Settled} {s : Sum.Settled}

@[simp] theorem Board.length_words (settled : List Sum.Settled) :
    (Board.of n settled).words.length = n := by simp [Board.of, Sum.ofColumns]

theorem Board.midway_cons (crossing : Sum.Crossing) (island : List Sum.Crossing) :
    Board.midway n before (crossing :: island) after =
      .midway n before island (unsettled crossing.column :: after) := by
  simp [Board.midway]

theorem contribute_eq {contributions : List Int} (h : contributions.length = admissible.length) :
    contribute admissible contributions =
      .ok (List.zipWith (fun c d => c.union (.ofSigned d)) admissible contributions) := by
  have hrest (before admissible : List Condition) (contributions : List Int)
      (h : contributions.length = admissible.length) :
      (contributions.zipIdx before.length).foldlM (fun admissible (d, index) => do
        write admissible index ((← read admissible index).union (.ofSigned d)))
        (before ++ admissible) =
      .ok (before ++ List.zipWith (fun c d => c.union (.ofSigned d)) admissible contributions) := by
    induction contributions generalizing before admissible with
    | nil =>
      obtain rfl := List.eq_nil_of_length_eq_zero h.symm
      rfl
    | cons d contributions ih =>
      cases admissible with
      | nil => cases h
      | cons c admissible =>
        have hlater := ih (before ++ [c.union (.ofSigned d)]) admissible (Nat.succ.inj h)
        rw [← List.append_cons, List.length_append, List.length_singleton] at hlater
        rw [List.zipIdx_cons, List.foldlM_cons]
        dsimp only
        rw [read_append, ok_bind, write_append, ok_bind, hlater, List.append_assoc]
        rfl
  exact hrest [] admissible contributions h

/-- Ways are noted in the patterns of their column, and in what the words there may allow. -/
theorem foldlM_noteWay {patterns : List (List (List Bool))} {noted : List (List Bool)}
    (hkept : ∀ way ∈ kept, way.contributions.length = admissible.length)
    (hnoted : patterns[col]? = some noted) :
    kept.foldlM (noteWay col) (admissible, patterns) =
      .ok ((kept.map (·.contributions)).foldl
          (List.zipWith fun c d => c.union (.ofSigned d)) admissible,
        patterns.set col (noted ++ (kept.map (·.contributions)).map (·.map (· != 0)))) := by
  induction kept generalizing admissible patterns noted with
  | nil =>
    obtain ⟨hcol, hget⟩ := List.getElem?_eq_some_iff.mp hnoted
    rw [List.map_nil, List.map_nil, List.append_nil, ← hget, List.set_getElem_self]
    rfl
  | cons way kept ih =>
    obtain ⟨hway, hkept⟩ := List.forall_mem_cons.mp hkept
    obtain ⟨hcol, -⟩ := List.getElem?_eq_some_iff.mp hnoted
    have hnext : (patterns.set col (noted ++ [way.contributions.map (· != 0)]))[col]? =
        some (noted ++ [way.contributions.map (· != 0)]) := by simp [hcol]
    have hstep : noteWay col (admissible, patterns) way =
        .ok (List.zipWith (fun c d => c.union (.ofSigned d)) admissible way.contributions,
          patterns.set col (noted ++ [way.contributions.map (· != 0)])) := by
      rw [noteWay, contribute_eq hway, ok_bind, read_eq hnoted, ok_bind, write_eq hcol, ok_bind,
        pure_eq_ok]
    have hlengths : ∀ w ∈ kept, w.contributions.length = (List.zipWith
        (fun c d => c.union (.ofSigned d)) admissible way.contributions).length := by
      simpa [hway] using hkept
    have hlater := ih hlengths hnext
    rw [List.set_set, List.append_assoc] at hlater
    rw [List.foldlM_cons, hstep, ok_bind, hlater]
    rfl

theorem restrictWords_eq (hcol : before.length = col) (hconditions : s.conditions.length = n)
    (hlength : admissible.length = n) (patterns : List (List Bool)) (after : List Sum.Settled) :
    restrictWords (Board.of n (before ++ s :: after)).words col admissible =
      .ok (Board.of n (before ++
        ⟨List.zipWith Condition.inter s.conditions admissible, patterns⟩ :: after)).words := by
  have hword (word : List Condition) (hmem : word ∈ (Board.of n (before ++ s :: after)).words) :
      col < word.length := by
    obtain ⟨i, -, rfl⟩ := List.mem_map.mp hmem
    simp [hcol]
  have hwritten := mapM_eq (f := fun (x : List Condition × Condition) => do
      write x.1 col ((← read x.1 col).inter x.2))
    (g := fun x => x.1.set col ((x.1.getD col .any).inter x.2))
    fun x (hx : x ∈ (Board.of n (before ++ s :: after)).words.zip admissible) => by
      have hlt := hword x.1 (List.of_mem_zip hx).1
      rw [read_getD hlt .any, ok_bind, write_eq hlt]
  rw [restrictWords, hwritten]
  congr 1
  refine List.ext_getElem (by simp [hlength]) fun i hi _ => ?_
  have hi : i < n := by simpa [hlength] using hi
  simp [Board.of, Sum.ofColumns, ← hcol, hconditions, hlength, hi]

-- ---------------------------------------------------------------------------
-- Columns
-- ---------------------------------------------------------------------------

variable {crossing : Sum.Crossing} {island : List Sum.Crossing} {reachable entering : List Int}

/-- The carries that were collected tell the ways through each column of an island, the last one
of which is first. -/
def Records (n : Nat) (columns : List (List Condition)) (constant : Nat)
    (carries : List (List Int)) (start : Nat) : List Sum.Crossing → Prop
  | [] => True
  | crossing :: island =>
    (crossing.column.length = n ∧ (∀ way ∈ crossing.ways, way.contributions.length = n) ∧
      waysAt columns constant carries start (start + island.length) = .ok crossing.ways) ∧
      Records n columns constant carries start island

theorem waysAt_eq (hstart : start ≤ col) (hentering : carries[col - start]? = some entering)
    (hcolumn : columns[col]? = some column) (hcol : col < 64) (hlength : column.length = n)
    (hn : n ≤ 1 <<< 16) (hsmall : ∀ carry ∈ entering, Small (n + 1) carry) :
    waysAt columns constant carries start col =
      .ok (Sum.ways column ((constant >>> col) % 2 == 1) entering) := by
  rw [waysAt, less_eq hstart, ok_bind, read_eq hentering, ok_bind, read_eq hcolumn, ok_bind,
    shift_eq hcol, ok_bind]
  exact (ways_eq hlength hn hsmall _).1

/-- A column of the board is settled to the ways that are kept. -/
theorem closeColumn_eq (hways : waysAt columns constant carries start col = .ok crossing.ways)
    (hcontributions : ∀ way ∈ crossing.ways, way.contributions.length = n)
    (hcolumn : crossing.column.length = n) (hcol : before.length = col) (reachable : List Int)
    (after : List Sum.Settled) :
    closeColumn columns constant carries start col reachable
        (.of n (before ++ unsettled crossing.column :: after)) =
      .ok (if (Sum.keep crossing.ways reachable).isEmpty then none
        else some (Sum.entering (Sum.keep crossing.ways reachable), .of n (before ++
          .ofWays crossing.column (Sum.keep crossing.ways reachable) :: after))) := by
  obtain ⟨column, ways⟩ := crossing
  obtain rfl : column.length = n := hcolumn
  have hkept : ∀ way ∈ Sum.keep ways reachable,
      way.contributions.length = (List.replicate column.length Condition.never).length :=
      fun way hway => by
    rw [hcontributions way (Sum.mem_keep.mp hway).1, List.length_replicate]
  have hnoted : (Board.of column.length (before ++ unsettled column :: after)).patterns[col]? =
      some [] := by simp [Board.of, ← hcol, unsettled]
  have hlengths : ∀ contributions ∈ (Sum.keep ways reachable).map (·.contributions),
      contributions.length = column.length := by simpa using hkept
  have hused := Condition.length_foldl (g := .ofSigned)
    (List.length_replicate (n := column.length) (a := Condition.never)) hlengths
  have hrestricted := restrictWords_eq (n := column.length) (s := unsettled column) hcol rfl hused
    (Sum.Settled.ofWays column (Sum.keep ways reachable)).patterns after
  have hpatterns : (Board.of column.length (before ++ unsettled column :: after)).patterns.set col
      ([] ++ (Sum.Settled.ofWays column (Sum.keep ways reachable)).patterns) =
      (Board.of column.length
        (before ++ .ofWays column (Sum.keep ways reachable) :: after)).patterns := by
    simp [Board.of, ← hcol]
  rw [closeColumn, hways, ok_bind]
  dsimp only
  rw [Board.length_words, foldlM_noteWay hkept hnoted, ok_bind]
  split
  · rfl
  · rw [hrestricted, ok_bind, pure_eq_ok]
    exact congrArg (fun patterns => Except.ok (some (_, Board.mk _ patterns))) hpatterns

/-- The loop back over an island settles it as it is settled without indices. -/
theorem closeColumns_eq (hrecords : Records n columns constant carries start island)
    (hstart : before.length = start) :
    closeColumns columns constant carries start island.length reachable
        (.midway n before island after) =
      .ok ((Sum.closeIsland island reachable after).map fun settled =>
        .of n (before ++ settled)) := by
  induction island generalizing reachable after with
  | nil => simp [closeColumns, Sum.closeIsland, Board.midway]
  | cons crossing island ih =>
    obtain ⟨⟨hcolumn, hcontributions, hways⟩, hrecords⟩ := hrecords
    have hcol : (before ++ island.reverse.map fun crossing => unsettled crossing.column).length =
        start + island.length := by simp [hstart]
    have hclosed := closeColumn_eq hways hcontributions hcolumn hcol reachable after
    rw [Board.midway_cons, List.length_cons, closeColumns, Board.midway, hclosed, ok_bind,
      Sum.closeIsland]
    by_cases hkept : (Sum.keep crossing.ways reachable).isEmpty = true
    · simp [hkept]
    · simp only [hkept]
      exact ih hrecords

theorem waysAt_append {ways : List Sum.Way}
    (h : waysAt columns constant carries start col = .ok ways) (later : List (List Int)) :
    waysAt columns constant (carries ++ later) start col = .ok ways := by
  unfold waysAt at h ⊢
  cases hplace : less col start with
  | error => rw [hplace] at h; cases h
  | ok place =>
    rw [hplace, ok_bind] at h
    rw [ok_bind]
    cases hentering : carries[place]? with
    | none => rw [read, hentering] at h; cases h
    | some entering =>
      have hlater : (carries ++ later)[place]? = some entering := by
        obtain ⟨hlt, -⟩ := List.getElem?_eq_some_iff.mp hentering
        rw [List.getElem?_append_left hlt, hentering]
      rw [read_eq hentering] at h
      rwa [read_eq hlater]

theorem Records.append (h : Records n columns constant carries start island)
    (later : List (List Int)) : Records n columns constant (carries ++ later) start island := by
  induction island with
  | nil => trivial
  | cons crossing island ih =>
    obtain ⟨⟨hcolumn, hcontributions, hways⟩, hrecords⟩ := h
    exact ⟨⟨hcolumn, hcontributions, waysAt_append hways later⟩, ih hrecords⟩

/-- The carries of an island so far, from those that enter its first column to those that may enter
the next. -/
structure Collected (n : Nat) (columns : List (List Condition)) (constant start : Nat)
    (carries : List (List Int)) (island : List Sum.Crossing) (entering : List Int) : Prop where
  length : carries.length = island.length + 1
  last : carries[island.length]? = some entering
  small : ∀ carry ∈ entering, Small (n + 1) carry
  records : Records n columns constant carries start island

theorem Collected.single (h : ∀ carry ∈ entering, Small (n + 1) carry) :
    Collected n columns constant start [entering] [] entering :=
  ⟨rfl, rfl, h, trivial⟩

theorem Collected.waysAt (h : Collected n columns constant start carries island entering)
    (hcolumn : columns[start + island.length]? = some column) (hlength : column.length = n)
    (hn : n ≤ 1 <<< 16) (hcol : start + island.length < 64) :
    waysAt columns constant carries start (start + island.length) =
      .ok (Sum.ways column ((constant >>> (start + island.length)) % 2 == 1) entering) :=
  waysAt_eq (Nat.le_add_right ..) (by rw [Nat.add_sub_cancel_left, h.last]) hcolumn hcol hlength hn
    h.small

theorem Collected.next (h : Collected n columns constant start carries island entering)
    (hcolumn : columns[start + island.length]? = some column) (hlength : column.length = n)
    (hn : n ≤ 1 <<< 16) (hcol : start + island.length < 64) :
    let ways := Sum.ways column ((constant >>> (start + island.length)) % 2 == 1) entering
    Collected n columns constant start (carries ++ [Sum.leaving ways]) (⟨column, ways⟩ :: island)
      (Sum.leaving ways) where
  length := by simp [h.length]
  last := by simp [h.length]
  small := (ways_eq hlength hn h.small _).2
  records := ⟨⟨hlength, fun way hway => (Sum.length_contributions hway).trans hlength,
    waysAt_append (h.waysAt hcolumn hlength hn hcol) _⟩, h.records.append _⟩

theorem closeIsland_eq (h : Collected n columns constant start carries island entering)
    (hstart : before.length = start) (hcol : col + 1 = start + island.length) :
    closeIsland columns constant carries start col
        (.midway n before island after) =
      .ok ((Sum.closeIsland island entering after).map fun settled =>
        .of n (before ++ settled)) := by
  rw [closeIsland, less_eq (by omega), hcol, ok_bind, Nat.add_sub_cancel_left, read_eq h.last,
    ok_bind, closeColumns_eq h.records hstart]

theorem length_closeIsland {settled found : List Sum.Settled}
    (h : Sum.closeIsland island entering settled = some found) :
    found.length = island.length + settled.length := by
  induction island generalizing entering settled with
  | nil =>
    obtain rfl := Option.some.inj h
    simp
  | cons crossing island ih =>
    simp only [Sum.closeIsland, Option.ite_none_left_eq_some] at h
    rw [ih h.2, List.length_cons, List.length_cons, Nat.add_right_comm, Nat.add_assoc]

/-- Islands are settled one after the other. -/
theorem islands_cons_of_close {rest : List (List Condition)} {ways : List Sum.Way}
    (hways : ways = Sum.ways column (constant % 2 == 1) entering) (hne : ways ≠ [])
    (hclose : (Sum.leaving ways).length = 1 ∨ rest = []) (island : List Sum.Crossing) :
    Sum.islands (column :: rest) constant entering island =
      (Sum.closeIsland (⟨column, ways⟩ :: island) (Sum.leaving ways) []).bind fun settled =>
        (Sum.islands rest (constant / 2) (Sum.leaving ways) []).map (settled ++ ·) := by
  subst hways
  rw [Sum.islands]
  dsimp only
  rw [if_neg (mt List.isEmpty_iff.mp hne)]
  split
  · simp [Option.map_eq_bind]
  · next hmany =>
    obtain rfl := hclose.resolve_left hmany
    simp [Sum.islands, Sum.closeIsland]

/-- The loop over all columns settles them as they are settled without indices. -/
theorem crossColumns_eq (rest crossed : List (List Condition)) (before : List Sum.Settled)
    (island : List Sum.Crossing) (hcolumns : ∀ column ∈ columns, column.length = n)
    (hn : n ≤ 1 <<< 16) (hsize : columns.length ≤ 64) (hsplit : columns = crossed ++ rest)
    (hcrossed : crossed.length = start + island.length)
    (h : Collected n columns constant start carries island entering)
    (hstart : before.length = start) (hend : rest = [] → island = []) :
    crossColumns columns constant rest.length (start + island.length) start carries
        (.midway n before island (rest.map unsettled)) =
      .ok ((Sum.islands rest (constant >>> (start + island.length)) entering island).map
        fun settled => .of n (before ++ settled)) := by
  induction rest generalizing crossed before island start carries entering with
  | nil =>
    obtain rfl := hend rfl
    simp [crossColumns, Sum.islands, Sum.closeIsland, Board.midway]
  | cons column rest ih =>
    have hlength : column.length = n := hcolumns column (by simp [hsplit])
    have hcolumn : columns[start + island.length]? = some column := by simp [hsplit, ← hcrossed]
    have hcol : start + island.length < 64 := by
      have hlt := (List.getElem?_eq_some_iff.mp hcolumn).1
      omega
    have hend : start + island.length + 1 = columns.length ↔ rest = [] := by
      rw [hsplit, List.length_append, List.length_cons, hcrossed, ← List.length_eq_zero_iff]
      omega
    have hcollected := h.next hcolumn hlength hn hcol
    have hways := h.waysAt hcolumn hlength hn hcol
    generalize hws : Sum.ways column ((constant >>> (start + island.length)) % 2 == 1) entering =
      ws at hcollected hways
    have hboard : Board.midway n before island ((column :: rest).map unsettled) =
        .midway n before (⟨column, ws⟩ :: island) (rest.map unsettled) :=
      (Board.midway_cons ⟨column, ws⟩ island).symm
    have hsplit : columns = (crossed ++ [column]) ++ rest := by simp [hsplit]
    rw [hboard, List.length_cons, crossColumns, hways, ok_bind]
    dsimp only
    by_cases hne : ws = []
    · subst hne
      simp [Sum.leaving, Sum.islands, hws]
    have hleaving : ¬ (Sum.leaving ws).isEmpty = true :=
      mt List.isEmpty_iff.mp (Sum.leaving_ne_nil hne)
    have hlast : (carries ++ [Sum.leaving ws]).length - 1 = island.length + 1 := by
      simp [h.length]
    have hread : read (carries ++ [Sum.leaving ws]) (island.length + 1) = .ok (Sum.leaving ws) :=
      read_eq hcollected.last
    rw [if_neg hleaving, less_eq (by simp), ok_bind, hlast, hread, ok_bind]
    by_cases hclose : (Sum.leaving ws).length = 1 ∨ start + island.length + 1 = columns.length
    · have hclosed := islands_cons_of_close hws.symm hne (hclose.imp id hend.mp) island
      rw [if_pos hclose, closeIsland_eq hcollected hstart (by simp [Nat.add_assoc]), ok_bind,
        hclosed, Sum.closeIsland_append]
      cases hfound : Sum.closeIsland (⟨column, ws⟩ :: island) (Sum.leaving ws) [] with
      | none => rfl
      | some settled =>
        have hnext : (before ++ settled).length = start + island.length + 1 := by
          rw [List.length_append, hstart, length_closeIsland hfound]
          simp [Nat.add_assoc]
        have hlater := ih (crossed ++ [column]) (before ++ settled) [] hsplit (by simp [hcrossed])
          (.single hcollected.small) hnext fun _ => rfl
        rw [Board.midway, List.reverse_nil, List.map_nil, List.append_nil, List.append_assoc]
          at hlater
        rw [List.getLastD_concat]
        simpa [Option.map_map, Function.comp_def, Nat.shiftRight_succ] using hlater
    · obtain ⟨hmany, hrest⟩ := not_or.mp hclose
      have hlater := ih (crossed ++ [column]) before (⟨column, ws⟩ :: island) hsplit
        (by simp [hcrossed, Nat.add_assoc]) hcollected hstart fun h => absurd (hend.mpr h) hrest
      rw [if_neg hclose, Sum.islands, hws]
      dsimp only
      rw [if_neg (mt List.isEmpty_iff.mp hne), if_neg hmany]
      exact hlater

theorem crossColumns_start (hcolumns : ∀ column ∈ columns, column.length = n)
    (hn : n ≤ 1 <<< 16) (hsize : columns.length ≤ 64) (constant : Nat) :
    crossColumns columns constant columns.length 0 0 [[0]] (.of n (columns.map unsettled)) =
      .ok ((Sum.islands columns constant [0] []).map (Board.of n)) := by
  have hzero : ∀ carry ∈ [(0 : Int)], Small (n + 1) carry := by
    simp only [List.mem_singleton, forall_eq, Small]
    omega
  exact crossColumns_eq columns [] [] [] hcolumns hn hsize rfl rfl (.single hzero) rfl fun _ => rfl

end

end ShaDiff.Guarded
