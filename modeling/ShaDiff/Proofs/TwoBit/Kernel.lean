import ShaDiff.Proofs.Satisfaction
import ShaDiff.TwoBit.Kernel

/-!
# Elimination decides consistency

A row of the elimination stands for an equation between columns: its left part
names columns and its right part the equations it is the sum of. A sweep neither
loses nor adds solutions (`solvable_sweep`), as the differences at the column swept
can be chosen to suit the pivot that is taken out. Once all columns are swept the
left parts are empty, so the equations are consistent if and only if no row
remains whose selected values sum to one (`inconsistentSubsets_eq_nil`), and each
such row selects equations without a common solution
(`not_consistent_of_mem`).
-/

namespace ShaDiff.TwoBit.Kernel

open scoped List

variable {es : List Equation} {rs : List BitRow} {r s : BitRow} {f g x : Nat → Bool}

-- ---------------------------------------------------------------------------
-- Sums over GF(2)
-- ---------------------------------------------------------------------------

def total (places : List Nat) (f : Nat → Bool) : Bool := places.foldr (fun i p => f i ^^ p) false

theorem total_congr {places : List Nat} (h : ∀ i ∈ places, f i = g i) :
    total places f = total places g := by
  induction places with
  | nil => rfl
  | cons i is ih =>
    show (f i ^^ total is f) = (g i ^^ total is g)
    rw [h i (.head _), ih fun j hj => h j (.tail _ hj)]

theorem total_eq_false {places : List Nat} (h : ∀ i ∈ places, f i = false) :
    total places f = false := by
  rw [total_congr h]
  induction places with
  | nil => rfl
  | cons i is ih => exact (Bool.false_xor _).trans (ih fun j hj => h j (.tail _ hj))

theorem total_xor (places : List Nat) (f g : Nat → Bool) :
    total places (fun i => f i ^^ g i) = (total places f ^^ total places g) := by
  induction places with
  | nil => rfl
  | cons i is ih =>
    show ((f i ^^ g i) ^^ total is _) = ((f i ^^ total is f) ^^ (g i ^^ total is g))
    rw [ih]
    cases f i <;> cases g i <;> simp

theorem total_filter (places : List Nat) (p f : Nat → Bool) :
    total (places.filter p) f = total places fun i => p i && f i := by
  induction places with
  | nil => rfl
  | cons i is ih =>
    show _ = ((p i && f i) ^^ total is _)
    rw [List.filter_cons, ← ih]
    cases p i <;> simp [total]

theorem total_single {places : List Nat} (hn : places.Nodup) {c : Nat} (hc : c ∈ places) :
    total places (fun i => decide (c = i) && f i) = f c := by
  induction places with
  | nil => cases hc
  | cons i is ih =>
    obtain ⟨hi, hn⟩ := List.nodup_cons.mp hn
    show ((decide (c = i) && f i) ^^ total is _) = f c
    by_cases h : c = i
    · subst h
      rw [total_eq_false fun j hj => ?_]
      · simp
      · have : c ≠ j := fun h => hi (h ▸ hj)
        simp [this]
    · rw [ih hn ((List.mem_cons.mp hc).resolve_left h)]
      simp [h]

theorem parity_eq (es : List Equation) (selected : List Nat) :
    parity es selected = total selected fun i => (es[i]?.map (·.value)).getD false := by
  have key (p : Bool) : selected.foldl (fun p i => p ^^ (es[i]?.map (·.value)).getD false) p =
      (p ^^ total selected fun i => (es[i]?.map (·.value)).getD false) := by
    induction selected generalizing p with
    | nil => simp [total]
    | cons i is ih =>
      rw [List.foldl_cons, ih, Bool.xor_assoc]
      rfl
  simpa [parity] using key false

-- ---------------------------------------------------------------------------
-- Rows as equations between columns
-- ---------------------------------------------------------------------------

def width (es : List Equation) : Nat := (atoms es).length

/-- The sum of the differences of the columns a row names. -/
def left (es : List Equation) (r : BitRow) (x : Nat → Bool) : Bool :=
  total (List.range (width es)) fun c => r.get c && x c

/-- The sum of what is given of the equations a row is the sum of. -/
def right (es : List Equation) (r : BitRow) (z : Nat → Bool) : Bool :=
  total (List.range es.length) fun i => r.get (width es + i) && z i

def sides (es : List Equation) (x : Nat → Bool) (i : Nat) : Bool :=
  (es[i]?.map fun e => x ((atoms es).idxOf e.a) ^^ x ((atoms es).idxOf e.b)).getD false

def values (es : List Equation) (i : Nat) : Bool := (es[i]?.map (·.value)).getD false

/-- A row with room for all columns and equations which is the sum of the equations
it says it is the sum of. -/
structure IsSum (es : List Equation) (r : BitRow) : Prop where
  length : r.length = width es + es.length
  left : ∀ x, left es r x = right es r (sides es x)

def Solved (es : List Equation) (x : Nat → Bool) (r : BitRow) : Prop :=
  left es r x = right es r (values es)

theorem IsSum.lt_room (h : IsSum es r) (hi : i < width es + es.length) : i < r.room :=
  Nat.lt_of_lt_of_le hi (h.length ▸ r.length_le_room)

theorem left_xor (hr : IsSum es r) (s : BitRow) (x : Nat → Bool) :
    left es (r.xor s) x = (left es r x ^^ left es s x) := by
  rw [left, left, left, ← total_xor]
  refine total_congr fun c hc => ?_
  rw [BitRow.get_xor (hr.lt_room (Nat.lt_add_right _ (List.mem_range.mp hc))),
    Bool.and_xor_distrib_right]

theorem right_xor (hr : IsSum es r) (s : BitRow) (z : Nat → Bool) :
    right es (r.xor s) z = (right es r z ^^ right es s z) := by
  rw [right, right, right, ← total_xor]
  refine total_congr fun i hi => ?_
  rw [BitRow.get_xor (hr.lt_room (Nat.add_lt_add_left (List.mem_range.mp hi) _)),
    Bool.and_xor_distrib_right]

theorem IsSum.xor (hr : IsSum es r) (hs : IsSum es s) : IsSum es (r.xor s) where
  length := hr.length
  left x := by rw [left_xor hr, right_xor hr, hr.left, hs.left]

theorem IsSum.cancel (hr : IsSum es r) (hs : IsSum es s) (c : Nat) : IsSum es (cancel c s r) := by
  unfold Kernel.cancel
  split
  · exact hr.xor hs
  · exact hr

theorem solved_cancel (hr : IsSum es r) {x : Nat → Bool} (hs : Solved es x s) (c : Nat) :
    Solved es x (cancel c s r) ↔ Solved es x r := by
  unfold Kernel.cancel
  split
  · unfold Solved at hs ⊢
    rw [left_xor hr, right_xor hr, hs, Bool.xor_left_inj]
  · exact Iff.rfl

theorem get_cancel (hr : IsSum es r) (c : Nat) (hi : i < width es + es.length) :
    (cancel c s r).get i = (r.get i ^^ (r.get c && s.get i)) := by
  unfold Kernel.cancel
  split
  · rename_i h
    rw [BitRow.get_xor (hr.lt_room hi), h, Bool.true_and]
  · rename_i h
    simp [h]

-- ---------------------------------------------------------------------------
-- The rows of the equations
-- ---------------------------------------------------------------------------

theorem idxOf_lt {e : Equation} (he : e ∈ es) :
    (atoms es).idxOf e.a < width es ∧ (atoms es).idxOf e.b < width es := by
  have hmem (a : Atom) (ha : a = e.a ∨ a = e.b) : a ∈ atoms es := by
    rw [atoms, List.mem_eraseDups, List.mem_flatMap]
    exact ⟨e, he, by simpa using ha⟩
  exact ⟨List.idxOf_lt_length_of_mem (hmem _ (.inl rfl)),
    List.idxOf_lt_length_of_mem (hmem _ (.inr rfl))⟩

def rowAt (es : List Equation) (e : Equation) (i : Nat) : BitRow :=
  (((BitRow.zeros (width es + es.length)).flip ((atoms es).idxOf e.a)).flip
    ((atoms es).idxOf e.b)).set (width es + i) true

theorem mem_rows : r ∈ rows es ↔ ∃ i e, es[i]? = some e ∧ r = rowAt es e i := by
  simp only [rows, List.mem_map, Prod.exists, List.mk_mem_zipIdx_iff_getElem?]
  constructor
  · rintro ⟨e, i, he, rfl⟩
    exact ⟨i, e, he, rfl⟩
  · rintro ⟨i, e, he, rfl⟩
    exact ⟨e, i, he, rfl⟩

theorem length_rowAt (e : Equation) (i : Nat) :
    (rowAt es e i).length = width es + es.length := by
  simp only [rowAt, BitRow.length_set, BitRow.length_flip]
  rfl

theorem get_rowAt {e : Equation} {i : Nat} (he : es[i]? = some e) (j : Nat) :
    (rowAt es e i).get j = if width es + i = j then true else
      decide ((atoms es).idxOf e.a = j) ^^ decide ((atoms es).idxOf e.b = j) := by
  obtain ⟨hi, -⟩ := List.getElem?_eq_some_iff.mp he
  obtain ⟨ha, hb⟩ := idxOf_lt (List.mem_of_getElem? he)
  have hroom {r : BitRow} (hr : r.length = width es + es.length) {j : Nat}
      (hj : j < width es + es.length) : j < r.room :=
    Nat.lt_of_lt_of_le hj (hr ▸ r.length_le_room)
  have hz : (BitRow.zeros (width es + es.length)).length = width es + es.length := rfl
  rw [rowAt, BitRow.get_set (hroom (by simpa only [BitRow.length_flip]) (by omega)),
    BitRow.get_flip (hroom (by simpa only [BitRow.length_flip]) (by omega)),
    BitRow.get_flip (hroom hz (by omega))]
  simp [BitRow.get, BitRow.zeros]

theorem left_rowAt {e : Equation} {i : Nat} (he : es[i]? = some e) (x : Nat → Bool) :
    left es (rowAt es e i) x = (x ((atoms es).idxOf e.a) ^^ x ((atoms es).idxOf e.b)) := by
  obtain ⟨ha, hb⟩ := idxOf_lt (List.mem_of_getElem? he)
  have : left es (rowAt es e i) x = total (List.range (width es)) fun c =>
      (decide ((atoms es).idxOf e.a = c) && x c) ^^ (decide ((atoms es).idxOf e.b = c) && x c) := by
    refine total_congr fun c hc => ?_
    have hc := List.mem_range.mp hc
    rw [get_rowAt he, if_neg (by omega), Bool.and_xor_distrib_right]
  rw [this, total_xor, total_single List.nodup_range (List.mem_range.mpr ha),
    total_single List.nodup_range (List.mem_range.mpr hb)]

theorem right_rowAt {e : Equation} {i : Nat} (he : es[i]? = some e) (z : Nat → Bool) :
    right es (rowAt es e i) z = z i := by
  obtain ⟨hi, -⟩ := List.getElem?_eq_some_iff.mp he
  obtain ⟨ha, hb⟩ := idxOf_lt (List.mem_of_getElem? he)
  rw [right, ← total_single List.nodup_range (List.mem_range.mpr hi) (f := z)]
  refine total_congr fun j hj => ?_
  have h1 : (atoms es).idxOf e.a ≠ width es + j := by omega
  have h2 : (atoms es).idxOf e.b ≠ width es + j := by omega
  simp only [get_rowAt he, Nat.add_left_cancel_iff, h1, h2]
  by_cases h : i = j <;> simp [h]

theorem isSum_rowAt {e : Equation} {i : Nat} (he : es[i]? = some e) : IsSum es (rowAt es e i) where
  length := length_rowAt e i
  left x := by
    rw [left_rowAt he, right_rowAt he, sides, he]
    rfl

theorem solved_rowAt {e : Equation} {i : Nat} (he : es[i]? = some e) :
    Solved es x (rowAt es e i) ↔
      (x ((atoms es).idxOf e.a) ^^ x ((atoms es).idxOf e.b)) = e.value := by
  rw [Solved, left_rowAt he, right_rowAt he, values, he]
  rfl

theorem isSum_rows : ∀ r ∈ rows es, IsSum es r := by
  intro r hr
  obtain ⟨i, e, he, rfl⟩ := mem_rows.mp hr
  exact isSum_rowAt he

def ofAtoms (es : List Equation) (v : Atom → Bool) (c : Nat) : Bool :=
  ((atoms es)[c]?.map v).getD false

theorem ofAtoms_idxOf {e : Equation} (he : e ∈ es) (v : Atom → Bool) :
    ofAtoms es v ((atoms es).idxOf e.a) = v e.a ∧ ofAtoms es v ((atoms es).idxOf e.b) = v e.b := by
  obtain ⟨ha, hb⟩ := idxOf_lt he
  constructor
  · rw [ofAtoms, List.getElem?_eq_getElem ha, List.getElem_idxOf ha]
    rfl
  · rw [ofAtoms, List.getElem?_eq_getElem hb, List.getElem_idxOf hb]
    rfl

def Solvable (es : List Equation) (rs : List BitRow) : Prop := ∃ x, ∀ r ∈ rs, Solved es x r

theorem solvable_rows : Solvable es (rows es) ↔ Consistent es := by
  constructor
  · rintro ⟨x, hx⟩
    refine ⟨fun a => x ((atoms es).idxOf a), fun e he => ?_⟩
    obtain ⟨i, hi⟩ := List.getElem?_of_mem he
    exact (solved_rowAt hi).mp (hx _ (mem_rows.mpr ⟨i, e, hi, rfl⟩))
  · rintro ⟨v, hv⟩
    refine ⟨ofAtoms es v, fun r hr => ?_⟩
    obtain ⟨i, e, he, rfl⟩ := mem_rows.mp hr
    have hmem := List.mem_of_getElem? he
    rw [solved_rowAt he, (ofAtoms_idxOf hmem v).1, (ofAtoms_idxOf hmem v).2]
    exact hv e hmem

-- ---------------------------------------------------------------------------
-- Sweeps
-- ---------------------------------------------------------------------------

theorem sweep_cases (rs : List BitRow) (c : Nat) :
    (∀ r ∈ rs, r.get c = false) ∧ sweep rs c = rs ∨
      ∃ pivot others, pivot.get c = true ∧ rs ~ pivot :: others ∧
        sweep rs c = others.map (cancel c pivot) := by
  have hsplit := List.takeWhile_append_dropWhile (p := fun r : BitRow => !r.get c) (l := rs)
  simp only [sweep]
  cases hd : rs.dropWhile fun r => !r.get c with
  | nil =>
    refine .inl ⟨fun r hr => ?_, rfl⟩
    rw [hd, List.append_nil] at hsplit
    have hall := List.all_takeWhile (p := fun r : BitRow => !r.get c) (l := rs)
    rw [hsplit] at hall
    simpa using List.all_eq_true.mp hall r hr
  | cons pivot after =>
    rw [hd] at hsplit
    have hp : pivot.get c = true := by
      have hhead := List.head_dropWhile_not (fun r : BitRow => !r.get c) (l := rs) (by simp [hd])
      simpa [hd] using hhead
    cases hb : rs.takeWhile fun r => !r.get c with
    | nil =>
      rw [hb] at hsplit
      exact .inr ⟨pivot, after, hp, hsplit ▸ .refl _, rfl⟩
    | cons first between =>
      rw [hb] at hsplit
      refine .inr ⟨pivot, between ++ first :: after, hp, ?_, rfl⟩
      rw [← hsplit]
      calc first :: between ++ pivot :: after
        _ ~ pivot :: (first :: between ++ after) := List.perm_middle
        _ ~ pivot :: (between ++ first :: after) := (List.perm_middle.symm).cons _

theorem isSum_sweep (h : ∀ r ∈ rs, IsSum es r) (c : Nat) : ∀ r ∈ sweep rs c, IsSum es r := by
  rcases sweep_cases rs c with ⟨-, hs⟩ | ⟨pivot, others, -, hp, hs⟩
  · rwa [hs]
  · rw [hs]
    intro r hr
    obtain ⟨q, hq, rfl⟩ := List.mem_map.mp hr
    exact (h q (hp.mem_iff.mpr (.tail _ hq))).cancel (h pivot (hp.mem_iff.mpr (.head _))) c

/-- A sweep leaves no one at its column. -/
theorem get_sweep_self (h : ∀ r ∈ rs, IsSum es r) (hc : c < width es) :
    ∀ r ∈ sweep rs c, r.get c = false := by
  rcases sweep_cases rs c with ⟨hz, hs⟩ | ⟨pivot, others, hget, hp, hs⟩
  · rwa [hs]
  · rw [hs]
    intro r hr
    obtain ⟨q, hq, rfl⟩ := List.mem_map.mp hr
    rw [get_cancel (h q (hp.mem_iff.mpr (.tail _ hq))) c (by omega), hget]
    simp

theorem get_sweep_of_clear (h : ∀ r ∈ rs, IsSum es r) (hd : d < width es)
    (hclear : ∀ r ∈ rs, r.get d = false) (c : Nat) : ∀ r ∈ sweep rs c, r.get d = false := by
  rcases sweep_cases rs c with ⟨-, hs⟩ | ⟨pivot, others, -, hp, hs⟩
  · rwa [hs]
  · rw [hs]
    intro r hr
    obtain ⟨q, hq, rfl⟩ := List.mem_map.mp hr
    have hq := hp.mem_iff.mpr (.tail pivot hq)
    rw [get_cancel (h q hq) c (by omega), hclear q hq, hclear pivot (hp.mem_iff.mpr (.head _))]
    simp

theorem left_turn (r : BitRow) (x : Nat → Bool) (hc : c < width es) :
    left es r (fun d => decide (c = d) ^^ x d) = (r.get c ^^ left es r x) := by
  have hone : total (List.range (width es)) (fun d => decide (c = d) && r.get d) = r.get c :=
    total_single List.nodup_range (List.mem_range.mpr hc)
  rw [left, left, ← hone, ← total_xor]
  refine total_congr fun d _ => ?_
  cases r.get d <;> simp

/-- A sweep neither loses nor adds solutions: once the pivot is taken out, no other
row names the column, so its difference can be chosen to suit the pivot. -/
theorem solvable_sweep (h : ∀ r ∈ rs, IsSum es r) (hc : c < width es) :
    Solvable es (sweep rs c) ↔ Solvable es rs := by
  have hself := get_sweep_self h hc
  rcases sweep_cases rs c with ⟨-, hs⟩ | ⟨pivot, others, hget, hp, hs⟩
  · rw [hs]
  rw [hs] at hself ⊢
  have hmem (r : BitRow) (hr : r ∈ others) : IsSum es r := h r (hp.mem_iff.mpr (.tail _ hr))
  have hall (x : Nat → Bool) : (∀ r ∈ rs, Solved es x r) ↔
      Solved es x pivot ∧ ∀ r ∈ others.map (cancel c pivot), Solved es x r := by
    simp only [hp.mem_iff, List.forall_mem_cons, List.forall_mem_map]
    refine and_congr_right fun hx => forall₂_congr fun r hr => (solved_cancel (hmem r hr) hx c).symm
  constructor
  · rintro ⟨x, hx⟩
    by_cases hx' : Solved es x pivot
    · exact ⟨x, (hall x).mpr ⟨hx', hx⟩⟩
    · refine ⟨fun d => decide (c = d) ^^ x d, (hall _).mpr ⟨?_, fun r hr => ?_⟩⟩
      · rw [Solved, left_turn pivot x hc, hget, Bool.true_xor]
        exact Bool.not_eq.mpr hx'
      · have := hx r hr
        rwa [Solved, left_turn r x hc, hself r hr, Bool.false_xor]
  · rintro ⟨x, hx⟩
    exact ⟨x, ((hall x).mp hx).2⟩

theorem foldl_sweep (columns : List Nat) (hcol : ∀ c ∈ columns, c < width es)
    (h : ∀ r ∈ rs, IsSum es r) :
    (∀ r ∈ columns.foldl sweep rs, IsSum es r) ∧
      (∀ r ∈ columns.foldl sweep rs, ∀ c,
        c ∈ columns ∨ c < width es ∧ (∀ q ∈ rs, q.get c = false) → r.get c = false) ∧
      (Solvable es (columns.foldl sweep rs) ↔ Solvable es rs) := by
  induction columns generalizing rs with
  | nil =>
    refine ⟨h, fun r hr c hc => ?_, Iff.rfl⟩
    rcases hc with hc | ⟨-, hc⟩
    · cases hc
    · exact hc r hr
  | cons d columns ih =>
    have hd := hcol d (.head _)
    obtain ⟨h1, h2, h3⟩ := ih (fun c hc => hcol c (.tail _ hc)) (isSum_sweep h d)
    refine ⟨h1, fun r hr c hc => h2 r hr c ?_, h3.trans (solvable_sweep h hd)⟩
    rcases hc with hc | ⟨hc, hclear⟩
    · rcases List.mem_cons.mp hc with rfl | hc
      · exact .inr ⟨hd, get_sweep_self h hd⟩
      · exact .inl hc
    · exact .inr ⟨hc, get_sweep_of_clear h hc hclear d⟩

-- ---------------------------------------------------------------------------
-- What remains
-- ---------------------------------------------------------------------------

def remaining (es : List Equation) : List BitRow := (List.range (width es)).foldl sweep (rows es)

theorem selected_eq (hr : IsSum es r) :
    selected (width es) r = (List.range es.length).filter fun i => r.get (width es + i) := by
  have hlow : (List.range (width es)).filter (fun i => decide (width es ≤ i) && r.get i) = [] := by
    rw [List.filter_eq_nil_iff]
    intro i hi
    have : ¬ width es ≤ i := Nat.not_le.mpr (List.mem_range.mp hi)
    simp [this]
  have hid : (fun i => i - width es) ∘ (fun i => width es + i) = id :=
    funext fun i => Nat.add_sub_cancel_left (width es) i
  rw [selected, BitRow.ones, hr.length, List.range_add, List.filter_filter, List.filter_append, hlow,
    List.nil_append, List.filter_map, List.map_map, hid, List.map_id]
  simp [Function.comp_def]

theorem parity_selected (hr : IsSum es r) :
    parity es (selected (width es) r) = right es r (values es) := by
  rw [parity_eq, selected_eq hr, total_filter]
  rfl

/-- A row without columns left says that the equations it is the sum of add up to
nothing. -/
theorem solved_of_clear (h : ∀ c, c < width es → r.get c = false) :
    Solved es x r ↔ right es r (values es) = false := by
  have : left es r x = false := total_eq_false fun c hc => by
    rw [h c (List.mem_range.mp hc), Bool.false_and]
  rw [Solved, this]
  exact eq_comm

theorem remaining_spec (es : List Equation) :
    (∀ r ∈ remaining es, IsSum es r) ∧
      (∀ r ∈ remaining es, ∀ c, c < width es → r.get c = false) ∧
      (Solvable es (remaining es) ↔ Consistent es) := by
  have hcolumns : ∀ c ∈ List.range (width es), c < width es := fun c hc => List.mem_range.mp hc
  obtain ⟨h1, h2, h3⟩ := foldl_sweep (List.range (width es)) hcolumns isSum_rows
  exact ⟨h1, fun r hr c hc => h2 r hr c (.inl (List.mem_range.mpr hc)), h3.trans solvable_rows⟩

theorem mem_inconsistentSubsets {s : List Nat} : s ∈ inconsistentSubsets es ↔
    ∃ r ∈ remaining es, selected (width es) r = s ∧ right es r (values es) = true := by
  have hsum := (remaining_spec es).1
  show s ∈ ((remaining es).map (selected (width es))).filter (parity es) ↔ _
  rw [List.mem_filter, List.mem_map]
  constructor
  · rintro ⟨⟨r, hr, rfl⟩, hp⟩
    exact ⟨r, hr, rfl, parity_selected (hsum r hr) ▸ hp⟩
  · rintro ⟨r, hr, rfl, hp⟩
    exact ⟨⟨r, hr, rfl⟩, parity_selected (hsum r hr) ▸ hp⟩

theorem inconsistentSubsets_eq_nil : inconsistentSubsets es = [] ↔ Consistent es := by
  obtain ⟨hsum, hclear, hsolv⟩ := remaining_spec es
  rw [← hsolv, List.eq_nil_iff_forall_not_mem]
  simp only [mem_inconsistentSubsets]
  constructor
  · intro h
    refine ⟨fun _ => false, fun r hr => (solved_of_clear (hclear r hr)).mpr ?_⟩
    exact Bool.eq_false_iff.mpr fun hp => h _ ⟨r, hr, rfl, hp⟩
  · rintro ⟨x, hx⟩ s ⟨r, hr, -, hp⟩
    have := (solved_of_clear (hclear r hr)).mp (hx r hr)
    exact absurd (this.symm.trans hp) (by decide)

/-- The differences that a solution of the selected equations gives solve the row
that selects them. -/
theorem not_consistent_of_mem {s : List Nat} (h : s ∈ inconsistentSubsets es) :
    ¬ Consistent (s.filterMap (es[·]?)) := by
  obtain ⟨hsum, hclear, -⟩ := remaining_spec es
  obtain ⟨r, hr, rfl, hp⟩ := mem_inconsistentSubsets.mp h
  rintro ⟨v, hv⟩
  have hright : right es r (sides es (ofAtoms es v)) = right es r (values es) := by
    refine total_congr fun i hi => ?_
    cases hget : r.get (width es + i) with
    | false => rfl
    | true =>
      obtain ⟨e, he⟩ : ∃ e, es[i]? = some e :=
        ⟨_, List.getElem?_eq_getElem (List.mem_range.mp hi)⟩
      have hmem := List.mem_of_getElem? he
      have hsel : i ∈ selected (width es) r := by
        rw [selected_eq (hsum r hr)]
        exact List.mem_filter.mpr ⟨hi, hget⟩
      have hhold : e.Holds v := hv e (List.mem_filterMap.mpr ⟨i, hsel, he⟩)
      rw [sides, values, he, Option.map_some, Option.map_some, (ofAtoms_idxOf hmem v).1,
        (ofAtoms_idxOf hmem v).2]
      exact congrArg _ hhold
  have hsolved : Solved es (ofAtoms es v) r := ((hsum r hr).left _).trans hright
  exact absurd (((solved_of_clear (hclear r hr)).mp hsolved).symm.trans hp) (by decide)

theorem shortestClause?_isSome : (shortestClause? es).isSome = true ↔ ¬ Consistent es := by
  rw [← inconsistentSubsets_eq_nil, shortestClause?, Option.isSome_map, Option.isSome_iff_ne_none,
    Ne, firstLeast_eq_none, List.map_eq_nil_iff]

theorem shortestClause?_eq_some {c : Clause} (h : shortestClause? es = some c) :
    ∃ fs, (∀ e ∈ fs, e ∈ es) ∧ ¬ Consistent fs ∧ c = Equation.blockingClause fs := by
  obtain ⟨⟨n, c'⟩, hfound, rfl⟩ := Option.map_eq_some_iff.mp h
  obtain ⟨s, hs, hs'⟩ := List.mem_map.mp (mem_of_firstLeast hfound)
  obtain ⟨-, rfl⟩ := Prod.mk.inj hs'
  refine ⟨s.filterMap (es[·]?), fun e he => ?_, not_consistent_of_mem hs, rfl⟩
  obtain ⟨i, -, hi⟩ := List.mem_filterMap.mp he
  exact List.mem_of_getElem? hi

end ShaDiff.TwoBit.Kernel
