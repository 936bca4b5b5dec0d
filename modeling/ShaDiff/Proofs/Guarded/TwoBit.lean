import ShaDiff.Proofs.Guarded.Basic
import ShaDiff.Proofs.Propagator.Memory
import ShaDiff.Proofs.TwoBit.Cycle
import ShaDiff.Proofs.TwoBit.Kernel

/-!
# Guarded checks of two-bit equations

The graph of the cycles holds places of equations, and the elimination reads and writes the
entries of rows at the columns of atoms and the places of equations. The graph holds nothing but
equations that it was given, and all rows stay as long as the first ones, so that a check goes
through whatever the equations are (`checkTwoBit_eq`). Signed sets read nothing by index.
-/

namespace ShaDiff.Guarded

variable {es fs : List Equation}

-- ---------------------------------------------------------------------------
-- Cycles
-- ---------------------------------------------------------------------------

namespace Cycle

open TwoBit.Cycle (Graph Visit)

/-- Reads equations at the places that a graph holds. -/
def look (es fs : List Equation) : Except Panic Unit :=
  fs.forM fun f => within (es.idxOf f) es.length

def search (es : List Equation) (g : Graph) (goal : Atom × Bool) :
    (rounds : Nat) → List (Atom × Bool) → List Visit → Except Panic (Option (List Equation))
  | 0, _, _ => .ok none
  | rounds + 1, seen, visits =>
    match visits.find? (·.state == goal) with
    | some v => .ok (some v.way)
    | none =>
      if visits.isEmpty then .ok none
      else do
        visits.forM fun v => look es ((g.around v.vertex).map Prod.snd)
        let (seen, visits) := TwoBit.Cycle.expand g seen visits
        search es g goal rounds seen visits

def add (es : List Equation) (g : Graph) (e : Equation) :
    Except Panic (Option Clause × Graph) := do
  look es [e]
  if e.a = e.b then
    return (if e.value then some (Equation.blockingClause [e]) else none, g)
  else
    match ← search es g (e.b, !e.value) (4 * g.length + 3) [(e.a, false)] [⟨e.a, false, []⟩] with
    | some way =>
      look es way
      return (some (Equation.blockingClause (e :: way)), g)
    | none =>
      look es (g.filter (TwoBit.Cycle.parallel · e))
      return (none, g.keep e)

def clauses (es : List Equation) : Graph → List Equation → Except Panic (List Clause)
  | _, [] => .ok []
  | g, e :: rest => do
    match ← add es g e with
    | (some c, g) => return c :: (← clauses es g rest)
    | (none, g) => clauses es g rest

def shortestClause? (es : List Equation) : Except Panic (Option Clause) := do
  let found ← clauses es [] es
  return firstLeast (fun c d => c.length < d.length) found

variable {g : Graph} {e : Equation}

theorem look_eq (h : ∀ f ∈ fs, f ∈ es) : look es fs = .ok () :=
  forM_eq fun f hf => within_eq (List.idxOf_lt_length_of_mem (h f hf))

variable (hg : ∀ f ∈ g, f ∈ es)

include hg

theorem search_eq (goal : Atom × Bool) (rounds : Nat) (seen : List (Atom × Bool))
    (visits : List Visit) :
    search es g goal rounds seen visits =
      .ok (TwoBit.Cycle.search g goal rounds seen visits) := by
  induction rounds generalizing seen visits with
  | zero => rfl
  | succ rounds ih =>
    have haround : (visits.forM fun v => look es ((g.around v.vertex).map Prod.snd)) = .ok () :=
      forM_eq fun v _ => look_eq fun f hf => by
        obtain ⟨⟨w, e⟩, he, rfl⟩ := List.mem_map.mp hf
        exact hg _ (TwoBit.Cycle.mem_around.mp he).1
    unfold search TwoBit.Cycle.search
    cases visits.find? (·.state == goal) with
    | some v => rfl
    | none =>
      dsimp only
      split
      · rfl
      · rw [haround, ok_bind]
        exact ih _ _

theorem add_eq (he : e ∈ es) : add es g e = .ok (g.add e) := by
  have hread : look es [e] = .ok () :=
    look_eq fun f hf => by rwa [List.mem_singleton.mp hf]
  have hparallel : look es (g.filter (TwoBit.Cycle.parallel · e)) = .ok () :=
    look_eq fun f hf => hg f (List.mem_filter.mp hf).1
  unfold add Graph.add
  rw [hread, ok_bind]
  split
  · rfl
  · rw [search_eq hg, ok_bind]
    show (match g.way? e.a e.b (!e.value) with | some _ => _ | none => _) = Except.ok _
    cases hway : g.way? e.a e.b (!e.value) with
    | some way =>
      obtain ⟨p, hp, -, rfl⟩ := TwoBit.Cycle.way?_eq_some hway
      dsimp only
      rw [look_eq fun f hf => hg f (hp.way_subset f hf), ok_bind, pure_eq_ok]
    | none =>
      dsimp only
      rw [hparallel, ok_bind, pure_eq_ok]

theorem clauses_eq (hfs : ∀ f ∈ fs, f ∈ es) :
    clauses es g fs = .ok (TwoBit.Cycle.clauses g fs) := by
  induction fs generalizing g with
  | nil => rfl
  | cons e rest ih =>
    obtain ⟨he, hrest⟩ := List.forall_mem_cons.mp hfs
    unfold clauses TwoBit.Cycle.clauses
    rw [add_eq hg he, ok_bind]
    rcases hadd : g.add e with ⟨_ | c, k⟩
    · refine ih (fun f hf => ?_) hrest
      rcases TwoBit.Cycle.mem_of_add hadd f hf with rfl | hf
      · exact he
      · exact hg f hf
    · obtain ⟨rfl, -⟩ := TwoBit.Cycle.add_eq_some hadd
      dsimp only
      rw [ih hg hrest, ok_bind, pure_eq_ok]

omit hg in
theorem shortestClause?_eq (es : List Equation) :
    shortestClause? es = .ok (TwoBit.Cycle.shortestClause? es) := by
  rw [shortestClause?, clauses_eq (List.forall_mem_nil _) fun f hf => hf, ok_bind, pure_eq_ok]
  rfl

end Cycle

-- ---------------------------------------------------------------------------
-- Elimination
-- ---------------------------------------------------------------------------

namespace Kernel

open TwoBit.Kernel (IsSum atoms width remaining cancel)

def column (es : List Equation) (a : Atom) : Except Panic Nat := do
  within ((atoms es).idxOf a) (atoms es).length
  return (atoms es).idxOf a

def flip (r : BitRow) (i : Nat) : Except Panic BitRow := do
  within i r.room
  return r.flip i

def set (r : BitRow) (i : Nat) (value : Bool) : Except Panic BitRow := do
  within i r.room
  return r.set i value

def rows (es : List Equation) : Except Panic (List BitRow) :=
  es.zipIdx.mapM fun (e, i) => do
    let zeros := BitRow.zeros ((atoms es).length + es.length)
    let r ← flip zeros (← column es e.a)
    let r ← flip r (← column es e.b)
    set r ((atoms es).length + i) true

/-- Clears a column. The pivot joins the rows that were taken out before it, which are cleared
like all others and stand before them. -/
def sweep : List BitRow × List BitRow → Nat → Except Panic (List BitRow × List BitRow)
  | (taken, rest), column => do
    (taken ++ rest).forM fun r => within column r.room
    match rest.find? (·.get column) with
    | none => return (taken, rest)
    | some pivot =>
      within taken.length (taken ++ rest).length
      return (taken.map (cancel column pivot) ++ [pivot], TwoBit.Kernel.sweep rest column)

def selected (width : Nat) (r : BitRow) : Except Panic (List Nat) := do
  (List.range r.length).forM fun i => within i r.room
  (r.ones.filter (width ≤ ·)).mapM (less · width)

def parity (es : List Equation) (selected : List Nat) : Except Panic Bool :=
  selected.foldlM (fun p i => do return p ^^ (← read es i).value) false

/-- No column is left in the rows that remain, which is asserted. -/
def inconsistentSubsets (es : List Equation) : Except Panic (List (List Nat)) := do
  let width := (atoms es).length
  let (_, remaining) ← (List.range width).foldlM sweep ([], ← rows es)
  let found ← remaining.mapM fun r => do
    require (r.first?.all (width ≤ ·))
    let selected ← selected width r
    return (selected, ← parity es selected)
  return (found.filter (·.2)).map (·.1)

def blockingClause (es : List Equation) (selected : List Nat) : Except Panic Clause := do
  let fs ← selected.mapM (read es)
  return Equation.blockingClause fs

def shortestClause? (es : List Equation) : Except Panic (Option Clause) := do
  let subsets ← inconsistentSubsets es
  let found ← subsets.mapM fun s => do return (s.length, ← blockingClause es s)
  let least := firstLeast (fun x y => x.1 < y.1 || x.1 == y.1 && x.2.length < y.2.length) found
  return least.map (·.2)

variable {r : BitRow} {selection : List Nat}

theorem flip_eq {i : Nat} (h : i < r.room) : flip r i = .ok (r.flip i) := by
  rw [flip, within_eq h, ok_bind, pure_eq_ok]

theorem set_eq {i : Nat} (h : i < r.room) (value : Bool) : set r i value = .ok (r.set i value) := by
  rw [set, within_eq h, ok_bind, pure_eq_ok]

theorem rows_eq (es : List Equation) : rows es = .ok (TwoBit.Kernel.rows es) := by
  refine mapM_eq fun ⟨e, i⟩ hmem => ?_
  have he := List.mk_mem_zipIdx_iff_getElem?.mp hmem
  obtain ⟨hi, -⟩ := List.getElem?_eq_some_iff.mp he
  obtain ⟨ha, hb⟩ := TwoBit.Kernel.idxOf_lt (List.mem_of_getElem? he)
  have hwidth : (atoms es).length = width es := rfl
  have hroom {r : BitRow} (hr : r.length = width es + es.length) {j : Nat}
      (hj : j < width es + es.length) : j < r.room :=
    Nat.lt_of_lt_of_le hj (hr ▸ r.length_le_room)
  have hzeros : (BitRow.zeros (width es + es.length)).length = width es + es.length := rfl
  have hcolumn (a : Atom) (h : (atoms es).idxOf a < width es) :
      column es a = .ok ((atoms es).idxOf a) := by
    rw [column, within_eq (hwidth ▸ h), ok_bind, pure_eq_ok]
  dsimp only
  rw [hwidth, hcolumn _ ha, ok_bind, flip_eq (hroom hzeros (by omega)), ok_bind, hcolumn _ hb,
    ok_bind, flip_eq (hroom (by simpa only [BitRow.length_flip]) (by omega)), ok_bind,
    set_eq (hroom (by simpa only [BitRow.length_flip]) (by omega))]

/-- All rows keep their length, those that were taken out included. -/
theorem sweep_eq {taken rest : List BitRow} (h : ∀ r ∈ taken ++ rest, IsSum es r) {c : Nat}
    (hc : c < width es) : ∃ taken', sweep (taken, rest) c =
      .ok (taken', TwoBit.Kernel.sweep rest c) ∧
      ∀ r ∈ taken' ++ TwoBit.Kernel.sweep rest c, IsSum es r := by
  have hreads : (taken ++ rest).forM (fun r => within c r.room) = .ok () :=
    forM_eq fun r hr => within_eq ((h r hr).lt_room (Nat.lt_add_right _ hc))
  obtain ⟨htaken, hrest⟩ := List.forall_mem_append.mp h
  have hswept := TwoBit.Kernel.isSum_sweep hrest c
  simp only [sweep, hreads, ok_bind]
  cases hfind : rest.find? (·.get c) with
  | none =>
    have hclear : ∀ r ∈ rest, r.get c = false := by simpa using hfind
    have hsame : TwoBit.Kernel.sweep rest c = rest := by
      rcases TwoBit.Kernel.sweep_cases rest c with ⟨-, hsame⟩ | ⟨pivot, others, hget, hp, -⟩
      · exact hsame
      · exact absurd (hclear pivot (hp.mem_iff.mpr (.head _))) (by simp [hget])
    exact ⟨taken, by rw [hsame, pure_eq_ok], by rwa [hsame]⟩
  | some pivot =>
    have hmem := List.mem_of_find?_eq_some hfind
    have hrank : taken.length < (taken ++ rest).length := by
      rw [List.length_append]
      exact Nat.lt_add_of_pos_right (List.length_pos_of_mem hmem)
    refine ⟨taken.map (cancel c pivot) ++ [pivot],
      by simp only [within_eq hrank, ok_bind, pure_eq_ok], ?_⟩
    simp only [List.forall_mem_append, List.forall_mem_map, List.forall_mem_singleton]
    exact ⟨⟨fun r hr => (htaken r hr).cancel (hrest pivot hmem) c, hrest pivot hmem⟩, hswept⟩

theorem foldlM_sweep (columns : List Nat) (hcolumns : ∀ c ∈ columns, c < width es)
    {taken rest : List BitRow} (h : ∀ r ∈ taken ++ rest, IsSum es r) :
    ∃ taken', columns.foldlM sweep (taken, rest) =
      .ok (taken', columns.foldl TwoBit.Kernel.sweep rest) := by
  induction columns generalizing taken rest with
  | nil => exact ⟨taken, rfl⟩
  | cons c columns ih =>
    obtain ⟨hc, hcolumns⟩ := List.forall_mem_cons.mp hcolumns
    obtain ⟨taken', hsweep, hswept⟩ := sweep_eq h hc
    rw [List.foldlM_cons, hsweep, ok_bind]
    exact ih hcolumns hswept

theorem selected_eq (width : Nat) (r : BitRow) :
    selected width r = .ok (TwoBit.Kernel.selected width r) := by
  have hreads : (List.range r.length).forM (fun i => within i r.room) = .ok () :=
    forM_eq fun i hi => within_eq (Nat.lt_of_lt_of_le (List.mem_range.mp hi) r.length_le_room)
  rw [selected, hreads, ok_bind]
  exact mapM_eq fun i hi => less_eq (by simpa using (List.mem_filter.mp hi).2)

theorem lt_of_mem_selected (hr : IsSum es r) :
    ∀ i ∈ TwoBit.Kernel.selected (width es) r, i < es.length := by
  intro i hi
  rw [TwoBit.Kernel.selected_eq hr] at hi
  exact List.mem_range.mp (List.mem_filter.mp hi).1

theorem parity_eq (h : ∀ i ∈ selection, i < es.length) :
    parity es selection = .ok (TwoBit.Kernel.parity es selection) := by
  refine foldlM_eq (P := fun _ => True) (fun p _ i hi => ⟨?_, trivial⟩) trivial
  have he := List.getElem?_eq_getElem (h i hi)
  simp [read_eq he, he]

theorem inconsistentSubsets_eq (es : List Equation) :
    inconsistentSubsets es = .ok (TwoBit.Kernel.inconsistentSubsets es) := by
  obtain ⟨hsum, hclear, -⟩ := TwoBit.Kernel.remaining_spec es
  have hrows : ∀ r ∈ [] ++ TwoBit.Kernel.rows es, IsSum es r := TwoBit.Kernel.isSum_rows
  obtain ⟨taken, hswept⟩ :=
    foldlM_sweep (List.range (width es)) (fun c hc => List.mem_range.mp hc) hrows
  have hfound : ((remaining es).mapM fun r => do
      require (r.first?.all (width es ≤ ·))
      let selected ← selected (width es) r
      return (selected, ← parity es selected)) = .ok ((remaining es).map fun r =>
        (TwoBit.Kernel.selected (width es) r,
          TwoBit.Kernel.parity es (TwoBit.Kernel.selected (width es) r))) := by
    refine mapM_eq fun r hr => ?_
    have hfirst : r.first?.all (width es ≤ ·) = true := by
      cases hone : r.first? with
      | none => rfl
      | some i =>
        have hget : r.get i = true :=
          (List.mem_filter.mp (List.mem_of_head? (l := r.onesInRoom) hone)).2
        refine decide_eq_true (Nat.le_of_not_lt fun hlt => ?_)
        exact Bool.false_ne_true ((hclear r hr i hlt).symm.trans hget)
    rw [require, if_pos hfirst, ok_bind, selected_eq, ok_bind,
      parity_eq (lt_of_mem_selected (hsum r hr)), ok_bind, pure_eq_ok]
  have hwidth : (atoms es).length = width es := rfl
  rw [inconsistentSubsets, rows_eq, ok_bind]
  dsimp only
  rw [hwidth, hswept, ok_bind]
  dsimp only
  rw [show (List.range (width es)).foldl TwoBit.Kernel.sweep (TwoBit.Kernel.rows es) =
    remaining es from rfl, hfound, ok_bind, pure_eq_ok, List.filter_map, List.map_map]
  refine congrArg Except.ok ?_
  show _ = ((remaining es).map (TwoBit.Kernel.selected (width es))).filter _
  rw [List.filter_map]
  rfl

theorem mapM_read (h : ∀ i ∈ selection, i < es.length) :
    selection.mapM (read es) = .ok (selection.filterMap (es[·]?)) := by
  induction selection with
  | nil => rfl
  | cons i rest ih =>
    obtain ⟨hi, hrest⟩ := List.forall_mem_cons.mp h
    have he := List.getElem?_eq_getElem hi
    simp [List.mapM_cons, read_eq he, ih hrest, he]

theorem shortestClause?_eq (es : List Equation) :
    shortestClause? es = .ok (TwoBit.Kernel.shortestClause? es) := by
  have hfound : ((TwoBit.Kernel.inconsistentSubsets es).mapM fun s => do
      return (s.length, ← blockingClause es s)) = .ok ((TwoBit.Kernel.inconsistentSubsets es).map
        fun s => (s.length, TwoBit.Kernel.blockingClause es s)) := by
    refine mapM_eq fun s hs => ?_
    obtain ⟨r, hr, rfl, -⟩ := TwoBit.Kernel.mem_inconsistentSubsets.mp hs
    have hlt := lt_of_mem_selected ((TwoBit.Kernel.remaining_spec es).1 r hr)
    rw [blockingClause, mapM_read hlt, ok_bind, pure_eq_ok, ok_bind, pure_eq_ok]
    rfl
  rw [shortestClause?, inconsistentSubsets_eq, ok_bind, hfound, ok_bind, pure_eq_ok]
  rfl

end Kernel

-- ---------------------------------------------------------------------------
-- Checks
-- ---------------------------------------------------------------------------

def conflict? (s : TwoBit.Strategy) (es : List Equation) : Except Panic (Option Clause) :=
  match s with
  | .off => .ok none
  | .unionFind =>
    if (TwoBit.SignedSets.empty.firstContradiction? es).isSome then Kernel.shortestClause? es
    else .ok none
  | .graph => Cycle.shortestClause? es

def checkTwoBit {ρ : Type} (p : Propagator ρ) :
    Except Panic (Option Clause × Propagator ρ) :=
  if p.config.twoBit = .off ∨ p.encoding.differenceSlot?.isNone then .ok (none, p)
  else do
    let conflict ← conflict? p.config.twoBit p.liveEquations
    return { p with counters.twoBitChecks := p.counters.twoBitChecks + 1 }.concludeCheck conflict

theorem conflict?_eq (s : TwoBit.Strategy) (es : List Equation) :
    conflict? s es = .ok (s.conflict? es) := by
  cases s with
  | off => rfl
  | unionFind =>
    show (if _ then _ else _) = Except.ok (if _ then _ else _)
    rw [Kernel.shortestClause?_eq, apply_ite Except.ok]
  | graph => exact Cycle.shortestClause?_eq es

theorem checkTwoBit_eq {ρ : Type} (p : Propagator ρ) : checkTwoBit p = .ok p.checkTwoBit := by
  rw [checkTwoBit, conflict?_eq, Propagator.checkTwoBit_eq]
  split <;> rfl

end ShaDiff.Guarded
