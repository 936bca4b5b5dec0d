import Mathlib.Data.List.Pairwise
import ShaDiff.Proofs.Guarded.Basic
import ShaDiff.Proofs.Propagator.Range
import ShaDiff.Proofs.Trail

/-!
# Guarded access to bits

The bits of a word stand side by side, each with room for the atoms of four slots, and the values
of atoms stand in a table with room up to the greatest atom that is tracked. As what is tracked
and dirty is in range, a refresh and all that the host notifies go through (`refresh_eq`,
`assign_eq`, `backtrack_eq`).
-/

namespace ShaDiff

theorem Tracking.le_maxAtom {t : Tracking} {a : Atom} {p : Place} (h : t[a]? = some p) :
    a ≤ t.maxAtom := by
  have hmem : a ∈ t.keys := Std.TreeMap.mem_keys.mpr (Std.TreeMap.mem_iff_isSome_getElem?.mpr
    (h ▸ rfl))
  have hordered : t.keys.Pairwise fun a b => compare a b = .lt := Std.TreeMap.ordered_keys
  have hle : t.keys.Pairwise (· ≤ ·) :=
    hordered.imp fun hlt => Nat.le_of_lt (Nat.compare_eq_lt.mp hlt)
  rw [maxAtom, List.getLastD_eq_getLast?, List.getLast?_eq_some_getLast (List.ne_nil_of_mem hmem)]
  exact hle.rel_getLast hmem

namespace Guarded

variable {ρ : Type} {t : Topology} {p : Propagator ρ} {b : Bit}

-- ---------------------------------------------------------------------------
-- Bits and words
-- ---------------------------------------------------------------------------

def slotRoom : Nat := 4

def touch (t : Topology) (b : Bit) : Except Panic Unit := do
  within b.word t.words.size
  within b.column t.wordSize

def slots (t : Topology) (b : Bit) : Except Panic Slots :=
  if b.isZero then .ok []
  else do
    touch t b
    within t.encoding.slots (slotRoom + 1)
    return t.slots b

def wordBits (t : Topology) (word : Nat) : Except Panic (List Bit) := do
  within word t.words.size
  return t.wordBits word

def condition (p : Propagator ρ) (b : Bit) : Except Panic Condition := do
  touch p.topology b
  return p.condition b

def wordConditions (p : Propagator ρ) (word : Nat) : Except Panic (List Condition) := do
  within word p.topology.words.size
  return p.wordConditions word

def setCondition (p : Propagator ρ) (b : Bit) (c : Condition) : Except Panic (Propagator ρ) := do
  let q ← unbreached (p.setCondition b c)
  touch p.topology b
  return q

theorem touch_eq (h : t.HasBit b) : touch t b = .ok () := by
  rw [touch, within_eq h.word_lt, ok_bind, within_eq h.column_lt]

theorem slots_eq (h : t.HasBit b) : slots t b = .ok (t.slots b) := by
  have hroom : t.encoding.slots < slotRoom + 1 := by cases t.encoding <;> decide
  unfold slots
  split
  · next hz => rw [Topology.slots, if_pos hz]
  · rw [touch_eq h, ok_bind, within_eq hroom, ok_bind, pure_eq_ok]

theorem wordBits_eq {word : Nat} (h : word < t.words.size) :
    wordBits t word = .ok (t.wordBits word) := by
  rw [wordBits, within_eq h, ok_bind, pure_eq_ok]

theorem condition_eq (h : p.topology.HasBit b) : condition p b = .ok (p.condition b) := by
  rw [condition, touch_eq h, ok_bind, pure_eq_ok]

theorem wordConditions_eq {word : Nat} (h : word < p.topology.words.size) :
    wordConditions p word = .ok (p.wordConditions word) := by
  rw [wordConditions, within_eq h, ok_bind, pure_eq_ok]

theorem setCondition_eq (h : p.topology.HasBit b) (hz : b.isZero = false) (c : Condition) :
    setCondition p b c = .ok { p with characteristic := p.characteristic.set b c } := by
  simp [setCondition, Propagator.setCondition, hz, touch_eq h]

-- ---------------------------------------------------------------------------
-- Refreshing
-- ---------------------------------------------------------------------------

def refreshBit (p : Propagator ρ) (b : Bit) : Except Panic (Propagator ρ) := do
  let atoms ← slots p.topology b
  let fresh := p.encoding.refresh (atoms.map fun a? => a?.bind p.value?)
  let stale ← condition p b
  if fresh = stale then return p
  else
    let p ← setCondition p b fresh
    if stale.subset fresh then return p
    else
      -- The readers of a bit are those of its first atom.
      let _ ← slots p.topology b
      return p.markReaders b

def refresh (p : Propagator ρ) : Except Panic (Propagator ρ) :=
  let (bits, valuation) := p.valuation.takeDirty
  bits.foldlM refreshBit { p with valuation }

theorem refreshBit_eq (h : p.topology.HasBit b) (hz : b.isZero = false) :
    refreshBit p b = .ok (p.refreshBit b) := by
  have hfresh : p.encoding.refresh ((p.topology.slots b).map fun a? => a?.bind p.value?) =
      p.freshCondition b := rfl
  unfold refreshBit Propagator.refreshBit
  simp only [slots_eq h, condition_eq h, setCondition_eq h hz, ok_bind, pure_eq_ok, hfresh]
  split
  · rfl
  · split <;> rfl

/-- A refresh goes through if the dirty bits are there. -/
theorem refresh_eq (h : ∀ b ∈ p.valuation.dirty, b.isZero = false ∧ p.topology.HasBit b) :
    refresh p = .ok p.refresh := by
  refine foldlM_eq (P := fun q => q.topology = p.topology) (fun q hq b hb => ?_) rfl
  obtain ⟨hz, hbit⟩ := h b (List.mem_reverse.mp hb)
  refine ⟨refreshBit_eq (hq ▸ hbit) hz, ?_⟩
  rw [Propagator.refreshBit_frame]
  exact hq

-- ---------------------------------------------------------------------------
-- Notices
-- ---------------------------------------------------------------------------

/-- The atoms there is room for values of, zero included. -/
def valueRoom (p : Propagator ρ) : Nat := if p.isBuilt then p.topology.tracked.maxAtom + 1 else 1

def assign (p : Propagator ρ) (l : Literal) (isFixed : Bool) : Except Panic (Propagator ρ) := do
  if p.isBuilt && p.topology.tracked.contains l.atom then within l.atom (valueRoom p)
  return p.assign l isFixed

def unassign (p : Propagator ρ) (v : Valuation) (l : Literal) : Except Panic Valuation := do
  if p.topology.tracked.contains l.atom && !v.fixed.contains l.atom then
    within l.atom (valueRoom p)
  return (v.unassign p.topology.tracked l.atom).2

def popTo (t : Trail) (level : Nat) : Except Panic (List Literal × Trail) := do
  if let some start := t.flat.starts[level]? then within start (t.flat.literals.length + 1)
  return t.popTo level

def backtrack (p : Propagator ρ) (level : Nat) : Except Panic (Propagator ρ) := do
  let (removed, trail) ← popTo p.trail level
  let valuation ← removed.foldlM (unassign p) p.valuation
  let p ← refresh { p with trail, valuation }
  let reasons := p.reasons.filter fun l c =>
    (p.literal? l).isSome && c.all fun k => (p.literal? k).isSome
  let _ ← less p.reasons.size reasons.size
  return { p with
    status := .idle
    stream := none
    reasons
    counters.backtracks := p.counters.backtracks + 1 }

theorem lt_valueRoom (hb : p.isBuilt = true) {a : Atom}
    (h : p.topology.tracked.contains a = true) : a < valueRoom p := by
  obtain ⟨place, hplace⟩ := Option.isSome_iff_exists.mp
    (Std.TreeMap.mem_iff_isSome_getElem?.mp (Std.TreeMap.contains_iff_mem.mp h))
  rw [valueRoom, if_pos hb]
  exact Nat.lt_succ_of_le (Tracking.le_maxAtom hplace)

theorem assign_eq (p : Propagator ρ) (l : Literal) (isFixed : Bool) :
    assign p l isFixed = .ok (p.assign l isFixed) := by
  unfold assign
  split
  · next h =>
    obtain ⟨hb, htracked⟩ := Bool.and_eq_true_iff.mp h
    rw [within_eq (lt_valueRoom hb htracked), ok_bind, pure_eq_ok]
  · rfl

theorem unassign_eq (hb : p.isBuilt = true) (v : Valuation) (l : Literal) :
    unassign p v l = .ok (v.unassign p.topology.tracked l.atom).2 := by
  unfold unassign
  split
  · next h =>
    rw [within_eq (lt_valueRoom hb (Bool.and_eq_true_iff.mp h).1), ok_bind, pure_eq_ok]
  · rfl

theorem foldlM_unassign (h : p.InRange) (level : Nat) :
    (p.trail.popTo level).1.foldlM (unassign p) p.valuation =
      .ok ((p.trail.popTo level).1.foldl
        (fun v l => (v.unassign p.topology.tracked l.atom).2) p.valuation) := by
  cases hb : p.isBuilt with
  | true =>
    exact foldlM_eq (P := fun _ => True) (fun v _ l _ => ⟨unassign_eq hb v l, trivial⟩) trivial
  | false =>
    have hpopped := p.trail.toList_popTo level
    rw [h.trail (by simpa [Propagator.isBuilt, Topology.isBuilt] using hb),
      List.append_eq_nil_iff, List.reverse_eq_nil_iff] at hpopped
    rw [hpopped.2]
    rfl

theorem popTo_eq (t : Trail) (level : Nat) : popTo t level = .ok (t.popTo level) := by
  unfold popTo
  cases hstart : t.flat.starts[level]? with
  | none => rfl
  | some start =>
    dsimp only
    rw [within_eq (Nat.lt_succ_of_le (Trail.start_le hstart)), ok_bind, pure_eq_ok]

theorem backtrack_eq (h : p.InRange) (level : Nat) :
    backtrack p level = .ok (p.backtrack level) := by
  have hrefresh := refresh_eq (p := { p with
    trail := (p.trail.popTo level).2
    valuation := (p.trail.popTo level).1.foldl
      (fun v l => (v.unassign p.topology.tracked l.atom).2) p.valuation })
    (h.foldl_unassign (p.trail.popTo level).1)
  unfold backtrack Propagator.backtrack
  simp only [popTo_eq, foldlM_unassign h, hrefresh, ok_bind, pure_eq_ok,
    less_eq Std.TreeMap.size_filter_le_size]

end Guarded

end ShaDiff
