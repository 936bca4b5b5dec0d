import ShaDiff.Proofs.Topology.Entering
import ShaDiff.Propagator.Refresh

/-!
# Conditions mirror the valuation

A bit that is not dirty has the condition that the values of its atoms say
(`Mirrors`). Changing the value of an atom makes the bit of its place dirty, and no
other bit has the atom in a slot. So after a refresh every condition is that of the
valuation (`Reflects`), whatever was assigned and taken back before.
-/

namespace ShaDiff

-- ---------------------------------------------------------------------------
-- Dirty bits
-- ---------------------------------------------------------------------------

namespace Valuation

def Listed (v : Valuation) : Prop := ∀ b, v.dirtySet.contains b = true ↔ b ∈ v.dirty

variable {v : Valuation}

theorem mem_dirty_markDirty (h : v.Listed) (b c : Bit) :
    c ∈ (v.markDirty b).dirty ↔ c = b ∨ c ∈ v.dirty := by
  unfold markDirty
  split
  · rename_i hb
    have := (h b).mp hb
    exact ⟨.inr, fun hc => hc.elim (fun hc => hc ▸ this) id⟩
  · exact List.mem_cons

theorem Listed.markDirty (h : v.Listed) (b : Bit) : (v.markDirty b).Listed := by
  intro c
  rw [mem_dirty_markDirty h, ← h c]
  unfold Valuation.markDirty
  split
  · rename_i hb
    exact ⟨.inr, fun hc => hc.elim (fun hc => hc ▸ hb) id⟩
  · rw [Std.TreeSet.contains_insert, Bool.or_eq_true, beq_iff_eq,
      Std.LawfulEqCmp.compare_eq_iff_eq, eq_comm]

@[simp]
theorem value?_empty (a : Atom) : Valuation.empty.value? a = none := by
  simp [Valuation.value?, Valuation.empty]

theorem value?_markDirty (v : Valuation) (b : Bit) (a : Atom) :
    (v.markDirty b).value? a = v.value? a := by
  unfold markDirty
  split <;> rfl

theorem value?_unassign_of_none {x : Atom} (h : v.value? x = none)
    (t : Tracking) (a : Atom) : (v.unassign t a).2.value? x = none := by
  unfold unassign
  split
  · exact h
  · split
    · exact h
    · rw [value?_markDirty]
      show (v.values.erase a)[x]? = none
      rw [Std.TreeMap.getElem?_erase]
      split
      · rfl
      · exact h

theorem value?_foldl_unassign {x : Atom} (h : v.value? x = none) (t : Tracking)
    (ls : List Literal) :
    (ls.foldl (fun v l => (v.unassign t l.atom).2) v).value? x = none := by
  induction ls generalizing v with
  | nil => exact h
  | cons l ls ih => exact ih (value?_unassign_of_none h t l.atom)

end Valuation

namespace Topology

def conditionOf (t : Topology) (v : Valuation) (b : Bit) : Condition :=
  t.encoding.refresh ((t.slots b).map fun a? => a?.bind v.value?)

variable {t : Topology} {v w : Valuation} {c : Characteristic} {b : Bit}

theorem conditionOf_congr (h : ∀ a, some a ∈ t.slots b → v.value? a = w.value? a) :
    t.conditionOf v b = t.conditionOf w b := by
  refine congrArg t.encoding.refresh (List.map_congr_left fun a? ha => ?_)
  cases a? with
  | none => rfl
  | some a => exact h a ha

theorem conditionOf_of_none (h : ∀ a, v.value? a = none) (b : Bit) :
    t.conditionOf v b = .any := by
  refine Encoding.refresh_of_none fun x hx => ?_
  obtain ⟨a?, -, rfl⟩ := List.mem_map.mp hx
  cases a? with
  | none => rfl
  | some a => exact h a

-- ---------------------------------------------------------------------------
-- Mirrors
-- ---------------------------------------------------------------------------

/-- Whether all bits but those of the zero word and dirty ones have the condition that
the valuation gives them. -/
structure Mirrors (t : Topology) (v : Valuation) (c : Characteristic) : Prop where
  listed : v.Listed
  fresh : ∀ b : Bit, b.isZero = false → b ∈ v.dirty ∨ c.get b = t.conditionOf v b

/-- Whether all bits but those of the zero word have the condition that the valuation
gives them. -/
def Reflects (t : Topology) (v : Valuation) (c : Characteristic) : Prop :=
  ∀ b : Bit, b.isZero = false → c.get b = t.conditionOf v b

theorem Mirrors.change (ht : t.Tracks) (h : t.Mirrors v c) {a : Atom} {p : Place}
    (hp : t.tracked[a]? = some p) (hw : w.Listed)
    (hdirty : ∀ b, b ∈ w.dirty ↔ b = p.bit ∨ b ∈ v.dirty)
    (hvalue : ∀ x, x ≠ a → w.value? x = v.value? x) : t.Mirrors w c where
  listed := hw
  fresh b hb := by
    rw [hdirty]
    by_cases hbit : b = p.bit
    · exact .inl (.inl hbit)
    rcases h.fresh b hb with hold | hold
    · exact .inl (.inr hold)
    · refine .inr (hold.trans (conditionOf_congr fun x hx => (hvalue x ?_).symm))
      rintro rfl
      obtain ⟨slot, hslot⟩ := List.getElem?_of_mem hx
      have hplace := ht b slot x (by rw [hslot]; rfl)
      exact hbit (congrArg Place.bit (Option.some.inj (hplace.symm.trans hp)))

theorem Mirrors.assign (ht : t.Tracks) (h : t.Mirrors v c) (l : Literal) :
    t.Mirrors (v.assign t.tracked l).2 c := by
  unfold Valuation.assign
  split
  · exact h
  · rename_i p hp
    have hlisted : ({ v with values := v.values.insert l.atom l.polarity } : Valuation).Listed :=
      h.listed
    refine h.change ht hp (hlisted.markDirty _) (Valuation.mem_dirty_markDirty hlisted p.bit) ?_
    intro x hx
    rw [Valuation.value?_markDirty]
    show (v.values.insert l.atom l.polarity)[x]? = _
    rw [Std.TreeMap.getElem?_insert, if_neg]
    · rfl
    · exact fun heq => hx (Std.LawfulEqCmp.compare_eq_iff_eq.mp heq).symm

theorem Mirrors.unassign (ht : t.Tracks) (h : t.Mirrors v c) (a : Atom) :
    t.Mirrors (v.unassign t.tracked a).2 c := by
  unfold Valuation.unassign
  split
  · exact h
  · rename_i p hp
    split
    · exact h
    · have hlisted : ({ v with values := v.values.erase a } : Valuation).Listed := h.listed
      refine h.change ht hp (hlisted.markDirty _) (Valuation.mem_dirty_markDirty hlisted p.bit) ?_
      intro x hx
      rw [Valuation.value?_markDirty]
      show (v.values.erase a)[x]? = _
      rw [Std.TreeMap.getElem?_erase, if_neg]
      · rfl
      · exact fun heq => hx (Std.LawfulEqCmp.compare_eq_iff_eq.mp heq).symm

theorem Mirrors.foldl_unassign (ht : t.Tracks) (h : t.Mirrors v c) (ls : List Literal) :
    t.Mirrors (ls.foldl (fun v l => (v.unassign t.tracked l.atom).2) v) c := by
  induction ls generalizing v with
  | nil => exact h
  | cons l ls ih => exact ih (h.unassign ht l.atom)

theorem Mirrors.setFixed (h : t.Mirrors v c) (a : Atom) (isFixed : Bool) :
    t.Mirrors (v.setFixed a isFixed) c := ⟨h.listed, h.fresh⟩

theorem Mirrors.of_none (hl : v.Listed) (hv : ∀ a, v.value? a = none)
    (hc : ∀ b : Bit, b.isZero = false → c.get b = .any) : t.Mirrors v c where
  listed := hl
  fresh b hb := .inr ((hc b hb).trans (conditionOf_of_none hv b).symm)

end Topology

-- ---------------------------------------------------------------------------
-- Refreshing
-- ---------------------------------------------------------------------------

theorem Characteristic.get_set_of_ne_zero {b : Bit} (hb : b.isZero = false) (c : Characteristic)
    (a : Bit) (d : Condition) : (c.set a d).get b = if a = b then d else c.get b := by
  by_cases ha : a.isZero = false
  · exact c.get_set ha b d
  · have hne : a ≠ b := fun h => ha (h ▸ hb)
    simp only [get, set, hb, Std.TreeMap.getD_insert, Std.LawfulEqCmp.compare_eq_iff_eq, hne,
      if_false]

namespace Propagator

variable {ρ : Type} {p q : Propagator ρ} {b : Bit}

theorem condition_of_isZero (hb : b.isZero = true) : p.condition b = .zero :=
  Characteristic.get_zero hb p.characteristic

theorem reflects_of_clean (h : p.topology.Mirrors p.valuation p.characteristic)
    (hclean : p.valuation.dirty = []) : p.topology.Reflects p.valuation p.characteristic :=
  fun b hb => (h.fresh b hb).resolve_left (by rw [hclean]; exact List.not_mem_nil)

theorem condition_of_values (htopology : q.topology = p.topology)
    (hp : p.topology.Reflects p.valuation p.characteristic)
    (hq : q.topology.Reflects q.valuation q.characteristic)
    (hvalue : ∀ a, q.value? a = p.value? a) (b : Bit) : q.condition b = p.condition b := by
  cases hb : b.isZero with
  | true => rw [condition_of_isZero hb, condition_of_isZero hb]
  | false =>
    refine (hq b hb).trans (Eq.trans ?_ (hp b hb).symm)
    rw [htopology]
    exact Topology.conditionOf_congr fun a _ => hvalue a

/-- Refreshing a bit changes its condition and what is marked. -/
theorem refreshBit_frame (p : Propagator ρ) (b : Bit) : p.refreshBit b =
    { p with characteristic := (p.refreshBit b).characteristic, marks := (p.refreshBit b).marks } := by
  unfold refreshBit
  dsimp only
  split
  · rfl
  · split <;> rfl

theorem condition_refreshBit (p : Propagator ρ) (b : Bit) {d : Bit} (hd : d.isZero = false) :
    (p.refreshBit b).condition d =
      if d = b then p.topology.conditionOf p.valuation b else p.condition d := by
  have hset : (p.characteristic.set b (p.freshCondition b)).get d =
      if d = b then p.topology.conditionOf p.valuation b else p.condition d := by
    rw [Characteristic.get_set_of_ne_zero hd]
    simp only [eq_comm (a := b)]
    rfl
  unfold refreshBit
  dsimp only
  split
  · rename_i hsame
    split
    · rename_i heq
      rw [heq]
      exact hsame.symm
    · rfl
  · split
    · exact hset
    · exact hset

theorem foldl_refreshBit (p : Propagator ρ) (bits : List Bit) :
    bits.foldl refreshBit p = { p with
      characteristic := (bits.foldl refreshBit p).characteristic
      marks := (bits.foldl refreshBit p).marks } ∧
    ∀ d : Bit, d.isZero = false → (bits.foldl refreshBit p).condition d =
      if d ∈ bits then p.topology.conditionOf p.valuation d else p.condition d := by
  induction bits generalizing p with
  | nil => exact ⟨rfl, fun d _ => (if_neg List.not_mem_nil).symm⟩
  | cons b bits ih =>
    obtain ⟨hframe, hcond⟩ := ih (p.refreshBit b)
    rw [List.foldl_cons]
    refine ⟨?_, fun d hd => ?_⟩
    · rw [hframe, refreshBit_frame]
    · have htopology : (p.refreshBit b).topology = p.topology := by rw [refreshBit_frame]
      have hvaluation : (p.refreshBit b).valuation = p.valuation := by rw [refreshBit_frame]
      rw [hcond d hd, condition_refreshBit p b hd, htopology, hvaluation]
      by_cases hdb : d = b
      · subst hdb
        simp
      · simp [hdb]

theorem refresh_frame (p : Propagator ρ) : p.refresh = { p with
    valuation := { p.valuation with dirty := [], dirtySet := ∅ }
    characteristic := p.refresh.characteristic
    marks := p.refresh.marks } := by
  unfold refresh
  dsimp only [Valuation.takeDirty]
  rw [(foldl_refreshBit _ _).1]

/-- After a refresh all conditions are those of the valuation. -/
theorem reflects_refresh (h : p.topology.Mirrors p.valuation p.characteristic) :
    p.refresh.topology.Reflects p.refresh.valuation p.refresh.characteristic := by
  intro d hd
  have hcond := (foldl_refreshBit { p with valuation := p.valuation.takeDirty.2 }
    p.valuation.takeDirty.1).2 d hd
  have hsame : p.topology.conditionOf p.valuation.takeDirty.2 d =
      p.topology.conditionOf p.valuation d :=
    Topology.conditionOf_congr fun _ _ => rfl
  rw [refresh_frame]
  refine hcond.trans ?_
  show (if _ then p.topology.conditionOf p.valuation.takeDirty.2 d else p.characteristic.get d) =
    p.topology.conditionOf p.valuation.takeDirty.2 d
  split
  · rfl
  · rename_i hclean
    rw [hsame]
    refine (h.fresh d hd).resolve_left fun hdirty => hclean ?_
    exact List.mem_reverse.mpr hdirty

theorem mirrors_refresh (h : p.topology.Mirrors p.valuation p.characteristic) :
    p.refresh.topology.Mirrors p.refresh.valuation p.refresh.characteristic where
  listed := by
    rw [refresh_frame]
    intro b
    exact ⟨fun h => by simp at h, fun h => nomatch h⟩
  fresh b hb := .inr (reflects_refresh h b hb)

end Propagator

end ShaDiff
