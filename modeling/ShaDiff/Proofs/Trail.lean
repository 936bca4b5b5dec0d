import ShaDiff.Trail

/-!
# The trail as one list

All literals of a trail stand in one list, and each level that was opened has a place where it
begins there. Recording, opening a level and returning to one do the same to the list and the
places as to the levels (`flat_store`, `flat_push`, `flat_popTo`), so a return cuts the list where
the level above begins.
-/

namespace ShaDiff

structure FlatTrail where
  /-- Everything recorded, oldest first. -/
  literals : List Literal := []
  /-- How many literals were recorded before each level was opened, the lowest level first. -/
  starts : List Nat := []

namespace FlatTrail

def store (t : FlatTrail) (l : Literal) : FlatTrail := { t with literals := t.literals ++ [l] }

def push (t : FlatTrail) : FlatTrail := { t with starts := t.starts ++ [t.literals.length] }

/-- Returns to a level. Answers what is cut off, newest first. -/
def popTo (t : FlatTrail) (level : Nat) : List Literal × FlatTrail :=
  match t.starts[level]? with
  | none => ([], t)
  | some start => ((t.literals.drop start).reverse,
      { literals := t.literals.take start, starts := t.starts.take level })

end FlatTrail

namespace Trail

variable {t : Trail}

def flat (t : Trail) : FlatTrail where
  literals := t.toList
  starts := (List.range t.level).map fun level => (t.popTo level).2.toList.length

theorem flat_empty : empty.flat = {} := rfl

theorem flat_store (t : Trail) (l : Literal) : (t.store l).flat = t.flat.store l := by
  have hstarts : ∀ level ∈ List.range t.level,
      ((t.store l).popTo level).2.toList.length = (t.popTo level).2.toList.length :=
    fun level hlevel => by rw [popTo_store (List.mem_range.mp hlevel)]
  rw [flat, toList_store, level_store, List.map_congr_left hstarts]
  rfl

theorem flat_push (t : Trail) : t.push.flat = t.flat.push := by
  have hstarts : ∀ level ∈ List.range t.level,
      (t.push.popTo level).2.toList.length = (t.popTo level).2.toList.length :=
    fun level hlevel => by rw [popTo_push (Nat.le_of_lt (List.mem_range.mp hlevel))]
  rw [flat, toList_push, level_push, List.range_succ, List.map_append, List.map_congr_left hstarts,
    List.map_singleton, popTo_push (Nat.le_refl _), popTo_level]
  rfl

theorem getElem?_starts (t : Trail) (level : Nat) : t.flat.starts[level]? =
    if level < t.level then some (t.popTo level).2.toList.length else none := by
  rw [flat, List.getElem?_map]
  split
  · next h => rw [List.getElem?_range h, Option.map_some]
  · next h => rw [List.getElem?_eq_none (by simpa using h), Option.map_none]

theorem start_le {level start : Nat} (h : t.flat.starts[level]? = some start) :
    start ≤ t.flat.literals.length := by
  rw [getElem?_starts, Option.ite_none_right_eq_some] at h
  obtain ⟨-, hstart⟩ := h
  rw [← Option.some.inj hstart]
  show _ ≤ t.toList.length
  rw [← t.toList_popTo level, List.length_append]
  exact Nat.le_add_right ..

/-- To return to a level is to cut the list where the level above begins. -/
theorem flat_popTo (t : Trail) (level : Nat) :
    t.flat.popTo level = ((t.popTo level).1, (t.popTo level).2.flat) := by
  rw [FlatTrail.popTo, getElem?_starts]
  by_cases hlt : level < t.level
  · have hliterals : t.flat.literals = (t.popTo level).2.toList ++ (t.popTo level).1.reverse :=
      (t.toList_popTo level).symm
    have hlevel : (t.popTo level).2.level = level := by
      rw [level_popTo, Nat.min_eq_right (Nat.le_of_lt hlt)]
    have hstarts : t.flat.starts.take level = (t.popTo level).2.flat.starts := by
      rw [flat, flat, hlevel, ← List.map_take, List.take_range,
        Nat.min_eq_left (Nat.le_of_lt hlt)]
      exact List.map_congr_left fun l hl => by
        rw [popTo_popTo (Nat.le_of_lt (List.mem_range.mp hl))]
    rw [if_pos hlt]
    dsimp only
    rw [hliterals, List.drop_left, List.reverse_reverse, List.take_left, hstarts]
    rfl
  · rw [if_neg hlt]
    simp [popTo, Nat.sub_eq_zero_of_le (Nat.not_lt.mp hlt)]

end Trail

end ShaDiff
