import ShaDiff.Literal

/-!
# The trail

The trail records the assignments the host made, by decision level. Opening a
level is the only way to the next one, and a return to a level takes off all
that was recorded above it.
-/

namespace ShaDiff

structure Trail where
  /-- What was recorded at level zero, newest first. -/
  base : List Literal := []
  /-- What was recorded at each open level, newest level and newest literal first. -/
  opened : List (List Literal) := []
deriving DecidableEq

namespace Trail

def empty : Trail := {}

def level (t : Trail) : Nat := t.opened.length

def toList (t : Trail) : List Literal := (t.opened.flatten ++ t.base).reverse

def top (t : Trail) : List Literal := (t.opened.headD t.base).reverse

def store (t : Trail) (l : Literal) : Trail :=
  match t.opened with
  | [] => { t with base := l :: t.base }
  | level :: levels => { t with opened := (l :: level) :: levels }

theorem toList_store (t : Trail) (l : Literal) : (t.store l).toList = t.toList ++ [l] := by
  rcases t with ⟨base, _ | ⟨level, levels⟩⟩ <;> simp [store, toList]

theorem level_store (t : Trail) (l : Literal) : (t.store l).level = t.level := by
  rcases t with ⟨base, _ | ⟨level, levels⟩⟩ <;> simp [store, Trail.level]

def push (t : Trail) : Trail := { t with opened := [] :: t.opened }

theorem toList_push (t : Trail) : t.push.toList = t.toList := by
  simp [push, toList]

theorem level_push (t : Trail) : t.push.level = t.level + 1 := by
  simp [push, Trail.level]

/-- Returns to a level below the current one. Answers what was recorded above
it, newest first. -/
def popTo (t : Trail) (level : Nat) : List Literal × Trail :=
  let above := t.level - level
  ((t.opened.take above).flatten, { t with opened := t.opened.drop above })

theorem toList_popTo (t : Trail) (level : Nat) :
    (t.popTo level).2.toList ++ (t.popTo level).1.reverse = t.toList := by
  simp only [popTo, toList, ← List.reverse_append, ← List.append_assoc, ← List.flatten_append,
    List.take_append_drop]

theorem level_popTo (t : Trail) (level : Nat) : (t.popTo level).2.level = min t.level level := by
  simp only [popTo, Trail.level, List.length_drop]
  omega

theorem popTo_level (t : Trail) : (t.popTo t.level).2 = t := by
  simp [popTo]

theorem popTo_push {t : Trail} {level : Nat} (h : level ≤ t.level) :
    (t.push.popTo level).2 = (t.popTo level).2 := by
  simp only [popTo, push, Trail.level, List.length_cons] at h ⊢
  rw [Nat.succ_sub h, List.drop_succ_cons]

theorem popTo_store {t : Trail} {level : Nat} (h : level < t.level) (l : Literal) :
    ((t.store l).popTo level).2 = (t.popTo level).2 := by
  rcases t with ⟨base, _ | ⟨top, levels⟩⟩
  · cases h
  · simp only [popTo, store, Trail.level, List.length_cons] at h ⊢
    rw [Nat.succ_sub (Nat.lt_succ_iff.mp h), List.drop_succ_cons, List.drop_succ_cons]

theorem fst_popTo_push {t : Trail} {level : Nat} (h : level ≤ t.level) :
    (t.push.popTo level).1 = (t.popTo level).1 := by
  simp only [popTo, push, Trail.level, List.length_cons] at h ⊢
  rw [Nat.succ_sub h, List.take_succ_cons, List.flatten_cons, List.nil_append]

theorem fst_popTo_store {t : Trail} {level : Nat} (h : level < t.level) (l : Literal) :
    ((t.store l).popTo level).1 = l :: (t.popTo level).1 := by
  rcases t with ⟨base, _ | ⟨top, levels⟩⟩
  · cases h
  · simp only [popTo, store, Trail.level, List.length_cons] at h ⊢
    rw [Nat.succ_sub (Nat.lt_succ_iff.mp h), List.take_succ_cons, List.take_succ_cons,
      List.flatten_cons, List.flatten_cons, List.cons_append]

theorem fst_popTo_popTo {t : Trail} {level level' : Nat} (h : level ≤ level') :
    (t.popTo level').1 ++ ((t.popTo level').2.popTo level).1 = (t.popTo level).1 := by
  simp only [popTo, Trail.level, List.length_drop]
  rw [← List.flatten_append, ← List.take_add]
  congr 2
  omega

theorem popTo_popTo {t : Trail} {level level' : Nat} (h : level ≤ level') :
    ((t.popTo level').2.popTo level).2 = (t.popTo level).2 := by
  simp only [popTo, Trail.level, List.length_drop, List.drop_drop, Trail.mk.injEq, true_and]
  congr 1
  omega

end Trail

end ShaDiff
