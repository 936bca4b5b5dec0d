import ShaDiff.Breach
import ShaDiff.Cache
import ShaDiff.Topology.Entering

/-!
# Guarded evaluation

Most functions of a propagator are total: what is not there is read as a default, and numbers
have no bound. Guarded evaluation does the same with places that have to be there and numbers
that have to fit, and ends in a panic where one does not. Each guarded function is followed by
what makes it do the same as the function it guards. Whatever is read or written at an index is
guarded, and so is each loop that does not walk along a list. Counts are the one kind of number
that is left without a bound.
-/

namespace ShaDiff

inductive Panic
  | outOfRange (index length : Nat)
  /-- A number does not fit its type. -/
  | overflow (n : Int)
  /-- A number is shifted by more digits than it has. -/
  | shift (amount width : Nat)
  | zeroDivisor
  /-- A loop takes more steps than it was given. -/
  | endless
  | assertion
  | breach (b : Breach)
deriving DecidableEq

namespace Guarded

variable {α β σ κ : Type} [Ord κ]

-- ---------------------------------------------------------------------------
-- Guards
-- ---------------------------------------------------------------------------

def within (index length : Nat) : Except Panic Unit :=
  if index < length then .ok () else .error (.outOfRange index length)

def read (xs : List α) (index : Nat) : Except Panic α :=
  match xs[index]? with
  | some x => .ok x
  | none => .error (.outOfRange index xs.length)

def write (xs : List α) (index : Nat) (x : α) : Except Panic (List α) := do
  within index xs.length
  return xs.set index x

def fits (width : Nat) (n : Int) : Except Panic Unit :=
  if -((1 <<< (width - 1) : Nat) : Int) ≤ n ∧ n < (1 <<< (width - 1) : Nat) then .ok ()
  else .error (.overflow n)

def shift (amount width : Nat) : Except Panic Unit :=
  if amount < width then .ok () else .error (.shift amount width)

def less (m n : Nat) : Except Panic Nat :=
  if n ≤ m then .ok (m - n) else .error (.overflow (m - n))

def remainder (m n : Nat) : Except Panic Nat :=
  if n = 0 then .error .zeroDivisor else .ok (m % n)

def require (holds : Bool) : Except Panic Unit := if holds then .ok () else .error .assertion

def unbreached (result : Except Breach α) : Except Panic α := result.mapError .breach

def literal (l : Literal) : Except Panic Literal := do
  fits 32 l.toInt
  return l

def negate (l : Literal) : Except Panic Literal := do
  fits 32 (-l.toInt)
  return l.negate

def remembered (c : Cache κ β) (k : κ) (f : κ → Except Panic β) : Except Panic (β × Cache κ β) :=
  match c.get? k with
  | (some v, c) => .ok (v, c)
  | (none, c) => do
    let v ← f k
    return (v, c.insert k v)

-- ---------------------------------------------------------------------------
-- Evaluation that goes on
-- ---------------------------------------------------------------------------

@[simp] theorem ok_bind (a : α) (f : α → Except Panic β) : (Except.ok a >>= f) = f a := rfl

@[simp] theorem pure_eq_ok (a : α) : (pure a : Except Panic α) = .ok a := rfl

@[simp] theorem unbreached_ok (a : α) : unbreached (.ok a) = .ok a := rfl

theorem within_eq {index length : Nat} (h : index < length) : within index length = .ok () :=
  if_pos h

theorem read_eq {xs : List α} {index : Nat} {x : α} (h : xs[index]? = some x) :
    read xs index = .ok x := by
  unfold read
  rw [h]

theorem read_getD {xs : List α} {index : Nat} (h : index < xs.length) (d : α) :
    read xs index = .ok (xs.getD index d) :=
  read_eq (by simp [h])

theorem write_eq {xs : List α} {index : Nat} (h : index < xs.length) (x : α) :
    write xs index x = .ok (xs.set index x) := by
  rw [write, within_eq h, ok_bind, pure_eq_ok]

theorem read_append (before after : List α) (x : α) :
    read (before ++ x :: after) before.length = .ok x :=
  read_eq (by simp)

theorem write_append (before after : List α) (x y : α) :
    write (before ++ x :: after) before.length y = .ok (before ++ y :: after) := by
  rw [write_eq (by simp), List.set_append_right before.length y (Nat.le_refl _), Nat.sub_self,
    List.set_cons_zero]

theorem shift_eq {amount width : Nat} (h : amount < width) : shift amount width = .ok () := if_pos h

theorem less_eq {m n : Nat} (h : n ≤ m) : less m n = .ok (m - n) := if_pos h

theorem remainder_eq {m n : Nat} (h : n ≠ 0) : remainder m n = .ok (m % n) := if_neg h

theorem literal_eq {l : Literal} (h : l.atom ≤ Topology.atomMax) : literal l = .ok l := by
  have h : (l.atom : Int) ≤ 2147483647 := Int.ofNat_le.mpr h
  have hfits : fits 32 l.toInt = .ok () := by
    refine if_pos ?_
    simp only [Literal.toInt, Nat.reduceSub, Nat.reduceShiftLeft]
    split <;> omega
  simp [literal, hfits]

theorem negate_eq {l : Literal} (h : l.atom ≤ Topology.atomMax) : negate l = .ok l.negate := by
  have h : (l.atom : Int) ≤ 2147483647 := Int.ofNat_le.mpr h
  have hfits : fits 32 (-l.toInt) = .ok () := by
    refine if_pos ?_
    simp only [Literal.toInt, Nat.reduceSub, Nat.reduceShiftLeft]
    split <;> omega
  simp [negate, hfits]

theorem remembered_eq {c : Cache κ β} {k : κ} {f : κ → Except Panic β} {g : κ → β}
    (h : f k = .ok (g k)) : remembered c k f = .ok (c.getOrInsert k g) := by
  unfold remembered Cache.getOrInsert
  split
  · next heq => rw [heq]
  · next heq => simp [heq, h]

-- ---------------------------------------------------------------------------
-- Lists
-- ---------------------------------------------------------------------------

theorem mapM_eq {f : α → Except Panic β} {g : α → β} {xs : List α}
    (h : ∀ x ∈ xs, f x = .ok (g x)) : xs.mapM f = .ok (xs.map g) := by
  induction xs with
  | nil => rfl
  | cons x xs ih =>
    obtain ⟨hx, hxs⟩ := List.forall_mem_cons.mp h
    simp [List.mapM_cons, hx, ih hxs]

theorem mapM_literal {ls : List Literal} (h : ∀ l ∈ ls, l.atom ≤ Topology.atomMax) :
    ls.mapM literal = .ok ls :=
  (mapM_eq (g := id) fun l hl => literal_eq (h l hl)).trans (congrArg Except.ok (List.map_id ls))

theorem forM_eq {f : α → Except Panic Unit} {xs : List α} (h : ∀ x ∈ xs, f x = .ok ()) :
    xs.forM f = .ok () := by
  induction xs with
  | nil => rfl
  | cons x xs ih =>
    obtain ⟨hx, hxs⟩ := List.forall_mem_cons.mp h
    show (f x >>= fun _ => xs.forM f) = _
    rw [hx, ok_bind, ih hxs]

theorem findM?_eq {f : α → Except Panic Bool} {g : α → Bool} {xs : List α}
    (h : ∀ x ∈ xs, f x = .ok (g x)) : xs.findM? f = .ok (xs.find? g) := by
  induction xs with
  | nil => rfl
  | cons x xs ih =>
    obtain ⟨hx, hxs⟩ := List.forall_mem_cons.mp h
    rw [List.findM?, hx, ok_bind, List.find?_cons]
    cases g x with
    | true => rfl
    | false => exact ih hxs

theorem allM_eq {f : α → Except Panic Bool} {g : α → Bool} {xs : List α}
    (h : ∀ x ∈ xs, f x = .ok (g x)) : xs.allM f = .ok (xs.all g) := by
  induction xs with
  | nil => rfl
  | cons x xs ih =>
    obtain ⟨hx, hxs⟩ := List.forall_mem_cons.mp h
    rw [List.allM, hx, ok_bind, List.all_cons]
    cases g x with
    | true => exact ih hxs
    | false => rfl

theorem anyM_eq {f : α → Except Panic Bool} {g : α → Bool} {xs : List α}
    (h : ∀ x ∈ xs, f x = .ok (g x)) : xs.anyM f = .ok (xs.any g) := by
  induction xs with
  | nil => rfl
  | cons x xs ih =>
    obtain ⟨hx, hxs⟩ := List.forall_mem_cons.mp h
    rw [List.anyM, hx, ok_bind, List.any_cons]
    cases g x with
    | true => rfl
    | false => exact ih hxs

theorem filterM_eq {α : Type} {f : α → Except Panic Bool} {g : α → Bool} {xs : List α}
    (h : ∀ x ∈ xs, f x = .ok (g x)) : xs.filterM f = .ok (xs.filter g) := by
  have haux (kept : List α) :
      xs.filterAuxM f kept = .ok ((xs.filter g).reverse ++ kept) := by
    induction xs generalizing kept with
    | nil => rfl
    | cons x xs ih =>
      obtain ⟨hx, hxs⟩ := List.forall_mem_cons.mp h
      rw [List.filterAuxM, hx, ok_bind, ih hxs, List.filter_cons]
      cases g x <;> simp
  rw [List.filterM, haux, ok_bind, pure_eq_ok, List.append_nil, List.reverse_reverse]

/-- A fold goes on as long as its steps keep what makes them go on. -/
theorem foldlM_eq {P : σ → Prop} {f : σ → α → Except Panic σ} {g : σ → α → σ} {xs : List α}
    (h : ∀ s, P s → ∀ x ∈ xs, f s x = .ok (g s x) ∧ P (g s x)) {s : σ} (hs : P s) :
    xs.foldlM f s = .ok (xs.foldl g s) := by
  induction xs generalizing s with
  | nil => rfl
  | cons x xs ih =>
    obtain ⟨hx, hkept⟩ := h s hs x (.head _)
    rw [List.foldlM_cons, hx, ok_bind, List.foldl_cons]
    exact ih (fun s hs y hy => h s hs y (.tail _ hy)) hkept

end Guarded

end ShaDiff
