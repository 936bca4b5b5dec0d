import ShaDiff.Literal

/-!
# Two-bit equations

A two-bit equation states that the differences of two bits sum to a value. The
bits are named by the atoms of their difference slots. Its antecedent is a
clause that was false when the equation was found: the equation may be used as
long as the antecedent stays false. A collection of equations without solution
is therefore blocked by the union of their antecedents.
-/

namespace ShaDiff

structure Equation where
  a : Atom
  b : Atom
  value : Bool
  antecedent : Clause
deriving DecidableEq

namespace Equation

/-- An equation between two atoms, which are put in ascending order. -/
def between (a b : Atom) (value : Bool) (antecedent : Clause) : Equation :=
  if a ≤ b then ⟨a, b, value, antecedent⟩ else ⟨b, a, value, antecedent⟩

def isLive (e : Equation) (value? : Literal → Option Bool) : Bool :=
  e.antecedent.all fun l => value? l == some false

def text (e : Equation) : String := s!"Δ{e.a} ⊕ Δ{e.b} = {e.value.toNat}"

/-- By the atoms and then the value. Antecedents are not compared. -/
def le (e f : Equation) : Bool :=
  e.a < f.a || e.a == f.a && (e.b < f.b || e.b == f.b && e.value.toNat ≤ f.value.toNat)

def insert (e : Equation) : List Equation → List Equation
  | [] => [e]
  | f :: fs => if e.le f then e :: f :: fs else f :: insert e fs

theorem mem_insert {d e : Equation} {fs : List Equation} : d ∈ insert e fs ↔ d = e ∨ d ∈ fs := by
  induction fs with
  | nil => simp [insert]
  | cons f fs ih =>
    unfold insert
    split
    · simp
    · simp only [List.mem_cons, ih]
      exact or_left_comm

/-- Equations in ascending order, those that compare equal in the order given. -/
def sort (es : List Equation) : List Equation := es.foldr insert []

theorem mem_sort {e : Equation} {es : List Equation} : e ∈ sort es ↔ e ∈ es := by
  induction es with
  | nil => simp [sort]
  | cons f fs ih =>
    show e ∈ insert f (sort fs) ↔ _
    rw [mem_insert, ih, List.mem_cons]

/-- The clause which is false as long as all of the equations are live. -/
def blockingClause (es : List Equation) : Clause := .ofList (es.flatMap (·.antecedent))

end Equation

/-- The first element that no other element is less than. -/
def firstLeast (less : α → α → Bool) : List α → Option α
  | [] => none
  | x :: xs =>
    match firstLeast less xs with
    | some y => if less y x then some y else some x
    | none => some x

theorem firstLeast_eq_none {less : α → α → Bool} {xs : List α} :
    firstLeast less xs = none ↔ xs = [] := by
  cases xs with
  | nil => simp [firstLeast]
  | cons x xs =>
    simp only [firstLeast, List.cons_ne_nil, iff_false]
    split
    · split <;> simp
    · simp

theorem firstLeast_eq_some {key : α → Nat} {xs : List α} {x : α} :
    firstLeast (fun y z => decide (key y < key z)) xs = some x ↔ ∃ before after,
      xs = before ++ x :: after ∧ (∀ y ∈ before, key x < key y) ∧ ∀ y ∈ after, key x ≤ key y := by
  induction xs generalizing x with
  | nil => simp [firstLeast]
  | cons y ys ih =>
    unfold firstLeast
    constructor
    · intro h
      split at h
      · next z hz =>
        obtain ⟨before, after, rfl, hbefore, hafter⟩ := ih.mp hz
        split at h
        · next hlt =>
          obtain rfl := Option.some.inj h
          refine ⟨y :: before, after, rfl, ?_, hafter⟩
          simpa using ⟨of_decide_eq_true hlt, hbefore⟩
        · next hge =>
          obtain rfl := Option.some.inj h
          refine ⟨[], before ++ z :: after, rfl, by simp, ?_⟩
          have hle : key y ≤ key z := by simpa using hge
          intro w hw
          rcases List.mem_append.mp hw with hw | hw
          · exact Nat.le_trans hle (Nat.le_of_lt (hbefore w hw))
          · rcases List.mem_cons.mp hw with rfl | hw
            · exact hle
            · exact Nat.le_trans hle (hafter w hw)
      · next hnone =>
        obtain rfl := Option.some.inj h
        obtain rfl := firstLeast_eq_none.mp hnone
        exact ⟨[], [], rfl, by simp, by simp⟩
    · rintro ⟨before, after, hsplit, hbefore, hafter⟩
      cases before with
      | nil =>
        obtain ⟨rfl, rfl⟩ := List.cons.inj hsplit
        split
        · next z hz =>
          obtain ⟨first, rest, rfl, -, -⟩ := ih.mp hz
          have := hafter z (by simp)
          rw [if_neg (by simpa using this)]
        · rfl
      | cons w before =>
        obtain ⟨rfl, rfl⟩ := List.cons.inj hsplit
        obtain ⟨hlt, hbefore⟩ := List.forall_mem_cons.mp hbefore
        rw [ih.mpr ⟨before, after, rfl, hbefore, hafter⟩]
        simp [hlt]

theorem mem_of_firstLeast {less : α → α → Bool} {xs : List α} {x : α}
    (h : firstLeast less xs = some x) : x ∈ xs := by
  induction xs generalizing x with
  | nil => simp [firstLeast] at h
  | cons y ys ih =>
    unfold firstLeast at h
    split at h
    · next z hz =>
      split at h
      · exact .tail _ (ih (by rw [hz, h]))
      · simp_all
    · simp_all

end ShaDiff
