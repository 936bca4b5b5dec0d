/-!
# Literals and clauses

The host solver names its boolean variables by positive integers, here called
atoms. A literal pairs an atom with a polarity and travels as a signed integer
whose sign is the polarity.
-/

namespace ShaDiff

abbrev Atom := Nat

structure Literal where
  atom : Atom
  polarity : Bool
deriving DecidableEq

namespace Literal

def negate (l : Literal) : Literal := ⟨l.atom, !l.polarity⟩

theorem negate_negate (l : Literal) : l.negate.negate = l := by
  simp [negate]

theorem negate_ne (l : Literal) : l.negate ≠ l := by
  intro h
  simpa [negate] using congrArg polarity h

def toInt (l : Literal) : Int := if l.polarity then l.atom else -l.atom

/-- Zero, which no solver uses as a literal, reads as a negative one. -/
def ofInt (i : Int) : Literal := ⟨i.natAbs, 0 < i⟩

theorem ofInt_toInt {l : Literal} (h : l.atom ≠ 0) : ofInt l.toInt = l := by
  rcases l with ⟨a, _ | _⟩
  · simp [ofInt, toInt]
  · have : 0 < a := Nat.pos_of_ne_zero h
    simp [ofInt, toInt, this]

theorem toInt_ofInt (i : Int) : (ofInt i).toInt = i := by
  simp only [ofInt, toInt, decide_eq_true_eq]
  split <;> omega

/-- The literal as it travels. Atoms below 2147483648 keep their number. -/
def signed (l : Literal) : Int32 := Int32.ofInt l.toInt

theorem toInt_signed {l : Literal} (h : l.atom < 1 <<< 31) : l.signed.toInt = l.toInt := by
  have h : (l.atom : Int) < 2147483648 := Int.ofNat_lt.2 h
  apply Int32.toInt_ofInt_of_le <;> simp only [toInt] <;> split <;> omega

instance : Ord Literal := ⟨compareLex (compareOn atom) (compareOn polarity)⟩
instance : Std.TransOrd Literal :=
  inferInstanceAs (Std.TransCmp (compareLex (compareOn atom) (compareOn polarity)))
instance : Std.LawfulEqOrd Literal where
  eq_of_compare {l m} h := by
    have h' := Ordering.then_eq_eq.1 (show ((compare l.atom m.atom).then _) = _ from h)
    rcases l with ⟨a, p⟩
    rcases m with ⟨b, q⟩
    rw [Literal.mk.injEq]
    exact ⟨Std.LawfulEqOrd.eq_of_compare h'.1, Std.LawfulEqOrd.eq_of_compare h'.2⟩

end Literal

abbrev Clause := List Literal

namespace Clause

def insert (l : Literal) : Clause → Clause
  | [] => [l]
  | m :: ms =>
    if l = m then m :: ms
    else if l.toInt < m.toInt then l :: m :: ms
    else m :: insert l ms

theorem mem_insert {k l : Literal} {c : Clause} : k ∈ insert l c ↔ k = l ∨ k ∈ c := by
  induction c with
  | nil => simp [insert]
  | cons m ms ih =>
    unfold insert
    split
    · next h => simp [h]
    · split
      · simp
      · simp only [List.mem_cons, ih]
        exact or_left_comm

/-- The literals of a list, ascending as integers and without repetition. -/
def ofList (ls : List Literal) : Clause := ls.foldr insert []

theorem mem_ofList {k : Literal} {ls : List Literal} : k ∈ ofList ls ↔ k ∈ ls := by
  induction ls with
  | nil => simp [ofList]
  | cons l ls ih =>
    show k ∈ insert l (ofList ls) ↔ _
    rw [mem_insert, ih, List.mem_cons]

def Ascending (c : Clause) : Prop := c.Pairwise fun k l => k.toInt ≤ l.toInt ∧ k ≠ l

theorem Ascending.insert {c : Clause} (h : Ascending c) (l : Literal) :
    Ascending (Clause.insert l c) := by
  induction c with
  | nil => exact List.pairwise_singleton _ _
  | cons m ms ih =>
    obtain ⟨hm, hms⟩ := List.pairwise_cons.1 h
    unfold Clause.insert
    split
    · exact h
    · next hne =>
      split
      · next hlt =>
        refine List.pairwise_cons.2 ⟨fun k hk => ?_, h⟩
        rcases List.mem_cons.1 hk with rfl | hk
        · exact ⟨by omega, hne⟩
        · have := (hm k hk).1
          exact ⟨by omega, fun heq => by subst heq; omega⟩
      · next hle =>
        refine List.pairwise_cons.2 ⟨fun k hk => ?_, ih hms⟩
        rcases mem_insert.1 hk with rfl | hk
        · exact ⟨by omega, fun heq => hne heq.symm⟩
        · exact hm k hk

theorem ascending_ofList (ls : List Literal) : Ascending (ofList ls) := by
  induction ls with
  | nil => exact .nil
  | cons l ls ih => exact ih.insert l

theorem Ascending.nodup {c : Clause} (h : Ascending c) : c.Nodup := h.imp And.right

end Clause

end ShaDiff
