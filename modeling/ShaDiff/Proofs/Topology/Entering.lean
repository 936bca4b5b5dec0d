import ShaDiff.Proofs.Topology.Instances
import ShaDiff.Topology.Build

/-!
# Accepted entries

What entries that were all accepted leave behind before the topology is built: the
words are those that entries have named, and each atom in a slot is tracked for that
slot (`Tracks`). So an atom is in one slot at most, and a pair of instances gives
every atom a value (`reads_truth`).
-/

namespace ShaDiff.Topology

variable {t t' : Topology}

/-- Takes entries in turn, all of which have to be accepted. -/
def accept? (t : Topology) : List (String × Int) → Option Topology
  | [] => some t
  | (name, value) :: entries =>
    match t.enter name value with
    | .ok (.ok (), t) => t.accept? entries
    | _ => none

theorem accept?_induction {P : Topology → Prop} {entries : List (String × Int)}
    (hstep : ∀ {t t' name value}, P t → t.enter name value = .ok (.ok (), t') → P t') (hp : P t)
    (h : t.accept? entries = some t') : P t' := by
  induction entries generalizing t with
  | nil => exact Option.some.inj h ▸ hp
  | cons entry entries ih =>
    unfold accept? at h
    split at h
    · rename_i henter
      exact ih (hstep hp henter) h
    · cases h

-- ---------------------------------------------------------------------------
-- What an entry does
-- ---------------------------------------------------------------------------

theorem enter_ok {name : String} {value : Int} (h : t.enter name value = .ok (.ok (), t')) :
    t.order = none ∧
      ((∃ atoms, t' = { t with zeroAtoms := some atoms }) ∨
        (∃ w column filled, (t.nameWord w).2.fillSlots ⟨(t.nameWord w).1, column⟩ filled =
          (.ok (), t')) ∨
        ∃ order : Nat, 1 ≤ order ∧ order ≤ orderMax ∧ t.build order = .ok (.ok (), t')) := by
  unfold enter at h
  split at h
  · cases h
  · rename_i hbuilt
    refine ⟨by simpa [isBuilt] using hbuilt, ?_⟩
    split at h
    · cases h
    · split at h
      · rename_i hrange
        exact .inr (.inr ⟨_, by omega, by simp only [orderMax] at hrange ⊢; omega, h⟩)
      · cases h
    · split at h
      · cases h
      · rename_i hzero
        refine .inl ?_
        simp only [enterZero, bind, Except.bind] at hzero
        split at hzero
        · cases hzero
        · rename_i atoms _
          split at hzero
          · cases hzero
          · cases hzero
            cases h
            exact ⟨atoms, rfl⟩
    · rename_i role round column slot hparse
      refine .inr (.inl ?_)
      simp only [enterBit] at h
      split at h
      · cases h
      · rename_i filled _
        exact ⟨⟨role, round⟩, column, filled, Except.ok.inj h⟩

theorem slot_lt_of_parse {name : String} {role : Role} {round : Int} {column slot : Nat}
    (h : Entry.parse name = .ok (.bit role round column (some slot))) : slot < 2 := by
  have hsuffix {suffix : String} {i : Nat} (hi : Entry.slotOfSuffix? suffix = some i) : i < 2 := by
    unfold Entry.slotOfSuffix? at hi
    split at hi <;> cases hi <;> decide
  have hparts {r k c : String} {suffix : Option String}
      (h : Entry.ofParts name r k c suffix = .ok (.bit role round column (some slot))) :
      slot < 2 := by
    unfold Entry.ofParts at h
    split at h
    · cases h
    · split at h
      · cases h
      · next hi =>
        obtain ⟨suffix, -, hi⟩ := Option.map_eq_some_iff.mp hi
        cases h
        exact hsuffix hi
      · cases h
  unfold Entry.parse at h
  split at h
  · cases h
  · split at h
    · cases h
    · split at h
      · exact hparts h
      · exact hparts h
      · cases h

theorem consecutive_ok {first : Int} {count : Nat} {atoms : List Atom}
    (h : consecutive first count = .ok atoms) :
    1 ≤ first ∧ atoms = (List.range count).map (first.toNat + ·) := by
  unfold consecutive at h
  split at h
  · next hrange => exact ⟨hrange.1, (Except.ok.inj h).symm⟩
  · cases h

theorem slotsFilled_lt {name : String} {role : Role} {round : Int} {column : Nat}
    {slot : Option Nat} {first : Int} {filled : List (Nat × Atom)} (hslot : ∀ i ∈ slot, i < 2)
    (h : t.slotsFilled name role round column slot first = .ok filled) :
    ∀ x ∈ filled, x.1 < t.encoding.slots := by
  simp only [slotsFilled, bind, Except.bind, pure, Except.pure, throw, throwThe,
    MonadExceptOf.throw] at h
  split at h
  · cases h
  split at h
  · cases h
  split at h
  · split at h
    · cases h
    · next hencoding =>
      split at h
      · cases h
      · obtain rfl := Except.ok.inj h
        intro x hx
        obtain ⟨a, -, rfl⟩ := List.mem_map.mp hx
        rw [Classical.not_not.mp hencoding]
        exact hslot _ rfl
  · split at h
    · cases h
    · next hatoms =>
      obtain rfl := Except.ok.inj h
      intro x hx
      obtain ⟨⟨a, i⟩, hi, rfl⟩ := List.mem_map.mp hx
      obtain ⟨hlt, -⟩ := List.getElem?_eq_some_iff.mp (List.mem_zipIdx_iff_getElem?.mp hi)
      rwa [(consecutive_ok hatoms).2, List.length_map, List.length_range] at hlt

/-- An entry that comes after the order is rejected. -/
theorem enter_of_isBuilt (hb : t.isBuilt = true) (name : String) (value : Int) :
    t.enter name value = .ok (.error .alreadyBuilt, t) := if_pos hb

/-- What an entry may do, whether it is accepted or not. -/
theorem enter_cases {name : String} {value : Int} {result : Except Fault Unit}
    (h : t.enter name value = .ok (result, t')) :
    t' = t ∨
      (∃ atoms : List Atom, (∀ a ∈ atoms, t.tracked.contains a = false) ∧
        t' = { t with zeroAtoms := some atoms }) ∨
      (∃ w column filled, (∀ x ∈ filled, x.1 < t.encoding.slots) ∧
        (t.nameWord w).2.fillSlots ⟨(t.nameWord w).1, column⟩ filled = (result, t')) ∨
      ∃ order : Nat, order ≤ orderMax ∧ t.build order = .ok (result, t') := by
  unfold enter at h
  split at h
  · cases h
    exact .inl rfl
  · split at h
    · cases h
      exact .inl rfl
    · split at h
      · next hrange => exact .inr (.inr (.inr ⟨_, by simp only [orderMax] at hrange ⊢; omega, h⟩))
      · cases h
        exact .inl rfl
    · split at h
      · cases h
        exact .inl rfl
      · next hzero =>
        cases h
        simp only [enterZero, bind, Except.bind] at hzero
        split at hzero
        · cases hzero
        · split at hzero
          · cases hzero
          · next hfree =>
            cases hzero
            exact .inr (.inl ⟨_, fun a ha =>
              Bool.eq_false_iff.mpr (List.find?_eq_none.mp hfree a ha), rfl⟩)
    · next role round column slot hparse =>
      simp only [enterBit] at h
      split at h
      · cases h
        exact .inl rfl
      · next filled hfilled =>
        have hslot : ∀ i ∈ slot, i < 2 := by
          rintro i rfl
          exact slot_lt_of_parse hparse
        exact .inr (.inr (.inl ⟨⟨role, round⟩, column, filled, slotsFilled_lt hslot hfilled,
          Except.ok.inj h⟩))

theorem fillSlots_induction {P : Topology → Prop} {b : Bit}
    (hstep : ∀ {t slot a}, P t → t.tracked.contains a = false → P (t.setSlot ⟨b, slot⟩ a))
    (hp : P t) (filled : List (Nat × Atom)) : P (t.fillSlots b filled).2 := by
  induction filled generalizing t with
  | nil => exact hp
  | cons entry filled ih =>
    unfold fillSlots
    split
    · exact hp
    · rename_i hfree
      simp only [Bool.or_eq_true, not_or, Bool.not_eq_true] at hfree
      exact ih (hstep hp hfree.2)

-- ---------------------------------------------------------------------------
-- Words
-- ---------------------------------------------------------------------------

/-- Whether words are found where entries have named them, and the zero word comes
first. -/
structure Names (t : Topology) : Prop where
  zero : t.words[zeroWord]? = some ⟨.zero, 0⟩
  word : ∀ {w i}, t.named[w]? = some i → i ≠ zeroWord ∧ t.words[i]? = some w

/-- A topology that is still open: nothing was built, and all words but the zero word
were named by entries. -/
structure Open (t : Topology) : Prop extends t.Names where
  order : t.order = none
  steps : t.steps = #[]
  operations : t.operations = #[]
  sums : t.sums = #[]
  readers : t.readers = ∅
  named : ∀ {w i}, i ≠ zeroWord → t.words[i]? = some w → t.named[w]? = some i

theorem open_initial (e : Encoding) (n : Nat) : Open { encoding := e, wordSize := n } where
  zero := rfl
  word h := by simp at h
  order := rfl
  steps := rfl
  operations := rfl
  sums := rfl
  readers := rfl
  named {w i} hi h := by
    obtain ⟨hlt, -⟩ := Array.getElem?_eq_some_iff.mp h
    exact absurd (Nat.lt_one_iff.mp hlt) hi

theorem Names.size_ne_zero (h : t.Names) : t.words.size ≠ zeroWord := by
  obtain ⟨hlt, -⟩ := Array.getElem?_eq_some_iff.mp h.zero
  exact Nat.ne_of_gt hlt

theorem getElem?_push_of_some {words : Array Word} {i : Nat} {w : Word}
    (h : words[i]? = some w) (v : Word) : (words.push v)[i]? = some w := by
  obtain ⟨hlt, -⟩ := Array.getElem?_eq_some_iff.mp h
  rw [Array.getElem?_push, if_neg (Nat.ne_of_lt hlt), h]

theorem Names.of_kept (h : t.Names)
    (hkept : ∀ {i : Nat} {w : Word}, t.words[i]? = some w → t'.words[i]? = some w)
    (hnamed : t'.named = t.named) : t'.Names where
  zero := hkept h.zero
  word hw := by
    obtain ⟨hi, hw⟩ := h.word (hnamed ▸ hw)
    exact ⟨hi, hkept hw⟩

theorem getElem?_insert_named {w : Word} (hnone : t.named[w]? = none) (v : Word) (i : Nat) :
    (t.named.insert w t.words.size)[v]? = some i ↔
      v = w ∧ i = t.words.size ∨ t.named[v]? = some i := by
  rw [Std.TreeMap.getElem?_insert]
  split
  · rename_i heq
    have heq := Std.LawfulEqCmp.compare_eq_iff_eq.mp heq
    subst heq
    simp [hnone, eq_comm]
  · rename_i hne
    have hne : v ≠ w := fun hv => hne (Std.LawfulEqCmp.compare_eq_iff_eq.mpr hv.symm)
    simp [hne]

theorem Names.nameWord (h : t.Names) (w : Word) : (t.nameWord w).2.Names := by
  unfold Topology.nameWord
  split
  · exact h
  · rename_i hnone
    refine ⟨getElem?_push_of_some h.zero w, fun {v i} hv => ?_⟩
    show i ≠ zeroWord ∧ (t.words.push w)[i]? = some v
    rcases (getElem?_insert_named hnone v i).mp hv with ⟨rfl, rfl⟩ | hv
    · exact ⟨h.size_ne_zero, Array.getElem?_push_size⟩
    · exact ⟨(h.word hv).1, getElem?_push_of_some (h.word hv).2 w⟩

theorem Open.nameWord (h : t.Open) (w : Word) : (t.nameWord w).2.Open := by
  have hnames := h.toNames.nameWord w
  unfold Topology.nameWord at hnames ⊢
  split
  · exact h
  · rename_i hnone
    rw [hnone] at hnames
    refine { h with zero := hnames.zero, word := hnames.word, named := fun {v i} hi hv => ?_ }
    refine (getElem?_insert_named hnone v i).mpr ?_
    have hv : (t.words.push w)[i]? = some v := hv
    rw [Array.getElem?_push] at hv
    split at hv
    · rename_i heq
      exact .inl ⟨(Option.some.inj hv).symm, heq⟩
    · exact .inr (h.named hi hv)

-- ---------------------------------------------------------------------------
-- Atoms
-- ---------------------------------------------------------------------------

/-- Whether each atom in a slot is tracked for that slot. -/
def Tracks (t : Topology) : Prop :=
  ∀ (b : Bit) (slot : Nat) (a : Atom), (t.slots b)[slot]?.join = some a →
    t.tracked[a]? = some ⟨b, slot⟩

theorem mem_slotAtoms {a : Atom} {b : Bit} :
    a ∈ t.slotAtoms b ↔ ∃ slot : Nat, (t.slots b)[slot]?.join = some a := by
  rw [slotAtoms, List.mem_filterMap]
  simp only [id_eq, exists_eq_right, Option.join_eq_some_iff]
  exact List.mem_iff_getElem?

theorem of_mem_slots_setSlot {p : Place} {a x : Atom} {b : Bit} {slot : Nat}
    (h : ((t.setSlot p a).slots b)[slot]?.join = some x) :
    x = a ∧ p = ⟨b, slot⟩ ∨ (t.slots b)[slot]?.join = some x := by
  unfold slots at h ⊢
  split at h
  · cases h
  · rename_i hb
    rw [if_neg hb]
    simp only [setSlot, Std.TreeMap.getD_insert, Std.LawfulEqCmp.compare_eq_iff_eq] at h
    split at h
    · rename_i hbit
      subst hbit
      rw [List.getElem?_set] at h
      split at h
      · rename_i hslot
        split at h
        · left
          exact ⟨(Option.some.inj h).symm, by rw [← hslot]⟩
        · cases h
      · rw [Std.TreeMap.getD_eq_getD_getElem?] at h ⊢
        cases hatoms : t.atoms[p.bit]? with
        | some slots =>
          rw [hatoms] at h
          exact .inr h
        | none =>
          rw [hatoms, Option.getD_none, List.getElem?_replicate] at h
          split at h <;> cases h
    · exact .inr h

theorem Tracks.setSlot (h : t.Tracks) {p : Place} {a : Atom}
    (ha : t.tracked.contains a = false) : (t.setSlot p a).Tracks := by
  intro b slot x hx
  show (t.tracked.insert a p)[x]? = _
  rw [Std.TreeMap.getElem?_insert]
  rcases of_mem_slots_setSlot hx with ⟨rfl, rfl⟩ | hx
  · rw [if_pos Std.ReflCmp.compare_self]
  · rw [if_neg, h b slot x hx]
    intro heq
    have heq := Std.LawfulEqCmp.compare_eq_iff_eq.mp heq
    subst heq
    have hmem := Std.TreeMap.mem_iff_isSome_getElem?.mpr (by rw [h b slot a hx]; rfl)
    exact absurd (Std.TreeMap.contains_iff_mem.mpr hmem) (by simp [ha])

/-- The value a choice of pairs gives an atom. -/
def truth (t : Topology) (σ : Bit → Pair) (a : Atom) : Bool :=
  match t.tracked[a]? with
  | some place => (t.encoding.meaning place.slot).allows (σ place.bit)
  | none => false

theorem Tracks.reads_truth (h : t.Tracks) (σ : Bit → Pair) : t.Reads σ (t.truth σ) := by
  intro b slot a ha
  rw [truth, h b slot a ha]

end ShaDiff.Topology
