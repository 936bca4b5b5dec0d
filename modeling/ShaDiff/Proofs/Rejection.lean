import ShaDiff.Proofs.Soundness
import ShaDiff.Proofs.Topology.Build
import ShaDiff.Proofs.Transcript

/-!
# Rejected entries

Most entries that are rejected are found out before anything is stored, and then the
sequence of entries goes on as if they were not there. Two kinds leave something behind. The
slots of a bit are filled up to the first atom that is taken, in a word that has its name by
then, and an order adds steps up to the round that misses a word. As steps are looked up
by their place, an order that is given again finds those of the first one in the place
of its own.
-/

namespace ShaDiff

namespace Topology

variable {t t' : Topology} {fault : Fault}

/-- Whether an entry is rejected before anything is stored. A bit is if the atom that is
taken is its first and its word has a name, an order if the word that is missing is one of
the first round. -/
def Early (t : Topology) (name : String) (value : Int) (fault : Fault) : Prop :=
  match Entry.parse name with
  | .ok (.bit role round _ _) =>
    ∀ a : Atom, fault = .duplicateAtom a → t.named.contains ⟨role, round⟩ ∧ (a : Int) = value
  | .ok .order => ∀ role round, fault = .missingWord role round → round = firstRound
  | _ => True

-- ---------------------------------------------------------------------------
-- Bits
-- ---------------------------------------------------------------------------

theorem contains_tracked_fillSlots {a : Atom} (h : t.tracked.contains a = true) (b : Bit)
    (filled : List (Nat × Atom)) : (t.fillSlots b filled).2.tracked.contains a = true :=
  fillSlots_induction (P := fun t => t.tracked.contains a = true)
    (fun {t slot x} h _ => by simp [setSlot, h]) h filled

theorem contains_named_fillSlots {w : Word} (h : t.named.contains w = true) (b : Bit)
    (filled : List (Nat × Atom)) : (t.fillSlots b filled).2.named.contains w = true :=
  fillSlots_induction (P := fun t => t.named.contains w = true) (fun h _ => h) h filled

theorem fillSlots_error {b : Bit} {filled : List (Nat × Atom)}
    (h : t.fillSlots b filled = (.error fault, t')) :
    ∃ a ∈ filled.map (·.2), fault = .duplicateAtom a := by
  induction filled generalizing t with
  | nil => cases h
  | cons entry filled ih =>
    unfold fillSlots at h
    split at h
    · obtain ⟨hfault, -⟩ := Prod.mk.inj h
      exact ⟨entry.2, .head _, (Except.error.inj hfault).symm⟩
    · obtain ⟨a, ha, hfault⟩ := ih h
      exact ⟨a, .tail _ ha, hfault⟩

/-- Nothing is filled just if the first atom is taken. -/
theorem fillSlots_eq_self {b : Bit} {filled : List (Nat × Atom)} {a : Atom}
    (hnodup : (filled.map (·.2)).Nodup)
    (h : t.fillSlots b filled = (.error (.duplicateAtom a), t')) :
    t' = t ↔ (filled.map (·.2)).head? = some a := by
  cases filled with
  | nil => cases h
  | cons entry filled =>
    obtain ⟨slot, x⟩ := entry
    rw [List.map_cons, List.nodup_cons] at hnodup
    rw [List.map_cons, List.head?_cons, Option.some_inj]
    unfold fillSlots at h
    split at h
    · obtain ⟨hfault, rfl⟩ := Prod.mk.inj h
      exact iff_of_true rfl (Fault.duplicateAtom.inj (Except.error.inj hfault))
    · next hfree =>
      simp only [Bool.or_eq_true, not_or, Bool.not_eq_true] at hfree
      refine iff_of_false ?_ ?_
      · rintro rfl
        have htracked := contains_tracked_fillSlots (t := t'.setSlot ⟨b, slot⟩ x) (a := x)
          (by simp [setSlot]) b filled
        rw [h, hfree.2] at htracked
        cases htracked
      · rintro rfl
        obtain ⟨a, ha, hfault⟩ := fillSlots_error h
        exact hnodup.1 (Fault.duplicateAtom.inj hfault ▸ ha)

theorem consecutive_error {first : Int} {count : Nat}
    (h : consecutive first count = .error fault) : fault = .invalidIdentifier first := by
  unfold consecutive at h
  split at h
  · cases h
  · exact (Except.error.inj h).symm

/-- The atoms of a bit are consecutive from its identifier on, or the entry is rejected for
another fault than that an atom is taken. -/
theorem slotsFilled_cases (t : Topology) (name : String) (role : Role) (round : Int)
    (column : Nat) (slot : Option Nat) (first : Int) :
    (∃ fault, t.slotsFilled name role round column slot first = .error fault ∧
      ∀ a, fault ≠ .duplicateAtom a) ∨
    ∃ filled count, t.slotsFilled name role round column slot first = .ok filled ∧ 0 < count ∧
      1 ≤ first ∧ filled.map (·.2) = (List.range count).map (first.toNat + ·) := by
  simp only [slotsFilled, bind, Except.bind, pure, Except.pure, throw, throwThe,
    MonadExceptOf.throw]
  split
  · exact .inl ⟨_, rfl, by simp⟩
  split
  · exact .inl ⟨_, rfl, by simp⟩
  split
  · split
    · exact .inl ⟨_, rfl, by simp⟩
    · split
      · next h => exact .inl ⟨_, rfl, by simp [consecutive_error h]⟩
      · next h =>
        obtain ⟨hpos, rfl⟩ := consecutive_ok h
        exact .inr ⟨_, 1, rfl, Nat.one_pos, hpos, by simp⟩
  · split
    · next h => exact .inl ⟨_, rfl, by simp [consecutive_error h]⟩
    · next h =>
      obtain ⟨hpos, rfl⟩ := consecutive_ok h
      refine .inr ⟨_, t.encoding.slots, rfl, ?_, hpos, ?_⟩
      · cases t.encoding <;> decide
      · rw [List.map_map]
        exact List.zipIdx_map_fst _ _

theorem nameWord_of_contains {w : Word} (h : t.named.contains w = true) :
    (t.nameWord w).2 = t := by
  unfold nameWord
  split
  · rfl
  · next hnone =>
    rw [Std.TreeMap.contains_eq_isSome_getElem?, hnone] at h
    cases h

theorem contains_nameWord (t : Topology) (w : Word) :
    (t.nameWord w).2.named.contains w = true := by
  unfold nameWord
  split
  · next hsome => rw [Std.TreeMap.contains_eq_isSome_getElem?, hsome, Option.isSome_some]
  · simp

theorem enterBit_error {name : String} {role : Role} {round : Int} {column : Nat}
    {slot : Option Nat} {first : Int}
    (h : t.enterBit name role round column slot first = (.error fault, t')) :
    t' = t ↔ ∀ a : Atom, fault = .duplicateAtom a →
      t.named.contains ⟨role, round⟩ ∧ (a : Int) = first := by
  unfold enterBit at h
  obtain ⟨_, hfilled, hfault⟩ | ⟨filled, count, hfilled, hcount, hpos, hatoms⟩ :=
    t.slotsFilled_cases name role round column slot first
  · rw [hfilled] at h
    obtain ⟨heq, rfl⟩ := Prod.mk.inj h
    obtain rfl := Except.error.inj heq
    exact iff_of_true rfl fun a ha => absurd ha (hfault a)
  · rw [hfilled] at h
    have h : (t.nameWord ⟨role, round⟩).2.fillSlots
      ⟨(t.nameWord ⟨role, round⟩).1, column⟩ filled = (.error fault, t') := h
    have hnodup : (filled.map (·.2)).Nodup := by
      rw [hatoms]
      exact List.Pairwise.map _ (fun i j hij heq => hij (Nat.add_left_cancel heq)) List.nodup_range
    have hhead : (filled.map (·.2)).head? = some first.toNat := by
      rw [hatoms, List.head?_map, List.head?_range, if_neg (Nat.ne_of_gt hcount)]
      rfl
    obtain ⟨a, -, rfl⟩ := fillSlots_error h
    have hnamed : t'.named.contains ⟨role, round⟩ = true := by
      have := contains_named_fillSlots (t.contains_nameWord ⟨role, round⟩)
        ⟨(t.nameWord ⟨role, round⟩).1, column⟩ filled
      rwa [h] at this
    have hself := fillSlots_eq_self hnodup h
    rw [hhead, Option.some_inj] at hself
    constructor
    · rintro rfl x hx
      obtain rfl := Fault.duplicateAtom.inj hx
      have := hself.mp (nameWord_of_contains hnamed).symm
      exact ⟨hnamed, by omega⟩
    · intro hearly
      obtain ⟨hnamed, ha⟩ := hearly a rfl
      rw [nameWord_of_contains hnamed] at hself
      exact hself.mpr (by omega)

-- ---------------------------------------------------------------------------
-- Orders
-- ---------------------------------------------------------------------------

theorem fillStep_error {round : Int} {roles : List Role} {words : List (Role × Nat)}
    (h : t.fillStep round roles words = (.error fault, t')) :
    (∃ role, fault = .missingWord role round) ∧ ((∀ r ∈ roles, r.isRequired) → t' = t) := by
  induction roles generalizing t words with
  | nil => cases h
  | cons role roles ih =>
    unfold fillStep at h
    split at h
    · obtain ⟨hfault, hself⟩ := ih h
      exact ⟨hfault, fun hroles => hself fun r hr => hroles r (.tail _ hr)⟩
    · split at h
      · obtain ⟨hfault, rfl⟩ := Prod.mk.inj h
        exact ⟨⟨role, (Except.error.inj hfault).symm⟩, fun _ => rfl⟩
      · next hrequired =>
        exact ⟨(ih h).1, fun hroles => absurd (hroles role (.head _)) hrequired⟩

theorem addSteps_error {order : Nat} {rounds : List Int}
    (h : t.addSteps order rounds = (.error fault, t')) :
    ∃ role, ∃ round ∈ rounds, fault = .missingWord role round := by
  induction rounds generalizing t with
  | nil => cases h
  | cons round rounds ih =>
    unfold addSteps at h
    split at h
    · next hfill =>
      obtain ⟨hfault, rfl⟩ := Prod.mk.inj h
      obtain rfl := Except.error.inj hfault
      obtain ⟨⟨role, hrole⟩, -⟩ := fillStep_error hfill
      exact ⟨role, round, .head _, hrole⟩
    · obtain ⟨role, later, hlater, hfault⟩ := ih h
      exact ⟨role, later, .tail _ hlater, hfault⟩

/-- The round that is out of range is that of a named word for which there is no such round. -/
theorem exists_word_of_roundOutOfRange {order : Nat} {round : Int}
    (h : t.build order = .ok (.error (.roundOutOfRange round), t')) :
    t' = t ∧ ∃ w, w ∈ t.named ∧ w.role.applicable w.round order = false ∧ w.round = round := by
  rcases build_error h with ⟨rfl, hfault | ⟨w, hw, hnone, hfault⟩⟩ | ⟨hsteps, -⟩
  · cases hfault
  · cases hfault
    exact ⟨rfl, w, hw, hnone, rfl⟩
  · obtain ⟨_, _, -, hfault⟩ := addSteps_error (Prod.ext hsteps rfl)
    cases hfault

/-- Whichever order the named words are gone through in, an order is rejected for one of them in
the same cases. Only the round that the fault gives is that of the word found first. -/
theorem build_roundOutOfRange_iff {order : Nat} {words : List Word}
    (hzero : t.zeroAtoms.isNone = false) (hwords : ∀ w, w ∈ words ↔ w ∈ t.named) :
    (∃ round, t.build order = .ok (.error (.roundOutOfRange round), t)) ↔
      (words.find? fun w => !w.role.applicable w.round order).isSome = true := by
  rw [List.find?_isSome]
  constructor
  · rintro ⟨round, h⟩
    obtain ⟨-, w, hw, hnone, -⟩ := exists_word_of_roundOutOfRange h
    exact ⟨w, (hwords w).mpr hw, by rw [hnone]; rfl⟩
  · rintro ⟨w, hw, hnone⟩
    have hfound : (t.named.keys.find? fun w => !w.role.applicable w.round order).isSome = true :=
      List.find?_isSome.mpr ⟨w, Std.TreeMap.mem_keys.mpr ((hwords w).mp hw), hnone⟩
    obtain ⟨w', hw'⟩ := Option.isSome_iff_exists.mp hfound
    refine ⟨w'.round, ?_⟩
    unfold build
    rw [hzero, hw']
    rfl

theorem size_steps_addSteps (t : Topology) (order : Nat) (rounds : List Int) :
    t.steps.size ≤ (t.addSteps order rounds).2.steps.size := by
  induction rounds generalizing t with
  | nil => exact Nat.le_refl _
  | cons round rounds ih =>
    obtain ⟨words, hfill⟩ :=
      t.fillStep_frame round (Role.configurable.filter (·.applicable round order)) []
    unfold addSteps
    split
    · next heq =>
      rw [heq] at hfill
      exact hfill ▸ Nat.le_refl _
    · next heq =>
      rw [heq] at hfill
      obtain rfl := hfill
      exact Nat.le_trans (by simp) (ih _)

/-- Before round 0 there are registers only, all of which have to be named. -/
theorem isRequired_of_applicable {r : Role} {order : Nat}
    (h : r.applicable firstRound order = true) : r.isRequired = true := by
  cases r <;> simp_all [Role.applicable, Role.isRequired, firstRound]

theorem rounds_eq_cons (order : Nat) :
    ∃ later, rounds order = firstRound :: later ∧ firstRound ∉ later := by
  refine ⟨_, map_range_succ firstRound (order + 3), fun h => ?_⟩
  obtain ⟨i, -, hi⟩ := List.mem_map.mp h
  omega

theorem addSteps_rounds_error {order : Nat}
    (h : t.addSteps order (rounds order) = (.error fault, t')) :
    t' = t ↔ ∀ role round, fault = .missingWord role round → round = firstRound := by
  obtain ⟨later, hrounds, hlater⟩ := rounds_eq_cons order
  rw [hrounds] at h
  unfold addSteps at h
  split at h
  · next hfill =>
    obtain ⟨heq, rfl⟩ := Prod.mk.inj h
    obtain rfl := Except.error.inj heq
    obtain ⟨⟨role, rfl⟩, hself⟩ := fillStep_error hfill
    refine iff_of_true (hself fun r hr => isRequired_of_applicable (List.mem_filter.mp hr).2) ?_
    exact fun _ _ h => (Fault.missingWord.inj h).2.symm
  · next words t₁ hfill =>
    obtain ⟨role, round, hround, rfl⟩ := addSteps_error h
    refine iff_of_false ?_ fun hfirst => hlater (hfirst role round rfl ▸ hround)
    rintro rfl
    have hsize := size_steps_addSteps { t₁ with steps := t₁.steps.push ⟨firstRound, words⟩ } order
      later
    obtain ⟨words', hframe⟩ := t'.fillStep_frame firstRound
      (Role.configurable.filter (·.applicable firstRound order)) []
    rw [hfill] at hframe
    obtain rfl := hframe
    rw [h, Array.size_push] at hsize
    exact absurd hsize (by simp)

-- ---------------------------------------------------------------------------
-- Entries
-- ---------------------------------------------------------------------------

theorem enter_error {name : String} {value : Int}
    (h : t.enter name value = .ok (.error fault, t')) :
    t' = t ↔ t.Early name value fault := by
  unfold enter at h
  unfold Early
  split at h
  · obtain ⟨heq, rfl⟩ := Prod.mk.inj (Except.ok.inj h)
    obtain rfl := Except.error.inj heq
    refine iff_of_true rfl ?_
    split
    · exact nofun
    · exact nofun
    · trivial
  · split at h
    · next hparse =>
      obtain ⟨-, rfl⟩ := Prod.mk.inj (Except.ok.inj h)
      rw [hparse]
      exact iff_of_true rfl trivial
    · next hparse =>
      rw [hparse]
      split at h
      · rcases build_error h with ⟨rfl, hfault⟩ | ⟨hfault, rfl⟩
        · refine iff_of_true rfl ?_
          rintro role round rfl
          simp at hfault
        · exact addSteps_rounds_error (Prod.ext hfault rfl)
      · obtain ⟨heq, rfl⟩ := Prod.mk.inj (Except.ok.inj h)
        obtain rfl := Except.error.inj heq
        exact iff_of_true rfl nofun
    · next hparse =>
      rw [hparse]
      split at h
      · obtain ⟨-, rfl⟩ := Prod.mk.inj (Except.ok.inj h)
        exact iff_of_true rfl trivial
      · cases h
    · next hparse =>
      rw [hparse]
      exact enterBit_error (Except.ok.inj h)

end Topology

namespace Propagator

variable {ρ : Type} {p q : Propagator ρ} {fault : Fault} {name : String} {value : Int}

theorem configure_error (h : p.configure name value = .ok (.error fault, q)) :
    q = p ↔ p.topology.Early name value fault := by
  simp only [configure, bind, Except.bind] at h
  split at h
  · cases h
  · next entered henter =>
    obtain ⟨result, t⟩ := entered
    simp only [pure, Except.pure, Except.ok.injEq, Prod.mk.injEq] at h
    obtain ⟨rfl, rfl⟩ := h
    rw [← Topology.enter_error henter]
    constructor
    · exact congrArg Propagator.topology
    · rintro rfl
      cases hb : p.isBuilt <;> simp_all [isBuilt]

variable [Coin ρ] {p₀ : Propagator ρ} {before : List Request} {replies : List Reply}

/-- A rejected entry leaves everything as it was if and only if it was found out before
anything was stored. Whatever comes then is answered as if the entry had not been given. -/
theorem replies_of_rejected (hbefore : p₀.replyAll before = .ok (replies, p))
    (hrejected : p.configure name value = .ok (.error fault, q)) :
    (q = p ↔ p.topology.Early name value fault) ∧
      (p.topology.Early name value fault → ∀ after,
        p₀.replyAll (before ++ after) =
            (p.replyAll after).map (fun (later, r) => (replies ++ later, r)) ∧
          p₀.replyAll (before ++ .entry name value :: after) =
            (p.replyAll after).map (fun (later, r) =>
              (replies ++ .entered (.error fault) :: later, r))) := by
  have hself := configure_error hrejected
  refine ⟨hself, fun hearly after => ⟨replyAll_append_of_ok hbefore after, ?_⟩⟩
  obtain rfl := hself.mpr hearly
  have hreply : q.reply (.entry name value) = .ok (.entered (.error fault), q) := by
    rw [reply, hrejected]
    rfl
  rw [replyAll_append_of_ok hbefore, replyAll_cons_of_ok hreply]
  cases q.replyAll after <;> rfl

/-- An order that comes before all words is as good as none. -/
theorem replies_of_rejected_sample :
    let after := (Topology.sampleEntries.drop 1).map fun (name, value) => Request.entry name value
    ∃ (later : List Reply) (r : Propagator Pcg),
      (new { encoding := .li2024, wordSize := 1 } (.ofSeed 0)).replyAll
        ([.entry "zero" 1] ++ after) = .ok ([.entered (.ok ())] ++ later, r) ∧
      (new { encoding := .li2024, wordSize := 1 } (.ofSeed 0)).replyAll
        ([.entry "zero" 1] ++ .entry "order" 1 :: after) =
          .ok ([.entered (.ok ())] ++ .entered (.error (.missingWord .a firstRound)) :: later, r) ∧
      r.isBuilt = true := by
  intro after
  have hrun : ((new { encoding := .li2024, wordSize := 1 } (Pcg.ofSeed 0)).replyAll
      [.entry "zero" 1]).bind (fun (replies, p) => (p.configure "order" 1).bind fun (result, _) =>
        (p.replyAll after).map fun (_, r) => (replies, result, r.isBuilt)) =
      .ok ([.entered (.ok ())], .error (.missingWord .a firstRound), true) := by decide +kernel
  obtain ⟨⟨replies, p⟩, hbefore, hrun⟩ := exists_of_bind_eq_ok hrun
  obtain ⟨⟨result, q⟩, hrejected, hrun⟩ := exists_of_bind_eq_ok hrun
  obtain ⟨⟨later, r⟩, hafter, hrun⟩ := exists_of_map_eq_ok hrun
  obtain ⟨rfl, hresult, hbuilt⟩ := by simpa only [Prod.mk.injEq] using hrun
  subst hresult
  have hearly : p.topology.Early "order" 1 (.missingWord .a firstRound) := by
    have hparse : Entry.parse "order" = .ok .order := by decide
    unfold Topology.Early
    rw [hparse]
    exact fun _ _ h => (Fault.missingWord.inj h).2.symm
  obtain ⟨hdropped, hgiven⟩ := (replies_of_rejected hbefore hrejected).2 hearly after
  rw [hafter] at hdropped hgiven
  exact ⟨later, r, hdropped, hgiven, hbuilt⟩

/-- An order that lacks a message word cannot be given again when the word is there. -/
theorem order_retried_sample :
    let before := (Topology.sampleEntries.filter fun (name, _) =>
      name ≠ "W_0_0" && name ≠ "order").map fun (name, value) => Request.entry name value
    let after := [.entry "W_0_0" 23, .entry "order" 1]
    ((new { encoding := .li2024, wordSize := 1 } (Pcg.ofSeed 0)).replyAll
        (before ++ [.entry "order" 1])).map (·.1.getLast?) =
      .ok (some (.entered (.error (.missingWord .w 0)))) ∧
    ((new { encoding := .li2024, wordSize := 1 } (Pcg.ofSeed 0)).replyAll
        (before ++ .entry "order" 1 :: after)).map (·.1) = .error (.noWord .w 0) ∧
    ((new { encoding := .li2024, wordSize := 1 } (Pcg.ofSeed 0)).replyAll
        (before ++ after)).map (·.2.isBuilt) = .ok true := by
  decide +kernel

-- The first atom of a rejected bit stays in its slot.
example : ((new { encoding := .li2024, wordSize := 1 } (Pcg.ofSeed 0)).replyAll
    [.entry "A_0_0" 4, .entry "E_0_0" 3, .entry "W_0_0_f" 3]).map (·.1) =
      .ok [.entered (.ok ()), .entered (.error (.duplicateAtom 4)),
        .entered (.error (.duplicateAtom 3))] := by decide +kernel

end Propagator

end ShaDiff
