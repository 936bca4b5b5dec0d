import ShaDiff.Proofs.Topology.Apart

/-!
# Steps of orders that were rejected

An order that misses a word leaves the steps it has added. A later one adds its own after
those, and rounds are still looked up by their place. So a round may find the step of another
one, but only of an earlier one: each step is of the first round, or of the round after that of
the step before it (`Stepped`). A round before 0 has no message word. So where each round
finds one, each finds its own step (`Stepped.hasWords`), and the words of a round differ,
whatever was entered before (`Distinct`).
-/

namespace ShaDiff.Topology

variable {t t' : Topology} {s s' : Step} {k order : Nat}

structure Full (t : Topology) (s : Step) : Prop where
  roles : s.words.map (·.1) = Role.configurable.filter (·.since ≤ s.round)
  named : ∀ x ∈ s.words, t.words[x.2]? = some ⟨x.1, s.round⟩

def Follows (t : Topology) (round : Int) : Prop :=
  round = firstRound ∨ ∃ s, t.steps[t.steps.size - 1]? = some s ∧ round = s.round + 1

/-- What is kept before the order is accepted. -/
structure Stepped (t : Topology) : Prop extends t.Names where
  operations : t.operations = #[]
  full : ∀ s ∈ t.steps, t.Full s
  first : ∀ s, t.steps[0]? = some s → s.round = firstRound
  next : ∀ {k : Nat} {s s' : Step}, t.steps[k]? = some s → t.steps[k + 1]? = some s' →
    s'.round = firstRound ∨ s'.round = s.round + 1

theorem stepped_initial (e : Encoding) (n : Nat) : Stepped { encoding := e, wordSize := n } where
  toNames := (open_initial e n).toNames
  operations := rfl
  full _ hs := by simp at hs
  first _ hs := by simp at hs
  next hs := by simp at hs

-- ---------------------------------------------------------------------------
-- Words
-- ---------------------------------------------------------------------------

theorem Full.word (h : t.Full s) {r : Role} (hr : r ≠ .zero) (hsince : r.since ≤ s.round) :
    ∃ w, s.word? r = some w ∧ t.words[w]? = some ⟨r, s.round⟩ := by
  have hmem : r ∈ s.words.map (·.1) := by
    rw [h.roles]
    refine List.mem_filter.mpr ⟨?_, decide_eq_true hsince⟩
    cases r <;> first | exact absurd rfl hr | decide
  obtain ⟨⟨_, w⟩, hw, rfl⟩ := List.mem_map.mp hmem
  have hnodup : (s.words.map (·.1)).Nodup := by
    rw [h.roles]
    exact List.Pairwise.filter _ (show Role.configurable.Nodup by decide)
  exact ⟨w, lookup_of_mem hnodup hw, h.named _ hw⟩

theorem Full.since_le (h : t.Full s) {r : Role} {w : Nat} (hw : s.word? r = some w) :
    r.since ≤ s.round := by
  obtain ⟨before, after, hwords, -⟩ := List.lookup_eq_some_iff.mp hw
  have hmem : r ∈ s.words.map (·.1) := by simp [hwords]
  rw [h.roles] at hmem
  exact of_decide_eq_true (List.mem_filter.mp hmem).2

theorem Full.of_kept (h : t.Full s)
    (hkept : ∀ {i : Nat} {w : Word}, t.words[i]? = some w → t'.words[i]? = some w) : t'.Full s :=
  ⟨h.roles, fun x hx => hkept (h.named x hx)⟩

theorem Stepped.of_kept (h : t.Stepped) (hnames : t'.Names)
    (hkept : ∀ {i : Nat} {w : Word}, t.words[i]? = some w → t'.words[i]? = some w)
    (hsteps : t'.steps = t.steps) (hoperations : t'.operations = t.operations) : t'.Stepped where
  toNames := hnames
  operations := hoperations.trans h.operations
  full s hs := (h.full s (hsteps ▸ hs)).of_kept hkept
  first s hs := h.first s (hsteps ▸ hs)
  next hs hs' := h.next (hsteps ▸ hs) (hsteps ▸ hs')

theorem Stepped.nameWord (h : t.Stepped) (w : Word) : (t.nameWord w).2.Stepped := by
  refine h.of_kept (h.toNames.nameWord w) (fun hv => ?_) ?_ ?_ <;> unfold Topology.nameWord <;>
    split
  · exact hv
  · exact getElem?_push_of_some hv w
  all_goals rfl

theorem kept_fillStep (t : Topology) (round : Int) (roles : List Role)
    (words : List (Role × Nat)) {i : Nat} {w : Word} (h : t.words[i]? = some w) :
    (t.fillStep round roles words).2.words[i]? = some w := by
  induction roles generalizing t words with
  | nil => exact h
  | cons role roles ih =>
    unfold fillStep
    split
    · exact ih t _ h
    · split
      · exact h
      · exact ih _ _ (getElem?_push_of_some h _)

-- ---------------------------------------------------------------------------
-- Adding steps
-- ---------------------------------------------------------------------------

theorem Stepped.push (h : t.Stepped) (hfollows : t.Follows s.round) (hs : t.Full s) :
    { t with steps := t.steps.push s }.Stepped where
  toNames := ⟨h.zero, h.word⟩
  operations := h.operations
  full s' hs' := by
    rcases Array.mem_push.mp hs' with hs' | rfl
    · exact (h.full s' hs').of_kept id
    · exact hs.of_kept id
  first s' hs' := by
    have hs' : (t.steps.push s)[0]? = some s' := hs'
    rw [Array.getElem?_push] at hs'
    split at hs'
    · next hempty =>
      obtain rfl := Option.some.inj hs'
      refine hfollows.resolve_right ?_
      rintro ⟨last, hlast, -⟩
      obtain ⟨hlt, -⟩ := Array.getElem?_eq_some_iff.mp hlast
      omega
    · exact h.first s' hs'
  next {k s₀ s'} hs₀ hs' := by
    have hs₀ : (t.steps.push s)[k]? = some s₀ := hs₀
    have hs' : (t.steps.push s)[k + 1]? = some s' := hs'
    rw [Array.getElem?_push] at hs₀ hs'
    split at hs'
    · next hlast =>
      obtain rfl := Option.some.inj hs'
      rw [if_neg (by omega)] at hs₀
      refine hfollows.imp_right fun ⟨last, hlast', hround⟩ => ?_
      rw [← hlast, Nat.add_sub_cancel, hs₀] at hlast'
      rwa [Option.some.inj hlast']
    · obtain ⟨hlt, -⟩ := Array.getElem?_eq_some_iff.mp hs'
      rw [if_neg (by omega)] at hs₀
      exact h.next hs₀ hs'

/-- The roles of a round below the order are those the round has under every order. -/
theorem filter_applicable (hmax : order ≤ orderMax) {round : Int} (hlt : round < order) :
    Role.configurable.filter (·.applicable round order) =
      Role.configurable.filter (·.since ≤ round) := by
  refine List.filter_congr fun r hr => ?_
  have hzero : r ≠ .zero := by
    rintro rfl
    exact absurd hr (by decide)
  rw [Bool.eq_iff_iff, Role.applicable_iff hmax, decide_eq_true_iff]
  exact ⟨fun h => h.2.1, fun h => ⟨hzero, h, hlt⟩⟩

theorem Stepped.addSteps (h : t.Stepped) (hmax : order ≤ orderMax) {start : Int} {count : Nat}
    (hstart : t.Follows start) (hend : start + count ≤ order) :
    (t.addSteps order ((List.range count).map fun i : Nat => start + i)).2.Stepped := by
  induction count generalizing t start with
  | zero => exact h
  | succ count ih =>
    obtain ⟨words, hframe⟩ :=
      t.fillStep_frame start (Role.configurable.filter (·.applicable start order)) []
    have hkept {i : Nat} {w : Word} (hw : t.words[i]? = some w) : words[i]? = some w := by
      have hw := t.kept_fillStep start (Role.configurable.filter (·.applicable start order)) [] hw
      rwa [hframe] at hw
    have hstepped : { t with words }.Stepped :=
      h.of_kept (h.toNames.of_kept hkept rfl) hkept rfl rfl
    rw [map_range_succ]
    unfold Topology.addSteps
    split
    · next fault t₁ hfill =>
      rw [hfill] at hframe
      obtain rfl := hframe
      exact hstepped
    · next filled t₁ hfill =>
      obtain ⟨added, hadded, hroles, -, hfills⟩ := fillStep_ok h.toNames hfill
      obtain rfl : filled = added := hadded
      rw [hfill] at hframe
      obtain rfl := hframe
      have hfull : Full { t with words } ⟨start, filled⟩ := by
        refine ⟨hroles.trans (filter_applicable hmax (by omega)), fun x hx => ?_⟩
        exact (hfills.word (List.mem_map_of_mem hx)).2
      have hpushed := hstepped.push (s := ⟨start, filled⟩) hstart hfull
      refine ih hpushed (.inr ⟨⟨start, filled⟩, ?_, rfl⟩) (by omega)
      simp

theorem Stepped.addSteps_rounds (h : t.Stepped) (hmax : order ≤ orderMax) :
    (t.addSteps order (rounds order)).2.Stepped :=
  h.addSteps hmax (.inl rfl) (by simp only [firstRound]; omega)

-- ---------------------------------------------------------------------------
-- Steps that are found
-- ---------------------------------------------------------------------------

theorem Stepped.before (h : t.Stepped) (hs : t.steps[k + 1]? = some s) :
    ∃ s', t.steps[k]? = some s' ∧ (s.round = firstRound ∨ s.round = s'.round + 1) := by
  obtain ⟨hlt, -⟩ := Array.getElem?_eq_some_iff.mp hs
  have hbefore : t.steps[k]? = some t.steps[k] := Array.getElem?_eq_getElem _
  exact ⟨_, hbefore, h.next hbefore hs⟩

theorem Stepped.round_le (h : t.Stepped) (hs : t.steps[k]? = some s) :
    s.round ≤ firstRound + k := by
  induction k generalizing s with
  | zero =>
    rw [h.first s hs]
    exact Int.le_refl _
  | succ k ih =>
    obtain ⟨s', hs', hround⟩ := h.before hs
    have hle := ih hs'
    rcases hround with hfirst | hnext <;> omega

theorem Stepped.round_eq (h : t.Stepped) (hs : t.steps[k]? = some s)
    (hround : s.round = firstRound + k) {j : Nat} (hj : j ≤ k) :
    ∃ s', t.steps[j]? = some s' ∧ s'.round = firstRound + j := by
  induction k generalizing s with
  | zero =>
    obtain rfl := Nat.le_zero.mp hj
    exact ⟨s, hs, hround⟩
  | succ k ih =>
    rcases Nat.le_succ_iff.mp hj with hj | rfl
    · obtain ⟨s', hs', hbefore⟩ := h.before hs
      refine ih hs' ?_ hj
      rcases hbefore with hfirst | hnext <;> omega
    · exact ⟨s, hs, hround⟩

theorem Stepped.exists_message (h : t.Stepped) (hk : t.absentWord? (Int.ofNat k) = none) :
    ∃ s, t.steps[k + 4]? = some s ∧ 0 ≤ s.round := by
  have hmem : (Role.w, 0) ∈ wordsOfRound (Int.ofNat k) := by simp [wordsOfRound]
  have hword := List.findSome?_eq_none_iff.mp hk _ hmem
  have hat : t.stepAt? k = t.steps[k + 4]? := by
    have hindex : ((k : Int) - firstRound).toNat = k + 4 := by
      simp only [firstRound]
      omega
    rw [stepAt?, hindex, if_pos]
    simp only [firstRound]
    omega
  cases hs : t.steps[k + 4]? with
  | none => simp [stepWord?, hat, hs] at hword
  | some s =>
    refine ⟨s, rfl, ?_⟩
    cases hw : s.word? .w with
    | none => simp [stepWord?, hat, hs, hw] at hword
    | some w => exact (h.full s (Array.mem_of_getElem? hs)).since_le hw

/-- Where no round of an order misses a word, each finds its own step. -/
theorem Stepped.exists_step (h : t.Stepped)
    (hrounds : ∀ i < order, t.absentWord? (Int.ofNat i) = none) (hk : k < order) :
    ∃ s, t.steps[k + 4]? = some s ∧ s.round = k := by
  induction k with
  | zero =>
    obtain ⟨s, hs, hmessage⟩ := h.exists_message (hrounds 0 hk)
    have hle := h.round_le hs
    simp only [firstRound] at hle
    exact ⟨s, hs, by omega⟩
  | succ k ih =>
    obtain ⟨s, hs, hround⟩ := ih (by omega)
    obtain ⟨s', hs', hmessage⟩ := h.exists_message (hrounds _ hk)
    rw [Nat.succ_add] at hs'
    refine ⟨s', by rwa [Nat.succ_add], ?_⟩
    rcases h.next hs hs' with hfirst | hnext
    · simp only [firstRound] at hfirst
      omega
    · omega

theorem Stepped.hasWords (h : t.Stepped) (hpos : 0 < order)
    (hrounds : ∀ i < order, t.absentWord? (Int.ofNat i) = none) : t.HasWords order := by
  intro r k hr hsince hlt
  obtain ⟨last, hlast, hround⟩ := h.exists_step hrounds (Nat.sub_one_lt_of_lt hpos)
  have hfirst := Int.le_trans r.firstRound_le_since hsince
  obtain ⟨s, hs, hsround⟩ := h.round_eq hlast (by simp only [firstRound]; omega)
    (j := (k - firstRound).toNat) (by simp only [firstRound] at hfirst ⊢; omega)
  obtain rfl : s.round = k := by omega
  obtain ⟨w, hw, hname⟩ := (h.full s (Array.mem_of_getElem? hs)).word hr hsince
  refine ⟨w, ?_, hname⟩
  rw [stepWord?, stepAt?, if_pos (by omega), hs]
  exact hw

-- ---------------------------------------------------------------------------
-- Entries
-- ---------------------------------------------------------------------------

theorem absentWord?_of_addRounds {rounds : List Int} (h : t.addRounds rounds = .ok t') :
    ∀ i ∈ rounds, t.absentWord? i = none := by
  induction rounds generalizing t with
  | nil => exact List.forall_mem_nil _
  | cons round rounds ih =>
    unfold Topology.addRounds at h
    split at h
    · cases h
    · next hround =>
      refine List.forall_mem_cons.mpr ⟨hround, fun i hi => ?_⟩
      exact ih h i hi

/-- An order that is accepted reads no word twice, even if others were rejected before. -/
theorem Stepped.distinct_of_build (h : t.Stepped) (hmax : order ≤ orderMax)
    (hbuild : t.build order = .ok (.ok (), t')) : t'.Distinct := by
  obtain ⟨-, t₁, t₂, hsteps, hrounds, rfl⟩ := build_ok hbuild
  have hstepped := h.addSteps_rounds hmax
  rw [hsteps] at hstepped
  have habsent (i : Nat) (hi : i < order) : t₁.absentWord? (Int.ofNat i) = none :=
    absentWord?_of_addRounds hrounds _ (List.mem_map_of_mem (List.mem_range.mpr hi))
  obtain ⟨hoperations, -, -⟩ := addRounds_ok hrounds
  rw [hstepped.operations] at hoperations
  have hround {o : Operation} (ho : o ∈ t₂.operations) : ∃ i < order,
      o ∈ operationsOfRound (back t₁.wordOf (Int.ofNat i)) t₁.wordSize (Int.ofNat i) := by
    rw [← Array.mem_toList_iff, hoperations] at ho
    obtain ⟨_, hround, ho⟩ := List.mem_flatMap.mp ho
    obtain ⟨i, hi, rfl⟩ := List.mem_map.mp hround
    exact ⟨i, List.mem_range.mp hi, ho⟩
  constructor
  · intro o ho
    obtain ⟨i, hi, ho⟩ := hround ho
    exact (hstepped.hasWords (Nat.zero_lt_of_lt hi) habsent).apart hi o ho
  · intro o ho hxor
    obtain ⟨i, -, ho⟩ := hround ho
    rw [inputs_operationsOfRound _ _ _ o ho, hxor]
    rfl

theorem Stepped.enter (h : t.Stepped) {name : String} {value : Int} {result : Except Fault Unit}
    (henter : t.enter name value = .ok (result, t')) :
    t'.Stepped ∨ t'.isBuilt = true ∧ t'.Distinct := by
  rcases enter_cases henter with rfl | ⟨atoms, -, rfl⟩ | ⟨w, column, filled, -, hfill⟩ |
    ⟨order, hmax, hbuild⟩
  · exact .inl h
  · exact .inl (h.of_kept ⟨h.zero, h.word⟩ id rfl rfl)
  · have hfilled := fillSlots_induction (P := Stepped) (b := ⟨(t.nameWord w).1, column⟩)
      (fun h _ => h.of_kept ⟨h.zero, h.word⟩ id rfl rfl) (h.nameWord w) filled
    rw [hfill] at hfilled
    exact .inl hfilled
  · cases result with
    | ok =>
      obtain ⟨-, t₁, t₂, -, -, rfl⟩ := build_ok hbuild
      exact .inr ⟨rfl, h.distinct_of_build hmax hbuild⟩
    | error fault =>
      refine .inl ?_
      obtain ⟨rfl, -⟩ | ⟨-, rfl⟩ := build_error hbuild
      · exact h
      · exact h.addSteps_rounds hmax

theorem Stepped.distinct (h : t.Stepped) : t.Distinct := by
  constructor <;> simp [h.operations]

end ShaDiff.Topology
