import ShaDiff.Proofs.Narrowing
import ShaDiff.Proofs.Propagator.Slotted
import ShaDiff.Proofs.Topology.Slots

/-!
# Decisions make progress

A decision is a literal without value that splits what is known of its bit: once it is notified
and conditions are refreshed, some pairs of the bit are left and some are gone. No decision is
withheld: where there is none, no bit of the message and of the last registers and no atom of a
live equation is left that could be decided.
-/

namespace ShaDiff

theorem Encoding.exists_region_of_mem_forced {e : Encoding} {atoms : Slots} {c : Condition}
    {l : Literal} (h : l ∈ e.forced atoms c) : c ≠ .never ∧
      ∃ r ∈ e.regions, c.subset r.condition = true ∧ r.literal? atoms = some l := by
  unfold forced at h
  split at h
  · cases h
  · next hc =>
    obtain ⟨r, hr, hl⟩ := List.mem_filterMap.mp h
    obtain ⟨hr, hsub⟩ := List.mem_filter.mp hr
    exact ⟨hc, r, hr, hsub, hl⟩

namespace Propagator

variable {ρ : Type} {config : Config} {source : ρ} {p q : Propagator ρ} {b : Bit} {l : Literal}
  {a : Atom} {r : Encoding.Region} {requests : List Request} {replies : List Reply}

-- ---------------------------------------------------------------------------
-- What a decision leaves
-- ---------------------------------------------------------------------------

def Decides (p : Propagator ρ) (b : Bit) (l : Literal) : Prop :=
  p.value? l.atom = none ∧
    ∃ r ∈ p.encoding.regions, r.literal? (p.topology.slots b) = some l ∧ p.Splits b r

theorem condition_of_notice (h : p.Coherent) (hclean : p.valuation.dirty = [])
    (hb : p.isBuilt = true) (hr : r ∈ p.encoding.regions)
    (hl : r.literal? (p.topology.slots b) = some l) (hnone : p.value? l.atom = none)
    (isFixed : Bool) : (p.assign l isFixed).refresh.condition b =
      (p.condition b).inter r.condition := by
  have htracked := tracked_of_literal? h.tracks hl
  obtain ⟨a, ha, rfl⟩ := Option.map_eq_some_iff.mp hl
  have hz := Topology.isZero_of_slot ha
  have hbefore : p.condition b = p.freshCondition b := reflects_of_clean h.mirrors hclean b hz
  rw [condition_refresh (h.assign ⟨a, r.polarity⟩ isFixed).mirrors hz, hbefore, freshCondition,
    encoding, topology_assign]
  refine Encoding.refresh_of_value hr ?_ fun i => ?_
  · rw [join_values, ha]
    exact hnone
  · rw [join_values, join_values]
    split
    · next heq =>
      rw [heq, ha, Option.bind_some, value?_assign hb htracked, if_pos rfl]
    · next hne =>
      cases hi : (p.topology.slots b)[i]?.join with
      | none => rfl
      | some x =>
        have hx : a ≠ x := by
          rintro rfl
          have hplace := (h.tracks b i a hi).symm.trans (h.tracks b r.slot a ha)
          exact hne (Place.mk.inj (Option.some.inj hplace)).2
        rw [Option.bind_some, Option.bind_some, value?_assign hb htracked, if_neg hx]

theorem Splits.narrows (h : p.Splits b r) : (p.condition b).inter r.condition ≠ .never ∧
    ((p.condition b).inter r.condition).refines (p.condition b) = true := by
  obtain ⟨hsub, x, hx, hregion⟩ := h
  refine ⟨Condition.ne_never_of_allows (p := x) ?_, Condition.refines_inter hsub⟩
  rw [Condition.allows_inter, hx, hregion]
  rfl

-- ---------------------------------------------------------------------------
-- Bits of words
-- ---------------------------------------------------------------------------

theorem firstOpen?_eq_none {c : Condition} : p.firstOpen? b c = none ↔
    ∀ l ∈ p.encoding.forced (p.topology.slots b) c, p.literal? l ≠ none := by
  simp [firstOpen?]

/-- A bit that may be anything, or has a difference, is split by what forces less. -/
theorem decides_of_firstOpen? (hreflects : p.topology.Reflects p.valuation p.characteristic)
    (hc : p.condition b = .any ∨ p.condition b = .x) {d : Condition}
    (hd : d.subset (p.condition b) = true) (hl : p.firstOpen? b d = some l) : p.Decides b l := by
  have hnone : p.literal? l = none := by simpa using List.find?_some hl
  obtain ⟨hnever, r, hr, hsub, hliteral⟩ :=
    Encoding.exists_region_of_mem_forced (List.mem_of_find?_eq_some hl)
  have hvalue := literal?_eq_none.mp hnone
  obtain ⟨a, ha, rfl⟩ := Option.map_eq_some_iff.mp hliteral
  have hfresh : p.condition b = p.freshCondition b := hreflects b (Topology.isZero_of_slot ha)
  obtain ⟨x, hx⟩ := Condition.exists_pair_of_ne_never hnever
  refine ⟨hvalue, r, hr, hliteral, Encoding.not_subset_of_open hc hfresh.symm hr ?_, x,
    Condition.subset_iff.mp hd x hx, Condition.subset_iff.mp hsub x hx⟩
  rw [join_values, ha]
  exact hvalue

section

variable [Coin ρ]

theorem exists_of_decideBits {bits : List Bit} {source source' : ρ}
    (h : p.decideBits bits source = (some l, source')) : ∃ b ∈ bits, ∃ d : Condition,
      (p.condition b = .any ∨ p.condition b = .x) ∧ d.subset (p.condition b) = true ∧
      p.firstOpen? b d = some l := by
  induction bits generalizing source with
  | nil => cases h
  | cons b bits ih =>
    have hlater (source : ρ) (h : p.decideBits bits source = (some l, source')) :
        ∃ c ∈ b :: bits, ∃ d : Condition, (p.condition c = .any ∨ p.condition c = .x) ∧
          d.subset (p.condition c) = true ∧ p.firstOpen? c d = some l := by
      obtain ⟨c, hc, hfound⟩ := ih h
      exact ⟨c, .tail _ hc, hfound⟩
    unfold decideBits at h
    split at h
    · next hany =>
      split at h
      · next k hk =>
        obtain rfl := Option.some.inj (Prod.mk.inj h).1
        exact ⟨b, .head _, .same, .inl hany, by rw [hany]; rfl, hk⟩
      · exact hlater _ h
    · split at h
      · next hx =>
        dsimp only at h
        split at h
        · next k hk =>
          obtain rfl := Option.some.inj (Prod.mk.inj h).1
          refine ⟨b, .head _, _, .inr hx, ?_, hk⟩
          rw [hx]
          split <;> rfl
        · exact hlater _ h
      · exact hlater _ h

/-- Whether there is no decision of a bit, of one with a difference for one of the signs. -/
structure Passed (p : Propagator ρ) (b : Bit) : Prop where
  any : p.condition b = .any →
    ∀ l ∈ p.encoding.forced (p.topology.slots b) .same, p.literal? l ≠ none
  x : p.condition b = .x →
    (∀ l ∈ p.encoding.forced (p.topology.slots b) .u, p.literal? l ≠ none) ∨
      ∀ l ∈ p.encoding.forced (p.topology.slots b) .n, p.literal? l ≠ none

theorem passed_of_decideBits {bits : List Bit} {source source' : ρ}
    (h : p.decideBits bits source = (none, source')) : ∀ b ∈ bits, p.Passed b := by
  induction bits generalizing source with
  | nil => nofun
  | cons b bits ih =>
    unfold decideBits at h
    split at h
    · next hany =>
      split at h
      · cases h
      · next hnone =>
        refine List.forall_mem_cons.mpr ⟨⟨fun _ => firstOpen?_eq_none.mp hnone, fun hx => ?_⟩, ih h⟩
        exact nomatch hany.symm.trans hx
    · next hany =>
      split at h
      · dsimp only at h
        split at h
        · cases h
        · next hnone =>
          refine List.forall_mem_cons.mpr ⟨⟨fun hc => absurd hc hany, fun _ => ?_⟩, ih h⟩
          split at hnone
          · exact .inl (firstOpen?_eq_none.mp hnone)
          · exact .inr (firstOpen?_eq_none.mp hnone)
      · next hx =>
        exact List.forall_mem_cons.mpr
          ⟨⟨fun hc => absurd hc hany, fun hc => absurd hc hx⟩, ih h⟩

end

theorem mem_bitsBackward {role : Role} {first : Int} {rounds : Nat} :
    b ∈ p.bitsBackward role first rounds ↔ ∃ i < rounds,
      p.topology.wordAt? role (first + i) = some b.word ∧ b.column < p.topology.wordSize := by
  simp only [bitsBackward, List.mem_flatMap, List.mem_filterMap, List.mem_reverse, List.mem_range,
    Topology.wordBits, List.mem_map]
  constructor
  · rintro ⟨word, ⟨i, hi, hword⟩, column, hcolumn, rfl⟩
    exact ⟨i, hi, hword, hcolumn⟩
  · rintro ⟨i, hi, hword, hcolumn⟩
    exact ⟨b.word, ⟨i, hi, hword⟩, b.column, hcolumn, rfl⟩

/-- Whether decisions are made on the bits of a word: of the message, and of the registers of
the last four rounds. -/
def Preferred (order : Nat) (role : Role) (round : Int) : Prop :=
  role = .w ∧ 0 ≤ round ∧ round < order ∨
    (role = .a ∨ role = .e) ∧ order - 4 ≤ round ∧ round < order

theorem mem_of_preferred {order : Nat} {role : Role} {round : Int} (h : Preferred order role round)
    (hword : p.topology.wordAt? role round = some b.word) (hb : b.column < p.topology.wordSize) :
    b ∈ p.messageBits order ++ p.registerBits order := by
  have hmem {first : Int} {rounds : Nat} (hfirst : first ≤ round) (hlast : round < first + rounds) :
      b ∈ p.bitsBackward role first rounds := by
    refine mem_bitsBackward.mpr ⟨(round - first).toNat, by omega, ?_, hb⟩
    rw [← hword]
    congr 1
    omega
  have hregisters : max (order - 4 : Int) firstRound = order - 4 := by
    rw [firstRound]
    omega
  rcases h with ⟨rfl, hfirst, hlast⟩ | ⟨hrole, hfirst, hlast⟩
  · exact List.mem_append_left _ (hmem hfirst (by omega))
  · refine List.mem_append_right _ ?_
    unfold registerBits
    dsimp only
    rw [hregisters, List.mem_append]
    rcases hrole with rfl | rfl
    · exact .inl (hmem hfirst (by omega))
    · exact .inr (hmem hfirst (by omega))

-- ---------------------------------------------------------------------------
-- Atoms of live equations
-- ---------------------------------------------------------------------------

theorem openEquationAtom?_eq_none (h : p.openEquationAtom? = none) {e : Equation}
    (he : e ∈ p.liveEquations) (ha : a = e.a ∨ a = e.b) {place : Place}
    (hplace : p.topology.tracked[a]? = some place) (hvalue : p.value? a = none) :
    (p.condition place.bit).difference? ≠ none := by
  have hmem : a ∈ p.liveEquations.flatMap fun e => [e.a, e.b] :=
    List.mem_flatMap.mpr ⟨e, he, by simpa using ha⟩
  have hnot := List.find?_eq_none.mp h a hmem
  simpa [hvalue, hplace, Option.isNone_iff_eq_none] using hnot

theorem decides_of_openEquationAtom? (hreflects : p.topology.Reflects p.valuation p.characteristic)
    (ht : p.topology.Tracks) (hslotted : p.Slotted) (ha : p.openEquationAtom? = some a)
    (polarity : Bool) : ∃ b, p.Decides b ⟨a, polarity⟩ := by
  have hopen := List.find?_some ha
  simp only [Bool.and_eq_true, Option.isNone_iff_eq_none] at hopen
  obtain ⟨e, he, hmem⟩ := List.mem_flatMap.mp (List.mem_of_find?_eq_some ha)
  obtain ⟨b, slot, hslot, hatom⟩ :=
    hslotted.joins e (mem_of_mem_liveEquations he) a (by simpa using hmem)
  have hdifference : (p.condition b).difference? = none := by
    simpa [ht b slot a hatom] using hopen.2
  have hfresh : p.condition b = p.freshCondition b := hreflects b (Topology.isZero_of_slot hatom)
  have hnever : p.condition b ≠ .never := by
    rw [hfresh]
    refine Encoding.refresh_ne_never hslot ?_
    rw [join_values, hatom]
    exact hopen.1
  obtain ⟨r, hr, rfl, rfl⟩ :=
    Encoding.exists_region_of_slot (Encoding.differenceSlot_lt_slots hslot) polarity
  have hregion (x : Pair) : r.condition.allows x = (x.differs == r.polarity) := by
    rw [Encoding.allows_region hr, Encoding.allows_meaning_difference hslot]
  refine ⟨b, hopen.1, r, hr, by rw [Encoding.Region.literal?, hatom]; rfl, ?_, ?_⟩
  · obtain ⟨x, hx, hdiffers⟩ :=
      Condition.exists_pair_of_difference? hnever hdifference (!r.polarity)
    refine Bool.eq_false_iff.mpr fun hsub => ?_
    have hin := Condition.subset_iff.mp hsub x hx
    rw [hregion, hdiffers, Bool.not_beq_self] at hin
    cases hin
  · obtain ⟨x, hx, hdiffers⟩ := Condition.exists_pair_of_difference? hnever hdifference r.polarity
    exact ⟨x, hx, by rw [hregion, hdiffers, beq_self_eq_true]⟩

-- ---------------------------------------------------------------------------
-- All stages
-- ---------------------------------------------------------------------------

section

variable [Coin ρ]

theorem decides_of_findDecision (hreflects : p.topology.Reflects p.valuation p.characteristic)
    (ht : p.topology.Tracks) (hslotted : p.Slotted) (h : p.findDecision = (some l, q)) :
    ∃ b, p.Decides b l := by
  unfold findDecision at h
  split at h
  · cases h
  · split at h
    · next hfound =>
      obtain rfl := Option.some.inj (Prod.mk.inj h).1
      obtain ⟨b, -, d, hc, hd, hopen⟩ := exists_of_decideBits hfound
      exact ⟨b, decides_of_firstOpen? hreflects hc hd hopen⟩
    · split at h
      · cases h
      · next a ha =>
        obtain rfl := Option.some.inj (Prod.mk.inj h).1
        exact decides_of_openEquationAtom? hreflects ht hslotted ha _

theorem findDecision_eq_none (hb : p.isBuilt = true) (h : p.findDecision = (none, q)) :
    ∃ order : Nat, p.topology.order = some order ∧
      (∀ b ∈ p.messageBits order ++ p.registerBits order, p.Passed b) ∧
      p.openEquationAtom? = none := by
  unfold findDecision at h
  split at h
  · next hnone => simp [isBuilt, Topology.isBuilt, hnone] at hb
  · next order horder =>
    split at h
    · cases h
    · next hfound =>
      split at h
      · next hequation => exact ⟨order, horder, passed_of_decideBits hfound, hequation⟩
      · cases h

theorem decide_eq_some (h : p.decide = (some l, q)) : p.isBuilt = true ∧
    p.refresh.findDecision.1 = some l ∧
    q = { p.refresh with source := q.source, status := q.status, counters := q.counters } := by
  have hframe := findDecision_frame p.refresh
  unfold Propagator.decide at h
  split at h
  · next hguard =>
    simp only [Bool.and_eq_true] at hguard
    split at h
    · cases h
    · next k q' hfound =>
      obtain ⟨hk, rfl⟩ := Prod.mk.inj h
      rw [hfound] at hframe ⊢
      refine ⟨hguard.1.1, hk, ?_⟩
      rw [show q' = _ from hframe]
  · cases h

theorem decide_eq_none (h : p.decide = (none, q)) (hb : p.isBuilt = true)
    (hbranching : p.config.branching = true) (hidle : p.status = .idle) :
    p.refresh.findDecision.1 = none ∧ q = { p.refresh with source := q.source } := by
  have hframe := findDecision_frame p.refresh
  unfold Propagator.decide at h
  rw [if_pos (by simp [hb, hbranching, hidle])] at h
  split at h
  · next q' hfound =>
    obtain rfl := (Prod.mk.inj h).2
    rw [hfound] at hframe ⊢
    exact ⟨rfl, hframe⟩
  · cases h

/-- A decision notified on a new level leaves its bit some of the pairs there were. -/
theorem narrows_of_decides (h : p.Coherent) (hclean : p.valuation.dirty = [])
    (hb : p.isBuilt = true) (hl : p.Decides b l) (isFixed : Bool) :
    (p.openLevel.assign l isFixed).refresh.condition b ≠ .never ∧
      ((p.openLevel.assign l isFixed).refresh.condition b).refines (p.condition b) = true := by
  obtain ⟨hnone, r, hr, hliteral, hsplits⟩ := hl
  have hcoherent : p.openLevel.Coherent := h.answer (c := .openLevel) rfl
  rw [openLevel_frame] at hcoherent ⊢
  rw [condition_of_notice hcoherent hclean hb hr hliteral hnone]
  exact hsplits.narrows

/-- Whatever was requested, a decision is a literal of a tracked atom without value, and on a new
level its notice and a refresh leave its bit some pairs but not all there were. If no decision is
given, though there might be one, there is none left: no bit of the message or the last
registers that may be anything could be told to have no difference, none with a difference could
be given either sign, and no live equation has an atom without value whose difference is not
known. -/
theorem decisions_progress (hp : (new config source).replyAll requests = .ok (replies, p)) :
    (∀ l q, p.decide = (some l, q) → ∃ place, q.topology.tracked[l.atom]? = some place ∧
      q.value? l.atom = none ∧ ∀ isFixed,
        (q.openLevel.assign l isFixed).refresh.condition place.bit ≠ .never ∧
        ((q.openLevel.assign l isFixed).refresh.condition place.bit).refines
          (q.condition place.bit) = true) ∧
    ∀ q, p.decide = (none, q) → p.isBuilt = true → p.config.branching = true →
      p.status = .idle → ∃ order, q.topology.order = some order ∧
        (∀ role round word, Preferred order role round →
          q.topology.wordAt? role round = some word → ∀ b ∈ q.topology.wordBits word, q.Passed b) ∧
        ∀ e ∈ q.liveEquations, ∀ a, a = e.a ∨ a = e.b → ∀ place,
          q.topology.tracked[a]? = some place → q.value? a = none →
          (q.condition place.bit).difference? ≠ none := by
  have hcoherent := coherent_of_replyAll hp
  have hslotted := slotted_of_replyAll hp
  have hreflects := reflects_refresh hcoherent.mirrors
  refine ⟨fun l q hq => ?_, fun q hq hb hbranching hidle => ?_⟩
  · obtain ⟨hb, hfound, hframe⟩ := decide_eq_some hq
    obtain ⟨b, hl⟩ := decides_of_findDecision hreflects hcoherent.refresh.tracks hslotted.refresh
      (Prod.ext_iff.mpr ⟨hfound, rfl⟩)
    have hanswered : p.decide.2.Coherent :=
      hcoherent.answer (c := .decide) (a := .literal p.decide.1) rfl
    rw [hq] at hanswered
    rw [hframe] at hanswered ⊢
    obtain ⟨hnone, r, -, hliteral, -⟩ := id hl
    obtain ⟨a, ha, rfl⟩ := Option.map_eq_some_iff.mp hliteral
    exact ⟨⟨b, r.slot⟩, hcoherent.refresh.tracks b r.slot a ha, hnone,
      narrows_of_decides hanswered p.dirty_refresh.1 (p.asked_refresh.isBuilt.trans hb) hl⟩
  · obtain ⟨hfound, hframe⟩ := decide_eq_none hq hb hbranching hidle
    obtain ⟨order, horder, hpassed, hequation⟩ := findDecision_eq_none
      (p.asked_refresh.isBuilt.trans hb) (Prod.ext_iff.mpr ⟨hfound, rfl⟩)
    rw [hframe]
    refine ⟨order, horder, fun role round word hpreferred hword b hmem => ?_,
      fun e he a ha place hplace hvalue => openEquationAtom?_eq_none hequation he ha hplace hvalue⟩
    obtain ⟨column, hcolumn, rfl⟩ := List.mem_map.mp hmem
    have hcolumn : column < p.refresh.topology.wordSize := List.mem_range.mp hcolumn
    have hpassed := hpassed ⟨word, column⟩ (mem_of_preferred hpreferred hword hcolumn)
    exact ⟨hpassed.any, hpassed.x⟩

/-- The message and the registers have no differences, so the difference of `T` is decided, for
it is in an equation. When it has a value too, there is nothing to decide. -/
theorem decisions_progress_sample :
    let calls : List Call := [.assign ⟨3, false⟩ false, .propagate] ++
      [23, 5, 7, 9, 11, 15, 17, 19, 21].map fun a => .assign ⟨a, false⟩ false
    let start : Propagator Pcg := new { encoding := .li2024, wordSize := 1 } (.ofSeed 0)
    (∃ replies p q, start.replyAll (sampleRequests calls) = .ok (replies, p) ∧
      p.decide = (some ⟨25, false⟩, q) ∧ q.condition ⟨12, 0⟩ = .any ∧
      (q.openLevel.assign ⟨25, false⟩ false).refresh.condition ⟨12, 0⟩ ≠ .never ∧
      ((q.openLevel.assign ⟨25, false⟩ false).refresh.condition ⟨12, 0⟩).refines .any = true) ∧
    ∃ replies p q, start.replyAll (sampleRequests (calls ++ [.assign ⟨25, false⟩ false])) =
      .ok (replies, p) ∧ p.decide = (none, q) ∧ q.liveEquations.length = 1 ∧
      ∀ e ∈ q.liveEquations, ∀ a, a = e.a ∨ a = e.b → ∀ place,
        q.topology.tracked[a]? = some place → q.value? a = none →
        (q.condition place.bit).difference? ≠ none := by
  intro calls start
  constructor
  · have hreplied : (start.replyAll (sampleRequests calls)).map (fun (_, p) =>
        (p.decide.1, p.decide.2.topology.tracked[25]?, p.decide.2.condition ⟨12, 0⟩)) =
        .ok (some ⟨25, false⟩, some ⟨⟨12, 0⟩, 0⟩, .any) := by decide +kernel
    obtain ⟨⟨replies, p⟩, hp, hresult⟩ := exists_of_map_eq_ok hreplied
    simp only [Prod.mk.injEq] at hresult
    obtain ⟨hdecision, htracked, hany⟩ := hresult
    have hdecide : p.decide = (some ⟨25, false⟩, p.decide.2) := Prod.ext hdecision rfl
    obtain ⟨place, hplace, -, hnarrows⟩ := (decisions_progress hp).1 _ _ hdecide
    obtain rfl := Option.some.inj (htracked.symm.trans hplace)
    have hleft := hnarrows false
    rw [hany] at hleft
    exact ⟨replies, p, p.decide.2, hp, hdecide, hany, hleft⟩
  · have hreplied : (start.replyAll (sampleRequests (calls ++ [.assign ⟨25, false⟩ false]))).map
        (fun (_, p) => (p.decide.1, p.decide.2.liveEquations.length, p.isBuilt,
          p.config.branching, p.status)) = .ok (none, 1, true, true, .idle) := by decide +kernel
    obtain ⟨⟨replies, p⟩, hp, hresult⟩ := exists_of_map_eq_ok hreplied
    simp only [Prod.mk.injEq] at hresult
    obtain ⟨hdecision, hlive, hb, hbranching, hidle⟩ := hresult
    have hdecide : p.decide = (none, p.decide.2) := Prod.ext hdecision rfl
    obtain ⟨order, -, -, hequations⟩ := (decisions_progress hp).2 _ hdecide hb hbranching hidle
    exact ⟨replies, p, p.decide.2, hp, hdecide, hlive, hequations⟩

end

end Propagator

end ShaDiff
