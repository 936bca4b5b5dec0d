import ShaDiff.Proofs.Column.Exact

/-!
# Relations of a column

A column notes just those relations between the differences at two positions that all
survivors agree with, where neither difference is constant, in ascending order
(`mem_all_iff`, `pairwise_all`). Together with the exactness of refined conditions that says
all of what propagation of a column gives (`checked_exact`).
-/

namespace ShaDiff

namespace Relation

variable {patterns : List (List Bool)} {places : List Nat} {positions p q : Nat} {value : Bool}
  {r s : Relation}

def Before (r s : Relation) : Prop := r.first < s.first ∨ r.first = s.first ∧ r.second < s.second

theorem isFree_iff : isFree patterns p = true ↔
    (∃ s ∈ patterns, difference s p = true) ∧ ∃ s ∈ patterns, difference s p = false := by
  simp [isFree]

theorem constantSum?_eq_some (hne : patterns ≠ []) : constantSum? patterns p q = some value ↔
    ∀ s ∈ patterns, (difference s p ^^ difference s q) = value := by
  refine ⟨sum_of_constantSum?, fun h => ?_⟩
  cases patterns with
  | nil => exact absurd rfl hne
  | cons s ss =>
    obtain ⟨hs, hss⟩ := List.forall_mem_cons.mp h
    simpa [constantSum?, hs] using hss

theorem mem_among_iff (h : places.Pairwise (· < ·)) : r ∈ among patterns places ↔
    r.first ∈ places ∧ r.second ∈ places ∧ r.first < r.second ∧
      constantSum? patterns r.first r.second = some r.value := by
  induction places with
  | nil => simp [among]
  | cons p qs ih =>
    obtain ⟨hp, hqs⟩ := List.pairwise_cons.mp h
    rw [among, List.mem_append, ih hqs, List.mem_filterMap]
    constructor
    · rintro (⟨q, hq, hr⟩ | ⟨hfirst, hsecond, hr⟩)
      · obtain ⟨value, hvalue, rfl⟩ := Option.map_eq_some_iff.mp hr
        exact ⟨.head _, .tail _ hq, hp q hq, hvalue⟩
      · exact ⟨.tail _ hfirst, .tail _ hsecond, hr⟩
    · rintro ⟨hfirst, hsecond, hlt, hvalue⟩
      rcases List.mem_cons.mp hsecond with heq | hlater
      · -- The first place is less than all others, so it is no second one.
        rcases List.mem_cons.mp hfirst with heq' | hfirst
        · omega
        · have := hp _ hfirst
          omega
      · rcases List.mem_cons.mp hfirst with rfl | hfirst
        · exact .inl ⟨r.second, hlater, by rw [hvalue]; rfl⟩
        · exact .inr ⟨hfirst, hlater, hlt, hvalue⟩

theorem pairwise_among (h : places.Pairwise (· < ·)) : (among patterns places).Pairwise Before := by
  induction places with
  | nil => exact .nil
  | cons p qs ih =>
    obtain ⟨hp, hqs⟩ := List.pairwise_cons.mp h
    refine List.pairwise_append.mpr ⟨?_, ih hqs, fun r hr s hs => .inl ?_⟩
    · refine List.Pairwise.filterMap _ (fun q q' hlt r hr s hs => .inr ?_) hqs
      obtain ⟨_, -, rfl⟩ := Option.map_eq_some_iff.mp hr
      obtain ⟨_, -, rfl⟩ := Option.map_eq_some_iff.mp hs
      exact ⟨rfl, hlt⟩
    · obtain ⟨q, -, hr⟩ := List.mem_filterMap.mp hr
      obtain ⟨_, -, rfl⟩ := Option.map_eq_some_iff.mp hr
      exact hp _ (mem_among hs).1

theorem pairwise_free (patterns : List (List Bool)) (positions : Nat) :
    ((List.range positions).filter (isFree patterns)).Pairwise (· < ·) :=
  List.pairwise_lt_range.filter _

theorem pairwise_all (patterns : List (List Bool)) (positions : Nat) :
    (all patterns positions).Pairwise Before :=
  pairwise_among (pairwise_free patterns positions)

/-- All relations are listed that every pattern agrees with and no constant makes. -/
theorem mem_all_iff (hne : patterns ≠ []) : r ∈ all patterns positions ↔
    r.first < r.second ∧ r.second < positions ∧
      isFree patterns r.first = true ∧ isFree patterns r.second = true ∧
      ∀ s ∈ patterns, (difference s r.first ^^ difference s r.second) = r.value := by
  rw [all, mem_among_iff (pairwise_free patterns positions), constantSum?_eq_some hne]
  simp only [List.mem_filter, List.mem_range]
  constructor
  · rintro ⟨⟨-, hfree⟩, ⟨hlt, hfree'⟩, hfirst, hsum⟩
    exact ⟨hfirst, hlt, hfree, hfree', hsum⟩
  · rintro ⟨hfirst, hlt, hfree, hfree', hsum⟩
    exact ⟨⟨by omega, hfree⟩, ⟨hlt, hfree'⟩, hfirst, hsum⟩

end Relation

namespace Column

open Condition (Allow)

variable {g : Gate} {inputs outputs : List Condition} {s : List Pair} {outcome : Outcome}

/-- Whether pairs at all positions of a column are allowed, and the gate makes those of the
outputs of those of the inputs in both instances. -/
def Survives (g : Gate) (inputs outputs : List Condition) (s : List Pair) : Prop :=
  ∃ ps qs, s = ps ++ qs ∧ Allow inputs ps ∧ Allow outputs qs ∧
    qs.map (·.first) = g.evaluate (ps.map (·.first)) ∧
    qs.map (·.second) = g.evaluate (ps.map (·.second))

def Constant (g : Gate) (inputs outputs : List Condition) (position : Nat) : Prop :=
  ∃ value, ∀ s, Survives g inputs outputs s →
    Relation.difference (s.map (·.differs)) position = value

theorem eq_image_iff {places : Nat} {ps qs : List Pair} : qs = image g places ps ↔
    qs.map (·.first) = g.write places (ps.map (·.first)) ∧
      qs.map (·.second) = g.write places (ps.map (·.second)) := by
  have hzip (xs ys : List Bool) (hl : xs.length = ys.length) :
      qs = List.zipWith Pair.mk xs ys ↔ qs.map (·.first) = xs ∧ qs.map (·.second) = ys := by
    induction qs generalizing xs ys with
    | nil => cases xs <;> cases ys <;> simp_all
    | cons q qs ih =>
      rcases xs with _ | ⟨x, xs⟩ <;> rcases ys with _ | ⟨y, ys⟩
      · simp
      · cases hl
      · cases hl
      · obtain ⟨a, b⟩ := q
        simp only [List.zipWith_cons_cons, List.cons.injEq, ih xs ys (Nat.succ.inj hl),
          List.map_cons, Pair.mk.injEq]
        tauto
  exact hzip _ _ (by simp [Gate.length_write])

theorem survives_iff (ho : outputs.length = g.width) :
    Survives g inputs outputs s ↔ s ∈ survivors g inputs outputs := by
  rw [mem_survivors_iff]
  constructor
  · rintro ⟨ps, qs, rfl, hi, hq, hfirst, hsecond⟩
    obtain rfl : qs = image g outputs.length ps := eq_image_iff.mpr (ho ▸ ⟨hfirst, hsecond⟩)
    exact ⟨ps, ⟨hi, hq⟩, rfl⟩
  · rintro ⟨ps, ⟨hi, hq⟩, rfl⟩
    have himage : image g outputs.length ps = image g outputs.length ps := rfl
    obtain ⟨hfirst, hsecond⟩ := eq_image_iff.mp himage
    exact ⟨ps, _, rfl, hi, hq, by rw [hfirst, ho]; rfl, by rw [hsecond, ho]; rfl⟩

theorem relations_propagate (h : propagate g inputs outputs = some outcome) :
    survivors g inputs outputs ≠ [] ∧ outcome.relations =
      Relation.all ((survivors g inputs outputs).map (·.map (·.differs)))
        (inputs.length + outputs.length) := by
  unfold propagate at h
  dsimp only at h
  split at h
  · cases h
  · next hne =>
    obtain rfl := Option.some.inj h
    exact ⟨mt List.isEmpty_iff.mpr hne, rfl⟩

theorem isFree_survivors (ho : outputs.length = g.width) {position : Nat} :
    Relation.isFree ((survivors g inputs outputs).map (·.map (·.differs))) position = true ↔
      ¬ Constant g inputs outputs position := by
  have hexists (value : Bool) :
      (∃ t ∈ (survivors g inputs outputs).map (·.map (·.differs)),
        Relation.difference t position = value) ↔
      ¬ ∀ s, Survives g inputs outputs s →
        Relation.difference (s.map (·.differs)) position = !value := by
    simp only [survives_iff ho, not_forall, Bool.not_eq_not, exists_prop, List.mem_map,
      exists_exists_and_eq_and]
  rw [Relation.isFree_iff, hexists, hexists]
  simp [Constant, and_comm]

/-- A checked column is contradictory if it has no survivor. Otherwise its refined conditions
allow just the pairs of survivors, and its relations are, in ascending order, all those that
every survivor agrees with between differences that are not constant. -/
theorem checked_exact (hwidth : outputs.length = g.width)
    (hmax : inputs.length + outputs.length ≤ positionsMax) :
    ∃ result, checked g inputs outputs = .ok result ∧
      (result = none ↔ ¬ ∃ s, Survives g inputs outputs s) ∧
      ∀ outcome, result = some outcome →
        outcome.inputs.length = inputs.length ∧ outcome.outputs.length = outputs.length ∧
        (∀ (k : Nat) c, (outcome.inputs ++ outcome.outputs)[k]? = some c → ∀ p,
          c.allows p = true ↔ ∃ s, Survives g inputs outputs s ∧ s[k]? = some p) ∧
        outcome.relations.Pairwise Relation.Before ∧
        ∀ r, r ∈ outcome.relations ↔
          r.first < r.second ∧ r.second < inputs.length + outputs.length ∧
          (∀ s, Survives g inputs outputs s →
            (Relation.difference (s.map (·.differs)) r.first ^^
              Relation.difference (s.map (·.differs)) r.second) = r.value) ∧
          ¬ Constant g inputs outputs r.first ∧ ¬ Constant g inputs outputs r.second := by
  have hsolves (s : List Pair) : Survives g inputs outputs s ↔
      ∃ ps, Solves g inputs outputs ps ∧ s = ps ++ image g outputs.length ps := by
    rw [survives_iff hwidth, mem_survivors_iff]
  refine ⟨propagate g inputs outputs, if_pos hmax, ?_, fun outcome houtcome => ?_⟩
  · rw [propagate_eq_none, not_exists]
    constructor
    · rintro hnone s hs
      obtain ⟨ps, hps, -⟩ := (hsolves s).mp hs
      exact hnone ps hps
    · exact fun hnone ps hps => hnone _ ((hsolves _).mpr ⟨ps, hps, rfl⟩)
  have hexact := exact_propagate houtcome
  obtain ⟨hne, hrelations⟩ := relations_propagate houtcome
  refine ⟨hexact.length_inputs, hexact.length_outputs, fun k c hc p => ?_, ?_, fun r => ?_⟩
  · rw [hexact.allows hc]
    constructor
    · rintro ⟨ps, hps, hp⟩
      exact ⟨_, (hsolves _).mpr ⟨ps, hps, rfl⟩, hp⟩
    · rintro ⟨s, hs, hp⟩
      obtain ⟨ps, hps, rfl⟩ := (hsolves s).mp hs
      exact ⟨ps, hps, hp⟩
  · rw [hrelations]
    exact Relation.pairwise_all _ _
  · rw [hrelations, Relation.mem_all_iff (by simpa using hne), isFree_survivors hwidth,
      isFree_survivors hwidth, List.forall_mem_map]
    simp only [survives_iff hwidth]
    tauto

theorem checked_exact_xor3 :
    checked .xor3 [.any, .any, .same] [.x] =
        .ok (some ⟨[.any, .any, .same], [.x], [⟨0, 1, true⟩]⟩) ∧
      ∀ s, Survives .xor3 [.any, .any, .same] [.x] s →
        (Relation.difference (s.map (·.differs)) 0 ^^
          Relation.difference (s.map (·.differs)) 1) = true := by
  have hrun : checked .xor3 [.any, .any, .same] [.x] =
      .ok (some ⟨[.any, .any, .same], [.x], [⟨0, 1, true⟩]⟩) := by decide +kernel
  obtain ⟨result, hresult, -, hsome⟩ :=
    @checked_exact .xor3 [.any, .any, .same] [.x] rfl (by decide)
  obtain ⟨-, -, -, -, hrelations⟩ := hsome _ (Except.ok.inj (hresult.symm.trans hrun))
  obtain ⟨-, -, hsum, -⟩ := (hrelations ⟨0, 1, true⟩).mp (List.mem_singleton_self _)
  exact ⟨hrun, hsum⟩

end Column

end ShaDiff
