import Mathlib.Data.List.Perm.Subperm
import ShaDiff.Proofs.Satisfaction
import ShaDiff.TwoBit.Cycle

/-!
# Cycles decide consistency

A walk through a graph adds up the values of its edges, and a solution of the
graph gives the two ends of a walk differences with that sum (`Walk.sum_eq`). The
search for a way finds a walk to its goal if there is one (`way?_eq_none`), as the
rounds it is given outnumber the states there are. So an equation is turned away
exactly if the equations kept before it contradict it, and the clauses given
block collections of equations without solution (`mem_clauses`,
`clauses_eq_nil_iff`).
-/

namespace ShaDiff.TwoBit.Cycle

variable {g : Graph} {v : Atom → Bool}

-- ---------------------------------------------------------------------------
-- Walks
-- ---------------------------------------------------------------------------

theorem mem_around {u w : Atom} {e : Equation} :
    (w, e) ∈ g.around u ↔ e ∈ g ∧ (e.a = u ∧ e.b = w ∨ e.b = u ∧ e.a = w) := by
  simp only [Graph.around, List.mem_append, List.mem_map, List.mem_filter, beq_iff_eq,
    Prod.mk.injEq]
  constructor
  · rintro (⟨f, ⟨hf, ha⟩, hb, rfl⟩ | ⟨f, ⟨hf, hb⟩, ha, rfl⟩)
    · exact ⟨hf, .inl ⟨ha, hb⟩⟩
    · exact ⟨hf, .inr ⟨hb, ha⟩⟩
  · rintro ⟨he, ⟨ha, hb⟩ | ⟨hb, ha⟩⟩
    · exact .inl ⟨e, ⟨he, ha⟩, hb, rfl⟩
    · exact .inr ⟨e, ⟨he, hb⟩, ha, rfl⟩

inductive Walk (g : Graph) (start : Atom) : Visit → Prop
  | start : Walk g start ⟨start, false, []⟩
  | step : Walk g start p → (w, e) ∈ g.around p.vertex →
    Walk g start ⟨w, p.sum ^^ e.value, e :: p.way⟩

theorem Walk.way_subset (h : Walk g a p) : ∀ e ∈ p.way, e ∈ g := by
  induction h with
  | start => intro e he; cases he
  | step _ hw ih =>
    intro e he
    rcases List.mem_cons.mp he with rfl | he
    · exact (mem_around.mp hw).1
    · exact ih e he

theorem holds_of_around {u w : Atom} {e : Equation} (h : (w, e) ∈ g.around u) (he : e.Holds v) :
    v w = (v u ^^ e.value) := by
  obtain ⟨-, ⟨rfl, rfl⟩ | ⟨rfl, rfl⟩⟩ := mem_around.mp h
  · rw [← show (v e.a ^^ v e.b) = e.value from he]; simp
  · rw [← show (v e.a ^^ v e.b) = e.value from he, Bool.xor_comm (v e.a)]; simp

theorem Walk.sum_eq (h : Walk g a p) (hs : Solves v p.way) : v p.vertex = (v a ^^ p.sum) := by
  induction h with
  | start => simp
  | step _ hw ih =>
    obtain ⟨he, hs⟩ := solves_cons.mp hs
    rw [holds_of_around hw he, ih hs, Bool.xor_assoc]

def Reaches (g : Graph) (a : Atom) (state : Atom × Bool) : Prop := ∃ p, Walk g a p ∧ p.state = state

theorem Reaches.step {u w : Atom} {s : Bool} {e : Equation} (h : Reaches g a (u, s))
    (hw : (w, e) ∈ g.around u) : Reaches g a (w, s ^^ e.value) := by
  obtain ⟨p, hp, hs⟩ := h
  obtain ⟨rfl, rfl⟩ := Prod.mk.injEq .. ▸ hs
  exact ⟨_, .step hp hw, rfl⟩

theorem Reaches.sum_eq (h : Reaches g a (u, s)) (hv : Solves v g) : v u = (v a ^^ s) := by
  obtain ⟨p, hp, hs⟩ := h
  obtain ⟨rfl, rfl⟩ := Prod.mk.injEq .. ▸ hs
  exact hp.sum_eq fun e he => hv e (hp.way_subset e he)

/-- A set of states that no edge leaves holds all that can be reached from it. -/
theorem Reaches.mem_of_closed {seen : List (Atom × Bool)} (h : Reaches g a state)
    (ha : (a, false) ∈ seen)
    (hc : ∀ u s, (u, s) ∈ seen → ∀ w e, (w, e) ∈ g.around u → (w, s ^^ e.value) ∈ seen) :
    state ∈ seen := by
  obtain ⟨p, hp, rfl⟩ := h
  induction hp with
  | start => exact ha
  | step _ hw ih => exact hc _ _ ih _ _ hw

-- ---------------------------------------------------------------------------
-- One round of the search
-- ---------------------------------------------------------------------------

def collect : List (Atom × Bool) × List Visit → List Visit → List (Atom × Bool) × List Visit :=
  List.foldl fun (seen, fresh) p =>
    if seen.contains p.state then (seen, fresh) else (p.state :: seen, p :: fresh)

theorem collect_cons (seen : List (Atom × Bool)) (fresh : List Visit) (p : Visit)
    (further : List Visit) : collect (seen, fresh) (p :: further) =
      collect (if seen.contains p.state then (seen, fresh) else (p.state :: seen, p :: fresh))
        further := rfl

theorem collect_spec (further : List Visit) (seen : List (Atom × Bool)) (fresh : List Visit) :
    ∃ new, (collect (seen, fresh) further).2 = new ++ fresh ∧
      (collect (seen, fresh) further).1 = new.map Visit.state ++ seen ∧
      (∀ p ∈ new, p ∈ further) ∧
      (seen.Nodup → (collect (seen, fresh) further).1.Nodup) ∧
      ∀ p ∈ further, p.state ∈ (collect (seen, fresh) further).1 := by
  induction further generalizing seen fresh with
  | nil => exact ⟨[], rfl, rfl, by simp, id, by simp⟩
  | cons p further ih =>
    by_cases hp : seen.contains p.state
    · obtain ⟨new, h1, h2, h3, h4, h5⟩ := ih seen fresh
      rw [collect_cons, if_pos hp]
      refine ⟨new, h1, h2, fun q hq => .tail _ (h3 q hq), h4, fun q hq => ?_⟩
      rcases List.mem_cons.mp hq with rfl | hq
      · exact h2 ▸ List.mem_append_right _ (by simpa using hp)
      · exact h5 q hq
    · obtain ⟨new, h1, h2, h3, h4, h5⟩ := ih (p.state :: seen) (p :: fresh)
      rw [collect_cons, if_neg hp]
      refine ⟨new ++ [p], by simp [h1], by simp [h2], fun q hq => ?_, fun hn => h4 ?_,
        fun q hq => ?_⟩
      · rcases List.mem_append.mp hq with hq | hq
        · exact .tail _ (h3 q hq)
        · simp_all
      · exact List.nodup_cons.mpr ⟨by simpa using hp, hn⟩
      · rcases List.mem_cons.mp hq with rfl | hq
        · exact h2 ▸ List.mem_append_right _ (.head _)
        · exact h5 q hq

def further (g : Graph) (visits : List Visit) : List Visit :=
  visits.flatMap fun p => (g.around p.vertex).map fun (w, e) =>
    (⟨w, p.sum ^^ e.value, e :: p.way⟩ : Visit)

theorem mem_further {visits : List Visit} {q : Visit} : q ∈ further g visits ↔
    ∃ p ∈ visits, ∃ w e, (w, e) ∈ g.around p.vertex ∧ q = ⟨w, p.sum ^^ e.value, e :: p.way⟩ := by
  simp only [further, List.mem_flatMap, List.mem_map, Prod.exists]
  refine exists_congr fun p => and_congr_right fun _ => exists_congr fun w => exists_congr fun e =>
    and_congr_right fun _ => eq_comm

theorem expand_eq (g : Graph) (seen : List (Atom × Bool)) (visits : List Visit) :
    expand g seen visits = ((collect (seen, []) (further g visits)).1,
      (collect (seen, []) (further g visits)).2.reverse) := rfl

-- ---------------------------------------------------------------------------
-- The search
-- ---------------------------------------------------------------------------

/-- What the search keeps: whatever has been seen and is not to be visited next has
all its neighbours seen, and is not the goal. -/
structure Frontier (g : Graph) (a : Atom) (goal : Atom × Bool) (seen : List (Atom × Bool))
    (visits : List Visit) : Prop where
  start : (a, false) ∈ seen
  nodup : seen.Nodup
  walks : ∀ p ∈ visits, Walk g a p
  visited : ∀ p ∈ visits, p.state ∈ seen
  closed : ∀ state ∈ seen, (∃ p ∈ visits, p.state = state) ∨
    state ≠ goal ∧ ∀ w e, (w, e) ∈ g.around state.1 → (w, state.2 ^^ e.value) ∈ seen
  states : ∀ state ∈ seen, state = (a, false) ∨ ∃ e ∈ g, state.1 = e.a ∨ state.1 = e.b

theorem frontier_start (g : Graph) (a : Atom) (goal : Atom × Bool) :
    Frontier g a goal [(a, false)] [⟨a, false, []⟩] where
  start := .head _
  nodup := List.pairwise_singleton _ _
  walks p hp := by obtain rfl := List.mem_singleton.mp hp; exact .start
  visited p hp := by obtain rfl := List.mem_singleton.mp hp; exact .head _
  closed state hs := .inl ⟨_, .head _, (List.mem_singleton.mp hs).symm⟩
  states state hs := .inl (List.mem_singleton.mp hs)

theorem Frontier.expand (h : Frontier g a goal seen visits)
    (hg : ∀ p ∈ visits, p.state ≠ goal) :
    Frontier g a goal (expand g seen visits).1 (expand g seen visits).2 ∧
      (expand g seen visits).1.length = seen.length + (expand g seen visits).2.length := by
  obtain ⟨new, h1, h2, h3, h4, h5⟩ := collect_spec (further g visits) seen []
  rw [List.append_nil] at h1
  rw [expand_eq, h1]
  have hold {state} (hs : state ∈ seen) : state ∈ (collect (seen, []) (further g visits)).1 :=
    h2 ▸ List.mem_append_right _ hs
  have hnew {p} (hp : p ∈ new) : p.state ∈ (collect (seen, []) (further g visits)).1 :=
    h2 ▸ List.mem_append_left _ (List.mem_map_of_mem hp)
  refine ⟨⟨hold h.start, h4 h.nodup, fun p hp => ?_, fun p hp => hnew (List.mem_reverse.mp hp),
    fun state hs => ?_, fun state hs => ?_⟩, by simp [h2, Nat.add_comm]⟩
  · obtain ⟨q, hq, w, e, hw, rfl⟩ := mem_further.mp (h3 p (List.mem_reverse.mp hp))
    exact .step (h.walks q hq) hw
  · rw [h2, List.mem_append, List.mem_map] at hs
    rcases hs with ⟨p, hp, rfl⟩ | hs
    · exact .inl ⟨p, List.mem_reverse.mpr hp, rfl⟩
    · refine .inr ?_
      rcases h.closed state hs with ⟨p, hp, rfl⟩ | ⟨hne, hc⟩
      · exact ⟨hg p hp, fun w e hw => h5 ⟨w, _, e :: p.way⟩
          (mem_further.mpr ⟨p, hp, w, e, hw, rfl⟩)⟩
      · exact ⟨hne, fun w e hw => hold (hc w e hw)⟩
  · rw [h2, List.mem_append, List.mem_map] at hs
    rcases hs with ⟨p, hp, rfl⟩ | hs
    · obtain ⟨q, -, w, e, hw, rfl⟩ := mem_further.mp (h3 p hp)
      obtain ⟨he, ⟨-, hb⟩ | ⟨-, ha⟩⟩ := mem_around.mp hw
      · exact .inr ⟨e, he, .inr hb.symm⟩
      · exact .inr ⟨e, he, .inl ha.symm⟩
    · exact h.states state hs

theorem Frontier.length_le (h : Frontier g a goal seen visits) : seen.length ≤ 4 * g.length + 1 := by
  let all := (a, false) :: g.flatMap fun e => [(e.a, false), (e.a, true), (e.b, false), (e.b, true)]
  have hsub : seen ⊆ all := by
    rintro ⟨u, s⟩ hs
    rcases h.states _ hs with he | ⟨e, he, hu⟩
    · exact he ▸ .head _
    · refine .tail _ (List.mem_flatMap.mpr ⟨e, he, ?_⟩)
      rcases hu with rfl | rfl <;> cases s <;> simp
  have hlen : all.length = 4 * g.length + 1 := by
    simp [all, List.length_flatMap, Nat.mul_comm]
  exact hlen ▸ (h.nodup.subperm hsub).length_le

theorem Frontier.not_reaches (h : Frontier g a goal seen []) : ¬ Reaches g a goal := by
  intro hr
  have hc state (hs : state ∈ seen) := (h.closed state hs).resolve_left (by simp)
  exact (hc goal (hr.mem_of_closed h.start fun u s hs => (hc (u, s) hs).2)).1 rfl

theorem search_eq_some (h : Frontier g a goal seen visits)
    (hs : search g goal rounds seen visits = some way) :
    ∃ p, Walk g a p ∧ p.state = goal ∧ p.way = way := by
  induction rounds generalizing seen visits with
  | zero => simp [search] at hs
  | succ rounds ih =>
    unfold search at hs
    split at hs
    · rename_i p hp
      exact ⟨p, h.walks p (List.mem_of_find?_eq_some hp), by simpa using List.find?_some hp,
        Option.some.inj hs⟩
    · rename_i hp
      have hg : ∀ p ∈ visits, p.state ≠ goal := by simpa using hp
      split at hs
      · simp at hs
      · exact ih (h.expand hg).1 hs

/-- With more rounds than unseen states the search gives up only if nothing is left
to visit. -/
theorem search_eq_none (h : Frontier g a goal seen visits)
    (hr : 4 * g.length + 2 < rounds + seen.length ∨ visits = [] ∧ 0 < rounds)
    (hs : search g goal rounds seen visits = none) : ¬ Reaches g a goal := by
  induction rounds generalizing seen visits with
  | zero =>
    have := h.length_le
    omega
  | succ rounds ih =>
    unfold search at hs
    split at hs
    · simp at hs
    · rename_i hp
      have hg : ∀ p ∈ visits, p.state ≠ goal := by simpa using hp
      split at hs
      · rename_i he
        obtain rfl := List.isEmpty_iff.mp he
        exact h.not_reaches
      · rename_i he
        obtain ⟨hf, hlen⟩ := h.expand hg
        refine ih hf ?_ hs
        have hne : visits ≠ [] := by simpa using he
        have hr := hr.resolve_right fun h => hne h.1
        have := h.length_le
        rcases Nat.eq_zero_or_pos (expand g seen visits).2.length with h0 | h0
        · exact .inr ⟨List.length_eq_zero_iff.mp h0, by omega⟩
        · exact .inl (by omega)

theorem way?_eq_some (h : g.way? a b sum = some way) :
    ∃ p, Walk g a p ∧ p.state = (b, sum) ∧ p.way = way :=
  search_eq_some (frontier_start g a (b, sum)) h

theorem way?_eq_none (h : g.way? a b sum = none) : ¬ Reaches g a (b, sum) :=
  search_eq_none (frontier_start g a (b, sum)) (.inl (by simp)) h

-- ---------------------------------------------------------------------------
-- Adding equations
-- ---------------------------------------------------------------------------

theorem parallel_iff {k e : Equation} :
    parallel k e = true ↔ k.a = e.a ∧ k.b = e.b ∨ k.a = e.b ∧ k.b = e.a := by
  simp [parallel]

theorem holds_of_parallel {k e : Equation} (h : parallel k e = true) (hvalue : k.value = e.value) :
    k.Holds v ↔ e.Holds v := by
  unfold Equation.Holds
  rw [hvalue]
  rcases parallel_iff.mp h with ⟨ha, hb⟩ | ⟨ha, hb⟩
  · rw [ha, hb]
  · rw [ha, hb, Bool.xor_comm]

theorem mem_around_of_parallel {k e : Equation} (h : parallel k e = true) (hk : k ∈ g) :
    (e.b, k) ∈ g.around e.a := by
  rw [mem_around]
  exact ⟨hk, (parallel_iff.mp h).imp_right And.symm⟩

theorem solves_keep {e : Equation} (hp : ∀ k ∈ g, parallel k e = true → k.value = e.value) :
    Solves v (g.keep e) ↔ Solves v g ∧ e.Holds v := by
  have hk {k : Equation} (hkg : k ∈ g) (hab : parallel k e = true) : k.Holds v ↔ e.Holds v :=
    holds_of_parallel hab (hp k hkg hab)
  simp only [Graph.keep]
  split
  · rename_i hany
    obtain ⟨k, hkg, hab⟩ := List.any_eq_true.mp hany
    simp only [Solves, List.mem_map, forall_exists_index, and_imp, forall_apply_eq_imp_iff₂]
    constructor
    · intro h
      have hall : ∀ k ∈ g, k.Holds v := by
        intro k hkg
        have := h k hkg
        split at this
        · rename_i hc
          rw [Bool.and_eq_true] at hc
          exact (hk hkg hc.1).mpr this
        · exact this
      exact ⟨hall, (hk hkg hab).mp (hall k hkg)⟩
    · rintro ⟨h, he⟩ k hkg
      split
      · exact he
      · exact h k hkg
  · rw [solves_cons, and_comm]

theorem mem_keep {e k : Equation} (h : k ∈ g.keep e) : k = e ∨ k ∈ g := by
  simp only [Graph.keep] at h
  split at h
  · obtain ⟨m, hm, rfl⟩ := List.mem_map.mp h
    split
    · exact .inl rfl
    · exact .inr hm
  · exact List.mem_cons.mp h

theorem reaches_ends {e : Equation} (he : e ∈ g) :
    (∃ s, Reaches g a (e.a, s)) ↔ ∃ s, Reaches g a (e.b, s) := by
  constructor
  · rintro ⟨s, h⟩
    exact ⟨_, h.step (mem_around.mpr ⟨he, .inl ⟨rfl, rfl⟩⟩)⟩
  · rintro ⟨s, h⟩
    exact ⟨_, h.step (mem_around.mpr ⟨he, .inr ⟨rfl, rfl⟩⟩)⟩

/-- An equation whose contrary no walk gives can be solved along with a consistent
graph. If its ends are not connected, the differences on the side of the first one
are turned over. -/
theorem solves_of_not_reaches {e : Equation} (hg : Consistent g)
    (hr : ¬ Reaches g e.a (e.b, !e.value)) : ∃ v, Solves v g ∧ e.Holds v := by
  classical
  obtain ⟨v, hv⟩ := hg
  by_cases he : e.Holds v
  · exact ⟨v, hv, he⟩
  have he : v e.b = (v e.a ^^ !e.value) := by
    revert he
    unfold Equation.Holds
    cases v e.a <;> cases v e.b <;> cases e.value <;> decide
  -- a walk to the second end would add up to the contrary value
  have hb : ¬ ∃ s, Reaches g e.a (e.b, s) := by
    rintro ⟨s, hs⟩
    have hsum := (hs.sum_eq hv).symm.trans he
    obtain rfl : s = !e.value := Bool.xor_right_inj.mp hsum
    exact hr hs
  have ha : ∃ s, Reaches g e.a (e.a, s) := ⟨false, _, .start, rfl⟩
  let turned u := if ∃ s, Reaches g e.a (u, s) then !v u else v u
  refine ⟨turned, fun k hk => ?_, ?_⟩
  · have := hv k hk
    simp only [Equation.Holds, turned, reaches_ends hk] at this ⊢
    split
    · simpa using this
    · exact this
  · simp only [Equation.Holds, turned, if_pos ha, if_neg hb, he]
    cases v e.a <;> simp

theorem add_eq_none (hg : Consistent g) (h : g.add e = (none, k)) :
    Consistent k ∧ ∀ v, Solves v k ↔ Solves v g ∧ e.Holds v := by
  unfold Graph.add at h
  split at h
  · rename_i hab
    split at h <;> simp only [Prod.mk.injEq, reduceCtorEq, false_and, true_and] at h
    rename_i hval
    subst h
    refine ⟨hg, fun v => (and_iff_left ?_).symm⟩
    simpa [Equation.Holds, hab] using hval
  · split at h <;> simp only [Prod.mk.injEq, reduceCtorEq, false_and, true_and] at h
    rename_i hway
    subst h
    have hr := way?_eq_none hway
    have hp : ∀ k ∈ g, parallel k e = true → k.value = e.value := by
      intro k hk hab
      refine Classical.byContradiction fun hne => hr ?_
      have hstep : Reaches g e.a (e.b, false ^^ k.value) :=
        Reaches.step ⟨_, .start, rfl⟩ (mem_around_of_parallel hab hk)
      rwa [Bool.false_xor, Bool.eq_not.mpr hne] at hstep
    obtain ⟨v, hv⟩ := solves_of_not_reaches hg hr
    exact ⟨⟨v, (solves_keep hp).mpr hv⟩, fun v => solves_keep hp⟩

theorem mem_of_add (h : g.add e = (none, k)) : ∀ f ∈ k, f = e ∨ f ∈ g := by
  unfold Graph.add at h
  split at h
  · split at h <;> simp only [Prod.mk.injEq, reduceCtorEq, false_and, true_and] at h
    exact fun f hf => .inr (h ▸ hf)
  · split at h <;> simp only [Prod.mk.injEq, reduceCtorEq, false_and, true_and] at h
    exact fun f hf => mem_keep (h ▸ hf)

theorem closes_of_add (h : g.add e = (some c, k)) :
    k = g ∧ ∃ fs, (∀ f ∈ fs, f ∈ g) ∧ ¬ Consistent (e :: fs) ∧
      c = Equation.blockingClause (e :: fs) ∧ (fs = [] ∨ g.way? e.a e.b (!e.value) = some fs) := by
  unfold Graph.add at h
  split at h
  · rename_i hab
    split at h <;> simp only [Prod.mk.injEq, reduceCtorEq, false_and, Option.some.injEq] at h
    rename_i hval
    refine ⟨h.2.symm, [], by simp, ?_, h.1.symm, .inl rfl⟩
    rintro ⟨v, hv⟩
    have := hv e (.head _)
    simp [Equation.Holds, hab, hval] at this
  · split at h <;> simp only [Prod.mk.injEq, reduceCtorEq, false_and, Option.some.injEq] at h
    rename_i way hway
    obtain ⟨p, hp, hs, rfl⟩ := way?_eq_some hway
    obtain ⟨rfl, rfl⟩ := h
    refine ⟨rfl, p.way, hp.way_subset, ?_, rfl, .inr hway⟩
    rintro ⟨v, hv⟩
    obtain ⟨he, hv⟩ := solves_cons.mp hv
    have hsum := hp.sum_eq hv
    obtain ⟨hb, hsum'⟩ := Prod.mk.injEq .. ▸ hs
    rw [hb, hsum'] at hsum
    unfold Equation.Holds at he
    rw [hsum] at he
    revert he
    cases v e.a <;> cases e.value <;> decide

/-- A clause blocks an equation and the way it closes to a cycle. -/
theorem add_eq_some (h : g.add e = (some c, k)) :
    k = g ∧ ∃ es, (∀ f ∈ es, f = e ∨ f ∈ g) ∧ ¬ Consistent es ∧ c = Equation.blockingClause es := by
  obtain ⟨hk, fs, hfs, hc, hclause, -⟩ := closes_of_add h
  refine ⟨hk, e :: fs, fun f hf => ?_, hc, hclause⟩
  exact (List.mem_cons.mp hf).imp_right (hfs f)

-- ---------------------------------------------------------------------------
-- Adding equations in turn
-- ---------------------------------------------------------------------------

theorem mem_clauses (h : c ∈ clauses g es) :
    ∃ fs, (∀ f ∈ fs, f ∈ es ∨ f ∈ g) ∧ ¬ Consistent fs ∧ c = Equation.blockingClause fs := by
  induction es generalizing g with
  | nil => cases h
  | cons e es ih =>
    unfold clauses at h
    split at h
    · rename_i d k hadd
      obtain ⟨rfl, fs, hfs, hc, rfl⟩ := add_eq_some hadd
      rcases List.mem_cons.mp h with rfl | h
      · exact ⟨fs, fun f hf => (hfs f hf).imp_left (by rintro rfl; exact .head _), hc, rfl⟩
      · obtain ⟨fs, hfs, hc, rfl⟩ := ih h
        exact ⟨fs, fun f hf => (hfs f hf).imp_left (.tail _), hc, rfl⟩
    · rename_i k hadd
      obtain ⟨fs, hfs, hc, rfl⟩ := ih h
      refine ⟨fs, fun f hf => ?_, hc, rfl⟩
      rcases hfs f hf with hf | hf
      · exact .inl (.tail _ hf)
      · exact (mem_of_add hadd f hf).imp_left (by rintro rfl; exact .head _)

theorem clauses_eq_nil_iff (hg : Consistent g) :
    clauses g es = [] ↔ ∃ v, Solves v g ∧ Solves v es := by
  induction es generalizing g with
  | nil =>
    obtain ⟨v, hv⟩ := hg
    exact ⟨fun _ => ⟨v, hv, fun _ he => nomatch he⟩, fun _ => rfl⟩
  | cons e es ih =>
    unfold clauses
    split
    · rename_i c k hadd
      obtain ⟨-, fs, hfs, hc, -⟩ := add_eq_some hadd
      simp only [List.cons_ne_nil, false_iff]
      rintro ⟨v, hv, hes⟩
      refine hc ⟨v, fun f hf => ?_⟩
      rcases hfs f hf with rfl | hf
      · exact (solves_cons.mp hes).1
      · exact hv f hf
    · rename_i k hadd
      obtain ⟨hk, hv⟩ := add_eq_none hg hadd
      rw [ih hk]
      refine exists_congr fun v => ?_
      rw [hv v, solves_cons, and_assoc]

theorem shortestClause?_isSome : (shortestClause? es).isSome = true ↔ ¬ Consistent es := by
  have hnil : Consistent ([] : Graph) := ⟨fun _ => false, fun _ he => nomatch he⟩
  rw [shortestClause?, Option.isSome_iff_ne_none, Ne, firstLeast_eq_none, clauses_eq_nil_iff hnil]
  refine not_congr (exists_congr fun v => and_iff_right fun _ he => nomatch he)

theorem shortestClause?_eq_some (h : shortestClause? es = some c) :
    ∃ fs, (∀ f ∈ fs, f ∈ es) ∧ ¬ Consistent fs ∧ c = Equation.blockingClause fs := by
  obtain ⟨fs, hfs, hc, rfl⟩ := mem_clauses (mem_of_firstLeast h)
  exact ⟨fs, fun f hf => (hfs f hf).resolve_right List.not_mem_nil, hc, rfl⟩

end ShaDiff.TwoBit.Cycle
