import Mathlib.Data.List.Nodup
import ShaDiff.Proofs.TwoBit.Cycle

/-!
# Cycles over a store of edges

The graph of the cycles is a list, whose order says which edges of an atom come first. All that
is asked of it are the laws of an `EdgeStore`, which lists of edges with their two ends have
(`edgeList`). With any store the search may take one visit at a time from a queue, where the
rounds of `search` take all visits of a level (`walk_eq_search`). The clauses are the same as
long as the lesser atom of each equation comes first (`EdgeStore.clauses_eq`).
-/

namespace ShaDiff.TwoBit.Cycle

def SameEnds (u w a b : Atom) : Prop := u = a ∧ w = b ∨ u = b ∧ w = a

instance (u w a b : Atom) : Decidable (SameEnds u w a b) := inferInstanceAs (Decidable (_ ∨ _))

theorem sameEnds_comm {u w a b : Atom} : SameEnds u w a b ↔ SameEnds w u a b := by
  unfold SameEnds
  rw [or_comm, and_comm, @and_comm (u = a)]

/-- An undirected graph with at most one edge between two atoms, each with an equation. The edges
of an atom are listed with their other ends, those that were added from the atom first. -/
structure EdgeStore (G : Type) where
  empty : G
  out : G → Atom → List (Atom × Equation)
  into : G → Atom → List (Atom × Equation)
  find? : G → Atom → Atom → Option Equation
  add : G → Atom → Atom → Equation → G
  set : G → Atom → Atom → Equation → G
  out_empty (u : Atom) : out empty u = []
  into_empty (u : Atom) : into empty u = []
  find?_eq (g : G) (a b : Atom) :
    find? g a b = ((out g a ++ into g a).find? (·.1 == b)).map (·.2)
  out_add {g : G} {a b : Atom} (e : Equation) (u : Atom) : a ≠ b → find? g a b = none →
    out (add g a b e) u = if a = u then (b, e) :: out g u else out g u
  into_add {g : G} {a b : Atom} (e : Equation) (u : Atom) : a ≠ b → find? g a b = none →
    into (add g a b e) u = if b = u then (a, e) :: into g u else into g u
  out_set {g : G} {a b : Atom} {k : Equation} (e : Equation) (u : Atom) :
    a ≠ b → find? g a b = some k →
    out (set g a b e) u = (out g u).map fun x => (x.1, if SameEnds u x.1 a b then e else x.2)
  into_set {g : G} {a b : Atom} {k : Equation} (e : Equation) (u : Atom) :
    a ≠ b → find? g a b = some k →
    into (set g a b e) u = (into g u).map fun x => (x.1, if SameEnds u x.1 a b then e else x.2)

-- ---------------------------------------------------------------------------
-- Lists of edges
-- ---------------------------------------------------------------------------

structure Edge where
  source : Atom
  target : Atom
  equation : Equation

def leaving (g : List Edge) (u : Atom) : List (Atom × Equation) :=
  (g.filter (·.source == u)).map fun x => (x.target, x.equation)

def arriving (g : List Edge) (u : Atom) : List (Atom × Equation) :=
  (g.filter (·.target == u)).map fun x => (x.source, x.equation)

def edgeList : EdgeStore (List Edge) where
  empty := []
  out := leaving
  into := arriving
  find? g a b := ((leaving g a ++ arriving g a).find? (·.1 == b)).map (·.2)
  add g a b e := ⟨a, b, e⟩ :: g
  set g a b e := g.map fun x =>
    ⟨x.source, x.target, if SameEnds x.source x.target a b then e else x.equation⟩
  out_empty _ := rfl
  into_empty _ := rfl
  find?_eq _ _ _ := rfl
  out_add e u _ _ := by
    unfold leaving
    grind
  into_add e u _ _ := by
    unfold arriving
    grind
  out_set {g a b k} e u _ _ := by
    unfold leaving
    rw [List.filter_map, List.map_map, List.map_map]
    refine List.map_congr_left fun x hx => ?_
    have hx : x.source = u := by simpa using (List.mem_filter.mp hx).2
    simp only [Function.comp_apply, hx]
  into_set {g a b k} e u _ _ := by
    unfold arriving
    rw [List.filter_map, List.map_map, List.map_map]
    refine List.map_congr_left fun x hx => ?_
    have hx : x.target = u := by simpa using (List.mem_filter.mp hx).2
    simp only [Function.comp_apply, hx, sameEnds_comm]

-- ---------------------------------------------------------------------------
-- The search with a queue
-- ---------------------------------------------------------------------------

def nexts (around : Atom → List (Atom × Equation)) (p : Visit) : List Visit :=
  (around p.vertex).map fun x => ⟨x.1, p.sum ^^ x.2.value, x.2 :: p.way⟩

/-- Takes visits from a queue, in so many turns, until one has come to the goal. -/
def walk (around : Atom → List (Atom × Equation)) (goal : Atom × Bool) :
    (turns : Nat) → List (Atom × Bool) → List Visit → Option (List Equation)
  | 0, _, _ => none
  | _ + 1, _, [] => none
  | turns + 1, seen, p :: queue =>
    if p.state = goal then some p.way
    else
      let taken := collect (seen, []) (nexts around p)
      walk around goal turns taken.1 (queue ++ taken.2.reverse)

variable {g : Graph} {e k : Equation} {goal : Atom × Bool} {seen : List (Atom × Bool)}
  {visits : List Visit}

theorem collect_append (seen : List (Atom × Bool)) (later : List Visit) (further : List Visit) :
    collect (seen, later) further =
      ((collect (seen, []) further).1, (collect (seen, []) further).2 ++ later) := by
  induction further generalizing seen later with
  | nil => rfl
  | cons p further ih =>
    rw [collect_cons, collect_cons]
    split
    · exact ih seen later
    · rw [ih _ (p :: later), ih _ [p], List.append_assoc]
      rfl

/-- The visits of a level come first in the queue, and those that they lead to behind them. -/
theorem walk_append (g : Graph) (goal : Atom × Bool) (turns : Nat) (seen : List (Atom × Bool))
    (visits later : List Visit) :
    walk g.around goal (turns + visits.length) seen (visits ++ later.reverse) =
      match visits.find? (·.state == goal) with
      | some p => some p.way
      | none =>
        let taken := collect (seen, later) (further g visits)
        walk g.around goal turns taken.1 taken.2.reverse := by
  induction visits generalizing seen later with
  | nil => rfl
  | cons p visits ih =>
    rw [List.length_cons, ← Nat.add_assoc, List.cons_append, walk, List.find?_cons]
    by_cases hp : p.state = goal
    · simp [hp]
    · have hqueue (fresh : List Visit) : visits ++ later.reverse ++ fresh.reverse =
          visits ++ (fresh ++ later).reverse := by
        rw [List.reverse_append, List.append_assoc]
      have hfurther (seen : List (Atom × Bool)) : collect (seen, later) (further g (p :: visits)) =
          collect (collect (seen, later) (nexts g.around p)) (further g visits) :=
        List.foldl_append ..
      rw [if_neg hp, beq_false_of_ne hp]
      dsimp only
      rw [hqueue, ih, hfurther, collect_append seen later]

theorem walk_nil (around : Atom → List (Atom × Equation)) (turns : Nat) :
    walk around goal turns seen [] = none := by
  cases turns <;> rfl

theorem walk_eq_search {a : Atom} {rounds turns : Nat} (h : Frontier g a goal seen visits)
    (hrounds : 4 * g.length + 2 < rounds + seen.length ∨ visits = [] ∧ 0 < rounds)
    (hturns : visits.length + (4 * g.length + 1) ≤ turns + seen.length) :
    walk g.around goal turns seen visits = search g goal rounds seen visits := by
  have hseen := h.length_le
  induction rounds generalizing turns seen visits with
  | zero => omega
  | succ rounds ih =>
    obtain ⟨rest, rfl⟩ := Nat.exists_eq_add_of_le' (show visits.length ≤ turns by omega)
    have hlevel := walk_append g goal rest seen visits []
    rw [List.reverse_nil, List.append_nil] at hlevel
    rw [hlevel]
    unfold search
    cases hp : visits.find? (·.state == goal) with
    | some p => rfl
    | none =>
      have hg : ∀ p ∈ visits, p.state ≠ goal := by simpa using hp
      dsimp only
      split
      · next hempty =>
        rw [List.isEmpty_iff.mp hempty]
        exact walk_nil _ rest
      · next hnonempty =>
        obtain ⟨hnext, hlength⟩ := h.expand hg
        have hleft := hrounds.resolve_right fun h => hnonempty (List.isEmpty_iff.mpr h.1)
        show walk g.around goal rest (expand g seen visits).1 (expand g seen visits).2 = _
        refine ih hnext ?_ (by omega) hnext.length_le
        rcases Nat.eq_zero_or_pos (expand g seen visits).2.length with hzero | hpos
        · exact .inr ⟨List.length_eq_zero_iff.mp hzero, by omega⟩
        · exact .inl (by omega)

theorem walk_eq_way? {turns : Nat} (h : 4 * g.length + 1 ≤ turns) (a b : Atom) (sum : Bool) :
    walk g.around (b, sum) turns [(a, false)] [⟨a, false, []⟩] = g.way? a b sum :=
  walk_eq_search (frontier_start g a (b, sum)) (.inl (by simp)) (by simp; omega)

theorem Graph.length_keep_le (g : Graph) (e : Equation) : (g.keep e).length ≤ g.length + 1 := by
  unfold Graph.keep
  split
  · rw [List.length_map]
    exact Nat.le_succ _
  · exact Nat.le_refl _

theorem Graph.length_add_le (g : Graph) (e : Equation) : (g.add e).2.length ≤ g.length + 1 := by
  unfold Graph.add
  split
  · exact Nat.le_succ _
  · split
    · exact Nat.le_succ _
    · exact g.length_keep_le e

-- ---------------------------------------------------------------------------
-- Adding equations to a store
-- ---------------------------------------------------------------------------

namespace EdgeStore

variable {G : Type} (S : EdgeStore G) {s : G} {es : List Equation}

def edges (s : G) (u : Atom) : List (Atom × Equation) := S.out s u ++ S.into s u

def keep (s : G) (e : Equation) : G :=
  match S.find? s e.a e.b with
  | some k => if e.antecedent.length < k.antecedent.length then S.set s e.a e.b e else s
  | none => S.add s e.a e.b e

def addEquation (turns : Nat) (s : G) (e : Equation) : Option Clause × G :=
  if e.a = e.b then
    (if e.value then some (Equation.blockingClause [e]) else none, s)
  else
    match walk (S.edges s) (e.b, !e.value) turns [(e.a, false)] [⟨e.a, false, []⟩] with
    | some way => (some (Equation.blockingClause (e :: way)), s)
    | none => (none, S.keep s e)

def clauses (turns : Nat) : G → List Equation → List Clause
  | _, [] => []
  | s, e :: es =>
    match S.addEquation turns s e with
    | (some c, s) => c :: clauses turns s es
    | (none, s) => clauses turns s es

/-- Whether a store has the edges of a graph. No two of them are between the same atoms. -/
structure Stores (s : G) (g : Graph) : Prop where
  out : ∀ u, S.out s u = (g.filter (·.a == u)).map fun e => (e.b, e)
  into : ∀ u, S.into s u = (g.filter (·.b == u)).map fun e => (e.a, e)
  ordered : ∀ e ∈ g, e.a < e.b
  apart : (g.map fun e => (e.a, e.b)).Nodup

variable {S}

theorem stores_empty : S.Stores S.empty [] where
  out := S.out_empty
  into := S.into_empty
  ordered := List.forall_mem_nil _
  apart := List.nodup_nil

theorem Stores.edges_eq (h : S.Stores s g) : S.edges s = g.around := by
  funext u
  rw [edges, h.out, h.into]
  rfl

theorem Stores.mem_of_find? (h : S.Stores s g) {a b : Atom} (hk : S.find? s a b = some k) :
    k ∈ g ∧ SameEnds k.a k.b a b := by
  rw [S.find?_eq, ← edges, h.edges_eq] at hk
  obtain ⟨⟨w, f⟩, hf, rfl⟩ := Option.map_eq_some_iff.mp hk
  obtain rfl : w = b := by simpa using List.find?_some hf
  obtain ⟨hmem, hends⟩ := mem_around.mp (List.mem_of_find?_eq_some hf)
  exact ⟨hmem, hends.imp_right And.symm⟩

theorem Stores.not_sameEnds (h : S.Stores s g) {a b : Atom} (hnone : S.find? s a b = none)
    (hk : k ∈ g) : ¬ SameEnds k.a k.b a b := by
  rw [S.find?_eq, ← edges, h.edges_eq, Option.map_eq_none_iff, List.find?_eq_none] at hnone
  intro hends
  have hmem : (b, k) ∈ g.around a := mem_around.mpr ⟨hk, hends.imp_right And.symm⟩
  exact hnone _ hmem (beq_self_eq_true b)

theorem Stores.ends_eq (h : S.Stores s g) (he : e.a < e.b) (hk : k ∈ g)
    (hends : SameEnds k.a k.b e.a e.b) : k.a = e.a ∧ k.b = e.b := by
  refine hends.resolve_right fun ⟨ha, hb⟩ => ?_
  exact Nat.lt_asymm he (ha ▸ hb ▸ h.ordered k hk)

theorem Stores.keep_of_none (h : S.Stores s g) (he : e.a < e.b) (hnone : S.find? s e.a e.b = none) :
    S.Stores (S.add s e.a e.b e) (g.keep e) := by
  have hkeep : g.keep e = e :: g :=
    if_neg fun hany => by
      obtain ⟨k, hk, hke⟩ := List.any_eq_true.mp hany
      exact h.not_sameEnds hnone hk (parallel_iff.mp hke)
  rw [hkeep]
  refine ⟨fun u => ?_, fun u => ?_, List.forall_mem_cons.mpr ⟨he, h.ordered⟩,
    List.nodup_cons.mpr ⟨fun hmem => ?_, h.apart⟩⟩
  · rw [S.out_add e u (Nat.ne_of_lt he) hnone, h.out]
    grind
  · rw [S.into_add e u (Nat.ne_of_lt he) hnone, h.into]
    grind
  · obtain ⟨k, hk, hends⟩ := List.mem_map.mp hmem
    obtain ⟨ha, hb⟩ := Prod.mk.inj hends
    exact h.not_sameEnds hnone hk (.inl ⟨ha, hb⟩)

theorem Stores.keep_of_some (h : S.Stores s g) (he : e.a < e.b) (hk : S.find? s e.a e.b = some k) :
    g.keep e = g.map fun f =>
      if SameEnds f.a f.b e.a e.b ∧ e.antecedent.length < k.antecedent.length then e else f := by
  obtain ⟨hmem, hends⟩ := h.mem_of_find? hk
  have hany : g.any (parallel · e) = true :=
    List.any_eq_true.mpr ⟨k, hmem, parallel_iff.mpr hends⟩
  refine (if_pos hany).trans (List.map_congr_left fun f hf => ?_)
  -- no other edge than the one that was found is between these atoms
  have hfound (hf' : SameEnds f.a f.b e.a e.b) : f = k := by
    obtain ⟨ha, hb⟩ := h.ends_eq he hmem hends
    obtain ⟨ha', hb'⟩ := h.ends_eq he hf hf'
    exact List.inj_on_of_nodup_map h.apart hf hmem
      (Prod.ext (ha'.trans ha.symm) (hb'.trans hb.symm))
  simp only [Bool.and_eq_true, decide_eq_true_eq, parallel_iff]
  refine if_congr (and_congr_right fun hf' => ?_) rfl rfl
  rw [hfound hf']

def replaced (e f : Equation) : Equation := if SameEnds f.a f.b e.a e.b then e else f

theorem Stores.set (h : S.Stores s g) (he : e.a < e.b) (hk : S.find? s e.a e.b = some k) :
    S.Stores (S.set s e.a e.b e) (g.map (replaced e)) := by
  have hends {f : Equation} (hf : f ∈ g) : (replaced e f).a = f.a ∧ (replaced e f).b = f.b := by
    unfold replaced
    split
    · next hf' =>
      obtain ⟨ha, hb⟩ := h.ends_eq he hf hf'
      exact ⟨ha.symm, hb.symm⟩
    · exact ⟨rfl, rfl⟩
  have hleaving (u : Atom) : g.filter ((·.a == u) ∘ replaced e) = g.filter (·.a == u) :=
    List.filter_congr fun f hf => congrArg (· == u) (hends hf).1
  have harriving (u : Atom) : g.filter ((·.b == u) ∘ replaced e) = g.filter (·.b == u) :=
    List.filter_congr fun f hf => congrArg (· == u) (hends hf).2
  refine ⟨fun u => ?_, fun u => ?_, fun f hf => ?_, ?_⟩
  · rw [S.out_set e u (Nat.ne_of_lt he) hk, h.out, List.filter_map, List.map_map, List.map_map,
      hleaving]
    refine List.map_congr_left fun f hf => ?_
    obtain ⟨hmem, hu⟩ := List.mem_filter.mp hf
    obtain rfl := beq_iff_eq.mp hu
    exact Prod.ext (hends hmem).2.symm rfl
  · rw [S.into_set e u (Nat.ne_of_lt he) hk, h.into, List.filter_map, List.map_map, List.map_map,
      harriving]
    refine List.map_congr_left fun f hf => ?_
    obtain ⟨hmem, hu⟩ := List.mem_filter.mp hf
    obtain rfl := beq_iff_eq.mp hu
    exact Prod.ext (hends hmem).1.symm (if_congr sameEnds_comm rfl rfl)
  · obtain ⟨k, hk, rfl⟩ := List.mem_map.mp hf
    rw [(hends hk).1, (hends hk).2]
    exact h.ordered k hk
  · have hsame : g.map ((fun f => (f.a, f.b)) ∘ replaced e) = g.map fun f => (f.a, f.b) :=
      List.map_congr_left fun f hf => Prod.ext (hends hf).1 (hends hf).2
    rw [List.map_map, hsame]
    exact h.apart

theorem Stores.keep (h : S.Stores s g) (he : e.a < e.b) : S.Stores (S.keep s e) (g.keep e) := by
  unfold EdgeStore.keep
  cases hfound : S.find? s e.a e.b with
  | none => exact h.keep_of_none he hfound
  | some k =>
    rw [h.keep_of_some he hfound]
    dsimp only
    split
    · next hshorter =>
      simp only [hshorter, and_true]
      exact h.set he hfound
    · next hlonger =>
      simp only [hlonger, and_false, if_false, List.map_id']
      exact h

theorem Stores.addEquation (h : S.Stores s g) (he : e.a ≤ e.b) {turns : Nat}
    (hturns : 4 * g.length + 1 ≤ turns) :
    (S.addEquation turns s e).1 = (g.add e).1 ∧
      S.Stores (S.addEquation turns s e).2 (g.add e).2 := by
  unfold EdgeStore.addEquation Graph.add
  rw [h.edges_eq, walk_eq_way? hturns]
  split
  · exact ⟨rfl, h⟩
  · next hne =>
    cases g.way? e.a e.b (!e.value) with
    | some way => exact ⟨rfl, h⟩
    | none => exact ⟨rfl, h.keep (Nat.lt_of_le_of_ne he hne)⟩

theorem Stores.clauses_eq {turns : Nat} (h : S.Stores s g) (hes : ∀ e ∈ es, e.a ≤ e.b)
    (hturns : 4 * (g.length + es.length) + 1 ≤ turns) :
    S.clauses turns s es = Cycle.clauses g es := by
  induction es generalizing s g with
  | nil => rfl
  | cons e es ih =>
    obtain ⟨he, hes⟩ := List.forall_mem_cons.mp hes
    have hfew : 4 * g.length + 1 ≤ turns := by omega
    obtain ⟨hanswer, hstores⟩ := h.addEquation he hfew
    have hlength := g.length_add_le e
    have hrest := ih hstores hes (by rw [List.length_cons] at hturns; omega)
    unfold EdgeStore.clauses Cycle.clauses
    revert hanswer hrest
    generalize S.addEquation turns s e = added
    generalize g.add e = added'
    obtain ⟨answer, s⟩ := added
    obtain ⟨answer', g⟩ := added'
    rintro rfl hrest
    cases answer with
    | none => exact hrest
    | some c => exact congrArg (c :: ·) hrest

/-- With enough turns for each of its searches, a check over any store gives the clauses of the
cycles, if the lesser atom of each equation comes first. -/
theorem clauses_eq (S : EdgeStore G) {turns : Nat} (hes : ∀ e ∈ es, e.a ≤ e.b)
    (hturns : 4 * es.length + 1 ≤ turns) :
    S.clauses turns S.empty es = Cycle.clauses [] es :=
  stores_empty.clauses_eq hes (by simpa using hturns)

end EdgeStore

end ShaDiff.TwoBit.Cycle
