import ShaDiff.Proofs.TwoBit.Cycle

/-!
# Cycles are shortest

The search for a way goes through the states level by level, and has seen all that shorter
walks lead to before it comes to a level (`Level`). So no walk to the goal is shorter than
the way it finds (`way?_shortest`).

Equations which contradict another one lead from one of its ends to the other. As they do
not contradict each other, a walk through them can be cut short wherever it comes back to an
atom (`exists_path`), and a walk that never does so has no equation twice. The edges of the
graph stand for all equations that were accepted (`Spans`), so it has a walk of the same
length. Hence the equations of a cycle are as few accepted ones as contradict the equation
that closes it (`answers_shortest`).
-/

namespace ShaDiff.TwoBit.Cycle

variable {g : Graph} {a : Atom} {goal : Atom × Bool} {seen : List (Atom × Bool)}
  {visits : List Visit}

-- ---------------------------------------------------------------------------
-- Levels of the search
-- ---------------------------------------------------------------------------

/-- What the search knows of the walks that are no longer than those of its visits. -/
structure Level (g : Graph) (a : Atom) (goal : Atom × Bool) (level : Nat)
    (seen : List (Atom × Bool)) (visits : List Visit) : Prop where
  length : ∀ p ∈ visits, p.way.length = level
  missed : ∀ p, Walk g a p → p.way.length < level → p.state ≠ goal
  seen : ∀ p, Walk g a p → p.way.length ≤ level → p.state ∈ seen

theorem level_start (g : Graph) (a : Atom) (goal : Atom × Bool) :
    Level g a goal 0 [(a, false)] [⟨a, false, []⟩] where
  length := by simp
  missed := by simp
  seen := by
    intro p hp hlength
    cases hp with
    | start => simp [Visit.state]
    | step => simp at hlength

theorem Level.expand {level : Nat} (h : Level g a goal level seen visits)
    (hf : Frontier g a goal seen visits) (hg : ∀ p ∈ visits, p.state ≠ goal) :
    Level g a goal (level + 1) (expand g seen visits).1 (expand g seen visits).2 := by
  obtain ⟨new, hfresh, hseen, hfurther, -, hall⟩ := collect_spec (further g visits) seen []
  rw [List.append_nil] at hfresh
  rw [expand_eq, hfresh, hseen]
  rw [hseen] at hall
  refine ⟨?_, ?_, ?_⟩
  · intro p hp
    obtain ⟨q, hq, w, e, -, rfl⟩ := mem_further.mp (hfurther p (List.mem_reverse.mp hp))
    simp [h.length q hq]
  · intro p hp hlength
    rcases hf.closed _ (h.seen p hp (Nat.le_of_lt_succ hlength)) with ⟨q, hq, hstate⟩ | ⟨hne, -⟩
    · exact hstate ▸ hg q hq
    · exact hne
  · intro p hp hlength
    cases hp with
    | start => exact List.mem_append_right _ hf.start
    | @step p w e hp hw =>
      have hp := h.seen p hp (by simpa using hlength)
      rcases hf.closed _ hp with ⟨q, hq, hstate⟩ | ⟨-, hclosed⟩
      · -- the last edge leads on from a visit of this level
        obtain ⟨hvertex, hsum⟩ := Prod.mk.inj hstate
        rw [← hvertex] at hw
        have hmem := hall _ (mem_further.mpr ⟨q, hq, w, e, hw, rfl⟩)
        simpa [Visit.state, hsum] using hmem
      · exact List.mem_append_right _ (hclosed w e hw)

theorem search_shortest {level rounds : Nat} {way : List Equation}
    (hf : Frontier g a goal seen visits) (h : Level g a goal level seen visits)
    (hs : search g goal rounds seen visits = some way) :
    ∀ p, Walk g a p → p.state = goal → way.length ≤ p.way.length := by
  induction rounds generalizing level seen visits with
  | zero => simp [search] at hs
  | succ rounds ih =>
    unfold search at hs
    split at hs
    · rename_i q hq
      obtain rfl := Option.some.inj hs
      intro p hp hgoal
      rw [h.length q (List.mem_of_find?_eq_some hq)]
      by_contra hshort
      exact h.missed p hp (Nat.not_le.mp hshort) hgoal
    · rename_i hnone
      have hg : ∀ p ∈ visits, p.state ≠ goal := by simpa using hnone
      split at hs
      · simp at hs
      · exact ih (hf.expand hg).1 (h.expand hf hg) hs

/-- A way is as short as any walk to its end with its sum. -/
theorem way?_shortest {b : Atom} {sum : Bool} {way : List Equation}
    (h : g.way? a b sum = some way) (hp : Walk g a p) (hstate : p.state = (b, sum)) :
    way.length ≤ p.way.length :=
  search_shortest (frontier_start g a (b, sum)) (level_start g a (b, sum)) h p hp hstate

-- ---------------------------------------------------------------------------
-- Walks that do not come back
-- ---------------------------------------------------------------------------

/-- Walks that come to no atom twice, with the atoms they have come to. -/
inductive Path (g : Graph) (start : Atom) : Visit → List Atom → Prop
  | start : Path g start ⟨start, false, []⟩ [start]
  | step : Path g start p us → (w, e) ∈ g.around p.vertex → w ∉ us →
    Path g start ⟨w, p.sum ^^ e.value, e :: p.way⟩ (w :: us)

variable {p : Visit} {us : List Atom}

theorem Path.walk (h : Path g a p us) : Walk g a p := by
  induction h with
  | start => exact .start
  | step _ hw _ ih => exact .step ih hw

theorem Path.vertex_mem (h : Path g a p us) : p.vertex ∈ us := by
  cases h <;> simp

theorem Path.exists_part {w : Atom} (h : Path g a p us) (hw : w ∈ us) :
    ∃ q vs, Path g a q vs ∧ q.vertex = w := by
  induction h with
  | start => exact ⟨_, _, .start, (List.mem_singleton.mp hw).symm⟩
  | @step p us u e hp hu hnew ih =>
    rcases List.mem_cons.mp hw with rfl | hw
    · exact ⟨_, _, .step hp hu hnew, rfl⟩
    · exact ih hw

/-- Where a walk through consistent equations comes back to an atom, the part in between
changes nothing, as both times the solution gives the same sum. -/
theorem exists_path (hg : Consistent g) (h : Walk g a p) :
    ∃ q us, Path g a q us ∧ q.state = p.state := by
  obtain ⟨v, hv⟩ := hg
  induction h with
  | start => exact ⟨_, _, .start, rfl⟩
  | @step p w e hp hw ih =>
    obtain ⟨q, us, hq, hstate⟩ := ih
    obtain ⟨hvertex, hsum⟩ := Prod.mk.inj hstate
    rw [← hvertex] at hw
    rw [← hsum]
    by_cases hmem : w ∈ us
    · obtain ⟨r, vs, hr, rfl⟩ := hq.exists_part hmem
      have solves {p : Visit} (hp : Walk g a p) : Solves v p.way :=
        fun f hf => hv f (hp.way_subset f hf)
      have hstep := Walk.step hq.walk hw
      have heq := (hr.walk.sum_eq (solves hr.walk)).symm.trans (hstep.sum_eq (solves hstep))
      exact ⟨r, vs, hr, by simpa [Visit.state] using heq⟩
    · exact ⟨_, _, .step hq hw hmem, rfl⟩

theorem Path.ends (h : Path g a p us) : ∀ e ∈ p.way, e.a ∈ us ∧ e.b ∈ us := by
  induction h with
  | start => simp
  | step hp hw _ ih =>
    have hvertex := hp.vertex_mem
    intro e he
    rcases List.mem_cons.mp he with rfl | he
    · obtain ⟨-, ⟨ha, hb⟩ | ⟨hb, ha⟩⟩ := mem_around.mp hw <;> simp [ha, hb, hvertex]
    · obtain ⟨ha, hb⟩ := ih e he
      exact ⟨.tail _ ha, .tail _ hb⟩

theorem Path.nodup (h : Path g a p us) : p.way.Nodup := by
  induction h with
  | start => exact .nil
  | step hp hw hnew ih =>
    refine List.nodup_cons.mpr ⟨?_, ih⟩
    intro he
    obtain ⟨ha, hb⟩ := hp.ends _ he
    obtain ⟨-, ⟨-, rfl⟩ | ⟨-, rfl⟩⟩ := mem_around.mp hw
    · exact hnew hb
    · exact hnew ha

theorem Path.length_le (h : Path g a p us) : p.way.length ≤ g.length :=
  (h.nodup.subperm h.walk.way_subset).length_le

-- ---------------------------------------------------------------------------
-- Accepted equations
-- ---------------------------------------------------------------------------

variable {gs : Graph} {e : Equation} {es : List Equation} {c : Clause}

/-- Whether a graph has an edge for each of some consistent equations, trivial ones aside. -/
structure Spans (g : Graph) (es : List Equation) : Prop where
  consistent : Consistent es
  subset : g ⊆ es
  edge : ∀ f ∈ es, f.a ≠ f.b → ∃ k ∈ g, parallel k f = true ∧ k.value = f.value

theorem spans_nil : Spans [] [] where
  consistent := ⟨fun _ => false, by simp [Solves]⟩
  subset := by simp
  edge := by simp

theorem Spans.solves {v : Atom → Bool} (h : Spans g es) (hv : Solves v g) : Solves v es := by
  intro f hf
  by_cases hab : f.a = f.b
  · obtain ⟨v', hv'⟩ := h.consistent
    have := hv' f hf
    simpa [Equation.Holds, hab] using this
  · obtain ⟨k, hk, hkf, hvalue⟩ := h.edge f hf hab
    exact (holds_of_parallel hkf hvalue).mp (hv k hk)

theorem parallel_refl (e : Equation) : parallel e e = true := parallel_iff.mpr (.inl ⟨rfl, rfl⟩)

theorem parallel_symm {k : Equation} (h : parallel k e = true) : parallel e k = true := by
  rw [parallel_iff] at h ⊢
  exact h.imp (And.imp Eq.symm Eq.symm) fun ⟨ha, hb⟩ => ⟨hb.symm, ha.symm⟩

theorem parallel_trans {k f : Equation} (hk : parallel k e = true) (he : parallel e f = true) :
    parallel k f = true := by
  rw [parallel_iff] at hk he ⊢
  rcases hk with ⟨ha, hb⟩ | ⟨ha, hb⟩
  · rwa [ha, hb]
  · rw [ha, hb, or_comm]
    exact he.imp And.symm And.symm

theorem exists_mem_keep {f : Equation}
    (hp : ∀ k ∈ g, parallel k e = true → k.value = e.value) (hf : f = e ∨ f ∈ g) :
    ∃ k ∈ g.keep e, parallel k f = true ∧ k.value = f.value := by
  simp only [Graph.keep]
  split
  · rename_i hany
    -- the edge in whose place the equation might be
    have hold : ∃ k ∈ g, parallel k f = true ∧ k.value = f.value := by
      rcases hf with rfl | hf
      · obtain ⟨k, hk, hkf⟩ := List.any_eq_true.mp hany
        exact ⟨k, hk, hkf, hp k hk hkf⟩
      · exact ⟨f, hf, parallel_refl f, rfl⟩
    obtain ⟨k, hk, hkf, hvalue⟩ := hold
    refine ⟨_, List.mem_map_of_mem hk, ?_⟩
    split
    · rename_i hshorter
      obtain ⟨hke, -⟩ := Bool.and_eq_true_iff.mp hshorter
      exact ⟨parallel_trans (parallel_symm hke) hkf, (hp k hk hke).symm.trans hvalue⟩
    · exact ⟨hkf, hvalue⟩
  · rcases hf with rfl | hf
    · exact ⟨_, .head _, parallel_refl _, rfl⟩
    · exact ⟨f, .tail _ hf, parallel_refl f, rfl⟩

theorem Spans.add_none {k : Graph} (h : Spans g es) (hadd : g.add e = (none, k)) :
    Spans k (es ++ [e]) := by
  obtain ⟨⟨v, hv⟩, hsolves⟩ := add_eq_none (h.consistent.subset h.subset) hadd
  obtain ⟨hv, he⟩ := (hsolves v).mp hv
  refine ⟨⟨v, ?_⟩, ?_, ?_⟩
  · intro f hf
    rcases List.mem_append.mp hf with hf | hf
    · exact h.solves hv f hf
    · exact List.mem_singleton.mp hf ▸ he
  · intro f hf
    rcases mem_of_add hadd f hf with rfl | hf
    · simp
    · exact List.mem_append_left _ (h.subset hf)
  · intro f hf hab
    have hp : ∀ k ∈ g, parallel k e = true → k.value = e.value := by
      intro k hk hke
      have hvalue : (v k.a ^^ v k.b) = k.value := hv k hk
      have he : (v e.a ^^ v e.b) = e.value := he
      rcases parallel_iff.mp hke with ⟨ha, hb⟩ | ⟨ha, hb⟩
      · rw [← hvalue, ha, hb, he]
      · rw [← hvalue, ha, hb, Bool.xor_comm, he]
    have hf : f = e ∨ f ∈ es := by simpa [or_comm] using hf
    unfold Graph.add at hadd
    split at hadd
    · rename_i hloop
      obtain rfl : g = k := congrArg Prod.snd hadd
      refine h.edge f (hf.resolve_left ?_) hab
      rintro rfl
      exact hab hloop
    · split at hadd
      · simp at hadd
      · obtain rfl : g.keep e = k := congrArg Prod.snd hadd
        rcases hf with rfl | hf
        · exact exists_mem_keep hp (.inl rfl)
        · obtain ⟨m, hm, hmf, hvalue⟩ := h.edge f hf hab
          obtain ⟨n, hn, hnm, hvalue'⟩ := exists_mem_keep hp (.inr hm)
          exact ⟨n, hn, parallel_trans hnm hmf, hvalue'.trans hvalue⟩

/-- A path through accepted equations is a walk through the graph, edge by edge. -/
theorem Spans.exists_walk (h : Spans g es) (hsub : gs ⊆ es) (hp : Path gs a p us) :
    ∃ q, Walk g a q ∧ q.state = p.state ∧ q.way.length = p.way.length := by
  induction hp with
  | start => exact ⟨_, .start, rfl, rfl⟩
  | @step p us w e hp hw hnew ih =>
    obtain ⟨q, hq, hstate, hlength⟩ := ih
    obtain ⟨hvertex, hsum⟩ := Prod.mk.inj hstate
    obtain ⟨he, hends⟩ := mem_around.mp hw
    have hne : p.vertex ≠ w := by
      rintro rfl
      exact hnew hp.vertex_mem
    have hab : e.a ≠ e.b := by
      rcases hends with ⟨ha, hb⟩ | ⟨hb, ha⟩
      · rwa [ha, hb]
      · rw [ha, hb]
        exact hne.symm
    obtain ⟨k, hk, hke, hvalue⟩ := h.edge e (hsub he) hab
    have hw' : (w, k) ∈ g.around q.vertex := by
      rw [mem_around, hvertex]
      refine ⟨hk, ?_⟩
      rcases parallel_iff.mp hke with ⟨ha, hb⟩ | ⟨ha, hb⟩
      · rwa [ha, hb]
      · rwa [ha, hb, or_comm]
    refine ⟨_, .step hq hw', ?_, ?_⟩
    · simp [Visit.state, hsum, hvalue]
    · simp [hlength]

/-- The accepted equations on the cycle that an equation closes are as few as contradict it. -/
theorem Spans.add_some {k : Graph} (h : Spans g es) (hadd : g.add e = (some c, k)) :
    ∃ fs, fs ⊆ es ∧ ¬ Consistent (e :: fs) ∧ c = Equation.blockingClause (e :: fs) ∧
      ∀ gs, gs ⊆ es → ¬ Consistent (e :: gs) → fs.length ≤ gs.length := by
  obtain ⟨-, fs, hfs, hinconsistent, rfl, hway⟩ := closes_of_add hadd
  refine ⟨fs, fun f hf => h.subset (hfs f hf), hinconsistent, rfl, ?_⟩
  intro gs hgs hcontradicts
  rcases hway with rfl | hway
  · simp
  · have hgs' := h.consistent.subset hgs
    have hreaches : Reaches gs e.a (e.b, !e.value) := by
      by_contra hr
      obtain ⟨v, hv, he⟩ := solves_of_not_reaches hgs' hr
      exact hcontradicts ⟨v, solves_cons.mpr ⟨he, hv⟩⟩
    obtain ⟨p, hp, hgoal⟩ := hreaches
    obtain ⟨q, us, hq, hstate⟩ := exists_path hgs' hp
    obtain ⟨r, hr, hstate', hlength⟩ := h.exists_walk hgs hq
    calc fs.length
      _ ≤ r.way.length := way?_shortest hway hr (hstate'.trans (hstate.trans hgoal))
      _ = q.way.length := hlength
      _ ≤ gs.length := hq.length_le

theorem Spans.add_isSome (h : Spans g es) :
    (g.add e).1.isSome = true ↔ ¬ Consistent (e :: es) := by
  cases hadd : g.add e with
  | mk answer k =>
    cases answer with
    | some c =>
      obtain ⟨fs, hfs, hinconsistent, -⟩ := h.add_some hadd
      have hsub : e :: fs ⊆ e :: es := List.cons_subset_cons _ hfs
      simpa using fun hc => hinconsistent (Consistent.subset hc hsub)
    | none =>
      have hsub : e :: es ⊆ es ++ [e] := by simp
      simpa using (h.add_none hadd).consistent.subset hsub

-- ---------------------------------------------------------------------------
-- Equations in turn
-- ---------------------------------------------------------------------------

def answers : Graph → List Equation → List (Option Clause)
  | _, [] => []
  | g, e :: es => (g.add e).1 :: answers (g.add e).2 es

def accepted (g : Graph) (es : List Equation) : List Equation :=
  ((es.zip (answers g es)).filter (·.2.isNone)).map (·.1)

def added (g : Graph) (es : List Equation) : Graph := es.foldl (fun g e => (g.add e).2) g

theorem getElem?_answers (g : Graph) (es : List Equation) (i : Nat) :
    (answers g es)[i]? = es[i]?.map fun e => ((added g (es.take i)).add e).1 := by
  induction es generalizing g i with
  | nil => simp [answers]
  | cons e es ih =>
    cases i with
    | zero => simp [answers, added]
    | succ i => simp [answers, added, ih]

theorem clauses_eq_answers (g : Graph) (es : List Equation) :
    clauses g es = (answers g es).filterMap id := by
  induction es generalizing g with
  | nil => rfl
  | cons e es ih =>
    unfold clauses answers
    split <;> rename_i hadd <;> simp [hadd, ih]

theorem Spans.added {fs : List Equation} (h : Spans g fs) (es : List Equation) :
    Spans (added g es) (fs ++ accepted g es) := by
  induction es generalizing g fs with
  | nil => simpa [Cycle.added, accepted] using h
  | cons e es ih =>
    cases hadd : g.add e with
    | mk answer k =>
      cases answer with
      | none => simpa [Cycle.added, accepted, answers, hadd] using ih (h.add_none hadd)
      | some c =>
        obtain ⟨rfl, -⟩ := add_eq_some hadd
        simpa [Cycle.added, accepted, answers, hadd] using ih h

theorem spans_accepted (es : List Equation) : Spans (added [] es) (accepted [] es) := by
  simpa using spans_nil.added es

theorem shortestClause?_eq_some_iff : shortestClause? es = some c ↔
    ∃ before after, answers [] es = before ++ some c :: after ∧
      (∀ d, some d ∈ before → c.length < d.length) ∧
      ∀ d, some d ∈ after → c.length ≤ d.length := by
  rw [shortestClause?, firstLeast_eq_some, clauses_eq_answers]
  constructor
  · rintro ⟨before, after, hsplit, hbefore, hafter⟩
    obtain ⟨first, rest, hanswers, rfl, hrest⟩ := List.filterMap_eq_append_iff.mp hsplit
    obtain ⟨nones, answer, later, rfl, hnones, hc, rfl⟩ := List.filterMap_eq_cons_iff.mp hrest
    obtain rfl : answer = some c := hc
    refine ⟨first ++ nones, later, by simp [hanswers], ?_, ?_⟩
    · intro d hd
      rcases List.mem_append.mp hd with hd | hd
      · exact hbefore d (by simpa using hd)
      · simpa using hnones _ hd
    · intro d hd
      exact hafter d (by simpa using hd)
  · rintro ⟨before, after, hanswers, hbefore, hafter⟩
    refine ⟨before.filterMap id, after.filterMap id, by simp [hanswers], ?_, ?_⟩
    · simpa using hbefore
    · simpa using hafter

/-- An equation is answered by a clause just if it contradicts the equations accepted before
it, which never contradict each other. The clause unites its antecedent with those of as few
accepted equations as contradict it. In the end the first of the shortest clauses is given. -/
theorem answers_shortest (es : List Equation) :
    (∀ i, Consistent (accepted [] (es.take i))) ∧
    (∀ (i : Nat) e, es[i]? = some e → ∃ answer, (answers [] es)[i]? = some answer ∧
      (answer.isSome = true ↔ ¬ Consistent (e :: accepted [] (es.take i))) ∧
      ∀ c, answer = some c → ∃ fs, fs ⊆ accepted [] (es.take i) ∧ ¬ Consistent (e :: fs) ∧
        c.Ascending ∧ (∀ l, l ∈ c ↔ ∃ f ∈ e :: fs, l ∈ f.antecedent) ∧
        ∀ gs, gs ⊆ accepted [] (es.take i) → ¬ Consistent (e :: gs) → fs.length ≤ gs.length) ∧
    ∀ c, shortestClause? es = some c ↔ ∃ before after,
      answers [] es = before ++ some c :: after ∧
      (∀ d, some d ∈ before → c.length < d.length) ∧ ∀ d, some d ∈ after → c.length ≤ d.length := by
  refine ⟨?_, ?_, ?_⟩
  · intro i
    exact (spans_accepted _).consistent
  · intro i e he
    have hspans := spans_accepted (es.take i)
    refine ⟨_, by rw [getElem?_answers, he]; rfl, hspans.add_isSome, ?_⟩
    intro c hc
    have hadd : (added [] (es.take i)).add e = (some c, ((added [] (es.take i)).add e).2) := by
      rw [← hc]
    obtain ⟨fs, hfs, hinconsistent, rfl, hfewest⟩ := hspans.add_some hadd
    refine ⟨fs, hfs, hinconsistent, Clause.ascending_ofList _, ?_, hfewest⟩
    intro l
    exact Equation.mem_blockingClause
  · intro c
    exact shortestClause?_eq_some_iff

/-- A cycle of four equations of which one diagonal is given too. -/
def crossedSquare : List Equation :=
  [⟨1, 2, true, [⟨10, false⟩]⟩, ⟨2, 3, true, [⟨11, false⟩]⟩, ⟨3, 4, true, [⟨12, false⟩]⟩,
    ⟨1, 3, false, [⟨14, false⟩]⟩, ⟨1, 4, false, [⟨13, false⟩]⟩]

theorem answers_shortest_crossedSquare :
    (answers [] crossedSquare)[4]? = some (some [⟨14, false⟩, ⟨13, false⟩, ⟨12, false⟩]) ∧
      ∀ gs, gs ⊆ accepted [] (crossedSquare.take 4) →
        ¬ Consistent (⟨1, 4, false, [⟨13, false⟩]⟩ :: gs) → 2 ≤ gs.length := by
  have hrun : (answers [] crossedSquare)[4]? =
      some (some [⟨14, false⟩, ⟨13, false⟩, ⟨12, false⟩]) := by decide +kernel
  have haccepted : accepted [] (crossedSquare.take 4) = crossedSquare.take 4 := by decide +kernel
  have hapart : ∀ f ∈ crossedSquare.take 4, ∀ k ∈ crossedSquare.take 4,
      ⟨14, false⟩ ∈ f.antecedent → ⟨12, false⟩ ∈ k.antecedent → f ≠ k := by decide
  obtain ⟨-, hanswers, -⟩ := answers_shortest crossedSquare
  obtain ⟨answer, hanswer, -, hclause⟩ := hanswers 4 ⟨1, 4, false, [⟨13, false⟩]⟩ rfl
  obtain ⟨fs, hfs, -, -, hunion, hfewest⟩ :=
    hclause _ (Option.some.inj (hanswer.symm.trans hrun))
  refine ⟨hrun, ?_⟩
  intro gs hgs hcontradicts
  -- two literals of the clause come from accepted equations, and none has both
  obtain ⟨f, hf, hf'⟩ : ∃ f ∈ fs, ⟨14, false⟩ ∈ f.antecedent := by
    simpa using (hunion ⟨14, false⟩).mp (by simp)
  obtain ⟨k, hk, hk'⟩ : ∃ k ∈ fs, ⟨12, false⟩ ∈ k.antecedent := by
    simpa using (hunion ⟨12, false⟩).mp (by simp)
  have hne : f ≠ k := hapart f (haccepted ▸ hfs hf) k (haccepted ▸ hfs hk) hf' hk'
  have hlength : 2 ≤ fs.length := by
    by_contra hshort
    obtain ⟨m, rfl⟩ := List.length_eq_one_iff.mp
      (Nat.le_antisymm (by omega) (List.length_pos_of_mem hf))
    exact hne ((List.mem_singleton.mp hf).trans (List.mem_singleton.mp hk).symm)
  exact Nat.le_trans hlength (hfewest gs hgs hcontradicts)

end ShaDiff.TwoBit.Cycle
