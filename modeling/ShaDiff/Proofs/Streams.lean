import ShaDiff.Proofs.Propagator.Held

/-!
# Clauses are given whole

A clause for the host and a reason are given a literal at a time, and other calls may come
between two literals. What the host hears of a clause is told by the calls that ask for it
alone (`heard`): while nothing is taken back, these are answered by its literals in turn and
then by none, and no other call moves what is given on, replaces it or ends it
(`heard_of_replyAll`).
-/

namespace ShaDiff

/-- What calls of one kind are answered, in turn. -/
def heard (call : Call) (calls : List Call) (answers : List Answer) : List Answer :=
  ((calls.zip answers).filter (·.1 = call)).map Prod.snd

/-- What a clause sounds like that is given whole: its literals in turn, then none. -/
def Clause.told (d : Clause) : List Answer := (d.map some ++ [none]).map .literal

section

variable {call other : Call} {calls : List Call} {a : Answer} {answers : List Answer}

theorem heard_cons_self (call : Call) (calls : List Call) (a : Answer) (answers : List Answer) :
    heard call (call :: calls) (a :: answers) = a :: heard call calls answers := by
  simp [heard]

theorem heard_cons_of_ne (h : other ≠ call) (calls : List Call) (a : Answer)
    (answers : List Answer) :
    heard call (other :: calls) (a :: answers) = heard call calls answers := by
  simp [heard, h]

theorem mem_heard : a ∈ heard call calls answers ↔ (call, a) ∈ calls.zip answers := by
  simp [heard]

theorem Clause.length_told (d : Clause) : (told d).length = d.length + 1 := by simp [told]

theorem Clause.drop_told {d : Clause} {given : Nat} (h : given ≤ d.length) :
    (told d).drop given = .literal d[given]? :: (told d).drop (given + 1) := by
  rw [List.drop_eq_getElem_cons (by rw [length_told]; omega)]
  congr 1
  simp only [told, List.getElem_map, List.getElem_append, List.length_map, List.getElem_singleton]
  split
  · next hlt => rw [List.getElem?_eq_getElem hlt]
  · next hle => rw [List.getElem?_eq_none (Nat.le_of_not_lt hle)]

end

namespace Propagator

variable {ρ : Type} [Coin ρ] {config : Config} {source : ρ} {p q : Propagator ρ} {d : Clause}
  {l : Literal} {given : Nat} {call : Call} {calls : List Call} {requests : List Request}
  {replies : List Reply}

-- ---------------------------------------------------------------------------
-- Clauses that block
-- ---------------------------------------------------------------------------

omit [Coin ρ] in
theorem clause_of_blocking (h : p.status = .blocking d given) (hgiven : given < d.length) :
    p.clause = (d[given]?, { p with status := .blocking d (given + 1) }) := by
  rw [List.getElem?_eq_getElem hgiven]
  simp [Propagator.clause, h, List.getElem?_eq_getElem hgiven]

omit [Coin ρ] in
theorem clause_of_given (h : p.status = .blocking d d.length) :
    p.clause = (none, { p with status := .idle }) := by
  simp [Propagator.clause, h]

/-- What is answered while a clause is pending: that there is one, and no literal to assign. -/
def Waits : Call → Answer → Prop
  | .hasClause, a => a = .verdict true
  | .propagate, a | .decide, a => a = .literal none
  | _, _ => True

/-- Other calls find a clause pending and leave it so. Only a reason that is not there ends the
dialogue. -/
theorem answer_of_blocking (h : p.status = .blocking d given) (hclause : call ≠ .clause)
    (hcall : ∀ level, call ≠ .backtrack level) :
    (∃ l, call = .reason l ∧ p.answer call = .error (.noReason l)) ∨
      ∃ a q, p.answer call = .ok (a, q) ∧ q.status = .blocking d given ∧ Waits call a := by
  cases call with
  | backtrack level => exact absurd rfl (hcall level)
  | clause => exact absurd rfl hclause
  | assign l isFixed =>
    refine .inr ⟨_, _, rfl, ?_, trivial⟩
    rw [assign_frame]
    exact h
  | openLevel =>
    refine .inr ⟨_, _, rfl, ?_, trivial⟩
    rcases p.status_openLevel with hsame | ⟨⟨l, hdeciding⟩, -⟩
    · exact hsame.trans h
    · cases h.symm.trans hdeciding
  | model ls => exact .inr ⟨_, _, rfl, h, trivial⟩
  | decide =>
    have hwait : p.decide = (none, p) := by simp [Propagator.decide, h]
    exact .inr ⟨.literal none, p, by simp [answer, hwait], h, rfl⟩
  | propagate =>
    have hwait := propagate_of_blocking h
    exact .inr ⟨.literal none, p, by simp [answer, hwait], h, rfl⟩
  | hasClause =>
    have hpending : p.hasClause = (true, p) := by simp [Propagator.hasClause, h]
    exact .inr ⟨.verdict true, p, by simp [answer, hpending], h, rfl⟩
  | reason l =>
    cases hr : p.reason l with
    | ok r =>
      refine .inr ⟨.literal r.1, r.2, ?_, (seen_reason hr).1.trans h, trivial⟩
      simp only [answer, hr, Except.map]
    | error breach =>
      have hbreach : breach = .noReason l := by
        unfold Propagator.reason at hr
        split at hr
        · cases hr
        · split at hr
          · exact (Except.error.inj hr).symm
          · cases hr
      subst hbreach
      exact .inl ⟨l, rfl, by simp only [answer, hr, Except.map]⟩

theorem heard_of_blocking (h : p.status = .blocking d given)
    (hcalls : ∀ level, .backtrack level ∉ calls)
    (hcount : given + calls.count .clause ≤ d.length) :
    (∃ l, .reason l ∈ calls ∧ p.converse calls = .error (.noReason l)) ∨
      ∃ answers q, p.converse calls = .ok (answers, q) ∧
        q.status = .blocking d (given + calls.count .clause) ∧
        heard .clause calls answers = ((Clause.told d).drop given).take (calls.count .clause) ∧
        ∀ x ∈ calls.zip answers, Waits x.1 x.2 := by
  induction calls generalizing p given with
  | nil => exact .inr ⟨[], p, rfl, h, rfl, List.forall_mem_nil _⟩
  | cons call calls ih =>
    have hlater (level : Nat) : .backtrack level ∉ calls := fun hmem =>
      hcalls level (.tail _ hmem)
    by_cases hclause : call = .clause
    · subst hclause
      rw [List.count_cons_self] at hcount ⊢
      have hgiven : given < d.length := by omega
      have hanswer : p.answer .clause =
          .ok (.literal d[given]?, { p with status := .blocking d (given + 1) }) := by
        simp only [answer, clause_of_blocking h hgiven]
      have hnext : ({ p with status := .blocking d (given + 1) } : Propagator ρ).status =
          .blocking d (given + 1) := rfl
      rcases ih hnext hlater (by omega) with
        ⟨l, hl, herror⟩ | ⟨answers, q, hq, hstatus, hheard, hwaits⟩
      · refine .inl ⟨l, .tail _ hl, ?_⟩
        simp only [converse, hanswer, herror, bind, Except.bind]
      · refine .inr ⟨_, q, converse_cons hanswer hq, ?_, ?_,
          List.forall_mem_cons.mpr ⟨trivial, hwaits⟩⟩
        · rw [hstatus]
          congr 1
          omega
        · rw [heard_cons_self, hheard, Clause.drop_told (Nat.le_of_lt hgiven), List.take_succ_cons]
    · rw [List.count_cons_of_ne hclause] at hcount ⊢
      have hcall (level : Nat) : call ≠ .backtrack level := fun heq =>
        hcalls level (heq ▸ .head _)
      rcases answer_of_blocking h hclause hcall with
        ⟨l, rfl, herror⟩ | ⟨a, r, hanswer, hr, hawaits⟩
      · exact .inl ⟨l, .head _, by simp only [converse, herror, bind, Except.bind]⟩
      rcases ih hr hlater hcount with
        ⟨l, hl, herror⟩ | ⟨answers, q, hq, hstatus, hheard, hwaits⟩
      · refine .inl ⟨l, .tail _ hl, ?_⟩
        simp only [converse, hanswer, herror, bind, Except.bind]
      · refine .inr ⟨_, q, converse_cons hanswer hq, hstatus, ?_,
          List.forall_mem_cons.mpr ⟨hawaits, hwaits⟩⟩
        rw [heard_cons_of_ne hclause, hheard]

-- ---------------------------------------------------------------------------
-- Reasons
-- ---------------------------------------------------------------------------

/-- Whether so much of a reason was given. Once its end was, nothing is left of it. -/
def GivesReason (p : Propagator ρ) (l : Literal) (d : Clause) (given : Nat) : Prop :=
  p.stream = if given ≤ d.length then some ⟨l, d, given⟩ else none

theorem stream_answer (p : Propagator ρ) (hreason : ∀ l, call ≠ .reason l)
    (hcall : ∀ level, call ≠ .backtrack level) :
    ∃ a q, p.answer call = .ok (a, q) ∧ q.stream = p.stream := by
  cases call with
  | backtrack level => exact absurd rfl (hcall level)
  | reason l => exact absurd rfl (hreason l)
  | assign l isFixed => exact ⟨_, _, rfl, by rw [assign_frame]⟩
  | openLevel => exact ⟨_, _, rfl, by rw [openLevel_frame]⟩
  | model ls => exact ⟨_, _, rfl, rfl⟩
  | decide => exact ⟨_, _, rfl, stream_decide p⟩
  | propagate => exact ⟨_, _, rfl, stream_propagate p⟩
  | hasClause => exact ⟨_, _, rfl, stream_hasClause p⟩
  | clause =>
    have hstream : p.clause.2.stream = p.stream := by
      unfold Propagator.clause
      split
      · split <;> rfl
      · rfl
    exact ⟨_, _, rfl, hstream⟩

omit [Coin ρ] in
theorem givesReason_giveReason (p : Propagator ρ) (l : Literal) (d : Clause) (given : Nat) :
    (p.giveReason ⟨l, d, given⟩).2.GivesReason l d (given + 1) := by
  cases hk : d[given]? with
  | some k =>
    obtain ⟨hlt, -⟩ := List.getElem?_eq_some_iff.mp hk
    simp only [GivesReason, giveReason, hk, if_pos (Nat.succ_le_of_lt hlt)]
  | none =>
    have hle := Nat.lt_succ_of_le (List.getElem?_eq_none_iff.mp hk)
    simp only [GivesReason, giveReason, hk, if_neg (Nat.not_le.mpr hle)]

theorem answer_reason_of_givesReason (h : p.GivesReason l d given) (hgiven : given ≤ d.length) :
    ∃ q, p.answer (.reason l) = .ok (.literal d[given]?, q) ∧ q.GivesReason l d (given + 1) := by
  have hs : p.stream.filter (·.literal == l) = some ⟨l, d, given⟩ := by
    rw [show p.stream = _ from h, if_pos hgiven]
    simp [Option.filter]
  exact ⟨_, answer_reason_of_stream hs, givesReason_giveReason p l d given⟩

/-- Whatever calls come between, a reason that is being given is heard in turn. -/
theorem heard_of_givesReason (h : p.GivesReason l d given)
    (hcalls : ∀ level, .backtrack level ∉ calls) (hothers : ∀ k, .reason k ∈ calls → k = l)
    (hcount : given + calls.count (.reason l) ≤ d.length + 1) :
    ∃ answers q, p.converse calls = .ok (answers, q) ∧
      q.GivesReason l d (given + calls.count (.reason l)) ∧
      heard (.reason l) calls answers =
        ((Clause.told d).drop given).take (calls.count (.reason l)) := by
  induction calls generalizing p given with
  | nil => exact ⟨[], p, rfl, h, rfl⟩
  | cons call calls ih =>
    have hlater (level : Nat) : .backtrack level ∉ calls := fun hmem =>
      hcalls level (.tail _ hmem)
    have hothers' (k : Literal) (hk : .reason k ∈ calls) : k = l := hothers k (.tail _ hk)
    by_cases hreason : call = .reason l
    · subst hreason
      rw [List.count_cons_self] at hcount ⊢
      have hgiven : given ≤ d.length := by omega
      obtain ⟨r, hanswer, hr⟩ := answer_reason_of_givesReason h hgiven
      obtain ⟨answers, q, hq, hgives, hheard⟩ := ih hr hlater hothers' (by omega)
      refine ⟨_, q, converse_cons hanswer hq, ?_, ?_⟩
      · rwa [Nat.add_assoc, Nat.add_comm 1] at hgives
      · rw [heard_cons_self, hheard, Clause.drop_told hgiven, List.take_succ_cons]
    · rw [List.count_cons_of_ne hreason] at hcount ⊢
      have hother (k : Literal) : call ≠ .reason k := fun heq =>
        hreason (hothers k (heq ▸ .head _) ▸ heq)
      obtain ⟨a, r, hanswer, hr⟩ := p.stream_answer hother fun level heq =>
        hcalls level (heq ▸ .head _)
      obtain ⟨answers, q, hq, hgives, hheard⟩ := ih (hr.trans h) hlater hothers' hcount
      refine ⟨_, q, converse_cons hanswer hq, hgives, ?_⟩
      rw [heard_cons_of_ne hreason, hheard]

theorem answer_reason_of_kept (hreason : p.reasons[l]? = some d)
    (hstream : ∀ s, p.stream = some s → s.literal ≠ l) :
    ∃ q, p.answer (.reason l) = .ok (.literal d[0]?, q) ∧ q.GivesReason l d 1 := by
  have hnone : p.stream.filter (·.literal == l) = none := by
    rw [Option.filter_eq_none_iff]
    intro s hs
    simpa using hstream s hs
  refine ⟨({ p with counters.reasons := p.counters.reasons + 1 }.giveReason ⟨l, d, 0⟩).2, ?_,
    givesReason_giveReason _ l d 0⟩
  simp only [answer, reason, hnone, hreason, Except.map, fst_giveReason]

-- ---------------------------------------------------------------------------
-- Requests
-- ---------------------------------------------------------------------------

/-- Whatever was requested and whatever calls come between, as long as nothing is taken
back, the host hears each clause whole. No literal of one that blocks is zero; until it has
been given it is pending, nothing else is offered, and its end leaves nothing to be done. A
reason is heard as it was when first asked for, unless another one is asked for. -/
theorem heard_of_replyAll (hp : (new config source).replyAll requests = .ok (replies, p))
    (hcalls : ∀ level, .backtrack level ∉ calls) :
    (∀ c, p.status = .blocking c 0 → (∀ k ∈ c, k.signed ≠ 0) ∧
      (calls.count .clause ≤ c.length →
        (∃ l, .reason l ∈ calls ∧ p.converse calls = .error (.noReason l)) ∨
        ∃ answers q, p.converse calls = .ok (answers, q) ∧
          heard .clause calls answers = (Clause.told c).take (calls.count .clause) ∧
          (∀ a ∈ heard .hasClause calls answers, a = .verdict true) ∧
          (∀ a ∈ heard .propagate calls answers, a = .literal none) ∧
          (∀ a ∈ heard .decide calls answers, a = .literal none) ∧
          q.status = .blocking c (calls.count .clause) ∧
          (calls.count .clause = c.length → q.clause = (none, { q with status := .idle })))) ∧
    ∀ (l : Literal) c, p.reasons[l]? = some c → (∀ s, p.stream = some s → s.literal ≠ l) →
      (∀ k ∈ c, k.signed ≠ 0) ∧
      ((∀ k, .reason k ∈ calls → k = l) → calls.count (.reason l) ≤ c.length →
        ∃ answers q, p.converse (.reason l :: calls) = .ok (answers, q) ∧
          heard (.reason l) (.reason l :: calls) answers =
            (Clause.told c).take (calls.count (.reason l) + 1) ∧
          q.stream = if calls.count (.reason l) < c.length then
            some ⟨l, c, calls.count (.reason l) + 1⟩ else none) := by
  refine ⟨fun c hstatus => ⟨signed_ne_zero_of_held hp (.blocking hstatus), fun hcount => ?_⟩,
    fun l c hreason hstream => ⟨signed_ne_zero_of_held hp (.reason hreason),
      fun hothers hcount => ?_⟩⟩
  · rcases heard_of_blocking hstatus hcalls (by omega) with
      herror | ⟨answers, q, hq, hafter, hheard, hwaits⟩
    · exact .inl herror
    · rw [Nat.zero_add] at hafter
      refine .inr ⟨answers, q, hq, hheard, fun a ha => hwaits _ (mem_heard.mp ha),
        fun a ha => hwaits _ (mem_heard.mp ha), fun a ha => hwaits _ (mem_heard.mp ha), hafter,
        fun hall => ?_⟩
      exact clause_of_given (hall ▸ hafter)
  · obtain ⟨r, hanswer, hr⟩ := answer_reason_of_kept hreason hstream
    obtain ⟨answers, q, hq, hgives, hheard⟩ := heard_of_givesReason hr hcalls hothers (by omega)
    refine ⟨_, q, converse_cons hanswer hq, ?_, ?_⟩
    · rw [heard_cons_self, hheard, ← List.take_succ_cons, ← Clause.drop_told (Nat.zero_le _),
        List.drop_zero]
    · rwa [GivesReason, Nat.add_comm 1] at hgives

/-- Half of a clause that blocks is given, then half of a reason, and then what is left. -/
theorem heard_of_replyAll_sample :
    let start : Propagator Pcg := new { encoding := .li2024, wordSize := 1 } (.ofSeed 0)
    let before : List Call := [.openLevel, .assign ⟨25, false⟩ false, .assign ⟨3, false⟩ false,
      .propagate, .openLevel, .assign ⟨21, true⟩ false, .propagate, .propagate]
    let calls : List Call := [.clause, .propagate, .reason ⟨22, false⟩, .hasClause, .clause,
      .assign ⟨22, false⟩ false, .decide, .clause, .reason ⟨22, false⟩]
    ∃ replies p, start.replyAll (sampleRequests before) = .ok (replies, p) ∧
      p.status = .blocking [⟨25, true⟩, ⟨3, true⟩, ⟨21, false⟩] 0 ∧
      p.reasons[(⟨22, false⟩ : Literal)]? = some [⟨22, false⟩, ⟨25, true⟩, ⟨3, true⟩] ∧
      (∃ answers q, p.converse calls = .ok (answers, q) ∧
        heard .clause calls answers =
          [.literal (some ⟨25, true⟩), .literal (some ⟨3, true⟩), .literal (some ⟨21, false⟩)] ∧
        q.clause = (none, { q with status := .idle })) ∧
      ∃ answers q, p.converse (.reason ⟨22, false⟩ :: calls) = .ok (answers, q) ∧
        heard (.reason ⟨22, false⟩) (.reason ⟨22, false⟩ :: calls) answers =
          [.literal (some ⟨22, false⟩), .literal (some ⟨25, true⟩), .literal (some ⟨3, true⟩)] := by
  intro start before calls
  have hreplied : (start.replyAll (sampleRequests before)).map (fun (_, p) =>
      (p.status, p.reasons[(⟨22, false⟩ : Literal)]?, p.stream, (p.converse calls).toBool)) =
      .ok (.blocking [⟨25, true⟩, ⟨3, true⟩, ⟨21, false⟩] 0,
        some [⟨22, false⟩, ⟨25, true⟩, ⟨3, true⟩], none, true) := by decide +kernel
  obtain ⟨⟨replies, p⟩, hp, hresult⟩ := exists_of_map_eq_ok hreplied
  simp only [Prod.mk.injEq] at hresult
  obtain ⟨hstatus, hreason, hstream, hanswered⟩ := hresult
  have hcalls : ∀ level, .backtrack level ∉ calls := by simp [calls]
  obtain ⟨hblocking, hreasons⟩ := heard_of_replyAll hp hcalls
  obtain ⟨-, hclause⟩ := hblocking _ hstatus
  obtain ⟨-, hgiven⟩ := hreasons _ _ hreason (by simp [hstream])
  refine ⟨replies, p, hp, hstatus, hreason, ?_, ?_⟩
  · rcases hclause (by decide) with ⟨l, -, herror⟩ | ⟨answers, q, hq, hheard, -, -, -, -, hend⟩
    · rw [herror] at hanswered
      cases hanswered
    · exact ⟨answers, q, hq, hheard, hend (by decide)⟩
  · obtain ⟨answers, q, hq, hheard, -⟩ := hgiven (by simp [calls]) (by decide)
    exact ⟨answers, q, hq, hheard⟩

end Propagator

end ShaDiff
