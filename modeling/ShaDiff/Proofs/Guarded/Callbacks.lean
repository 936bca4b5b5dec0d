import ShaDiff.Proofs.Guarded.Finding
import ShaDiff.Proofs.Guarded.TwoBit
import ShaDiff.Proofs.Reasons
import ShaDiff.Proofs.Soundness

/-!
# Guarded callbacks

A propagator that is reached by accepted entries and by calls is sound and in range, and so are
those that further calls lead to. So all calls go through, whatever the host tells or asks, with
one exception: to ask for the reason of a literal that has none (`noReason_of_panic`).
-/

namespace ShaDiff.Guarded

variable {ρ : Type} {p q : Propagator ρ} {b : Bit}

-- ---------------------------------------------------------------------------
-- Decisions
-- ---------------------------------------------------------------------------

def firstOpen? (p : Propagator ρ) (b : Bit) (c : Condition) : Except Panic (Option Literal) := do
  let literals ← forcing p.encoding (← slots p.topology b) c
  return literals.find? fun l => (p.literal? l).isNone

def openEquationAtom? (p : Propagator ρ) : Except Panic (Option Atom) :=
  (p.liveEquations.flatMap fun e => [e.a, e.b]).findM? fun a =>
    match p.topology.tracked[a]? with
    | none => .ok false
    | some place =>
      if (p.value? a).isNone then do
        let known ← condition p place.bit
        return known.difference?.isNone
      else .ok false

section

variable [Coin ρ]

def decideBits (p : Propagator ρ) : List Bit → ρ → Except Panic (Option Literal × ρ)
  | [], source => .ok (none, source)
  | b :: bs, source => do
    let known ← condition p b
    if known = .any then
      match ← firstOpen? p b .same with
      | some l => return (some l, source)
      | none => decideBits p bs source
    else if known = .x then
      let (heads, source) := Coin.toss source
      match ← firstOpen? p b (if heads then .u else .n) with
      | some l => return (some l, source)
      | none => decideBits p bs source
    else decideBits p bs source

def roleRoom : Nat := 19

/-- Rounds are numbers of 32 bits. -/
def findDecision (p : Propagator ρ) : Except Panic (Option Literal × Propagator ρ) :=
  match p.topology.order with
  | none => .ok (none, p)
  | some order => do
    fits 32 (order - 4)
    [Role.w, .a, .e].forM fun role => within role.index roleRoom
    match ← decideBits p (p.messageBits order ++ p.registerBits order) p.source with
    | (some l, source) => return (some l, { p with source })
    | (none, source) =>
      match ← openEquationAtom? p with
      | none => return (none, { p with source })
      | some a =>
        let (heads, source) := Coin.toss source
        return (some (← literal ⟨a, heads⟩), { p with source })

def decide (p : Propagator ρ) : Except Panic (Option Literal × Propagator ρ) :=
  if p.isBuilt && p.config.branching && p.status == .idle then do
    match ← findDecision (← refresh p) with
    | (none, p) => return (none, p)
    | (some l, p) =>
      return (some l, { p with
        status := .deciding l, counters.decisions := p.counters.decisions + 1 })
  else .ok (none, p)

end

section

variable (ht : p.topology.Tracks) (hr : p.topology.Ranged)

include hr

theorem openEquationAtom?_eq : openEquationAtom? p = .ok p.openEquationAtom? := by
  refine findM?_eq fun a _ => ?_
  cases hplace : p.topology.tracked[a]? with
  | none => rw [Option.any_none, Bool.and_false]
  | some place =>
    dsimp only
    rw [condition_eq (hr.tracked hplace).toHasBit, ok_bind, pure_eq_ok, Option.any_some]
    cases (p.value? a).isNone <;> rfl

/-- The words of a role are there, in all rounds. -/
theorem hasBit_of_bitsBackward (role : Role) (first : Int) (rounds : Nat) :
    ∀ b ∈ p.bitsBackward role first rounds, p.topology.HasBit b := by
  intro b hb
  obtain ⟨word, hword, hb⟩ := List.mem_flatMap.mp hb
  obtain ⟨i, -, hword⟩ := List.mem_filterMap.mp hword
  obtain ⟨column, hcolumn, rfl⟩ := List.mem_map.mp (List.mem_reverse.mp hb)
  exact ⟨hr.wordAt?_lt hword, List.mem_range.mp hcolumn⟩

theorem hasBit_of_decided (order : Nat) :
    ∀ b ∈ p.messageBits order ++ p.registerBits order, p.topology.HasBit b :=
  List.forall_mem_append.mpr ⟨hasBit_of_bitsBackward hr .w _ _, List.forall_mem_append.mpr
    ⟨hasBit_of_bitsBackward hr .a _ _, hasBit_of_bitsBackward hr .e _ _⟩⟩

include ht

theorem firstOpen?_eq (hb : p.topology.HasBit b) (c : Condition) :
    firstOpen? p b c = .ok (p.firstOpen? b c) := by
  rw [firstOpen?, slots_eq hb, ok_bind, forcing_slots ht hr, ok_bind, pure_eq_ok]
  rfl

variable [Coin ρ]

theorem decideBits_eq {bits : List Bit} (h : ∀ b ∈ bits, p.topology.HasBit b) (source : ρ) :
    decideBits p bits source = .ok (p.decideBits bits source) := by
  induction bits generalizing source with
  | nil => rfl
  | cons b bits ih =>
    obtain ⟨hb, hbits⟩ := List.forall_mem_cons.mp h
    unfold decideBits Propagator.decideBits
    simp only [condition_eq hb, firstOpen?_eq ht hr hb, ok_bind, ih hbits]
    split
    · cases p.firstOpen? b .same <;> rfl
    · split
      · cases p.firstOpen? b (if (Coin.toss source).1 then .u else .n) <;> rfl
      · rfl

theorem findDecision_eq (horder : ∀ order, p.topology.order = some order → order ≤ orderMax) :
    findDecision p = .ok p.findDecision := by
  unfold findDecision Propagator.findDecision
  cases hn : p.topology.order with
  | none => rfl
  | some order =>
    have hle : order ≤ 64 := horder order hn
    have hfits : fits 32 ((order : Int) - 4) = .ok () := by
      refine if_pos ?_
      simp only [Nat.reduceSub, Nat.reduceShiftLeft]
      omega
    have hroles : [Role.w, .a, .e].forM (fun role => within role.index roleRoom) = .ok () := rfl
    simp only [hfits, hroles, decideBits_eq ht hr (hasBit_of_decided hr order),
      openEquationAtom?_eq hr, ok_bind]
    rcases p.decideBits (p.messageBits order ++ p.registerBits order) p.source with ⟨_ | l, source⟩
    · cases hatom : p.openEquationAtom? with
      | none => rfl
      | some a =>
        have hopen := List.find?_some hatom
        obtain ⟨place, hplace, -⟩ :=
          (Option.any_eq_true _ _).mp (Bool.and_eq_true_iff.mp hopen).2
        have hle : a ≤ Topology.atomMax := (hr.tracked hplace).le_atomMax
        simp only [literal_eq (l := ⟨a, (Coin.toss source).1⟩) hle, ok_bind, pure_eq_ok]
    · rfl

end

-- ---------------------------------------------------------------------------
-- Calls
-- ---------------------------------------------------------------------------

/-- Whether a propagator is one that entries and calls may lead to. -/
structure Reached (p : Propagator ρ) : Prop where
  sound : p.Sound True
  range : p.InRange

def findBatch (p : Propagator ρ) : Except Panic (Option Literal × Propagator ρ) := do
  match ← findPropagation (← refresh p) with
  | (.nothing, p) => return (none, p)
  | (.conflict c, p) => return (none, { p with status := .blocking c 0 })
  | (.literals ls, p) =>
    let reasons := ls.foldl (fun rs (l, reason) => rs.insert l reason) p.reasons
    return { p with reasons }.giveBatch (ls.map Prod.fst)

def propagate (p : Propagator ρ) : Except Panic (Option Literal × Propagator ρ) :=
  if p.isBuilt then
    match p.status with
    | .propagating batch =>
      match p.giveBatch batch with
      | (none, p) => findBatch p
      | given => .ok given
    | .idle => findBatch p
    | _ => .ok (none, p)
  else .ok (none, p)

def hasClause (p : Propagator ρ) : Except Panic (Bool × Propagator ρ) :=
  match p.status with
  | .blocking .. => .ok (true, p)
  | .idle =>
    if p.isBuilt then do
      let p := { p with queries := p.queries + 1 }
      let phase ← remainder p.queries (max p.config.twoBitInterval 1)
      if phase ≠ 0 then return (false, p)
      else
        match ← checkTwoBit (← refresh p) with
        | (some c, p) => return (true, { p with status := .blocking c 0 })
        | (none, p) => return (false, p)
    else .ok (false, p)
  | _ => .ok (false, p)

theorem findBatch_eq (h : Reached p) (hb : p.topology.order ≠ none) :
    findBatch p = .ok p.findBatch := by
  have hsearchable : Searchable p.refresh :=
    ⟨h.sound.ready_refresh hb, h.sound.refresh.tracks, h.range.refresh⟩
  unfold findBatch Propagator.findBatch
  rw [refresh_eq h.range.dirty, ok_bind, findPropagation_eq hsearchable, ok_bind]
  rcases p.refresh.findPropagation with ⟨_ | ls | c, q⟩ <;> rfl

theorem propagate_eq (h : Reached p) : propagate p = .ok p.propagate := by
  unfold propagate Propagator.propagate
  split
  · next hb =>
    have hbuilt : p.topology.order ≠ none := Option.isSome_iff_ne_none.mp hb
    cases p.status with
    | propagating batch =>
      have hidle : Reached { p with status := .idle } := ⟨h.sound.setIdle, { h.range with }⟩
      dsimp only
      rcases hgiven : p.giveBatch batch with ⟨_ | l, q⟩
      · obtain rfl := Propagator.eq_of_giveBatch_none hgiven
        exact findBatch_eq hidle hbuilt
      · rfl
    | idle => exact findBatch_eq h hbuilt
    | blocking _ _ | deciding _ => rfl
  · rfl

theorem hasClause_eq (h : p.InRange) : hasClause p = .ok p.hasClause := by
  unfold hasClause Propagator.hasClause
  have hinterval : max p.config.twoBitInterval 1 ≠ 0 := by omega
  have hrefresh (status : Status) :=
    refresh_eq (p := { p with queries := p.queries + 1, status }) h.dirty
  cases p.status with
  | idle =>
    dsimp only
    split
    · simp only [remainder_eq hinterval, hrefresh, checkTwoBit_eq, ok_bind]
      split
      · rfl
      · generalize Propagator.checkTwoBit _ = found
        rcases found with ⟨_ | c, q⟩ <;> rfl
    · rfl
  | propagating _ | blocking _ _ | deciding _ => rfl

variable [Coin ρ]

theorem decide_eq (h : Reached p) : decide p = .ok p.decide := by
  have htopology : p.refresh.topology = p.topology := by rw [Propagator.refresh_frame]
  have horder : ∀ order, p.refresh.topology.order = some order → order ≤ orderMax := by
    intro order horder
    obtain ⟨order', hbuilt⟩ := Propagator.exists_order h.sound.refresh (by simp [horder])
    obtain rfl := Option.some.inj (hbuilt.order_eq.symm.trans horder)
    exact hbuilt.le_max
  unfold decide Propagator.decide
  split
  · rw [refresh_eq h.range.dirty, ok_bind,
      findDecision_eq h.sound.refresh.tracks h.range.refresh.ranged horder, ok_bind]
    rcases p.refresh.findDecision with ⟨_ | l, q⟩ <;> rfl
  · rfl

def answer (p : Propagator ρ) : Call → Except Panic (Answer × Propagator ρ)
  | .assign l isFixed => do return (.noted, ← assign p l isFixed)
  | .openLevel => .ok (.noted, p.openLevel)
  | .backtrack level => do return (.noted, ← backtrack p level)
  | .model ls => .ok (.verdict (p.acceptsModel ls), p)
  | .decide => do
    let (l, p) ← decide p
    return (.literal l, p)
  | .propagate => do
    let (l, p) ← propagate p
    return (.literal l, p)
  | .reason l => do
    let (k, p) ← unbreached (p.reason l)
    return (.literal k, p)
  | .hasClause => do
    let (b, p) ← hasClause p
    return (.verdict b, p)
  | .clause => let (l, p) := p.clause; .ok (.literal l, p)

def converse (p : Propagator ρ) : List Call → Except Panic (List Answer × Propagator ρ)
  | [] => .ok ([], p)
  | c :: cs => do
    let (a, p) ← answer p c
    let (rest, p) ← converse p cs
    return (a :: rest, p)

theorem answer_eq (h : Reached p) (c : Call) : answer p c = unbreached (p.answer c) := by
  cases c with
  | assign l isFixed => simp only [answer, assign_eq, ok_bind]; rfl
  | backtrack level => simp only [answer, backtrack_eq h.range, ok_bind]; rfl
  | decide => simp only [answer, decide_eq h, ok_bind]; rfl
  | propagate => simp only [answer, propagate_eq h, ok_bind]; rfl
  | hasClause => simp only [answer, hasClause_eq h.range, ok_bind]; rfl
  | reason l =>
    show (unbreached (p.reason l) >>= _) = unbreached ((p.reason l).map _)
    cases p.reason l <;> rfl
  | openLevel | model _ | clause => rfl

theorem Reached.answer (h : Reached p) {c : Call} {a : Answer} (ha : p.answer c = .ok (a, q)) :
    Reached q :=
  ⟨h.sound.answer ha, h.range.answer ha⟩

/-- The only breach of a call is to ask for the reason of a literal that has none. -/
theorem noReason_of_answer {c : Call} {breach : Breach} (h : p.answer c = .error breach) :
    ∃ l, c = .reason l ∧ p.reasons[l]? = none ∧ breach = .noReason l := by
  cases c with
  | reason l =>
    refine ⟨l, rfl, ?_⟩
    simp only [Propagator.answer, Propagator.reason] at h
    split at h
    · cases h
    · split at h
      · next hnone => exact ⟨hnone, (Except.error.inj h).symm⟩
      · cases h
  | _ => cases h

-- ---------------------------------------------------------------------------
-- Dialogues
-- ---------------------------------------------------------------------------

theorem converse_eq (h : Reached p) (calls : List Call) :
    converse p calls = unbreached (p.converse calls) := by
  induction calls generalizing p with
  | nil => rfl
  | cons c calls ih =>
    unfold converse Propagator.converse
    rw [answer_eq h]
    cases ha : p.answer c with
    | error breach => rfl
    | ok answered =>
      obtain ⟨a, q⟩ := answered
      show (converse q calls >>= _) = unbreached (q.converse calls >>= _)
      rw [ih (h.answer ha)]
      cases q.converse calls <;> rfl

theorem noReason_of_converse {calls : List Call} {breach : Breach}
    (h : p.converse calls = .error breach) :
    ∃ before l after answers q, calls = before ++ .reason l :: after ∧
      p.converse before = .ok (answers, q) ∧ q.reasons[l]? = none ∧ breach = .noReason l := by
  induction calls generalizing p with
  | nil => cases h
  | cons c calls ih =>
    unfold Propagator.converse at h
    cases ha : p.answer c with
    | error breach' =>
      rw [ha] at h
      obtain rfl : breach' = breach := Except.error.inj h
      obtain ⟨l, rfl, hnone, rfl⟩ := noReason_of_answer ha
      exact ⟨[], l, calls, [], p, rfl, rfl, hnone, rfl⟩
    | ok answered =>
      obtain ⟨a, q⟩ := answered
      rw [ha] at h
      have hrest : q.converse calls = .error breach := by
        cases hq : q.converse calls with
        | error breach' =>
          simp only [hq, bind, Except.bind] at h
          exact h
        | ok rest =>
          simp only [hq, bind, Except.bind] at h
          cases h
      obtain ⟨before, l, after, answers, r, rfl, hbefore, hnone, rfl⟩ := ih hrest
      refine ⟨c :: before, l, after, a :: answers, r, rfl, ?_, hnone, rfl⟩
      simp only [Propagator.converse, ha, hbefore, bind, Except.bind, pure, Except.pure]

variable {config : Config} {source : ρ} {requests : List Request}

theorem reached_of_serveAll? (hn : config.wordSize ≤ wordSizeMax)
    (hp : (Propagator.new config source).serveAll? requests = some p) : Reached p :=
  ⟨Propagator.sound_of_serveAll? hn (fun _ _ _ => trivial) hp,
    (Propagator.inRange_new config source).serveAll? hp⟩

/-- From every propagator that is reached, all sequences of calls are answered as if nothing were
guarded, and a panic ends one only where it asks for the reason of a literal that has none. -/
theorem noReason_of_panic (hn : config.wordSize ≤ wordSizeMax)
    (hp : (Propagator.new config source).serveAll? requests = some p) (calls : List Call) :
    converse p calls = unbreached (p.converse calls) ∧
      ∀ panic, converse p calls = .error panic →
        ∃ before l after answers q, calls = before ++ .reason l :: after ∧
          converse p before = .ok (answers, q) ∧ q.reasons[l]? = none ∧
            panic = .breach (.noReason l) := by
  have hreached := reached_of_serveAll? hn hp
  refine ⟨converse_eq hreached calls, fun panic hpanic => ?_⟩
  rw [converse_eq hreached] at hpanic
  cases hconverse : p.converse calls with
  | ok answered =>
    rw [hconverse] at hpanic
    cases hpanic
  | error breach =>
    rw [hconverse] at hpanic
    obtain ⟨before, l, after, answers, q, hcalls, hbefore, hnone, rfl⟩ :=
      noReason_of_converse hconverse
    refine ⟨before, l, after, answers, q, hcalls, ?_, hnone, (Except.error.inj hpanic).symm⟩
    rw [converse_eq hreached, hbefore, unbreached_ok]

/-- Calls with literals of zero, of no tracked atom and of the least number a literal may be. -/
def sampleCalls : List Call :=
  [.assign (.ofInt 0) true, .assign (.ofInt (-2147483648)) false, .assign (.ofInt 99) false,
    .openLevel, .assign ⟨25, false⟩ false, .assign ⟨3, false⟩ false, .propagate,
    .reason ⟨21, false⟩, .clause, .model [.ofInt 0], .backtrack 7, .backtrack 0, .hasClause,
    .decide]

theorem noReason_of_sampleCalls : ∃ p : Propagator Pcg,
    (Propagator.new { encoding := .li2024, wordSize := 1 } (.ofSeed 0)).serveAll?
      (Propagator.sampleRequests []) = some p ∧
      (∃ answered, converse p sampleCalls = .ok answered) ∧
      converse p [.reason (.ofInt 0)] = .error (.breach (.noReason (.ofInt 0))) := by
  have hserved : ((Propagator.new { encoding := .li2024, wordSize := 1 } (Pcg.ofSeed 0)).serveAll?
      (Propagator.sampleRequests [])).map (fun p => ((p.converse sampleCalls).toBool,
        match p.converse [.reason (.ofInt 0)] with
        | .ok _ => none
        | .error breach => some breach)) = some (true, some (.noReason (.ofInt 0))) := by
    decide +kernel
  obtain ⟨p, hp, hanswered⟩ := Option.map_eq_some_iff.mp hserved
  obtain ⟨hok, hbreach⟩ := Prod.mk.inj hanswered
  refine ⟨p, hp, ?_, ?_⟩
  · rw [(noReason_of_panic (by decide) hp sampleCalls).1]
    cases hconverse : p.converse sampleCalls with
    | ok answered => exact ⟨answered, rfl⟩
    | error breach => rw [hconverse] at hok; cases hok
  · rw [(noReason_of_panic (by decide) hp [.reason (.ofInt 0)]).1]
    cases hconverse : p.converse [.reason (.ofInt 0)] with
    | ok answered => rw [hconverse] at hbreach; cases hbreach
    | error breach =>
      rw [hconverse] at hbreach
      exact congrArg (Except.error <| Panic.breach ·) (Option.some.inj hbreach)

end ShaDiff.Guarded
