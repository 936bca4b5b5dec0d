import ShaDiff.Dialogue
import ShaDiff.Propagator.Configure

/-!
# What is remembered

The caches and their limit are the memory of a propagator. Nothing but a look-up depends on
it: all other operations do the same with another memory and leave that alone. A look-up is
set apart from what follows from its result (`propagateColumn_eq`, `propagateSum_eq`).
-/

namespace ShaDiff

/-- What a propagator remembers of columns and sums, and how many results of each it may. -/
structure Memory where
  limit : Nat
  columns : ColumnCache
  sums : SumCache

def ColumnKey.propagate (k : ColumnKey) : Option Column.Outcome :=
  Column.propagate k.gate k.inputs k.outputs

namespace Propagator

variable {ρ : Type} {p q : Propagator ρ}

def memory (p : Propagator ρ) : Memory := ⟨p.config.cacheLimit, p.columnCache, p.sumCache⟩

def withMemory (p : Propagator ρ) (m : Memory) : Propagator ρ :=
  { p with
    config := { p.config with cacheLimit := m.limit }
    columnCache := m.columns
    sumCache := m.sums }

section

variable (p : Propagator ρ) (m : Memory)

@[simp] theorem withMemory_memory : p.withMemory p.memory = p := rfl

@[simp] theorem memory_withMemory : (p.withMemory m).memory = m := rfl

@[simp] theorem topology_withMemory : (p.withMemory m).topology = p.topology := rfl

@[simp] theorem isBuilt_withMemory : (p.withMemory m).isBuilt = p.isBuilt := rfl

@[simp] theorem status_withMemory : (p.withMemory m).status = p.status := rfl

@[simp] theorem stream_withMemory : (p.withMemory m).stream = p.stream := rfl

@[simp] theorem reasons_withMemory : (p.withMemory m).reasons = p.reasons := rfl

@[simp] theorem marks_withMemory : (p.withMemory m).marks = p.marks := rfl

@[simp] theorem literal?_withMemory : (p.withMemory m).literal? = p.literal? := rfl

@[simp] theorem condition_withMemory : (p.withMemory m).condition = p.condition := rfl

@[simp] theorem equationSlot?_withMemory : (p.withMemory m).equationSlot? = p.equationSlot? := rfl

@[simp] theorem liveEquations_withMemory : (p.withMemory m).liveEquations = p.liveEquations := rfl

-- ---------------------------------------------------------------------------
-- What leaves the memory alone
-- ---------------------------------------------------------------------------

theorem refreshBit_withMemory (b : Bit) :
    (p.withMemory m).refreshBit b = (p.refreshBit b).withMemory m := by
  unfold refreshBit
  rw [show (p.withMemory m).freshCondition b = p.freshCondition b from rfl, condition_withMemory]
  dsimp only
  split
  · rfl
  · split <;> rfl

theorem foldl_refreshBit_withMemory (bits : List Bit) :
    bits.foldl refreshBit (p.withMemory m) = (bits.foldl refreshBit p).withMemory m := by
  induction bits generalizing p with
  | nil => rfl
  | cons b bits ih => rw [List.foldl_cons, refreshBit_withMemory, ih, List.foldl_cons]

theorem refresh_withMemory : (p.withMemory m).refresh = p.refresh.withMemory m :=
  foldl_refreshBit_withMemory { p with valuation := p.valuation.takeDirty.2 } m
    p.valuation.takeDirty.1

theorem contradiction_withMemory (c : Clause) :
    (p.withMemory m).contradiction c = (p.contradiction c).map id (·.withMemory m) := by
  unfold contradiction
  split <;> rfl

theorem keepColumnEquations_withMemory (s : Site) (bits : List Bit) (relations : List Relation)
    (antecedent : Clause) : (p.withMemory m).keepColumnEquations s bits relations antecedent =
      (p.keepColumnEquations s bits relations antecedent).withMemory m := by
  unfold keepColumnEquations
  rw [equationSlot?_withMemory]
  cases p.equationSlot? <;> rfl

theorem keepSumEquations_withMemory (sum : Nat) (words : List Nat)
    (relations : List Sum.WordRelation) (antecedent : Clause) :
    (p.withMemory m).keepSumEquations sum words relations antecedent =
      (p.keepSumEquations sum words relations antecedent).withMemory m := by
  unfold keepSumEquations
  rw [equationSlot?_withMemory]
  cases p.equationSlot? <;> rfl

theorem assign_withMemory (l : Literal) (isFixed : Bool) :
    (p.withMemory m).assign l isFixed = (p.assign l isFixed).withMemory m := by
  unfold assign
  rw [isBuilt_withMemory, topology_withMemory]
  split <;> rfl

theorem openLevel_withMemory : (p.withMemory m).openLevel = p.openLevel.withMemory m := by
  unfold openLevel
  dsimp only
  rw [status_withMemory]
  split <;> rfl

theorem backtrack_withMemory (level : Nat) :
    (p.withMemory m).backtrack level = (p.backtrack level).withMemory m := by
  have hrefresh := refresh_withMemory { p with
    trail := (p.trail.popTo level).2
    valuation := (p.trail.popTo level).1.foldl
      (fun v (l : Literal) => (v.unassign p.topology.tracked l.atom).2) p.valuation } m
  exact congrArg (fun q : Propagator ρ => { q with
    status := .idle
    stream := none
    reasons := q.reasons.filter fun l c =>
      (q.literal? l).isSome && c.all fun k => (q.literal? k).isSome
    counters.backtracks := q.counters.backtracks + 1 }) hrefresh

theorem giveBatch_withMemory (batch : List Literal) :
    (p.withMemory m).giveBatch batch = (p.giveBatch batch).map id (·.withMemory m) := by
  unfold giveBatch
  rw [literal?_withMemory]
  split <;> rfl

theorem giveReason_withMemory (s : ReasonStream) :
    (p.withMemory m).giveReason s = (p.giveReason s).map id (·.withMemory m) := by
  unfold giveReason
  split <;> rfl

theorem reason_withMemory (l : Literal) :
    (p.withMemory m).reason l = (p.reason l).map (Prod.map id (·.withMemory m)) := by
  unfold reason
  rw [stream_withMemory, reasons_withMemory]
  split
  · exact congrArg Except.ok (giveReason_withMemory p m _)
  · split
    · rfl
    · exact congrArg Except.ok (giveReason_withMemory { p with
        counters.reasons := p.counters.reasons + 1 } m _)

def concludeCheck (conflict : Option Clause) : Option Clause × Propagator ρ :=
  match conflict with
  | none | some [] => (none, p)
  | some c => (some c, { p with counters.twoBitConflicts := p.counters.twoBitConflicts + 1 })

theorem checkTwoBit_eq : p.checkTwoBit =
    if p.config.twoBit = .off ∨ p.encoding.differenceSlot?.isNone then (none, p)
    else { p with counters.twoBitChecks := p.counters.twoBitChecks + 1 }.concludeCheck
      (p.config.twoBit.conflict? p.liveEquations) := rfl

theorem checkTwoBit_withMemory :
    (p.withMemory m).checkTwoBit = p.checkTwoBit.map id (·.withMemory m) := by
  rw [checkTwoBit_eq, checkTwoBit_eq,
    show (p.withMemory m).config.twoBit = p.config.twoBit from rfl,
    show (p.withMemory m).encoding = p.encoding from rfl, liveEquations_withMemory]
  split
  · rfl
  · unfold concludeCheck
    split <;> rfl

theorem clause_withMemory : (p.withMemory m).clause = p.clause.map id (·.withMemory m) := by
  unfold clause
  rw [status_withMemory]
  split
  · split <;> rfl
  · rfl

theorem decideBits_withMemory [Coin ρ] (bits : List Bit) (source : ρ) :
    (p.withMemory m).decideBits bits source = p.decideBits bits source := by
  induction bits generalizing source with
  | nil => rfl
  | cons b bits ih =>
    unfold decideBits
    rw [condition_withMemory, show (p.withMemory m).firstOpen? b = p.firstOpen? b from rfl]
    simp only [ih]

theorem findDecision_withMemory [Coin ρ] :
    (p.withMemory m).findDecision = p.findDecision.map id (·.withMemory m) := by
  unfold findDecision
  rw [topology_withMemory]
  split
  · rfl
  · next order _ =>
    rw [decideBits_withMemory, show (p.withMemory m).messageBits order = p.messageBits order from rfl,
      show (p.withMemory m).registerBits order = p.registerBits order from rfl,
      show (p.withMemory m).source = p.source from rfl,
      show (p.withMemory m).openEquationAtom? = p.openEquationAtom? from rfl]
    split
    · rfl
    · split <;> rfl

theorem decide_withMemory [Coin ρ] :
    (p.withMemory m).decide = p.decide.map id (·.withMemory m) := by
  unfold Propagator.decide
  rw [isBuilt_withMemory, status_withMemory,
    show (p.withMemory m).config.branching = p.config.branching from rfl]
  split
  · rw [refresh_withMemory, findDecision_withMemory]
    cases p.refresh.findDecision with | mk l q => cases l <;> rfl
  · rfl

def countQuery : Propagator ρ := { p with queries := p.queries + 1 }

theorem hasClause_of_idle {p : Propagator ρ} (hidle : p.status = .idle) (hb : p.isBuilt = true) :
    p.hasClause =
      if p.countQuery.queries % max p.config.twoBitInterval 1 ≠ 0 then (false, p.countQuery)
      else match p.countQuery.refresh.checkTwoBit with
        | (some c, q) => (true, { q with status := .blocking c 0 })
        | (none, q) => (false, q) := by
  unfold hasClause
  split
  · next hstatus => cases hstatus.symm.trans hidle
  · rw [if_pos hb]
    rfl
  · next hne => exact (hne hidle).elim

theorem hasClause_withMemory :
    (p.withMemory m).hasClause = p.hasClause.map id (·.withMemory m) := by
  cases hb : p.isBuilt with
  | false =>
    unfold hasClause
    rw [isBuilt_withMemory, hb, status_withMemory]
    split <;> rfl
  | true =>
    cases hs : p.status with
    | idle =>
      have hcheck : (p.withMemory m).countQuery.refresh.checkTwoBit =
          p.countQuery.refresh.checkTwoBit.map id (·.withMemory m) := by
        rw [← checkTwoBit_withMemory, ← refresh_withMemory]
        rfl
      rw [hasClause_of_idle hs hb, hasClause_of_idle (p := p.withMemory m) hs hb, hcheck,
        show (p.withMemory m).countQuery.queries = p.countQuery.queries from rfl,
        show (p.withMemory m).config.twoBitInterval = p.config.twoBitInterval from rfl]
      split
      · rfl
      · cases p.countQuery.refresh.checkTwoBit with
        | mk c q => cases c <;> rfl
    | _ =>
      unfold hasClause
      rw [status_withMemory, hs]
      rfl

theorem answer_withMemory [Coin ρ] {c : Call} (hc : c ≠ .propagate) :
    (p.withMemory m).answer c = (p.answer c).map (Prod.map id (·.withMemory m)) := by
  cases c with
  | assign l isFixed =>
    simp only [answer, assign_withMemory]
    rfl
  | openLevel =>
    simp only [answer, openLevel_withMemory]
    rfl
  | backtrack level =>
    simp only [answer, backtrack_withMemory]
    rfl
  | model ls => rfl
  | decide =>
    simp only [answer, decide_withMemory]
    rfl
  | propagate => exact (hc rfl).elim
  | reason l =>
    simp only [answer, reason_withMemory]
    cases p.reason l <;> rfl
  | hasClause =>
    simp only [answer, hasClause_withMemory]
    rfl
  | clause =>
    simp only [answer, clause_withMemory]
    rfl

theorem configure_withMemory (name : String) (value : Int) :
    (p.withMemory m).configure name value =
      (p.configure name value).map (Prod.map id (·.withMemory m)) := by
  simp only [configure, topology_withMemory, bind, Except.bind]
  cases p.topology.enter name value <;> rfl

-- ---------------------------------------------------------------------------
-- Look-ups
-- ---------------------------------------------------------------------------

def columnKey (o : Operation) (column : Nat) : ColumnKey :=
  ⟨o.gate, (p.topology.inputBits o column).map p.condition,
    (p.topology.outputBits o column).map p.condition⟩

def concludeColumn (s : Site) (o : Operation) (outcome : Option Column.Outcome) :
    Finding × Propagator ρ :=
  let inputBits := p.topology.inputBits o s.column
  let outputBits := p.topology.outputBits o s.column
  let antecedent := p.antecedent (inputBits ++ outputBits)
  match outcome with
  | none => p.contradiction antecedent
  | some outcome =>
    (withReasons (p.columnLiterals o inputBits outputBits outcome) antecedent,
      p.keepColumnEquations s (inputBits ++ outputBits) outcome.relations antecedent)

theorem propagateColumn_eq {s : Site} {o : Operation}
    (ho : p.topology.operations[s.operation]? = some o) :
    p.propagateColumn s =
      let found := p.columnCache.getOrInsert (p.columnKey o s.column) ColumnKey.propagate
      ({ p with
        columnCache := found.2
        counters.columns := p.counters.columns + 1 } : Propagator ρ).concludeColumn s o found.1 := by
  unfold propagateColumn
  dsimp only
  rw [ho]
  rfl

theorem concludeColumn_withMemory (s : Site) (o : Operation) (outcome : Option Column.Outcome) :
    (p.withMemory m).concludeColumn s o outcome =
      (p.concludeColumn s o outcome).map id (·.withMemory m) := by
  cases outcome with
  | none => exact contradiction_withMemory p m _
  | some outcome =>
    exact congrArg (Prod.mk _) (keepColumnEquations_withMemory p m s _ outcome.relations _)

def sumKey (s : SumEquation) : SumKey :=
  ⟨s.role, (s.positive.map p.wordConditions ++ s.negative.map p.wordConditions).flatten⟩

def sumDerivation (s : SumEquation) : Sum.Derivation :=
  Sum.propagate (s.positive.map p.wordConditions) (s.negative.map p.wordConditions)

def concludeSum (sum : Nat) (s : SumEquation) (derivation : Sum.Derivation) :
    Finding × Propagator ρ :=
  let antecedent := p.antecedent (s.words.flatMap p.topology.wordBits)
  match derivation with
  | .skipped => (.nothing, p)
  | .contradiction => p.contradiction antecedent
  | .refined refined relations =>
    let q := p.keepSumEquations sum s.words relations antecedent
    match p.firstForced (refinedBits s.words refined) with
    | [] => (.nothing, q)
    | ls => (withReasons ls antecedent, { q with
        counters.derivations := q.counters.derivations + 1 })

theorem firstForced_keepSumEquations (sum : Nat) (words : List Nat)
    (relations : List Sum.WordRelation) (antecedent : Clause) (bits : List (Bit × Condition)) :
    (p.keepSumEquations sum words relations antecedent).firstForced bits = p.firstForced bits := by
  have hforced (b : Bit) (c : Condition) :
      (p.keepSumEquations sum words relations antecedent).forced b c = p.forced b c := by
    unfold keepSumEquations
    split <;> rfl
  induction bits with
  | nil => rfl
  | cons x bits ih =>
    unfold firstForced
    rw [hforced, ih]

theorem propagateSum_eq {sum : Nat} {s : SumEquation} (hs : p.topology.sums[sum]? = some s) :
    p.propagateSum sum =
      let found := p.sumCache.getOrInsert (p.sumKey s) fun _ => p.sumDerivation s
      ({ p with sumCache := found.2 } : Propagator ρ).concludeSum sum s found.1 := by
  unfold propagateSum
  rw [hs]
  dsimp only [concludeSum]
  simp only [firstForced_keepSumEquations]
  rfl

theorem firstForced_withMemory (bits : List (Bit × Condition)) :
    (p.withMemory m).firstForced bits = p.firstForced bits := by
  induction bits with
  | nil => rfl
  | cons x bits ih =>
    unfold firstForced
    rw [show (p.withMemory m).forced x.1 x.2 = p.forced x.1 x.2 from rfl, ih]

theorem concludeSum_withMemory (sum : Nat) (s : SumEquation) (derivation : Sum.Derivation) :
    (p.withMemory m).concludeSum sum s derivation =
      (p.concludeSum sum s derivation).map id (·.withMemory m) := by
  cases derivation with
  | skipped => rfl
  | contradiction => exact contradiction_withMemory p m _
  | refined refined relations =>
    unfold concludeSum
    dsimp only
    rw [firstForced_withMemory, keepSumEquations_withMemory, topology_withMemory,
      show (p.withMemory m).antecedent = p.antecedent from rfl]
    split <;> rfl

end

end Propagator

end ShaDiff
