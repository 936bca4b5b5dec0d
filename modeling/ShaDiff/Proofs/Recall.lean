import ShaDiff.Proofs.Propagator.Frame
import ShaDiff.Proofs.Propagator.Memory
import ShaDiff.Proofs.Soundness
import ShaDiff.Proofs.Transcript

/-!
# What is remembered does not show

A remembered result is as good as a new one if it is what propagation would find again. Of a
column nothing but relations may be lacking, and these only where no equations are kept; of
a sum nothing. Then a propagator cannot be told from one with another memory: both find the
same, and so they answer every request alike (`Twins`).
-/

namespace ShaDiff

def Column.Outcome.bare (outcome : Outcome) : Outcome := { outcome with relations := [] }

/-- Whether a result of a column is that of propagation, up to its relations where none are
asked for. -/
def ColumnKey.Recalls (related : Prop) (k : ColumnKey) (result : Option Column.Outcome) : Prop :=
  result.map Column.Outcome.bare = k.propagate.map Column.Outcome.bare ∧
    (related → result = k.propagate)

theorem ColumnKey.recalls_propagate (related : Prop) (k : ColumnKey) :
    k.Recalls related k.propagate := ⟨rfl, fun _ => rfl⟩

namespace Propagator

variable {ρ : Type} {p q : Propagator ρ}

structure Recalls (p : Propagator ρ) : Prop where
  columns : p.columnCache.All (ColumnKey.Recalls (p.equationSlot? ≠ none))
  sums : p.sumCache.All (SumKey.Answers p.topology.wordSize)
  shaped : p.topology.Shaped

theorem Recalls.of_eq (h : p.Recalls) (hmemory : q.memory = p.memory)
    (hconfig : q.config.twoBit = p.config.twoBit) (htopology : q.topology = p.topology) :
    q.Recalls := by
  obtain ⟨-, hcolumns, hsums⟩ := Memory.mk.inj hmemory
  have hslot : q.equationSlot? = p.equationSlot? := by
    simp only [equationSlot?, encoding, hconfig, htopology]
  exact ⟨hcolumns ▸ hslot ▸ h.columns, hsums ▸ htopology ▸ h.sums, htopology ▸ h.shaped⟩

-- ---------------------------------------------------------------------------
-- Look-ups
-- ---------------------------------------------------------------------------

/-- Relations do not matter where no equations are kept. -/
theorem concludeColumn_of_recalls {k : ColumnKey} {outcome : Option Column.Outcome}
    (h : k.Recalls (p.equationSlot? ≠ none) outcome) (s : Site) (o : Operation) :
    p.concludeColumn s o outcome = p.concludeColumn s o k.propagate := by
  obtain ⟨hbare, hrelated⟩ := h
  cases hslot : p.equationSlot? with
  | some slot => rw [hrelated (by rw [hslot]; exact nofun)]
  | none =>
    cases outcome with
    | none =>
      rw [Option.map_none, eq_comm, Option.map_eq_none_iff] at hbare
      rw [hbare]
    | some outcome =>
      rw [Option.map_some, eq_comm, Option.map_eq_some_iff] at hbare
      obtain ⟨outcome', houtcome', hbare⟩ := hbare
      obtain ⟨hinputs, houtputs, -⟩ := Column.Outcome.mk.inj hbare
      rw [houtcome']
      simp only [concludeColumn, columnLiterals, keepColumnEquations, hslot, hinputs, houtputs]

theorem Recalls.propagateColumn_eq (h : p.Recalls) {s : Site} {o : Operation}
    (ho : p.topology.operations[s.operation]? = some o) : ∃ columnCache : ColumnCache,
      columnCache.All (ColumnKey.Recalls (p.equationSlot? ≠ none)) ∧
      p.propagateColumn s = ({ p with
        columnCache
        counters.columns := p.counters.columns + 1 } : Propagator ρ).concludeColumn s o
          (p.columnKey o s.column).propagate := by
  obtain ⟨hfound, hcache⟩ := h.columns.getOrInsert (k := p.columnKey o s.column)
    (f := ColumnKey.propagate) (ColumnKey.recalls_propagate _ _)
  refine ⟨_, hcache, ?_⟩
  rw [Propagator.propagateColumn_eq p ho]
  exact concludeColumn_of_recalls (p := { p with
    columnCache := _
    counters.columns := p.counters.columns + 1 }) hfound s o

theorem Recalls.propagateSum_eq (h : p.Recalls) {sum : Nat} {s : SumEquation}
    (hs : p.topology.sums[sum]? = some s) : ∃ sumCache : SumCache,
      sumCache.All (SumKey.Answers p.topology.wordSize) ∧
      p.propagateSum sum =
        ({ p with sumCache } : Propagator ρ).concludeSum sum s (p.sumDerivation s) := by
  have hshape := sumShape_of_shaped h.shaped (Array.mem_of_getElem? hs)
  obtain ⟨hfound, hcache⟩ := h.sums.getOrInsert (k := p.sumKey s)
    (f := fun _ => p.sumDerivation s) (SumKey.answers_propagate hshape)
  refine ⟨_, hcache, ?_⟩
  rw [Propagator.propagateSum_eq p hs]
  exact congrArg (Propagator.concludeSum _ sum s) (hfound _ _ hshape rfl)

-- ---------------------------------------------------------------------------
-- Twins
-- ---------------------------------------------------------------------------

/-- Whether two propagators are alike but for memories that both recall. -/
structure Twins (p q : Propagator ρ) : Prop where
  alike : ∃ m, q = p.withMemory m
  left : p.Recalls
  right : q.Recalls

def Agree {α : Type} (x y : α × Propagator ρ) : Prop := x.1 = y.1 ∧ x.2.Twins y.2

theorem Twins.refl (h : p.Recalls) : p.Twins p := ⟨⟨p.memory, rfl⟩, h, h⟩

theorem Twins.agree {α : Type} (h : p.Twins q) {f : Propagator ρ → α × Propagator ρ}
    (hf : ∀ p m, f (p.withMemory m) = (f p).map id (·.withMemory m))
    (hasked : ∀ p : Propagator ρ, p.Asked (f p).2) : Agree (f p) (f q) := by
  obtain ⟨⟨m, rfl⟩, hp, hq⟩ := h
  have hrecalls (p : Propagator ρ) (hp : p.Recalls) : (f p).2.Recalls := by
    have hmemory := congrArg (·.2.memory) (hf p p.memory)
    exact hp.of_eq hmemory (congrArg Config.twoBit (hasked p).config) (hasked p).topology
  exact ⟨(congrArg Prod.fst (hf p m)).symm, ⟨m, congrArg Prod.snd (hf p m)⟩, hrecalls p hp,
    hrecalls _ hq⟩

theorem Twins.setMarks (h : p.Twins q) (marks : Marks) :
    ({ p with marks } : Propagator ρ).Twins { q with marks } := by
  obtain ⟨⟨m, rfl⟩, hp, hq⟩ := h
  exact ⟨⟨m, rfl⟩, hp.of_eq rfl rfl rfl, hq.of_eq rfl rfl rfl⟩

theorem kept_concludeColumn (p : Propagator ρ) (s : Site) (o : Operation)
    (outcome : Option Column.Outcome) : p.Kept (p.concludeColumn s o outcome).2 := by
  cases outcome with
  | none => exact kept_contradiction p _
  | some outcome => exact kept_keepColumnEquations p s _ _ _

theorem kept_concludeSum (p : Propagator ρ) (sum : Nat) (s : SumEquation)
    (derivation : Sum.Derivation) : p.Kept (p.concludeSum sum s derivation).2 := by
  cases derivation with
  | skipped => exact .refl p
  | contradiction => exact kept_contradiction p _
  | refined refined relations =>
    have hequations := kept_keepSumEquations p sum s.words relations
      (p.antecedent (s.words.flatMap p.topology.wordBits))
    unfold concludeSum
    dsimp only
    split
    · exact hequations
    · exact hequations.trans ⟨rfl, rfl, rfl, rfl, rfl, rfl, rfl⟩

theorem Twins.propagateColumn (h : p.Twins q) (s : Site) :
    Agree (p.propagateColumn s) (q.propagateColumn s) := by
  obtain ⟨⟨m, rfl⟩, hp, hq⟩ := h
  cases ho : p.topology.operations[s.operation]? with
  | none =>
    have hnone (p : Propagator ρ) (ho : p.topology.operations[s.operation]? = none) :
        p.propagateColumn s =
          (.nothing, { p with counters.columns := p.counters.columns + 1 }) := by
      unfold Propagator.propagateColumn
      dsimp only
      rw [ho]
    rw [hnone p ho, hnone (p.withMemory m) ho]
    exact ⟨rfl, ⟨m, rfl⟩, hp.of_eq rfl rfl rfl, hq.of_eq rfl rfl rfl⟩
  | some o =>
    obtain ⟨columnCache, hcache, heq⟩ := hp.propagateColumn_eq ho
    obtain ⟨columnCache', hcache', heq'⟩ := hq.propagateColumn_eq ho
    rw [heq, heq']
    refine Twins.agree ⟨⟨⟨m.limit, columnCache', m.sums⟩, rfl⟩, ?_, ?_⟩
      (fun p m => concludeColumn_withMemory p m s o _) fun p => (kept_concludeColumn p s o _).asked
    · exact ⟨hcache, hp.sums, hp.shaped⟩
    · exact ⟨hcache', hq.sums, hq.shaped⟩

theorem Twins.propagateSum (h : p.Twins q) (sum : Nat) :
    Agree (p.propagateSum sum) (q.propagateSum sum) := by
  obtain ⟨⟨m, rfl⟩, hp, hq⟩ := h
  cases hs : p.topology.sums[sum]? with
  | none =>
    have hnone (p : Propagator ρ) (hs : p.topology.sums[sum]? = none) :
        p.propagateSum sum = (.nothing, p) := by
      unfold Propagator.propagateSum
      rw [hs]
    rw [hnone p hs, hnone (p.withMemory m) hs]
    exact ⟨rfl, ⟨m, rfl⟩, hp, hq⟩
  | some s =>
    obtain ⟨sumCache, hcache, heq⟩ := hp.propagateSum_eq hs
    obtain ⟨sumCache', hcache', heq'⟩ := hq.propagateSum_eq hs
    rw [heq, heq']
    refine Twins.agree ⟨⟨⟨m.limit, m.columns, sumCache'⟩, rfl⟩, ?_, ?_⟩
      (fun p m => concludeSum_withMemory p m sum s _) fun p => (kept_concludeSum p sum s _).asked
    · exact ⟨hp.columns, hcache, hp.shaped⟩
    · exact ⟨hq.columns, hcache', hq.shaped⟩

theorem Twins.marks (h : p.Twins q) : q.marks = p.marks := by
  obtain ⟨⟨m, rfl⟩, -, -⟩ := h
  rfl

theorem Agree.next {x y : Finding × Propagator ρ} (h : Agree x y)
    {f : Propagator ρ → Finding × Propagator ρ}
    (hf : ∀ p q : Propagator ρ, p.Twins q → Agree (f p) (f q)) :
    Agree (match (motive := _ → Finding × Propagator ρ) x with
        | (.nothing, p) => f p
        | found => found)
      (match (motive := _ → Finding × Propagator ρ) y with
        | (.nothing, q) => f q
        | found => found) := by
  obtain ⟨found, p⟩ := x
  obtain ⟨found', q⟩ := y
  obtain ⟨hfound, htwins⟩ := h
  obtain rfl : found = found' := hfound
  cases found with
  | nothing => exact hf p q htwins
  | _ => exact ⟨rfl, htwins⟩

theorem Twins.propagateColumns (h : p.Twins q) (turns : Nat) :
    Agree (propagateColumns turns p) (propagateColumns turns q) := by
  induction turns generalizing p q with
  | zero => exact ⟨rfl, h⟩
  | succ turns ih =>
    unfold Propagator.propagateColumns
    rw [h.marks]
    split
    · exact ⟨rfl, h.setMarks _⟩
    · next s marks _ => exact ((h.setMarks marks).propagateColumn s).next fun p q h => ih h

theorem Twins.propagateSums (h : p.Twins q) (turns : Nat) :
    Agree (propagateSums turns p) (propagateSums turns q) := by
  induction turns generalizing p q with
  | zero => exact ⟨rfl, h⟩
  | succ turns ih =>
    unfold Propagator.propagateSums
    rw [h.marks]
    split
    · exact ⟨rfl, h⟩
    · next sum marks _ => exact ((h.setMarks marks).propagateSum sum).next fun p q h => ih h

theorem Twins.findPropagation (h : p.Twins q) : Agree p.findPropagation q.findPropagation := by
  unfold Propagator.findPropagation
  rw [h.marks]
  refine (h.propagateColumns _).next fun p q h => ?_
  obtain ⟨⟨m, rfl⟩, hp, hq⟩ := id h
  rw [show (p.withMemory m).config.wordwise = p.config.wordwise from rfl, marks_withMemory]
  split
  · exact h.propagateSums _
  · exact ⟨rfl, h.setMarks _⟩

theorem Twins.refresh (h : p.Twins q) : p.refresh.Twins q.refresh :=
  (h.agree (f := fun p => ((), p.refresh)) (fun p m => congrArg _ (refresh_withMemory p m))
    asked_refresh).2

theorem Twins.giveBatch (h : p.Twins q) (batch : List Literal) :
    Agree (p.giveBatch batch) (q.giveBatch batch) :=
  h.agree (fun p m => giveBatch_withMemory p m batch) fun p => asked_giveBatch p batch

theorem Twins.findBatch (h : p.Twins q) : Agree p.findBatch q.findBatch := by
  have hfound := h.refresh.findPropagation
  unfold Propagator.findBatch
  revert hfound
  generalize p.refresh.findPropagation = x
  generalize q.refresh.findPropagation = y
  rintro ⟨hfound, ⟨m, hm⟩, hp, hq⟩
  obtain ⟨found, p⟩ := x
  obtain ⟨found', q⟩ := y
  obtain rfl : found = found' := hfound
  obtain rfl : q = p.withMemory m := hm
  cases found with
  | nothing => exact ⟨rfl, ⟨m, rfl⟩, hp, hq⟩
  | conflict c => exact ⟨rfl, ⟨m, rfl⟩, hp.of_eq rfl rfl rfl, hq.of_eq rfl rfl rfl⟩
  | literals ls =>
    refine Twins.giveBatch ?_ _
    exact ⟨⟨m, rfl⟩, hp.of_eq rfl rfl rfl, hq.of_eq rfl rfl rfl⟩

theorem Twins.propagate (h : p.Twins q) : Agree p.propagate q.propagate := by
  obtain ⟨⟨m, rfl⟩, -, -⟩ := id h
  unfold Propagator.propagate
  rw [isBuilt_withMemory, status_withMemory]
  split
  · split
    · next batch _ =>
      have hgiven := h.giveBatch batch
      revert hgiven
      generalize p.giveBatch batch = x
      generalize (p.withMemory m).giveBatch batch = y
      rintro ⟨hgiven, htwins⟩
      obtain ⟨given, p⟩ := x
      obtain ⟨given', q⟩ := y
      obtain rfl : given = given' := hgiven
      cases given with
      | none => exact htwins.findBatch
      | some l => exact ⟨rfl, htwins⟩
    · exact h.findBatch
    · exact ⟨rfl, h⟩
  · exact ⟨rfl, h⟩

-- ---------------------------------------------------------------------------
-- Transcripts of twins
-- ---------------------------------------------------------------------------

theorem frame_answer [Coin ρ] {c : Call} {a : Answer} (h : p.answer c = .ok (a, q)) :
    q.config = p.config ∧ q.topology = p.topology := by
  cases hc : c.isQuestion with
  | true =>
    have hasked := asked_answer hc h
    exact ⟨hasked.config, hasked.topology⟩
  | false =>
    cases c with
    | assign l isFixed =>
      obtain ⟨-, rfl⟩ := Prod.mk.inj (Except.ok.inj h)
      unfold assign
      split <;> exact ⟨rfl, rfl⟩
    | openLevel =>
      obtain ⟨-, rfl⟩ := Prod.mk.inj (Except.ok.inj h)
      rw [openLevel_frame]
      exact ⟨rfl, rfl⟩
    | backtrack level =>
      obtain ⟨-, rfl⟩ := Prod.mk.inj (Except.ok.inj h)
      have hreturned := returned_backtrack p level
      exact ⟨hreturned.config, hreturned.topology⟩
    | _ => cases hc

theorem Twins.concur {α : Type} (h : p.Twins q)
    {f : Propagator ρ → Except Breach (α × Propagator ρ)}
    (hf : ∀ p m, f (p.withMemory m) = (f p).map (Prod.map id (·.withMemory m)))
    (hrecalls : ∀ (p : Propagator ρ) a q, f p = .ok (a, q) → p.Recalls → q.memory = p.memory →
      q.Recalls) : Concur Agree (f p) (f q) := by
  obtain ⟨⟨m, rfl⟩, hp, hq⟩ := h
  rw [hf]
  cases hfp : f p with
  | error breach => exact .error breach
  | ok x =>
    obtain ⟨a, p'⟩ := x
    refine .ok ⟨rfl, ⟨m, rfl⟩, hrecalls p a p' hfp hp ?_, hrecalls _ a _ ?_ hq rfl⟩
    · have heq := hf p p.memory
      rw [withMemory_memory, hfp] at heq
      have heq : p' = p'.withMemory p.memory := (Prod.mk.inj (Except.ok.inj heq)).2
      rw [heq, memory_withMemory]
    · rw [hf, hfp]
      rfl

theorem Twins.answer [Coin ρ] (h : p.Twins q) (c : Call) :
    Concur Agree (p.answer c) (q.answer c) := by
  by_cases hc : c = .propagate
  · subst hc
    obtain ⟨hl, htwins⟩ := h.propagate
    exact .ok ⟨congrArg Answer.literal hl, htwins⟩
  · refine h.concur (f := fun p => p.answer c) (fun p m => answer_withMemory p m hc)
      fun p a q ha hp hmemory => ?_
    obtain ⟨hconfig, htopology⟩ := frame_answer ha
    exact hp.of_eq hmemory (congrArg Config.twoBit hconfig) htopology

theorem Recalls.configure (h : p.Recalls) {name : String} {value : Int}
    {result : Except Fault Unit} (hc : p.configure name value = .ok (result, q)) : q.Recalls := by
  simp only [Propagator.configure, bind, Except.bind] at hc
  split at hc
  · cases hc
  · next entered henter =>
    obtain ⟨hshaped, hencoding, hsize⟩ := h.shaped.enter henter
    simp only [pure, Except.pure, Except.ok.injEq, Prod.mk.injEq] at hc
    obtain ⟨-, rfl⟩ := hc
    refine ⟨?_, ?_, hshaped⟩
    · simpa only [equationSlot?, encoding, hencoding] using h.columns
    · simpa only [hsize] using h.sums

theorem Twins.reply [Coin ρ] (h : p.Twins q) {r : Request} (hr : r.isRules = false) :
    Concur Agree (p.reply r) (q.reply r) := by
  cases r with
  | entry name value =>
    have hconfigured := h.concur (f := fun p => p.configure name value)
      (fun p m => configure_withMemory p m name value) fun p result q hc hp _ => hp.configure hc
    exact hconfigured.map fun x y hxy => ⟨congrArg Reply.entered hxy.1, hxy.2⟩
  | rules => cases hr
  | call c => exact (h.answer c).map fun x y hxy => ⟨congrArg Reply.answered hxy.1, hxy.2⟩

theorem Twins.replyAll [Coin ρ] (h : p.Twins q) {requests : List Request}
    (hr : ∀ r ∈ requests, r.isRules = false) :
    Concur Agree (p.replyAll requests) (q.replyAll requests) := by
  induction requests generalizing p q with
  | nil => exact .ok ⟨rfl, h⟩
  | cons r requests ih =>
    obtain ⟨hr, hrest⟩ := List.forall_mem_cons.mp hr
    unfold Propagator.replyAll
    refine (h.reply hr).bind fun x y hxy => (ih hxy.2 hrest).bind fun x' y' hxy' => ?_
    exact .ok ⟨congrArg₂ List.cons hxy.1 hxy'.1, hxy'.2⟩

-- ---------------------------------------------------------------------------
-- The limit of the caches
-- ---------------------------------------------------------------------------

/-- Whether nothing the host could see or come to see tells two propagators apart. -/
structure Alike (p q : Propagator ρ) : Prop where
  topology : q.topology = p.topology
  status : q.status = p.status
  trail : q.trail = p.trail
  condition : ∀ b, q.condition b = p.condition b
  valuation : q.valuation = p.valuation
  reasons : q.reasons = p.reasons
  liveEquations : q.liveEquations = p.liveEquations

theorem Twins.observed (h : p.Twins q) : p.Alike q := by
  obtain ⟨⟨m, rfl⟩, -, -⟩ := h
  exact ⟨rfl, rfl, rfl, fun _ => rfl, rfl, rfl, rfl⟩

theorem recalls_new (config : Config) (source : ρ) : (new config source).Recalls where
  columns := Cache.all_empty _
  sums := Cache.all_empty _
  shaped _ hs := nomatch hs

/-- Sums with one key have one derivation, whatever the conditions are that made it. -/
theorem sumDerivation_of_sumKey (h : p.topology.Shaped) {s s' : SumEquation}
    (hs : s ∈ p.topology.sums) (hs' : s' ∈ p.topology.sums) {c c' : Characteristic}
    (hkey : { p with characteristic := c }.sumKey s = { p with characteristic := c' }.sumKey s') :
    { p with characteristic := c }.sumDerivation s =
      { p with characteristic := c' }.sumDerivation s' := by
  obtain ⟨hrole, hconditions⟩ := SumKey.mk.inj hkey
  have hshape := sumShape_of_shaped (p := { p with characteristic := c }) h hs
  have hshape' := sumShape_of_shaped (p := { p with characteristic := c' }) h hs'
  rw [← hrole] at hshape'
  exact (SumKey.answers_propagate hshape' _ _ hshape hconditions).symm

variable [Coin ρ]

/-- How much may be remembered makes no difference to any run without rules. All requests
have the same replies, so after each of them all that is seen is the same. A sum is
remembered under a key that no other derivation has. -/
theorem replies_of_cacheLimit (config : Config) (limit : Nat) (source : ρ)
    {requests : List Request} (hr : ∀ r ∈ requests, r.isRules = false) :
    Concur (fun x y => x.1 = y.1 ∧ x.2.Alike y.2) ((new config source).replyAll requests)
        ((new { config with cacheLimit := limit } source).replyAll requests) ∧
      ∀ replies q, (new config source).replyAll requests = .ok (replies, q) →
        ∀ s ∈ q.topology.sums, ∀ s' ∈ q.topology.sums, ∀ c c' : Characteristic,
          { q with characteristic := c }.sumKey s = { q with characteristic := c' }.sumKey s' →
          { q with characteristic := c }.sumDerivation s =
            { q with characteristic := c' }.sumDerivation s' := by
  have hnew := recalls_new config source
  have htwins : (new config source).Twins (new { config with cacheLimit := limit } source) :=
    ⟨⟨⟨limit, .empty limit, .empty limit⟩, rfl⟩, hnew, recalls_new _ _⟩
  refine ⟨(htwins.replyAll hr).mono fun x y hxy => ⟨hxy.1, hxy.2.observed⟩, ?_⟩
  intro replies q hq s hs s' hs' c c' hkey
  have hreached := (Twins.refl hnew).replyAll hr
  rw [hq] at hreached
  obtain ⟨y, -, hagree⟩ := hreached.of_ok
  exact sumDerivation_of_sumKey hagree.2.left.shaped hs hs' hkey

/-- With one result remembered at a time the cache is cleared for the second column. -/
theorem replies_of_cacheLimit_sample :
    let requests := sampleRequests [.assign ⟨3, false⟩ false, .assign ⟨5, false⟩ false, .propagate]
    ∃ (replies : List Reply) (q r : Propagator Pcg),
      (new { encoding := .li2024, wordSize := 1 } (.ofSeed 0)).replyAll requests =
        .ok (replies, q) ∧
      (new { encoding := .li2024, wordSize := 1, cacheLimit := 1 } (.ofSeed 0)).replyAll
        requests = .ok (replies, r) ∧
      r.columnCache.clears = 1 ∧ q.Alike r := by
  intro requests
  have hr : ∀ r ∈ requests, r.isRules = false := by decide +kernel
  have hcleared : ((new { encoding := .li2024, wordSize := 1, cacheLimit := 1 }
      (Pcg.ofSeed 0)).replyAll requests).map (·.2.columnCache.clears) = .ok 1 := by
    decide +kernel
  obtain ⟨hconcur, -⟩ := replies_of_cacheLimit { encoding := .li2024, wordSize := 1 } 1
    (Pcg.ofSeed 0) hr
  revert hcleared hconcur
  generalize (new { encoding := .li2024, wordSize := 1 } (Pcg.ofSeed 0)).replyAll requests = x
  generalize (new { encoding := .li2024, wordSize := 1, cacheLimit := 1 }
    (Pcg.ofSeed 0)).replyAll requests = y
  intro hcleared hconcur
  cases hconcur with
  | ok hxy => exact ⟨_, _, _, rfl, hxy.1 ▸ rfl, Except.ok.inj hcleared, hxy.2⟩
  | error e => cases hcleared

end Propagator

end ShaDiff
