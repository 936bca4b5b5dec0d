import Mathlib.Data.List.Dedup
import Mathlib.Data.List.Induction
import ShaDiff.Proofs.Marks

/-!
# What is pending

A mark is pending from when it is made until it is taken or cleared. The marked columns are the
pending ones, the queue holds a place for each, and the last of its places is the one of its
pending mark. An older place is of a mark that was taken out of turn, and stands for the
pending mark all the same.
-/

namespace ShaDiff

inductive Change (α : Type) where
  | marked (a : α)
  | taken (a : α)
  | cleared

namespace Change

variable {α : Type} [DecidableEq α] {c : Change α} {h x y : List (Change α)} {a b : α}

/-- What was marked and not taken since, in the order of the pending marks. The latest change
is the first of a history. -/
def pending : List (Change α) → List α
  | [] => []
  | .marked a :: h => if a ∈ pending h then pending h else pending h ++ [a]
  | .taken a :: h => (pending h).erase a
  | .cleared :: _ => []

theorem nodup_pending (h : List (Change α)) : (pending h).Nodup := by
  fun_induction pending h with
  | case1 => exact .nil
  | case2 a h ha ih => exact ih
  | case3 a h ha ih => exact List.nodup_append.mpr ⟨ih, List.nodup_singleton a, by grind⟩
  | case4 a h ih => exact ih.erase a
  | case5 => exact .nil

theorem mem_pending_cons : a ∈ pending (c :: h) ↔
    c = .marked a ∨ a ∈ pending h ∧ c ≠ .taken a ∧ c ≠ .cleared := by
  cases c with
  | marked b =>
    rw [pending]
    split <;> grind
  | taken b => grind [pending, (nodup_pending h).mem_erase_iff]
  | cleared => simp [pending]

/-- The pending are those with a mark after which they were neither taken nor cleared. -/
theorem mem_pending : a ∈ pending h ↔ ∃ since before, h = since ++ .marked a :: before ∧
    ∀ c ∈ since, c ≠ .taken a ∧ c ≠ .cleared := by
  induction h with
  | nil => simp [pending]
  | cons c h ih =>
    rw [mem_pending_cons, ih]
    constructor
    · rintro (rfl | ⟨⟨since, before, rfl, hsince⟩, hc⟩)
      · exact ⟨[], h, rfl, nofun⟩
      · exact ⟨c :: since, before, rfl, List.forall_mem_cons.mpr ⟨hc, hsince⟩⟩
    · rintro ⟨_ | ⟨d, since⟩, before, heq, hsince⟩
      · exact .inl (List.cons.inj heq).1
      · obtain ⟨rfl, rfl⟩ := List.cons.inj heq
        obtain ⟨hd, hsince⟩ := List.forall_mem_cons.mp hsince
        exact .inr ⟨⟨since, before, rfl, hsince⟩, hd⟩

/-- Whether `before` is the history up to the pending mark of `a`. -/
def PendingSince (h : List (Change α)) (a : α) (before : List (Change α)) : Prop :=
  ∃ since, h = since ++ .marked a :: before ∧ a ∉ pending before ∧
    ∀ c ∈ since, c ≠ .taken a ∧ c ≠ .cleared

theorem pendingSince_cons : PendingSince (c :: h) a x ↔
    c = .marked a ∧ a ∉ pending h ∧ x = h ∨
      PendingSince h a x ∧ c ≠ .taken a ∧ c ≠ .cleared := by
  constructor
  · rintro ⟨_ | ⟨d, since⟩, heq, hx, hsince⟩
    · obtain ⟨rfl, rfl⟩ := List.cons.inj heq
      exact .inl ⟨rfl, hx, rfl⟩
    · obtain ⟨rfl, rfl⟩ := List.cons.inj heq
      obtain ⟨hd, hsince⟩ := List.forall_mem_cons.mp hsince
      exact .inr ⟨⟨since, rfl, hx, hsince⟩, hd⟩
  · rintro (⟨rfl, hx, rfl⟩ | ⟨⟨since, rfl, hx, hsince⟩, hc⟩)
    · exact ⟨[], rfl, hx, nofun⟩
    · exact ⟨c :: since, rfl, hx, List.forall_mem_cons.mpr ⟨hc, hsince⟩⟩

theorem PendingSince.mem (hx : PendingSince h a x) : a ∈ pending h := by
  obtain ⟨since, heq, -, hsince⟩ := hx
  exact mem_pending.mpr ⟨since, x, heq, hsince⟩

theorem PendingSince.length_lt (hx : PendingSince h a x) : x.length < h.length := by
  obtain ⟨since, rfl, -, -⟩ := hx
  simp only [List.length_append, List.length_cons]
  omega

theorem PendingSince.of_cons (hx : PendingSince (c :: h) a x) (ha : a ∈ pending h) :
    PendingSince h a x := by
  rcases pendingSince_cons.mp hx with ⟨-, hnot, -⟩ | ⟨hx, -⟩
  · exact absurd ha hnot
  · exact hx

def PendingBefore (h : List (Change α)) (a b : α) : Prop :=
  ∀ x y, PendingSince h a x → PendingSince h b y → x.length < y.length

/-- The pending are listed in the order of their pending marks. -/
theorem pairwise_pending (h : List (Change α)) : (pending h).Pairwise (PendingBefore h) := by
  -- A change leaves the order of what stays pending.
  have hkept {c : Change α} {h : List (Change α)} {l : List α} (hl : l.Sublist (pending h))
      (ih : (pending h).Pairwise (PendingBefore h)) : l.Pairwise (PendingBefore (c :: h)) :=
    (ih.sublist hl).imp_of_mem fun ha hb hab x y hx hy =>
      hab x y (hx.of_cons (hl.subset ha)) (hy.of_cons (hl.subset hb))
  fun_induction pending h with
  | case1 => exact .nil
  | case2 a h ha ih => exact hkept (List.Sublist.refl _) ih
  | case3 a h ha ih =>
    refine List.pairwise_append.mpr ⟨hkept (List.Sublist.refl _) ih, List.pairwise_singleton _ _,
      fun b hb d hd x y hx hy => ?_⟩
    rw [List.mem_singleton.mp hd] at hy
    rcases pendingSince_cons.mp hy with ⟨-, -, rfl⟩ | ⟨hy, -⟩
    · exact (hx.of_cons hb).length_lt
    · exact absurd hy.mem ha
  | case4 a h ih => exact hkept List.erase_sublist ih
  | case5 => exact .nil

end Change

namespace Marks

variable {m : Marks} {h : List Event} {s u : Site}

-- ---------------------------------------------------------------------------
-- Histories of calls
-- ---------------------------------------------------------------------------

inductive Call where
  | markColumn (s : Site)
  | nextColumn
  | markSum (sum : Nat)
  | nextSum
  | clearSums

inductive Event where
  | markedColumn (s : Site)
  | tookColumn (s? : Option Site)
  | markedSum (sum : Nat)
  | tookSum (sum? : Option Nat)
  | clearedSums
deriving DecidableEq

def perform (m : Marks) : Call → Event × Marks
  | .markColumn s => (.markedColumn s, m.markColumn s)
  | .nextColumn => (.tookColumn m.nextColumn.1, m.nextColumn.2)
  | .markSum sum => (.markedSum sum, m.markSum sum)
  | .nextSum => (.tookSum m.nextSum.1, m.nextSum.2)
  | .clearSums => (.clearedSums, m.clearSums)

def record (calls : List Call) : List Event × Marks :=
  calls.foldl (fun r call => ((r.2.perform call).1 :: r.1, (r.2.perform call).2)) ([], empty)

theorem record_concat (calls : List Call) (call : Call) : record (calls ++ [call]) =
    (((record calls).2.perform call).1 :: (record calls).1, ((record calls).2.perform call).2) := by
  rw [record, List.foldl_append, List.foldl_cons, List.foldl_nil, ← record]

def SumQueue.perform (q : SumQueue) : Call → SumQueue
  | .markSum sum => q.mark sum
  | .nextSum => q.next.2
  | .clearSums => {}
  | .markColumn _ | .nextColumn => q

/-- After any calls the sums in the queue, and those in its set, are the ones that are marked. -/
theorem SumQueue.shows_record (calls : List Call) :
    (calls.foldl SumQueue.perform {}).Shows (record calls).2 := by
  induction calls using List.reverseRecOn with
  | nil => exact shows_empty
  | append_singleton calls call ih =>
    rw [List.foldl_append, record_concat]
    cases call with
    | markColumn s => exact ih.of_sums (sums_markColumn _ s)
    | nextColumn => exact ih.of_sums (nextColumn_frame _).1
    | markSum sum => exact ih.mark sum
    | nextSum => exact ih.next.2
    | clearSums => exact .clear _

def Event.columnChange? : Event → Option (Change Site)
  | .markedColumn s => some (.marked s)
  | .tookColumn (some s) => some (.taken s)
  | _ => none

def Event.sumChange? : Event → Option (Change Nat)
  | .markedSum sum => some (.marked sum)
  | .tookSum (some sum) => some (.taken sum)
  | .clearedSums => some .cleared
  | _ => none

def pendingColumns (h : List Event) : List Site := Change.pending (h.filterMap (·.columnChange?))

def pendingSums (h : List Event) : List Nat := Change.pending (h.filterMap (·.sumChange?))

def lastMark? : List Event → Option Site
  | [] => none
  | .markedColumn s :: _ => some s
  | .tookColumn _ :: _ => none
  | _ :: h => lastMark? h

/-- Whether a column was ever taken for being the one marked last. -/
def TakenOutOfTurn (h : List Event) (s : Site) : Prop :=
  ∃ since before, h = since ++ .tookColumn (some s) :: before ∧ lastMark? before = some s

theorem takenOutOfTurn_cons {e : Event} : TakenOutOfTurn (e :: h) s ↔
    e = .tookColumn (some s) ∧ lastMark? h = some s ∨ TakenOutOfTurn h s := by
  constructor
  · rintro ⟨_ | ⟨d, since⟩, before, heq, hlast⟩
    · obtain ⟨rfl, rfl⟩ := List.cons.inj heq
      exact .inl ⟨rfl, hlast⟩
    · obtain ⟨rfl, rfl⟩ := List.cons.inj heq
      exact .inr ⟨since, before, rfl, hlast⟩
  · rintro (⟨rfl, hlast⟩ | ⟨since, before, rfl, hlast⟩)
    · exact ⟨[], h, rfl, hlast⟩
    · exact ⟨e :: since, before, rfl, hlast⟩

instance decidableTakenOutOfTurn : (h : List Event) → (s : Site) → Decidable (TakenOutOfTurn h s)
  | [], _ => isFalse fun ⟨since, _, heq, _⟩ => by cases since <;> cases heq
  | _ :: h, s =>
    have := decidableTakenOutOfTurn h s
    decidable_of_iff _ takenOutOfTurn_cons.symm

-- ---------------------------------------------------------------------------
-- Places of the queue
-- ---------------------------------------------------------------------------

def markedPlaces (m : Marks) : List Site := m.queue.filter m.marked.contains

theorem dedup_filter_ne (places : List Site) (s : Site) :
    (places.filter (· ≠ s)).dedup = places.dedup.erase s := by
  rw [(List.nodup_dedup places).erase_eq_filter]
  induction places with
  | nil => rfl
  | cons u places ih =>
    by_cases hu : u = s <;> by_cases hmem : u ∈ places <;> simp_all

theorem dedup_concat (places : List Site) (s : Site) :
    (places ++ [s]).dedup = (places.filter (· ≠ s)).dedup ++ [s] := by
  induction places with
  | nil => rfl
  | cons u places ih =>
    by_cases hu : u = s <;> by_cases hmem : u ∈ places <;> simp_all

theorem filter_contains_erase (marked : Std.TreeSet Site) (s : Site) (places : List Site) :
    places.filter (marked.erase s).contains =
      (places.filter marked.contains).filter (· ≠ s) := by
  rw [List.filter_filter]
  refine List.filter_congr fun u _ => ?_
  rw [Bool.eq_iff_iff, contains_erase, Bool.and_eq_true, decide_eq_true_eq]

/-- Of the places that a mark brings back, the one it makes is the last. -/
theorem dedup_markedPlaces_markColumn (hs : m.marked.contains s ≠ true) :
    (m.markColumn s).markedPlaces.dedup = m.markedPlaces.dedup ++ [s] := by
  have hmark : m.markColumn s =
      { m with last? := some s, back := s :: m.back, marked := m.marked.insert s } := if_neg hs
  have hold : (m.queue.filter (m.marked.insert s).contains).filter (· ≠ s) = m.markedPlaces := by
    rw [List.filter_filter]
    refine List.filter_congr fun u _ => ?_
    rw [Bool.eq_iff_iff, Bool.and_eq_true, decide_eq_true_eq, Std.TreeSet.contains_insert,
      Bool.or_eq_true, beq_iff_eq, Std.LawfulEqCmp.compare_eq_iff_eq]
    constructor
    · rintro ⟨hne, rfl | hu⟩
      · exact absurd rfl hne
      · exact hu
    · intro hu
      exact ⟨fun heq => hs (heq ▸ hu), .inr hu⟩
  have hqueue : (m.markColumn s).queue = m.queue ++ [s] := by simp [hmark, queue]
  rw [markedPlaces, hqueue, hmark, List.filter_append,
    List.filter_cons_of_pos Std.TreeSet.contains_insert_self, List.filter_nil, dedup_concat, hold]

theorem markedPlaces_of_queue {skipped rest : List Site} (hqueue : m.queue = skipped ++ s :: rest)
    (hskipped : ∀ u ∈ skipped, m.marked.contains u = false) (hs : m.marked.contains s = true) :
    m.markedPlaces = s :: rest.filter m.marked.contains := by
  rw [markedPlaces, hqueue, List.filter_append, List.filter_cons_of_pos hs,
    List.filter_eq_nil_iff.mpr fun u hu => by simp [hskipped u hu], List.nil_append]

theorem markedPlaces_eq_nil (hqueue : ∀ u ∈ m.queue, m.marked.contains u = false) :
    m.markedPlaces = [] :=
  List.filter_eq_nil_iff.mpr fun u hu => by simp [hqueue u hu]

theorem nextQueued_eq_head? (m : Marks) : m.nextQueued.1 = m.markedPlaces.head? := by
  rcases m.nextQueued_cases with
    ⟨s, skipped, hqueue, hskipped, hs, htaken, -⟩ | ⟨hqueue, hnone⟩
  · rw [htaken, markedPlaces_of_queue hqueue hskipped hs, List.head?_cons]
  · rw [hnone, markedPlaces_eq_nil hqueue, List.head?_nil]

structure Agrees (h : List Event) (m : Marks) : Prop where
  queued : m.Queued
  columns : m.markedPlaces.dedup = pendingColumns h
  last : m.last? = lastMark? h
  lastPending : ∀ s, lastMark? h = some s → s ∈ pendingColumns h
  places : ∀ s, ¬ TakenOutOfTurn h s → m.queue.count s = if m.marked.contains s then 1 else 0

theorem Agrees.mem_pendingColumns (hm : Agrees h m) :
    s ∈ pendingColumns h ↔ m.marked.contains s = true := by
  rw [← hm.columns, List.mem_dedup, markedPlaces, List.mem_filter]
  exact ⟨(·.2), fun hs => ⟨hm.queued s hs, hs⟩⟩

theorem agrees_empty : Agrees [] empty :=
  ⟨queued_empty, rfl, rfl, nofun, fun _ _ => by simp [queue, empty]⟩

theorem notTakenOutOfTurn_of_cons {e : Event} (hs : ¬ TakenOutOfTurn (e :: h) s) :
    ¬ TakenOutOfTurn h s :=
  mt (takenOutOfTurn_cons.mpr ∘ .inr) hs

theorem Agrees.sums (hm : Agrees h m) {e : Event} {sums : List Nat}
    (hcolumns : e.columnChange? = none) (hlast : lastMark? (e :: h) = lastMark? h) :
    Agrees (e :: h) { m with sums := sums } := by
  have hpending : pendingColumns (e :: h) = pendingColumns h := by
    rw [pendingColumns, List.filterMap_cons_none hcolumns, pendingColumns]
  refine ⟨hm.queued, hm.columns.trans hpending.symm, hm.last.trans hlast.symm, fun s hs => ?_,
    fun s hs => hm.places s (notTakenOutOfTurn_of_cons hs)⟩
  rw [hpending]
  exact hm.lastPending s (hlast.symm.trans hs)

theorem Agrees.markColumn (hm : Agrees h m) (s : Site) :
    Agrees (.markedColumn s :: h) (m.markColumn s) := by
  have hpending : pendingColumns (.markedColumn s :: h) =
    if s ∈ pendingColumns h then pendingColumns h else pendingColumns h ++ [s] := rfl
  have hmem : s ∈ pendingColumns (.markedColumn s :: h) := by
    rw [hpending]
    split
    · assumption
    · simp
  by_cases hs : m.marked.contains s = true
  · have hmark : m.markColumn s = { m with last? := some s } := if_pos hs
    rw [if_pos (hm.mem_pendingColumns.mpr hs)] at hpending
    rw [hmark]
    exact ⟨hm.queued, hm.columns.trans hpending.symm, rfl, fun u hu => Option.some.inj hu ▸ hmem,
      fun u hu => hm.places u (notTakenOutOfTurn_of_cons hu)⟩
  · have hmark : m.markColumn s =
      { m with last? := some s, back := s :: m.back, marked := m.marked.insert s } := if_neg hs
    rw [if_neg (mt hm.mem_pendingColumns.mp hs), ← hm.columns] at hpending
    refine ⟨hm.queued.markColumn s, ?_, by rw [hmark]; rfl,
      fun u hu => Option.some.inj hu ▸ hmem, fun u hu => ?_⟩
    · exact (dedup_markedPlaces_markColumn hs).trans hpending.symm
    · have hcount := hm.places u (notTakenOutOfTurn_of_cons hu)
      have hqueue : (m.markColumn s).queue = m.queue ++ [s] := by simp [hmark, queue]
      by_cases heq : u = s
      · subst heq
        rw [if_neg hs] at hcount
        rw [hqueue, List.count_append, hcount, if_pos (contains_markColumn.mpr (.inl rfl)),
          List.count_singleton_self]
      · rw [hqueue, List.count_append, hcount, List.count_singleton, beq_false_of_ne (Ne.symm heq)]
        simp only [contains_markColumn, heq, false_or]
        rfl

theorem nextColumn_cases (m : Marks) :
    (∃ s, m.last? = some s ∧ m.marked.contains s = true ∧
      m.nextColumn = (some s, { m with last? := none, marked := m.marked.erase s })) ∨
    (∀ s, m.last? = some s → m.marked.contains s ≠ true) ∧
      m.nextColumn = ({ m with last? := none } : Marks).nextQueued := by
  unfold nextColumn
  dsimp only
  split
  · next s hlast =>
    split
    · next hs => exact .inl ⟨s, hlast, hs, rfl⟩
    · next hs => exact .inr ⟨fun u hu => Option.some.inj (hlast.symm.trans hu) ▸ hs, rfl⟩
  · next hlast => exact .inr ⟨fun u hu => absurd (hlast.symm.trans hu) nofun, rfl⟩

/-- The last mark since a column was taken is of a pending column, which is taken. -/
theorem Agrees.nextColumn_of_last (hm : Agrees h m) (hlast : lastMark? h = some s) :
    m.nextColumn = (some s, { m with last? := none, marked := m.marked.erase s }) := by
  have hs := hm.mem_pendingColumns.mp (hm.lastPending s hlast)
  rcases m.nextColumn_cases with ⟨u, hu, -, htaken⟩ | ⟨hnot, -⟩
  · obtain rfl := Option.some.inj ((hm.last.symm.trans hu).symm.trans hlast)
    exact htaken
  · exact absurd hs (hnot s (hm.last.trans hlast))

theorem Agrees.nextColumn_of_none (hm : Agrees h m) (hlast : lastMark? h = none) :
    m.nextColumn = m.nextQueued := by
  have hnone := hm.last.trans hlast
  rcases m.nextColumn_cases with ⟨u, hu, -, -⟩ | ⟨-, htaken⟩
  · rw [hnone] at hu
    cases hu
  · rw [htaken, ← hnone]

theorem Agrees.takeLast (hm : Agrees h m) (hlast : lastMark? h = some s) :
    Agrees (.tookColumn (some s) :: h) { m with last? := none, marked := m.marked.erase s } := by
  have hqueued := hm.queued.nextColumn.queued
  rw [hm.nextColumn_of_last hlast] at hqueued
  refine ⟨hqueued, ?_, rfl, nofun, fun u hu => ?_⟩
  · show (m.queue.filter (m.marked.erase s).contains).dedup = (pendingColumns h).erase s
    rw [filter_contains_erase, dedup_filter_ne, ← hm.columns, markedPlaces]
  · have hne : u ≠ s := fun heq => hu (takenOutOfTurn_cons.mpr (.inl ⟨heq ▸ rfl, heq ▸ hlast⟩))
    have hcontains := contains_erase m.marked s u
    simp only [hne, ne_eq, not_false_eq_true, true_and] at hcontains
    simp only [hcontains]
    exact hm.places u (notTakenOutOfTurn_of_cons hu)

theorem count_rest {marked : Std.TreeSet Site} {skipped rest : List Site}
    (hskipped : ∀ u ∈ skipped, marked.contains u = false) (hs : marked.contains s = true)
    (hcount : (skipped ++ s :: rest).count u = if marked.contains u then 1 else 0) :
    rest.count u = if (marked.erase s).contains u then 1 else 0 := by
  have hcontains := contains_erase marked s u
  rw [List.count_append, List.count_cons] at hcount
  by_cases heq : u = s
  · subst heq
    simp only [hs, beq_self_eq_true, if_true] at hcount
    simp only [hcontains, ne_eq, not_true, false_and, if_false]
    omega
  · simp only [heq, ne_eq, not_false_eq_true, true_and] at hcontains
    simp only [hcontains]
    rw [beq_false_of_ne (Ne.symm heq)] at hcount
    have hskip : marked.contains u = true → skipped.count u = 0 := fun hu =>
      List.count_eq_zero.mpr fun hmem => by simp [hskipped u hmem] at hu
    split at hcount <;> grind

theorem Agrees.nextQueued (hm : Agrees h m) (hlast : lastMark? h = none) :
    Agrees (.tookColumn m.nextQueued.1 :: h) m.nextQueued.2 := by
  have hqueued := hm.queued.nextQueued.queued
  have hnone := m.nextQueued_frame.2.1.trans (hm.last.trans hlast)
  rcases m.nextQueued_cases with
    ⟨s, skipped, hqueue, hskipped, hs, htaken, hmarked⟩ | ⟨hqueue, htaken⟩
  · have hplaces := markedPlaces_of_queue hqueue hskipped hs
    rw [htaken]
    refine ⟨hqueued, ?_, hnone, nofun, fun u hu => ?_⟩
    · show m.nextQueued.2.markedPlaces.dedup = (pendingColumns h).erase s
      rw [markedPlaces, hmarked, filter_contains_erase, ← hm.columns, ← dedup_filter_ne, hplaces,
        List.filter_cons_of_neg (by simp)]
    · have hcount := hm.places u (notTakenOutOfTurn_of_cons hu)
      rw [hqueue] at hcount
      rw [hmarked]
      exact count_rest hskipped hs hcount
  · have hpending : pendingColumns (.tookColumn none :: h) = [] := by
      rw [← List.dedup_nil, ← markedPlaces_eq_nil hqueue, hm.columns]
      rfl
    rw [htaken] at hqueued hnone ⊢
    refine ⟨hqueued, hpending.symm, hnone, nofun, fun u _ => ?_⟩
    have hu : ¬ m.marked.contains u = true := fun hu => by
      simp [hqueue u (hm.queued u hu)] at hu
    exact (if_neg hu).symm

theorem Agrees.nextColumn (hm : Agrees h m) :
    Agrees (.tookColumn m.nextColumn.1 :: h) m.nextColumn.2 := by
  cases hlast : lastMark? h with
  | some s =>
    rw [hm.nextColumn_of_last hlast]
    exact hm.takeLast hlast
  | none =>
    rw [hm.nextColumn_of_none hlast]
    exact hm.nextQueued hlast

-- ---------------------------------------------------------------------------
-- Every sequence of calls
-- ---------------------------------------------------------------------------

theorem nextSum_eq (m : Marks) : m.nextSum = (m.sums.head?, { m with sums := m.sums.tail }) := by
  unfold nextSum
  split
  · next hsums =>
    rw [hsums]
    exact congrArg (Prod.mk none) (by rw [List.tail_nil, ← hsums])
  · next hsums => simp [hsums]

theorem sums_perform (hsums : m.sums = pendingSums h) (call : Call) :
    (m.perform call).2.sums = pendingSums ((m.perform call).1 :: h) := by
  cases call with
  | markColumn s => exact (m.sums_markColumn s).trans hsums
  | nextColumn =>
    have hframe := m.nextColumn_frame.1.trans hsums
    cases htaken : m.nextColumn.1 <;> rw [perform, htaken] <;> exact hframe
  | markSum sum =>
    show (m.markSum sum).sums =
      if sum ∈ pendingSums h then pendingSums h else pendingSums h ++ [sum]
    rw [Marks.markSum, ← hsums]
    simp only [List.contains_iff_mem]
    split <;> rfl
  | nextSum =>
    rw [perform, nextSum_eq]
    cases hcons : m.sums with
    | nil => exact hcons.symm.trans hsums
    | cons sum rest =>
      show rest = (pendingSums h).erase sum
      rw [← hsums, hcons, List.erase_cons_head]
  | clearSums => rfl

theorem Agrees.perform (hm : Agrees h m) (call : Call) :
    Agrees ((m.perform call).1 :: h) (m.perform call).2 := by
  cases call with
  | markColumn s => exact hm.markColumn s
  | nextColumn => exact hm.nextColumn
  | markSum sum =>
    show Agrees (.markedSum sum :: h) (m.markSum sum)
    unfold Marks.markSum
    split <;> exact hm.sums rfl rfl
  | nextSum =>
    show Agrees (.tookSum m.nextSum.1 :: h) m.nextSum.2
    rw [nextSum_eq]
    exact hm.sums rfl rfl
  | clearSums =>
    show Agrees (.clearedSums :: h) m.clearSums
    exact hm.sums rfl rfl

theorem agrees_record (calls : List Call) : Agrees (record calls).1 (record calls).2 ∧
    (record calls).2.sums = pendingSums (record calls).1 := by
  induction calls using List.reverseRecOn with
  | nil => exact ⟨agrees_empty, rfl⟩
  | append_singleton calls call ih =>
    rw [record_concat]
    exact ⟨ih.1.perform call, sums_perform ih.2 call⟩

/-- What marks answer, given what is pending. -/
structure Reports (h : List Event) (m : Marks) : Prop where
  marked : ∀ s, m.marked.contains s = true ↔ s ∈ pendingColumns h
  hasColumns : m.hasColumns = true ↔ ∃ s, s ∈ pendingColumns h
  noColumn : m.nextColumn.1 = none ↔ pendingColumns h = []
  column : ∀ s, m.nextColumn.1 = some s → s ∈ pendingColumns h
  otherColumns : ∀ u, m.nextColumn.2.marked.contains u = true ↔
    u ∈ pendingColumns h ∧ m.nextColumn.1 ≠ some u
  onceEach : (pendingSums h).Nodup
  inOrder : (pendingSums h).Pairwise (Change.PendingBefore (h.filterMap (·.sumChange?)))
  hasSums : m.hasSums = true ↔ ∃ sum, sum ∈ pendingSums h
  sum : m.nextSum.1 = (pendingSums h).head?
  otherSums : m.nextSum.2.sums = (pendingSums h).tail
  noSum : m.clearSums.sums = []
  apart : m.nextColumn.2.sums = m.sums ∧ m.nextSum.2.marked = m.marked ∧
    m.clearSums.marked = m.marked

/-- No mark is lost and none counts twice, whatever the calls. -/
theorem reports_record (calls : List Call) : Reports (record calls).1 (record calls).2 := by
  obtain ⟨hm, hsums⟩ := agrees_record calls
  generalize (record calls).1 = h at hm hsums ⊢
  generalize (record calls).2 = m at hm hsums ⊢
  have htakes := hm.queued.nextColumn
  have hmem {u : Site} := hm.mem_pendingColumns (s := u)
  refine ⟨fun s => hmem.symm, ?_, ⟨fun hnone => ?_, fun hpending => ?_⟩,
    fun s hs => hmem.mpr (htakes.some s hs).1, fun u => ?_, Change.nodup_pending _,
    Change.pairwise_pending _, ?_, ?_, ?_, rfl, ⟨htakes.sums, m.sums_nextSum.1, rfl⟩⟩
  · simp only [hmem, hasColumns, Bool.not_eq_true',
      Std.TreeSet.isEmpty_eq_false_iff_exists_contains_eq_true]
  · exact List.eq_nil_iff_forall_not_mem.mpr fun s hs => by
      simpa [(htakes.none hnone).2 s] using hmem.mp hs
  · cases hs : m.nextColumn.1 with
    | none => rfl
    | some s => exact absurd (hmem.mpr (htakes.some s hs).1) (hpending ▸ List.not_mem_nil)
  · rw [hmem, m.nextColumn_frame.2]
    cases m.nextColumn.1 with
    | none => simp
    | some s =>
      show (m.marked.erase s).contains u = true ↔ _
      rw [contains_erase, and_comm, ne_comm, ne_eq, ne_eq, Option.some_inj]
  · rw [← hsums, hasSums, Bool.not_eq_true', List.isEmpty_eq_false_iff_exists_mem]
  · rw [nextSum_eq, hsums]
  · rw [nextSum_eq, hsums]

/-- The column marked last since one was taken is taken first. Otherwise the first place of a
marked column counts, and it is the place of the pending mark made first unless the column was
taken out of turn. -/
theorem nextColumn_order (calls : List Call) :
    (∀ s, lastMark? (record calls).1 = some s → (record calls).2.nextColumn.1 = some s) ∧
    (lastMark? (record calls).1 = none →
      (record calls).2.nextColumn.1 = (record calls).2.markedPlaces.head? ∧
      pendingColumns (record calls).1 = (record calls).2.markedPlaces.dedup ∧
      ((∀ s ∈ pendingColumns (record calls).1, ¬ TakenOutOfTurn (record calls).1 s) →
        (record calls).2.nextColumn.1 = (pendingColumns (record calls).1).head?)) := by
  obtain ⟨hm, -⟩ := agrees_record calls
  generalize (record calls).1 = h at hm ⊢
  generalize (record calls).2 = m at hm ⊢
  refine ⟨fun s hs => by rw [hm.nextColumn_of_last hs], fun hnone => ?_⟩
  have hfirst : m.nextColumn.1 = m.markedPlaces.head? := by
    rw [hm.nextColumn_of_none hnone, nextQueued_eq_head?]
  refine ⟨hfirst, hm.columns.symm, fun hturn => ?_⟩
  have hnodup : m.markedPlaces.Nodup := List.nodup_iff_count_le_one.mpr fun s => by
    by_cases hs : m.marked.contains s = true
    · have hcount := hm.places s (hturn s (hm.mem_pendingColumns.mpr hs))
      rw [if_pos hs] at hcount
      exact hcount ▸ m.queue.filter_sublist.count_le s
    · have hzero : m.markedPlaces.count s = 0 :=
        List.count_eq_zero.mpr fun hmem => hs (List.mem_filter.mp hmem).2
      exact hzero ▸ Nat.zero_le 1
  rw [hfirst, ← hm.columns, hnodup.dedup]

/-- Two columns are taken out of turn, and the others wait. -/
def sampleCalls : List Call :=
  [.markColumn ⟨2, 0⟩, .markColumn ⟨1, 0⟩, .nextColumn, .markColumn ⟨3, 0⟩, .markColumn ⟨4, 0⟩,
    .nextColumn]

theorem nextColumn_order_sample : (record sampleCalls).2.nextColumn.1 = some ⟨2, 0⟩ := by
  have hlast : lastMark? (record sampleCalls).1 = none := by decide +kernel
  have hturn : ∀ s ∈ pendingColumns (record sampleCalls).1,
      ¬ TakenOutOfTurn (record sampleCalls).1 s := by decide +kernel
  have hpending : pendingColumns (record sampleCalls).1 = [⟨2, 0⟩, ⟨3, 0⟩] := by decide +kernel
  rw [((nextColumn_order sampleCalls).2 hlast).2.2 hturn, hpending]
  rfl

/-- A column is taken out of turn and marked again after another. -/
def olderPlaceCalls : List Call :=
  [.markColumn ⟨1, 0⟩, .nextColumn, .markColumn ⟨2, 0⟩, .markColumn ⟨1, 0⟩, .markColumn ⟨3, 0⟩,
    .nextColumn]

theorem older_place_sample : ¬ ∀ calls : List Call, lastMark? (record calls).1 = none →
    (record calls).2.nextColumn.1 = (pendingColumns (record calls).1).head? := by
  intro hall
  have hlast : lastMark? (record olderPlaceCalls).1 = none := by decide +kernel
  have hfirst : (pendingColumns (record olderPlaceCalls).1).head? = some ⟨2, 0⟩ := by
    decide +kernel
  have hanswer : (record olderPlaceCalls).2.nextColumn.1 = some ⟨1, 0⟩ := by decide +kernel
  have heq := hanswer.symm.trans ((hall olderPlaceCalls hlast).trans hfirst)
  cases heq

end Marks

end ShaDiff
