import ShaDiff.Proofs.Propagator.Fixpoint

/-!
# A search goes on where the last one stopped

Between two searches each column is marked, or forces literals only that are yet to be
given. Each sum is marked, or settled, or awaits a literal that refines one of its bits
(`Underway`). A refresh marks all readers of a bit it refines, so nothing that forces
nothing has to be looked at again unless it is marked. A search that finds nothing leaves
no mark, and so ends in a fixpoint.
-/

namespace ShaDiff

/-- Whether what was found, if it is no conflict, leaves literals to be given of which
something holds. -/
def Finding.Leaves (P : List Literal → Prop) : Finding → Prop
  | .nothing => P []
  | .literals ls => ls ≠ [] ∧ P (ls.map Prod.fst)
  | .conflict _ => True

theorem Finding.Leaves.imp {P Q : List Literal → Prop} (hPQ : ∀ ls, P ls → Q ls) {found : Finding}
    (h : found.Leaves P) : found.Leaves Q := by
  cases found with
  | nothing => exact hPQ _ h
  | literals ls => exact ⟨h.1, hPQ _ h.2⟩
  | conflict => trivial

namespace Propagator

variable {ρ : Type} {p q r : Propagator ρ} {o : Operation} {s : SumEquation} {b : Bit}
  {c : Condition} {l : Literal} {ls ls' : List Literal} {bits : List Bit}

-- ---------------------------------------------------------------------------
-- What is left to do
-- ---------------------------------------------------------------------------

/-- Whether each column is marked, or forces no literals without value but some. -/
def ColumnsForce (p : Propagator ρ) (ls : List Literal) : Prop :=
  ∀ (u : Site) o, p.topology.operations[u.operation]? = some o → u.column < p.topology.wordSize →
    p.marks.marked.contains u = true ∨ p.ColumnForces o u.column ls

def Splits (p : Propagator ρ) (b : Bit) (r : Encoding.Region) : Prop :=
  (p.condition b).subset r.condition = false ∧
    ∃ x, (p.condition b).allows x = true ∧ r.condition.allows x = true

/-- Whether a bit of a sum has a literal that its condition leaves open, though it has a
value or is yet to be given. -/
def Awaits (p : Propagator ρ) (s : SumEquation) (ls : List Literal) : Prop :=
  ∃ b ∈ s.words.flatMap p.topology.wordBits, ∃ r ∈ p.encoding.regions, ∃ l,
    r.literal? (p.topology.slots b) = some l ∧ p.Splits b r ∧ (l ∈ ls ∨ p.literal? l ≠ none)

def SumsForce (p : Propagator ρ) (ls : List Literal) : Prop :=
  ∀ (i : Nat) s, p.topology.sums[i]? = some s →
    i ∈ p.marks.sums ∨ p.SumSettled s ∨ p.Awaits s ls

structure Underway (p : Propagator ρ) (ls : List Literal) : Prop where
  column : p.ColumnsForce ls
  sum : p.config.wordwise = true → p.SumsForce ls

theorem Fixpoint.underway (h : p.Fixpoint) : p.Underway [] where
  column u _ ho hu := .inr (h.column _ (Array.mem_of_getElem? ho) u.column hu)
  sum hwordwise _ _ hs := .inr (.inl (h.sum hwordwise _ (Array.mem_of_getElem? hs)))

theorem Awaits.mono (h : p.Awaits s ls) (htopology : q.topology = p.topology)
    (hcondition : ∀ b, q.condition b = p.condition b) (hvalues : p.Extends q)
    (hls : ∀ l ∈ ls, l ∈ ls' ∨ q.literal? l ≠ none) : q.Awaits s ls' := by
  obtain ⟨b, hb, r, hr, l, hl, hsplits, hlater⟩ := h
  rw [encoding] at hr
  refine ⟨b, htopology ▸ hb, r, by rwa [encoding, htopology], l, by rwa [htopology],
    by rwa [Splits, hcondition], ?_⟩
  rcases hlater with hlater | hvalued
  · exact hls l hlater
  · exact .inr (mt hvalues.literal?_eq_none hvalued)

theorem Underway.mono (h : p.Underway ls) (hconfig : q.config = p.config)
    (htopology : q.topology = p.topology) (hcondition : ∀ b, q.condition b = p.condition b)
    (hvalues : p.Extends q)
    (hmarked : ∀ u, p.marks.marked.contains u = true → q.marks.marked.contains u = true)
    (hsums : ∀ i ∈ p.marks.sums, i ∈ q.marks.sums)
    (hls : ∀ l ∈ ls, l ∈ ls' ∨ q.literal? l ≠ none) : q.Underway ls' where
  column u o ho hu := by
    rw [htopology] at ho hu
    rcases h.column u o ho hu with hm | hforces
    · exact .inl (hmarked u hm)
    · exact .inr (hforces.mono htopology (fun b _ => hcondition b) hvalues hls)
  sum hwordwise i s hs := by
    rw [htopology] at hs
    rcases h.sum (hconfig ▸ hwordwise) i s hs with hm | hsettled | hawaits
    · exact .inl (hsums i hm)
    · exact .inr (.inl (hsettled.mono htopology (fun b _ => hcondition b) hvalues))
    · exact .inr (.inr (hawaits.mono htopology hcondition hvalues hls))

-- ---------------------------------------------------------------------------
-- Refreshing
-- ---------------------------------------------------------------------------

theorem join_values (atoms : Slots) (f : Atom → Option Bool) (i : Nat) :
    (atoms.map fun a? => a?.bind f)[i]?.join = atoms[i]?.join.bind f := by
  rw [List.getElem?_map]
  cases atoms[i]? <;> rfl

theorem allows_of_fresh {r : Encoding.Region} (hr : r ∈ p.encoding.regions)
    (hl : r.literal? (p.topology.slots b) = some l) {v : Bool} (hv : p.literal? l = some v)
    {x : Pair} (hx : (p.freshCondition b).allows x = true) : r.condition.allows x = v := by
  obtain ⟨a, ha, rfl⟩ := Option.map_eq_some_iff.mp hl
  have hvalue : p.value? a = some (v == r.polarity) := literal?_eq_some.mp hv
  obtain ⟨r', hr', hslot, hpolarity⟩ := Encoding.exists_region hr (v == r.polarity)
  have hallows := Encoding.allows_refresh.mp hx r' hr' (by
    rw [Encoding.Region.holds, join_values, hslot, ha, Option.bind_some, hvalue, hpolarity]
    exact beq_self_eq_true _)
  rw [Encoding.allows_region hr', hslot, hpolarity] at hallows
  rw [Encoding.allows_region hr, beq_iff_eq.mp hallows]
  cases v <;> cases r.polarity <;> rfl

/-- No literal that has a value is left open once all is seen. -/
theorem not_splits {r : Encoding.Region} (hr : r ∈ p.encoding.regions)
    (hl : r.literal? (p.topology.slots b) = some l) (hvalued : p.literal? l ≠ none)
    (hfresh : p.condition b = p.freshCondition b) : ¬ p.Splits b r := by
  rintro ⟨hsubset, x, hx, hregion⟩
  obtain ⟨v, hv⟩ := Option.ne_none_iff_exists'.mp hvalued
  rw [hfresh] at hsubset hx
  obtain rfl : true = v := hregion.symm.trans (allows_of_fresh hr hl hv hx)
  have hinside := Condition.subset_iff.mpr fun y hy => allows_of_fresh hr hl hv hy
  exact nomatch hsubset.symm.trans hinside

theorem isZero_of_literal? {r : Encoding.Region}
    (hl : r.literal? (p.topology.slots b) = some l) : b.isZero = false := by
  refine Bool.eq_false_iff.mpr fun hz => ?_
  obtain ⟨a, ha, -⟩ := Option.map_eq_some_iff.mp hl
  simp [Topology.slots, hz] at ha

theorem queued_refresh (h : p.marks.Queued) : p.refresh.marks.Queued := by
  have hbits (bits : List Bit) {p : Propagator ρ} (h : p.marks.Queued) :
      (bits.foldl Propagator.refreshBit p).marks.Queued := by
    induction bits generalizing p with
    | nil => exact h
    | cons b bits ih =>
      refine ih ?_
      unfold Propagator.refreshBit
      dsimp only
      split
      · exact h
      · split
        · exact h
        · exact (Marks.foldl_markSum _ _).2.1 ((p.marks.foldl_markColumn _).2.1 h)
  exact hbits _ h

/-- Whether each bit allows what it did, unless all that read it are marked. -/
structure Wakes (p q : Propagator ρ) : Prop where
  config : q.config = p.config
  topology : q.topology = p.topology
  marked : ∀ u, p.marks.marked.contains u = true → q.marks.marked.contains u = true
  sums : ∀ i ∈ p.marks.sums, i ∈ q.marks.sums
  readers : ∀ b : Bit, (p.condition b).subset (q.condition b) = true ∨ b.isZero = false ∧
    (∀ u ∈ (p.topology.readersOf b).sites, q.marks.marked.contains u = true) ∧
      ∀ i ∈ (p.topology.readersOf b).sums, i ∈ q.marks.sums

theorem Wakes.refl (p : Propagator ρ) : p.Wakes p :=
  ⟨rfl, rfl, fun _ hu => hu, fun _ hi => hi, fun _ => .inl (Condition.subset_refl _)⟩

theorem Wakes.trans (h : p.Wakes q) (h' : q.Wakes r) : p.Wakes r where
  config := h'.config.trans h.config
  topology := h'.topology.trans h.topology
  marked u hu := h'.marked u (h.marked u hu)
  sums i hi := h'.sums i (h.sums i hi)
  readers b := by
    rcases h.readers b with hsubset | ⟨hb, hsites, hsums⟩
    · rcases h'.readers b with hsubset' | hmarked
      · exact .inl (Condition.subset_trans hsubset hsubset')
      · exact .inr (h.topology ▸ hmarked)
    · exact .inr ⟨hb, fun u hu => h'.marked u (hsites u hu), fun i hi => h'.sums i (hsums i hi)⟩

/-- Who reads a bit is marked unless all it allowed is allowed by what is known now. -/
theorem marks_refreshBit (p : Propagator ρ) (b : Bit) :
    (p.refreshBit b).marks = p.marks ∧ (p.condition b).subset (p.freshCondition b) = true ∨
      (p.refreshBit b).marks = (p.markReaders b).marks := by
  unfold refreshBit
  dsimp only
  split
  · next heq => exact .inl ⟨rfl, heq ▸ Condition.subset_refl _⟩
  · split
    · next hsubset => exact .inl ⟨rfl, hsubset⟩
    · exact .inr rfl

theorem wakes_refreshBit (p : Propagator ρ) (b : Bit) : p.Wakes (p.refreshBit b) := by
  obtain ⟨hsums, -, hmarked⟩ := p.marks.foldl_markColumn (p.topology.readersOf b).sites
  obtain ⟨hmarked', -, hsums'⟩ := Marks.foldl_markSum
    ((p.topology.readersOf b).sites.foldl .markColumn p.marks) (p.topology.readersOf b).sums
  refine ⟨by rw [refreshBit_frame], by rw [refreshBit_frame], fun u hu => ?_, fun i hi => ?_,
    fun d => ?_⟩
  · rcases p.marks_refreshBit b with ⟨hsame, -⟩ | hreaders
    · rwa [hsame]
    · rw [hreaders]
      exact hmarked' ▸ (hmarked u).mpr (.inr hu)
  · rcases p.marks_refreshBit b with ⟨hsame, -⟩ | hreaders
    · rwa [hsame]
    · rw [hreaders]
      exact (hsums' i).mpr (.inr (hsums ▸ hi))
  · cases hz : d.isZero with
    | true =>
      rw [condition_of_isZero hz, condition_of_isZero hz]
      exact .inl (Condition.subset_refl _)
    | false =>
      rw [condition_refreshBit p b hz]
      split
      · next heq =>
        subst heq
        rcases p.marks_refreshBit d with ⟨-, hsubset⟩ | hreaders
        · exact .inl hsubset
        · rw [hreaders]
          exact .inr ⟨rfl, fun u hu => hmarked' ▸ (hmarked u).mpr (.inl hu),
            fun i hi => (hsums' i).mpr (.inl hi)⟩
      · exact .inl (Condition.subset_refl _)

theorem wakes_refresh (p : Propagator ρ) : p.Wakes p.refresh := by
  have hbits (bits : List Bit) (p : Propagator ρ) : p.Wakes (bits.foldl refreshBit p) := by
    induction bits generalizing p with
    | nil => exact .refl p
    | cons b bits ih => exact (p.wakes_refreshBit b).trans (ih _)
  have hrefresh := hbits p.valuation.takeDirty.1 { p with valuation := p.valuation.takeDirty.2 }
  exact ⟨hrefresh.config, hrefresh.topology, hrefresh.marked, hrefresh.sums, hrefresh.readers⟩

/-- The bits of an unmarked column allow what they did. -/
theorem Wakes.subset_of_column (h : p.Wakes q) (hindexed : p.topology.Indexed) {u : Site}
    (ho : p.topology.operations[u.operation]? = some o) (hu : u.column < p.topology.wordSize)
    (hunmarked : ¬ q.marks.marked.contains u = true)
    (hb : b ∈ p.topology.inputBits o u.column ++ p.topology.outputBits o u.column) :
    (p.condition b).subset (q.condition b) = true := by
  refine (h.readers b).resolve_right fun ⟨hz, hsites, _⟩ => hunmarked (hsites u ?_)
  exact hindexed.site (Topology.mem_operationBits.mpr ⟨o, ho, hu, hb⟩) hz

theorem Wakes.subset_of_sum (h : p.Wakes q) (hindexed : p.topology.Indexed) {i : Nat}
    (hs : p.topology.sums[i]? = some s) (hunmarked : i ∉ q.marks.sums)
    (hb : b ∈ s.words.flatMap p.topology.wordBits) :
    (p.condition b).subset (q.condition b) = true := by
  refine (h.readers b).resolve_right fun ⟨_, _, hsums⟩ => hunmarked (hsums i ?_)
  exact hindexed.sum (Topology.mem_sumBits.mpr ⟨s, hs, hb⟩)

theorem condition_refresh (hmirrors : p.topology.Mirrors p.valuation p.characteristic)
    (hz : b.isZero = false) : p.refresh.condition b = p.freshCondition b := by
  have hasked := p.asked_refresh
  refine (reflects_refresh hmirrors b hz).trans ?_
  rw [hasked.topology]
  exact Topology.conditionOf_congr fun a _ => hasked.value? a

def Relaxed (p : Propagator ρ) : Prop :=
  ∀ b : Bit, b.isZero = false → (p.freshCondition b).subset (p.condition b) = true

theorem relaxed_of_reflects (h : p.topology.Reflects p.valuation p.characteristic) :
    p.Relaxed := by
  intro b hb
  rw [condition, h b hb]
  exact Condition.subset_refl _

theorem Relaxed.condition_refresh (h : p.Relaxed)
    (hmirrors : p.topology.Mirrors p.valuation p.characteristic)
    (hsubset : (p.condition b).subset (p.refresh.condition b) = true) :
    p.refresh.condition b = p.condition b := by
  cases hz : b.isZero with
  | true => rw [condition_of_isZero hz, condition_of_isZero hz]
  | false =>
    refine Condition.subset_antisymm ?_ hsubset
    rw [Propagator.condition_refresh hmirrors hz]
    exact h b hz

theorem Underway.refresh (h : p.Underway []) (hindexed : p.topology.Indexed)
    (hmirrors : p.topology.Mirrors p.valuation p.characteristic) (hrelaxed : p.Relaxed) :
    p.refresh.Underway [] := by
  have hwakes := p.wakes_refresh
  have hasked := p.asked_refresh
  constructor
  · intro u o ho hu
    rw [hasked.topology] at ho hu
    rcases h.column u o ho hu with hm | hforces
    · exact .inl (hwakes.marked u hm)
    · refine Classical.or_iff_not_imp_left.mpr fun hunmarked => ?_
      exact hforces.mono hasked.topology (fun b hb => hrelaxed.condition_refresh hmirrors
        (hwakes.subset_of_column hindexed ho hu hunmarked hb)) hasked.extends nofun
  · intro hwordwise i s hs
    rw [hasked.topology] at hs
    refine Classical.or_iff_not_imp_left.mpr fun hunmarked => ?_
    have hsame (b : Bit) (hb : b ∈ s.words.flatMap p.topology.wordBits) :=
      hrelaxed.condition_refresh hmirrors (hwakes.subset_of_sum hindexed hs hunmarked hb)
    rcases h.sum (hasked.config ▸ hwordwise) i s hs with hm | hsettled |
      ⟨b, hb, r, hr, l, hl, hsplits, hlater⟩
    · exact absurd (hwakes.sums i hm) hunmarked
    · exact .inl (hsettled.mono hasked.topology hsame hasked.extends)
    · have hvalued := hlater.resolve_left List.not_mem_nil
      refine absurd hsplits (not_splits hr hl hvalued ?_)
      exact (hsame b hb).symm.trans (condition_refresh hmirrors (isZero_of_literal? hl))

end Propagator

end ShaDiff
