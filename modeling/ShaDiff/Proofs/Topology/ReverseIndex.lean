import ShaDiff.Proofs.Refinement
import ShaDiff.Proofs.Topology.AtomReaders
import ShaDiff.Proofs.Topology.Range

/-!
# The readers of a bit are exactly those that read it

Once entries were accepted, the columns listed with a bit are those of which it is an input or
output bit, and the sums are those that have its word. Both are listed in ascending order, so
each is listed once, and every atom of a bit stands for the same lists, also where readers are
listed with atoms.
-/

namespace ShaDiff

def Site.Earlier (s u : Site) : Prop :=
  s.operation < u.operation ∨ s.operation = u.operation ∧ s.column < u.column

theorem Site.Earlier.ne {s u : Site} (h : s.Earlier u) : s ≠ u := by
  rintro rfl
  rcases h with h | ⟨-, h⟩ <;> exact Nat.lt_irrefl _ h

namespace Topology

variable {t t' : Topology} {b : Bit}

-- ---------------------------------------------------------------------------
-- The order of reading
-- ---------------------------------------------------------------------------

theorem pairwise_foldl_addOnce {α : Type} [DecidableEq α] {r : α → α → Prop} {l : List α}
    (as : List α) (hl : l.Pairwise r) (has : as.Pairwise fun a a' => a = a' ∨ r a a')
    (hlas : ∀ x ∈ l, ∀ a ∈ as, x = a ∨ r x a) : (as.foldl addOnce l).Pairwise r := by
  induction as generalizing l with
  | nil => exact hl
  | cons a as ih =>
    obtain ⟨ha, has⟩ := List.pairwise_cons.mp has
    refine ih ?_ has fun x hx a' ha' => ?_
    · unfold addOnce
      split
      · exact hl
      · next hnot =>
        refine List.pairwise_append.mpr ⟨hl, List.pairwise_singleton r a, fun x hx y hy => ?_⟩
        rw [List.mem_singleton.mp hy]
        exact (hlas x hx a (.head _)).resolve_left fun heq => hnot (heq ▸ hx)
    · rcases mem_addOnce.mp hx with rfl | hx
      · exact ha a' ha'
      · exact hlas x hx a' (.tail _ ha')

theorem pairwise_zipIdx {α : Type} (l : List α) : l.zipIdx.Pairwise (·.2 < ·.2) := by
  have hrange : (List.range' 0 l.length).Pairwise (· < ·) := List.pairwise_lt_range'
  rwa [← List.zipIdx_map_snd 0 l, List.pairwise_map] at hrange

theorem pairwise_operationBits (t : Topology) :
    t.operationBits.Pairwise fun x y => x.1 = y.1 ∨ x.1.Earlier y.1 := by
  refine List.pairwise_flatMap.mpr ⟨fun ⟨o, operation⟩ _ => List.pairwise_flatMap.mpr ⟨?_, ?_⟩, ?_⟩
  · intro column _
    exact List.pairwise_map.mpr (List.pairwise_of_forall fun _ _ => .inl rfl)
  · refine List.pairwise_lt_range.imp fun hlt x hx y hy => ?_
    obtain ⟨_, -, rfl⟩ := List.mem_map.mp hx
    obtain ⟨_, -, rfl⟩ := List.mem_map.mp hy
    exact .inr (.inr ⟨rfl, hlt⟩)
  · refine (pairwise_zipIdx _).imp fun hlt x hx y hy => ?_
    simp only [List.mem_flatMap, List.mem_map] at hx hy
    obtain ⟨_, -, _, -, rfl⟩ := hx
    obtain ⟨_, -, _, -, rfl⟩ := hy
    exact .inr (.inl hlt)

theorem pairwise_sumBits (t : Topology) :
    t.sumBits.Pairwise fun x y => x.1 = y.1 ∨ x.1 < y.1 := by
  refine List.pairwise_flatMap.mpr ⟨fun ⟨s, sum⟩ _ => List.pairwise_flatMap.mpr ⟨?_, ?_⟩, ?_⟩
  · intro w _
    exact List.pairwise_map.mpr (List.pairwise_of_forall fun _ _ => .inl rfl)
  · refine List.pairwise_of_forall fun w w' x hx y hy => ?_
    obtain ⟨_, -, rfl⟩ := List.mem_map.mp hx
    obtain ⟨_, -, rfl⟩ := List.mem_map.mp hy
    exact .inl rfl
  · refine (pairwise_zipIdx _).imp fun hlt x hx y hy => ?_
    simp only [List.mem_flatMap, List.mem_map] at hx hy
    obtain ⟨_, -, _, -, rfl⟩ := hx
    obtain ⟨_, -, _, -, rfl⟩ := hy
    exact .inr hlt

-- ---------------------------------------------------------------------------
-- Exact readers
-- ---------------------------------------------------------------------------

/-- Whether readers are just those of a bit, in ascending order. -/
structure ReadBy (t : Topology) (b : Bit) (r : Readers) : Prop where
  site : ∀ s, s ∈ r.sites ↔ ∃ o, t.operations[s.operation]? = some o ∧ s.column < t.wordSize ∧
    b ∈ t.inputBits o s.column ++ t.outputBits o s.column
  sum : ∀ i, i ∈ r.sums ↔ ∃ s, t.sums[i]? = some s ∧ b.word ∈ s.words
  sites : r.sites.Pairwise Site.Earlier
  sums : r.sums.Pairwise (· < ·)

theorem mem_flatMap_wordBits {words : List Nat} :
    b ∈ words.flatMap t.wordBits ↔ b.word ∈ words ∧ b.column < t.wordSize := by
  simp only [List.mem_flatMap, wordBits, List.mem_map, List.mem_range]
  constructor
  · rintro ⟨w, hw, column, hcolumn, rfl⟩
    exact ⟨hw, hcolumn⟩
  · rintro ⟨hw, hcolumn⟩
    exact ⟨b.word, hw, b.column, hcolumn, rfl⟩

theorem readBy_addReaders (hreaders : t.readers = ∅) (hb : b.isZero = false)
    (hcolumn : b.column < t.wordSize) : t.ReadBy b (t.addReaders.readersOf b) := by
  have hnone : t.readers.getD b {} = {} := by rw [hreaders]; exact Std.TreeMap.getD_emptyc
  refine ⟨fun s => ?_, fun i => ?_, ?_, ?_⟩
  all_goals unfold addReaders readersOf; dsimp only
  · rw [sites_foldl_addSum, mem_sites_foldl_addSite, hnone, mem_operationBits]
    simp [hb]
  · rw [mem_sums_foldl_addSum, sums_foldl_addSite, hnone, mem_sumBits]
    simp only [mem_flatMap_wordBits, hcolumn, and_true, List.not_mem_nil, or_false]
  · rw [sites_foldl_addSum, sites_foldl_addSite, hnone]
    refine pairwise_foldl_addOnce _ .nil ?_ nofun
    exact List.pairwise_map.mpr (t.pairwise_operationBits.sublist List.filter_sublist)
  · rw [sums_foldl_addSum, sums_foldl_addSite, hnone]
    refine pairwise_foldl_addOnce _ .nil ?_ nofun
    exact List.pairwise_map.mpr (t.pairwise_sumBits.sublist List.filter_sublist)

/-- What accepted entries keep: atoms are at bits of words that are there, readers are just those
of the bit, and the readers of an atom are those of its bit. -/
structure Listed (t : Topology) : Prop where
  tracked : ∀ {a : Atom} {p : Place}, t.tracked[a]? = some p → t.Stands a p.bit
  readers : ∀ {b : Bit}, b.isZero = false → b.column < t.wordSize → t.ReadBy b (t.readersOf b)
  sameLists : t.Tracks → t.SameLists t.atomReaders t.readers

theorem Bounded.listed (h : t.Bounded) : t.Listed where
  tracked := h.tracked
  readers {b} _ _ := by
    have hnone : t.readersOf b = {} := by
      rw [readersOf, h.readers]
      exact Std.TreeMap.getD_emptyc
    rw [hnone]
    refine ⟨fun s => ?_, fun i => ?_, .nil, .nil⟩
    · simp [h.operations]
    · simp [h.sums]
  sameLists _ a p _ := by
    have hlists : t.atomReaders = ∅ := by
      simp [atomReaders, operationBits, sumBits, h.operations, h.sums]
    rw [hlists, h.readers, Std.TreeMap.getD_emptyc, Std.TreeMap.getD_emptyc, ite_self]

theorem Bounded.listed_of_build (h : t.Bounded) {order : Nat}
    (hbuild : t.build order = .ok (.ok (), t')) : t'.Listed := by
  have hranged := h.ranged_of_build hbuild
  obtain ⟨-, t₁, t₂, hsteps, hrounds, rfl⟩ := build_ok hbuild
  obtain ⟨-, -, -, -, hrest, -⟩ := addSteps_ok h.toNames hsteps
  obtain ⟨-, -, hrest₂⟩ := addRounds_ok hrounds
  have hreaders : t₂.readers = ∅ := by rw [hrest₂, hrest, ← h.readers]
  refine ⟨hranged.tracked, fun {b} hb hcolumn => ?_, fun ht =>
    sameLists_addReaders (t := t₂) ht hreaders⟩
  obtain ⟨hsite, hsum, hsites, hsums⟩ := t₂.readBy_addReaders hreaders hb hcolumn
  exact ⟨hsite, hsum, hsites, hsums⟩

theorem listed_of_accept? {e : Encoding} {n : Nat} {entries : List (String × Int)}
    (h : ({ encoding := e, wordSize := n } : Topology).accept? entries = some t) : t.Listed := by
  have hbounded : t.Bounded ∨ t.isBuilt = true ∧ t.Listed :=
    accept?_induction (P := fun t => t.Bounded ∨ t.isBuilt = true ∧ t.Listed)
      (fun {t t' name value} hp henter => by
        rcases hp with hbounded | ⟨hbuilt, -⟩
        · cases horder : t'.order with
          | none => exact .inl (hbounded.enter henter horder)
          | some order =>
            obtain ⟨order', hbuild⟩ := build_of_enter henter (by simp [horder])
            exact .inr ⟨by simp [isBuilt, horder], hbounded.listed_of_build hbuild⟩
        · rw [enter_of_isBuilt hbuilt] at henter
          cases henter)
      (.inl (bounded_initial e n)) h
  exact hbounded.elim Bounded.listed And.right

/-- A tracked atom has the lists that adding each reader to all atoms of a bit gives it, also where
its slot went to another atom. -/
theorem getD_atomReaders {e : Encoding} {n : Nat} {entries : List (String × Int)}
    (haccept : ({ encoding := e, wordSize := n } : Topology).accept? entries = some t)
    {a : Atom} {p : Place} (ha : t.tracked[a]? = some p) :
    t.atomReaders.getD a {} = t.readersOfAtom a p :=
  (listed_of_accept? haccept).sameLists (sane_of_accept? haccept).tracks a p ha

/-- So a bit may be refreshed with the lists of any of its atoms, its first one say. -/
theorem readersOf_eq_getD_atomReaders {e : Encoding} {n : Nat} {entries : List (String × Int)}
    (haccept : ({ encoding := e, wordSize := n } : Topology).accept? entries = some t)
    {a : Atom} (ha : a ∈ t.slotAtoms b) : t.readersOf b = t.atomReaders.getD a {} := by
  obtain ⟨slot, hslot⟩ := mem_slotAtoms.mp ha
  have htracked := (sane_of_accept? haccept).tracks b slot a hslot
  exact (if_pos hslot).symm.trans (getD_atomReaders haccept htracked).symm

/-- With each atom in a slot of a bit are listed exactly the columns and the sums that read the
bit, each once, and the same lists in the same order with all atoms of the bit. -/
theorem readers_of_accepted {e : Encoding} {n : Nat} {entries : List (String × Int)}
    (haccept : ({ encoding := e, wordSize := n } : Topology).accept? entries = some t)
    {slot : Nat} {a : Atom} (ha : (t.slots b)[slot]?.join = some a) :
    t.tracked[a]? = some ⟨b, slot⟩ ∧ t.ReadBy b (t.readersOfAtom a ⟨b, slot⟩) ∧
      (t.readersOfAtom a ⟨b, slot⟩).sites.Nodup ∧ (t.readersOfAtom a ⟨b, slot⟩).sums.Nodup ∧
      ∀ slot' a', (t.slots b)[slot']?.join = some a' →
        t.readersOfAtom a' ⟨b, slot'⟩ = t.readersOfAtom a ⟨b, slot⟩ := by
  have hlisted := listed_of_accept? haccept
  have htracked := (sane_of_accept? haccept).tracks b slot a ha
  have hstands := hlisted.tracked htracked
  have hof {slot : Nat} {a : Atom} (ha : (t.slots b)[slot]?.join = some a) :
      t.readersOfAtom a ⟨b, slot⟩ = t.readersOf b := if_pos ha
  have hread := hlisted.readers hstands.isZero hstands.column_lt
  rw [hof ha]
  exact ⟨htracked, hread, hread.sites.imp Site.Earlier.ne, hread.sums.imp Nat.ne_of_lt,
    fun slot' a' ha' => hof ha'⟩

/-- The lowest bit of an `A` is read at each column by the operation that rotates it, and the
highest bit of `T` by three additions and their sums. -/
theorem readers_of_wideEntries : ∃ t : Topology,
    ({ encoding := .li2024, wordSize := 2 } : Topology).accept? wideEntries = some t ∧
      t.readersOfAtom 15 ⟨⟨4, 0⟩, 0⟩ = ⟨[⟨0, 0⟩, ⟨0, 1⟩, ⟨2, 0⟩], []⟩ ∧
      t.ReadBy ⟨4, 0⟩ (t.readersOfAtom 15 ⟨⟨4, 0⟩, 0⟩) ∧
      t.readersOfAtom 16 ⟨⟨4, 0⟩, 1⟩ = t.readersOfAtom 15 ⟨⟨4, 0⟩, 0⟩ ∧
      t.readersOfAtom 49 ⟨⟨12, 1⟩, 0⟩ = ⟨[⟨4, 1⟩, ⟨5, 1⟩, ⟨6, 1⟩], [0, 1, 2]⟩ ∧
      t.ReadBy ⟨12, 1⟩ (t.readersOfAtom 49 ⟨⟨12, 1⟩, 0⟩) := by
  have haccepted : (({ encoding := .li2024, wordSize := 2 } : Topology).accept?
      wideEntries).map (fun t => (t.slots ⟨4, 0⟩, t.readersOfAtom 15 ⟨⟨4, 0⟩, 0⟩,
        (t.slots ⟨12, 1⟩)[0]?.join, t.readersOfAtom 49 ⟨⟨12, 1⟩, 0⟩)) =
      some ([some 15, some 16], ⟨[⟨0, 0⟩, ⟨0, 1⟩, ⟨2, 0⟩], []⟩,
        some 49, ⟨[⟨4, 1⟩, ⟨5, 1⟩, ⟨6, 1⟩], [0, 1, 2]⟩) := by decide +kernel
  obtain ⟨t, ht, heq⟩ := Option.map_eq_some_iff.mp haccepted
  simp only [Prod.mk.injEq] at heq
  obtain ⟨hslots, hreaders, hslot, hreaders'⟩ := heq
  have hfirst : (t.slots ⟨4, 0⟩)[0]?.join = some 15 := by rw [hslots]; rfl
  have hsecond : (t.slots ⟨4, 0⟩)[1]?.join = some 16 := by rw [hslots]; rfl
  obtain ⟨-, hread, -, -, hsame⟩ := readers_of_accepted ht hfirst
  obtain ⟨-, hread', -⟩ := readers_of_accepted ht hslot
  exact ⟨t, ht, hreaders, hread, hsame 1 16 hsecond, hreaders', hread'⟩

end Topology

end ShaDiff
