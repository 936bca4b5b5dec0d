import ShaDiff.Proofs.Schedule
import ShaDiff.Proofs.Topology.Entering

/-!
# The built topology

Each step of a built topology has a word for every role its round has, every word
belongs to the step of its round, and the operations and sums are those of all rounds
in turn, over the words of the steps (`Built`). Every topology that accepted entries
lead to is open or built (`open_or_built`).
-/

namespace ShaDiff.Topology

variable {t t' : Topology}

-- ---------------------------------------------------------------------------
-- Steps
-- ---------------------------------------------------------------------------

/-- Whether words were added to a topology in filling steps, of which the roles and
words of each are listed. A word that was named before is used for its role. -/
structure Fills (t t' : Topology) (filled : List (Word × Nat)) : Prop where
  kept : ∀ {i : Nat} {w}, t.words[i]? = some w → t'.words[i]? = some w
  word : ∀ {w i}, (w, i) ∈ filled → i ≠ zeroWord ∧ t'.words[i]? = some w
  named : ∀ {w i j}, (w, i) ∈ filled → t.named[w]? = some j → i = j
  new : ∀ {i : Nat} {w}, t'.words[i]? = some w → t.words[i]? = some w ∨ (w, i) ∈ filled

theorem Fills.refl (t : Topology) : Fills t t [] where
  kept h := h
  word h := nomatch h
  named h := nomatch h
  new h := .inl h

theorem Fills.trans {t₁ t₂ t₃ : Topology} {filled filled' : List (Word × Nat)}
    (h : Fills t₁ t₂ filled) (hn : t₂.named = t₁.named) (h' : Fills t₂ t₃ filled') :
    Fills t₁ t₃ (filled ++ filled') where
  kept hw := h'.kept (h.kept hw)
  word hmem := by
    rcases List.mem_append.mp hmem with hmem | hmem
    · exact ⟨(h.word hmem).1, h'.kept (h.word hmem).2⟩
    · exact h'.word hmem
  named hmem hw := by
    rcases List.mem_append.mp hmem with hmem | hmem
    · exact h.named hmem hw
    · exact h'.named hmem (hn ▸ hw)
  new hw := by
    rcases h'.new hw with hw | hmem
    · exact (h.new hw).imp_right (List.mem_append_left _)
    · exact .inr (List.mem_append_right _ hmem)

theorem Fills.of_named (hn : t.Names) {w : Word} {i : Nat} (h : t.named[w]? = some i) :
    Fills t t [(w, i)] where
  kept h := h
  word hmem := by
    obtain ⟨rfl, rfl⟩ := Prod.mk.inj (List.mem_singleton.mp hmem)
    exact hn.word h
  named hmem hw := by
    obtain ⟨rfl, rfl⟩ := Prod.mk.inj (List.mem_singleton.mp hmem)
    exact Option.some.inj (h.symm.trans hw)
  new hw := .inl hw

theorem Fills.push (hn : t.Names) {w : Word} (h : t.named[w]? = none) :
    Fills t { t with words := t.words.push w } [(w, t.words.size)] where
  kept hw := getElem?_push_of_some hw w
  word hmem := by
    obtain ⟨rfl, rfl⟩ := Prod.mk.inj (List.mem_singleton.mp hmem)
    exact ⟨hn.size_ne_zero, Array.getElem?_push_size⟩
  named hmem hw := by
    obtain ⟨rfl, rfl⟩ := Prod.mk.inj (List.mem_singleton.mp hmem)
    rw [h] at hw
    cases hw
  new {i v} hw := by
    have hw : (t.words.push w)[i]? = some v := hw
    rw [Array.getElem?_push] at hw
    split at hw
    · rename_i heq
      refine .inr (List.mem_singleton.mpr ?_)
      rw [heq, Option.some.inj hw]
    · exact .inl hw

theorem Names.fills (hn : t.Names) {filled : List (Word × Nat)} (h : Fills t t' filled)
    (hnamed : t'.named = t.named) : t'.Names :=
  hn.of_kept h.kept hnamed

theorem fillStep_ok {round : Int} {roles : List Role} {words filled : List (Role × Nat)}
    (hn : t.Names) (h : t.fillStep round roles words = (.ok filled, t')) :
    ∃ added, filled = words.reverse ++ added ∧ added.map (·.1) = roles ∧
      t' = { t with words := t'.words } ∧
      Fills t t' (added.map fun (r, i) => (⟨r, round⟩, i)) := by
  induction roles generalizing t words with
  | nil =>
    obtain ⟨h1, rfl⟩ := Prod.mk.inj h
    exact ⟨[], by rw [List.append_nil, Except.ok.inj h1], rfl, rfl, .refl t⟩
  | cons role roles ih =>
    unfold fillStep at h
    split at h
    · rename_i i hi
      obtain ⟨added, rfl, rfl, hrest, hfills⟩ := ih hn h
      exact ⟨(role, i) :: added, by simp, rfl, hrest, (Fills.of_named hn hi).trans rfl hfills⟩
    · rename_i hnone
      split at h
      · cases (Prod.mk.inj h).1
      · have hpush := Fills.push hn hnone
        obtain ⟨added, rfl, rfl, hrest, hfills⟩ := ih (hn.fills hpush rfl) h
        exact ⟨(role, t.words.size) :: added, by simp, rfl, hrest, hpush.trans rfl hfills⟩

theorem map_range_succ (start : Int) (count : Nat) :
    (List.range (count + 1)).map (fun i : Nat => start + i) =
      start :: (List.range count).map fun i : Nat => start + 1 + i := by
  rw [List.range_succ_eq_map, List.map_cons, List.map_map]
  refine List.cons_eq_cons.mpr ⟨Int.add_zero start, List.map_congr_left fun i _ => ?_⟩
  show start + (i + 1 : Nat) = _
  omega

def Step.entries (s : Step) : List (Word × Nat) := s.words.map fun (r, i) => (⟨r, s.round⟩, i)

theorem addSteps_ok {order : Nat} {rounds : List Int} (hn : t.Names)
    (h : t.addSteps order rounds = (.ok (), t')) :
    ∃ added : List Step, t'.steps.toList = t.steps.toList ++ added ∧
      added.map (·.round) = rounds ∧
      (∀ s ∈ added, s.words.map (·.1) =
        Role.configurable.filter (·.applicable s.round order)) ∧
      t' = { t with words := t'.words, steps := t'.steps } ∧
      Fills t t' (added.flatMap Step.entries) := by
  induction rounds generalizing t with
  | nil =>
    obtain ⟨-, rfl⟩ := Prod.mk.inj h
    exact ⟨[], by simp, rfl, (fun _ h => nomatch h), rfl, .refl t⟩
  | cons round rounds ih =>
    unfold addSteps at h
    split at h
    · cases (Prod.mk.inj h).1
    · rename_i filled t₁ hfill
      obtain ⟨words, hwords, hroles, hrest, hfills⟩ := fillStep_ok hn hfill
      have hwords : filled = words := hwords
      subst hwords
      have hnamed : t₁.named = t.named := by rw [hrest]
      have hsteps : t₁.steps = t.steps := by rw [hrest]
      obtain ⟨added, hadded, rfl, happ, hrest', hfills'⟩ :=
        ih (t := { t₁ with steps := t₁.steps.push ⟨round, filled⟩ })
          ⟨(hn.fills hfills hnamed).zero, (hn.fills hfills hnamed).word⟩ h
      refine ⟨⟨round, filled⟩ :: added, ?_, rfl, List.forall_mem_cons.mpr ⟨hroles, happ⟩, ?_, ?_⟩
      · rw [hadded, Array.toList_push, hsteps]
        simp
      · rw [hrest', hrest]
      · exact hfills.trans hnamed ⟨hfills'.kept, hfills'.word, hfills'.named, hfills'.new⟩

theorem fillStep_frame (t : Topology) (round : Int) (roles : List Role)
    (words : List (Role × Nat)) :
    ∃ words', (t.fillStep round roles words).2 = { t with words := words' } := by
  induction roles generalizing t words with
  | nil => exact ⟨t.words, rfl⟩
  | cons role roles ih =>
    unfold fillStep
    split
    · exact ih t _
    · split
      · exact ⟨t.words, rfl⟩
      · exact ih { t with words := t.words.push ⟨role, round⟩ } _

theorem addSteps_frame (t : Topology) (order : Nat) (rounds : List Int) :
    ∃ words steps, (t.addSteps order rounds).2 = { t with words, steps } := by
  induction rounds generalizing t with
  | nil => exact ⟨t.words, t.steps, rfl⟩
  | cons round rounds ih =>
    obtain ⟨words, hfill⟩ :=
      t.fillStep_frame round (Role.configurable.filter (·.applicable round order)) []
    unfold addSteps
    split
    · next heq =>
      rw [heq] at hfill
      obtain rfl := hfill
      exact ⟨words, t.steps, rfl⟩
    · next heq =>
      rw [heq] at hfill
      obtain rfl := hfill
      exact ih _

-- ---------------------------------------------------------------------------
-- Operations, sums and readers
-- ---------------------------------------------------------------------------

def wordOf (t : Topology) (r : Role) (round : Int) : Nat := (t.stepWord? r round).getD zeroWord

theorem addRounds_ok {rounds : List Int} (h : t.addRounds rounds = .ok t') :
    t'.operations.toList = t.operations.toList ++
        rounds.flatMap (fun i => operationsOfRound (back t.wordOf i) t.wordSize i) ∧
      t'.sums.toList = t.sums.toList ++ rounds.flatMap (fun i => sumsOfRound (back t.wordOf i) i) ∧
      t' = { t with operations := t'.operations, sums := t'.sums } := by
  induction rounds generalizing t with
  | nil =>
    obtain rfl := Except.ok.inj h
    exact ⟨by simp, by simp, rfl⟩
  | cons round rounds ih =>
    unfold addRounds at h
    split at h
    · cases h
    · obtain ⟨hops, hsums, hrest⟩ := ih h
      refine ⟨?_, ?_, hrest⟩
      · rw [hops, Array.toList_appendList, List.flatMap_cons, List.append_assoc]
        rfl
      · rw [hsums, Array.toList_appendList, List.flatMap_cons, List.append_assoc]
        rfl

def ColumnsBelow (size : Nat) (readers : Std.TreeMap Bit Readers) : Prop :=
  ∀ b : Bit, ∀ s ∈ (readers.getD b {}).sites, s.column < size

theorem ColumnsBelow.addSite {size : Nat} {readers : Std.TreeMap Bit Readers}
    (h : ColumnsBelow size readers) {s : Site} (hs : s.column < size) (b : Bit) :
    ColumnsBelow size (addSite readers s b) := by
  unfold Topology.addSite
  split
  · exact h
  · dsimp only
    split
    · exact h
    · intro c u hu
      rw [Std.TreeMap.getD_insert] at hu
      split at hu
      · rcases List.mem_append.mp hu with hu | hu
        · exact h b u hu
        · exact List.mem_singleton.mp hu ▸ hs
      · exact h c u hu

theorem ColumnsBelow.addSum {size : Nat} {readers : Std.TreeMap Bit Readers}
    (h : ColumnsBelow size readers) (sum : Nat) (b : Bit) :
    ColumnsBelow size (addSum readers sum b) := by
  unfold Topology.addSum
  dsimp only
  split
  · exact h
  · intro c u hu
    rw [Std.TreeMap.getD_insert] at hu
    split at hu
    · exact h b u hu
    · exact h c u hu

theorem column_of_mem_operationBits {s : Site} {b : Bit} (h : (s, b) ∈ t.operationBits) :
    s.column < t.wordSize := by
  simp only [operationBits, List.mem_flatMap, List.mem_map, Prod.mk.injEq] at h
  obtain ⟨_, -, column, hcolumn, _, -, rfl, -⟩ := h
  exact List.mem_range.mp hcolumn

theorem columnsBelow_addReaders (h : t.readers = ∅) :
    ColumnsBelow t.wordSize t.addReaders.readers := by
  have hsites (bits : List (Site × Bit)) (hbits : ∀ x ∈ bits, x.1.column < t.wordSize)
      {readers : Std.TreeMap Bit Readers} (hr : ColumnsBelow t.wordSize readers) :
      ColumnsBelow t.wordSize (bits.foldl (fun r x => addSite r x.1 x.2) readers) := by
    induction bits generalizing readers with
    | nil => exact hr
    | cons x bits ih =>
      exact ih (fun y hy => hbits y (.tail _ hy)) (hr.addSite (hbits x (.head _)) x.2)
  have hsums (bits : List (Nat × Bit)) {readers : Std.TreeMap Bit Readers}
      (hr : ColumnsBelow t.wordSize readers) :
      ColumnsBelow t.wordSize (bits.foldl (fun r x => addSum r x.1 x.2) readers) := by
    induction bits generalizing readers with
    | nil => exact hr
    | cons x bits ih => exact ih (hr.addSum x.1 x.2)
  refine hsums _ (hsites _ (fun x hx => column_of_mem_operationBits hx) ?_)
  rw [h]
  intro b s hs
  simp at hs

-- ---------------------------------------------------------------------------
-- The built topology
-- ---------------------------------------------------------------------------

/-- A topology of so many rounds. -/
structure Built (t : Topology) (order : Nat) : Prop where
  order_eq : t.order = some order
  pos : 1 ≤ order
  le_max : order ≤ orderMax
  stepWord : ∀ {r k}, r.applicable k order = true →
    ∃ i, t.stepWord? r k = some i ∧ i ≠ zeroWord ∧ t.words[i]? = some ⟨r, k⟩
  word : ∀ {i w}, i ≠ zeroWord → t.words[i]? = some w →
    w.role.applicable w.round order = true ∧ t.stepWord? w.role w.round = some i
  operations : t.operations.toList = ((List.range order).map Int.ofNat).flatMap
    fun i => operationsOfRound (back t.wordOf i) t.wordSize i
  sums : t.sums.toList = ((List.range order).map Int.ofNat).flatMap
    fun i => sumsOfRound (back t.wordOf i) i
  readers : ColumnsBelow t.wordSize t.readers

theorem lookup_of_mem {words : List (Role × Nat)} (hn : (words.map (·.1)).Nodup) {r : Role}
    {i : Nat} (h : (r, i) ∈ words) : words.lookup r = some i := by
  induction words with
  | nil => cases h
  | cons x words ih =>
    obtain ⟨hx, hn⟩ := List.nodup_cons.mp hn
    rcases List.mem_cons.mp h with rfl | h
    · exact List.lookup_cons_self
    · have hne : (r == x.1) = false :=
        beq_eq_false_iff_ne.mpr fun heq => hx (List.mem_map.mpr ⟨_, h, heq⟩)
      rw [List.lookup_cons, hne]
      exact ih hn h

theorem build_ok {order : Nat} (h : t.build order = .ok (.ok (), t')) :
    (∀ (w : Word) i, t.named[w]? = some i → w.role.applicable w.round order = true) ∧
      ∃ t₁ t₂, t.addSteps order (rounds order) = (.ok (), t₁) ∧
        t₁.addRounds ((List.range order).map Int.ofNat) = .ok t₂ ∧
        t' = { t₂.addReaders with order := some order } := by
  unfold build at h
  split at h
  · cases h
  · split at h
    · cases h
    · rename_i hfind
      refine ⟨fun w i hw => ?_, ?_⟩
      · have hmem : w ∈ t.named.keys :=
          Std.TreeMap.mem_keys.mpr (Std.TreeMap.mem_iff_isSome_getElem?.mpr (by rw [hw]; rfl))
        simpa using List.find?_eq_none.mp hfind w hmem
      · split at h
        · cases h
        · rename_i t₁ hsteps
          cases hrounds : t₁.addRounds ((List.range order).map Int.ofNat) with
          | error breach => simp [hrounds, bind, Except.bind] at h
          | ok t₂ =>
            simp only [hrounds, bind, Except.bind, pure, Except.pure] at h
            exact ⟨t₁, t₂, hsteps, hrounds, ((Prod.mk.inj (Except.ok.inj h)).2).symm⟩

/-- An order that is rejected changes nothing unless it is for a missing word. -/
theorem build_error {order : Nat} {fault : Fault} (h : t.build order = .ok (.error fault, t')) :
    t' = t ∧ (fault = .missingZero ∨ ∃ w, w ∈ t.named ∧
      w.role.applicable w.round order = false ∧ fault = .roundOutOfRange w.round) ∨
      (t.addSteps order (rounds order)).1 = .error fault ∧
        t' = (t.addSteps order (rounds order)).2 := by
  unfold build at h
  split at h
  · cases h
    exact .inl ⟨rfl, .inl rfl⟩
  · split at h
    · next w hw =>
      cases h
      have hnone : w.role.applicable w.round order = false := by simpa using List.find?_some hw
      exact .inl ⟨rfl, .inr ⟨w, Std.TreeMap.mem_keys.mp (List.mem_of_find?_eq_some hw), hnone, rfl⟩⟩
    · split at h
      · next heq =>
        cases h
        exact .inr (by rw [heq]; exact ⟨rfl, rfl⟩)
      · next t₁ _ =>
        cases hrounds : t₁.addRounds ((List.range order).map Int.ofNat) with
        | error => simp [hrounds, bind, Except.bind] at h
        | ok => simp [hrounds, bind, Except.bind, pure, Except.pure] at h

theorem stepWord?_of_mem {added : List Step} {order : Nat} (hsteps : t.steps.toList = added)
    (hround : added.map (·.round) = rounds order)
    (hroles : ∀ s ∈ added, s.words.map (·.1) =
      Role.configurable.filter (·.applicable s.round order))
    {s : Step} (hs : s ∈ added) {r : Role} {i : Nat} (hi : (r, i) ∈ s.words) :
    t.stepWord? r s.round = some i := by
  obtain ⟨j, hj⟩ := List.getElem?_of_mem hs
  have hsj : s.round = firstRound + j := by
    have : (added.map (·.round))[j]? = some s.round := by rw [List.getElem?_map, hj]; rfl
    rw [hround, rounds, List.getElem?_map] at this
    obtain ⟨k, hk, hround⟩ := Option.map_eq_some_iff.mp this
    obtain ⟨hlt, hk⟩ := List.getElem?_eq_some_iff.mp hk
    rw [List.getElem_range] at hk
    rw [← hround, hk]
  have hat : t.stepAt? s.round = some s := by
    have hindex : s.round - firstRound = j := by omega
    rw [stepAt?, hindex, if_pos (Int.natCast_nonneg j), Int.toNat_natCast, ← Array.getElem?_toList,
      hsteps, hj]
  have hnodup : (s.words.map (·.1)).Nodup := by
    rw [hroles s hs]
    exact List.Pairwise.filter _ (show Role.configurable.Nodup by decide)
  rw [stepWord?, hat]
  exact lookup_of_mem hnodup hi

theorem exists_step_of_applicable {added : List Step} {order : Nat} (hmax : order ≤ orderMax)
    (hround : added.map (·.round) = rounds order)
    (hroles : ∀ s ∈ added, s.words.map (·.1) =
      Role.configurable.filter (·.applicable s.round order))
    {r : Role} {k : Int} (hr : r.applicable k order = true) :
    ∃ s ∈ added, s.round = k ∧ ∃ i, (r, i) ∈ s.words := by
  obtain ⟨hzero, hsince, hlt⟩ := (Role.applicable_iff hmax).mp hr
  have hle := Int.le_trans r.firstRound_le_since hsince
  have hk : k ∈ rounds order := by
    refine List.mem_map.mpr ⟨(k - firstRound).toNat, List.mem_range.mpr ?_, ?_⟩
    · simp only [firstRound] at hle ⊢
      omega
    · omega
  rw [← hround] at hk
  obtain ⟨s, hs, rfl⟩ := List.mem_map.mp hk
  have hmem : r ∈ s.words.map (·.1) := by
    rw [hroles s hs]
    refine List.mem_filter.mpr ⟨?_, hr⟩
    cases r <;> first | exact absurd rfl hzero | decide
  obtain ⟨⟨_, i⟩, hi, rfl⟩ := List.mem_map.mp hmem
  exact ⟨s, hs, rfl, i, hi⟩

theorem Open.built (h : t.Open) {order : Nat} (hpos : 1 ≤ order) (hmax : order ≤ orderMax)
    (hbuild : t.build order = .ok (.ok (), t')) : t'.Built order := by
  obtain ⟨happ, t₁, t₂, hsteps, hrounds, rfl⟩ := build_ok hbuild
  obtain ⟨added, hadded, hround, hroles, hrest, hfills⟩ := addSteps_ok h.toNames hsteps
  obtain ⟨hops, hsums, hrest₂⟩ := addRounds_ok hrounds
  rw [h.steps] at hadded
  have hadded : t₁.steps.toList = added := hadded
  have hsteps₂ : t₂.steps = t₁.steps := by rw [hrest₂]
  have hwords₂ : t₂.words = t₁.words := by rw [hrest₂]
  have hsize : t₂.wordSize = t₁.wordSize := by rw [hrest₂]
  have hwordOf : t₂.wordOf = t₁.wordOf := by rw [hrest₂]; rfl
  have hlookup {s : Step} (hs : s ∈ added) {r : Role} {i : Nat} (hi : (r, i) ∈ s.words) :
      t₂.stepWord? r s.round = some i :=
    stepWord?_of_mem (hsteps₂ ▸ hadded) hround hroles hs hi
  have hentry {s : Step} (hs : s ∈ added) {r : Role} {i : Nat} (hi : (r, i) ∈ s.words) :
      ((⟨r, s.round⟩ : Word), i) ∈ added.flatMap Step.entries :=
    List.mem_flatMap.mpr ⟨s, hs, List.mem_map.mpr ⟨_, hi, rfl⟩⟩
  refine ⟨rfl, hpos, hmax, ?_, ?_, ?_, ?_, ?_⟩
  · intro r k hr
    obtain ⟨s, hs, rfl, i, hi⟩ := exists_step_of_applicable hmax hround hroles hr
    obtain ⟨hne, hword⟩ := hfills.word (hentry hs hi)
    exact ⟨i, hlookup hs hi, hne, show t₂.words[i]? = _ by rw [hwords₂, hword]⟩
  · intro i w hne hw
    have hw : t₁.words[i]? = some w := hwords₂ ▸ hw
    rcases hfills.new hw with hold | hnew
    · have hnamed := h.named hne hold
      have hr := happ w i hnamed
      obtain ⟨s, hs, hround, j, hj⟩ := exists_step_of_applicable hmax hround hroles hr
      have hij : j = i := hfills.named (hentry hs hj) (by rw [hround]; exact hnamed)
      exact ⟨hr, hround ▸ hij ▸ hlookup hs hj⟩
    · obtain ⟨s, hs, hmem⟩ := List.mem_flatMap.mp hnew
      obtain ⟨⟨r, j⟩, hj, heq⟩ := List.mem_map.mp hmem
      obtain ⟨rfl, rfl⟩ := Prod.mk.inj heq
      refine ⟨?_, hlookup hs hj⟩
      have hmem : r ∈ s.words.map (·.1) := List.mem_map_of_mem hj
      rw [hroles s hs] at hmem
      exact (List.mem_filter.mp hmem).2
  · show t₂.operations.toList = List.flatMap (fun i =>
      operationsOfRound (back t₂.wordOf i) t₂.wordSize i) _
    have hnone : t₁.operations = #[] := by rw [hrest, ← h.operations]
    rw [hops, hnone, hwordOf, hsize]
    rfl
  · show t₂.sums.toList = List.flatMap (fun i => sumsOfRound (back t₂.wordOf i) i) _
    have hnone : t₁.sums = #[] := by rw [hrest, ← h.sums]
    rw [hsums, hnone, hwordOf]
    rfl
  · exact columnsBelow_addReaders (by rw [hrest₂, hrest, ← h.readers])

-- ---------------------------------------------------------------------------
-- Entries
-- ---------------------------------------------------------------------------

/-- What accepted entries preserve: the encoding and the size of words are those a
topology began with, atoms are tracked, and it is open or built. -/
structure Sane (e : Encoding) (n : Nat) (t : Topology) : Prop where
  encoding_eq : t.encoding = e
  wordSize_eq : t.wordSize = n
  tracks : t.Tracks
  open_or_built : t.Open ∨ ∃ order, t.Built order

theorem sane_initial (e : Encoding) (n : Nat) : Sane e n { encoding := e, wordSize := n } where
  encoding_eq := rfl
  wordSize_eq := rfl
  tracks b slot a h := by
    unfold slots at h
    split at h
    · cases h
    · simp at h
  open_or_built := .inl (open_initial e n)

theorem build_frame {order : Nat} {result : Except Fault Unit}
    (h : t.build order = .ok (result, t')) : ∃ words steps operations sums readers order',
      t' = { t with words, steps, operations, sums, readers, order := order' } := by
  obtain ⟨words, steps, hframe⟩ := t.addSteps_frame order (rounds order)
  cases result with
  | ok =>
    obtain ⟨-, t₁, t₂, hsteps, hrounds, rfl⟩ := build_ok h
    rw [hsteps] at hframe
    obtain rfl := hframe
    obtain ⟨-, -, hrest⟩ := addRounds_ok hrounds
    rw [hrest]
    exact ⟨_, _, _, _, _, _, rfl⟩
  | error fault =>
    obtain ⟨rfl, -⟩ | ⟨-, rfl⟩ := build_error h
    · exact ⟨_, _, _, _, _, _, rfl⟩
    · rw [hframe]
      exact ⟨_, _, _, _, _, _, rfl⟩

theorem Open.of_enter (h : t.Open) {name : String} {value : Int}
    (henter : t.enter name value = .ok (.ok (), t')) : t'.Open ∨ ∃ order, t'.Built order := by
  obtain ⟨-, ⟨atoms, rfl⟩ | ⟨w, column, filled, hfill⟩ | ⟨order, hpos, hmax, hbuild⟩⟩ :=
    enter_ok henter
  · exact .inl ⟨⟨h.zero, h.word⟩, h.order, h.steps, h.operations, h.sums, h.readers, h.named⟩
  · refine .inl ?_
    have := fillSlots_induction (P := Open) (t := (t.nameWord w).2) (b := ⟨(t.nameWord w).1, column⟩)
      (fun h _ => ⟨⟨h.zero, h.word⟩, h.order, h.steps, h.operations, h.sums, h.readers, h.named⟩)
      (h.nameWord w) filled
    rwa [hfill] at this
  · exact .inr ⟨order, h.built hpos hmax hbuild⟩

theorem Tracks.of_eq (h : t.Tracks) (hatoms : t'.atoms = t.atoms)
    (htracked : t'.tracked = t.tracked) : t'.Tracks := by
  intro b slot a ha
  rw [htracked]
  refine h b slot a ?_
  rwa [slots, hatoms] at ha

theorem nameWord_frame (t : Topology) (w : Word) :
    (t.nameWord w).2.encoding = t.encoding ∧ (t.nameWord w).2.wordSize = t.wordSize ∧
      (t.nameWord w).2.atoms = t.atoms ∧ (t.nameWord w).2.tracked = t.tracked := by
  unfold nameWord
  split <;> exact ⟨rfl, rfl, rfl, rfl⟩

theorem Sane.enter {e : Encoding} {n : Nat} (h : Sane e n t) {name : String} {value : Int}
    (henter : t.enter name value = .ok (.ok (), t')) : Sane e n t' := by
  obtain ⟨hnone, hcases⟩ := enter_ok henter
  have hopen : t.Open := by
    rcases h.open_or_built with hopen | ⟨order, hbuilt⟩
    · exact hopen
    · exact absurd (hbuilt.order_eq.symm.trans hnone) (by simp)
  rcases hcases with ⟨atoms, rfl⟩ | ⟨w, column, filled, hfill⟩ | ⟨order, -, -, hbuild⟩
  · exact ⟨h.encoding_eq, h.wordSize_eq, h.tracks.of_eq rfl rfl, hopen.of_enter henter⟩
  · obtain ⟨he, hn, hatoms, htracked⟩ := t.nameWord_frame w
    have := fillSlots_induction (b := ⟨(t.nameWord w).1, column⟩)
      (P := fun t => t.encoding = e ∧ t.wordSize = n ∧ t.Tracks)
      (fun ⟨he, hn, ht⟩ hfree => ⟨he, hn, ht.setSlot hfree⟩)
      ⟨he.trans h.encoding_eq, hn.trans h.wordSize_eq, h.tracks.of_eq hatoms htracked⟩ filled
    rw [hfill] at this
    exact ⟨this.1, this.2.1, this.2.2, hopen.of_enter henter⟩
  · have hlast := hopen.of_enter henter
    obtain ⟨words, steps, operations, sums, readers, order', rfl⟩ := build_frame hbuild
    exact ⟨h.encoding_eq, h.wordSize_eq, h.tracks.of_eq rfl rfl, hlast⟩

-- ---------------------------------------------------------------------------
-- Entries that may be rejected
-- ---------------------------------------------------------------------------

theorem Tracks.enter (h : t.Tracks) {name : String} {value : Int} {result : Except Fault Unit}
    (henter : t.enter name value = .ok (result, t')) : t'.Tracks := by
  rcases enter_cases henter with rfl | ⟨atoms, -, rfl⟩ | ⟨w, column, filled, -, hfill⟩ |
    ⟨order, -, hbuild⟩
  · exact h
  · exact h.of_eq rfl rfl
  · obtain ⟨-, -, hatoms, htracked⟩ := t.nameWord_frame w
    have hfilled := fillSlots_induction (P := Tracks) (b := ⟨(t.nameWord w).1, column⟩)
      (fun ht hfree => ht.setSlot hfree) (h.of_eq hatoms htracked) filled
    rwa [hfill] at hfilled
  · obtain ⟨words, steps, operations, sums, readers, order', rfl⟩ := build_frame hbuild
    exact h.of_eq rfl rfl

theorem sane_of_accept? {e : Encoding} {n : Nat} {entries : List (String × Int)}
    (h : ({ encoding := e, wordSize := n } : Topology).accept? entries = some t) : Sane e n t :=
  accept?_induction (P := Sane e n) (fun hs henter => hs.enter henter) (sane_initial e n) h

-- ---------------------------------------------------------------------------
-- Shapes
-- ---------------------------------------------------------------------------

theorem Built.outputs {order : Nat} (h : t.Built order) {o : Operation} (ho : o ∈ t.operations) :
    o.outputs.length = o.gate.width := by
  rw [← Array.mem_toList_iff, h.operations] at ho
  obtain ⟨i, -, ho⟩ := List.mem_flatMap.mp ho
  exact outputs_operationsOfRound _ _ i o ho

def Shaped (t : Topology) : Prop :=
  ∀ s ∈ t.sums, s.positive.length = s.role.addends ∧ s.negative.length = 1

theorem Shaped.build (h : t.Shaped) {order : Nat} {result : Except Fault Unit}
    (hbuild : t.build order = .ok (result, t')) : t'.Shaped := by
  obtain ⟨words, steps, hframe⟩ := t.addSteps_frame order (rounds order)
  cases result with
  | ok =>
    obtain ⟨-, t₁, t₂, hsteps, hrounds, rfl⟩ := build_ok hbuild
    rw [hsteps] at hframe
    have hframe : t₁.sums = t.sums := by rw [show t₁ = _ from hframe]
    obtain ⟨-, hsums, -⟩ := addRounds_ok hrounds
    intro s hs
    have hs : s ∈ t₂.sums.toList := Array.mem_toList_iff.mpr hs
    rw [hsums, hframe, List.mem_append, Array.mem_toList_iff] at hs
    rcases hs with hs | hs
    · exact h s hs
    · obtain ⟨i, -, hs⟩ := List.mem_flatMap.mp hs
      exact shape_sumsOfRound _ i s hs
  | error fault =>
    obtain ⟨rfl, -⟩ | ⟨-, rfl⟩ := build_error hbuild
    · exact h
    · rw [hframe]
      exact h

theorem Shaped.enter (h : t.Shaped) {name : String} {value : Int} {result : Except Fault Unit}
    (henter : t.enter name value = .ok (result, t')) :
    t'.Shaped ∧ t'.encoding = t.encoding ∧ t'.wordSize = t.wordSize := by
  rcases enter_cases henter with rfl | ⟨atoms, -, rfl⟩ | ⟨w, column, filled, -, hfill⟩ |
    ⟨order, -, hbuild⟩
  · exact ⟨h, rfl, rfl⟩
  · exact ⟨h, rfl, rfl⟩
  · have hfilled := fillSlots_induction (b := ⟨(t.nameWord w).1, column⟩)
      (P := fun t' => t'.Shaped ∧ t'.encoding = t.encoding ∧ t'.wordSize = t.wordSize)
      (fun h _ => h) (t := (t.nameWord w).2) ?_ filled
    · rwa [hfill] at hfilled
    · obtain ⟨hencoding, hsize, -, -⟩ := t.nameWord_frame w
      refine ⟨?_, hencoding, hsize⟩
      unfold nameWord
      split <;> exact h
  · have hshaped := h.build hbuild
    obtain ⟨words, steps, operations, sums, readers, order', rfl⟩ := build_frame hbuild
    exact ⟨hshaped, rfl, rfl⟩

theorem Built.sumShape {order : Nat} (h : t.Built order) {s : SumEquation} (hs : s ∈ t.sums) :
    s.positive.length = s.role.addends ∧ s.negative.length = 1 := by
  rw [← Array.mem_toList_iff, h.sums] at hs
  obtain ⟨i, -, hs⟩ := List.mem_flatMap.mp hs
  exact shape_sumsOfRound _ i s hs

end ShaDiff.Topology
