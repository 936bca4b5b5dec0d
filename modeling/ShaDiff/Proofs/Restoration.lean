import ShaDiff.Proofs.Run
import ShaDiff.Proofs.Soundness

/-!
# A return to a level restores what was

At every point of a run the values are those of the literals on the trail and of tracked
ones that were fixed (`Recorded`). No atom is twice on the trail, so to remove what is
above a level takes back just what was told since the level was opened, fixed literals
apart. Conditions depend on the values alone. So after a return they are what they would
be had the host told only what is left.
-/

namespace ShaDiff.Propagator

variable {ρ : Type} [Coin ρ] {config : Config} {source : ρ} {start p q : Propagator ρ}
  {rs : List Request} {r : Request} {t : Trail}

-- ---------------------------------------------------------------------------
-- Values
-- ---------------------------------------------------------------------------

/-- Whether the values are those that the requests of a run have left. -/
structure Recorded (start : Propagator ρ) (rs : List Request) (p : Propagator ρ) : Prop where
  topology : p.topology = start.topology
  value : ∀ a v, p.value? a = some v ↔ (⟨a, v⟩ : Literal) ∈ p.trail.toList ∨
    start.topology.tracked.contains a = true ∧ .call (.assign ⟨a, v⟩ true) ∈ rs
  fixed : ∀ a, p.valuation.fixed.contains a = true ↔
    start.topology.tracked.contains a = true ∧ ∃ v, .call (.assign ⟨a, v⟩ true) ∈ rs
  tracked : ∀ l ∈ p.trail.toList, start.topology.tracked.contains l.atom = true
  nodup : (p.trail.toList.map (·.atom)).Nodup
  mirrors : p.topology.Mirrors p.valuation p.characteristic

omit [Coin ρ] in
theorem Prepared.recorded (h : Prepared config source p) : p.Recorded [] p := by
  obtain ⟨t, -, columnCache, rfl⟩ := h.exists_eq
  refine ⟨rfl, fun a v => ?_, fun a => ?_, nofun, List.nodup_nil,
    .of_none (fun b => ?_) Valuation.value?_empty ?_⟩
  · simp [new, value?, Trail.empty, Trail.toList]
  · simp [new, Valuation.empty]
  · simp [new, Valuation.empty]
  · intro b hb
    simp [new, Characteristic.get, Characteristic.empty, hb]

omit [Coin ρ] in
theorem Prepared.value? (h : Prepared config source p) (a : Atom) : p.value? a = none := by
  obtain ⟨t, -, columnCache, rfl⟩ := h.exists_eq
  exact Valuation.value?_empty a

omit [Coin ρ] in
theorem Recorded.unchanged (h : start.Recorded rs p) (htopology : q.topology = p.topology)
    (htrail : q.trail.toList = p.trail.toList) (hvalues : q.valuation.values = p.valuation.values)
    (hfixed : q.valuation.fixed = p.valuation.fixed)
    (hmirrors : p.topology.Mirrors q.valuation q.characteristic)
    (hr : ∀ l, r ≠ .call (.assign l true)) : start.Recorded (rs ++ [r]) q where
  topology := htopology.trans h.topology
  value a v := by
    have hmem : .call (.assign ⟨a, v⟩ true) ∈ rs ++ [r] ↔ .call (.assign ⟨a, v⟩ true) ∈ rs := by
      simp [(hr _).symm]
    rw [htrail, hmem, ← h.value, value?, value?, Valuation.value?, Valuation.value?, hvalues]
  fixed a := by
    have hmem (v : Bool) : .call (.assign ⟨a, v⟩ true) ∈ rs ++ [r] ↔
        .call (.assign ⟨a, v⟩ true) ∈ rs := by
      simp [(hr _).symm]
    simp only [hmem, hfixed, h.fixed]
  tracked := htrail ▸ h.tracked
  nodup := htrail ▸ h.nodup
  mirrors := htopology ▸ hmirrors

section

variable {l : Literal} {isFixed : Bool}

theorem mem_concat_assign {k : Literal} {rs : List Request} :
    .call (.assign k true) ∈ rs ++ [.call (.assign l isFixed)] ↔
      .call (.assign k true) ∈ rs ∨ k = l ∧ isFixed = true := by
  simp [eq_comm]

omit [Coin ρ] in
theorem Recorded.assign_untracked (h : start.Recorded rs p)
    (ht : p.topology.tracked.contains l.atom = false) :
    start.Recorded (rs ++ [.call (.assign l isFixed)]) (p.assign l isFixed) := by
  rw [assign_of_untracked ht]
  rw [h.topology] at ht
  have hmem (a : Atom) (v : Bool) (ha : start.topology.tracked.contains a = true) :
      .call (.assign ⟨a, v⟩ true) ∈ rs ++ [.call (.assign l isFixed)] ↔
        .call (.assign ⟨a, v⟩ true) ∈ rs := by
    rw [mem_concat_assign, or_iff_left]
    rintro ⟨rfl, -⟩
    exact nomatch ht.symm.trans ha
  refine { h with value := fun a v => ?_, fixed := fun a => ?_ }
  · rw [h.value]
    exact or_congr_right (and_congr_right fun ha => (hmem a v ha).symm)
  · rw [h.fixed]
    exact and_congr_right fun ha => exists_congr fun v => (hmem a v ha).symm

omit [Coin ρ] in
theorem trail_toList_assign (hb : p.isBuilt = true)
    (ht : p.topology.tracked.contains l.atom = true) :
    (p.assign l isFixed).trail.toList = p.trail.toList ++ if isFixed then [] else [l] := by
  rw [trail_assign hb ht]
  cases isFixed
  · exact p.trail.toList_store l
  · exact (List.append_nil _).symm

omit [Coin ρ] in
theorem Recorded.value_assign (h : start.Recorded rs p) (hb : p.isBuilt = true)
    (hl : p.allows (.call (.assign l isFixed)) = true)
    (ht : p.topology.tracked.contains l.atom = true) (a : Atom) (v : Bool) :
    (p.assign l isFixed).value? a = some v ↔
      (⟨a, v⟩ : Literal) ∈ (p.assign l isFixed).trail.toList ∨
        start.topology.tracked.contains a = true ∧
          .call (.assign ⟨a, v⟩ true) ∈ rs ++ [.call (.assign l isFixed)] := by
  have htracked := h.topology ▸ ht
  rw [value?_assign hb ht, trail_toList_assign hb ht, List.mem_append, mem_concat_assign]
  split
  · next ha =>
    have hknown : p.value? a = some v → isFixed = true ∧ v = l.polarity :=
      fun hv => polarity_of_allows hl (ha ▸ hv)
    rw [h.value] at hknown
    subst ha
    cases l with | mk x w =>
    cases isFixed <;> simp at hknown ⊢ <;> grind
  · next ha =>
    have hne : (⟨a, v⟩ : Literal) ≠ l := fun heq => ha (heq ▸ rfl)
    rw [h.value]
    cases isFixed <;> simp [hne]

omit [Coin ρ] in
theorem Recorded.fixed_assign (h : start.Recorded rs p) (hb : p.isBuilt = true)
    (ht : p.topology.tracked.contains l.atom = true) (a : Atom) :
    (p.assign l isFixed).valuation.fixed.contains a = true ↔
      start.topology.tracked.contains a = true ∧
        ∃ v, .call (.assign ⟨a, v⟩ true) ∈ rs ++ [.call (.assign l isFixed)] := by
  rw [Propagator.fixed_assign hb ht]
  simp only [mem_concat_assign]
  cases isFixed with
  | false => simpa using h.fixed a
  | true =>
    simp only [if_true, Std.TreeSet.contains_insert, Bool.or_eq_true, beq_iff_eq,
      Std.LawfulEqCmp.compare_eq_iff_eq, h.fixed, and_true]
    constructor
    · rintro (rfl | ⟨ha, v, hv⟩)
      · exact ⟨h.topology ▸ ht, l.polarity, .inr rfl⟩
      · exact ⟨ha, v, .inl hv⟩
    · rintro ⟨ha, v, hv | rfl⟩
      · exact .inr ⟨ha, v, hv⟩
      · exact .inl rfl

omit [Coin ρ] in
/-- A literal is stored only if its atom had no value, so it is not on the trail. -/
theorem Recorded.nodup_assign (h : start.Recorded rs p) (hb : p.isBuilt = true)
    (hl : p.allows (.call (.assign l isFixed)) = true)
    (ht : p.topology.tracked.contains l.atom = true) :
    ((p.assign l isFixed).trail.toList.map (·.atom)).Nodup := by
  rw [trail_toList_assign hb ht, List.map_append]
  cases isFixed with
  | true => simpa using h.nodup
  | false =>
    refine List.nodup_append.mpr ⟨h.nodup, List.pairwise_singleton _ _, ?_⟩
    rintro a ha b hb rfl
    obtain rfl := List.mem_singleton.mp hb
    obtain ⟨k, hk, heq⟩ := List.mem_map.mp ha
    have hvalue := (h.value k.atom k.polarity).mpr (.inl hk)
    exact nomatch (polarity_of_allows hl (heq ▸ hvalue)).1

omit [Coin ρ] in
theorem Recorded.assign_tracked (h : start.Recorded rs p) (hb : p.isBuilt = true)
    (hl : p.allows (.call (.assign l isFixed)) = true)
    (ht : p.topology.tracked.contains l.atom = true)
    (hmirrors : (p.assign l isFixed).topology.Mirrors (p.assign l isFixed).valuation
      (p.assign l isFixed).characteristic) :
    start.Recorded (rs ++ [.call (.assign l isFixed)]) (p.assign l isFixed) where
  topology := (topology_assign p l isFixed).trans h.topology
  value := h.value_assign hb hl ht
  fixed := h.fixed_assign hb ht
  tracked k hk := by
    rw [trail_toList_assign hb ht, List.mem_append] at hk
    rcases hk with hk | hk
    · exact h.tracked k hk
    · cases isFixed
      · exact List.mem_singleton.mp hk ▸ h.topology ▸ ht
      · cases hk
  nodup := h.nodup_assign hb hl ht
  mirrors := hmirrors

end

omit [Coin ρ] in
theorem Recorded.nodup_popTo (h : start.Recorded rs p) (level : Nat) :
    ((p.trail.popTo level).2.toList.map (·.atom) ++
      (p.trail.popTo level).1.reverse.map (·.atom)).Nodup := by
  rw [← List.map_append, p.trail.toList_popTo level]
  exact h.nodup

omit [Coin ρ] in
/-- A literal that was taken off the trail and kept its value was fixed. -/
theorem Recorded.value_backtrack (h : start.Recorded rs p) (level : Nat) (a : Atom) (v : Bool) :
    (p.backtrack level).value? a = some v ↔
      (⟨a, v⟩ : Literal) ∈ (p.backtrack level).trail.toList ∨
        start.topology.tracked.contains a = true ∧ .call (.assign ⟨a, v⟩ true) ∈ rs := by
  have hreturned := returned_backtrack p level
  have hsplit := p.trail.toList_popTo level
  rw [hreturned.value, hreturned.trail, h.topology]
  split
  · next hremoved =>
    obtain ⟨ha, hb, hfree⟩ := hremoved
    refine ⟨nofun, fun hkept => ?_⟩
    rcases hkept with hkept | hfixed
    · -- No atom is both below the level and above it.
      refine absurd rfl ((List.nodup_append.mp (h.nodup_popTo level)).2.2 a
        (List.mem_map_of_mem hkept) a ?_)
      rw [List.map_reverse, List.mem_reverse]
      exact ha
    · have := (h.fixed a).mpr ⟨hfixed.1, v, hfixed.2⟩
      rw [hfree] at this
      cases this
  · next hkept =>
    rw [h.value, ← hsplit, List.mem_append, List.mem_reverse]
    refine ⟨fun hv => ?_, fun hv => hv.imp_left .inl⟩
    rcases hv with (hv | hv) | hv
    · exact .inl hv
    · have hmem : (⟨a, v⟩ : Literal) ∈ p.trail.toList :=
        hsplit ▸ List.mem_append_right _ (List.mem_reverse.mpr hv)
      have htracked := h.tracked _ hmem
      have hfixed : p.valuation.fixed.contains a = true := by
        simpa [h.topology, htracked, List.mem_map_of_mem (f := (·.atom)) hv] using hkept
      obtain ⟨-, w, hw⟩ := (h.fixed a).mp hfixed
      have heq := ((h.value a v).mpr (.inl hmem)).symm.trans
        ((h.value a w).mpr (.inr ⟨htracked, hw⟩))
      exact .inr ⟨htracked, Option.some.inj heq ▸ hw⟩
    · exact .inr hv

omit [Coin ρ] in
theorem Recorded.backtrack (h : start.Recorded rs p) (ht : p.topology.Tracks) (level : Nat) :
    start.Recorded (rs ++ [.call (.backtrack level)]) (p.backtrack level) := by
  have hreturned := returned_backtrack p level
  have hmem (l : Literal) : .call (.assign l true) ∈ rs ++ [.call (.backtrack level)] ↔
      .call (.assign l true) ∈ rs := by simp
  refine ⟨hreturned.topology.trans h.topology, fun a v => ?_, fun a => ?_, fun l hl => ?_, ?_, ?_⟩
  · rw [h.value_backtrack level, hmem]
  · simp only [hmem, hreturned.fixed, h.fixed]
  · refine h.tracked l ?_
    rw [← p.trail.toList_popTo level]
    exact List.mem_append_left _ (hreturned.trail ▸ hl)
  · rw [hreturned.trail]
    exact (List.nodup_append.mp (h.nodup_popTo level)).1
  · rw [hreturned.topology]
    exact hreturned.mirrors ht h.mirrors

theorem Recorded.serve? (h : start.Recorded rs p) (hb : p.isBuilt = true)
    (ht : start.topology.Tracks) (hr : p.allows r = true) (hq : p.serve? r = some q) :
    start.Recorded (rs ++ [r]) q := by
  have htracks : p.topology.Tracks := h.topology ▸ ht
  rcases serve?_cases hb hq with ⟨hnotice, hasked⟩ | ⟨l, isFixed, rfl, rfl⟩ | ⟨rfl, rfl⟩ |
    ⟨level, rfl, rfl⟩
  · refine h.unchanged hasked.topology (congrArg Trail.toList hasked.trail) hasked.values
      hasked.fixed (hasked.mirrors h.mirrors) ?_
    rintro l rfl
    cases hnotice
  · cases htracked : p.topology.tracked.contains l.atom with
    | false => exact h.assign_untracked htracked
    | true =>
      refine h.assign_tracked hb hr htracked ?_
      rw [topology_assign]
      exact mirrors_assign htracks h.mirrors l isFixed
  · rw [openLevel_frame]
    exact h.unchanged rfl p.trail.toList_push rfl rfl h.mirrors nofun
  · exact h.backtrack htracks level

theorem recorded_of_follow? (h : Prepared config source start) (hb : start.isBuilt = true)
    (hq : start.follow? rs = some q) : start.Recorded rs q := by
  obtain ⟨t, ht, columnCache, rfl⟩ := h.exists_eq
  exact follow?_induction hb h.recorded
    (fun _ hb hrecorded hr hq => hrecorded.serve? hb ht hr hq) hq

-- ---------------------------------------------------------------------------
-- Levels
-- ---------------------------------------------------------------------------

/-- Whether the level of a trail was last left for the next one on just this trail. -/
def LastOpened (start : Propagator ρ) (rs : List Request) (t : Trail) : Prop :=
  ∃ before after s, rs = before ++ .call .openLevel :: after ∧ start.follow? before = some s ∧
    s.trail = t ∧ ∀ between later u, after = between ++ .call .openLevel :: later →
      start.follow? (before ++ .call .openLevel :: between) = some u → u.trail.level ≠ t.level

theorem LastOpened.concat (h : start.LastOpened rs t) (hp : start.follow? rs = some p)
    (hr : r = .call .openLevel → p.trail.level ≠ t.level) : start.LastOpened (rs ++ [r]) t := by
  obtain ⟨before, after, s, rfl, hs, ht, hlast⟩ := h
  refine ⟨before, after ++ [r], s, by simp, hs, ht, fun between later u hsplit hu => ?_⟩
  rcases later.eq_nil_or_concat' with rfl | ⟨later, r', rfl⟩
  · obtain ⟨rfl, hopen⟩ := List.append_inj' hsplit rfl
    rw [List.singleton_inj] at hopen
    obtain rfl := Option.some.inj (hu.symm.trans hp)
    exact hr hopen
  · have hsplit : after ++ [r] = (between ++ .call .openLevel :: later) ++ [r'] := by
      simp [hsplit]
    exact hlast between later u (List.append_inj' hsplit rfl).1 hu

theorem lastOpened_openLevel (hp : start.follow? rs = some p) :
    start.LastOpened (rs ++ [.call .openLevel]) p.trail :=
  ⟨rs, [], p, rfl, hp, rfl, fun between later _ hsplit => by simp at hsplit⟩

theorem trail_serve? (hb : p.isBuilt = true) (hq : p.serve? r = some q) :
    r = .call .openLevel ∧ q.trail = p.trail.push ∨ r ≠ .call .openLevel ∧
      (q.trail = p.trail ∨ (∃ l, q.trail = p.trail.store l) ∨
        ∃ level, q.trail = (p.trail.popTo level).2) := by
  rcases serve?_cases hb hq with ⟨hnotice, hasked⟩ | ⟨l, isFixed, rfl, rfl⟩ | ⟨rfl, rfl⟩ |
    ⟨level, rfl, rfl⟩
  · refine .inr ⟨?_, .inl hasked.trail⟩
    rintro rfl
    cases hnotice
  · refine .inr ⟨nofun, ?_⟩
    cases htracked : p.topology.tracked.contains l.atom with
    | false => exact .inl (by rw [assign_of_untracked htracked])
    | true =>
      rw [trail_assign hb htracked]
      cases isFixed
      · exact .inr (.inl ⟨l, rfl⟩)
      · exact .inl rfl
  · exact .inl ⟨rfl, by rw [openLevel_frame]⟩
  · exact .inr ⟨nofun, .inr (.inr ⟨level, (returned_backtrack p level).trail⟩)⟩

/-- Below each level there is the trail that the level was last opened on. -/
theorem lastOpened_of_follow? (h : Prepared config source start) (hb : start.isBuilt = true)
    (hq : start.follow? rs = some q) :
    ∀ level < q.trail.level, start.LastOpened rs (q.trail.popTo level).2 := by
  refine follow?_induction (P := fun rs q => ∀ level < q.trail.level,
    start.LastOpened rs (q.trail.popTo level).2) hb ?_ ?_ hq
  · obtain ⟨t, -, columnCache, rfl⟩ := h.exists_eq
    intro level hlevel
    cases hlevel
  · intro rs r p q hp hbuilt hopened _ hq level hlevel
    have hkept (hlt : level < p.trail.level) :
        start.LastOpened (rs ++ [r]) (p.trail.popTo level).2 := by
      refine (hopened level hlt).concat hp fun _ heq => ?_
      rw [Trail.level_popTo] at heq
      omega
    rcases trail_serve? hbuilt hq with ⟨rfl, htrail⟩ | ⟨hne, htrail | ⟨l, htrail⟩ | ⟨k, htrail⟩⟩
    · rw [htrail, Trail.level_push] at hlevel
      rw [htrail, Trail.popTo_push (Nat.lt_succ_iff.mp hlevel)]
      rcases Nat.lt_succ_iff_lt_or_eq.mp hlevel with hlt | rfl
      · exact hkept hlt
      · rw [Trail.popTo_level]
        exact lastOpened_openLevel hp
    · rw [htrail] at hlevel ⊢
      exact hkept hlevel
    · rw [htrail, Trail.level_store] at hlevel
      rw [htrail, Trail.popTo_store hlevel]
      exact hkept hlevel
    · rw [htrail, Trail.level_popTo] at hlevel
      rw [htrail, Trail.popTo_popTo (by omega)]
      exact hkept (by omega)

-- ---------------------------------------------------------------------------
-- Conditions
-- ---------------------------------------------------------------------------

def assignAll (p : Propagator ρ) (told : List (Literal × Bool)) : Propagator ρ :=
  told.foldl (fun p (l, isFixed) => p.assign l isFixed) p

omit [Coin ρ] in
theorem topology_assignAll (p : Propagator ρ) (told : List (Literal × Bool)) :
    (p.assignAll told).topology = p.topology := by
  induction told generalizing p with
  | nil => rfl
  | cons x told ih => exact (ih _).trans (topology_assign p x.1 x.2)

omit [Coin ρ] in
theorem mirrors_assignAll (ht : p.topology.Tracks)
    (h : p.topology.Mirrors p.valuation p.characteristic) (told : List (Literal × Bool)) :
    p.topology.Mirrors (p.assignAll told).valuation (p.assignAll told).characteristic := by
  induction told generalizing p with
  | nil => exact h
  | cons x told ih =>
    have htopology := topology_assign p x.1 x.2
    rw [← htopology] at ht ⊢
    exact ih ht (htopology ▸ mirrors_assign (htopology ▸ ht) h x.1 x.2)

omit [Coin ρ] in
theorem value?_assignAll (hb : p.isBuilt = true) {told : List (Literal × Bool)}
    {w : Atom → Option Bool} (hw : ∀ l ∈ told.map (·.1),
      p.topology.tracked.contains l.atom = true → w l.atom = some l.polarity) (a : Atom) :
    (p.assignAll told).value? a =
      if p.topology.tracked.contains a = true ∧ a ∈ told.map (·.1.atom) then w a
      else p.value? a := by
  induction told generalizing p with
  | nil => simp [assignAll]
  | cons x told ih =>
    obtain ⟨l, isFixed⟩ := x
    have htopology := topology_assign p l isFixed
    simp only [List.map_cons, List.forall_mem_cons] at hw
    have hrest := ih (p := p.assign l isFixed) (by rw [isBuilt, htopology]; exact hb)
      (by rw [htopology]; exact hw.2)
    refine hrest.trans ?_
    rw [htopology]
    cases ht : p.topology.tracked.contains l.atom with
    | false =>
      rw [assign_of_untracked ht]
      by_cases ha : a = l.atom
      · subst ha
        simp only [ht, Bool.false_eq_true, false_and]
      · simp only [List.map_cons, List.mem_cons, ha, false_or]
    | true =>
      rw [value?_assign hb ht]
      by_cases ha : a = l.atom
      · subst ha
        simp only [ht, hw.1 ht, List.map_cons, List.mem_cons, true_or, and_self, if_true, ite_self]
      · have hne : l.atom ≠ a := fun heq => ha heq.symm
        simp only [List.map_cons, List.mem_cons, ha, hne, false_or, if_false]

omit [Coin ρ] in
/-- A propagator without values comes to recorded values if it is told what is on the trail
and what was fixed. -/
theorem Recorded.value?_assignAll (h : start.Recorded rs p) (hb : start.isBuilt = true)
    (hnone : ∀ a, start.value? a = none) {told : List (Literal × Bool)}
    (htold : ∀ l, l ∈ told.map (·.1) ↔ l ∈ p.trail.toList ∨ .call (.assign l true) ∈ rs)
    (a : Atom) : (start.assignAll told).value? a = p.value? a := by
  have hmem (l : Literal) : l ∈ told.map (·.1) ∧ start.topology.tracked.contains l.atom = true ↔
      p.value? l.atom = some l.polarity := by
    rw [h.value, htold]
    constructor
    · rintro ⟨hl | hl, htracked⟩
      · exact .inl hl
      · exact .inr ⟨htracked, hl⟩
    · rintro (hl | ⟨htracked, hl⟩)
      · exact ⟨.inl hl, h.tracked l hl⟩
      · exact ⟨.inr hl, htracked⟩
  rw [Propagator.value?_assignAll hb fun l hl htracked => (hmem l).mp ⟨hl, htracked⟩]
  split
  · rfl
  · next hne =>
    rw [hnone, eq_comm, Option.eq_none_iff_forall_ne_some]
    intro v hv
    obtain ⟨hl, htracked⟩ := (hmem ⟨a, v⟩).mpr hv
    obtain ⟨x, hx, heq⟩ := List.mem_map.mp hl
    exact hne ⟨htracked, List.mem_map.mpr ⟨x, hx, congrArg Literal.atom heq⟩⟩

/-- The values are those of the trail and of tracked fixed literals. A return to a level
below the current one gives back the trail that the level was left on, leaves no bit dirty,
and all conditions are those of the propagator at the start of the run once it is told what
is left on the trail and what was fixed. -/
theorem backtrack_restores (hstart : Prepared config source start) (hb : start.isBuilt = true)
    (hq : start.follow? rs = some q) :
    (∀ a v, q.value? a = some v ↔ (⟨a, v⟩ : Literal) ∈ q.trail.toList ∨
      start.topology.tracked.contains a = true ∧ .call (.assign ⟨a, v⟩ true) ∈ rs) ∧
    ∀ level < q.trail.level,
      (q.backtrack level).trail.level = level ∧
      start.LastOpened rs (q.backtrack level).trail ∧
      (q.backtrack level).valuation.hasDirty = false ∧
      ∀ told : List (Literal × Bool),
        (∀ l, l ∈ told.map (·.1) ↔
          l ∈ (q.backtrack level).trail.toList ∨ .call (.assign l true) ∈ rs) →
        ∀ b, (q.backtrack level).condition b = (start.assignAll told).refresh.condition b := by
  have hrecorded := recorded_of_follow? hstart hb hq
  have htracks : start.topology.Tracks := by
    obtain ⟨t, ht, columnCache, rfl⟩ := hstart.exists_eq
    exact ht
  refine ⟨hrecorded.value, fun level hlevel => ?_⟩
  have hreturned := returned_backtrack q level
  have hleft := hrecorded.backtrack (hrecorded.topology ▸ htracks) level
  refine ⟨?_, ?_, ?_, fun told htold b => ?_⟩
  · rw [hreturned.trail, Trail.level_popTo]
    omega
  · rw [hreturned.trail]
    exact lastOpened_of_follow? hstart hb hq level hlevel
  · rw [Valuation.hasDirty, hreturned.dirty]
    rfl
  · have htopology := topology_assignAll start told
    have hmirrors : (start.assignAll told).topology.Mirrors (start.assignAll told).valuation
        (start.assignAll told).characteristic :=
      htopology.symm ▸ mirrors_assignAll htracks hstart.recorded.mirrors told
    have htold : ∀ l, l ∈ told.map (·.1) ↔ l ∈ (q.backtrack level).trail.toList ∨
        .call (.assign l true) ∈ rs ++ [.call (.backtrack level)] := by simpa using htold
    have hvalue := hleft.value?_assignAll hb hstart.value? htold
    refine condition_of_values ?_ (reflects_refresh hmirrors)
      (reflects_of_clean hleft.mirrors hreturned.dirty) (fun a => ?_) b
    · rw [hleft.topology, (asked_refresh _).topology, htopology]
    · rw [(asked_refresh _).value?, hvalue]

/-- Two literals of the level that is left were fixed there, one of them once it was on the
trail. -/
theorem backtrack_restores_sample :
    let calls : List Call := [.openLevel, .assign ⟨3, false⟩ false, .openLevel,
      .assign ⟨5, true⟩ false, .assign ⟨7, true⟩ false, .assign ⟨4, true⟩ true,
      .assign ⟨5, true⟩ true]
    ∃ p q : Propagator Pcg,
      Prepared { encoding := .li2024, wordSize := 1 } (.ofSeed 0) p ∧ p.isBuilt = true ∧
      p.follow? (calls.map .call) = some q ∧ 1 < q.trail.level ∧
      p.LastOpened (calls.map .call) (q.backtrack 1).trail ∧
      ∀ b, (q.backtrack 1).condition b =
        (p.assignAll [(⟨3, false⟩, false), (⟨4, true⟩, true), (⟨5, true⟩, true)]).refresh.condition
          b := by
  intro calls
  have hserved : ((new { encoding := .li2024, wordSize := 1 } (Pcg.ofSeed 0)).serveAll?
      (sampleRequests [])).bind (fun p => (p.follow? (calls.map .call)).map fun q =>
        (p.isBuilt, q.trail.level, (q.backtrack 1).trail.toList)) =
      some (true, 2, [⟨3, false⟩]) := by decide +kernel
  obtain ⟨p, hp, hserved⟩ := Option.bind_eq_some_iff.mp hserved
  obtain ⟨q, hq, hresult⟩ := Option.map_eq_some_iff.mp hserved
  obtain ⟨hb, hresult⟩ := Prod.mk.inj hresult
  obtain ⟨hlevel, htrail⟩ := Prod.mk.inj hresult
  have hprepared := Prepared.fresh.of_serveAll? (by decide +kernel) hp
  obtain ⟨-, hlast, -, hconditions⟩ :=
    (backtrack_restores hprepared hb hq).2 1 (by rw [hlevel]; decide)
  refine ⟨p, q, hprepared, hb, hq, by rw [hlevel]; decide, hlast, hconditions _ fun l => ?_⟩
  rw [htrail]
  simp [calls]

/-- An atom that is not tracked has no value, though its literal was notified as fixed. -/
theorem no_value_of_untracked : ∃ p q : Propagator Pcg,
    Prepared { encoding := .li2024, wordSize := 1 } (.ofSeed 0) p ∧ p.isBuilt = true ∧
      p.follow? [.call (.assign ⟨999, true⟩ true)] = some q ∧
      ¬ (q.value? 999 = some true ↔ (⟨999, true⟩ : Literal) ∈ q.trail.toList ∨
        .call (.assign ⟨999, true⟩ true) ∈ [Request.call (.assign ⟨999, true⟩ true)]) := by
  have hserved : ((new { encoding := .li2024, wordSize := 1 } (Pcg.ofSeed 0)).serveAll?
      (sampleRequests [])).bind (fun p => (p.follow? [.call (.assign ⟨999, true⟩ true)]).map
        fun q => (p.isBuilt, q.value? 999)) = some (true, none) := by decide +kernel
  obtain ⟨p, hp, hserved⟩ := Option.bind_eq_some_iff.mp hserved
  obtain ⟨q, hq, hresult⟩ := Option.map_eq_some_iff.mp hserved
  obtain ⟨hb, hvalue⟩ := Prod.mk.inj hresult
  refine ⟨p, q, Prepared.fresh.of_serveAll? (by decide +kernel) hp, hb, hq, fun h => ?_⟩
  have htrue := h.mpr (.inr (.head _))
  rw [hvalue] at htrue
  cases htrue

end ShaDiff.Propagator
