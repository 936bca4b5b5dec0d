import ShaDiff.Proofs.Mirroring
import ShaDiff.Proofs.Topology.Slots

/-!
# What is tracked is seen

The slots and the atoms tracked for them are two sides of one relation, as long as no slot is
given twice. An atom that is tracked alone for its place is in the slot of the place, so its
value is read with the next refresh of the bit. An atom whose slot was given to another one
stays tracked, but nothing reads its value any more.
-/

namespace ShaDiff.Propagator

variable {ρ : Type} {config : Config} {source : ρ} {p q : Propagator ρ} {a : Atom} {place : Place}

theorem allows_refresh_of_slot (h : p.Coherent) (hslot : place.slot < p.encoding.slots)
    (ha : (p.topology.slots place.bit)[place.slot]?.join = some a) {v : Bool}
    (hv : p.value? a = some v) {x : Pair} (hx : (p.refresh.condition place.bit).allows x = true) :
    (p.encoding.meaning place.slot).allows x = v := by
  obtain ⟨r, hr, hrslot, rfl⟩ := Encoding.exists_region_of_slot hslot v
  rw [condition_refresh h.mirrors (Topology.isZero_of_slot ha)] at hx
  have hallows := Encoding.allows_refresh.mp hx r hr (by
    rw [Encoding.Region.holds, join_values, hrslot, ha, Option.bind_some]
    exact beq_iff_eq.mpr hv)
  rw [Encoding.allows_region hr, hrslot] at hallows
  exact beq_iff_eq.mp hallows

variable [Coin ρ] {requests : List Request} {replies : List Reply}

theorem placed_of_replyAll (hq : (new config source).replyAll requests = .ok (replies, q)) :
    q.topology.Placed := by
  refine replyAll_induction (P := fun p => p.topology.Placed) (fun h hr => ?_)
    (Topology.placed_initial config.encoding config.wordSize) hq
  rcases topology_reply hr with hsame | ⟨name, value, result, henter⟩
  · exact hsame ▸ h
  · exact h.enter henter

/-- Whatever was requested, an atom in a slot is tracked for that slot and so is in no other
one, and no atom of the zero word is tracked. The slot of a tracked atom holds an atom that is
tracked for it. That is the atom itself unless the slot was given to another one, and then its
value takes part in what the next refresh says of the bit. -/
theorem slots_match_tracking (hq : (new config source).replyAll requests = .ok (replies, q)) :
    (∀ (b : Bit) (slot : Nat) (a : Atom), (q.topology.slots b)[slot]?.join = some a →
      q.topology.tracked[a]? = some ⟨b, slot⟩) ∧
    (∀ (a : Atom) (b : Bit) (slot : Nat) (b' : Bit) (slot' : Nat),
      (q.topology.slots b)[slot]?.join = some a →
      (q.topology.slots b')[slot']?.join = some a → b = b' ∧ slot = slot') ∧
    (∀ a : Atom, q.topology.isZeroAtom a = true → q.topology.tracked[a]? = none) ∧
    (∀ (a : Atom) (place : Place), q.topology.tracked[a]? = some place →
      ∃ x : Atom, (q.topology.slots place.bit)[place.slot]?.join = some x ∧
        q.topology.tracked[x]? = some place) ∧
    ∀ (a : Atom) (place : Place), q.topology.tracked[a]? = some place →
      (∀ x : Atom, q.topology.tracked[x]? = some place → x = a) →
      (q.topology.slots place.bit)[place.slot]?.join = some a ∧
      ∀ v, q.value? a = some v → ∀ x, (q.refresh.condition place.bit).allows x = true →
        (q.encoding.meaning place.slot).allows x = v := by
  have hplaced := placed_of_replyAll hq
  have hheld {a : Atom} {place : Place} (ha : q.topology.tracked[a]? = some place) :
      ∃ x : Atom, (q.topology.slots place.bit)[place.slot]?.join = some x ∧
        q.topology.tracked[x]? = some place := by
    obtain ⟨x, hx⟩ := hplaced.held ha
    exact ⟨x, hx, hplaced.tracks _ _ _ hx⟩
  refine ⟨hplaced.tracks, ?_, ?_, fun a place ha => hheld ha, ?_⟩
  · intro a b slot b' slot' h h'
    have hsame := (hplaced.tracks b slot a h).symm.trans (hplaced.tracks b' slot' a h')
    exact Place.mk.inj (Option.some.inj hsame)
  · intro a ha
    have hfree := hplaced.zero ha
    rw [Std.TreeMap.contains_eq_isSome_getElem?] at hfree
    exact Option.not_isSome_iff_eq_none.mp (Bool.eq_false_iff.mp hfree)
  · intro a place ha hsole
    obtain ⟨x, hslot, hx⟩ := hheld ha
    obtain rfl := hsole x hx
    exact ⟨hslot, fun v hv y hy =>
      allows_refresh_of_slot (coherent_of_replyAll hq) (hplaced.slot_lt ha) hslot hv hy⟩

def entriesWith (more : List (String × Int)) : List Request :=
  (Topology.sampleEntries.dropLast ++ more ++ [("order", 1)]).map
    fun (name, value) => .entry name value

/-- One slot of a bit is given again, and the value of the atom in the other one is read. -/
theorem slots_match_tracking_sample :
    let requests := entriesWith [("A_0_0_g", 27)] ++ [.call (.assign ⟨11, true⟩ false)]
    ∃ (replies : List Reply) (q : Propagator Pcg),
      (new { encoding := .li2024, wordSize := 1 } (.ofSeed 0)).replyAll requests =
        .ok (replies, q) ∧
      q.isBuilt = true ∧ q.topology.tracked[11]? = some ⟨⟨5, 0⟩, 0⟩ ∧
      (∀ x : Atom, q.topology.tracked[x]? = some ⟨⟨5, 0⟩, 0⟩ → x = 11) ∧
      q.value? 11 = some true ∧ ∀ x, (q.refresh.condition ⟨5, 0⟩).allows x = true →
        (q.encoding.meaning 0).allows x = true := by
  intro requests
  have hreplied : ((new { encoding := .li2024, wordSize := 1 } (Pcg.ofSeed 0)).replyAll
      requests).map (fun (_, q) => (q.isBuilt, q.topology.tracked[11]?,
        (q.topology.tracked.toList.filter (·.2 = ⟨⟨5, 0⟩, 0⟩)).map (·.1), q.value? 11)) =
      .ok (true, some ⟨⟨5, 0⟩, 0⟩, [11], some true) := by decide +kernel
  obtain ⟨⟨replies, q⟩, hq, hresult⟩ := exists_of_map_eq_ok hreplied
  simp only [Prod.mk.injEq] at hresult
  obtain ⟨hb, htracked, hlisted, hvalue⟩ := hresult
  have hsole (x : Atom) (hx : q.topology.tracked[x]? = some ⟨⟨5, 0⟩, 0⟩) : x = 11 := by
    have hmem := Std.TreeMap.mem_toList_iff_getElem?_eq_some.mpr hx
    have hatom : x ∈ [11] := hlisted ▸
      List.mem_map_of_mem (f := (·.1)) (List.mem_filter.mpr ⟨hmem, by simp⟩)
    exact List.mem_singleton.mp hatom
  exact ⟨replies, q, hq, hb, htracked, hsole, hvalue,
    ((slots_match_tracking hq).2.2.2.2 11 _ htracked hsole).2 true hvalue⟩

/-- An atom whose slot was given to another one is tracked, but nothing reads its value. -/
theorem value_unread_sample :
    let requests := entriesWith [("A_0_0", 27)] ++ [.call (.assign ⟨11, true⟩ false)]
    ∃ (replies : List Reply) (q : Propagator Pcg),
      (new { encoding := .li2024, wordSize := 1 } (.ofSeed 0)).replyAll requests =
        .ok (replies, q) ∧
      q.isBuilt = true ∧ q.topology.tracked[11]? = some ⟨⟨5, 0⟩, 0⟩ ∧
      (q.topology.slots ⟨5, 0⟩)[0]?.join = some 27 ∧ q.value? 11 = some true ∧
      q.refresh.condition ⟨5, 0⟩ = .any := by
  intro requests
  have hreplied : ((new { encoding := .li2024, wordSize := 1 } (Pcg.ofSeed 0)).replyAll
      requests).map (fun (_, q) => (q.isBuilt, q.topology.tracked[11]?,
        (q.topology.slots ⟨5, 0⟩)[0]?.join, q.value? 11, q.refresh.condition ⟨5, 0⟩)) =
      .ok (true, some ⟨⟨5, 0⟩, 0⟩, some 27, some true, .any) := by decide +kernel
  obtain ⟨⟨replies, q⟩, hq, hresult⟩ := exists_of_map_eq_ok hreplied
  simp only [Prod.mk.injEq] at hresult
  exact ⟨replies, q, hq, hresult⟩

end ShaDiff.Propagator
