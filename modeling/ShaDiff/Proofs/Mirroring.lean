import ShaDiff.Proofs.Propagator.Refreshing
import ShaDiff.Proofs.Soundness
import ShaDiff.Proofs.Transcript

/-!
# What is known of a bit

Whatever a host calls, each bit is dirty or its condition is what the values of its atoms
say. The dirty bits are listed each once. A call that refreshes leaves none, and any other
call leaves all of them.
-/

namespace ShaDiff

-- ---------------------------------------------------------------------------
-- The list of dirty bits
-- ---------------------------------------------------------------------------

namespace Valuation

variable {v : Valuation} {t : Tracking} {b : Bit}

structure Tidy (v : Valuation) : Prop where
  listed : v.Listed
  nodup : v.dirty.Nodup

theorem tidy_of_clean (hdirty : v.dirty = []) (hset : v.dirtySet = ∅) : v.Tidy where
  listed b := by simp [hdirty, hset]
  nodup := hdirty ▸ List.nodup_nil

theorem Tidy.of_values (h : v.Tidy) (values : Std.TreeMap Atom Bool) :
    ({ v with values } : Valuation).Tidy := ⟨h.listed, h.nodup⟩

theorem Tidy.markDirty (h : v.Tidy) (b : Bit) : (v.markDirty b).Tidy where
  listed := h.listed.markDirty b
  nodup := by
    unfold Valuation.markDirty
    split
    · exact h.nodup
    · next hb => exact List.nodup_cons.mpr ⟨fun hc => hb ((h.listed b).mpr hc), h.nodup⟩

theorem Tidy.assign (h : v.Tidy) (t : Tracking) (l : Literal) : (v.assign t l).2.Tidy := by
  unfold Valuation.assign
  split
  · exact h
  · exact (h.of_values _).markDirty _

theorem Tidy.unassign (h : v.Tidy) (t : Tracking) (a : Atom) : (v.unassign t a).2.Tidy := by
  unfold Valuation.unassign
  split
  · exact h
  · split
    · exact h
    · exact (h.of_values _).markDirty _

theorem Tidy.foldl_unassign (h : v.Tidy) (t : Tracking) (ls : List Literal) :
    (ls.foldl (fun v l => (v.unassign t l.atom).2) v).Tidy := by
  induction ls generalizing v with
  | nil => exact h
  | cons l ls ih => exact ih (h.unassign t l.atom)

theorem mem_dirty_assign (h : b ∈ v.dirty) (t : Tracking) (l : Literal) :
    b ∈ (v.assign t l).2.dirty := by
  unfold assign
  split
  · exact h
  · unfold markDirty
    split
    · exact h
    · exact .tail _ h

end Valuation

-- ---------------------------------------------------------------------------
-- Calls
-- ---------------------------------------------------------------------------

namespace Propagator

variable {ρ : Type} {config : Config} {source : ρ} {p q s : Propagator ρ} {c : Call} {a : Answer}
  {requests : List Request} {replies : List Reply}

/-- Whether each bit that is not dirty has the condition that the values say. As slots are
filled until the topology is built, there are no values before. -/
structure Coherent (p : Propagator ρ) : Prop where
  tracks : p.topology.Tracks
  tidy : p.valuation.Tidy
  mirrors : p.topology.Mirrors p.valuation p.characteristic
  unread : p.isBuilt = false →
    (∀ a, p.value? a = none) ∧ ∀ b : Bit, b.isZero = false → p.condition b = .any

theorem Coherent.of_shows (h : p.Coherent) (htopology : q.topology = p.topology)
    (hshows : p.Shows q) : q.Coherent where
  tracks := htopology ▸ h.tracks
  tidy := hshows.valuation ▸ h.tidy
  mirrors := by
    rw [htopology, hshows.valuation, hshows.characteristic]
    exact h.mirrors
  unread hb := by
    rw [isBuilt, htopology] at hb
    simp only [value?, condition, hshows.valuation, hshows.characteristic]
    exact h.unread hb

theorem Coherent.assign (h : p.Coherent) (l : Literal) (isFixed : Bool) :
    (p.assign l isFixed).Coherent where
  tracks := topology_assign p l isFixed ▸ h.tracks
  tidy := by
    unfold Propagator.assign
    split
    · cases isFixed with
      | false => exact h.tidy.assign _ l
      | true =>
        exact Valuation.Tidy.assign (v := p.valuation.setFixed l.atom true)
          ⟨h.tidy.listed, h.tidy.nodup⟩ _ l
    · exact h.tidy
  mirrors := by
    rw [topology_assign]
    exact mirrors_assign h.tracks h.mirrors l isFixed
  unread hb := by
    rw [isBuilt_assign] at hb
    rw [show p.assign l isFixed = p by simp [Propagator.assign, hb]]
    exact h.unread hb

theorem mem_dirty_of_assign {b : Bit} (hb : b ∈ p.valuation.dirty) (l : Literal) (isFixed : Bool) :
    b ∈ (p.assign l isFixed).valuation.dirty := by
  unfold Propagator.assign
  split
  · cases isFixed with
    | false => exact Valuation.mem_dirty_assign hb _ l
    | true => exact Valuation.mem_dirty_assign (v := p.valuation.setFixed l.atom true) hb _ l
  · exact hb

theorem dirty_refresh (p : Propagator ρ) :
    p.refresh.valuation.dirty = [] ∧ p.refresh.valuation.dirtySet = ∅ := by
  rw [refresh_frame]
  exact ⟨rfl, rfl⟩

theorem Coherent.refresh (h : p.Coherent) : p.refresh.Coherent where
  tracks := p.asked_refresh.topology ▸ h.tracks
  tidy := Valuation.tidy_of_clean p.dirty_refresh.1 p.dirty_refresh.2
  mirrors := mirrors_refresh h.mirrors
  unread hb := by
    have hnone (a : Atom) : p.refresh.value? a = none :=
      (p.asked_refresh.value? a).trans ((h.unread (p.asked_refresh.isBuilt ▸ hb)).1 a)
    exact ⟨hnone, fun b hz => (reflects_refresh h.mirrors b hz).trans
      (Topology.conditionOf_of_none hnone b)⟩

theorem reached_of_none (hs : p.refreshes? c = none) : p.reached c = p := by
  unfold reached
  rw [hs]

/-- All that a call has refreshed is seen when it is answered. -/
theorem shows_reached (hs : p.refreshes? c = some s) :
    (p.reached c).valuation = s.refresh.valuation ∧
      (p.reached c).characteristic = s.refresh.characteristic := by
  unfold reached
  rw [hs]
  dsimp only
  split
  · have hkept := kept_findPropagation s.refresh
    exact ⟨hkept.valuation, hkept.characteristic⟩
  · exact ⟨rfl, rfl⟩

theorem Coherent.reached (h : p.Coherent) (c : Call) : (p.reached c).Coherent := by
  cases hs : p.refreshes? c with
  | none =>
    rw [reached_of_none hs]
    exact h
  | some s =>
    obtain ⟨hvaluation, hcharacteristic⟩ := shows_reached hs
    have htopology := (p.reached_frame c).2
    obtain ⟨-, hs, hsame, -, -, ls, hvalues⟩ := refreshes?_frame hs
    have hcoherent : s.Coherent := by
      refine ⟨hs ▸ h.tracks, hvalues ▸ h.tidy.foldl_unassign _ ls, ?_, fun hb => ?_⟩
      · rw [hs, hvalues, hsame]
        exact h.mirrors.foldl_unassign h.tracks ls
      · rw [isBuilt, hs] at hb
        simp only [value?, condition, hvalues, hsame]
        exact ⟨fun a => Valuation.value?_foldl_unassign ((h.unread hb).1 a) _ ls, (h.unread hb).2⟩
    have hrefreshed := hcoherent.refresh
    have hrefresh := s.asked_refresh.topology.trans hs
    refine ⟨htopology ▸ h.tracks, hvaluation ▸ hrefreshed.tidy, ?_, fun hb => ?_⟩
    · rw [htopology, hvaluation, hcharacteristic, ← hrefresh]
      exact hrefreshed.mirrors
    · rw [isBuilt, htopology, ← hrefresh] at hb
      simp only [value?, condition, hvaluation, hcharacteristic]
      exact hrefreshed.unread hb

theorem Coherent.answer [Coin ρ] (h : p.Coherent) (hc : p.answer c = .ok (a, q)) :
    q.Coherent := by
  rcases answer_cases hc with ⟨l, isFixed, -, rfl⟩ | hshows
  · exact h.assign l isFixed
  · exact (h.reached c).of_shows ((answer_frame hc).2.trans (p.reached_frame c).2.symm) hshows

theorem coherent_new (config : Config) (source : ρ) : (new config source).Coherent := by
  have hempty : Valuation.empty.Tidy := Valuation.tidy_of_clean rfl rfl
  have hany (b : Bit) (hb : b.isZero = false) : (new config source).condition b = .any := by
    simp [new, condition, Characteristic.get, Characteristic.empty, hb]
  exact ⟨(Topology.sane_initial config.encoding config.wordSize).tracks, hempty,
    .of_none hempty.listed Valuation.value?_empty hany, fun _ => ⟨Valuation.value?_empty, hany⟩⟩

theorem Coherent.configure (h : p.Coherent) {name : String} {value : Int}
    {result : Except Fault Unit} (hc : p.configure name value = .ok (result, q)) :
    q.Coherent := by
  simp only [Propagator.configure, bind, Except.bind] at hc
  split at hc
  · cases hc
  · next entered henter =>
    simp only [pure, Except.pure, Except.ok.injEq, Prod.mk.injEq] at hc
    obtain ⟨-, rfl⟩ := hc
    cases hb : p.isBuilt with
    | true =>
      have hsame : entered.2 = p.topology := by
        rw [Topology.enter_of_isBuilt hb, Except.ok.injEq] at henter
        rw [← henter]
      simp only [hsame, Bool.true_or, if_true]
      exact ⟨h.tracks, h.tidy, h.mirrors, h.unread⟩
    | false =>
      obtain ⟨hnone, hany⟩ := h.unread hb
      have hvaluation : (if false || !entered.2.isBuilt then p.valuation else .empty).Tidy ∧
          ∀ a, (if false || !entered.2.isBuilt then p.valuation else .empty).value? a = none := by
        split
        · exact ⟨h.tidy, hnone⟩
        · exact ⟨Valuation.tidy_of_clean rfl rfl, Valuation.value?_empty⟩
      exact ⟨h.tracks.enter henter, hvaluation.1,
        .of_none hvaluation.1.listed hvaluation.2 hany, fun _ => ⟨hvaluation.2, hany⟩⟩

theorem Coherent.reply [Coin ρ] (h : p.Coherent) {r : Request} {a : Reply}
    (hr : p.reply r = .ok (a, q)) : q.Coherent := by
  cases r with
  | entry name value =>
    obtain ⟨⟨result, q'⟩, hc, heq⟩ := exists_of_map_eq_ok hr
    obtain ⟨-, rfl⟩ := Prod.mk.inj heq
    exact h.configure hc
  | rules lines =>
    obtain ⟨-, rfl⟩ := Prod.mk.inj (Except.ok.inj hr)
    exact ⟨h.tracks, h.tidy, h.mirrors, h.unread⟩
  | call c =>
    obtain ⟨⟨answer, q'⟩, hc, heq⟩ := exists_of_map_eq_ok hr
    obtain ⟨-, rfl⟩ := Prod.mk.inj heq
    exact h.answer hc

/-- Only an entry changes the topology. -/
theorem topology_reply [Coin ρ] {r : Request} {a : Reply} (hr : p.reply r = .ok (a, q)) :
    q.topology = p.topology ∨
      ∃ name value result, p.topology.enter name value = .ok (result, q.topology) := by
  cases r with
  | entry name value =>
    obtain ⟨⟨result, q'⟩, hc, heq⟩ := exists_of_map_eq_ok hr
    obtain ⟨-, rfl⟩ := Prod.mk.inj heq
    obtain ⟨entered, henter, hc⟩ := exists_of_bind_eq_ok hc
    obtain ⟨rfl, rfl⟩ := Prod.mk.inj (Except.ok.inj hc)
    exact .inr ⟨name, value, _, henter⟩
  | rules lines =>
    obtain ⟨-, rfl⟩ := Prod.mk.inj (Except.ok.inj hr)
    exact .inl rfl
  | call c =>
    obtain ⟨⟨answer, q'⟩, hc, heq⟩ := exists_of_map_eq_ok hr
    obtain ⟨-, rfl⟩ := Prod.mk.inj heq
    exact .inl (answer_frame hc).2

variable [Coin ρ]

theorem coherent_of_replyAll (hq : (new config source).replyAll requests = .ok (replies, q)) :
    q.Coherent :=
  replyAll_induction (fun h hr => h.reply hr) (coherent_new config source) hq

/-- Whatever was requested, a bit is dirty, or its condition is read from the values its atoms have,
and bits of the zero word are zero. Dirty bits are listed each once. A call that refreshes
leaves no bit dirty, and one that does not leaves all that are and changes no condition. -/
theorem conditions_mirror (hq : (new config source).replyAll requests = .ok (replies, q)) :
    (∀ b : Bit, b.isZero = true → q.condition b = .zero) ∧
      (∀ b : Bit, b.isZero = false → b ∈ q.valuation.dirty ∨ q.condition b =
        q.encoding.refresh ((q.topology.slots b).map fun a? => a?.bind q.value?)) ∧
      q.valuation.dirty.Nodup ∧
      (∀ b, q.valuation.dirtySet.contains b = true ↔ b ∈ q.valuation.dirty) ∧
      ∀ c a r, q.answer c = .ok (a, r) →
        if (q.refreshes? c).isSome then r.valuation.dirty = []
        else r.characteristic = q.characteristic ∧
          ∀ b ∈ q.valuation.dirty, b ∈ r.valuation.dirty := by
  have hcoherent := coherent_of_replyAll hq
  refine ⟨fun b hb => condition_of_isZero hb, hcoherent.mirrors.fresh, hcoherent.tidy.nodup,
    hcoherent.tidy.listed, fun c a r hc => ?_⟩
  cases hs : q.refreshes? c with
  | some s =>
    rcases answer_cases hc with ⟨l, isFixed, rfl, -⟩ | hshows
    · cases hs
    · simp only [Option.isSome_some, if_true, hshows.valuation, (shows_reached hs).1]
      exact s.dirty_refresh.1
  | none =>
    simp only [Option.isSome_none, Bool.false_eq_true, if_false]
    rcases answer_cases hc with ⟨l, isFixed, -, rfl⟩ | hshows
    · exact ⟨by rw [assign_frame], fun b hb => mem_dirty_of_assign hb l isFixed⟩
    · rw [reached_of_none hs] at hshows
      exact ⟨hshows.characteristic, fun b hb => hshows.valuation ▸ hb⟩

/-- A literal is notified, then its opposite, then it is taken back and so is a fixed one's
opposite. -/
theorem conditions_mirror_sample :
    let calls : List Call := [.openLevel, .assign ⟨25, false⟩ false, .propagate,
      .assign ⟨25, true⟩ false, .assign ⟨4, true⟩ true, .backtrack 0, .assign ⟨4, false⟩ false]
    ∃ (replies : List Reply) (q : Propagator Pcg),
      (new { encoding := .li2024, wordSize := 1 } (.ofSeed 0)).replyAll (sampleRequests calls) =
        .ok (replies, q) ∧
      q.value? 25 = none ∧ q.value? 4 = some false ∧ q.valuation.dirty = [⟨1, 0⟩] ∧
      (∀ b : Bit, b.isZero = false → b = ⟨1, 0⟩ ∨ q.condition b =
        q.encoding.refresh ((q.topology.slots b).map fun a? => a?.bind q.value?)) ∧
      q.propagate.2.valuation.dirty = [] := by
  intro calls
  have hreplied : ((new { encoding := .li2024, wordSize := 1 } (Pcg.ofSeed 0)).replyAll
      (sampleRequests calls)).map (fun (_, q) =>
        (q.value? 25, q.value? 4, q.valuation.dirty, (q.refreshes? .propagate).isSome)) =
      .ok (none, some false, [⟨1, 0⟩], true) := by decide +kernel
  obtain ⟨⟨replies, q⟩, hq, hresult⟩ := exists_of_map_eq_ok hreplied
  simp only [Prod.mk.injEq] at hresult
  obtain ⟨htaken, hfixed, hdirty, hrefreshes⟩ := hresult
  obtain ⟨-, hmirrors, -, -, hcalls⟩ := conditions_mirror hq
  refine ⟨replies, q, hq, htaken, hfixed, hdirty, fun b hb => ?_, ?_⟩
  · rcases hmirrors b hb with hb | hb
    · rw [hdirty] at hb
      exact .inl (List.mem_singleton.mp hb)
    · exact .inr hb
  · have hcall := hcalls .propagate _ _ rfl
    rwa [if_pos hrefreshes] at hcall

end Propagator

end ShaDiff
