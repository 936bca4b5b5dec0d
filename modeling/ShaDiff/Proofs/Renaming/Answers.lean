import ShaDiff.Proofs.Refinement
import ShaDiff.Proofs.Renaming.Propagator
import ShaDiff.Proofs.Renaming.Swap
import ShaDiff.Proofs.Start

/-!
# A configuration in another order

The entries before the order may come in any order, as long as no two of them give atoms to the
same slot or to the zero word. All are accepted then, and the order is. The topologies built are
the same up to a renaming of the words, and every call of a dialogue gets the same answer from
both propagators, which have the same status and level after it.
-/

namespace ShaDiff.Propagator

variable {ρ : Type} {config : Config} {source : ρ} {p q : Propagator ρ} {t : Topology}
  {entries entries' : List (String × Int)}

theorem serveAll?_entryRequests [Coin ρ] (hvaluation : p.valuation = .empty) :
    p.serveAll? (entryRequests entries) =
      (p.topology.accept? entries).map fun topology => { p with topology } := by
  induction entries generalizing p with
  | nil => rfl
  | cons entry entries ih =>
    simp only [entryRequests, List.map_cons, Propagator.serveAll?, Propagator.serve?,
      Propagator.configure, Topology.accept?, bind, Except.bind, hvaluation, ite_self]
    cases p.topology.enter entry.1 entry.2 with
    | error breach => rfl
    | ok entered =>
      obtain ⟨result, topology⟩ := entered
      cases result with
      | error fault => rfl
      | ok =>
        exact (ih (p := { p with topology, valuation := .empty }) rfl).trans
          (by rw [← hvaluation])

theorem Renamed.of_topology {π : Equiv.Perm Nat} (h : p.topology.Renamed π t)
    (hvaluation : p.valuation = .empty) (hcondition : p.characteristic = .empty) :
    p.Renamed π { p with topology := t } where
  alike := rfl
  topology := h
  condition b := by
    simp [Propagator.condition, hcondition, Characteristic.get, Characteristic.empty,
      Bit.isZero_rename h.zero]
  valuation := by
    rw [hvaluation]
    exact ⟨rfl, rfl, rfl, fun _ => by simp [Valuation.empty]⟩

variable [Coin ρ]

/-- Entries that give atoms to different things may come in any order before the order. All
are accepted and build topologies which are the same up to a renaming of the words, and a
dialogue gets the same answers, statuses and levels. -/
theorem converse_of_perm {order : Int} (hperm : entries.Perm entries')
    (hnodup : (entries.flatMap fun entry => Topology.targets config.encoding entry.1).Nodup)
    (hp : (new config source).serveAll? (entryRequests (entries ++ [("order", order)])) = some p) :
    ∃ q, (new config source).serveAll? (entryRequests (entries' ++ [("order", order)])) = some q ∧
      p.isBuilt = true ∧ q.isBuilt = true ∧ (∃ π, p.topology.Renamed π q.topology) ∧
      ∀ calls, Concur
        (fun x y => x.1 = y.1 ∧ x.2.status = y.2.status ∧ x.2.trail.level = y.2.trail.level)
        (p.converse calls) (q.converse calls) := by
  rw [serveAll?_entryRequests rfl, Option.map_eq_some_iff] at hp
  obtain ⟨t, ht, rfl⟩ := hp
  rw [Topology.accept?_append, Option.bind_eq_some_iff] at ht
  obtain ⟨t₁, hfirst, hlast⟩ := ht
  obtain ⟨u₁, π, hu₁, hrenamed₁⟩ := Topology.Bounded.exists_of_perm
    (Topology.bounded_initial config.encoding config.wordSize) hperm hnodup (fun _ => rfl) hfirst
    (Topology.order_of_accept?_cons hlast)
  obtain ⟨u, hu, hrenamed⟩ := hrenamed₁.accept? hlast
  have hbuilt := Topology.isBuilt_of_accept?_order hlast
  have hbuilt' : u.isBuilt = true := by rwa [Topology.isBuilt, hrenamed.order]
  refine ⟨{ new config source with topology := u }, ?_, hbuilt, hbuilt', ⟨π, hrenamed⟩,
    fun calls => ?_⟩
  · rw [serveAll?_entryRequests rfl, Topology.accept?_append]
    show ((Topology.accept? _ entries').bind _).map _ = _
    rw [show (new config source).topology.accept? entries' = some u₁ from hu₁, Option.bind_some, hu]
    rfl
  · have hsame : Renamed π { new config source with topology := t }
        { new config source with topology := u } := Renamed.of_topology hrenamed rfl rfl
    refine (hsame.converse calls).mono fun x y h => ?_
    obtain ⟨hanswers, hxy⟩ := h
    exact ⟨hanswers, hxy.status.symm, congrArg Trail.level hxy.trail.symm⟩

theorem converse_wideEntries_reverse :
    let config : Config := { encoding := .li2024, wordSize := 2 }
    let entries := Topology.wideEntries.dropLast
    ∃ p q : Propagator Pcg,
      (new config (.ofSeed 0)).serveAll? (entryRequests (entries ++ [("order", 1)])) = some p ∧
      (new config (.ofSeed 0)).serveAll? (entryRequests (entries.reverse ++ [("order", 1)])) =
        some q ∧ p.isBuilt = true ∧ q.isBuilt = true ∧
      (∃ π, p.topology.Renamed π q.topology) ∧
      ∀ calls, Concur
        (fun x y => x.1 = y.1 ∧ x.2.status = y.2.status ∧ x.2.trail.level = y.2.trail.level)
        (p.converse calls) (q.converse calls) := by
  intro config entries
  have hserved : ((new config (Pcg.ofSeed 0)).serveAll?
      (entryRequests (entries ++ [("order", 1)]))).isSome = true := by decide +kernel
  obtain ⟨p, hp⟩ := Option.isSome_iff_exists.mp hserved
  obtain ⟨q, hq, hsame⟩ := converse_of_perm entries.reverse_perm.symm (by decide +kernel) hp
  exact ⟨p, q, hp, hq, hsame⟩

end ShaDiff.Propagator
