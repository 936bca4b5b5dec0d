import ShaDiff.Proofs.Column.Exact
import ShaDiff.Proofs.Recall

/-!
# Correct rules

A rule is correct if it says of its column what propagation does. The outcome it stands for
is then that of propagation, except that it has no relations. So correct rules cannot be told
from no rules where no equations are kept, nor where their columns have no relations.
Elsewhere a rule may take away the equations of its column.
-/

namespace ShaDiff

theorem Column.Exact.inputs_eq {g : Gate} {inputs : List Condition} {n : Nat} {outcome : Outcome}
    (h : Exact g inputs (List.replicate n .any) outcome) : outcome.inputs = inputs := by
  obtain ⟨ps, hps⟩ := h.solvable
  refine List.ext_getElem h.length_inputs fun i hi hi' => Condition.ext fun p => ?_
  have hc := List.getElem?_eq_getElem hi
  have hd := List.getElem?_eq_getElem hi'
  rw [Bool.eq_iff_iff, h.allows_input hc]
  constructor
  · rintro ⟨qs, hqs, hp⟩
    exact hqs.1.allows_of_getElem? hd hp
  · intro hp
    -- Any solution stays one with the pair in its place.
    refine ⟨ps.set i p, ⟨hps.1.set hd hp, ?_⟩, List.getElem?_set_self (hps.1.length_eq ▸ hi')⟩
    refine List.forall₂_iff_get.mpr ⟨by simp [length_image], fun k hk _ => ?_⟩
    rw [List.get_eq_getElem, List.getElem_replicate]
    exact Condition.allows_any _

namespace Rule

variable {related : Prop} {r : Rule} {lines : List Text.Line}

/-- Whether a rule says of its column what propagation does. -/
structure Correct (r : Rule) : Prop where
  contradictory : r.key.propagate = none → .never ∈ r.outputs
  refined : ∀ outcome ∈ r.key.propagate, r.outputs = outcome.outputs

instance : Decidable r.Correct :=
  decidable_of_iff ((r.key.propagate = none → .never ∈ r.outputs) ∧
    ∀ outcome ∈ r.key.propagate, r.outputs = outcome.outputs)
    ⟨fun h => ⟨h.1, h.2⟩, fun h => ⟨h.contradictory, h.refined⟩⟩

def Unrelated (r : Rule) : Prop := ∀ outcome ∈ r.key.propagate, outcome.relations = []

instance : Decidable r.Unrelated :=
  inferInstanceAs (Decidable (∀ outcome ∈ r.key.propagate, outcome.relations = []))

def AllOf (P : Rule → Prop) (lines : List Text.Line) : Prop :=
  ∀ x ∈ lines.zipIdx 1, ∀ r, ofLine x.2 x.1 = .ok (some r) → P r

instance {P : Rule → Prop} [DecidablePred P] : Decidable (AllOf P lines) :=
  decidable_of_iff (∀ x ∈ lines.zipIdx 1, ∀ r ∈ (ofLine x.2 x.1).toOption.join, P r) <|
    forall₂_congr fun x _ => forall_congr' fun r => by
      cases ofLine x.2 x.1 <;> simp [Except.toOption]

theorem Correct.outcome_eq (h : r.Correct) :
    r.outcome = r.key.propagate.map Column.Outcome.bare := by
  cases hp : r.key.propagate with
  | none => exact if_pos (List.contains_iff_mem.mpr (h.contradictory hp))
  | some outcome =>
    have hexact := Column.exact_propagate hp
    have houtputs := h.refined outcome hp
    have hnever : ¬ r.outputs.contains .never := by
      rw [List.contains_iff_mem, houtputs]
      exact fun hmem => hexact.ne_never (List.mem_append_right _ hmem) rfl
    rw [Rule.outcome, if_neg hnever, Option.map_some, Column.Outcome.bare, hexact.inputs_eq, houtputs]
    rfl

theorem Correct.recalls (h : r.Correct) (hrelated : related → r.Unrelated) :
    r.key.Recalls related r.outcome := by
  rw [h.outcome_eq]
  constructor
  · cases r.key.propagate <;> rfl
  · intro hr
    have hunrelated := hrelated hr
    cases hp : r.key.propagate with
    | none => rfl
    | some outcome =>
      have hrelations := hunrelated outcome hp
      exact congrArg some (by rw [Column.Outcome.bare, ← hrelations])

end Rule

namespace Propagator

variable {ρ : Type} {p q : Propagator ρ} {lines : List Text.Line}

/-- Correct rules are recalled, as far as their relations matter. -/
theorem Recalls.readRules (h : p.Recalls) (hcorrect : Rule.AllOf Rule.Correct lines)
    (hrelated : p.equationSlot? ≠ none → Rule.AllOf Rule.Unrelated lines) :
    (p.readRules lines).2.Recalls where
  columns := Rule.all_load h.columns 0 fun x hx r hr =>
    (hcorrect x hx r hr).recalls fun hslot => hrelated hslot x hx r hr
  sums := h.sums
  shaped := h.shaped

theorem Twins.readRules (h : p.Twins q) (hcorrect : Rule.AllOf Rule.Correct lines)
    (hrelated : p.equationSlot? ≠ none → Rule.AllOf Rule.Unrelated lines) :
    (p.readRules lines).2.Twins q := by
  obtain ⟨⟨m, rfl⟩, hp, hq⟩ := h
  exact ⟨⟨m, rfl⟩, hp.readRules hcorrect hrelated, hq⟩

variable [Coin ρ]

theorem Recalls.equationSlot?_reply (h : p.Recalls) {r : Request} {a : Reply}
    (hr : p.reply r = .ok (a, q)) : q.equationSlot? = p.equationSlot? := by
  cases r with
  | entry name value =>
    simp only [reply, Propagator.configure, bind, Except.bind] at hr
    split at hr
    · cases hr
    · next henter =>
      obtain ⟨-, hencoding, -⟩ := h.shaped.enter henter
      obtain ⟨-, rfl⟩ := Prod.mk.inj (Except.ok.inj hr)
      simp only [equationSlot?, encoding, hencoding]
  | rules lines =>
    obtain ⟨-, rfl⟩ := Prod.mk.inj (Except.ok.inj hr)
    rfl
  | call c =>
    obtain ⟨⟨answer, p'⟩, hc, hq⟩ := exists_of_map_eq_ok hr
    obtain ⟨-, rfl⟩ := Prod.mk.inj hq
    obtain ⟨hconfig, htopology⟩ := frame_answer hc
    simp only [equationSlot?, encoding, hconfig, htopology]

/-- Twins stay twins if one of them reads correct rules now and then. -/
theorem Twins.replyAll_correct (h : p.Twins q) {requests : List Request}
    (hcorrect : ∀ lines, .rules lines ∈ requests → Rule.AllOf Rule.Correct lines)
    (hrelated : p.equationSlot? ≠ none →
      ∀ lines, .rules lines ∈ requests → Rule.AllOf Rule.Unrelated lines) :
    Concur (fun x y => x.1.filter (!·.isRead) = y.1 ∧ x.2.Twins y.2) (p.replyAll requests)
      (q.replyAll (requests.filter (!·.isRules))) := by
  induction requests generalizing p q with
  | nil => exact .ok ⟨rfl, h⟩
  | cons r requests ih =>
    have hcorrect' lines (hmem : .rules lines ∈ requests) := hcorrect lines (.tail r hmem)
    have hrelated' (hslot) lines (hmem : .rules lines ∈ requests) :=
      hrelated hslot lines (.tail r hmem)
    cases hrules : r.isRules with
    | true =>
      obtain ⟨lines, rfl⟩ : ∃ lines, r = .rules lines := by
        cases r with
        | rules lines => exact ⟨lines, rfl⟩
        | _ => cases hrules
      have hread := h.readRules (hcorrect lines (.head _)) fun hslot =>
        hrelated hslot lines (.head _)
      rw [List.filter_cons_of_neg (by simp [hrules]), replyAll_cons_of_ok rfl]
      exact (ih hread hcorrect' hrelated').map_left fun x y hxy => hxy
    | false =>
      rw [List.filter_cons_of_pos (by simp [hrules])]
      unfold Propagator.replyAll
      refine (h.reply hrules).and_ok.bind fun x y hreply => ?_
      obtain ⟨hx, hxy⟩ := hreply
      have hslot := h.left.equationSlot?_reply hx
      refine (ih hxy.2 hcorrect' (hslot ▸ hrelated')).bind fun x' y' hxy' => .ok ⟨?_, hxy'.2⟩
      rw [List.filter_cons_of_pos (by simp [isRead_reply hx, hrules]), hxy.1, hxy'.1]

/-- Correct rules that are read at any time make no difference to the replies to all other
requests, nor to anything that is seen, if no equations are kept or the columns of the
rules have no relations. -/
theorem replies_of_correct_rules (config : Config) (source : ρ) {requests : List Request}
    (hcorrect : ∀ lines, .rules lines ∈ requests → Rule.AllOf Rule.Correct lines)
    (hrelated : (new config source).equationSlot? ≠ none →
      ∀ lines, .rules lines ∈ requests → Rule.AllOf Rule.Unrelated lines) :
    Concur (fun x y => x.1.filter (!·.isRead) = y.1 ∧ x.2.Alike y.2)
      ((new config source).replyAll requests)
      ((new config source).replyAll (requests.filter (!·.isRules))) :=
  ((Twins.refl (recalls_new config source)).replyAll_correct hcorrect hrelated).mono
    fun _ _ hxy => ⟨hxy.1, hxy.2.observed⟩

/-- Of these rules the second is found once. -/
theorem replies_of_correct_rules_sample :
    let requests := sampleRequests [.assign ⟨4, false⟩ false, .propagate]
    ∃ x y : List Reply × Propagator Pcg,
      (new { encoding := .li2024, wordSize := 1 } (.ofSeed 0)).replyAll
        (.rules [some "xor3 #-- #", some "add D?0 ??"] :: requests) = .ok x ∧
      (new { encoding := .li2024, wordSize := 1 } (.ofSeed 0)).replyAll requests = .ok y ∧
      x.1.head? = some (.read (.ok 2)) ∧ x.2.columnCache.hits = 1 ∧
      x.1.filter (!·.isRead) = y.1 ∧ x.2.Alike y.2 := by
  intro requests
  have hcalls : ∀ r ∈ requests, r.isRules = false := by decide +kernel
  have hlines {P : Rule → Prop} (h : Rule.AllOf P [some "xor3 #-- #", some "add D?0 ??"]) :
      ∀ lines, .rules lines ∈ .rules [some "xor3 #-- #", some "add D?0 ??"] :: requests →
        Rule.AllOf P lines := by
    intro lines hmem
    rcases List.mem_cons.mp hmem with heq | hmem
    · exact Request.rules.inj heq ▸ h
    · cases hcalls _ hmem
  have hrun : ((new { encoding := .li2024, wordSize := 1 } (Pcg.ofSeed 0)).replyAll
      (.rules [some "xor3 #-- #", some "add D?0 ??"] :: requests)).map
        (fun x => (x.1.head?, x.2.columnCache.hits)) = .ok (some (.read (.ok 2)), 1) := by
    decide +kernel
  have hconcur := replies_of_correct_rules { encoding := .li2024, wordSize := 1 } (Pcg.ofSeed 0)
    (hlines (by decide +kernel)) fun _ => hlines (by decide +kernel)
  rw [List.filter_cons_of_neg (by simp [Request.isRules]),
    List.filter_eq_self.mpr fun r hr => by simp [hcalls r hr]] at hconcur
  obtain ⟨x, hx, hx'⟩ := exists_of_map_eq_ok hrun
  rw [hx] at hconcur
  obtain ⟨y, hy, hreplies, halike⟩ := hconcur.of_ok
  obtain ⟨hhead, hhits⟩ := Prod.mk.inj hx'
  exact ⟨x, y, hx, hy, hhead, hhits, hreplies, halike⟩

/-- A correct rule takes away the equation of its column. -/
theorem equation_lost_sample :
    let requests := sampleRequests [.openLevel, .assign ⟨3, false⟩ false, .propagate]
    Rule.AllOf Rule.Correct [some "add -?0 ??"] ∧
      ((new { encoding := .li2024, wordSize := 1 } (Pcg.ofSeed 0)).replyAll requests).map
        (·.2.liveEquations) = .ok [.between 21 25 false [⟨3, true⟩]] ∧
      ((new { encoding := .li2024, wordSize := 1 } (Pcg.ofSeed 0)).replyAll
        (.rules [some "add -?0 ??"] :: requests)).map (·.2.liveEquations) = .ok [] :=
  ⟨by decide +kernel, by decide +kernel, by decide +kernel⟩

end Propagator

end ShaDiff
