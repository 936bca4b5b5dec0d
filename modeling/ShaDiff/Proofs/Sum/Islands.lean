import ShaDiff.Proofs.Selections
import ShaDiff.Sum.Carry

/-!
# Islands are settled as if they were one

Without islands, all columns are collected going up and kept coming back (`settle`). A
carry that alone can leave an island can be left by all that enters the next one, or by
nothing. So closing an island there keeps the same ways, and what islands settle is what one
pass over all columns settles (`islands_eq_settle`).
-/

namespace ShaDiff.Sum

variable {column : List Condition} {columns : List (List Condition)} {constant : Nat}
  {target : Bool} {carries alive : List Int} {settled : List Settled} {island : List Crossing}
  {way : Way} {carry : Int}

theorem mem_ways : way ∈ ways column target carries ↔
    way.enters ∈ carries ∧ way.contributions ∈ selections (column.map (·.signedDifferences)) ∧
      carryOut? way.enters way.contributions target = some way.leaves := by
  simp only [ways, List.mem_flatMap, List.mem_filterMap, Option.map_eq_some_iff]
  constructor
  · rintro ⟨carry, hcarry, contributions, hmem, out, hout, rfl⟩
    exact ⟨hcarry, hmem, hout⟩
  · rintro ⟨hcarry, hmem, hout⟩
    exact ⟨_, hcarry, _, hmem, _, hout, rfl⟩

theorem mem_entering {ways : List Way} : carry ∈ entering ways ↔ ∃ w ∈ ways, w.enters = carry := by
  simp [entering]

theorem mem_leaving {ways : List Way} : carry ∈ leaving ways ↔ ∃ w ∈ ways, w.leaves = carry := by
  simp [leaving]

theorem length_contributions (h : way ∈ ways column target carries) :
    way.contributions.length = column.length := by
  rw [length_of_mem_selections (mem_ways.mp h).2.1, List.length_map]

theorem mem_keep {ways : List Way} : way ∈ keep ways alive ↔ way ∈ ways ∧ way.leaves ∈ alive := by
  simp [keep]

theorem leaving_ne_nil {ways : List Way} (h : ways ≠ []) : leaving ways ≠ [] := by
  obtain ⟨way, hway⟩ := List.exists_mem_of_ne_nil _ h
  exact List.ne_nil_of_mem (mem_leaving.mpr ⟨way, hway, rfl⟩)

theorem keep_ne_nil {ways : List Way} (hne : alive ≠ []) (hsub : alive ⊆ leaving ways) :
    keep ways alive ≠ [] := by
  obtain ⟨carry, hcarry⟩ := List.exists_mem_of_ne_nil _ hne
  obtain ⟨way, hway, rfl⟩ := mem_leaving.mp (hsub hcarry)
  exact List.ne_nil_of_mem (mem_keep.mpr ⟨hway, hcarry⟩)

/-- Settles columns which the given carries may enter, without islands. Answers the carries
from which the end can be reached, with the settled columns. -/
def settle : List (List Condition) → (constant : Nat) → (carries : List Int) →
    Option (List Int × List Settled)
  | [], _, carries => some (carries, [])
  | column :: rest, constant, carries =>
    let ways := ways column (constant % 2 == 1) carries
    if ways.isEmpty then none
    else
      (settle rest (constant / 2) (leaving ways)).map fun (alive, settled) =>
        (entering (keep ways alive), .ofWays column (keep ways alive) :: settled)

theorem settle_cons (h : settle (column :: columns) constant carries = some (alive, settled)) :
    ∃ ws, ws = ways column (constant % 2 == 1) carries ∧ ws ≠ [] ∧
      ∃ alive' settled', settle columns (constant / 2) (leaving ws) = some (alive', settled') ∧
        alive = entering (keep ws alive') ∧
        settled = .ofWays column (keep ws alive') :: settled' := by
  simp only [settle, Option.ite_none_left_eq_some, Option.map_eq_some_iff] at h
  obtain ⟨hne, ⟨alive', settled'⟩, hrest, h⟩ := h
  obtain ⟨rfl, rfl⟩ := Prod.mk.inj h
  exact ⟨_, rfl, mt List.isEmpty_iff.mpr hne, alive', settled', hrest, rfl, rfl⟩

theorem settle_alive (h : settle columns constant carries = some (alive, settled))
    (hne : carries ≠ []) : alive ≠ [] ∧ alive ⊆ carries := by
  induction columns generalizing constant carries alive settled with
  | nil =>
    obtain ⟨rfl, -⟩ := Prod.mk.inj (Option.some.inj h)
    exact ⟨hne, List.Subset.refl _⟩
  | cons column columns ih =>
    obtain ⟨ws, rfl, hways, alive', settled', hrest, rfl, -⟩ := settle_cons h
    obtain ⟨halive, hsub⟩ := ih hrest (leaving_ne_nil hways)
    constructor
    · obtain ⟨way, hway⟩ := List.exists_mem_of_ne_nil _ (keep_ne_nil halive hsub)
      exact List.ne_nil_of_mem (mem_entering.mpr ⟨way, hway, rfl⟩)
    · intro carry hcarry
      obtain ⟨way, hway, rfl⟩ := mem_entering.mp hcarry
      exact (mem_ways.mp (mem_keep.mp hway).1).1

theorem settle_alone (h : settle columns constant [carry] = some (alive, settled)) :
    alive = [carry] := by
  obtain ⟨hne, hsub⟩ := settle_alive h (List.cons_ne_nil _ _)
  cases columns with
  | nil =>
    obtain ⟨rfl, -⟩ := Prod.mk.inj (Option.some.inj h)
    rfl
  | cons column columns =>
    obtain ⟨ws, -, -, alive', _, -, rfl, -⟩ := settle_cons h
    cases hkept : keep ws alive' with
    | nil => exact absurd (by rw [hkept]; rfl) hne
    | cons way kept =>
      have hall : ∀ w ∈ way :: kept, w.enters = carry := fun w hw =>
        List.mem_singleton.mp (hsub (mem_entering.mpr ⟨w, hkept ▸ hw, rfl⟩))
      obtain ⟨hway, hall⟩ := List.forall_mem_cons.mp hall
      rw [entering, List.map_cons, List.eraseDups_cons, hway,
        List.filter_eq_nil_iff.mpr (by simpa using hall)]
      rfl

-- ---------------------------------------------------------------------------
-- Islands
-- ---------------------------------------------------------------------------

theorem closeIsland_append (carries : List Int) (settled : List Settled) :
    closeIsland island carries settled = (closeIsland island carries []).map (· ++ settled) := by
  induction island generalizing carries settled with
  | nil => rfl
  | cons crossing island ih =>
    unfold closeIsland
    dsimp only
    split
    · rfl
    · rw [ih, ih _ [_], Option.map_map]
      congr 1
      funext found
      simp

theorem closeIsland_cons {ways : List Way} (hne : alive ≠ []) (hsub : alive ⊆ leaving ways) :
    closeIsland (⟨column, ways⟩ :: island) alive settled =
      closeIsland island (entering (keep ways alive)) (.ofWays column (keep ways alive) :: settled) :=
  if_neg (mt List.isEmpty_iff.mp (keep_ne_nil hne hsub))

theorem islands_eq (columns : List (List Condition)) (constant : Nat) (carries : List Int)
    (island : List Crossing) : islands columns constant carries island =
      (settle columns constant carries).bind fun (alive, settled) =>
        closeIsland island alive settled := by
  induction columns generalizing constant carries island with
  | nil => rfl
  | cons column columns ih =>
    simp only [islands, settle]
    split
    · rfl
    next hways =>
    generalize ways column (constant % 2 == 1) carries = ws at hways ⊢
    cases hrest : settle columns (constant / 2) (leaving ws) with
    | none =>
      simp only [ih, hrest]
      split <;> simp
    | some found =>
      obtain ⟨alive, settled⟩ := found
      obtain ⟨halive, hsub⟩ := settle_alive hrest (leaving_ne_nil (mt List.isEmpty_iff.mpr hways))
      have hclose : closeIsland (⟨column, ws⟩ :: island) alive settled = _ :=
        closeIsland_cons halive hsub
      simp only [ih, hrest]
      split
      · next hone =>
        -- What is settled above is settled from the one carry that leaves the island.
        obtain ⟨carry, hcarry⟩ := List.length_eq_one_iff.mp hone
        obtain rfl := settle_alone (hcarry ▸ hrest)
        rw [closeIsland_append, Option.map_eq_bind] at hclose
        rw [hcarry]
        exact hclose
      · exact hclose

theorem islands_eq_settle (columns : List (List Condition)) (constant : Nat) (carries : List Int) :
    islands columns constant carries [] = (settle columns constant carries).map (·.2) := by
  rw [islands_eq, Option.map_eq_bind]
  rfl

theorem settleWords_cons (word : List Condition) (words : List (List Condition)) (constant : Nat) :
    settleWords (word :: words) constant =
      (settle (Sum.columns (word :: words) word.length) constant [0]).map (·.2) :=
  islands_eq_settle _ _ _

end ShaDiff.Sum
