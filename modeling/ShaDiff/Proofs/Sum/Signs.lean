import ShaDiff.Proofs.Encoding
import ShaDiff.Proofs.Sum.Derivation

/-!
# Sums refine signs

Propagation of a sum keeps or drops all pairs of a bit that have one signed difference
(`Signwise`). So a bit all of whose pairs have one is not refined, and in every encoding a
literal without value that held before is about such a bit. A literal that a sum does force
is therefore news, and its bit will be refined once it is true.
-/

namespace ShaDiff

namespace Condition

variable {c d : Condition}

/-- Whether all pairs with one signed difference are allowed or none is. -/
def SignClosed (u : Condition) : Prop := ∀ p q : Pair, p.signed = q.signed → u.allows p = u.allows q

theorem signClosed_never : never.SignClosed := fun p q _ => by
  rw [allows_never, allows_never]

theorem signClosed_any : any.SignClosed := fun p q _ => by
  rw [allows_any, allows_any]

theorem signClosed_ofSigned (d : Int) : (ofSigned d).SignClosed := by
  have key : ∀ c ∈ [u, n, same], ∀ p ∈ Pair.all, ∀ q ∈ Pair.all,
      p.signed = q.signed → c.allows p = c.allows q := by decide
  intro p q
  refine key _ ?_ p p.mem_all q q.mem_all
  unfold ofSigned
  split
  · exact .head _
  · split
    · exact .tail _ (.head _)
    · exact .tail _ (.tail _ (.head _))

theorem SignClosed.union (h : c.SignClosed) (h' : d.SignClosed) : (c.union d).SignClosed := by
  intro p q hpq
  rw [allows_union, allows_union, h p q hpq, h' p q hpq]

/-- Whether a condition is refined by its signed differences. -/
def Signwise (c d : Condition) : Prop := ∃ u : Condition, u.SignClosed ∧ d = c.inter u

theorem Signwise.refl (c : Condition) : c.Signwise c := by
  refine ⟨any, signClosed_any, ext fun p => ?_⟩
  rw [allows_inter, allows_any, Bool.and_true]

theorem Signwise.allows (h : c.Signwise d) {p : Pair} (hp : d.allows p = true) :
    c.allows p = true := by
  obtain ⟨u, -, rfl⟩ := h
  rw [allows_inter, Bool.and_eq_true] at hp
  exact hp.1

theorem allows_of_ne_never (h : c ≠ never) : ∃ p, c.allows p = true := by
  refine Classical.byContradiction fun hnone => h (ext fun p => ?_)
  rw [allows_never]
  exact Bool.eq_false_iff.mpr fun hp => hnone ⟨p, hp⟩

theorem Signwise.eq_of_grounded (h : c.Signwise d) (hc : c.grounded = true) (hd : d ≠ never) :
    d = c := by
  obtain ⟨u, hu, rfl⟩ := h
  obtain ⟨p, hp⟩ := allows_of_ne_never hd
  rw [allows_inter, Bool.and_eq_true] at hp
  refine ext fun q => ?_
  rw [allows_inter]
  cases hq : c.allows q with
  | false => rfl
  | true =>
    have hsigned := (signed_of_signed? hp.1).symm.trans (signed_of_signed? hq)
    rw [if_pos hc, if_pos hc] at hsigned
    rw [← hu p q (Option.some.inj hsigned), hp.2]
    rfl

end Condition

-- ---------------------------------------------------------------------------
-- Sums
-- ---------------------------------------------------------------------------

namespace Sum

open Condition (SignClosed Signwise)

theorem signClosed_foldl {contributions : List (List Int)} {used : List Condition} {n : Nat}
    (hl : ∀ ds ∈ contributions, ds.length = n) (hn : used.length = n)
    (hu : ∀ u ∈ used, u.SignClosed) :
    (contributions.foldl (List.zipWith fun c d => c.union (.ofSigned d)) used).length = n ∧
      ∀ u ∈ contributions.foldl (List.zipWith fun c d => c.union (.ofSigned d)) used,
        u.SignClosed := by
  induction contributions generalizing used with
  | nil => exact ⟨hn, hu⟩
  | cons ds contributions ih =>
    obtain ⟨hds, hl⟩ := List.forall_mem_cons.mp hl
    refine ih hl (by simp [hn, hds]) fun u hmem => ?_
    obtain ⟨i, hi⟩ := List.getElem?_of_mem hmem
    obtain ⟨c, d, hc, -, rfl⟩ := List.getElem?_zipWith_eq_some.mp hi
    exact (hu c (List.mem_of_getElem? hc)).union (Condition.signClosed_ofSigned d)

theorem signwise_restrict {column : List Condition} {contributions : List (List Int)}
    (hl : ∀ ds ∈ contributions, ds.length = column.length) :
    List.Forall₂ Signwise column (restrict column contributions) := by
  have hnever : ∀ u ∈ List.replicate column.length Condition.never, u.SignClosed :=
    fun u hu => List.eq_of_mem_replicate hu ▸ Condition.signClosed_never
  have hused := signClosed_foldl hl List.length_replicate hnever
  unfold restrict
  refine List.forall₂_iff_get.mpr ⟨by simp [hused.1], fun i _ _ => ?_⟩
  simp only [List.get_eq_getElem, List.getElem_zipWith]
  exact ⟨_, hused.2 _ (List.getElem_mem _), rfl⟩

theorem signwise_settle {columns : List (List Condition)} {constant : Nat}
    {carries alive : List Int} {settled : List Settled}
    (h : settle columns constant carries = some (alive, settled)) :
    List.Forall₂ (fun column s => List.Forall₂ Signwise column s.conditions) columns settled := by
  induction columns generalizing constant carries alive settled with
  | nil =>
    obtain ⟨-, rfl⟩ := Prod.mk.inj (Option.some.inj h)
    exact .nil
  | cons column columns ih =>
    obtain ⟨ws, rfl, -, alive', settled', hrest, -, rfl⟩ := settle_cons h
    refine .cons (signwise_restrict fun ds hds => ?_) (ih hrest)
    obtain ⟨way, hway, rfl⟩ := List.mem_map.mp hds
    exact length_contributions (mem_keep.mp hway).1

theorem signwise_settleWords {words : List (List Condition)} {constant size : Nat}
    {settled : List Settled} (hsize : ∀ w ∈ words, w.length = size)
    (h : settleWords words constant = some settled) :
    List.Forall₂ (List.Forall₂ Signwise) words
      (ofColumns (settled.map (·.conditions)) words.length) := by
  cases words with
  | nil => exact .nil
  | cons word words =>
    rw [settleWords_cons] at h
    obtain ⟨⟨alive, settled'⟩, hsettle, rfl⟩ := Option.map_eq_some_iff.mp h
    have hsettled := signwise_settle hsettle
    rw [hsize word (.head _)] at hsettled
    generalize word :: words = ws at hsize hsettled
    have hlength : settled'.length = size := by simpa [columns] using hsettled.length_eq.symm
    refine List.forall₂_iff_get.mpr ⟨by simp [ofColumns], fun k hk _ => ?_⟩
    have hword : ws[k].length = size := hsize _ (List.getElem_mem hk)
    simp only [ofColumns, List.get_eq_getElem, List.getElem_map, List.getElem_range]
    refine List.forall₂_iff_get.mpr ⟨by simp [hword, hlength], fun col hcol _ => ?_⟩
    rw [List.get_eq_getElem] at *
    have hlt : col < settled'.length := by rw [hlength, ← hword]; exact hcol
    have hcolumn := (List.forall₂_iff_get.mp hsettled).2 col (hsettled.length_eq ▸ hlt) hlt
    have hk' : k < settled'[col].conditions.length := by
      rw [List.get_eq_getElem, List.get_eq_getElem] at hcolumn
      rw [← hcolumn.length_eq]
      simpa [columns] using hk
    have hentry := (List.forall₂_iff_get.mp hcolumn).2 k (by simpa [columns] using hk) hk'
    simpa [columns, List.getD_eq_getElem?_getD, hcol, hk'] using hentry

theorem signwise_propagate {positive negative refined : List (List Condition)}
    {relations : List WordRelation} {size : Nat}
    (hsize : ∀ w ∈ positive ++ negative, w.length = size)
    (h : propagate positive negative = .refined refined relations) :
    ∀ (i : Nat) w, (positive ++ negative)[i]? = some w →
      ∃ cs, refined[i]? = some cs ∧ List.Forall₂ Signwise w cs := by
  unfold propagate at h
  split at h
  · cases h
  · next places hplaces =>
    dsimp only at h
    split at h
    · cases h
    · next settled hsettled =>
      obtain ⟨rfl, -⟩ := Derivation.refined.inj h
      obtain ⟨-, -, hplaces⟩ := openWords?_eq_some hplaces
      generalize positive ++ negative = words at hsize hsettled hplaces ⊢
      have hword (i : Nat) (hi : i ∈ places) : words.getD i [] ∈ words := by
        rw [hplaces] at hi
        have hlt := List.mem_range.mp (List.mem_filter.mp hi).1
        rw [List.getD_eq_getElem?_getD, List.getElem?_eq_getElem hlt]
        exact List.getElem_mem hlt
      have hopened : ∀ w ∈ places.map (words.getD · []), w.length = size := by
        intro w hw
        obtain ⟨i, hi, rfl⟩ := List.mem_map.mp hw
        exact hsize _ (hword i hi)
      have hderived := signwise_settleWords hopened hsettled
      rw [List.forall₂_map_left_iff] at hderived
      have hkept : ∀ i < words.length, ∃ cs, words[i]? = some cs ∧
          (i ∉ places → List.Forall₂ Signwise (words.getD i []) cs) := fun i hi => by
        refine ⟨words[i], List.getElem?_eq_getElem hi, fun _ => ?_⟩
        rw [List.getD_eq_getElem?_getD, List.getElem?_eq_getElem hi]
        exact List.forall₂_same.mpr fun c _ => .refl c
      have hall := forall_replace hkept hderived
      intro i w hw
      obtain ⟨hlt, -⟩ := List.getElem?_eq_some_iff.mp hw
      obtain ⟨cs, hcs, hsign⟩ := hall i hlt
      rw [List.getD_eq_getElem?_getD, hw] at hsign
      exact ⟨cs, hcs, hsign⟩

end Sum

-- ---------------------------------------------------------------------------
-- Encodings
-- ---------------------------------------------------------------------------

namespace Encoding

variable {e : Encoding} {values : List (Option Bool)} {r : Region} {d : Condition}

theorem refresh_take (e : Encoding) (values : List (Option Bool)) :
    e.refresh values = e.refresh ((List.range 4).map fun slot => values[slot]?.join) := by
  have hslot : ∀ r ∈ e.regions, r.slot < 4 := by cases e <;> decide
  refine Condition.ext fun p => ?_
  rw [Bool.eq_iff_iff, allows_refresh, allows_refresh]
  refine forall₂_congr fun r hr => ?_
  simp [Region.holds, hslot r hr]

theorem grounded_of_implied (hr : r ∈ e.regions) (hnone : values[r.slot]?.join = none)
    (h : (e.refresh values).subset r.condition = true) (hne : e.refresh values ≠ .never) :
    (e.refresh values).grounded = true := by
  have hslot : ∀ r ∈ e.regions, r.slot < 4 := by cases e <;> decide
  have key : ∀ a ∈ [none, some false, some true], ∀ b ∈ [none, some false, some true],
      ∀ c ∈ [none, some false, some true], ∀ d ∈ [none, some false, some true],
      ∀ r ∈ e.regions, [a, b, c, d][r.slot]?.join = none →
        (e.refresh [a, b, c, d]).subset r.condition = true → e.refresh [a, b, c, d] ≠ .never →
        (e.refresh [a, b, c, d]).grounded = true := by
    cases e <;> decide +kernel
  have hmem (x : Option Bool) : x ∈ [none, some false, some true] := by
    rcases x with _ | _ | _ <;> decide
  rw [refresh_take] at h hne ⊢
  refine key _ (hmem _) _ (hmem _) _ (hmem _) _ (hmem _) r hr ?_ h hne
  have hlt := hslot r hr
  have hlookup : ((List.range 4).map fun slot => values[slot]?.join)[r.slot]? =
      some (values[r.slot]?.join) := by simp [hlt]
  exact (congrArg Option.join hlookup).trans hnone

theorem not_implied_of_signwise (hr : r ∈ e.regions) (hnone : values[r.slot]?.join = none)
    (hd : (e.refresh values).Signwise d) (hne : d ≠ e.refresh values) (hnever : d ≠ .never) :
    (e.refresh values).subset r.condition = false := by
  refine Bool.eq_false_iff.mpr fun h => hne (hd.eq_of_grounded ?_ hnever)
  refine grounded_of_implied hr hnone h fun hc => hnever ?_
  obtain ⟨u, -, rfl⟩ := hd
  refine Condition.ext fun p => ?_
  rw [hc, Condition.allows_inter, Condition.allows_never, Bool.false_and]

end Encoding

end ShaDiff
