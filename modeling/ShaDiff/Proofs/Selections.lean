import Mathlib.Data.List.Forall2
import ShaDiff.Condition
import ShaDiff.Relation
import ShaDiff.Selection

/-!
# What selections cover

Columns and sums are settled in the same way: conditions are collected over the
selections that survive, and relations are read off their patterns. So whatever is
one of the survivors is allowed by what was collected (`covers_foldl`) and agrees
with every relation (`sum_of_mem_all`).
-/

namespace ShaDiff

theorem mem_selections {family : List (List α)} {s : List α} :
    s ∈ selections family ↔ List.Forall₂ (· ∈ ·) s family := by
  induction family generalizing s with
  | nil => simp [selections]
  | cons options family ih =>
    rw [mem_selections_cons]
    constructor
    · rintro ⟨a, ha, r, hr, rfl⟩
      exact .cons ha (ih.mp hr)
    · rintro (_ | ⟨ha, hr⟩)
      exact ⟨_, ha, _, ih.mpr hr, rfl⟩

namespace Condition

def Allow (cs : List Condition) (ps : List Pair) : Prop :=
  List.Forall₂ (fun c p => c.allows p = true) cs ps

theorem Allow.map {cond : α → Condition} {pair : α → Pair} {xs : List α}
    (h : ∀ x ∈ xs, (cond x).allows (pair x) = true) : Allow (xs.map cond) (xs.map pair) := by
  rw [Allow, List.forall₂_map_left_iff, List.forall₂_map_right_iff]
  exact List.forall₂_same.mpr h

theorem Allow.split {cs ds : List Condition} {ps qs : List Pair} (hl : cs.length = ps.length)
    (h : Allow (cs ++ ds) (ps ++ qs)) : Allow cs ps ∧ Allow ds qs := by
  induction cs generalizing ps with
  | nil =>
    rw [List.eq_nil_of_length_eq_zero hl.symm] at h ⊢
    exact ⟨.nil, h⟩
  | cons c cs ih =>
    cases ps with
    | nil => cases hl
    | cons p ps =>
      obtain _ | ⟨hp, h⟩ := h
      obtain ⟨h1, h2⟩ := ih (Nat.succ.inj hl) h
      exact ⟨.cons hp h1, h2⟩

/-- Whether each of some conditions allows all that is allowed for the choice at its
place. -/
def Covers (g : α → Condition) (cs : List Condition) (xs : List α) : Prop :=
  List.Forall₂ (fun c x => ∀ p, (g x).allows p = true → c.allows p = true) cs xs

section

variable {g : α → Condition} {cs : List Condition} {xs ys : List α} {xss : List (List α)} {n : Nat}

theorem Covers.zipWith_left (h : Covers g cs xs) (hl : ys.length = xs.length) :
    Covers g (List.zipWith (fun c y => c.union (g y)) cs ys) xs := by
  induction h generalizing ys with
  | nil => exact .nil
  | cons hc _ ih =>
    cases ys with
    | nil => cases hl
    | cons y ys =>
      refine .cons (fun p hp => ?_) (ih (Nat.succ.inj hl))
      rw [allows_union, hc p hp, Bool.true_or]

theorem covers_zipWith_right (hl : cs.length = xs.length) :
    Covers g (List.zipWith (fun c x => c.union (g x)) cs xs) xs := by
  induction cs generalizing xs with
  | nil =>
    rw [List.eq_nil_of_length_eq_zero hl.symm]
    exact .nil
  | cons c cs ih =>
    cases xs with
    | nil => cases hl
    | cons x xs =>
      refine .cons (fun p hp => ?_) (ih (Nat.succ.inj hl))
      rw [allows_union, hp, Bool.or_true]

theorem covers_foldl (hc : cs.length = n) (hl : ∀ ys ∈ xss, ys.length = n)
    (hx : xs ∈ xss ∨ xs.length = n ∧ Covers g cs xs) :
    Covers g (xss.foldl (List.zipWith fun c x => c.union (g x)) cs) xs := by
  induction xss generalizing cs with
  | nil => exact (hx.resolve_left List.not_mem_nil).2
  | cons ys xss ih =>
    have hy := hl ys (.head _)
    refine ih (by simp [hc, hy]) (fun zs hz => hl zs (.tail _ hz)) ?_
    rcases hx with hx | ⟨hn, hx⟩
    · rcases List.mem_cons.mp hx with rfl | hx
      · exact .inr ⟨hy, covers_zipWith_right (hc.trans hy.symm)⟩
      · exact .inl hx
    · exact .inr ⟨hn, hx.zipWith_left (hy.trans hn.symm)⟩

theorem length_foldl (hc : cs.length = n) (hl : ∀ ys ∈ xss, ys.length = n) :
    (xss.foldl (List.zipWith fun c x => c.union (g x)) cs).length = n := by
  induction xss generalizing cs with
  | nil => exact hc
  | cons ys xss ih =>
    obtain ⟨hy, hl⟩ := List.forall_mem_cons.mp hl
    exact ih (by rw [List.length_zipWith, hc, hy, Nat.min_self]) hl

theorem exists_getElem?_foldl {k : Nat} {d : Condition} (hk : ∀ xs ∈ xss, k < xs.length)
    (hd : cs[k]? = some d) :
    ∃ c, (xss.foldl (List.zipWith fun c x => c.union (g x)) cs)[k]? = some c ∧
      ∀ p, c.allows p = true ↔
        d.allows p = true ∨ ∃ xs ∈ xss, ∃ x, xs[k]? = some x ∧ (g x).allows p = true := by
  induction xss generalizing cs d with
  | nil => exact ⟨d, hd, fun p => by simp⟩
  | cons xs xss ih =>
    obtain ⟨hx, hk⟩ := List.forall_mem_cons.mp hk
    have hnext : (List.zipWith (fun c x => c.union (g x)) cs xs)[k]? =
        some (d.union (g xs[k])) := by
      rw [List.getElem?_zipWith, hd, List.getElem?_eq_getElem hx]
    obtain ⟨c, hc, hallows⟩ := ih hk hnext
    refine ⟨c, hc, fun p => ?_⟩
    rw [hallows, allows_union, Bool.or_eq_true, List.exists_mem_cons_iff,
      List.getElem?_eq_getElem hx, or_assoc]
    simp only [Option.some.injEq, exists_eq_left']

end

end Condition

namespace Relation

variable {patterns : List (List Bool)} {r : Relation}

theorem sum_of_constantSum? {p q : Nat} {value : Bool}
    (h : constantSum? patterns p q = some value) :
    ∀ s ∈ patterns, (difference s p ^^ difference s q) = value := by
  cases patterns with
  | nil => cases h
  | cons s ss =>
    simp only [constantSum?, Option.ite_none_right_eq_some, List.all_eq_true, beq_iff_eq,
      Option.some.injEq] at h
    obtain ⟨hall, rfl⟩ := h
    exact List.forall_mem_cons.mpr ⟨rfl, hall⟩

theorem mem_among {places : List Nat} (h : r ∈ among patterns places) :
    r.first ∈ places ∧ r.second ∈ places ∧
      constantSum? patterns r.first r.second = some r.value := by
  induction places with
  | nil => cases h
  | cons p qs ih =>
    rcases List.mem_append.mp h with h | h
    · obtain ⟨q, hq, h⟩ := List.mem_filterMap.mp h
      obtain ⟨value, hvalue, rfl⟩ := Option.map_eq_some_iff.mp h
      exact ⟨.head _, .tail _ hq, hvalue⟩
    · obtain ⟨h1, h2, h3⟩ := ih h
      exact ⟨.tail _ h1, .tail _ h2, h3⟩

theorem sum_of_mem_all {positions : Nat} (h : r ∈ all patterns positions) :
    r.first < positions ∧ r.second < positions ∧
      ∀ s ∈ patterns, (difference s r.first ^^ difference s r.second) = r.value := by
  obtain ⟨h1, h2, h3⟩ := mem_among h
  exact ⟨List.mem_range.mp (List.mem_filter.mp h1).1, List.mem_range.mp (List.mem_filter.mp h2).1,
    sum_of_constantSum? h3⟩

end Relation

end ShaDiff
