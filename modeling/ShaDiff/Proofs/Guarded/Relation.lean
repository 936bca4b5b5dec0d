import ShaDiff.Proofs.Column.Related
import ShaDiff.Proofs.Guarded.Basic

/-!
# Guarded search for relations

Patterns are digits of a number where a column is propagated, and entries of a list where a sum
is. Of either kind a digit is read guarded, the first pattern gives the value that the others have
to agree with, and the places that follow one are a part of the list of free places. Where the
digits are there, the search finds the relations among the patterns (`relations_eq`).
-/

namespace ShaDiff

theorem Relation.among_eq (patterns : List (List Bool)) (places : List Nat) :
    among patterns places = (places.zipIdx.map fun (p, index) =>
      (places.drop (index + 1)).filterMap fun q =>
        (constantSum? patterns p q).map (Relation.mk p q)).flatten := by
  induction places with
  | nil => rfl
  | cons p qs ih =>
    rw [among, ih, List.zipIdx_cons, List.zipIdx_succ, List.map_cons, List.map_map,
      List.flatten_cons]
    rfl

namespace Guarded

variable {α : Type} {digit : α → Nat → Except Panic Bool} {view : α → List Bool} {patterns : List α}
  {free : List Nat}

def parity (digit : α → Nat → Except Panic Bool) (pattern : α) (p q : Nat) :
    Except Panic Bool := do
  let a ← digit pattern p
  let b ← digit pattern q
  return a ^^ b

def relation? (digit : α → Nat → Except Panic Bool) (patterns : List α) (p q : Nat) :
    Except Panic (Option Relation) := do
  let first ← read patterns 0
  let value ← parity digit first p q
  let agrees ← patterns.allM fun pattern => do return (← parity digit pattern p q) == value
  return if agrees then some ⟨p, q, value⟩ else none

def relationsAt (digit : α → Nat → Except Panic Bool) (patterns : List α) (free : List Nat)
    (p index : Nat) : Except Panic (List Relation) := do
  within (index + 1) (free.length + 1)
  let found ← (free.drop (index + 1)).mapM (relation? digit patterns p)
  return found.filterMap id

def relations (digit : α → Nat → Except Panic Bool) (patterns : List α) (free : List Nat) :
    Except Panic (List Relation) := do
  let found ← free.zipIdx.mapM fun (p, index) => relationsAt digit patterns free p index
  return found.flatten

theorem parity_eq {pattern : α} {p q : Nat}
    (hp : digit pattern p = .ok (Relation.difference (view pattern) p))
    (hq : digit pattern q = .ok (Relation.difference (view pattern) q)) :
    parity digit pattern p q =
      .ok (Relation.difference (view pattern) p ^^ Relation.difference (view pattern) q) := by
  rw [parity, hp, ok_bind, hq, ok_bind, pure_eq_ok]

section

variable (hne : patterns ≠ [])
  (hdigit : ∀ pattern ∈ patterns, ∀ p ∈ free,
    digit pattern p = .ok (Relation.difference (view pattern) p))

include hne hdigit

theorem relation?_eq {p q : Nat} (hp : p ∈ free) (hq : q ∈ free) :
    relation? digit patterns p q =
      .ok ((Relation.constantSum? (patterns.map view) p q).map (Relation.mk p q)) := by
  have hparity (pattern : α) (h : pattern ∈ patterns) :=
    parity_eq (hdigit pattern h p hp) (hdigit pattern h q hq)
  cases patterns with
  | nil => exact absurd rfl hne
  | cons first rest =>
    have hagrees := allM_eq (f := fun pattern => do
      return (← parity digit pattern p q) == (Relation.difference (view first) p ^^
        Relation.difference (view first) q)) fun pattern h => by rw [hparity pattern h]; rfl
    have hread : read (first :: rest) 0 = .ok first := rfl
    rw [relation?, hread, ok_bind, hparity first (.head _), ok_bind, hagrees, ok_bind, pure_eq_ok]
    simp only [Relation.constantSum?, List.map_cons, List.all_cons, BEq.rfl, Bool.true_and,
      List.all_map, Function.comp_def]
    split <;> rfl

theorem relationsAt_eq {p index : Nat} (h : free[index]? = some p) :
    relationsAt digit patterns free p index = .ok ((free.drop (index + 1)).filterMap fun q =>
      (Relation.constantSum? (patterns.map view) p q).map (Relation.mk p q)) := by
  obtain ⟨hlt, hp⟩ := List.getElem?_eq_some_iff.mp h
  have hfound := mapM_eq fun q (hq : q ∈ free.drop (index + 1)) =>
    relation?_eq hne hdigit (hp ▸ List.getElem_mem hlt) (List.mem_of_mem_drop hq)
  rw [relationsAt, within_eq (Nat.succ_lt_succ hlt), ok_bind, hfound, ok_bind, pure_eq_ok,
    List.filterMap_map]
  rfl

theorem relations_eq :
    relations digit patterns free = .ok (Relation.among (patterns.map view) free) := by
  have hfound := mapM_eq (f := fun (x : Nat × Nat) => relationsAt digit patterns free x.1 x.2)
    fun x hx => relationsAt_eq hne hdigit (List.mk_mem_zipIdx_iff_getElem?.mp hx)
  rw [Relation.among_eq, relations, hfound, ok_bind, pure_eq_ok]

end

end Guarded

end ShaDiff
