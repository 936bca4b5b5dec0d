import ShaDiff.Proofs.Topology.Readers

/-!
# Readers of atoms

Readers are listed with bits here, and may as well be listed with atoms: each column and sum is
then added to the lists of all atoms of the bits that it reads. No atom is in slots of two bits,
so the lists of an atom are those of its bit, whichever atom of the bit is asked
(`getD_atomReaders`).
-/

namespace ShaDiff

def Readers.addSite (r : Readers) (s : Site) : Readers :=
  { r with sites := Topology.addOnce r.sites s }

def Readers.addSum (r : Readers) (sum : Nat) : Readers :=
  { r with sums := Topology.addOnce r.sums sum }

theorem Readers.eq_of_fields {r r' : Readers} (hsites : r.sites = r'.sites)
    (hsums : r.sums = r'.sums) : r = r' := by
  cases r
  cases r'
  exact (Readers.mk.injEq ..).mpr ⟨hsites, hsums⟩

namespace Topology

variable {t : Topology} {readers : Std.TreeMap Bit Readers} {lists : Std.TreeMap Atom Readers}
  {s : Site} {b c : Bit} {sum : Nat} {a : Atom} {p : Place} {add : Readers → Readers}

def addToAtoms (t : Topology) (b : Bit) (add : Readers → Readers)
    (lists : Std.TreeMap Atom Readers) : Std.TreeMap Atom Readers :=
  (t.slotAtoms b).foldl (fun lists a =>
    if t.tracked.contains a then lists.insert a (add (lists.getD a {})) else lists) lists

def addSiteToAtoms (t : Topology) (lists : Std.TreeMap Atom Readers) (s : Site) (b : Bit) :
    Std.TreeMap Atom Readers :=
  if b.isZero then lists else t.addToAtoms b (·.addSite s) lists

def atomReaders (t : Topology) : Std.TreeMap Atom Readers :=
  let lists := t.operationBits.foldl (fun lists x => t.addSiteToAtoms lists x.1 x.2) ∅
  t.sumBits.foldl (fun lists x => t.addToAtoms x.2 (·.addSum x.1) lists) lists

-- ---------------------------------------------------------------------------
-- One reader
-- ---------------------------------------------------------------------------

theorem addOnce_addOnce {α : Type} [DecidableEq α] (l : List α) (a : α) :
    addOnce (addOnce l a) a = addOnce l a :=
  if_pos (mem_addOnce.mpr (.inl rfl))

theorem getD_addToAtoms (hadd : ∀ r, add (add r) = add r) :
    (t.addToAtoms b add lists).getD a {} =
      if a ∈ t.slotAtoms b ∧ t.tracked.contains a = true then add (lists.getD a {})
      else lists.getD a {} := by
  unfold addToAtoms
  induction t.slotAtoms b generalizing lists with
  | nil => simp
  | cons x atoms ih =>
    rw [List.foldl_cons, ih]
    cases hx : t.tracked.contains x with
    | false => grind
    | true =>
      rw [if_pos rfl, Std.TreeMap.getD_insert]
      simp only [Std.LawfulEqCmp.compare_eq_iff_eq]
      grind

theorem getD_addSite : (addSite readers s b).getD c {} =
    if b = c ∧ c.isZero = false then (readers.getD c {}).addSite s else readers.getD c {} := by
  refine Readers.eq_of_fields ?_ ?_
  · rw [sites_addSite, apply_ite Readers.sites]
    rfl
  · rw [sums_addSite, apply_ite Readers.sums]
    exact (ite_self _).symm

theorem getD_addSum : (addSum readers sum b).getD c {} =
    if b = c then (readers.getD c {}).addSum sum else readers.getD c {} := by
  refine Readers.eq_of_fields ?_ ?_
  · rw [sites_addSum, apply_ite Readers.sites]
    exact (ite_self _).symm
  · rw [sums_addSum, apply_ite Readers.sums]
    rfl

-- ---------------------------------------------------------------------------
-- All readers
-- ---------------------------------------------------------------------------

theorem Tracks.mem_slotAtoms_iff (ht : t.Tracks) (hp : t.tracked[a]? = some p) :
    a ∈ t.slotAtoms b ↔ (t.slots p.bit)[p.slot]?.join = some a ∧ b = p.bit := by
  rw [mem_slotAtoms]
  constructor
  · rintro ⟨slot, hslot⟩
    obtain rfl := Option.some.inj (hp.symm.trans (ht b slot a hslot))
    exact ⟨hslot, rfl⟩
  · rintro ⟨hslot, rfl⟩
    exact ⟨p.slot, hslot⟩

/-- Whether the lists of the tracked atoms are those of the bits whose slots they are in. -/
def SameLists (t : Topology) (lists : Std.TreeMap Atom Readers)
    (readers : Std.TreeMap Bit Readers) : Prop :=
  ∀ a p, t.tracked[a]? = some p → lists.getD a {} =
    if (t.slots p.bit)[p.slot]?.join = some a then readers.getD p.bit {} else {}

theorem SameLists.addSite (h : t.SameLists lists readers) (ht : t.Tracks) (s : Site) (b : Bit) :
    t.SameLists (t.addSiteToAtoms lists s b) (addSite readers s b) := by
  intro a p hp
  have hlists := h a p hp
  have htracked : t.tracked.contains a = true := by
    rw [Std.TreeMap.contains_eq_isSome_getElem?, hp, Option.isSome_some]
  unfold addSiteToAtoms
  rw [getD_addSite]
  cases hb : b.isZero with
  | true => grind
  | false =>
    rw [if_neg Bool.false_ne_true, getD_addToAtoms fun r => ?_]
    · simp only [ht.mem_slotAtoms_iff hp]
      grind
    · exact congrArg (Readers.mk · r.sums) (addOnce_addOnce r.sites s)

theorem SameLists.addSum (h : t.SameLists lists readers) (ht : t.Tracks) (sum : Nat) (b : Bit) :
    t.SameLists (t.addToAtoms b (·.addSum sum) lists) (addSum readers sum b) := by
  intro a p hp
  have hlists := h a p hp
  have htracked : t.tracked.contains a = true := by
    rw [Std.TreeMap.contains_eq_isSome_getElem?, hp, Option.isSome_some]
  rw [getD_addSum, getD_addToAtoms fun r => ?_]
  · simp only [ht.mem_slotAtoms_iff hp]
    grind
  · exact congrArg (Readers.mk r.sites) (addOnce_addOnce r.sums sum)

theorem sameLists_addReaders (ht : t.Tracks) (hreaders : t.readers = ∅) :
    t.SameLists t.atomReaders t.addReaders.readers := by
  have hsites (read : List (Site × Bit)) {lists readers} (h : t.SameLists lists readers) :
      t.SameLists (read.foldl (fun lists x => t.addSiteToAtoms lists x.1 x.2) lists)
        (read.foldl (fun r x => Topology.addSite r x.1 x.2) readers) := by
    induction read generalizing lists readers with
    | nil => exact h
    | cons x read ih => exact ih (h.addSite ht x.1 x.2)
  have hsums (read : List (Nat × Bit)) {lists readers} (h : t.SameLists lists readers) :
      t.SameLists (read.foldl (fun lists x => t.addToAtoms x.2 (·.addSum x.1) lists) lists)
        (read.foldl (fun r x => Topology.addSum r x.1 x.2) readers) := by
    induction read generalizing lists readers with
    | nil => exact h
    | cons x read ih => exact ih (h.addSum ht x.1 x.2)
  refine hsums _ (hsites _ fun a p _ => ?_)
  rw [hreaders, Std.TreeMap.getD_emptyc, Std.TreeMap.getD_emptyc, ite_self]

end Topology

end ShaDiff
