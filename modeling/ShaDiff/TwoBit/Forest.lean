import ShaDiff.Equation
import Std.Data.TreeMap

/-!
# A forest of signed links

Signed sets which answer one call after another hold for each atom no more than a link:
the parent of the atom and its sign relative to it. Atoms without a link are the
representatives. A search follows the links up to the representative, and then links all
atoms on the way to it directly, so that later searches are short. Links never lead in a
circle, which the forest carries as a proof, as otherwise no search would end.
-/

namespace ShaDiff.TwoBit

abbrev Links := Std.TreeMap Atom (Atom × Bool)

def Links.IsParent (links : Links) (parent child : Atom) : Prop :=
  ∃ sign, links[child]? = some (parent, sign)

structure Forest where
  links : Links
  acyclic : WellFounded links.IsParent

namespace Forest

def IsRoot (f : Forest) (a : Atom) : Prop := f.links[a]? = none

def empty : Forest where
  links := ∅
  acyclic := ⟨fun _ => .intro _ fun _ ⟨_, h⟩ => by simp at h⟩

theorem isRoot_empty (a : Atom) : empty.IsRoot a := by
  simp [IsRoot, empty]

theorem acyclic_insert (f : Forest) {a root : Atom} (hroot : f.IsRoot root) (hne : a ≠ root)
    (sign : Bool) : WellFounded (Links.IsParent (f.links.insert a (root, sign))) := by
  have hget (b : Atom) (hb : b ≠ a) : (f.links.insert a (root, sign))[b]? = f.links[b]? := by
    simp [Std.TreeMap.getElem?_insert, hb.symm]
  have hself : (f.links.insert a (root, sign))[a]? = some (root, sign) := by simp
  have htop : Acc (Links.IsParent (f.links.insert a (root, sign))) root := by
    refine .intro _ fun parent ⟨s, h⟩ => ?_
    rw [hget root hne.symm, hroot] at h
    cases h
  refine ⟨fun b => f.acyclic.induction b fun b ih => .intro _ fun parent ⟨s, h⟩ => ?_⟩
  by_cases hb : b = a
  · subst hb
    rw [hself] at h
    cases h
    exact htop
  · exact ih parent ⟨s, (hget b hb).symm.trans h⟩

def link (f : Forest) (a root : Atom) (sign : Bool) (hroot : f.IsRoot root) (hne : a ≠ root) :
    Forest where
  links := f.links.insert a (root, sign)
  acyclic := f.acyclic_insert hroot hne sign

section
variable {f : Forest} {a root : Atom} {sign : Bool} {hroot : f.IsRoot root} {hne : a ≠ root}

theorem getElem?_link (b : Atom) :
    (f.link a root sign hroot hne).links[b]? =
      if a = b then some (root, sign) else f.links[b]? := by
  simp [link, Std.TreeMap.getElem?_insert]

theorem isRoot_link {b : Atom} : (f.link a root sign hroot hne).IsRoot b ↔ a ≠ b ∧ f.IsRoot b := by
  rw [IsRoot, getElem?_link]
  split <;> simp_all [IsRoot]

end

/-- What a search answers: the representative of an atom, the sign of the atom relative to it,
and the forest with shortened links, whose roots are the same. -/
structure Found (f : Forest) where
  root : Atom
  sign : Bool
  forest : Forest
  isRoot : forest.IsRoot root
  same : ∀ b, forest.IsRoot b ↔ f.IsRoot b

theorem Found.ne_root {f : Forest} (found : f.Found) {a : Atom} {link : Atom × Bool}
    (h : f.links[a]? = some link) : a ≠ found.root := by
  rintro rfl
  simpa [IsRoot, h] using (found.same _).mp found.isRoot

/-- Searches for the representative of an atom, and links the atoms on the way to it. -/
def find (f : Forest) (a : Atom) : f.Found :=
  match h : f.links[a]? with
  | none => ⟨a, false, f, h, fun _ => Iff.rfl⟩
  | some (parent, sign) =>
    let above := f.find parent
    have hne := above.ne_root h
    { root := above.root
      sign := above.sign ^^ sign
      forest := above.forest.link a above.root (above.sign ^^ sign) above.isRoot hne
      isRoot := isRoot_link.mpr ⟨hne, above.isRoot⟩
      same := by
        intro b
        rw [isRoot_link, above.same, and_iff_right_iff_imp]
        rintro hb rfl
        simp [IsRoot, h] at hb }
termination_by f.acyclic.wrap a
decreasing_by exact ⟨sign, h⟩

def relation (f : Forest) (a b : Atom) : Option Bool × Forest :=
  let here := f.find a
  let there := here.forest.find b
  (if here.root = there.root then some (here.sign ^^ there.sign) else none, there.forest)

/-- Relates two atoms by the sum of their differences. Answers whether that agrees with the
relations there are. If it says something new, the representative of the first atom is put
under the one of the second. -/
def relate (f : Forest) (a b : Atom) (value : Bool) : Bool × Forest :=
  let here := f.find a
  let there := here.forest.find b
  if h : here.root = there.root then ((here.sign ^^ there.sign) == value, there.forest)
  else (true, there.forest.link here.root there.root (here.sign ^^ there.sign ^^ value)
    there.isRoot h)

/-- Adds equations in turn to a forest, less those that contradict it. Answers all of these, or
just the first one. -/
def conflicts (exhaustive : Bool) (f : Forest) : List Equation → List Equation
  | [] => []
  | e :: es =>
    match f.relate e.a e.b e.value with
    | (true, f) => f.conflicts exhaustive es
    | (false, f) => e :: if exhaustive then f.conflicts exhaustive es else []

end Forest

inductive Call
  | relate (a b : Atom) (value : Bool)
  | relation (a b : Atom)
  | find (a : Atom)
deriving DecidableEq

inductive Reply
  | agrees (agrees : Bool)
  | sum (value? : Option Bool)
  | place (root : Atom) (sign : Bool)
deriving DecidableEq

def Forest.reply (f : Forest) : Call → Reply × Forest
  | .relate a b value => let (agrees, f) := f.relate a b value; (.agrees agrees, f)
  | .relation a b => let (value?, f) := f.relation a b; (.sum value?, f)
  | .find a => let found := f.find a; (.place found.root found.sign, found.forest)

def Forest.replies (f : Forest) : List Call → List Reply
  | [] => []
  | c :: cs => let (r, f) := f.reply c; r :: f.replies cs

def Forest.after (f : Forest) (cs : List Call) : Forest := cs.foldl (fun f c => (f.reply c).2) f

end ShaDiff.TwoBit
