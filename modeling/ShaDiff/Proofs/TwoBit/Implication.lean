import ShaDiff.Proofs.TwoBit.SignedSets
import ShaDiff.TwoBit.Forest

/-!
# Signed sets decide implication

The place of an atom in a forest is its representative and its sign. Places are all that the
links say (`place_eq`), so a link from an atom to where it has its place already changes none:
a search may shorten links as it likes (`place_find`). A forest therefore answers as the
signed sets do which store places (`Shows.reply`), and after any calls these have exactly the
relations that were accepted so far (`agrees_after`). Of two atoms in distinct sets one set can
be turned over, so nothing about them is implied (`implies_iff`).
-/

namespace ShaDiff.TwoBit

/-- Whether every solution of the equations gives the differences of two atoms this sum. -/
def Implies (es : List Equation) (a b : Atom) (value : Bool) : Prop :=
  ∀ v, Solves v es → (v a ^^ v b) = value

namespace Forest

variable {f : Forest} {a b : Atom} {sign : Bool}

-- ---------------------------------------------------------------------------
-- Places
-- ---------------------------------------------------------------------------

def place (f : Forest) (a : Atom) : Atom × Bool := ((f.find a).root, (f.find a).sign)

theorem find_of_root (h : f.IsRoot a) : f.find a = ⟨a, false, f, h, fun _ => Iff.rfl⟩ := by
  rw [find]
  split
  · rfl
  · next h' => cases h.symm.trans h'

theorem place_of_root (h : f.IsRoot a) : f.place a = (a, false) := by
  simp [place, find_of_root h]

/-- A search from a linked atom goes on from its parent and then shortens the link. -/
theorem find_of_link {parent : Atom} (h : f.links[a]? = some (parent, sign)) :
    f.place a = ((f.place parent).1, (f.place parent).2 ^^ sign) ∧
      (f.find a).forest = (f.find parent).forest.link a (f.find parent).root
        ((f.find parent).sign ^^ sign) (f.find parent).isRoot ((f.find parent).ne_root h) := by
  unfold place
  rw [find]
  split
  · next h' => cases h.symm.trans h'
  · next h' =>
    cases h.symm.trans h'
    exact ⟨rfl, rfl⟩

theorem place_eq (f : Forest) {p : Atom → Atom × Bool} (hroot : ∀ a, f.IsRoot a → p a = (a, false))
    (hlink : ∀ a parent sign, f.links[a]? = some (parent, sign) →
      p a = ((p parent).1, (p parent).2 ^^ sign)) : f.place = p := by
  funext a
  induction a using f.acyclic.induction with
  | _ a ih =>
    cases h : f.links[a]? with
    | none => rw [place_of_root h, hroot a h]
    | some link =>
      obtain ⟨parent, sign⟩ := link
      rw [(find_of_link h).1, hlink a parent sign h, ih parent ⟨sign, h⟩]

theorem isRoot_place (f : Forest) (a : Atom) : f.IsRoot (f.place a).1 :=
  ((f.find a).same _).mp (f.find a).isRoot

/-- A link moves what has its place at the linked atom. -/
theorem place_link {root : Atom} {hroot : f.IsRoot root} {hne : a ≠ root} (ha : f.IsRoot a)
    (b : Atom) : (f.link a root sign hroot hne).place b =
      if (f.place b).1 = a then (root, (f.place b).2 ^^ sign) else f.place b := by
  refine congrFun (place_eq _ (p := fun b =>
    if (f.place b).1 = a then (root, (f.place b).2 ^^ sign) else f.place b) ?_ ?_) b
  · intro c hc
    obtain ⟨hca, hc⟩ := isRoot_link.mp hc
    simp [place_of_root hc, hca.symm]
  · intro c parent s hc
    rw [getElem?_link] at hc
    split at hc
    · next hac =>
      subst hac
      obtain ⟨rfl, rfl⟩ := Prod.mk.inj (Option.some.inj hc)
      simp [place_of_root ha, place_of_root hroot, hne.symm]
    · simp only [(find_of_link hc).1]
      split <;> simp [Bool.xor_left_comm, Bool.xor_comm]

theorem place_find (f : Forest) (a : Atom) : (f.find a).forest.place = f.place := by
  induction a using f.acyclic.induction with
  | _ a ih =>
    cases h : f.links[a]? with
    | none => simp [find_of_root h]
    | some link =>
      obtain ⟨parent, sign⟩ := link
      have ih := ih parent ⟨sign, h⟩
      rw [(find_of_link h).2]
      refine place_eq _ ?_ ?_
      · intro b hb
        rw [← ih]
        exact place_of_root (isRoot_link.mp hb).2
      · intro b parent' s hb
        rw [getElem?_link] at hb
        split at hb
        · next hab =>
          subst hab
          obtain ⟨rfl, rfl⟩ := Prod.mk.inj (Option.some.inj hb)
          have htop : f.place (f.find parent).root = ((f.find parent).root, false) :=
            place_of_root (f.isRoot_place parent)
          rw [(find_of_link h).1, htop]
          simp [place]
        · rw [← ih]
          exact (find_of_link hb).1

end Forest

-- ---------------------------------------------------------------------------
-- Answers
-- ---------------------------------------------------------------------------

def SignedSets.reply (s : SignedSets) : Call → Reply × SignedSets
  | .relate a b value => let (agrees, s) := s.relate a b value; (.agrees agrees, s)
  | .relation a b => (.sum (s.relation a b), s)
  | .find a => (.place (s.find a).1 (s.find a).2, s)

def SignedSets.replies (s : SignedSets) : List Call → List Reply
  | [] => []
  | c :: cs => (s.reply c).1 :: replies (s.reply c).2 cs

def SignedSets.after (s : SignedSets) (cs : List Call) : SignedSets :=
  cs.foldl (fun s c => (s.reply c).2) s

namespace Forest

variable {f : Forest} {s : SignedSets}

/-- Whether the links of a forest say of each atom what signed sets store. -/
def Shows (f : Forest) (s : SignedSets) : Prop := ∀ a, f.place a = s.find a

theorem shows_empty : empty.Shows .empty := by
  intro a
  simp [place_of_root (isRoot_empty a), SignedSets.find_empty]

theorem Shows.find (h : f.Shows s) (a : Atom) : (f.find a).forest.Shows s := by
  intro b
  rw [place_find, h b]

theorem Shows.root (h : f.Shows s) (a : Atom) : (f.find a).root = (s.find a).1 :=
  congrArg Prod.fst (h a)

theorem Shows.sign (h : f.Shows s) (a : Atom) : (f.find a).sign = (s.find a).2 :=
  congrArg Prod.snd (h a)

theorem Shows.relation (h : f.Shows s) (a b : Atom) :
    (f.relation a b).1 = s.relation a b ∧ (f.relation a b).2.Shows s := by
  refine ⟨?_, (h.find a).find b⟩
  simp [Forest.relation, SignedSets.relation, h.root, h.sign, (h.find a).root, (h.find a).sign]

theorem Shows.link {root under : Atom} {sign : Bool} (h : f.Shows s) (hroot : f.IsRoot root)
    (hunder : f.IsRoot under) (hne : root ≠ under) :
    (f.link root under sign hunder hne).Shows (s.merge root under sign) := by
  intro a
  have hself : s.find root = (root, false) := by
    rw [← h root, place_of_root hroot]
  rw [place_link hroot, SignedSets.find_merge hself, h a]

theorem Shows.relate (h : f.Shows s) (a b : Atom) (value : Bool) :
    (f.relate a b value).1 = (s.relate a b value).1 ∧
      (f.relate a b value).2.Shows (s.relate a b value).2 := by
  have hthere := (h.find a).find b
  have hstored : s.relate a b value =
      if (f.find a).root = ((f.find a).forest.find b).root then
        (((f.find a).sign ^^ ((f.find a).forest.find b).sign) == value, s)
      else (true, s.merge (f.find a).root ((f.find a).forest.find b).root
        ((f.find a).sign ^^ ((f.find a).forest.find b).sign ^^ value)) := by
    simp [SignedSets.relate, h.root, h.sign, (h.find a).root, (h.find a).sign]
  rw [hstored, Forest.relate]
  split
  · exact ⟨rfl, hthere⟩
  · next hne =>
    have hroot := (((f.find a).forest.find b).same _).mpr (f.find a).isRoot
    exact ⟨rfl, hthere.link hroot ((f.find a).forest.find b).isRoot hne⟩

/-- A forest finds the contradictions that the signed sets it shows find. -/
theorem Shows.conflicts (h : f.Shows s) (es : List Equation) :
    f.conflicts true es = s.contradictions es ∧
      f.conflicts false es = (s.firstContradiction? es).toList := by
  induction es generalizing f s with
  | nil => exact ⟨rfl, rfl⟩
  | cons e es ih =>
    obtain ⟨hanswer, hshows⟩ := h.relate e.a e.b e.value
    unfold Forest.conflicts SignedSets.contradictions SignedSets.firstContradiction?
    generalize f.relate e.a e.b e.value = found, s.relate e.a e.b e.value = stored
      at hanswer hshows
    obtain ⟨agrees, f⟩ := found
    obtain ⟨agrees', s⟩ := stored
    obtain rfl : agrees = agrees' := hanswer
    cases agrees with
    | true => exact ih hshows
    | false => exact ⟨congrArg (e :: ·) (ih hshows).1, rfl⟩

theorem conflicts_empty (es : List Equation) :
    empty.conflicts true es = SignedSets.empty.contradictions es ∧
      empty.conflicts false es = (SignedSets.empty.firstContradiction? es).toList :=
  shows_empty.conflicts es

theorem Shows.reply (h : f.Shows s) (c : Call) :
    (f.reply c).1 = (s.reply c).1 ∧ (f.reply c).2.Shows (s.reply c).2 := by
  cases c with
  | relate a b value =>
    obtain ⟨hanswer, hshows⟩ := h.relate a b value
    exact ⟨congrArg Reply.agrees hanswer, hshows⟩
  | relation a b =>
    obtain ⟨hanswer, hshows⟩ := h.relation a b
    exact ⟨congrArg Reply.sum hanswer, hshows⟩
  | find a => exact ⟨congr (congrArg Reply.place (h.root a)) (h.sign a), h.find a⟩

theorem Shows.replies (h : f.Shows s) (cs : List Call) : f.replies cs = s.replies cs := by
  induction cs generalizing f s with
  | nil => rfl
  | cons c cs ih =>
    obtain ⟨hanswer, hshows⟩ := h.reply c
    simp [Forest.replies, SignedSets.replies, hanswer, ih hshows]

theorem Shows.after (h : f.Shows s) (cs : List Call) : (f.after cs).Shows (s.after cs) := by
  induction cs generalizing f s with
  | nil => exact h
  | cons c cs ih => exact ih (h.reply c).2

end Forest

-- ---------------------------------------------------------------------------
-- Relations
-- ---------------------------------------------------------------------------

def Call.accepted? : Call × Reply → Option Equation
  | (.relate a b value, .agrees true) => some ⟨a, b, value, []⟩
  | _ => none

def accepted (cs : List Call) (rs : List Reply) : List Equation :=
  (cs.zip rs).filterMap Call.accepted?

theorem accepted_cons (c : Call) (cs : List Call) (r : Reply) (rs : List Reply) :
    accepted (c :: cs) (r :: rs) = (Call.accepted? (c, r)).toList ++ accepted cs rs := by
  cases h : Call.accepted? (c, r) <;> simp [accepted, h]

namespace SignedSets

variable {s : SignedSets} {es : List Equation} {a b : Atom} {value : Bool}

/-- One call keeps of the valuations those that have the equation it adds, if it adds one. -/
theorem reply_spec (h : s.Rooted) (c : Call) :
    (s.reply c).2.Rooted ∧ ∀ v, (s.reply c).2.Agrees v ↔
      s.Agrees v ∧ ∀ e, Call.accepted? (c, (s.reply c).1) = some e → e.Holds v := by
  cases c with
  | relate a b value =>
    cases hr : s.relate a b value with
    | mk agrees t =>
      cases agrees with
      | true =>
        obtain ⟨ht, hagrees⟩ := relate_true h hr
        simpa [SignedSets.reply, hr, Call.accepted?, Equation.Holds] using ⟨ht, hagrees⟩
      | false =>
        obtain ⟨rfl, -⟩ := relate_false hr
        simpa [SignedSets.reply, hr, Call.accepted?] using h
  | relation a b => simpa [SignedSets.reply, Call.accepted?] using h
  | find a => simpa [SignedSets.reply, Call.accepted?] using h

theorem agrees_after (h : s.Rooted) (cs : List Call) :
    (s.after cs).Rooted ∧
      ∀ v, (s.after cs).Agrees v ↔ s.Agrees v ∧ Solves v (accepted cs (s.replies cs)) := by
  induction cs generalizing s with
  | nil => simpa [SignedSets.after, accepted, Solves] using h
  | cons c cs ih =>
    obtain ⟨hrooted, hagrees⟩ := reply_spec h c
    obtain ⟨hafter, hlater⟩ := ih hrooted
    refine ⟨hafter, ?_⟩
    intro v
    have hsolves : Solves v (accepted (c :: cs) (s.replies (c :: cs))) ↔
        (∀ e, Call.accepted? (c, (s.reply c).1) = some e → e.Holds v) ∧
          Solves v (accepted cs ((s.reply c).2.replies cs)) := by
      simp [SignedSets.replies, accepted_cons, Solves, or_imp, forall_and]
    rw [hsolves, ← and_assoc, ← hagrees v]
    exact hlater v

def add (s : SignedSets) (es : List Equation) : SignedSets :=
  es.foldl (fun s e => (s.relate e.a e.b e.value).2) s

theorem add_append (s : SignedSets) (es fs : List Equation) :
    s.add (es ++ fs) = (s.add es).add fs := by
  simp [add]

theorem reply_eq (s : SignedSets) (c : Call) :
    (s.reply c).2 = s.add (Call.accepted? (c, (s.reply c).1)).toList := by
  cases c with
  | relate a b value =>
    cases hr : s.relate a b value with
    | mk agrees t =>
      cases agrees with
      | true => simp [SignedSets.reply, Call.accepted?, add, hr]
      | false => simp [SignedSets.reply, Call.accepted?, add, hr, (relate_false hr).1]
  | relation a b => rfl
  | find a => rfl

theorem after_eq (s : SignedSets) (cs : List Call) :
    s.after cs = s.add (accepted cs (s.replies cs)) := by
  induction cs generalizing s with
  | nil => rfl
  | cons c cs ih =>
    have hstep : s.after (c :: cs) = (s.reply c).2.after cs := rfl
    rw [hstep, ih, SignedSets.replies, accepted_cons, add_append, ← s.reply_eq c]

/-- Of two atoms in distinct sets one set can be turned over, so nothing about them is
implied. -/
theorem implies_iff (h : s.Rooted) (hagrees : ∀ v, s.Agrees v ↔ Solves v es) :
    Implies es a b value ↔ s.relation a b = some value := by
  constructor
  · intro himplies
    have hsigns : ((s.find a).2 ^^ (s.find b).2) = value :=
      himplies _ ((hagrees _).mp (agrees_sign h))
    by_cases he : (s.find a).1 = (s.find b).1
    · simp [relation, he, hsigns]
    · have hturned : s.Agrees fun c => (s.find c).2 ^^ decide ((s.find c).1 = (s.find a).1) := by
        intro c
        simp [h c, Bool.xor_comm]
      have := himplies _ ((hagrees _).mp hturned)
      simp [Ne.symm he, ← hsigns] at this
  · intro hrelation v hv
    by_cases he : (s.find a).1 = (s.find b).1
    · have hsigns : ((s.find a).2 ^^ (s.find b).2) = value := by
        simpa [relation, he] using hrelation
      exact (((hagrees v).mpr hv).sum_eq he).trans hsigns
    · simp [relation, he] at hrelation

theorem relate_eq_false_iff : (s.relate a b value).1 = false ↔ s.relation a b = some !value := by
  by_cases he : (s.find a).1 = (s.find b).1
  · cases value <;> simp [relate, relation, he]
  · simp [relate, relation, he]

end SignedSets

/-- After any calls to an empty forest, with the equations accepted so far: links never lead in a
circle, so every search ends; an equation is refused exactly where its contrary is implied; a sum
is known exactly where it is implied; atoms have one representative exactly where a sum is
implied, and then their signs add up to it; searches have no influence on later answers; and no
more has any call that had no equation accepted. -/
theorem Forest.decides_implication (calls : List Call) :
    let f := Forest.empty.after calls
    let es := accepted calls (Forest.empty.replies calls)
    WellFounded f.links.IsParent ∧
      (∀ a b value, (f.relate a b value).1 = false ↔ Implies es a b !value) ∧
      (∀ a b value, (f.relation a b).1 = some value ↔ Implies es a b value) ∧
      (∀ a b, (f.relation a b).1 = none ↔ ∀ value, ¬ Implies es a b value) ∧
      (∀ a b, let here := f.find a
        let there := here.forest.find b
        (here.root = there.root ↔ ∃ value, Implies es a b value) ∧
          (here.root = there.root → Implies es a b (here.sign ^^ there.sign))) ∧
      (∀ a later, (f.find a).forest.replies later = f.replies later) ∧
      (∀ a b later, (f.relation a b).2.replies later = f.replies later) ∧
      ∀ others, accepted others (Forest.empty.replies others) = es →
        ∀ later, (Forest.empty.after others).replies later = f.replies later := by
  intro f es
  have hshows : f.Shows (SignedSets.empty.after calls) := shows_empty.after calls
  have himplies (a b : Atom) (value : Bool) :
      Implies es a b value ↔ (SignedSets.empty.after calls).relation a b = some value := by
    obtain ⟨hrooted, hagrees⟩ := SignedSets.agrees_after SignedSets.rooted_empty calls
    apply SignedSets.implies_iff hrooted
    intro v
    simp [hagrees v, SignedSets.agrees_empty, es, shows_empty.replies]
  refine ⟨f.acyclic, ?_, ?_, ?_, ?_, ?_, ?_, ?_⟩
  · intro a b value
    rw [himplies, (hshows.relate a b value).1, SignedSets.relate_eq_false_iff]
  · intro a b value
    rw [himplies, (hshows.relation a b).1]
  · intro a b
    simp only [himplies, (hshows.relation a b).1]
    exact Option.eq_none_iff_forall_ne_some
  · intro a b here there
    have hhere : (here.root, here.sign) = _ := hshows a
    have hthere : (there.root, there.sign) = _ := hshows.find a b
    simp only [himplies, SignedSets.relation, ← hhere, ← hthere]
    split <;> simp_all
  · intro a later
    rw [(hshows.find a).replies, hshows.replies]
  · intro a b later
    rw [(hshows.relation a b).2.replies, hshows.replies]
  · intro others hothers later
    rw [(shows_empty.after others).replies, hshows.replies, SignedSets.after_eq,
      SignedSets.after_eq _ calls, ← shows_empty.replies, ← shows_empty.replies, hothers]

/-- Two pairs that share an atom, and a pair apart which is then tied to them. -/
def tiedPairs : List Call :=
  [.relate 1 2 true, .relate 3 2 true, .relate 4 5 false, .relate 5 3 true]

theorem Forest.decides_implication_tiedPairs :
    let f := Forest.empty.after tiedPairs
    let es := [⟨1, 2, true, []⟩, ⟨3, 2, true, []⟩, ⟨4, 5, false, []⟩, ⟨5, 3, true, []⟩]
    accepted tiedPairs (Forest.empty.replies tiedPairs) = es ∧
      (f.relate 4 2 true).1 = false ∧ Implies es 4 2 false ∧
      (f.find 4).root = ((f.find 4).forest.find 1).root ∧
      Implies es 4 1 ((f.find 4).sign ^^ ((f.find 4).forest.find 1).sign) ∧
      ∀ later, (Forest.empty.after (tiedPairs ++ [.relate 4 2 true, .find 4])).replies later =
        f.replies later := by
  intro f es
  have haccepted : accepted tiedPairs (Forest.empty.replies tiedPairs) = es := by
    rw [shows_empty.replies]
    decide +kernel
  have hothers : accepted (tiedPairs ++ [.relate 4 2 true, .find 4])
      (Forest.empty.replies (tiedPairs ++ [.relate 4 2 true, .find 4])) = es := by
    rw [shows_empty.replies]
    decide +kernel
  have hrefused : (f.relate 4 2 true).1 = false := by
    rw [((shows_empty.after tiedPairs).relate 4 2 true).1]
    decide +kernel
  have hknown : (f.relation 4 1).1 = some true := by
    rw [((shows_empty.after tiedPairs).relation 4 1).1]
    decide +kernel
  obtain ⟨-, hrelate, hrelation, -, hfind, -, -, hsame⟩ :=
    Forest.decides_implication tiedPairs
  rw [haccepted] at hrelate hrelation hfind hsame
  obtain ⟨hroots, hsigns⟩ := hfind 4 1
  have hroot := hroots.mpr ⟨true, (hrelation 4 1 true).mp hknown⟩
  exact ⟨haccepted, hrefused, (hrelate 4 2 true).mp hrefused, hroot, hsigns hroot,
    hsame _ hothers⟩

end ShaDiff.TwoBit
