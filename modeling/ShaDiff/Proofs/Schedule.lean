import ShaDiff.Proofs.StepFunction

/-!
# Rounds determine their words

Each word of a round is a function of earlier words and of words of the same round
that come before it, its inputs apart. So rounds can be run on any choice of inputs
(`round_run`), and words on which all rounds hold are determined by their inputs
(`eq_of_rounds`).
-/

namespace ShaDiff

-- ---------------------------------------------------------------------------
-- Words of a round
-- ---------------------------------------------------------------------------

/-- The first round that has a word of the role. -/
def Role.since : Role → Int
  | a | e => -4
  | smallSigma0 | smallSigma1 | wCarry | wCarry2 => 16
  | _ => 0

theorem Role.applicable_iff {r : Role} {k : Int} {order : Nat} (h : order ≤ orderMax) :
    r.applicable k order = true ↔ r ≠ .zero ∧ r.since ≤ k ∧ k < order := by
  have hsince : r.applicable k order =
      (decide (k < endRound order) && (r != .zero && decide (r.since ≤ k))) := by
    cases r <;> rfl
  simp only [hsince, endRound_of_le h, Bool.and_eq_true, decide_eq_true_eq, bne_iff_ne]
  exact ⟨fun ⟨h1, h2, h3⟩ => ⟨h2, h3, h1⟩, fun ⟨h1, h2, h3⟩ => ⟨h3, h1, h2⟩⟩

theorem Role.firstRound_le_since (r : Role) : firstRound ≤ r.since := by
  cases r <;> decide

namespace StepFunction

variable {n : Nat} {word word' : Role → Int → BitVec n} {i : Int}

/-- Whether a word is given to the step function: the first registers, the message and
the constants of the rounds. -/
def isInput (r : Role) (k : Int) : Bool :=
  match r with
  | .a | .e => k < 0
  | .w => k < 16
  | .k => true
  | _ => false

-- ---------------------------------------------------------------------------
-- Running rounds
-- ---------------------------------------------------------------------------

def roundWord (word : Role → Int → BitVec n) (i : Int) (r : Role) : BitVec n :=
  let s0 := smallSigma0 (word .w (i - 15))
  let s1 := smallSigma1 (word .w (i - 2))
  let message := [s1, word .w (i - 7), s0, word .w (i - 16)]
  let w := if 16 ≤ i then s1 + word .w (i - 7) + s0 + word .w (i - 16) else word .w i
  let sigma0 := bigSigma0 (word .a (i - 1))
  let sigma1 := bigSigma1 (word .e (i - 1))
  let maj := majority (word .a (i - 1)) (word .a (i - 2)) (word .a (i - 3))
  let ch := choice (word .e (i - 1)) (word .e (i - 2)) (word .e (i - 3))
  let t := word .e (i - 4) + sigma1 + ch + word .k i + w
  match r with
  | .smallSigma0 => s0
  | .smallSigma1 => s1
  | .w => w
  | .wCarry => (carriesOf message).1
  | .wCarry2 => (carriesOf message).2
  | .bigSigma0 => sigma0
  | .bigSigma1 => sigma1
  | .maj => maj
  | .ch => ch
  | .t => t
  | .tCarry => (carriesOf [word .e (i - 4), sigma1, ch, word .k i, w]).1
  | .tCarry2 => (carriesOf [word .e (i - 4), sigma1, ch, word .k i, w]).2
  | .e => word .a (i - 4) + t
  | .eCarry => (carriesOf [word .a (i - 4), t]).1
  | .a => t + sigma0 + maj
  | .aCarry => (carriesOf [t, sigma0, maj]).1
  | .aCarry2 => (carriesOf [t, sigma0, maj]).2
  | .k | .zero => word r i

def run (word : Role → Int → BitVec n) : (rounds : Nat) → Role → Int → BitVec n
  | 0 => word
  | rounds + 1 => fun r k =>
    if k = rounds then roundWord (run word rounds) rounds r else run word rounds r k

theorem run_of_isInput {rounds : Nat} {r : Role} {k : Int} (h : isInput r k = true) :
    run word rounds r k = word r k := by
  induction rounds with
  | zero => rfl
  | succ rounds ih =>
    show (if k = rounds then _ else _) = _
    split
    · rename_i hk
      subst hk
      cases r <;> simp [isInput] at h
      · omega
      · omega
      · rw [← ih, roundWord, if_neg (by omega)]
      · exact ih
    · exact ih

theorem round_roundWord (heq : ∀ r k, k < i → word' r k = word r k)
    (hi : ∀ r, word' r i = roundWord word i r) : Round word' i := by
  have hb (r : Role) (m : Int) (hm : 0 < m) : word' r (i - m) = word r (i - m) :=
    heq r _ (by omega)
  have h1 r := hb r 1 (by decide)
  have h2 r := hb r 2 (by decide)
  have h3 r := hb r 3 (by decide)
  have h4 r := hb r 4 (by decide)
  have h7 r := hb r 7 (by decide)
  have h15 r := hb r 15 (by decide)
  have h16 r := hb r 16 (by decide)
  have hk : word' .k i = word .k i := hi .k
  constructor
  case extension =>
    intro hmin
    constructor
    case smallSigma0 => rw [hi, h15]; rfl
    case smallSigma1 => rw [hi, h2]; rfl
    case w =>
      rw [hi, hi, hi, h7, h16]
      exact if_pos hmin
    case wCarries =>
      rw [hi, hi, hi, hi, h7, h16]
      exact carries_carriesOf _
  case bigSigma0 => rw [hi, h1]; rfl
  case bigSigma1 => rw [hi, h1]; rfl
  case maj => rw [hi, h1, h2, h3]; rfl
  case ch => rw [hi, h1, h2, h3]; rfl
  case t => rw [hk, hi, hi, hi, hi, h4]; rfl
  case tCarries =>
    rw [hk, hi, hi, hi, hi, hi, h4]
    exact carries_carriesOf _
  case e => rw [hi, hi, h4]; rfl
  case eCarry =>
    rw [hi, hi, h4]
    exact carry_carriesOf (by simp)
  case a => rw [hi, hi, hi, hi]; rfl
  case aCarries =>
    rw [hi, hi, hi, hi, hi]
    exact carries_carriesOf _

theorem Round.congr (h : Round word i) (hi : 0 ≤ i)
    (heq : ∀ r k, r ≠ .zero → r.since ≤ k → k ≤ i → word' r k = word r k) : Round word' i := by
  have hextension (hmin : 16 ≤ i) : Extension word' i := by
    obtain ⟨hs0, hs1, hw, hc⟩ := h.extension hmin
    constructor <;>
      simp (disch := first | decide | (simp only [Role.since]; omega) | omega) only [heq] <;>
      assumption
  obtain ⟨hs0, hs1, hmaj, hch, -, ht, htc, he, hec, ha, hac⟩ := h
  constructor
  case extension => exact hextension
  all_goals
    simp (disch := first | decide | (simp only [Role.since]; omega) | omega) only [heq]
    assumption

theorem round_run (word : Role → Int → BitVec n) (rounds : Nat) :
    ∀ i < rounds, Round (run word rounds) i := by
  induction rounds with
  | zero => exact fun i hi => absurd hi (Nat.not_lt_zero i)
  | succ rounds ih =>
    intro i hi
    rcases Nat.lt_succ_iff_lt_or_eq.mp hi with hi | rfl
    · refine (ih i hi).congr (Int.natCast_nonneg i) fun r k _ _ hk => if_neg ?_
      omega
    · exact round_roundWord (fun r k hk => if_neg (Int.ne_of_lt hk)) fun r => if_pos rfl

-- ---------------------------------------------------------------------------
-- Uniqueness
-- ---------------------------------------------------------------------------

theorem Extension.unique (h : Extension word i) (h' : Extension word' i) (hi : 16 ≤ i)
    (hw : ∀ k, 0 ≤ k → k < i → word .w k = word' .w k) :
    word .smallSigma0 i = word' .smallSigma0 i ∧ word .smallSigma1 i = word' .smallSigma1 i ∧
      word .w i = word' .w i ∧ word .wCarry i = word' .wCarry i ∧
      word .wCarry2 i = word' .wCarry2 i := by
  obtain ⟨hs0, hs1, hsum, hc⟩ := h
  obtain ⟨hs0', hs1', hsum', hc'⟩ := h'
  rw [hw (i - 15) (by omega) (by omega), ← hs0'] at hs0
  rw [hw (i - 2) (by omega) (by omega), ← hs1'] at hs1
  rw [hs0, hs1, hw (i - 7) (by omega) (by omega), hw (i - 16) (by omega) (by omega)] at hsum hc
  exact ⟨hs0, hs1, hsum.trans hsum'.symm, hc.unique hc'⟩

/-- A round determines its words by earlier registers and message words, and by the
words that are given to it. -/
theorem Round.unique (h : Round word i) (h' : Round word' i) (hi : 0 ≤ i)
    (ha : ∀ k, -4 ≤ k → k < i → word .a k = word' .a k)
    (he : ∀ k, -4 ≤ k → k < i → word .e k = word' .e k)
    (hw : ∀ k, 0 ≤ k → k < i → word .w k = word' .w k)
    (hgiven : i < 16 → word .w i = word' .w i) (hk : word .k i = word' .k i)
    {r : Role} {order : Nat} (hr : r.applicable i order = true) : word r i = word' r i := by
  have hextension (hmin : 16 ≤ i) := (h.extension hmin).unique (h'.extension hmin) hmin hw
  have hmessage : word .w i = word' .w i := by
    rcases Int.lt_or_le i 16 with hi | hi
    · exact hgiven hi
    · exact (hextension hi).2.2.1
  have hsigma0 : word .bigSigma0 i = word' .bigSigma0 i := by
    rw [h.bigSigma0, h'.bigSigma0, ha (i - 1) (by omega) (by omega)]
  have hsigma1 : word .bigSigma1 i = word' .bigSigma1 i := by
    rw [h.bigSigma1, h'.bigSigma1, he (i - 1) (by omega) (by omega)]
  have hmaj : word .maj i = word' .maj i := by
    rw [h.maj, h'.maj, ha (i - 1) (by omega) (by omega), ha (i - 2) (by omega) (by omega),
      ha (i - 3) (by omega) (by omega)]
  have hch : word .ch i = word' .ch i := by
    rw [h.ch, h'.ch, he (i - 1) (by omega) (by omega), he (i - 2) (by omega) (by omega),
      he (i - 3) (by omega) (by omega)]
  have ha4 := ha (i - 4) (by omega) (by omega)
  have he4 := he (i - 4) (by omega) (by omega)
  have ht : word .t i = word' .t i := by
    rw [h.t, h'.t, he4, hsigma1, hch, hk, hmessage]
  have htCarries := h.tCarries
  rw [he4, hsigma1, hch, hk, hmessage] at htCarries
  have htCarries := htCarries.unique h'.tCarries
  have heCarry := h.eCarry
  rw [ha4, ht] at heCarry
  have heCarry := heCarry.unique (by simp) h'.eCarry
  have haCarries := h.aCarries
  rw [ht, hsigma0, hmaj] at haCarries
  have haCarries := haCarries.unique h'.aCarries
  have hmin (hr : r.applicable i order = true)
      (hs : r = .smallSigma0 ∨ r = .smallSigma1 ∨ r = .wCarry ∨ r = .wCarry2) : 16 ≤ i := by
    rcases hs with rfl | rfl | rfl | rfl <;> simp [Role.applicable] at hr <;> exact hr.2
  cases r with
  | a => rw [h.a, h'.a, ht, hsigma0, hmaj]
  | e => rw [h.e, h'.e, ha4, ht]
  | w => exact hmessage
  | bigSigma0 => exact hsigma0
  | bigSigma1 => exact hsigma1
  | smallSigma0 => exact (hextension (hmin hr (by simp))).1
  | smallSigma1 => exact (hextension (hmin hr (by simp))).2.1
  | maj => exact hmaj
  | ch => exact hch
  | t => exact ht
  | k => exact hk
  | wCarry => exact (hextension (hmin hr (by simp))).2.2.2.1
  | wCarry2 => exact (hextension (hmin hr (by simp))).2.2.2.2
  | tCarry => exact htCarries.1
  | tCarry2 => exact htCarries.2
  | eCarry => exact heCarry
  | aCarry => exact haCarries.1
  | aCarry2 => exact haCarries.2
  | zero => simp [Role.applicable] at hr

/-- Words on which all rounds hold are determined by those that are given. -/
theorem eq_of_rounds {order : Nat} (horder : order ≤ orderMax) (h : ∀ i < order, Round word i)
    (h' : ∀ i < order, Round word' i)
    (hinput : ∀ r k, r.applicable k order = true → isInput r k = true → word r k = word' r k)
    {r : Role} {k : Int} (hr : r.applicable k order = true) : word r k = word' r k := by
  have key (m : Nat) : ∀ k : Int, k + 4 < m → ∀ r, r.applicable k order = true →
      word r k = word' r k := by
    induction m with
    | zero =>
      intro k hk r hr
      have hle := Int.le_trans r.firstRound_le_since ((Role.applicable_iff horder).mp hr).2.1
      simp only [firstRound] at hle
      omega
    | succ m ih =>
      intro k hk r hr
      obtain ⟨hzero, hsince, hlt⟩ := (Role.applicable_iff horder).mp hr
      rcases Int.lt_or_le k 0 with hneg | hpos
      · refine hinput r k hr ?_
        cases r <;> simp [Role.since, isInput] at hsince hzero ⊢ <;> omega
      · obtain ⟨i, rfl⟩ := Int.eq_ofNat_of_zero_le hpos
        have hi : i < order := Int.ofNat_lt.mp hlt
        have happ {r : Role} {j : Int} (hr : r ≠ .zero) (hj : r.since ≤ j) (hji : j ≤ i) :
            r.applicable j order = true :=
          (Role.applicable_iff horder).mpr ⟨hr, hj, Int.lt_of_le_of_lt hji hlt⟩
        refine (h i hi).unique (h' i hi) hpos ?_ ?_ ?_ ?_ ?_ hr
        · exact fun j hj hji => ih j (by omega) .a (happ (by decide) hj (Int.le_of_lt hji))
        · exact fun j hj hji => ih j (by omega) .e (happ (by decide) hj (Int.le_of_lt hji))
        · exact fun j hj hji => ih j (by omega) .w (happ (by decide) hj (Int.le_of_lt hji))
        · exact fun hlow => hinput .w i (happ (by decide) hpos (Int.le_refl _)) (decide_eq_true hlow)
        · exact hinput .k i (happ (by decide) hpos (Int.le_refl _)) rfl
  have hle := Int.le_trans r.firstRound_le_since ((Role.applicable_iff horder).mp hr).2.1
  simp only [firstRound] at hle
  exact key (k + 5).toNat k (by omega) r hr

end StepFunction

end ShaDiff
