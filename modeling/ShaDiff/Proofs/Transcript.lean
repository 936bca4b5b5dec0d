import ShaDiff.Proofs.Request

/-!
# Transcripts

A transcript is what a sequence of requests is answered. An entry that is rejected and a
rule database that cannot be read are answers among others here; only a breach ends the
transcript. Two propagators are compared by what they answer, request by request, and by
what they come to (`Concur`).
-/

namespace ShaDiff

inductive Reply
  | entered (result : Except Fault Unit)
  | read (result : Except Fault Nat)
  | answered (a : Answer)
deriving DecidableEq

def Reply.isRead : Reply → Bool
  | .read _ => true
  | _ => false

/-- Two computations that break off alike or come to related results. -/
inductive Concur {ε α β : Type} (R : α → β → Prop) : Except ε α → Except ε β → Prop
  | ok {a : α} {b : β} : R a b → Concur R (.ok a) (.ok b)
  | error (e : ε) : Concur R (.error e) (.error e)

section

variable {ε α β γ δ : Type} {R : α → β → Prop} {S : γ → δ → Prop} {x : Except ε α}
  {y : Except ε β}

theorem Concur.bind (h : Concur R x y) {f : α → Except ε γ} {g : β → Except ε δ}
    (hfg : ∀ a b, R a b → Concur S (f a) (g b)) : Concur S (x >>= f) (y >>= g) := by
  cases h with
  | ok hab => exact hfg _ _ hab
  | error e => exact .error e

theorem Concur.map (h : Concur R x y) {f : α → γ} {g : β → δ}
    (hfg : ∀ a b, R a b → S (f a) (g b)) : Concur S (x.map f) (y.map g) := by
  cases h with
  | ok hab => exact .ok (hfg _ _ hab)
  | error e => exact .error e

theorem Concur.map_left (h : Concur R x y) {f : α → γ} {S : γ → β → Prop}
    (hf : ∀ a b, R a b → S (f a) b) : Concur S (x.map f) y := by
  cases h with
  | ok hab => exact .ok (hf _ _ hab)
  | error e => exact .error e

theorem Concur.mono (h : Concur R x y) {R' : α → β → Prop} (hR : ∀ a b, R a b → R' a b) :
    Concur R' x y := by
  cases h with
  | ok hab => exact .ok (hR _ _ hab)
  | error e => exact .error e

theorem Concur.and_ok (h : Concur R x y) : Concur (fun a b => x = .ok a ∧ R a b) x y := by
  cases h with
  | ok hab => exact .ok ⟨rfl, hab⟩
  | error e => exact .error e

theorem Concur.of_ok {a : α} (h : Concur R (.ok a : Except ε α) y) : ∃ b, y = .ok b ∧ R a b := by
  cases h with
  | ok hab => exact ⟨_, rfl, hab⟩

theorem exists_of_map_eq_ok {f : α → γ} {c : γ} (h : x.map f = .ok c) :
    ∃ a, x = .ok a ∧ f a = c := by
  cases x with
  | error e => cases h
  | ok a => exact ⟨a, rfl, Except.ok.inj h⟩

theorem exists_of_bind_eq_ok {f : α → Except ε γ} {c : γ} (h : x.bind f = .ok c) :
    ∃ a, x = .ok a ∧ f a = .ok c := by
  cases x with
  | error e => cases h
  | ok a => exact ⟨a, rfl, h⟩

end

namespace Propagator

variable {ρ : Type} [Coin ρ] {p q : Propagator ρ}

def reply (p : Propagator ρ) : Request → Except Breach (Reply × Propagator ρ)
  | .entry name value => (p.configure name value).map fun (result, p) => (.entered result, p)
  | .rules lines => let (result, p) := p.readRules lines; .ok (.read result, p)
  | .call c => (p.answer c).map fun (a, p) => (.answered a, p)

/-- Replies to requests in turn. A breach ends the transcript. -/
def replyAll (p : Propagator ρ) : List Request → Except Breach (List Reply × Propagator ρ)
  | [] => .ok ([], p)
  | r :: rs => do
    let (a, p) ← p.reply r
    let (rest, p) ← p.replyAll rs
    return (a :: rest, p)

theorem isRead_reply {r : Request} {a : Reply} (h : p.reply r = .ok (a, q)) :
    a.isRead = r.isRules := by
  cases r with
  | rules lines => exact (Prod.mk.inj (Except.ok.inj h)).1 ▸ rfl
  | _ =>
    obtain ⟨x, -, hx⟩ := exists_of_map_eq_ok h
    exact (Prod.mk.inj hx).1 ▸ rfl

theorem replyAll_cons_of_ok {r : Request} {a : Reply} (h : p.reply r = .ok (a, q))
    (rs : List Request) : p.replyAll (r :: rs) = (q.replyAll rs).map fun (as, q) => (a :: as, q) := by
  rw [replyAll, h]
  simp only [bind, Except.bind]
  cases q.replyAll rs <;> rfl

theorem replyAll_induction {P : Propagator ρ → Prop}
    (hstep : ∀ {p q r a}, P p → p.reply r = .ok (a, q) → P q) (hp : P p) {rs : List Request}
    {as : List Reply} (h : p.replyAll rs = .ok (as, q)) : P q := by
  induction rs generalizing p as with
  | nil =>
    obtain ⟨-, rfl⟩ := Prod.mk.inj (Except.ok.inj h)
    exact hp
  | cons r rs ih =>
    obtain ⟨⟨a, s⟩, hr, h⟩ := exists_of_bind_eq_ok h
    obtain ⟨⟨later, s'⟩, hs, h⟩ := exists_of_bind_eq_ok h
    obtain ⟨-, rfl⟩ := Prod.mk.inj (Except.ok.inj h)
    exact ih (hstep hp hr) hs

theorem replyAll_append (p : Propagator ρ) (rs ss : List Request) :
    p.replyAll (rs ++ ss) = (do
      let (as, q) ← p.replyAll rs
      let (bs, q) ← q.replyAll ss
      return (as ++ bs, q)) := by
  induction rs generalizing p with
  | nil =>
    simp only [List.nil_append, replyAll, bind, Except.bind]
    cases p.replyAll ss <;> rfl
  | cons r rs ih =>
    simp only [List.cons_append, replyAll]
    cases p.reply r with
    | error b => rfl
    | ok x =>
      simp only [bind, Except.bind, ih x.2]
      cases x.2.replyAll rs with
      | error b => rfl
      | ok y =>
        simp only [pure, Except.pure]
        cases y.2.replyAll ss <;> rfl

theorem replyAll_append_of_ok {rs : List Request} {as : List Reply}
    (h : p.replyAll rs = .ok (as, q)) (ss : List Request) :
    p.replyAll (rs ++ ss) = (q.replyAll ss).map fun (bs, r) => (as ++ bs, r) := by
  rw [replyAll_append, h]
  simp only [bind, Except.bind]
  cases q.replyAll ss <;> rfl

end Propagator

end ShaDiff
