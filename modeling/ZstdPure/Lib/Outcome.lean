import Mathlib

/-!
# Outcomes of fallible code

A call either returns a value, returns an error of type `ε`, or stops at a fault: an operation the
language checks at run time (an index, an overflow, a shift amount, an assertion) or a loop that
does not terminate. `Safe` is the partial-correctness triple for such a call and `Returns` the
total one.
-/

namespace Outcome

/-- The run-time checks a call can fail. -/
inductive Fault where
  /-- An index or a slice bound outside its sequence. -/
  | index
  /-- An arithmetic operation whose result does not fit its type. -/
  | overflow
  /-- A shift by the operand's width or more. -/
  | shift
  /-- A failing assertion, or an `unwrap`/`expect` of an absent value. -/
  | assertion
  /-- A loop that does not terminate. -/
  | diverge
deriving DecidableEq, Repr

/-- Why a call did not return a value. -/
inductive Halt (ε : Type) where
  | err (e : ε)
  | fault (f : Fault)
deriving DecidableEq, Repr

end Outcome

open Outcome in
/-- The result of a call with errors in `ε`. -/
abbrev Outcome (ε α : Type) := Except (Halt ε) α

namespace Outcome

variable {ε α β σ : Type}

/-- Return the error `e`. -/
def fail (e : ε) : Outcome ε α := .error (.err e)

/-- Stop at the fault `f`. -/
def crash (f : Fault) : Outcome ε α := .error (.fault f)

@[simp] theorem bind_ok (a : α) (f : α → Outcome ε β) :
    ((Except.ok a : Outcome ε α) >>= f) = f a := rfl

@[simp] theorem bind_error (h : Halt ε) (f : α → Outcome ε β) :
    ((Except.error h : Outcome ε α) >>= f) = .error h := rfl

@[simp] theorem bind_fail (e : ε) (f : α → Outcome ε β) :
    ((fail e : Outcome ε α) >>= f) = fail e := rfl

@[simp] theorem bind_crash (t : Fault) (f : α → Outcome ε β) :
    ((crash t : Outcome ε α) >>= f) = crash t := rfl

@[simp] theorem pure_eq_ok (a : α) : (pure a : Outcome ε α) = .ok a := rfl

@[simp] theorem fail_ne_ok (e : ε) (a : α) : (fail e : Outcome ε α) ≠ .ok a := by simp [fail]

@[simp] theorem crash_ne_ok (f : Fault) (a : α) : (crash f : Outcome ε α) ≠ .ok a := by
  simp [crash]

@[simp] theorem ok_ne_fail (e : ε) (a : α) : (.ok a : Outcome ε α) ≠ fail e := by simp [fail]

@[simp] theorem ok_ne_crash (f : Fault) (a : α) : (.ok a : Outcome ε α) ≠ crash f := by
  simp [crash]

/-- A sequenced call returns only through a first call that returned. -/
theorem bind_eq_ok {x : Outcome ε α} {f : α → Outcome ε β} {b : β} :
    (x >>= f) = .ok b ↔ ∃ a, x = .ok a ∧ f a = .ok b := by
  cases x with
  | error h => simp
  | ok a => simp

/-- A sequenced call fails in its first part or, after a first part that returned, in its second. -/
theorem bind_eq_error {x : Outcome ε α} {f : α → Outcome ε β} {h : Halt ε} :
    (x >>= f) = .error h ↔ x = .error h ∨ ∃ a, x = .ok a ∧ f a = .error h := by
  cases x with
  | error h' => simp
  | ok a => simp

/-- A guarded call returns only when its guard does not fire. -/
theorem guard_eq_ok {c : Prop} [Decidable c] {e : ε} {x : Outcome ε α} {a : α} :
    (if c then fail e else x) = .ok a ↔ ¬ c ∧ x = .ok a := by
  by_cases h : c
  · simp [h]
  · simp [h]

/-! ## Partial correctness -/

/-- `x` stops at no fault, and a value it returns satisfies `Q`. -/
@[irreducible] def Safe (x : Outcome ε α) (Q : α → Prop) : Prop :=
  match x with
  | .ok a => Q a
  | .error (.err _) => True
  | .error (.fault _) => False

@[simp] theorem safe_ok {a : α} {Q : α → Prop} : Safe (.ok a : Outcome ε α) Q ↔ Q a := by
  unfold Safe; exact Iff.rfl

@[simp] theorem safe_fail {e : ε} {Q : α → Prop} : Safe (fail e : Outcome ε α) Q := by
  unfold Safe; trivial

@[simp] theorem safe_crash {f : Fault} {Q : α → Prop} : ¬ Safe (crash f : Outcome ε α) Q := by
  unfold Safe; exact id

theorem Safe.ok {a : α} {Q : α → Prop} (h : Q a) : Safe (.ok a : Outcome ε α) Q := safe_ok.mpr h

/-- A safe call returns a value or an error. -/
theorem safe_iff {x : Outcome ε α} {Q : α → Prop} :
    Safe x Q ↔ (∃ a, x = .ok a ∧ Q a) ∨ ∃ e, x = fail e := by
  match x with
  | .ok a => simp
  | .error (.err e) => exact iff_of_true safe_fail (Or.inr ⟨e, rfl⟩)
  | .error (.fault f) => exact iff_of_false safe_crash (by simp [fail])

theorem Safe.mono {x : Outcome ε α} {P Q : α → Prop} (h : Safe x P) (hPQ : ∀ a, P a → Q a) :
    Safe x Q := by
  rcases safe_iff.mp h with ⟨a, rfl, ha⟩ | ⟨e, rfl⟩
  · exact Safe.ok (hPQ a ha)
  · exact safe_fail

theorem Safe.bind {x : Outcome ε α} {f : α → Outcome ε β} {P : α → Prop} {Q : β → Prop}
    (hx : Safe x P) (hf : ∀ a, P a → Safe (f a) Q) : Safe (x >>= f) Q := by
  rcases safe_iff.mp hx with ⟨a, rfl, ha⟩ | ⟨e, rfl⟩
  · exact hf a ha
  · exact safe_fail

/-- The value of a safe call satisfies the postcondition. -/
theorem Safe.of_ok {x : Outcome ε α} {Q : α → Prop} {a : α} (h : Safe x Q) (hx : x = .ok a) :
    Q a := by
  subst hx; exact safe_ok.mp h

theorem Safe.ne_crash {x : Outcome ε α} {Q : α → Prop} (h : Safe x Q) (f : Fault) :
    x ≠ .error (.fault f) := by
  rintro rfl; exact safe_crash h

theorem safe_ite {c : Prop} [Decidable c] {x y : Outcome ε α} {Q : α → Prop}
    (hx : c → Safe x Q) (hy : ¬ c → Safe y Q) : Safe (if c then x else y) Q := by
  split_ifs with h
  · exact hx h
  · exact hy h

/-- `x` returns a value or an error. -/
def NoFault (x : Outcome ε α) : Prop := ∀ f, x ≠ crash f

theorem Safe.noFault {x : Outcome ε α} {Q : α → Prop} (h : Safe x Q) : NoFault x := h.ne_crash

/-! ## Postconditions alone -/

/-- A value `x` returns satisfies `Q`; nothing is said of its faults. -/
def Ensures (x : Outcome ε α) (Q : α → Prop) : Prop := ∀ a, x = .ok a → Q a

theorem Ensures.ok {a : α} {Q : α → Prop} (h : Q a) : Ensures (.ok a : Outcome ε α) Q := by
  rintro _ ⟨⟩; exact h

theorem ensures_error {h : Halt ε} {Q : α → Prop} : Ensures (.error h : Outcome ε α) Q := by
  rintro _ ⟨⟩

theorem ensures_fail {e : ε} {Q : α → Prop} : Ensures (fail e : Outcome ε α) Q := ensures_error

theorem Ensures.bind {x : Outcome ε α} {f : α → Outcome ε β} {P : α → Prop} {Q : β → Prop}
    (hx : Ensures x P) (hf : ∀ a, P a → Ensures (f a) Q) : Ensures (x >>= f) Q := by
  intro b h
  obtain ⟨a, ha, hb⟩ := bind_eq_ok.mp h
  exact hf a (hx a ha) b hb

/-- Nothing is needed of the first part. -/
theorem Ensures.after {x : Outcome ε α} {f : α → Outcome ε β} {Q : β → Prop}
    (hf : ∀ a, x = .ok a → Ensures (f a) Q) : Ensures (x >>= f) Q :=
  Ensures.bind (fun _ h => h) hf

theorem ensures_ite {c : Prop} [Decidable c] {x y : Outcome ε α} {Q : α → Prop}
    (hx : c → Ensures x Q) (hy : ¬ c → Ensures y Q) : Ensures (if c then x else y) Q := by
  split_ifs with h
  · exact hx h
  · exact hy h

theorem Safe.ensures {x : Outcome ε α} {Q : α → Prop} (h : Safe x Q) : Ensures x Q :=
  fun _ hx => h.of_ok hx

/-! ## Simulation -/

section Simulation

variable {α' β' : Type} {P : α → Prop} {R : α → α' → Prop} {x : Outcome ε α} {y : Outcome ε α'}

/-- Whenever `x` returns a value that satisfies `P`, `y` returns a value related to it by `R`. -/
def Simulates (P : α → Prop) (R : α → α' → Prop) (x : Outcome ε α) (y : Outcome ε α') : Prop :=
  ∀ a, x = .ok a → P a → ∃ b, y = .ok b ∧ R a b

theorem Simulates.ok {a : α} {b : α'} (h : P a → R a b) :
    Simulates P R (.ok a : Outcome ε α) (.ok b) := by
  rintro _ ⟨⟩ hP; exact ⟨b, rfl, h hP⟩

/-- Two calls that start with the same call. -/
theorem Simulates.after {x : Outcome ε β} {f : β → Outcome ε α} {g : β → Outcome ε α'}
    (h : ∀ b, x = .ok b → Simulates P R (f b) (g b)) : Simulates P R (x >>= f) (x >>= g) := by
  intro a ha hP
  obtain ⟨b, rfl, hf⟩ := bind_eq_ok.mp ha
  exact h b rfl a hf hP

/-- Sequencing; `P` at the end must give `Q` in between. -/
theorem Simulates.bind {x : Outcome ε β} {y : Outcome ε β'} {f : β → Outcome ε α}
    {g : β' → Outcome ε α'} {Q : β → Prop} {S : β → β' → Prop} (hxy : Simulates Q S x y)
    (hQ : ∀ b a, x = .ok b → f b = .ok a → P a → Q b)
    (hfg : ∀ b b', x = .ok b → S b b' → Simulates P R (f b) (g b')) :
    Simulates P R (x >>= f) (y >>= g) := by
  intro a ha hP
  obtain ⟨b, hb, hf⟩ := bind_eq_ok.mp ha
  obtain ⟨b', rfl, hS⟩ := hxy b hb (hQ b a hb hf hP)
  exact hfg b b' hb hS a hf hP

/-- A guard that passes on the left passes on the right. -/
theorem Simulates.guard {c d : Prop} [Decidable c] [Decidable d] {e e' : ε}
    (hd : ¬ c → ∀ a, x = .ok a → P a → ¬ d) (h : ¬ c → Simulates P R x y) :
    Simulates P R (if c then fail e else x) (if d then fail e' else y) := by
  intro a ha hP
  obtain ⟨hc, hx⟩ := guard_eq_ok.mp ha
  rw [if_neg (hd hc a hx hP)]
  exact h hc a hx hP

theorem Simulates.ite {c : Prop} [Decidable c] {x' : Outcome ε α} {y' : Outcome ε α'}
    (h : c → Simulates P R x y) (h' : ¬ c → Simulates P R x' y') :
    Simulates P R (if c then x else x') (if c then y else y') := by
  by_cases hc : c
  · rw [if_pos hc, if_pos hc]; exact h hc
  · rw [if_neg hc, if_neg hc]; exact h' hc

end Simulation

/-! ## Total correctness -/

/-- `x` returns a value that satisfies `Q`. -/
def Returns (x : Outcome ε α) (Q : α → Prop) : Prop := ∃ a, x = .ok a ∧ Q a

@[simp] theorem returns_ok {a : α} {Q : α → Prop} : Returns (.ok a : Outcome ε α) Q ↔ Q a := by
  simp [Returns]

@[simp] theorem not_returns_fail {e : ε} {Q : α → Prop} :
    ¬ Returns (fail e : Outcome ε α) Q := by simp [Returns]

theorem Returns.mono {x : Outcome ε α} {P Q : α → Prop} (h : Returns x P)
    (hPQ : ∀ a, P a → Q a) : Returns x Q := by
  obtain ⟨a, hx, hP⟩ := h
  exact ⟨a, hx, hPQ a hP⟩

theorem Returns.bind {x : Outcome ε α} {f : α → Outcome ε β} {P : α → Prop} {Q : β → Prop}
    (hx : Returns x P) (hf : ∀ a, P a → Returns (f a) Q) : Returns (x >>= f) Q := by
  obtain ⟨a, rfl, hP⟩ := hx
  exact hf a hP

theorem Returns.safe {x : Outcome ε α} {Q : α → Prop} (h : Returns x Q) : Safe x Q := by
  obtain ⟨a, rfl, hQ⟩ := h
  exact Safe.ok hQ

/-! ## Loops -/

/-- `while cond s { s = body s }`. The fuel only makes the definition total: running out of it
while the condition holds is the fault `diverge`. -/
def loop (cond : σ → Bool) (body : σ → Outcome ε σ) : Nat → σ → Outcome ε σ
  | 0, s => if cond s then crash .diverge else pure s
  | n + 1, s => if cond s then body s >>= loop cond body n else pure s

theorem loop_of_not {cond : σ → Bool} {body : σ → Outcome ε σ} {s : σ} (h : cond s = false)
    (n : Nat) : loop cond body n s = .ok s := by
  cases n <;> simp [loop, h]

theorem loop_succ_of {cond : σ → Bool} {body : σ → Outcome ε σ} {s : σ} (h : cond s = true)
    (n : Nat) : loop cond body (n + 1) s = body s >>= loop cond body n := by
  simp [loop, h]

/-- The invariant rule with a variant `μ` that every iteration decreases and the fuel bounds. -/
theorem Safe.loop {cond : σ → Bool} {body : σ → Outcome ε σ} (inv : σ → Prop) (μ : σ → Nat)
    (hstep : ∀ s, inv s → cond s = true → Safe (body s) fun s' => inv s' ∧ μ s' < μ s) :
    ∀ (n : Nat) (s : σ), inv s → μ s < n →
      Safe (loop cond body n s) fun s' => inv s' ∧ cond s' = false := by
  intro n
  induction n with
  | zero => intro s _ hn; omega
  | succ n ih =>
    intro s hs hn
    by_cases hc : cond s = true
    · rw [loop_succ_of hc]
      exact (hstep s hs hc).bind fun s' hs' => ih s' hs'.1 (by omega)
    · simp only [Bool.not_eq_true] at hc
      rw [loop_of_not hc]; exact Safe.ok ⟨hs, hc⟩

/-- The total form: an iteration that keeps the invariant returns, so the loop returns. -/
theorem Returns.loop {cond : σ → Bool} {body : σ → Outcome ε σ} (inv : σ → Prop) (μ : σ → Nat)
    (hstep : ∀ s, inv s → cond s = true → Returns (body s) fun s' => inv s' ∧ μ s' < μ s) :
    ∀ (n : Nat) (s : σ), inv s → μ s < n →
      Returns (loop cond body n s) fun s' => inv s' ∧ cond s' = false := by
  intro n
  induction n with
  | zero => intro s _ hn; omega
  | succ n ih =>
    intro s hs hn
    by_cases hc : cond s = true
    · rw [loop_succ_of hc]
      exact (hstep s hs hc).bind fun s' hs' => ih s' hs'.1 (by omega)
    · simp only [Bool.not_eq_true] at hc
      rw [loop_of_not hc]; exact ⟨s, rfl, hs, hc⟩

/-- The invariant rule for the postcondition alone. -/
theorem Ensures.loop {cond : σ → Bool} {body : σ → Outcome ε σ} (inv : σ → Prop)
    (hstep : ∀ s, inv s → cond s = true → Ensures (body s) inv) :
    ∀ (n : Nat) (s : σ), inv s → Ensures (loop cond body n s) fun s' => inv s' ∧
    cond s' = false := by
  intro n
  induction n with
  | zero =>
    intro s hs
    rw [Outcome.loop]
    refine ensures_ite (fun _ => ensures_error) fun hc => Ensures.ok ⟨hs, by simpa using hc⟩
  | succ n ih =>
    intro s hs
    rw [Outcome.loop]
    exact ensures_ite (fun hc => (hstep s hs hc).bind fun s' hs' => ih s' hs') fun hc =>
      Ensures.ok ⟨hs, by simpa using hc⟩

/-- A loop whose body agrees with that of a loop that returns, wherever that one gets. -/
theorem loop_transfer {cond : σ → Bool} {body body' : σ → Outcome ε σ} (inv : σ → Prop)
    (hstep : ∀ s s', inv s → cond s = true → body s = .ok s' → body' s = .ok s' ∧ inv s') {t : σ} :
    ∀ (n : Nat) (s : σ), inv s → loop cond body n s = .ok t → loop cond body' n s = .ok t := by
  intro n
  induction n with
  | zero => intro s _ h; exact h
  | succ n ih =>
    intro s hs h
    by_cases hc : cond s = true
    · rw [loop_succ_of hc] at h ⊢
      obtain ⟨s', hs', hrest⟩ := bind_eq_ok.mp h
      obtain ⟨hbody, hinv⟩ := hstep s s' hs hc hs'
      rw [hbody, bind_ok]
      exact ih s' hinv hrest
    · simp only [Bool.not_eq_true] at hc
      rw [loop_of_not hc] at h ⊢
      exact h

/-- The runs of `while cond s { s = body s }` that end, without fuel. -/
inductive Iterates (cond : σ → Bool) (body : σ → Outcome ε σ) : σ → σ → Prop
  | stop {s : σ} (h : cond s = false) : Iterates cond body s s
  | step {s s' t : σ} (h : cond s = true) (hbody : body s = .ok s')
      (hrest : Iterates cond body s' t) : Iterates cond body s t

theorem Iterates.of_loop {cond : σ → Bool} {body : σ → Outcome ε σ} {t : σ} :
    ∀ (n : Nat) {s : σ}, loop cond body n s = .ok t → Iterates cond body s t := by
  intro n
  induction n with
  | zero =>
    intro s h
    by_cases hc : cond s = true
    · rw [Outcome.loop, if_pos hc] at h
      exact absurd h (crash_ne_ok _ _)
    · rw [loop_of_not (by simpa using hc)] at h
      obtain rfl := Except.ok.inj h
      exact .stop (by simpa using hc)
  | succ n ih =>
    intro s h
    by_cases hc : cond s = true
    · rw [loop_succ_of hc] at h
      obtain ⟨s', hs', hrest⟩ := bind_eq_ok.mp h
      exact .step hc hs' (ih hrest)
    · rw [loop_of_not (by simpa using hc)] at h
      obtain rfl := Except.ok.inj h
      exact .stop (by simpa using hc)

/-- A run that ends is the loop with enough fuel: `μ` bounds the iterations left. -/
theorem Iterates.loop {cond : σ → Bool} {body : σ → Outcome ε σ} (μ : σ → Nat)
    (hstep : ∀ s s', cond s = true → body s = .ok s' → μ s' < μ s) {s t : σ}
    (h : Iterates cond body s t) : ∀ n, μ s < n → Outcome.loop cond body n s = .ok t := by
  induction h with
  | stop h => intro n _; exact loop_of_not h n
  | @step s s' t h hbody _ ih =>
    intro n hn
    obtain ⟨m, rfl⟩ : ∃ m, n = m + 1 := ⟨n - 1, by omega⟩
    rw [loop_succ_of h, hbody, bind_ok]
    have := hstep s s' h hbody
    exact ih m (by omega)

/-- `for _ in 0..n { s = body s }`. -/
def times (body : σ → Outcome ε σ) : Nat → σ → Outcome ε σ
  | 0, s => pure s
  | n + 1, s => body s >>= times body n

theorem times_add (body : σ → Outcome ε σ) (m n : Nat) (s : σ) :
    times body (m + n) s = times body m s >>= times body n := by
  induction m generalizing s with
  | zero => rw [Nat.zero_add]; rfl
  | succ m ih =>
    rw [Nat.succ_add, times, times, bind_assoc]
    exact bind_congr fun s' => ih s'

/-- The last iteration of a counted loop. -/
theorem times_succ_last (body : σ → Outcome ε σ) (n : Nat) (s : σ) :
    times body (n + 1) s = times body n s >>= body := by
  rw [times_add]
  refine bind_congr fun s' => ?_
  rw [times]
  cases body s' <;> rfl

theorem Returns.times {body : σ → Outcome ε σ} (inv : Nat → σ → Prop)
    (hstep : ∀ k s, inv (k + 1) s → Returns (body s) (inv k)) :
    ∀ n s, inv n s → Returns (times body n s) (inv 0) := by
  intro n
  induction n with
  | zero => intro s h; exact ⟨s, rfl, h⟩
  | succ n ih => intro s h; exact (hstep n s h).bind fun s' hs' => ih s' hs'

theorem Ensures.times {body : σ → Outcome ε σ} (inv : Nat → σ → Prop)
    (hstep : ∀ k s, inv (k + 1) s → Ensures (body s) (inv k)) :
    ∀ n s, inv n s → Ensures (times body n s) (inv 0) := by
  intro n
  induction n with
  | zero => intro s h; exact Ensures.ok h
  | succ n ih => intro s h; exact (hstep n s h).bind fun s' hs' => ih s' hs'

/-- The invariant rule of a loop over a list; `inv l` holds with `l` left. -/
theorem Safe.foldlM {f : σ → α → Outcome ε σ} (inv : List α → σ → Prop)
    (hstep : ∀ a l s, inv (a :: l) s → Safe (f s a) (inv l)) :
    ∀ l s, inv l s → Safe (l.foldlM f s) (inv []) := by
  intro l
  induction l with
  | nil => intro s h; exact Safe.ok h
  | cons a l ih =>
    intro s h
    rw [List.foldlM_cons]
    exact (hstep a l s h).bind fun s' hs' => ih s' hs'

/-- The rule of a map over a list. -/
theorem Safe.mapM {f : α → Outcome ε β} {P : α → β → Prop} :
    ∀ l : List α, (∀ a ∈ l, Safe (f a) (P a)) → Safe (l.mapM f) (List.Forall₂ P l) := by
  intro l
  induction l with
  | nil => intro _; exact Safe.ok List.Forall₂.nil
  | cons a l ih =>
    intro h
    rw [List.mapM_cons]
    exact (h a (by simp)).bind fun b hb =>
      (ih fun a ha => h a (by simp [ha])).bind fun bs hbs => Safe.ok (List.Forall₂.cons hb hbs)

/-- A map over a list returns exactly when every call does. -/
theorem mapM_eq_ok {f : α → Outcome ε β} : ∀ {l : List α} {bs : List β},
    l.mapM f = .ok bs ↔ List.Forall₂ (fun a b => f a = .ok b) l bs := by
  intro l
  induction l with
  | nil =>
    intro bs
    rw [List.mapM_nil, List.forall₂_nil_left_iff, pure_eq_ok]
    constructor
    · intro h; exact (Except.ok.inj h).symm
    · rintro rfl; rfl
  | cons a l ih =>
    intro bs
    rw [List.mapM_cons, List.forall₂_cons_left_iff]
    constructor
    · intro h
      obtain ⟨b, hb, h⟩ := bind_eq_ok.mp h
      obtain ⟨bs', hbs, h⟩ := bind_eq_ok.mp h
      exact ⟨b, bs', hb, ih.mp hbs, (Except.ok.inj h).symm⟩
    · rintro ⟨b, bs', hb, hbs, rfl⟩
      rw [hb, bind_ok, ih.mpr hbs]
      rfl

/-- A map over a list whose elements are related to those of another. -/
theorem Returns.mapM {γ : Type} {f : α → Outcome ε β} {R : γ → α → Prop} {S : γ → β → Prop}
    {cs : List γ} {l : List α} (h : List.Forall₂ R cs l)
    (hf : ∀ c ∈ cs, ∀ a, R c a → Returns (f a) (S c)) : Returns (l.mapM f) (List.Forall₂ S cs) := by
  induction h with
  | nil => exact ⟨[], rfl, List.Forall₂.nil⟩
  | cons hca _ ih =>
    rw [List.mapM_cons]
    exact (hf _ (by simp) _ hca).bind fun b hb => (ih fun c hc => hf c (by simp [hc])).bind
      fun bs hbs => ⟨b :: bs, rfl, List.Forall₂.cons hb hbs⟩

theorem Returns.foldlM {f : σ → α → Outcome ε σ} (inv : List α → σ → Prop)
    (hstep : ∀ a l s, inv (a :: l) s → Returns (f s a) (inv l)) :
    ∀ l s, inv l s → Returns (l.foldlM f s) (inv []) := by
  intro l
  induction l with
  | nil => intro s h; exact ⟨s, rfl, h⟩
  | cons a l ih =>
    intro s h
    rw [List.foldlM_cons]
    exact (hstep a l s h).bind fun s' hs' => ih s' hs'

end Outcome
