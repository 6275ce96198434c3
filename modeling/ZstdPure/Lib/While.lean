import Mathlib

/-!
# Bounded loops

A `while` loop on pure states with a bound on its iterations, and its invariant rule.
-/

namespace While

variable {σ : Type}

/-- `while cond { body }`, for at most `n` iterations. -/
def iterate (cond : σ → Bool) (body : σ → σ) : Nat → σ → σ
  | 0, s => s
  | n + 1, s => if cond s then iterate cond body n (body s) else s

/-- What every iteration that is made keeps, the loop keeps. -/
theorem iterate_keeps {cond : σ → Bool} {body : σ → σ} (inv : σ → Prop)
    (hstep : ∀ s, inv s → cond s = true → inv (body s)) : ∀ (n : Nat) (s : σ), inv s →
      inv (iterate cond body n s) := by
  intro n
  induction n with
  | zero => intro s hs; exact hs
  | succ n ih =>
    intro s hs
    unfold iterate
    split_ifs with hc
    · exact ih (body s) (hstep s hs hc)
    · exact hs

theorem iterate_inv {cond : σ → Bool} {body : σ → σ} (inv : σ → Prop)
    (hstep : ∀ s, inv s → inv (body s)) (n : Nat) (s : σ) (hs : inv s) :
    inv (iterate cond body n s) :=
  iterate_keeps inv (fun s hs _ => hstep s hs) n s hs

/-- Two loops whose iterations correspond run in step. -/
theorem iterate_map {τ : Type} {cond : σ → Bool} {body : σ → σ} {cond' : τ → Bool} {body' : τ → τ}
    (f : σ → τ) (inv : σ → Prop) (hcond : ∀ s, inv s → cond' (f s) = cond s)
    (hbody : ∀ s, inv s → cond s = true → inv (body s) ∧ body' (f s) = f (body s)) :
    ∀ (n : Nat) (s : σ), inv s →
      inv (iterate cond body n s) ∧ iterate cond' body' n (f s) = f (iterate cond body n s) := by
  intro n
  induction n with
  | zero => exact fun s hs => ⟨hs, rfl⟩
  | succ n ih =>
    intro s hs
    unfold iterate
    rw [hcond s hs]
    split_ifs with hc
    · obtain ⟨hs', heq⟩ := hbody s hs hc
      rw [heq]
      exact ih (body s) hs'
    · exact ⟨hs, rfl⟩

/-- A loop whose measure decreases stops by itself, and keeps its invariant. -/
theorem iterate_spec {cond : σ → Bool} {body : σ → σ} (inv : σ → Prop) (μ : σ → Nat)
    (hstep : ∀ s, inv s → cond s = true → inv (body s) ∧ μ (body s) < μ s) :
    ∀ (n : Nat) (s : σ), inv s → μ s ≤ n →
      inv (iterate cond body n s) ∧ cond (iterate cond body n s) = false := by
  intro n
  induction n with
  | zero =>
    intro s hs hμ
    refine ⟨hs, ?_⟩
    by_contra hc
    have hdec := (hstep s hs (Bool.eq_true_of_not_eq_false hc)).2
    omega
  | succ n ih =>
    intro s hs hμ
    unfold iterate
    split_ifs with hc
    · obtain ⟨hb, hdec⟩ := hstep s hs hc
      exact ih (body s) hb (by omega)
    · exact ⟨hs, Bool.eq_false_of_not_eq_true hc⟩

/-- A loop over the positions up to `limit` that moves on with every iteration and stays within
`stop` comes past `limit`. -/
theorem iterate_upto {body : σ → σ} (inv : σ → Prop) (pos : σ → Nat) {limit stop : Nat}
    (hin : ∀ s, inv s → pos s ≤ stop)
    (hstep : ∀ s, inv s → pos s ≤ limit → inv (body s) ∧ pos s < pos (body s)) {n : Nat} {s : σ}
    (hs : inv s) (hn : stop ≤ pos s + n) :
    inv (iterate (fun s => decide (pos s ≤ limit)) body n s) ∧
      limit < pos (iterate (fun s => decide (pos s ≤ limit)) body n s) := by
  obtain ⟨hinv, hcond⟩ := @iterate_spec σ (fun s => decide (pos s ≤ limit)) body inv
    (fun s => stop - pos s) (fun s hs hc => by
      obtain ⟨hs', hlt⟩ := hstep s hs (of_decide_eq_true hc)
      have hle := hin _ hs'
      exact ⟨hs', by omega⟩) n s hs (by omega)
  exact ⟨hinv, Nat.lt_of_not_le (of_decide_eq_false hcond)⟩

end While
