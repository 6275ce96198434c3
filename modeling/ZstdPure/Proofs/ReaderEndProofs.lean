import ZstdPure.Consumption
import ZstdPure.Proofs.FieldReadProofs

/-!
# Where a reader ends

A reader has the bits of a stack left, or it has read more bits than there are; the latter does not
change any more. It has finished when no bits are left.
-/

namespace ZstdPure

open Outcome BitString

namespace ReverseBitReader

variable {r r' : ReverseBitReader} {s : BitStack} {n : Nat}

/-- More bits were consumed than there were. -/
def Beyond (r : ReverseBitReader) : Prop := 8 * r.ptr + 64 < r.bits_consumed

theorem finished_iff : r.finished = true ↔ r.ptr = 0 ∧ r.bits_consumed = 64 := by
  rw [finished, Bool.and_eq_true, beq_iff_eq, beq_iff_eq]

theorem Beyond.not_finished (h : r.Beyond) : ¬ r.finished = true := by
  rw [Beyond] at h
  rw [finished_iff]
  omega

theorem Beyond.consume (h : r.Beyond) (n : Nat) :
    { r with bits_consumed := r.bits_consumed + n : ReverseBitReader }.Beyond := by
  rw [Beyond] at h ⊢
  simp only
  omega

theorem Beyond.reloaded {st : ReloadStatus} (h : r.Beyond) (hr : Reloaded r st r') : r'.Beyond := by
  have hbits := hr.bits
  rw [Beyond] at h ⊢
  omega

/-- Readers at one position have finished together. -/
theorem SamePosition.finished (h : SamePosition r r') : r.finished = r'.finished := by
  have hbits := h.bits
  have hs := h.settled
  have hs' := h.settled'
  rw [Bool.eq_iff_iff, finished_iff, finished_iff]
  omega

/-- A reader has finished when no bits are left. -/
theorem Holds.finished_iff (h : r.Holds s) : r.finished = true ↔ s.len = 0 := by
  have hlen := h.len
  have hc := h.consumed
  rw [ReverseBitReader.finished_iff]
  omega

/-- Consuming more bits than are left. -/
theorem Holds.beyond (h : r.Holds s) (hn : s.len < n) :
    { r with bits_consumed := r.bits_consumed + n : ReverseBitReader }.Beyond := by
  have hlen := h.len
  rw [Beyond]
  simp only
  omega

/-- Where a reader is: the bits it has left, `none` when it has read more than there are. -/
def At (r : ReverseBitReader) : Option BitStack → Prop
  | some s => r.Holds s
  | none => r.Valid ∧ r.Beyond

/-- What is left after `n` more bits. -/
def popped (x : Option BitStack) (n : Nat) : Option BitStack :=
  x.bind fun s => if n ≤ s.len then some (s.pop n) else none

variable {x : Option BitStack} {a b v : Nat}

theorem popped_eq_some : popped x n = some s ↔ ∃ s₀, x = some s₀ ∧ n ≤ s₀.len ∧ s₀.pop n = s := by
  cases x with
  | none => simp [popped]
  | some s₀ => simp [popped]

theorem popped_popped : popped (popped x a) b = popped x (a + b) := by
  cases x with
  | none => rfl
  | some s₀ =>
    simp only [popped, Option.bind_some]
    by_cases ha : a ≤ s₀.len
    · rw [if_pos ha, Option.bind_some, BitStack.pop_len, BitStack.pop_pop]
      by_cases hb : a + b ≤ s₀.len
      · rw [if_pos hb, if_pos (by omega)]
      · rw [if_neg hb, if_neg (by omega)]
    · rw [if_neg ha, if_neg (by omega)]
      rfl

theorem At.valid (h : r.At x) : r.Valid := by
  cases x with
  | none => exact h.1
  | some s => exact Holds.valid h

/-- A reader has finished when no bits are left, and none too many were read. -/
theorem At.finished_iff (h : r.At x) : r.finished = true ↔ ∃ s, x = some s ∧ s.len = 0 := by
  cases x with
  | none => exact iff_of_false h.2.not_finished (by simp)
  | some s => rw [Holds.finished_iff h]; simp

theorem At.reloaded {st : ReloadStatus} (h : r.At x) (hr : Reloaded r st r') : r'.At x := by
  cases x with
  | none => exact ⟨hr.valid, h.2.reloaded hr⟩
  | some s => exact Holds.reloaded h hr

/-- The window holds the next `n` bits, or as many of them as there are. -/
def Fitted (r : ReverseBitReader) (x : Option BitStack) (n : Nat) : Prop :=
  ∀ s ∈ x, ∀ m ≤ n, m ≤ s.len → r.bits_consumed + m ≤ 64

theorem At.ensure (h : r.At x) (hn : n ≤ 57) (hr : r.ensure n = .ok r') : r'.At x ∧
    r'.Fitted x n := by
  rw [ReverseBitReader.ensure] at hr
  obtain ⟨k, hk, hr⟩ := bind_eq_ok.mp hr
  obtain ⟨-, rfl⟩ := add_eq_ok.mp hk
  split_ifs at hr with h64
  · obtain ⟨st, r₁, hr₁, hs⟩ := reload_spec h.valid
    rw [hr₁, bind_ok] at hr
    obtain rfl := Except.ok.inj hr
    refine ⟨h.reloaded hs, fun s hx m hm hlen => ?_⟩
    obtain rfl := Option.mem_def.mp hx
    obtain ⟨st', r₂, hr₂, -, -, hfit, -⟩ := Holds.reload h
    obtain ⟨-, rfl⟩ := Prod.mk.inj (Except.ok.inj (hr₁.symm.trans hr₂))
    exact hfit m (by omega) hlen
  · obtain rfl := Except.ok.inj hr
    exact ⟨h, fun s _ m hm _ => by omega⟩

/-- A read of bits that the window holds. -/
theorem At.read (h : r.At x) (hn : n ≤ 32) (hfit : r.Fitted x n) (hr : r.read n = .ok (v, r')) :
    r'.At (popped x n) ∧ r'.bits_consumed = r.bits_consumed + n ∧ ∀ s ∈ x, n ≤ s.len →
    v = s.top n := by
  rw [ReverseBitReader.read] at hr
  obtain ⟨u, hu, hr⟩ := bind_eq_ok.mp hr
  obtain ⟨r₁, hc, hr⟩ := bind_eq_ok.mp hr
  obtain ⟨rfl, rfl⟩ := Prod.mk.inj (Except.ok.inj hr)
  rw [consume] at hc
  obtain ⟨k, hk, hc⟩ := bind_eq_ok.mp hc
  obtain ⟨-, rfl⟩ := add_eq_ok.mp hk
  obtain rfl := Except.ok.inj hc
  cases x with
  | none => exact ⟨⟨h.1.consume n, h.2.consume n⟩, rfl, by simp⟩
  | some s =>
    rw [popped, Option.bind_some]
    split_ifs with hlen
    · have hin := hfit s rfl n le_rfl hlen
      refine ⟨Holds.consume h hlen hin, rfl, fun s' hs' _ => ?_⟩
      obtain rfl := Option.some.inj hs'
      exact Except.ok.inj (hu.symm.trans (Holds.peek h hn hlen hin))
    · refine ⟨⟨(Holds.valid h).consume n, Holds.beyond h (by omega)⟩, rfl, fun s' hs' hle => ?_⟩
      obtain rfl := Option.some.inj hs'
      exact absurd hle hlen

theorem At.read_lazy (h : r.At x) (hn : n ≤ 32) (hr : r.read_lazy n = .ok (v, r')) :
    r'.At (popped x n) ∧ ∀ s ∈ x, n ≤ s.len → v = s.top n := by
  rw [ReverseBitReader.read_lazy] at hr
  obtain ⟨r₁, hens, hr⟩ := bind_eq_ok.mp hr
  obtain ⟨hat, hfit⟩ := h.ensure (by omega) hens
  obtain ⟨hat', -, hval⟩ := hat.read hn hfit hr
  exact ⟨hat', hval⟩

/-- After a read the window still holds the rest. -/
theorem Fitted.after (h : r.Fitted x (a + b)) (hc : r'.bits_consumed = r.bits_consumed + a) :
    r'.Fitted (popped x a) b := by
  intro s hs m hm hlen
  obtain ⟨s₀, rfl, hle, rfl⟩ := popped_eq_some.mp hs
  have := h s₀ rfl (a + m) (by omega) (by rw [BitStack.pop_len] at hlen; omega)
  omega

theorem Fitted.mono (h : r.Fitted x b) (hab : a ≤ b) : r.Fitted x a := fun s hs m hm =>
  h s hs m (hm.trans hab)

end ReverseBitReader

end ZstdPure
