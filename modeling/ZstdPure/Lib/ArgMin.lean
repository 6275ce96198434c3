import Mathlib.Data.List.MinMax

/-!
# Minimum by a running best

A loop that keeps the best element so far next to its score, and starts from a score that none
reaches, ends with the first element of least score. -/

namespace ZstdPure

section ArgMin

variable {α β : Type} [LinearOrder β] {f : α → β} {ceiling : β}

/-- The best element so far, and its score. -/
def keep_smaller (f : α → β) (best : Option α × β) (a : α) : Option α × β :=
  if f a < best.2 then (some a, f a) else best

/-- What the loop keeps when its best element is `best`. -/
def scored (f : α → β) (ceiling : β) (best : Option α) : Option α × β :=
  (best, (best.map f).getD ceiling)

theorem foldl_keep_smaller {l : List α} (h : ∀ a ∈ l, f a < ceiling) :
    l.foldl (keep_smaller f) (none, ceiling) = scored f ceiling (l.argmin f) := by
  induction l using List.reverseRecOn with
  | nil => rfl
  | append_singleton l a ih =>
    have hlt := h a (by simp)
    rw [List.foldl_append, ih fun b hb => h b (List.mem_append_left _ hb), List.foldl_cons,
      List.foldl_nil,
      List.argmin_concat]
    cases l.argmin f with
    | none => exact if_pos hlt
    | some b =>
      show (if f a < f b then (some a, f a) else (some b, f b)) =
        scored f ceiling (if f a < f b then some a else some b)
      by_cases hlt : f a < f b
      · rw [if_pos hlt, if_pos hlt]
        rfl
      · rw [if_neg hlt, if_neg hlt]
        rfl

end ArgMin

end ZstdPure
