import ZstdPure.Lib.Checked

/-!
# Readers that look no further than they consume

A reader of a byte string that starts at a position and says with its value where it stopped. It is
delimited when its value depends only on the input up to there: more input changes nothing, and an
input cut before that position makes it fail.
-/

namespace Outcome

variable {ε α β γ : Type}

/-- `f`, which starts at `p`, reads its input up to `stop a` when it returns `a`, and nothing
beyond. -/
structure Delimited (p : Nat) (stop : α → Nat) (f : List β → Outcome ε α) : Prop where
  ge : ∀ src a, p ≤ src.length → f src = .ok a → p ≤ stop a
  le : ∀ src a, p ≤ src.length → f src = .ok a → stop a ≤ src.length
  extend : ∀ src src' a, src <+: src' → p ≤ src.length → f src = .ok a → f src' = .ok a
  cut : ∀ src src' a, src <+: src' → p ≤ src.length → f src' = .ok a → stop a ≤ src.length →
    f src = .ok a
  short : ∀ src src' a, src <+: src' → p ≤ src.length → f src' = .ok a → src.length < stop a →
    ∃ e, f src = fail e

/-- A call that does not read. -/
theorem Delimited.const (p : Nat) (x : Outcome ε α) :
    Delimited p (fun _ => p) (fun _ : List β => x) where
  ge _ _ _ _ := le_rfl
  le _ _ hp _ := hp
  extend _ _ _ _ _ h := h
  cut _ _ _ _ _ h _ := h
  short _ _ _ _ hp _ hlt := absurd hp (by omega)

/-- A value returned at the position it names. -/
theorem Delimited.pure {p : Nat} {stop : α → Nat} {a : α} (h : stop a = p) :
    Delimited p stop (fun _ : List β => (.ok a : Outcome ε α)) where
  ge _ _ _ ha := by obtain rfl := Except.ok.inj ha; omega
  le _ _ hp ha := by obtain rfl := Except.ok.inj ha; omega
  extend _ _ _ _ _ h := h
  cut _ _ _ _ _ h _ := h
  short _ _ _ _ _ ha hlt := by obtain rfl := Except.ok.inj ha; omega

theorem Delimited.fail {p : Nat} {stop : α → Nat} (e : List β → ε) :
    Delimited p stop (fun src : List β => (Outcome.fail (e src) : Outcome ε α)) where
  ge _ _ _ ha := absurd ha (fail_ne_ok _ _)
  le _ _ _ ha := absurd ha (fail_ne_ok _ _)
  extend _ _ _ _ _ ha := absurd ha (fail_ne_ok _ _)
  cut _ _ _ _ _ ha _ := absurd ha (fail_ne_ok _ _)
  short _ _ _ _ _ ha _ := absurd ha (fail_ne_ok _ _)

/-- Sequencing: the second part starts where the first one stopped. -/
theorem Delimited.bind {p : Nat} {stop : α → Nat} {stop' : γ → Nat} {f : List β → Outcome ε α}
    {g : α → List β → Outcome ε γ} (hf : Delimited p stop f)
    (hg : ∀ a, (∃ src, f src = .ok a) → Delimited (stop a) stop' (g a)) :
    Delimited p stop' (fun src => f src >>= fun a => g a src) where
  ge src c hp h := by
    obtain ⟨a, ha, hc⟩ := bind_eq_ok.mp h
    exact (hf.ge src a hp ha).trans ((hg a ⟨_, ha⟩).ge src c (hf.le src a hp ha) hc)
  le src c hp h := by
    obtain ⟨a, ha, hc⟩ := bind_eq_ok.mp h
    exact (hg a ⟨_, ha⟩).le src c (hf.le src a hp ha) hc
  extend src src' c hpre hp h := by
    obtain ⟨a, ha, hc⟩ := bind_eq_ok.mp h
    show f src' >>= _ = _
    rw [hf.extend src src' a hpre hp ha, bind_ok]
    exact (hg a ⟨_, ha⟩).extend src src' c hpre (hf.le src a hp ha) hc
  cut src src' c hpre hp h hstop := by
    obtain ⟨a, ha, hc⟩ := bind_eq_ok.mp h
    have hp' := hp.trans hpre.length_le
    have hle := (hg a ⟨_, ha⟩).ge src' c (hf.le src' a hp' ha) hc
    show f src >>= _ = _
    rw [hf.cut src src' a hpre hp ha (hle.trans hstop), bind_ok]
    exact (hg a ⟨_, ha⟩).cut src src' c hpre (hle.trans hstop) hc hstop
  short src src' c hpre hp h hlt := by
    obtain ⟨a, ha, hc⟩ := bind_eq_ok.mp h
    show ∃ e, f src >>= _ = _
    by_cases hle : stop a ≤ src.length
    · rw [hf.cut src src' a hpre hp ha hle, bind_ok]
      exact (hg a ⟨_, ha⟩).short src src' c hpre hle hc hlt
    · obtain ⟨e, he⟩ := hf.short src src' a hpre hp ha (by omega)
      exact ⟨e, by rw [he, bind_fail]⟩

/-- A check of the input's length: the reader it guards reads on to at least that length. -/
theorem Delimited.guard {p n : Nat} {stop : α → Nat} {f : List β → Outcome ε α}
    {c : List β → Prop} [DecidablePred c] (e : List β → ε) (hc : ∀ src, c src ↔ src.length < n)
    (hn : p ≤ n) (hf : Delimited n stop f) :
    Delimited p stop (fun src => if c src then Outcome.fail (e src) else f src) where
  ge src a _ h := by
    obtain ⟨hlt, h⟩ := guard_eq_ok.mp h
    rw [hc] at hlt
    exact hn.trans (hf.ge src a (by omega) h)
  le src a _ h := by
    obtain ⟨hlt, h⟩ := guard_eq_ok.mp h
    rw [hc] at hlt
    exact hf.le src a (by omega) h
  extend src src' a hpre _ h := by
    obtain ⟨hlt, h⟩ := guard_eq_ok.mp h
    have hle := hpre.length_le
    rw [hc] at hlt
    exact guard_eq_ok.mpr ⟨by rw [hc]; omega, hf.extend src src' a hpre (by omega) h⟩
  cut src src' a hpre _ h hstop := by
    obtain ⟨hlt, h⟩ := guard_eq_ok.mp h
    rw [hc] at hlt
    have hge := hf.ge src' a (by omega) h
    exact guard_eq_ok.mpr ⟨by rw [hc]; omega, hf.cut src src' a hpre (by omega) h hstop⟩
  short src src' a hpre _ h hshort := by
    obtain ⟨hlt, h⟩ := guard_eq_ok.mp h
    by_cases hc' : c src
    · exact ⟨e src, if_pos hc'⟩
    · have hlen := (hc src).not.mp hc'
      obtain ⟨e', he⟩ := hf.short src src' a hpre (by omega) h hshort
      exact ⟨e', by show (if _ then _ else _) = _; rw [if_neg hc', he]⟩

theorem Delimited.ite {p : Nat} {stop : α → Nat} {f g : List β → Outcome ε α} {c : Prop}
    [Decidable c] (hf : c → Delimited p stop f) (hg : ¬ c → Delimited p stop g) :
    Delimited p stop (fun src => if c then f src else g src) := by
  by_cases hc : c
  · simp only [if_pos hc]; exact hf hc
  · simp only [if_neg hc]; exact hg hc

/-- A reader that runs on the input from `k` on. -/
theorem Delimited.drop {p k : Nat} {stop : α → Nat} {f : List β → Outcome ε α} (hk : k ≤ p)
    (hf : Delimited (p - k) stop f) :
    Delimited p (fun a => k + stop a) (fun src => sliceFrom src k >>= f) where
  ge src a hp h := by
    simp only [sliceFrom_ok (hk.trans hp), bind_ok] at h
    have := hf.ge _ a (by rw [List.length_drop]; omega) h
    omega
  le src a hp h := by
    simp only [sliceFrom_ok (hk.trans hp), bind_ok] at h
    have := hf.le _ a (by rw [List.length_drop]; omega) h
    rw [List.length_drop] at this
    omega
  extend src src' a hpre hp h := by
    have hle := hpre.length_le
    simp only [sliceFrom_ok (hk.trans hp), bind_ok] at h
    show sliceFrom src' k >>= f = _
    rw [sliceFrom_ok (by omega), bind_ok]
    exact hf.extend _ _ a (hpre.drop k) (by rw [List.length_drop]; omega) h
  cut src src' a hpre hp h hstop := by
    have hle := hpre.length_le
    simp only [sliceFrom_ok (hk.trans (hp.trans hle)), bind_ok] at h
    show sliceFrom src k >>= f = _
    rw [sliceFrom_ok (by omega), bind_ok]
    exact hf.cut _ _ a (hpre.drop k) (by rw [List.length_drop]; omega) h
      (by rw [List.length_drop]; omega)
  short src src' a hpre hp h hlt := by
    have hle := hpre.length_le
    simp only [sliceFrom_ok (hk.trans (hp.trans hle)), bind_ok] at h
    show ∃ e, sliceFrom src k >>= f = _
    rw [sliceFrom_ok (by omega), bind_ok]
    exact hf.short _ _ a (hpre.drop k) (by rw [List.length_drop]; omega) h
      (by rw [List.length_drop]; omega)

/-- A reader on the input from `k` on, and another after it. -/
theorem Delimited.drop_bind {p k : Nat} {stop : α → Nat} {stop' : γ → Nat}
    {f : List β → Outcome ε α} {g : α → List β → Outcome ε γ} (hk : k ≤ p)
    (hf : Delimited (p - k) stop f) (hg : ∀ a, Delimited (k + stop a) stop' (g a)) :
    Delimited p stop' (fun src => sliceFrom src k >>= fun rest => f rest >>= fun a => g a src) := by
  have h := (hf.drop hk).bind fun a _ => hg a
  simpa only [bind_assoc] using h

/-! ## Reading inside the part that is there -/

theorem get_of_prefix {src src' : List β} {i : Nat} (h : src <+: src') (hi : i < src.length) :
    (get src' i : Outcome ε β) = get src i := by
  rw [get_ok hi, get_ok (lt_of_lt_of_le hi h.length_le), h.getElem hi]

theorem slice_of_prefix {src src' : List β} {a b : Nat} (h : src <+: src') (hb : b ≤ src.length) :
    (slice src' a b : Outcome ε (List β)) = slice src a b := by
  obtain ⟨t, rfl⟩ := h
  rw [slice, slice, List.length_append, List.take_append_of_le_length hb]
  by_cases hab : a ≤ b
  · rw [if_pos ⟨hab, by omega⟩, if_pos ⟨hab, hb⟩]
  · rw [if_neg (by omega), if_neg (by omega)]

/-- A reader that looks only at what stands before its start. -/
theorem Delimited.inside {p : Nat} {f : List β → Outcome ε α}
    (h : ∀ src src', src <+: src' → p ≤ src.length → f src' = f src) :
    Delimited p (fun _ => p) f where
  ge _ _ _ _ := le_rfl
  le _ _ hp _ := hp
  extend src src' _ hpre hp ha := by rw [h src src' hpre hp, ha]
  cut src src' _ hpre hp ha _ := by rw [← h src src' hpre hp, ha]
  short _ _ _ _ hp _ hlt := absurd hp (by omega)

theorem Delimited.get {p i : Nat} (hi : i < p) :
    Delimited p (fun _ => p) (fun src : List β => (Outcome.get src i : Outcome ε β)) :=
  .inside fun _ _ hpre hp => get_of_prefix hpre (by omega)

theorem Delimited.slice {p a b : Nat} (hb : b ≤ p) :
    Delimited p (fun _ => p) (fun src : List β => (Outcome.slice src a b : Outcome ε (List β))) :=
  .inside fun _ _ hpre hp => slice_of_prefix hpre (by omega)

/-! ## Loops -/

/-- A loop whose every iteration is delimited and reads something; the fuel is at least the length
of the input. -/
theorem Delimited.loop {cond : α → Bool} {body : List β → α → Outcome ε α} {pos : α → Nat}
    {fuel : List β → Nat} (hfuel : ∀ src, src.length < fuel src)
    (hbody : ∀ s, cond s = true → Delimited (pos s) pos fun src => body src s)
    (hlt : ∀ src s s', cond s = true → body src s = .ok s' → pos s < pos s') (s : α) :
    Delimited (pos s) pos (fun src => Outcome.loop cond (body src) (fuel src) s) := by
  have hends : ∀ {src : List β} {s t : α}, Iterates cond (body src) s t → pos s ≤ src.length →
      pos s ≤ pos t ∧ pos t ≤ src.length := by
    intro src s t h
    induction h with
    | stop _ => exact fun hp => ⟨le_rfl, hp⟩
    | @step s s' t hc hs _ ih =>
      intro hp
      have hle := (hbody s hc).le src s' hp hs
      exact ⟨((hlt src s s' hc hs).le).trans (ih hle).1, (ih hle).2⟩
  have hrun : ∀ {src : List β} {s t : α}, Iterates cond (body src) s t → pos s ≤ src.length →
      ∀ n, src.length - pos s < n → Outcome.loop cond (body src) n s = .ok t := by
    intro src s t h
    induction h with
    | stop h => exact fun _ n _ => loop_of_not h n
    | @step s s' t hc hs _ ih =>
      intro hp n hn
      obtain ⟨m, rfl⟩ : ∃ m, n = m + 1 := ⟨n - 1, by omega⟩
      have := hlt src s s' hc hs
      have hle := (hbody s hc).le src s' hp hs
      rw [loop_succ_of hc, hs, bind_ok]
      exact ih hle m (by omega)
  refine ⟨fun src t hp h => (hends (.of_loop _ h) hp).1, fun src t hp h =>
    (hends (.of_loop _ h) hp).2, fun src src' t hpre hp h => ?_, fun src src' t hpre hp h hstop =>
      ?_,
    fun src src' t hpre hp h hshort => ?_⟩
  · refine hrun ?_ (hp.trans hpre.length_le) _ (by have := hfuel src'; omega)
    replace h := Iterates.of_loop _ h
    induction h with
    | stop h => exact .stop h
    | @step s s' t hc hs _ ih =>
      exact .step hc ((hbody s hc).extend src src' s' hpre hp hs)
        (ih ((hbody s hc).le src s' hp hs))
  · refine hrun ?_ hp _ (by have := hfuel src; omega)
    replace h := Iterates.of_loop _ h
    induction h with
    | stop h => exact .stop h
    | @step s s' t hc hs hrest ih =>
      have hle' := (hbody s hc).le src' s' (hp.trans hpre.length_le) hs
      have hle := ((hends hrest hle').1).trans hstop
      exact .step hc ((hbody s hc).cut src src' s' hpre hp hs hle) (ih hle hstop)
  · replace h := Iterates.of_loop _ h
    have hf := hfuel src
    have hn : src.length - pos s < fuel src := by omega
    clear hf
    generalize fuel src = n at hn
    induction h generalizing n with
    | stop h => omega
    | @step s s' t hc hs hrest ih =>
      obtain ⟨m, rfl⟩ : ∃ m, n = m + 1 := ⟨n - 1, by omega⟩
      show ∃ e, Outcome.loop cond (body src) (m + 1) s = _
      rw [loop_succ_of hc]
      by_cases hle : pos s' ≤ src.length
      · have := hlt src' s s' hc hs
        rw [(hbody s hc).cut src src' s' hpre hp hs hle, bind_ok]
        exact ih hle hshort m (by omega)
      · obtain ⟨e, he⟩ := (hbody s hc).short src src' s' hpre hp hs (by omega)
        exact ⟨e, by rw [he, bind_fail]⟩

end Outcome
