import ZstdPure.Lib.BitString
import ZstdPure.Proofs.BitsProofs
import ZstdPure.Proofs.BitWriterProofs

/-!
# Sequences of reads

How often the reverse reader is refilled between the reads of a sequence does not change what they
return, also past the start of the stream. Within the stream they return the fields of the bit
string below the sentinel, which are the fields that a bit writer was given, last one first. -/

namespace ZstdPure

open Outcome BitString

namespace ReverseBitReader

/-! ## Ways to read -/

/-- `reload`, then `read`. -/
def read_eager (r : ReverseBitReader) (n : Nat) : Res (Nat × ReverseBitReader) := do
  let p ← r.reload
  p.2.read n

/-- Reads of the widths `ns`, each by `f`. -/
def read_each (f : ReverseBitReader → Nat → Res (Nat × ReverseBitReader)) :
    ReverseBitReader → List Nat → Res (List Nat × ReverseBitReader)
  | r, [] => pure ([], r)
  | r, n :: ns => do
    let (v, r) ← f r n
    let (vs, r) ← read_each f r ns
    pure (v :: vs, r)

/-- One `ensure` for a group of reads. -/
def read_group (r : ReverseBitReader) (ns : List Nat) : Res (List Nat × ReverseBitReader) := do
  let r ← r.ensure ns.sum
  read_each read r ns

/-- Groups of reads, one after the other. -/
def read_groups : ReverseBitReader → List (List Nat) → Res (List Nat × ReverseBitReader)
  | r, [] => pure ([], r)
  | r, g :: gs => do
    let (vs, r) ← read_group r g
    let (ws, r) ← read_groups r gs
    pure (vs ++ ws, r)

/-- The values that were read. -/
def values (x : Res (List Nat × ReverseBitReader)) : Res (List Nat) := x.map Prod.fst

variable {r r' : ReverseBitReader} {s : BitStack} {n : Nat} {ns : List Nat}
  {f : ReverseBitReader → Nat → Res (Nat × ReverseBitReader)}

theorem read_each_append (ms : List Nat) : read_each f r (ns ++ ms) = (do
    let (vs, r) ← read_each f r ns
    let (ws, r) ← read_each f r ms
    pure (vs ++ ws, r)) := by
  induction ns generalizing r with
  | nil =>
    rw [List.nil_append, read_each, pure_eq_ok, bind_ok]
    dsimp only
    cases read_each f r ms with
    | error e => rfl
    | ok p => rfl
  | cons n ns ih =>
    rw [List.cons_append, read_each, read_each]
    cases f r n with
    | error e => rfl
    | ok p =>
      simp only [bind_ok]
      rw [ih]
      cases read_each f p.2 ns with
      | error e => rfl
      | ok q =>
        simp only [bind_ok, pure_eq_ok]
        cases read_each f q.2 ms with
        | error e => rfl
        | ok t => rfl

/-- A lazy read is a group of its own. -/
theorem read_each_lazy (r : ReverseBitReader) (ns : List Nat) :
    read_each read_lazy r ns = read_groups r (ns.map fun n => [n]) := by
  induction ns generalizing r with
  | nil => rfl
  | cons n ns ih =>
    rw [List.map_cons, read_each, read_groups, read_group, read_lazy, List.sum_singleton]
    cases r.ensure n with
    | error e => rfl
    | ok p =>
      simp only [bind_ok]
      rw [read_each]
      cases p.read n with
      | error e => rfl
      | ok q =>
        simp only [bind_ok, read_each, pure_eq_ok]
        rw [ih]
        rfl

/-! ## Reads within the stream -/

/-- Reading by `f` pops the bits that a reader holds. -/
def Pops (f : ReverseBitReader → Nat → Res (Nat × ReverseBitReader)) : Prop :=
  ∀ (r : ReverseBitReader) (s : BitStack) (n : Nat), r.Holds s → n ≤ 32 → n ≤ s.len →
    ∃ r', f r n = .ok (s.top n, r') ∧ r'.Holds (s.pop n)

theorem pops_lazy : Pops read_lazy := by
  intro r s n h hn hs
  obtain ⟨r', hr, hh, -⟩ := h.read_lazy hn hs
  exact ⟨r', hr, hh⟩

theorem pops_eager : Pops read_eager := by
  intro r s n h hn hs
  obtain ⟨st, r₁, hr₁, hh₁, -, hfit, -⟩ := h.reload
  obtain ⟨r₂, hr₂, hh₂, -⟩ := hh₁.read hn hs (hfit n (by omega) hs)
  exact ⟨r₂, by rw [read_eager, hr₁, bind_ok, hr₂], hh₂⟩

/-- The reads return the fields of the bits held. -/
theorem Holds.each (hf : Pops f) (h : r.Holds s) (hns : ∀ n ∈ ns, n ≤ 32) (hsum : ns.sum ≤ s.len) :
    ∃ r' s', read_each f r ns = .ok (fields s.bits ns, r') ∧ r'.Holds s' ∧ s'.len = s.len -
      ns.sum := by
  induction ns generalizing r s with
  | nil => exact ⟨r, s, rfl, h, rfl⟩
  | cons n ns ih =>
    obtain ⟨hn, hns⟩ := List.forall_mem_cons.mp hns
    rw [List.sum_cons] at hsum
    obtain ⟨r₁, hr₁, hh₁⟩ := hf r s n h hn (by omega)
    obtain ⟨r₂, s₂, hr₂, hh₂, hlen⟩ := ih hh₁ hns (by rw [BitStack.pop_len]; omega)
    obtain ⟨htop, hdrop⟩ := s.bits_eq (n := n) (by omega)
    refine ⟨r₂, s₂, ?_, hh₂, by rw [hlen, BitStack.pop_len, List.sum_cons]; omega⟩
    rw [ReverseBitReader.read_each, hr₁, bind_ok]
    simp only
    rw [hr₂, bind_ok, fields, htop, hdrop]
    rfl

/-! ## Reads at one position -/

/-- The next `n` bits are in the window, or the window does not move any more. -/
def Fits (r : ReverseBitReader) (n : Nat) : Prop := r.bits_consumed + n ≤ 64 ∨ r.ptr = 0

/-- Readers at one position, whose counters have not overflowed. -/
structure Paired (r r' : ReverseBitReader) : Prop where
  same : SamePosition r r'
  consumed : r.bits_consumed < 2 ^ 32
  consumed' : r'.bits_consumed < 2 ^ 32

theorem SamePosition.eq_of_ptr (h : SamePosition r r') (hp : r.ptr = 0) (hp' : r'.ptr = 0) : r' =
    r := by
  have hbits := h.bits
  have hwin : r'.container = r.container := by
    rw [h.valid'.window, h.valid.window, hp, hp', h.src]
  have hcon : r'.bits_consumed = r.bits_consumed := by omega
  have hsrc := h.src
  cases r
  cases r'
  simp only at hp hp' hwin hcon hsrc
  rw [hp, hp', hwin, hcon, hsrc]

/-- Either both windows hold the next `n` bits, or there is one reader. -/
theorem SamePosition.fits_cases (h : SamePosition r r') (hf : r.Fits n) (hf' : r'.Fits n) :
    r.bits_consumed + n ≤ 64 ∧ r'.bits_consumed + n ≤ 64 ∨ r' = r := by
  have hbits := h.bits
  by_cases hp : r.ptr = 0
  · by_cases hp' : r'.ptr = 0
    · exact Or.inr (h.eq_of_ptr hp hp')
    · have hle := hf'.resolve_right hp'
      exact Or.inl ⟨by omega, hle⟩
  · have hle := hf.resolve_right hp
    rcases hf' with hle' | hp'
    · exact Or.inl ⟨hle, hle'⟩
    · exact Or.inl ⟨hle, by omega⟩

/-- A read at one position returns one value, or overflows the counter of either reader. -/
theorem Paired.one (h : Paired r r') (hn : n ≤ 32) (hf : r.Fits n) (hf' : r'.Fits n) :
    (∃ v, r.read n = .ok (v, { r with bits_consumed := r.bits_consumed + n }) ∧
        r'.read n = .ok (v, { r' with bits_consumed := r'.bits_consumed + n }) ∧
        Paired { r with bits_consumed := r.bits_consumed + n }
          { r' with bits_consumed := r'.bits_consumed + n }) ∨
      r.read n = crash .overflow ∧ r'.read n = crash .overflow := by
  rcases h.same.fits_cases hf hf' with ⟨hle, hle'⟩ | rfl
  · left
    obtain ⟨v, hv, -⟩ := r.read_valid hn (by omega)
    obtain ⟨v', hv', -⟩ := r'.read_valid hn (by omega)
    have hpeek := h.same.peek hn hle hle'
    have heq : v' = v := by
      rw [ReverseBitReader.read] at hv hv'
      obtain ⟨x, hx, hv⟩ := bind_eq_ok.mp hv
      obtain ⟨x', hx', hv'⟩ := bind_eq_ok.mp hv'
      obtain ⟨_, _, hv⟩ := bind_eq_ok.mp hv
      obtain ⟨_, _, hv'⟩ := bind_eq_ok.mp hv'
      rw [← (Prod.mk.inj (Except.ok.inj hv)).1, ← (Prod.mk.inj (Except.ok.inj hv')).1]
      exact Except.ok.inj (hx'.symm.trans (hpeek.symm.trans hx))
    rw [heq] at hv'
    exact ⟨v, hv, hv', h.same.consume n (Or.inl hle) (Or.inl hle'), by simp only; omega,
      by simp only; omega⟩
  · by_cases hover : r'.bits_consumed + n < 2 ^ 32
    · obtain ⟨v, hv, -⟩ := r'.read_valid hn hover
      exact Or.inl ⟨v, hv, hv, h.same.consume n hf hf', hover, hover⟩
    · obtain ⟨v, hv, -⟩ := r'.peek_lt hn
      have hcrash : r'.read n = crash .overflow := by
        rw [ReverseBitReader.read, hv, bind_ok, ReverseBitReader.consume, add, if_neg hover]
        rfl
      exact Or.inr ⟨hcrash, hcrash⟩

/-- Two sequences of reads return the same values and leave paired readers, or both overflow. -/
def Agree (x y : Res (List Nat × ReverseBitReader)) : Prop :=
  (∃ vs r r', x = .ok (vs, r) ∧ y = .ok (vs, r') ∧ Paired r r') ∨
    x = crash .overflow ∧ y = crash .overflow

theorem Agree.values {x y : Res (List Nat × ReverseBitReader)} (h : Agree x y) : values x =
    values y := by
  rcases h with ⟨vs, r, r', rfl, rfl, -⟩ | ⟨rfl, rfl⟩ <;> rfl

/-- A reload for every read does the same as none when the window has all the bits. -/
theorem Paired.each (h : Paired r r') (hns : ∀ n ∈ ns, n ≤ 32) (h57 : ns.sum ≤ 57)
    (hf : r'.Fits ns.sum) : Agree (read_each read_eager r ns) (read_each read r' ns) := by
  induction ns generalizing r r' with
  | nil => exact Or.inl ⟨[], r, r', rfl, rfl, h⟩
  | cons n ns ih =>
    obtain ⟨hn, hns⟩ := List.forall_mem_cons.mp hns
    rw [List.sum_cons] at hf h57
    obtain ⟨st, r₁, hr₁, hs₁⟩ := reload_spec h.same.valid
    obtain ⟨_, _, _, hr₁', -, hsame, hfresh, hle, -⟩ := h.same.reload
    obtain ⟨-, rfl⟩ := Prod.mk.inj (Except.ok.inj (hr₁.symm.trans hr₁'))
    have hc := h.consumed
    have hpair : Paired r₁ r' := ⟨hsame.symm.trans h.same, by omega, h.consumed'⟩
    have hfit₁ : r₁.Fits n := by
      rcases hfresh with h7 | h0
      · exact Or.inl (by omega)
      · exact Or.inr h0
    have hfit' : r'.Fits n := hf.imp (by omega) id
    rw [ReverseBitReader.read_each, ReverseBitReader.read_each, read_eager, hr₁, bind_ok]
    rcases hpair.one hn hfit₁ hfit' with ⟨v, hv, hv', hnext⟩ | ⟨hv, hv'⟩
    · rw [hv, hv', bind_ok, bind_ok]
      simp only
      rcases ih hnext hns (by omega) (hf.imp (by simp only; omega) id) with
        ⟨vs, q, q', hq, hq', hpair'⟩ | ⟨hq, hq'⟩
      · rw [hq, hq']
        exact Or.inl ⟨v :: vs, q, q', rfl, rfl, hpair'⟩
      · rw [hq, hq']
        exact Or.inr ⟨rfl, rfl⟩
    · rw [hv, hv']
      exact Or.inr ⟨rfl, rfl⟩

/-- Past the start of the stream, eager reads overflow the counter when their sum does. -/
theorem read_eager_overflow (hv : r.Valid) (h64 : 64 < r.bits_consumed)
    (hc : r.bits_consumed < 2 ^ 32) (hns : ∀ n ∈ ns, n ≤ 32)
    (hover : 2 ^ 32 ≤ r.bits_consumed + ns.sum) :
    read_each read_eager r ns = crash .overflow := by
  induction ns generalizing r with
  | nil =>
    rw [List.sum_nil] at hover
    omega
  | cons n ns ih =>
    obtain ⟨hn, hns⟩ := List.forall_mem_cons.mp hns
    rw [List.sum_cons] at hover
    obtain ⟨v, hp, -⟩ := r.peek_lt hn
    have hreload : r.reload = .ok (.Overflow, r) := by
      rw [reload, if_pos h64]
      rfl
    rw [ReverseBitReader.read_each, read_eager, hreload, bind_ok, ReverseBitReader.read, hp,
      bind_ok,
      ReverseBitReader.consume, add]
    by_cases hfit : r.bits_consumed + n < 2 ^ 32
    · rw [if_pos hfit, bind_ok, pure_eq_ok, bind_ok, pure_eq_ok, bind_ok]
      simp only
      rw [ih (hv.consume n) (by simp only; omega) hfit hns (by simp only; omega)]
      rfl
    · rw [if_neg hfit]
      rfl

theorem Paired.group (h : Paired r r') (hns : ∀ n ∈ ns, n ≤ 32) (h57 : ns.sum ≤ 57) :
    Agree (read_each read_eager r ns) (read_group r' ns) := by
  have hbits := h.same.bits
  rw [ReverseBitReader.read_group, ensure, add]
  by_cases hover : r'.bits_consumed + ns.sum < 2 ^ 32
  · rw [if_pos hover, bind_ok]
    by_cases h64 : 64 < r'.bits_consumed + ns.sum
    · obtain ⟨st, st', r₁, hr₁, hr₁', hsame, hfresh, hle, -⟩ := h.same.reload
      have hc := h.consumed
      rw [if_pos h64, hr₁', bind_ok]
      exact Paired.each ⟨hsame, hc, by simp only; omega⟩ hns h57
        (hfresh.imp (by simp only; omega) id)
    · rw [if_neg h64]
      exact h.each hns h57 (Or.inl (by omega))
  · -- the readers are past the start, where they are the same
    rw [if_neg hover]
    have hc' := h.consumed'
    have hp' : r'.ptr = 0 := h.same.settled'.resolve_left (by omega)
    have hp : r.ptr = 0 := h.same.settled.resolve_left (by omega)
    obtain rfl := h.same.eq_of_ptr hp hp'
    exact Or.inr ⟨read_eager_overflow h.same.valid (by omega) hc' hns (by omega), rfl⟩

theorem Paired.groups {gs : List (List Nat)} (h : Paired r r')
    (hgs : ∀ g ∈ gs, (∀ n ∈ g, n ≤ 32) ∧ g.sum ≤ 57) :
    Agree (read_each read_eager r gs.flatten) (read_groups r' gs) := by
  induction gs generalizing r r' with
  | nil => exact Or.inl ⟨[], r, r', rfl, rfl, h⟩
  | cons g gs ih =>
    obtain ⟨⟨hns, h57⟩, hgs⟩ := List.forall_mem_cons.mp hgs
    rw [List.flatten_cons, read_each_append, ReverseBitReader.read_groups]
    rcases h.group hns h57 with ⟨vs, q, q', hq, hq', hpair⟩ | ⟨hq, hq'⟩
    · rw [hq, hq', bind_ok, bind_ok]
      simp only
      rcases ih hpair hgs with ⟨ws, t, t', ht, ht', hpair'⟩ | ⟨ht, ht'⟩
      · rw [ht, ht']
        exact Or.inl ⟨vs ++ ws, t, t', rfl, rfl, hpair'⟩
      · rw [ht, ht']
        exact Or.inr ⟨rfl, rfl⟩
    · rw [hq, hq']
      exact Or.inr ⟨rfl, rfl⟩

/-- A stream with a sentinel, and the bits below it. -/
theorem new_paired {src : Bytes} (hlen : src.length < 2 ^ 63) (hs : HasSentinel src) :
    ∃ r s, new src = .ok r ∧ r.Holds s ∧ s.bits = below_sentinel src ∧
      r.src.length = s.len / 8 + 1 ∧ Paired r r := by
  obtain ⟨h0, hz⟩ := hs
  have hlog : Nat.log2 src[src.length - 1].toNat < 8 := (Nat.log2_lt hz).mpr (UInt8.toNat_lt_256 _)
  have hlast := leNat_div_last h0
  obtain ⟨k, hk⟩ : ∃ k, 8 * (src.length - 1) + Nat.log2 src[src.length - 1].toNat = k := ⟨_, rfl⟩
  -- the sentinel is the highest bit of the number
  have hdiv : leNat src / 2 ^ k = 1 := by
    rw [← hk, pow_add, ← Nat.div_div_eq_div_mul, hlast]
    exact Nat.div_eq_of_lt_le (by rw [Nat.one_mul]; exact Nat.log2_self_le hz)
      (by rw [show 1 + 1 = 2 from rfl, ← pow_succ']; exact Nat.lt_log2_self)
  have hval : leNat src = leNat src % 2 ^ k + 2 ^ k := by
    have h := Nat.mod_add_div (leNat src) (2 ^ k)
    rw [hdiv, Nat.mul_one] at h
    exact h.symm
  obtain ⟨s, hsval, hslen⟩ : ∃ s : BitStack, s.val = leNat src % 2 ^ k ∧ s.len = k :=
    ⟨⟨_, k, Nat.mod_lt _ (by positivity)⟩, rfl, rfl⟩
  have hval' : leNat src = s.val + 2 ^ s.len := by rw [hsval, hslen]; exact hval
  obtain ⟨r, hr, hsrc, hh⟩ := new_holds (s := s) hlen (by omega) hval'
  refine ⟨r, s, hr, hh, (BitStack.bits_of_sentinel (by omega) hval').symm, by rw [hsrc]; omega, ?_⟩
  have hc := hh.consumed
  exact ⟨SamePosition.refl hh.valid (Or.inl hc), by omega, by omega⟩

/-- Refilling only when a read, or a group of reads, does not fit the window returns what refilling
before every read does; within the stream these are the fields of its bits. A byte string holds less
than `2 ^ 63` bytes. -/
theorem lazy_reads_eq_eager (src : Bytes) (hlen : src.length < 2 ^ 63) (hs : HasSentinel src) :
    ∃ r, new src = .ok r ∧
      (∀ ns : List Nat, (∀ n ∈ ns, n ≤ 32) →
        values (read_each read_lazy r ns) = values (read_each read_eager r ns)) ∧
      (∀ gs : List (List Nat), (∀ g ∈ gs, (∀ n ∈ g, n ≤ 32) ∧ g.sum ≤ 57) →
        values (read_groups r gs) = values (read_each read_eager r gs.flatten)) ∧
      ∀ ns : List Nat, (∀ n ∈ ns, n ≤ 32) → ns.sum ≤ (below_sentinel src).length →
        values (read_each read_lazy r ns) = .ok (fields (below_sentinel src) ns) ∧
          values (read_each read_eager r ns) = .ok (fields (below_sentinel src) ns) := by
  obtain ⟨r, s, hr, hh, hbits, -, hpair⟩ := new_paired hlen hs
  refine ⟨r, hr, fun ns hns => ?_, fun gs hgs => ((hpair.groups hgs).values).symm,
    fun ns hns hsum => ?_⟩
  · have hagree := @Paired.groups _ _ (ns.map fun n => [n]) hpair fun g hg => by
      obtain ⟨n, hn, rfl⟩ := List.mem_map.mp hg
      have hle := hns n hn
      exact ⟨by simpa using hle, by rw [List.sum_singleton]; omega⟩
    rw [read_each_lazy, ← hagree.values]
    congr 2
    rw [← List.flatMap_def, List.flatMap_singleton']
  · rw [← hbits, BitStack.length_bits] at hsum
    rw [← hbits]
    obtain ⟨_, _, hlazy, -, -⟩ := hh.each pops_lazy hns hsum
    obtain ⟨_, _, heager, -, -⟩ := hh.each pops_eager hns hsum
    rw [hlazy, heager]
    exact ⟨rfl, rfl⟩

/-- `lazy_reads_eq_eager` on a stream of two bytes. -/
theorem lazy_reads_eq_eager_two_bytes : ∃ r, new [0xA5, 0x03] = .ok r ∧
    values (read_each read_lazy r [3, 32, 32]) = values (read_each read_eager r [3, 32, 32]) := by
  obtain ⟨r, hr, hlazy, -⟩ := lazy_reads_eq_eager [0xA5, 0x03] (by decide) ⟨by decide, by decide⟩
  exact ⟨r, hr, hlazy [3, 32, 32] (by decide)⟩

end ReverseBitReader

/-! ## Reading what was written -/

namespace Encode.BitWriter

open ReverseBitReader

/-- Fields that are added, and flushes of whole bytes between them. -/
def write_ops (w : BitWriter) (ops : List (Option (Nat × Nat))) : BitWriter :=
  ops.foldl (fun w op =>
    match op with
    | some f => w.add f.1 f.2
    | none => w.flush_full_bytes) w

/-- The bits of some fields, the last one on top. -/
def pushed (fs : List (Nat × Nat)) : BitStack := fs.foldl (fun s f => s.push f.1 f.2) BitStack.empty

theorem pushed_concat (fs : List (Nat × Nat)) (f : Nat × Nat) :
    pushed (fs ++ [f]) = (pushed fs).push f.1 f.2 := by
  rw [pushed, List.foldl_append]
  rfl

theorem pushed_len (fs : List (Nat × Nat)) : (pushed fs).len = (fs.map Prod.snd).sum := by
  induction fs using List.reverseRecOn with
  | nil => rfl
  | append_singleton fs f ih =>
    rw [pushed_concat, BitStack.push_len, ih, List.map_append, List.sum_append, List.map_singleton,
      List.sum_singleton]

/-- Read from the top, the fields come last one first. -/
theorem fields_pushed (fs : List (Nat × Nat)) :
    fields (pushed fs).bits (fs.reverse.map Prod.snd) = fs.reverse.map fun f => f.1 % 2 ^ f.2 := by
  induction fs using List.reverseRecOn with
  | nil => rfl
  | append_singleton fs f ih =>
    obtain ⟨htop, hdrop⟩ := ((pushed fs).push f.1 f.2).bits_eq (n := f.2)
      (by rw [BitStack.push_len]; omega)
    rw [pushed_concat, List.reverse_append, List.reverse_singleton, List.singleton_append,
      List.map_cons,
      List.map_cons, fields, htop, hdrop, BitStack.top_push, BitStack.pop_push, ih]

/-- The writer holds the fields that were added, wherever it was flushed. -/
theorem write_ops_holds (ops : List (Option (Nat × Nat)))
    (hops : ∀ f ∈ ops.reduceOption, f.1 < 2 ^ 32 ∧ f.2 ≤ 32) :
    (write_ops new ops).Holds (pushed ops.reduceOption) := by
  induction ops using List.reverseRecOn with
  | nil => exact new_holds
  | append_singleton ops op ih =>
    rw [List.reduceOption_append] at hops ⊢
    rw [write_ops, List.foldl_append]
    have hw := ih fun f hf => hops f (List.mem_append_left _ hf)
    cases op with
    | none =>
      rw [List.reduceOption_cons_of_none, List.reduceOption_nil, List.append_nil]
      exact hw.flush_full_bytes.1
    | some f =>
      rw [List.reduceOption_cons_of_some, List.reduceOption_nil, pushed_concat]
      obtain ⟨hv, hnb⟩ := hops f
        (List.mem_append_right _ (by simp [List.reduceOption_cons_of_some]))
      exact hw.add_value hv hnb

/-- The bytes follow from the bits held. -/
theorem Holds.finish_eq {w w' : BitWriter} {s : BitStack} (h : w.Holds s) (h' : w'.Holds s) :
    w.finish = w'.finish := by
  obtain ⟨hlen, hval⟩ := h.finish
  obtain ⟨hlen', hval'⟩ := h'.finish
  exact leNat_injective (hlen.trans hlen'.symm) (hval.trans hval'.symm)

/-- The bytes only depend on the fields, nothing is shifted out of the accumulator, and the backward
reader reads the fields back, last one first, up to the start. A byte string holds less than `2 ^
63` bytes. -/
theorem write_read_inverse (ops : List (Option (Nat × Nat)))
    (hops : ∀ f ∈ ops.reduceOption, f.1 < 2 ^ 32 ∧ f.2 ≤ 32) :
    (write_ops new ops).finish = (write_ops new (ops.reduceOption.map some)).finish ∧
      ((write_ops new ops).acc < 2 ^ 64 ∧ ∀ v nb, v < 2 ^ 32 → nb ≤ 32 →
        ((write_ops new ops).make_room nb).nbits + nb < 64 ∧
          masked v nb <<< ((write_ops new ops).make_room nb).nbits < 2 ^ 64) ∧
      ((write_ops new ops).finish.length < 2 ^ 63 →
        ∃ r, ReverseBitReader.new (write_ops new ops).finish = .ok r ∧
          ∀ f ∈ [read_lazy, read_eager],
            ∃ r', read_each f r (ops.reduceOption.reverse.map Prod.snd)
                = .ok (ops.reduceOption.reverse.map fun f => f.1 % 2 ^ f.2, r') ∧
              r'.ptr = 0 ∧ r'.bits_consumed = 64) := by
  have hw := write_ops_holds ops hops
  have hfields : (ops.reduceOption.map some).reduceOption = ops.reduceOption := by
    rw [List.reduceOption, List.filterMap_map]
    exact List.filterMap_some
  have hw' := write_ops_holds (ops.reduceOption.map some) (by rwa [hfields])
  rw [hfields] at hw'
  refine ⟨hw.finish_eq hw', ⟨?_, fun v nb hv hnb => ?_⟩, fun hlen => ?_⟩
  · exact lt_of_lt_of_le hw.acc (Nat.pow_le_pow_right (by decide) (by have := hw.nbits; omega))
  · obtain ⟨-, hfit⟩ := hw.make_room hnb
    refine ⟨hfit, shift_lt ?_ hfit⟩
    rw [masked_eq hv hnb]
    exact Nat.mod_lt _ (by positivity)
  · obtain ⟨hflen, hfval⟩ := hw.finish
    obtain ⟨r, hr, -, hh⟩ := ReverseBitReader.new_holds hlen hflen hfval
    have hsum : (ops.reduceOption.reverse.map Prod.snd).sum = (pushed ops.reduceOption).len := by
      rw [pushed_len, List.map_reverse, List.sum_reverse]
    have hns : ∀ n ∈ ops.reduceOption.reverse.map Prod.snd, n ≤ 32 := by
      intro n hn
      obtain ⟨f, hf, rfl⟩ := List.mem_map.mp hn
      exact (hops f (List.mem_reverse.mp hf)).2
    have hread : ∀ f, Pops f → ∃ r', read_each f r (ops.reduceOption.reverse.map Prod.snd)
        = .ok (ops.reduceOption.reverse.map fun f => f.1 % 2 ^ f.2, r') ∧
          r'.ptr = 0 ∧ r'.bits_consumed = 64 := by
      intro f hf
      obtain ⟨r', s', hr', hh', hlen'⟩ := hh.each hf hns hsum.le
      rw [fields_pushed] at hr'
      exact ⟨r', hr', hh'.at_start (by omega)⟩
    refine ⟨r, hr, fun f hf => ?_⟩
    rcases List.mem_pair.mp hf with rfl | rfl
    · exact hread _ pops_lazy
    · exact hread _ pops_eager

/-- `write_read_inverse` for three fields with a flush between them. -/
theorem write_read_inverse_three : ∃ r,
    ReverseBitReader.new (write_ops new [some (5, 3), none, some (7, 32), some (1, 0)]).finish =
      .ok r := by
  obtain ⟨-, -, hread⟩ := write_read_inverse [some (5, 3), none, some (7, 32), some (1, 0)]
    (by decide)
  obtain ⟨r, hr, -⟩ := hread (by decide)
  exact ⟨r, hr⟩

end Encode.BitWriter

end ZstdPure
