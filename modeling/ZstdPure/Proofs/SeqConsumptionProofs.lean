import ZstdPure.Proofs.ExecProofs
import ZstdPure.Proofs.ReaderEndProofs

/-!
# Sequence bitstreams that are used up

The reader of the sequences ends at the start of its stream exactly when the bits below the sentinel
are the first states and, for every sequence, its extra bits and the bits of the states after it. -/

namespace ZstdPure.Sequences

open Outcome Fse BitString ReverseBitReader

/-- The number of extra bits of some codes. -/
def extra_bits (ll_code ml_code of_code : Nat) : Nat :=
  of_code + ML_BITS.getD ml_code 0 + LL_BITS.getD ll_code 0

/-- The bits of `n` sequences from given states on: extra bits, and the bits of the next states
unless the sequence is the last one. -/
inductive SeqBits (ll of ml : FseDecodeTable) : Nat → Nat → Nat → Nat → List Bool → Prop
  | last {s_ll s_of s_ml : Nat} {e_ll e_of e_ml : FseEntry} {extra : List Bool}
      (h_ll : entry s_ll ll = .ok e_ll) (h_of : entry s_of of = .ok e_of)
      (h_ml : entry s_ml ml = .ok e_ml) (codes : CodesInRange e_ll.symbol e_ml.symbol e_of.symbol)
      (h_extra : extra.length = extra_bits e_ll.symbol e_ml.symbol e_of.symbol) :
      SeqBits ll of ml 1 s_ll s_of s_ml extra
  | more {n s_ll s_of s_ml : Nat} {e_ll e_of e_ml : FseEntry} {extra u_ll u_ml u_of rest :
      List Bool}
      (h_ll : entry s_ll ll = .ok e_ll) (h_of : entry s_of of = .ok e_of)
      (h_ml : entry s_ml ml = .ok e_ml) (codes : CodesInRange e_ll.symbol e_ml.symbol e_of.symbol)
      (h_extra : extra.length = extra_bits e_ll.symbol e_ml.symbol e_of.symbol)
      (hu_ll : u_ll.length = e_ll.num_bits) (hu_ml : u_ml.length = e_ml.num_bits)
      (hu_of : u_of.length = e_of.num_bits)
      (h : SeqBits ll of ml (n + 1) (e_ll.new_state_base + value u_ll)
        (e_of.new_state_base + value u_of)
        (e_ml.new_state_base + value u_ml) rest) :
      SeqBits ll of ml (n + 2) s_ll s_of s_ml (extra ++ (u_ll ++ (u_ml ++ (u_of ++ rest))))

variable {r r' : ReverseBitReader} {x : Option BitStack}

/-! ## One sequence -/

theorem read_triple_at {ll_code ml_code of_code : Nat} {t : Triple}
    (hcodes : CodesInRange ll_code ml_code of_code) (h : r.At x)
    (hr : read_triple ll_code ml_code of_code r = .ok (t, r')) :
    r'.At (popped x (extra_bits ll_code ml_code of_code)) := by
  have hll : ll_code < LL_BITS.length := hcodes.ll
  have hml : ml_code < ML_BITS.length := hcodes.ml
  have hlbits := (base_bits_le.1 ll_code hll).2
  have hmbits := (base_bits_le.2 ml_code hml).2
  rw [read_triple] at hr
  obtain ⟨_, -, hr⟩ := bind_eq_ok.mp hr
  obtain ⟨⟨v₁, r₁⟩, h₁, hr⟩ := bind_eq_ok.mp hr
  obtain ⟨_, -, hr⟩ := bind_eq_ok.mp hr
  obtain ⟨_, -, hr⟩ := bind_eq_ok.mp hr
  rw [get_eq_getD hml, bind_ok] at hr
  obtain ⟨⟨v₂, r₂⟩, h₂, hr⟩ := bind_eq_ok.mp hr
  obtain ⟨_, -, hr⟩ := bind_eq_ok.mp hr
  obtain ⟨_, -, hr⟩ := bind_eq_ok.mp hr
  rw [get_eq_getD hll, bind_ok] at hr
  obtain ⟨⟨v₃, r₃⟩, h₃, hr⟩ := bind_eq_ok.mp hr
  obtain ⟨_, -, hr⟩ := bind_eq_ok.mp hr
  obtain ⟨-, rfl⟩ := Prod.mk.inj (Except.ok.inj hr)
  have hof := hcodes.of
  have hat₁ := (h.read_lazy (by omega) h₁).1
  have hat₂ := (hat₁.read_lazy (by omega) h₂).1
  have hat₃ := (hat₂.read_lazy (by omega) h₃).1
  rwa [popped_popped, popped_popped, ← Nat.add_assoc] at hat₃

theorem update_with_entry_at {e : FseEntry} {s : Nat} (hn : e.num_bits ≤ 32) (h : r.At x)
    (hfit : r.Fitted x e.num_bits) (hr : update_with_entry e r = .ok (s, r')) :
    r'.At (popped x e.num_bits) ∧ r'.bits_consumed = r.bits_consumed + e.num_bits ∧
      ∀ st ∈ x, e.num_bits ≤ st.len → s = e.new_state_base + st.top e.num_bits := by
  rw [update_with_entry] at hr
  obtain ⟨⟨v, r₁⟩, h₁, hr⟩ := bind_eq_ok.mp hr
  obtain ⟨k, hk, hr⟩ := bind_eq_ok.mp hr
  obtain ⟨rfl, rfl⟩ := Prod.mk.inj (Except.ok.inj hr)
  obtain ⟨-, rfl⟩ := add_eq_ok.mp hk
  obtain ⟨hat, hc, hval⟩ := h.read hn hfit h₁
  exact ⟨hat, hc, fun st hx hlen => by rw [hval st hx hlen]⟩

/-- The states after a sequence, and the bits left. -/
structure NextStates (e_ll e_of e_ml : FseEntry) (x : Option BitStack) (r : SeqReader) : Prop where
  at_ : r.br.At (popped x (e_ll.num_bits + (e_ml.num_bits + e_of.num_bits)))
  states : ∀ st ∈ x, e_ll.num_bits + (e_ml.num_bits + e_of.num_bits) ≤ st.len →
    r.s_ll = e_ll.new_state_base + st.top e_ll.num_bits ∧
    r.s_ml = e_ml.new_state_base + (st.pop e_ll.num_bits).top e_ml.num_bits ∧
    r.s_of = e_of.new_state_base + ((st.pop e_ll.num_bits).pop e_ml.num_bits).top e_of.num_bits

theorem updates_at {e_ll e_of e_ml : FseEntry} {s_ll s_of s_ml : Nat} {r₁ r₂ r₃ : ReverseBitReader}
    (h9 : e_ll.num_bits ≤ 9 ∧ e_of.num_bits ≤ 9 ∧ e_ml.num_bits ≤ 9) (h : r.At x)
    (hfit : r.Fitted x (e_ll.num_bits + (e_ml.num_bits + e_of.num_bits)))
    (h₁ : update_with_entry e_ll r = .ok (s_ll, r₁))
    (h₂ : update_with_entry e_ml r₁ = .ok (s_ml, r₂))
    (h₃ : update_with_entry e_of r₂ = .ok (s_of, r₃)) :
    NextStates e_ll e_of e_ml x ⟨r₃, s_ll, s_of, s_ml⟩ := by
  obtain ⟨hll, hof, hml⟩ := h9
  obtain ⟨hat₁, hc₁, hv₁⟩ := update_with_entry_at (by omega) h (hfit.mono (by omega)) h₁
  have hfit₁ := hfit.after hc₁
  obtain ⟨hat₂, hc₂, hv₂⟩ := update_with_entry_at (by omega) hat₁ (hfit₁.mono (by omega)) h₂
  obtain ⟨hat₃, -, hv₃⟩ := update_with_entry_at (by omega) hat₂ (hfit₁.after hc₂) h₃
  refine ⟨?_, fun st hx hlen => ⟨hv₁ st hx (by omega), hv₂ _ ?_ ?_, hv₃ _ ?_ ?_⟩⟩
  · rw [popped_popped, popped_popped] at hat₃
    exact hat₃
  · exact popped_eq_some.mpr ⟨st, hx, by omega, rfl⟩
  · rw [BitStack.pop_len]
    omega
  · exact popped_eq_some.mpr
      ⟨_, popped_eq_some.mpr ⟨st, hx, by omega, rfl⟩, by rw [BitStack.pop_len]; omega, rfl⟩
  · rw [BitStack.pop_len, BitStack.pop_len]
    omega

variable {p : Plan} {sr sr' : SeqReader} {t : Triple}

/-- One iteration of the reads, from its table entries. -/
theorem read_step_at (hp : p.Valid) {more : Bool} (h : sr.br.At x)
    (hr : p.read_step more sr = .ok (t, sr')) :
    ∃ e_ll e_of e_ml, entry sr.s_ll p.ll_table = .ok e_ll ∧ entry sr.s_of p.of_table = .ok e_of ∧
      entry sr.s_ml p.ml_table = .ok e_ml ∧ CodesInRange e_ll.symbol e_ml.symbol e_of.symbol ∧
      (more = false → sr'.br.At (popped x (extra_bits e_ll.symbol e_ml.symbol e_of.symbol))) ∧
      (more = true →
        NextStates e_ll e_of e_ml (popped x (extra_bits e_ll.symbol e_ml.symbol e_of.symbol))
          sr') := by
  obtain ⟨e_ll, hll, h₁⟩ := entry_spec hp.ll sr.s_ll
  obtain ⟨e_ml, hml, h₂⟩ := entry_spec hp.ml sr.s_ml
  obtain ⟨e_of, hof, h₃⟩ := entry_spec hp.of sr.s_of
  have hnll := hp.ll.num_bits_le hll
  have hnml := hp.ml.num_bits_le hml
  have hnof := hp.of.num_bits_le hof
  rw [Plan.read_step, h₁, bind_ok, h₂, bind_ok, h₃, bind_ok] at hr
  obtain ⟨hrange, hr⟩ := guard_eq_ok.mp hr
  have hcodes : CodesInRange e_ll.symbol e_ml.symbol e_of.symbol := by
    constructor <;> omega
  obtain ⟨⟨t', br⟩, htriple, hr⟩ := bind_eq_ok.mp hr
  have hat := read_triple_at hcodes h htriple
  refine ⟨e_ll, e_of, e_ml, h₁, h₃, h₂, hcodes, ?_, ?_⟩
  · rintro rfl
    dsimp only at hr
    rw [if_neg (by simp)] at hr
    obtain ⟨-, rfl⟩ := Prod.mk.inj (Except.ok.inj hr)
    exact hat
  · rintro rfl
    dsimp only at hr
    rw [if_pos rfl, add_ok (by omega), bind_ok, add_ok (by omega), bind_ok] at hr
    obtain ⟨b₁, hens, hr⟩ := bind_eq_ok.mp hr
    obtain ⟨⟨s_ll, b₂⟩, hu₁, hr⟩ := bind_eq_ok.mp hr
    obtain ⟨⟨s_ml, b₃⟩, hu₂, hr⟩ := bind_eq_ok.mp hr
    obtain ⟨⟨s_of, b₄⟩, hu₃, hr⟩ := bind_eq_ok.mp hr
    obtain ⟨-, rfl⟩ := Prod.mk.inj (Except.ok.inj hr)
    obtain ⟨hat₁, hfit⟩ := hat.ensure (by omega) hens
    rw [Nat.add_assoc] at hfit
    exact updates_at ⟨hnll, hnof, hnml⟩ hat₁ hfit hu₁ hu₂ hu₃

/-! ## All sequences -/

section Bits

variable {ll of ml : FseDecodeTable} {n s_ll s_of s_ml : Nat} {e_ll e_of e_ml : FseEntry}

theorem seqBits_one (h_ll : entry s_ll ll = .ok e_ll) (h_of : entry s_of of = .ok e_of)
    (h_ml : entry s_ml ml = .ok e_ml) (codes : CodesInRange e_ll.symbol e_ml.symbol e_of.symbol)
    {bs : List Bool} : SeqBits ll of ml 1 s_ll s_of s_ml bs ↔
      bs.length = extra_bits e_ll.symbol e_ml.symbol e_of.symbol := by
  constructor
  · intro h
    cases h with
    | last h_ll' h_of' h_ml' _ h_extra =>
      rw [h_ll] at h_ll'
      rw [h_of] at h_of'
      rw [h_ml] at h_ml'
      rw [h_extra, Except.ok.inj h_ll', Except.ok.inj h_of', Except.ok.inj h_ml']
  · exact SeqBits.last h_ll h_of h_ml codes

theorem top_of_append {st : BitStack} {a : Nat} {u rest : List Bool} (h : st.bits = u ++ rest)
    (ha : u.length = a) : a ≤ st.len ∧ value u = st.top a ∧ rest = (st.pop a).bits := by
  have hle : a ≤ st.len := by
    rw [← st.length_bits, h, List.length_append]
    omega
  obtain ⟨htop, hdrop⟩ := st.bits_eq hle
  rw [h, List.take_left' ha] at htop
  rw [h, List.drop_left' ha] at hdrop
  exact ⟨hle, htop, hdrop⟩

theorem value_bits_top {st : BitStack} {a : Nat} (h : a ≤ st.len) : value (bits a (st.top a)) =
    st.top a := by
  rw [value_bits, Nat.mod_eq_of_lt (st.top_lt h)]

/-- The bits of a sequence and of those after it, as a stack. -/
theorem seqBits_succ (h_ll : entry s_ll ll = .ok e_ll) (h_of : entry s_of of = .ok e_of)
    (h_ml : entry s_ml ml = .ok e_ml) (codes : CodesInRange e_ll.symbol e_ml.symbol e_of.symbol)
    {st st₀ st₁ st₂ st₃ : BitStack} {k : Nat}
    (hk : extra_bits e_ll.symbol e_ml.symbol e_of.symbol = k) (h₀ : st.pop k = st₀)
    (h₁ : st₀.pop e_ll.num_bits = st₁) (h₂ : st₁.pop e_ml.num_bits = st₂)
    (h₃ : st₂.pop e_of.num_bits = st₃) :
    SeqBits ll of ml (n + 2) s_ll s_of s_ml st.bits ↔
      k + (e_ll.num_bits + (e_ml.num_bits + e_of.num_bits)) ≤ st.len ∧
      SeqBits ll of ml (n + 1) (e_ll.new_state_base + st₀.top e_ll.num_bits)
        (e_of.new_state_base + st₂.top e_of.num_bits) (e_ml.new_state_base + st₁.top e_ml.num_bits)
        st₃.bits := by
  subst h₀ h₁ h₂ h₃
  constructor
  · generalize hbs : st.bits = bs
    intro h
    cases h with
    | more h_ll' h_of' h_ml' _ h_extra hu_ll hu_ml hu_of h =>
      rw [h_ll] at h_ll'
      rw [h_of] at h_of'
      rw [h_ml] at h_ml'
      obtain rfl := Except.ok.inj h_ll'
      obtain rfl := Except.ok.inj h_of'
      obtain rfl := Except.ok.inj h_ml'
      rw [hk] at h_extra
      obtain ⟨hle₀, -, hrest⟩ := top_of_append hbs h_extra
      obtain ⟨hle₁, htop₁, hrest⟩ := top_of_append hrest.symm hu_ll
      obtain ⟨hle₂, htop₂, hrest⟩ := top_of_append hrest.symm hu_ml
      obtain ⟨hle₃, htop₃, hrest⟩ := top_of_append hrest.symm hu_of
      rw [htop₁, htop₂, htop₃, hrest] at h
      simp only [BitStack.pop_len] at hle₁ hle₂ hle₃
      exact ⟨by omega, h⟩
  · rintro ⟨hle, h⟩
    have hle₁ : e_ll.num_bits ≤ (st.pop k).len := by
      rw [BitStack.pop_len]
      omega
    have hle₂ : e_ml.num_bits ≤ ((st.pop k).pop e_ll.num_bits).len := by
      rw [BitStack.pop_len, BitStack.pop_len]
      omega
    have hle₃ : e_of.num_bits ≤ (((st.pop k).pop e_ll.num_bits).pop e_ml.num_bits).len := by
      rw [BitStack.pop_len, BitStack.pop_len, BitStack.pop_len]
      omega
    rw [st.bits_split (n := k) (by omega), BitStack.bits_split _ hle₁, BitStack.bits_split _ hle₂,
      BitStack.bits_split _ hle₃]
    refine .more h_ll h_of h_ml codes (by rw [length_bits, hk]) (length_bits _ _) (length_bits _ _)
      (length_bits _ _) ?_
    rw [value_bits_top hle₁, value_bits_top hle₂, value_bits_top hle₃]
    exact h

end Bits

/-- The reader of the sequences has finished exactly when its bits are those of the sequences. -/
theorem read_loop_finished (hp : p.Valid) : ∀ (n : Nat) (sr sr' : SeqReader) (x : Option BitStack)
    (ts : List Triple), sr.br.At x → p.read_loop (n + 1) sr = .ok (ts, sr') →
      (sr'.br.finished = true ↔ ∃ st, x = some st ∧
        SeqBits p.ll_table p.of_table p.ml_table (n + 1) sr.s_ll sr.s_of sr.s_ml st.bits) := by
  intro n
  induction n with
  | zero =>
    intro sr sr' x ts h hr
    rw [Plan.read_loop] at hr
    obtain ⟨⟨t, sr₁⟩, hstep, hr⟩ := bind_eq_ok.mp hr
    obtain ⟨-, rfl⟩ := Prod.mk.inj (Except.ok.inj hr)
    obtain ⟨e_ll, e_of, e_ml, hll, hof, hml, hcodes, hlast, -⟩ := read_step_at hp h hstep
    rw [(hlast rfl).finished_iff]
    constructor
    · rintro ⟨s, hs, h0⟩
      obtain ⟨st, rfl, hle, rfl⟩ := popped_eq_some.mp hs
      rw [BitStack.pop_len] at h0
      exact ⟨st, rfl, (seqBits_one hll hof hml hcodes).mpr (by rw [BitStack.length_bits]; omega)⟩
    · rintro ⟨st, rfl, hbits⟩
      have hlen := (seqBits_one hll hof hml hcodes).mp hbits
      rw [BitStack.length_bits] at hlen
      exact ⟨_, popped_eq_some.mpr ⟨st, rfl, hlen.ge, rfl⟩, by rw [BitStack.pop_len]; omega⟩
  | succ n ih =>
    intro sr sr' x ts h hr
    rw [Plan.read_loop] at hr
    obtain ⟨⟨t, sr₁⟩, hstep, hr⟩ := bind_eq_ok.mp hr
    obtain ⟨⟨ts', sr₂⟩, hloop, hr⟩ := bind_eq_ok.mp hr
    obtain ⟨-, rfl⟩ := Prod.mk.inj (Except.ok.inj hr)
    obtain ⟨e_ll, e_of, e_ml, hll, hof, hml, hcodes, -, hmore⟩ := read_step_at hp h hstep
    obtain ⟨hat, hstates⟩ := hmore (by simp)
    rw [ih _ _ _ _ hat hloop, popped_popped]
    generalize hk : extra_bits e_ll.symbol e_ml.symbol e_of.symbol = k at *
    -- the states that were read are those that the bits give
    have hsucc : ∀ st, x = some st → k + (e_ll.num_bits + (e_ml.num_bits + e_of.num_bits)) ≤
      st.len →
        (SeqBits p.ll_table p.of_table p.ml_table (n + 2) sr.s_ll sr.s_of sr.s_ml st.bits ↔
          SeqBits p.ll_table p.of_table p.ml_table (n + 1) sr₁.s_ll sr₁.s_of sr₁.s_ml
            (st.pop (k + (e_ll.num_bits + (e_ml.num_bits + e_of.num_bits)))).bits) := by
      intro st hx hle
      obtain ⟨h₁, h₂, h₃⟩ := hstates _ (popped_eq_some.mpr ⟨st, hx, by omega, rfl⟩)
        (by rw [BitStack.pop_len]; omega)
      rw [seqBits_succ hll hof hml hcodes hk rfl rfl rfl rfl, h₁, h₂, h₃]
      simp only [BitStack.pop_pop, Nat.add_assoc]
      exact and_iff_right hle
    constructor
    · rintro ⟨s, hs, hbits⟩
      obtain ⟨st, rfl, hle, rfl⟩ := popped_eq_some.mp hs
      exact ⟨st, rfl, (hsucc st rfl hle).mpr hbits⟩
    · rintro ⟨st, rfl, hbits⟩
      have hle := ((seqBits_succ hll hof hml hcodes hk rfl rfl rfl rfl).mp hbits).1
      exact ⟨_, popped_eq_some.mpr ⟨st, rfl, hle, rfl⟩, (hsucc st rfl hle).mp hbits⟩

/-! ## The whole bitstream -/

/-- The bitstream of the sequences as the format has it: the first states, then the sequences. -/
def SeqSource.WellFormed (q : SeqSource) : Prop :=
  ∃ i_ll i_of i_ml rest, below_sentinel q.bitstream = i_ll ++ (i_of ++ (i_ml ++ rest)) ∧
    i_ll.length = q.ll_table.table_log ∧ i_of.length = q.of_table.table_log ∧
    i_ml.length = q.ml_table.table_log ∧
    SeqBits q.ll_table q.of_table q.ml_table q.nb_seq (value i_ll) (value i_of) (value i_ml) rest

/-- The sequence loop reads what `read_loop` reads. -/
theorem exec_loop_reader (hp : p.Valid) {literals : Bytes} {dict_len max_output : Nat} :
    ∀ (n : Nat) (s s' : ExecState), s.br.Valid → s.br.bits_consumed + 90 * n ≤ 2 ^ 29 →
      exec_loop (p.env literals dict_len max_output) n s = .ok s' →
      ∃ ts, p.read_loop n s.reader = .ok (ts, s'.reader) := by
  intro n
  induction n with
  | zero =>
    intro s s' _ _ h
    obtain rfl := Except.ok.inj h
    exact ⟨[], rfl⟩
  | succ n ih =>
    intro s s' hb hc h
    obtain ⟨hread, hstep⟩ := @read_step_spec p literals dict_len max_output hp s (decide (0 < n)) hb
      (by omega)
    rw [exec_loop, hstep] at h
    obtain ⟨s₁, hs₁, h⟩ := bind_eq_ok.mp h
    obtain ⟨⟨t, r₁⟩, hr₁, hs₁⟩ := bind_eq_ok.mp hs₁
    obtain ⟨s₀, -, hs₁⟩ := bind_eq_ok.mp hs₁
    obtain rfl := Except.ok.inj hs₁
    obtain ⟨-, hv, hbits⟩ := hread.of_ok hr₁
    obtain ⟨ts, hloop⟩ := ih (s₀.reading r₁) s' hv (by
      show r₁.br.bits_consumed + 90 * n ≤ 2 ^ 29
      dsimp only at hbits
      omega) h
    rw [ExecState.reader_reading] at hloop
    exact ⟨t :: ts, by rw [Plan.read_loop, hr₁, bind_ok]; dsimp only; rw [hloop]; rfl⟩

/-- The plan has the tables and the number of sequences of its source. -/
theorem plan_tables {q : SeqSource} {p : Plan} (hplan : q.plan = .ok p) :
    p.ll_table = q.ll_table ∧ p.of_table = q.of_table ∧ p.ml_table = q.ml_table ∧
    p.nb_seq = q.nb_seq := by
  rw [SeqSource.plan] at hplan
  obtain ⟨_, -, hplan⟩ := bind_eq_ok.mp hplan
  obtain ⟨_, -, hplan⟩ := bind_eq_ok.mp hplan
  obtain ⟨_, -, hplan⟩ := bind_eq_ok.mp hplan
  obtain ⟨_, -, hplan⟩ := bind_eq_ok.mp hplan
  obtain rfl := Except.ok.inj hplan
  exact ⟨rfl, rfl, rfl, rfl⟩

/-- The first states are the first bits of the bitstream. -/
structure SeqSource.Starts (q : SeqSource) (p : Plan) (st : BitStack) : Prop where
  below : st.bits = below_sentinel q.bitstream
  at_ : p.br.At (popped (some st)
    (q.ll_table.table_log + (q.of_table.table_log + q.ml_table.table_log)))
  states : q.ll_table.table_log + (q.of_table.table_log + q.ml_table.table_log) ≤ st.len →
    p.s_ll = st.top q.ll_table.table_log ∧
    p.s_of = (st.pop q.ll_table.table_log).top q.of_table.table_log ∧
    p.s_ml = ((st.pop q.ll_table.table_log).pop q.of_table.table_log).top q.ml_table.table_log

theorem plan_starts {q : SeqSource} {p : Plan} (hlen : q.bitstream.length < 2 ^ 63)
    (h9 : q.ll_table.table_log ≤ 9 ∧ q.of_table.table_log ≤ 9 ∧ q.ml_table.table_log ≤ 9)
    (hplan : q.plan = .ok p) : ∃ st, q.Starts p st := by
  rw [SeqSource.plan] at hplan
  obtain ⟨r₀, hnew, hplan₀⟩ := bind_eq_ok.mp hplan
  obtain ⟨⟨s_ll, r₁⟩, h₁, hplan₁⟩ := bind_eq_ok.mp hplan₀
  obtain ⟨⟨s_of, r₂⟩, h₂, hplan₂⟩ := bind_eq_ok.mp hplan₁
  obtain ⟨⟨s_ml, r₃⟩, h₃, hplan₃⟩ := bind_eq_ok.mp hplan₂
  obtain ⟨r, st, hr, hst, hbelow, hsrc, -⟩ := new_paired hlen ((new_eq_ok_iff hlen).mp ⟨r₀, hnew⟩)
  obtain rfl := Except.ok.inj (hr.symm.trans hnew)
  obtain ⟨hll, hof, hml⟩ := h9
  -- the first states lie in the window of the new reader
  have hfit : r.Fitted (some st) (q.ll_table.table_log +
    (q.of_table.table_log + q.ml_table.table_log)) := by
    intro s hs m hm hle
    obtain rfl := Option.some.inj hs
    exact hst.fits_new hsrc (by omega) hle
  have hat : r.At (some st) := hst
  obtain ⟨hat₁, hc₁, hv₁⟩ := hat.read (by omega) (hfit.mono (by omega)) h₁
  have hfit₁ := hfit.after hc₁
  obtain ⟨hat₂, hc₂, hv₂⟩ := hat₁.read (by omega) (hfit₁.mono (by omega)) h₂
  obtain ⟨hat₃, -, hv₃⟩ := hat₂.read (by omega) (hfit₁.after hc₂) h₃
  rw [popped_popped, popped_popped] at hat₃
  obtain rfl := Except.ok.inj hplan₃
  refine ⟨st, hbelow, hat₃, fun hle => ⟨hv₁ st rfl (by omega), hv₂ _ ?_ ?_, hv₃ _ ?_ ?_⟩⟩
  · exact popped_eq_some.mpr ⟨st, rfl, by omega, rfl⟩
  · rw [BitStack.pop_len]
    omega
  · exact popped_eq_some.mpr
      ⟨_, popped_eq_some.mpr ⟨st, rfl, by omega, rfl⟩, by rw [BitStack.pop_len]; omega, rfl⟩
  · rw [BitStack.pop_len, BitStack.pop_len]
    omega

theorem SeqSource.Starts.wellFormed_iff {q : SeqSource} {p : Plan} {st : BitStack}
    (h : q.Starts p st) :
    q.WellFormed ↔ q.ll_table.table_log + (q.of_table.table_log + q.ml_table.table_log) ≤ st.len ∧
      SeqBits q.ll_table q.of_table q.ml_table q.nb_seq p.s_ll p.s_of p.s_ml
        (st.pop (q.ll_table.table_log + (q.of_table.table_log + q.ml_table.table_log))).bits := by
  rw [SeqSource.WellFormed, ← h.below]
  constructor
  · rintro ⟨i_ll, i_of, i_ml, rest, hbits, hi_ll, hi_of, hi_ml, hseqs⟩
    obtain ⟨hle₁, htop₁, hrest⟩ := top_of_append hbits hi_ll
    obtain ⟨hle₂, htop₂, hrest⟩ := top_of_append hrest.symm hi_of
    obtain ⟨hle₃, htop₃, hrest⟩ := top_of_append hrest.symm hi_ml
    simp only [BitStack.pop_len] at hle₁ hle₂ hle₃
    have hle : q.ll_table.table_log + (q.of_table.table_log + q.ml_table.table_log) ≤
      st.len := by omega
    obtain ⟨hs_ll, hs_of, hs_ml⟩ := h.states hle
    rw [htop₁, htop₂, htop₃, hrest] at hseqs
    rw [hs_ll, hs_of, hs_ml]
    simp only [BitStack.pop_pop, Nat.add_assoc] at hseqs ⊢
    exact ⟨hle, hseqs⟩
  · rintro ⟨hle, hseqs⟩
    obtain ⟨hs_ll, hs_of, hs_ml⟩ := h.states hle
    have hle₁ : q.of_table.table_log ≤ (st.pop q.ll_table.table_log).len := by
      rw [BitStack.pop_len]
      omega
    have hle₂ : q.ml_table.table_log ≤
      ((st.pop q.ll_table.table_log).pop q.of_table.table_log).len := by
      rw [BitStack.pop_len, BitStack.pop_len]
      omega
    have hsplit : st.bits = BitString.bits q.ll_table.table_log (st.top q.ll_table.table_log) ++
        (BitString.bits q.of_table.table_log
          ((st.pop q.ll_table.table_log).top q.of_table.table_log) ++
        (BitString.bits q.ml_table.table_log
            (((st.pop q.ll_table.table_log).pop q.of_table.table_log).top q.ml_table.table_log) ++
          (((st.pop q.ll_table.table_log).pop q.of_table.table_log).pop
            q.ml_table.table_log).bits)) := by
      rw [← BitStack.bits_split _ hle₂, ← BitStack.bits_split _ hle₁, ← st.bits_split (by omega)]
    refine ⟨_, _, _, _, hsplit, length_bits _ _, length_bits _ _, length_bits _ _, ?_⟩
    rw [value_bits_top (by omega), value_bits_top hle₁, value_bits_top hle₂, ← hs_ll, ← hs_of,
      ← hs_ml,
      BitStack.pop_pop, BitStack.pop_pop]
    exact hseqs

/-- The reader of the sequences has finished exactly when its bitstream is well formed. -/
theorem sequences_finished {q : SeqSource} {p : Plan} {literals out : Bytes} {rep : Reps}
    {dict_len max_output : Nat} {s : ExecState} (hlen : q.bitstream.length < 2 ^ 63) (hp : p.Valid)
    (hnb : q.nb_seq ≠ 0) (hplan : q.plan = .ok p)
    (h : exec_loop (p.env literals dict_len max_output) p.nb_seq (p.start out rep) = .ok s) :
    s.br.finished = true ↔ q.WellFormed := by
  obtain ⟨hll, hof, hml, hcount⟩ := plan_tables hplan
  have hlogs : q.ll_table.table_log ≤ 9 ∧ q.of_table.table_log ≤ 9 ∧ q.ml_table.table_log ≤ 9 := by
    rw [← hll, ← hof, ← hml]
    exact ⟨hp.ll.log, hp.of.log, hp.ml.log⟩
  obtain ⟨st, hst⟩ := plan_starts hlen hlogs hplan
  obtain ⟨n, hn⟩ := Nat.exists_eq_succ_of_ne_zero hnb
  have hbits := hp.bits
  have hlt := hp.nb_seq
  rw [hcount, hn] at h hlt
  obtain ⟨ts, hloop⟩ := exec_loop_reader hp (n + 1) (p.start out rep) s hp.br
    (by show p.br.bits_consumed + 90 * (n + 1) ≤ 2 ^ 29; omega) h
  have hfin := read_loop_finished hp n _ _ _ _ hst.at_ hloop
  rw [hll, hof, hml] at hfin
  rw [hst.wellFormed_iff, hn]
  refine hfin.trans ⟨?_, ?_⟩
  · rintro ⟨st', hpop, hseqs⟩
    obtain ⟨st₀, hst₀, hle, rfl⟩ := popped_eq_some.mp hpop
    obtain rfl := Option.some.inj hst₀
    exact ⟨hle, hseqs⟩
  · rintro ⟨hle, hseqs⟩
    exact ⟨_, popped_eq_some.mpr ⟨st, rfl, hle, rfl⟩, hseqs⟩

end ZstdPure.Sequences
