import ZstdPure.Proofs.ChainProofs

/-!
# Proofs: the lazy parses

A position is searched with all the positions before it indexed, and never again after the parse has
gone past it.
-/

namespace ZstdPure.Encode

open Sequences

/-! ## The lazy parse of any finder -/

/-- What the lazy parse relies on: `Ok st p` says that the positions indexed in `st` are below `p`.
-/
structure LazyFinder.Sound {σ : Type} (f : LazyFinder σ) (data : Bytes) (stop : Nat)
    (Ok : σ → Nat → Prop) : Prop where
  mono : ∀ {st : σ} {p q : Nat}, Ok st p → p ≤ q → Ok st q
  insert : ∀ {st : σ} {p : Nat}, Ok st p → p + MIN_MATCH ≤ stop → Ok (f.insert st p) (p + 1)
  best : ∀ {st : σ} {p : Nat} {rep : Reps}, Ok st p → p + MIN_MATCH ≤ stop → Fits32 rep →
    ∀ ll0 : Bool, GoodMatch data p stop (f.best st p rep ll0)

namespace LazyState

section Lazy

variable {σ : Type} {f : LazyFinder σ} {data : Bytes} {start stop : Nat} {rep : Reps}
  {Ok : σ → Nat → Prop} {s : LazyState σ}

/-- The positions indexed are those below `inserted`, and the parse goes up to `anchor`. -/
structure Inv (data : Bytes) (start : Nat) (rep : Reps) (Ok : σ → Nat → Prop) (s : LazyState σ) :
    Prop where
  parses : s.out.Parses data start rep s.anchor
  anchor : s.anchor ≤ s.ip
  ok : Ok s.finder s.inserted

/-- At the start of an iteration, the parse has not been overtaken by the index. -/
structure LoopInv (data : Bytes) (start stop : Nat) (rep : Reps) (Ok : σ → Nat → Prop)
    (s : LazyState σ) : Prop where
  inv : Inv data start rep Ok s
  inserted : s.inserted ≤ s.ip
  inside : s.ip ≤ stop

theorem inserts_ok (hf : f.Sound data stop Ok) {st : σ} {p n : Nat} (h : Ok st p)
    (hin : 0 < n → p + n + 3 ≤ stop) : Ok ((List.range' p n).foldl f.insert st) (p + n) := by
  have hmin : MIN_MATCH = 4 := rfl
  refine inserts_upto (fun st q hpq hq h => hf.insert h ?_) h
  have hroom := hin (by omega)
  omega

/-- Indexing up to a position at which a match could still start. -/
theorem Inv.index_upto (hf : f.Sound data stop Ok) (h : Inv data start rep Ok s) {upto : Nat}
    (hin : upto + 3 ≤ stop) : Inv data start rep Ok (s.index_upto f upto) := by
  refine ⟨h.parses, h.anchor, ?_⟩
  exact hf.mono (inserts_ok hf h.ok (by omega)) (by show _ ≤ max s.inserted upto; omega)

/-- One step of the look-ahead: what it finds at the next position, `m`, is taken if it gains
enough. -/
theorem look_ahead_succ (f : LazyFinder σ) {ilimit : Nat} (h : s.ip < ilimit)
    (steps ml moff obits : Nat)
    {m : Nat × Nat}
    (hm : f.best (s.index_upto f (s.ip + 1)).finder (s.ip + 1) s.out.rep false = m) :
    look_ahead f ilimit (steps + 1) s ml moff obits =
      if MIN_MATCH ≤ m.1 ∧ gain ml obits + 4 < gain m.1 (offset_bits s.out.rep m.2 false) then
        look_ahead f ilimit steps { s.index_upto f (s.ip + 1) with ip := s.ip + 1 } m.1 m.2
          (offset_bits s.out.rep m.2 false)
      else (s.index_upto f (s.ip + 1), ml, moff) := by
  subst hm
  exact if_pos h

/-- The look-ahead moves on with good matches only. -/
theorem look_ahead_spec (hf : f.Sound data stop Ok) {ilimit : Nat}
    (hlimit : ilimit + MIN_MATCH ≤ stop) (steps : Nat) (h : Inv data start rep Ok s)
    (hins : s.inserted ≤ s.ip + 1) {ml moff : Nat} (hlen : MIN_MATCH ≤ ml)
    (hgood : RealMatch data s.ip ml moff ∧ s.ip + ml ≤ stop ∧ moff < 2 ^ 32) (obits : Nat) :
    ∃ s' ml' moff', look_ahead f ilimit steps s ml moff obits = (s', ml', moff') ∧
      Inv data start rep Ok s' ∧ s.ip ≤ s'.ip ∧ s'.inserted ≤ s'.ip + 1 ∧ MIN_MATCH ≤ ml' ∧
      RealMatch data s'.ip ml' moff' ∧ s'.ip + ml' ≤ stop ∧ moff' < 2 ^ 32 := by
  have hmin : MIN_MATCH = 4 := rfl
  induction steps generalizing s ml moff obits with
  | zero => exact ⟨s, ml, moff, rfl, h, le_refl _, hins, hlen, hgood⟩
  | succ steps ih =>
    by_cases hnext : s.ip < ilimit
    · have hinv := h.index_upto hf (by omega : s.ip + 1 + 3 ≤ stop)
      have hins' : (s.index_upto f (s.ip + 1)).inserted = s.ip + 1 := by
        show max s.inserted (s.ip + 1) = _
        omega
      have hok := hinv.ok
      rw [hins'] at hok
      have hbest := hf.best hok (by omega) h.parses.fits false
      generalize hm : f.best (s.index_upto f (s.ip + 1)).finder (s.ip + 1) s.out.rep false =
        m at hbest
      rw [look_ahead_succ f hnext steps ml moff obits hm]
      by_cases hgain : MIN_MATCH ≤ m.1 ∧
          gain ml obits + 4 < gain m.1 (offset_bits s.out.rep m.2 false)
      · rw [if_pos hgain]
        obtain ⟨s', ml', moff', heq, h', hle, hrest⟩ :=
          @ih { s.index_upto f (s.ip + 1) with ip := s.ip + 1 }
            ⟨hinv.parses, Nat.le_succ_of_le h.anchor, hinv.ok⟩
            (by show (s.index_upto f (s.ip + 1)).inserted ≤ s.ip + 1 + 1; omega) _ _
            hgain.1 (hbest hgain.1) (offset_bits s.out.rep m.2 false)
        exact ⟨s', ml', moff', heq, h', (Nat.le_succ _).trans hle, hrest⟩
      · rw [if_neg hgain]
        exact ⟨_, ml, moff, rfl, hinv, le_refl _, le_of_eq hins', hlen, hgood⟩
    · unfold look_ahead
      rw [if_neg hnext]
      exact ⟨s, ml, moff, rfl, h, le_refl _, hins, hlen, hgood⟩

/-- One iteration: no match at the position, or the one that the look-ahead settles on. -/
theorem parse_step_eq (f : LazyFinder σ) (data : Bytes) (stop lazy_steps : Nat) (s : LazyState σ)
    {m r : Nat × Nat} {s' : LazyState σ}
    (hm : f.best (s.index_upto f s.ip).finder s.ip s.out.rep (s.ip == s.anchor) = m)
    (hr : look_ahead f (stop - MIN_MATCH) lazy_steps (s.index_upto f s.ip) m.1 m.2
      (offset_bits s.out.rep m.2 (s.ip == s.anchor)) = (s', r)) :
    parse_step f data stop lazy_steps s =
      if m.1 < MIN_MATCH then { s.index_upto f s.ip with ip := s.ip + 1 }
      else { s'.index_upto f (min (s'.ip + r.1) (stop - MIN_MATCH + 1)) with
        ip := s'.ip + r.1, anchor := s'.ip + r.1, out := s'.out.push data s'.anchor s'.ip r.1 r.2
          } := by
  by_cases hshort : m.1 < MIN_MATCH
  · rw [if_pos hshort]
    subst hm
    exact if_pos hshort
  · rw [if_neg hshort]
    subst hm
    refine (if_neg hshort).trans ?_
    exact congrArg (fun q : LazyState σ × Nat × Nat =>
      ({ q.1.index_upto f (min (q.1.ip + q.2.1) (stop - MIN_MATCH + 1)) with
        ip := q.1.ip + q.2.1, anchor := q.1.ip + q.2.1,
        out := q.1.out.push data q.1.anchor q.1.ip q.2.1 q.2.2 } : LazyState σ)) hr

theorem parse_step_valid (hf : f.Sound data stop Ok) (hfield : stop - start < 2 ^ 32)
    (lazy_steps : Nat)
    (h : LoopInv data start stop rep Ok s)
    (hp : s.ip + MIN_MATCH ≤ stop) :
    LoopInv data start stop rep Ok (parse_step f data stop lazy_steps s) ∧
      s.ip < (parse_step f data stop lazy_steps s).ip := by
  have hmin : MIN_MATCH = 4 := rfl
  obtain ⟨hinv, hins, hinside⟩ := h
  have hinv' := hinv.index_upto hf (by omega : s.ip + 3 ≤ stop)
  have hins' : (s.index_upto f s.ip).inserted = s.ip := max_eq_right hins
  have hok := hinv'.ok
  rw [hins'] at hok
  have hbest := hf.best hok hp hinv.parses.fits (s.ip == s.anchor)
  generalize hm : f.best (s.index_upto f s.ip).finder s.ip s.out.rep (s.ip == s.anchor) = m at hbest
  obtain ⟨s', r, hr⟩ : ∃ s' r, look_ahead f (stop - MIN_MATCH) lazy_steps (s.index_upto f s.ip) m.1
    m.2
      (offset_bits s.out.rep m.2 (s.ip == s.anchor)) = (s', r) := ⟨_, _, rfl⟩
  rw [parse_step_eq f data stop lazy_steps s hm hr]
  split_ifs with hshort
  · exact ⟨⟨⟨hinv'.parses, Nat.le_succ_of_le hinv.anchor, hinv'.ok⟩,
      by show (s.index_upto f s.ip).inserted ≤ s.ip + 1; omega, by show s.ip + 1 ≤ stop; omega⟩,
      Nat.lt_succ_self _⟩
  · obtain ⟨s₁, ml, moff, heq, h', hle, hnext, hlen, hreal, hin, hoff⟩ :=
      look_ahead_spec hf (by omega : stop - MIN_MATCH + MIN_MATCH ≤ stop) lazy_steps hinv'
        (hins'.trans_le (Nat.le_succ _)) (Nat.le_of_not_lt hshort) (hbest (Nat.le_of_not_lt hshort))
        (offset_bits s.out.rep m.2 (s.ip == s.anchor))
    obtain ⟨rfl, rfl⟩ := Prod.mk.inj (hr.symm.trans heq)
    have hle : s.ip ≤ s'.ip := hle
    have hanchor := h'.anchor
    have hstart := h'.parses.replays.le
    have hpush := h'.parses.push hanchor hlen (by omega) (by omega) hoff hreal
    have hidx := h'.index_upto hf (by omega : min (s'.ip + ml) (stop - MIN_MATCH + 1) + 3 ≤ stop)
    refine ⟨⟨⟨hpush, le_refl _, hidx.ok⟩, ?_, hin⟩, by show s.ip < s'.ip + ml; omega⟩
    show max s'.inserted (min (s'.ip + ml) (stop - MIN_MATCH + 1)) ≤ s'.ip + ml
    omega

/-- A parse over earlier positions is valid, and leaves positions before its end. -/
theorem parse_block_valid (hf : f.Sound data stop Ok) (hrange : start ≤ stop)
    (hfield : stop - start < 2 ^ 32) (lazy_steps : Nat) (hrep : Fits32 rep) {finder : σ}
    (h : Ok finder start) :
    ValidParse data start stop rep (parse_block f data start stop lazy_steps rep finder).1 ∧
      Ok (parse_block f data start stop lazy_steps rep finder).2 stop := by
  have hmin : MIN_MATCH = 4 := rfl
  unfold parse_block
  split_ifs with hshort
  · exact ⟨literal_parse_valid hrange rep, hf.mono h hrange⟩
  · have hinit : LoopInv data start stop rep Ok ⟨finder, start, start, start, ⟨[], [], rep⟩⟩ :=
      ⟨⟨ParseOut.parses_start data start hrep, le_refl _, h⟩, le_refl _, hrange⟩
    obtain ⟨hinv, _⟩ := @While.iterate_upto _ _ (LoopInv data start stop rep Ok) LazyState.ip
      (stop - MIN_MATCH) _ (fun s hs => hs.inside)
      (fun s hs hp => parse_step_valid hf hfield lazy_steps hs (by omega)) _ _
      hinit (show stop ≤ start + (stop - start) by omega)
    exact ⟨hinv.inv.parses.finish (hinv.inv.anchor.trans hinv.inside),
      hf.mono hinv.inv.ok (hinv.inserted.trans hinv.inside)⟩

end Lazy

end LazyState

/-! ## The chain alone -/

theorem ChainState.lazy_sound {data : Bytes} {stop : Nat} (hstop : stop ≤ data.length)
    {max_offset : Nat} (hreach : min max_offset data.length < 2 ^ 32) (depth : Nat) :
    LazyFinder.Sound ⟨ChainState.insert asI32 data,
      fun st p => st.best_match_at data p stop max_offset depth⟩ data stop ChainState.Before := by
  constructor
  · intro st p q h hpq
    exact h.mono hpq
  · intro st p h _
    exact h.insert data
  · intro st p rep h hp hrep ll0
    exact ChainState.best_match_at_good h (by omega) hstop hreach depth hrep ll0

/-! ## The chain and the tree -/

theorem BtState.Sound.mono {data : Bytes} {p q : Nat} {st : BtState} (h : BtState.Sound data p st)
    (hpq : p ≤ q) : BtState.Sound data q st :=
  ⟨h.ring, h.length, fun k => lt_of_lt_of_le (h.older k) (by exact_mod_cast hpq),
    fun k => (h.tree k).mono (Nat.sub_le_sub_right hpq _)⟩

namespace Hybrid

/-- Both indices hold positions below `p`, and the trees are ordered. -/
structure Sound (data : Bytes) (p : Nat) (st : Hybrid) : Prop where
  chain : st.chain.Before p
  tree : BtState.Sound data p st.tree

section

variable {data : Bytes} {p stop : Nat} {st : Hybrid}

theorem Sound.mono (h : Sound data p st) {q : Nat} (hpq : p ≤ q) : Sound data q st :=
  ⟨h.chain.mono hpq, h.tree.mono hpq⟩

theorem Sound.insert (h : Sound data p st) (hp : p + MIN_MATCH ≤ stop) (hstop : stop ≤ data.length)
    (max_offset depth : Nat) :
    Sound data (p + 1) (st.insert asI32 data stop max_offset depth p) :=
  ⟨h.chain.insert data, h.tree.insert_bt1 (le_refl p) hp hstop max_offset depth⟩

/-- The match of the tree is good. -/
theorem find_longest_good {tree : BtState} (h : BtState.Sound data p tree)
    (hp : p + MIN_MATCH ≤ stop)
    (hstop : stop ≤ data.length) (max_offset depth : Nat) :
    GoodMatch data p stop ((tree.find_longest data p stop max_offset depth).1,
      p - (tree.find_longest data p stop max_offset depth).2) := by
  obtain ⟨_, ms, f, _, hbest⟩ := h.search (le_refl p) hp hstop max_offset depth
  have hring : tree.slide_period ≤ 2 ^ 23 := h.ring_size.2
  rw [hbest]
  rcases List.eq_nil_or_concat ms with rfl | ⟨init, last, rfl⟩
  · exact goodMatch_short (show 0 < MIN_MATCH by decide)
  · have hmem : last ∈ init.concat last := by simp
    obtain ⟨_, hin, hoff, hreal⟩ := f.real hmem
    rw [List.concat_eq_append, BtState.best_of_append]
    exact fun _ => ⟨hreal, hin, by show p - last.2 < 2 ^ 32; omega⟩

theorem bt_best_match_good (h : Sound data p st) (hp : p + MIN_MATCH ≤ stop)
    (hstop : stop ≤ data.length) {max_offset : Nat} (hreach : min max_offset data.length < 2 ^ 32)
    (depth : Nat) {rep : Reps} (hfits : Fits32 rep) (ll0 : Bool) :
    GoodMatch data p stop (bt_best_match st.chain st.tree data p stop max_offset depth rep
      ll0) := by
  have hchain := ChainState.find_good h.chain (by omega) hstop hreach depth
  have htree := find_longest_good h.tree hp hstop max_offset depth
  have hlazy : GoodMatch data p stop
      ((bt_lazy_best st.chain st.tree data p stop max_offset depth rep ll0).1,
        p - (bt_lazy_best st.chain st.tree data p stop max_offset depth rep ll0).2) := by
    unfold bt_lazy_best
    dsimp only
    split_ifs
    · exact htree
    · exact hchain
  have hrep := @rep_match_at_good data p stop rep hfits (by omega) hstop ll0
  unfold bt_best_match
  dsimp only
  split_ifs
  · exact hrep
  · exact hlazy
  · exact goodMatch_short (by decide)

theorem lazy_sound (hstop : stop ≤ data.length) {max_offset : Nat}
    (hreach : min max_offset data.length < 2 ^ 32) (depth : Nat) :
    LazyFinder.Sound ⟨Hybrid.insert asI32 data stop max_offset depth,
      fun st p => bt_best_match st.chain st.tree data p stop max_offset depth⟩ data stop
      (fun st p => Sound data p st) := by
  constructor
  · intro st p q h hpq
    exact h.mono hpq
  · intro st p h hp
    exact h.insert hp hstop max_offset depth
  · intro st p rep h hp hrep ll0
    exact bt_best_match_good h hp hstop hreach depth hrep ll0

end

end Hybrid

end ZstdPure.Encode
