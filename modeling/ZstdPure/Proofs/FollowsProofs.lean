import ZstdPure.Proofs.TracksProofs

/-!
# Reads of a streaming decoder

From one block to a refill, a read and a schedule of reads: a schedule either goes along with the
one-shot block loop, or stops at an error after delivering whole blocks; and where the one-shot
decode succeeds and no match reaches beyond the window, it never stops.
-/

namespace ZstdPure

open Outcome XxHash

/-- The bytes that a read delivered. -/
def ReadResult.bytes : ReadResult → Bytes
  | .Ok bytes => bytes
  | .Err _ => []

/-- The bytes that a schedule of reads delivered. -/
def ReadResult.all (rs : List ReadResult) : Bytes := (rs.map ReadResult.bytes).flatten

theorem ReadResult.all_cons (r : ReadResult) (rs : List ReadResult) :
    ReadResult.all (r :: rs) = r.bytes ++ ReadResult.all rs := rfl

namespace StreamingDecoder

variable {src : Bytes} {header : FrameHeader} {dict : Option Dictionary}
  {d : StreamingDecoder} {p : BlockPos} {v : Bytes}

/-- The one-shot output leaves room for a block in a word; without a dictionary the decoder's own
count of bytes sees to it. -/
def Slack (src : Bytes) (header : FrameHeader) (dict : Option Dictionary) : Prop :=
  dictionary_len dict = 0 ∨ ∀ p, BlockAt src (.uncapped header dict) p →
    p.state.out.length + MAX_BLOCK_SIZE ≤ usizeMax

theorem Follows.reached (h : Follows src header dict d p v) :
    BlockAt src (.uncapped header dict) p := by
  obtain ⟨evicted, ht, -, -⟩ := h
  exact ht.reached

theorem Follows.front (h : Follows src header dict d p v) :
    v <+: p.state.out.drop (dictionary_len dict) := by
  obtain ⟨evicted, ht, -, rfl⟩ := h
  exact (List.take_prefix _ _).drop _

theorem Follows.all_of_starved (h : Follows src header dict d p v) (hstarved : d.starved = true) :
    p.last = false ∧ v = p.state.out.drop (dictionary_len dict) := by
  obtain ⟨evicted, ht, -, rfl⟩ := h
  obtain ⟨hall, hdone⟩ := (starved_iff ht.read_off).mp hstarved
  exact ⟨ht.last_done.symm.trans hdone, ht.delivered_all hall⟩

/-! ## The refill -/

/-- The body of the decode loop of `read`. -/
def decode_and_compact (d : StreamingDecoder) : Res StreamingDecoder :=
  d.decode_next_block >>= fun d => d.compact

theorem refill_eq (d : StreamingDecoder) :
    d.refill = loop starved decode_and_compact (d.src.length + 2) d := rfl

/-- A refill that succeeds goes along with the block loop and delivers nothing. -/
theorem Follows.refill_of_ok (h : Follows src header dict d p v) (hslack : Slack src header dict)
    {d' : StreamingDecoder} (hd : d.refill = .ok d') :
    ∃ p', Follows src header dict d' p' v ∧ d'.starved = false ∧ (p.last = true → p' = p) := by
  rw [refill_eq] at hd
  replace hd := Iterates.of_loop _ hd
  induction hd generalizing p with
  | stop hc => exact ⟨p, h, hc, fun _ => rfl⟩
  | @step d d₂ d' hc hbody _ ih =>
    obtain ⟨d₁, h₁, h₂⟩ := bind_eq_ok.mp hbody
    obtain ⟨p', hlast, -, hcompact, hfollows⟩ :=
      h.next_of_ok hc (hslack.imp_right fun hs => hs p h.reached) _ h₁
    rw [hcompact] at h₂
    rw [Except.ok.inj h₂] at hfollows
    obtain ⟨p'', hfollows', hstarved, -⟩ := ih hfollows
    exact ⟨p'', hfollows', hstarved, fun hl => absurd hl (by simp [hlast])⟩

/-- A refill that fails does so at a block after whole blocks that have all been delivered. -/
theorem Follows.refill_of_fail (hslack : Slack src header dict) {e : ZstdError} :
    ∀ (n : Nat) {d : StreamingDecoder} {p : BlockPos}, Follows src header dict d p v →
      loop starved decode_and_compact n d = fail e → p.last = false ∧
      ∃ p', BlockAt src (.uncapped header dict) p' ∧ p'.last = false ∧
        v = p'.state.out.drop (dictionary_len dict) := by
  intro n
  induction n with
  | zero =>
    intro d p _ hfail
    rw [loop] at hfail
    split_ifs at hfail
    · simp [crash, fail] at hfail
    · exact absurd hfail (ok_ne_fail _ _)
  | succ n ih =>
    intro d p h hfail
    by_cases hc : d.starved = true
    · rw [loop_succ_of hc, decode_and_compact] at hfail
      cases h₁ : d.decode_next_block with
      | error e' => exact ⟨(h.all_of_starved hc).1, p, h.reached, h.all_of_starved hc⟩
      | ok d₁ =>
        obtain ⟨p', hlast, -, hcompact, hfollows⟩ :=
          h.next_of_ok hc (hslack.imp_right fun hs => hs p h.reached) _ h₁
        rw [h₁, bind_ok, hcompact, bind_ok] at hfail
        exact ⟨hlast, (ih hfollows hfail).2⟩
    · rw [loop_of_not (by simpa using hc)] at hfail
      exact absurd hfail (ok_ne_fail _ _)

/-- A block moves the position on, or ends the frame. -/
theorem decode_and_compact_moves {d' : StreamingDecoder} (h : d.decode_and_compact = .ok d') :
    d'.src = d.src ∧ (d'.last_done = true ∨ d'.last_done = d.last_done ∧ d.pos < d'.pos ∧
      d'.pos ≤ d.src.length) := by
  have hcompact : ∀ {d₁ : StreamingDecoder}, Ensures d₁.compact fun d₂ =>
      d₂.src = d₁.src ∧ d₂.last_done = d₁.last_done ∧ d₂.pos = d₁.pos := by
    intro d₁
    rw [compact]
    refine ensures_ite (fun _ => ?_) fun _ => Ensures.ok ⟨rfl, rfl, rfl⟩
    exact Ensures.after fun out _ => Ensures.after fun r _ => Ensures.ok ⟨rfl, rfl, rfl⟩
  rw [decode_and_compact] at h
  obtain ⟨d₁, h₁, h₂⟩ := bind_eq_ok.mp h
  obtain ⟨hsrc, hdone, hpos⟩ := hcompact _ h₂
  rw [hsrc, hdone, hpos]
  rw [decode_next_block] at h₁
  obtain ⟨⟨s, pos, last⟩, hs, h₁⟩ := bind_eq_ok.mp h₁
  obtain ⟨produced, -, h₁⟩ := bind_eq_ok.mp h₁
  obtain ⟨hasher, -, h₁⟩ := bind_eq_ok.mp h₁
  obtain ⟨total, -, h₁⟩ := bind_eq_ok.mp h₁
  have hblock : decode_block d.src ⟨d.state, d.pos, false⟩ = .ok ⟨s, pos, last⟩ := by
    rw [decode_block, hs]
    rfl
  have hlt := decode_block_pos_lt hblock
  have hle := decode_block_pos_le hblock
  dsimp only at hlt hle h₁
  cases last with
  | false =>
    rw [if_neg (by decide)] at h₁
    obtain rfl := Except.ok.inj h₁
    exact ⟨rfl, Or.inr ⟨rfl, by simp only; omega, hle⟩⟩
  | true =>
    rw [if_pos rfl] at h₁
    obtain ⟨pos', rfl⟩ := finish_frame_ensures _ h₁
    exact ⟨rfl, Or.inl rfl⟩

/-- Where the one-shot decode goes on to its end without reaching beyond the window, the refill
succeeds. -/
theorem Follows.refill_of_run (h : Follows src header dict d p v) {q : BlockPos}
    (hrun : BlocksIterate src p q) (hword : q.state.out.length ≤ usizeMax)
    (hend : ∃ consumed, frame_end src header.content_size header.has_checksum
      (q.state.out.drop (dictionary_len dict)) q.pos = .ok consumed)
    (hwin : ∀ m ∈ q.state.matches_, 2 ≤ m.block →
      m.distance ≤ header.window_size + m.in_block) :
    ∃ d' p', d.refill = .ok d' ∧ Follows src header dict d' p' v ∧ BlocksIterate src p' q ∧
      d'.starved = false := by
  have hiter : ∃ d' p', Iterates starved decode_and_compact d d' ∧
      Follows src header dict d' p' v ∧ BlocksIterate src p' q ∧ d'.starved = false := by
    induction hrun generalizing d with
    | @stop p hc =>
      refine ⟨d, p, .stop ?_, h, .stop hc, ?_⟩ <;>
      · by_contra hs
        have := (h.all_of_starved (by simpa using hs)).1
        simp [this] at hc
    | @step p p' q hc hbody hrest ih =>
      by_cases hstarved : d.starved = true
      · have hdl : p'.state.dict_len ≤ p'.state.out.length := by
          have hreach := uncapped_at (BlockAt.next h.reached (by simpa using hc) hbody)
          omega
        have hle := (BlocksIterate.grown hrest hdl).out_extends.length_le
        obtain ⟨ms, hms⟩ := BlocksIterate.matches_extend hrest
        obtain ⟨d₁, h₁, h₂, hfollows⟩ := h.next_of_block hstarved hbody (hle.trans hword)
          (fun hlast => by
            cases hrest with
            | stop _ => exact hend
            | step hc' _ _ => simp [hlast] at hc')
          (fun m hm => hwin m (by rw [← hms]; exact List.mem_append_left _ hm))
        obtain ⟨d', p'', hd', hrest'⟩ := ih hfollows hword hend hwin
        exact ⟨d', p'', .step hstarved (by rw [decode_and_compact, h₁, bind_ok, h₂]) hd', hrest'⟩
      · have hns : d.starved = false := by simpa using hstarved
        exact ⟨d, p, .stop hns, h, .step hc hbody hrest, hns⟩
  obtain ⟨d', p', hd', hrest⟩ := hiter
  refine ⟨d', p', ?_, hrest⟩
  rw [refill_eq]
  refine hd'.loop (fun d : StreamingDecoder => if d.last_done then 0 else d.src.length - d.pos + 1)
    ?_ _
    (by split_ifs <;> omega)
  intro d₁ d₂ hc hbody
  obtain ⟨hsrc, hmoves⟩ := decode_and_compact_moves hbody
  have hdone : d₁.last_done = false := by
    rw [starved, Bool.and_eq_true, Bool.not_eq_true'] at hc
    exact hc.2
  rw [hsrc, hdone]
  rcases hmoves with hm | ⟨hm, hlt, hle⟩
  · rw [hm]
    simp
  · rw [hm, hdone]
    simp only [Bool.false_eq_true, if_false]
    omega

/-! ## Reads -/

/-- A delivery from a refilled buffer; it is empty only at the end of the frame. -/
theorem Follows.deliver (h : Follows src header dict d p v) (hstarved : d.starved = false)
    {n : Nat} (hn : 0 < n) : ∃ bytes d', d.deliver n = .ok (bytes, d') ∧
      Follows src header dict d' p (v ++ bytes) ∧
      (bytes = [] → p.last = true ∧ v = p.state.out.drop (dictionary_len dict)) := by
  obtain ⟨evicted, ht, hsettled, hv⟩ := h
  have hlen := ht.length
  have hword := ht.word
  have husize : usizeMax = 2 ^ 64 - 1 := rfl
  rw [deliver_eq ht.read_off (by omega)]
  refine ⟨_, _, rfl, ?_⟩
  by_cases hall : d.state.out.length = d.read_off
  · rw [if_pos hall, List.drop_eq_nil_of_le hall.le, List.take_nil, List.append_nil]
    refine ⟨⟨evicted, ht, hsettled, hv⟩, fun _ => ?_⟩
    have hdone : d.last_done = true := by
      by_contra hc
      rw [(starved_iff ht.read_off).mpr ⟨hall.symm, by simpa using hc⟩] at hstarved
      exact Bool.noConfusion hstarved
    exact ⟨ht.last_done.symm.trans hdone, hv.trans (ht.delivered_all hall.symm)⟩
  · have hblocks : p.state.blocks ≠ 0 := fun h0 => hall (ht.fresh h0).2.symm
    obtain ⟨hadv, hdel⟩ := ht.advance n hblocks
    obtain ⟨-, hfollows⟩ := hadv.follows hblocks
    rw [hdel, ← hv] at hfollows
    rw [if_neg hall]
    refine ⟨hfollows, fun hnil => ?_⟩
    have hread := ht.read_off
    have := congrArg List.length hnil
    rw [List.length_take, List.length_drop, List.length_nil] at this
    omega

theorem Follows.poisoned (h : Follows src header dict d p v) : d.poisoned = none := by
  obtain ⟨evicted, ht, -, -⟩ := h
  exact ht.poisoned

/-- A successful read goes along with the block loop; it is empty only at the end of the frame. -/
theorem Follows.read_of_ok (h : Follows src header dict d p v) (hslack : Slack src header dict)
    {n : Nat} (hn : 0 < n) {bytes : Bytes} {d' : StreamingDecoder}
    (hd : d.read n = .ok (.Ok bytes, d')) :
    ∃ p', Follows src header dict d' p' (v ++ bytes) ∧ (p.last = true → p' = p) ∧
      (bytes = [] → p'.last = true ∧ v = p'.state.out.drop (dictionary_len dict)) := by
  rw [StreamingDecoder.read, h.poisoned] at hd
  cases hrefill : d.refill with
  | error e =>
    rw [hrefill, bind_error] at hd
    cases e with
    | err e => simp at hd
    | fault f => exact absurd hd (by simp [crash])
  | ok d₁ =>
    obtain ⟨p', hfollows, hstarved, hsame⟩ := h.refill_of_ok hslack hrefill
    obtain ⟨bytes', d₂, hdeliver, hfollows', hempty⟩ := hfollows.deliver hstarved hn
    rw [hrefill, bind_ok, hdeliver] at hd
    obtain ⟨hb, rfl⟩ := Prod.mk.inj (Except.ok.inj hd)
    obtain rfl := ReadResult.Ok.inj hb
    exact ⟨p', hfollows', hsame, hempty⟩

/-- A read that fails does so after whole blocks, and poisons the decoder. -/
theorem Follows.read_of_err (h : Follows src header dict d p v) (hslack : Slack src header dict)
    {n : Nat} (hn : 0 < n) {msg : String} {d' : StreamingDecoder}
    (hd : d.read n = .ok (.Err msg, d')) :
    d'.poisoned = some msg ∧ p.last = false ∧ ∃ p', BlockAt src (.uncapped header dict) p' ∧
    p'.last = false ∧
      v = p'.state.out.drop (dictionary_len dict) := by
  rw [StreamingDecoder.read, h.poisoned] at hd
  cases hrefill : d.refill with
  | error e =>
    rw [hrefill, bind_error] at hd
    cases e with
    | err e =>
      obtain ⟨hmsg, rfl⟩ := Prod.mk.inj (Except.ok.inj hd)
      obtain rfl := ReadResult.Err.inj hmsg
      exact ⟨rfl, Follows.refill_of_fail hslack _ h hrefill⟩
    | fault f => exact absurd hd (by simp [crash])
  | ok d₁ =>
    obtain ⟨p', hfollows, hstarved, -⟩ := h.refill_of_ok hslack hrefill
    obtain ⟨bytes', d₂, hdeliver, -, -⟩ := hfollows.deliver hstarved hn
    rw [hrefill, bind_ok, hdeliver] at hd
    simp at hd

/-- Where the one-shot decode goes on to its end without reaching beyond the window, a read
succeeds; it is empty only after everything was delivered. -/
theorem Follows.read_of_run (h : Follows src header dict d p v) {q : BlockPos}
    (hrun : BlocksIterate src p q) (hword : q.state.out.length ≤ usizeMax)
    (hend : ∃ consumed, frame_end src header.content_size header.has_checksum
      (q.state.out.drop (dictionary_len dict)) q.pos = .ok consumed)
    (hwin : ∀ m ∈ q.state.matches_, 2 ≤ m.block →
      m.distance ≤ header.window_size + m.in_block) {n : Nat} (hn : 0 < n) :
    ∃ bytes d' p', d.read n = .ok (.Ok bytes, d') ∧
      Follows src header dict d' p' (v ++ bytes) ∧ BlocksIterate src p' q ∧
      (bytes = [] → v = q.state.out.drop (dictionary_len dict)) := by
  obtain ⟨d₁, p', hrefill, hfollows, hrest, hstarved⟩ := h.refill_of_run hrun hword hend hwin
  obtain ⟨bytes, d₂, hdeliver, hfollows', hempty⟩ := hfollows.deliver hstarved hn
  refine ⟨bytes, d₂, p', read_ok h.poisoned hrefill hdeliver, hfollows', hrest, fun hnil => ?_⟩
  obtain ⟨hlast, hall⟩ := hempty hnil
  cases hrest with
  | stop _ => exact hall
  | step hc _ _ => simp [hlast] at hc

/-! ## Schedules of reads -/

/-- A read of a schedule, and the rest of it. -/
theorem reads_cons_ok {n : Nat} {ns : List Nat} {rs : List ReadResult} {d' : StreamingDecoder}
    (h : d.reads (n :: ns) = .ok (rs, d')) : ∃ r rs' d₁, rs = r :: rs' ∧
      d.read n = .ok (r, d₁) ∧ d₁.reads ns = .ok (rs', d') := by
  rw [reads] at h
  obtain ⟨⟨r, d₁⟩, h₁, h⟩ := bind_eq_ok.mp h
  obtain ⟨⟨rs', d₂⟩, h₂, h⟩ := bind_eq_ok.mp h
  obtain ⟨rfl, rfl⟩ := Prod.mk.inj (Except.ok.inj h)
  exact ⟨r, rs', d₁, rfl, h₁, h₂⟩

/-- A schedule, from a decoder at `p` that has delivered `v`, whose reads all succeed. -/
structure Clean (src : Bytes) (header : FrameHeader) (dict : Option Dictionary) (p : BlockPos)
    (v : Bytes) (rs : List ReadResult) (d' : StreamingDecoder) (p' : BlockPos) : Prop where
  follows : Follows src header dict d' p' (v ++ ReadResult.all rs)
  ok : ∀ r ∈ rs, ∃ bytes, r = .Ok bytes
  stay : p.last = true → p' = p
  eof : .Ok [] ∈ rs →
    p'.last = true ∧ v ++ ReadResult.all rs = p'.state.out.drop (dictionary_len dict)

/-- A schedule that fails after whole blocks: one error, again and again. -/
structure Broken (src : Bytes) (header : FrameHeader) (dict : Option Dictionary) (p : BlockPos)
    (v : Bytes) (rs : List ReadResult) (p' : BlockPos) : Prop where
  reached : BlockAt src (.uncapped header dict) p'
  first : p.last = false
  last : p'.last = false
  blocks : v ++ ReadResult.all rs = p'.state.out.drop (dictionary_len dict)
  same_error : ∃ oks msg k, rs = oks ++ List.replicate (k + 1) (.Err msg) ∧
    ∀ r ∈ oks, ∃ bytes, r = .Ok bytes ∧ bytes ≠ []

theorem all_replicate_err (k : Nat) (msg : String) :
    ReadResult.all (List.replicate k (.Err msg)) = [] := by
  induction k with
  | zero => rfl
  | succ k ih => rw [List.replicate_succ, ReadResult.all_cons, ih]; rfl

/-- Every schedule of reads is clean or broken. -/
theorem Follows.reads (hslack : Slack src header dict) : ∀ (ns : List Nat)
    {d : StreamingDecoder} {p : BlockPos} {v : Bytes} {rs : List ReadResult}
      {d' : StreamingDecoder},
    Follows src header dict d p v → (∀ n ∈ ns, 0 < n) → d.reads ns = .ok (rs, d') →
    ∃ p', Clean src header dict p v rs d' p' ∨ Broken src header dict p v rs p' := by
  intro ns
  induction ns with
  | nil =>
    intro d p v rs d' h _ hreads
    obtain ⟨rfl, rfl⟩ := Prod.mk.inj (Except.ok.inj hreads)
    refine ⟨p, Or.inl ⟨?_, fun r hr => absurd hr List.not_mem_nil, fun _ => rfl, fun hr =>
      absurd hr List.not_mem_nil⟩⟩
    rw [show ReadResult.all [] = [] from rfl, List.append_nil]
    exact h
  | cons n ns ih =>
    intro d p v rs d' h hpos hreads
    have hn : 0 < n := hpos n List.mem_cons_self
    obtain ⟨r, rs', d₁, rfl, hread, hrest⟩ := reads_cons_ok hreads
    cases r with
    | Err msg =>
      obtain ⟨hpoison, hfirst, p', hreached, hlast, hv⟩ := h.read_of_err hslack hn hread
      rw [reads_poisoned hpoison] at hrest
      obtain ⟨rfl, -⟩ := Prod.mk.inj (Except.ok.inj hrest)
      refine ⟨p', Or.inr ⟨hreached, hfirst, hlast, ?_, [], msg, ns.length, rfl, fun r hr =>
        absurd hr List.not_mem_nil⟩⟩
      rw [ReadResult.all_cons, all_replicate_err, ← hv]
      exact List.append_nil v
    | Ok bytes =>
      obtain ⟨p₁, hfollows, hsame, hempty⟩ := h.read_of_ok hslack hn hread
      obtain ⟨p', hrun⟩ := ih hfollows (fun m hm => hpos m (List.mem_cons_of_mem _ hm)) hrest
      refine ⟨p', ?_⟩
      rw [← List.append_nil bytes] at hfollows
      rcases hrun with hclean | hbroken
      · refine Or.inl ⟨?_, ?_, fun hl => ?_, fun hr => ?_⟩
        · rw [ReadResult.all_cons, ← List.append_assoc]
          exact hclean.follows
        · intro r hr
          rcases List.mem_cons.mp hr with rfl | hr
          · exact ⟨bytes, rfl⟩
          · exact hclean.ok r hr
        · rw [hclean.stay (hsame hl ▸ hl), hsame hl]
        · rw [ReadResult.all_cons, ← List.append_assoc]
          rcases List.mem_cons.mp hr with hr | hr
          · -- the end of the frame was reached, and nothing moves after it
            obtain rfl := ReadResult.Ok.inj hr
            obtain ⟨hlast, hv⟩ := hempty rfl
            obtain rfl := hclean.stay hlast
            refine ⟨hlast, hclean.follows.front.eq_of_length_le ?_⟩
            rw [← hv]
            simp only [List.length_append]
            omega
          · exact hclean.eof hr
      · obtain ⟨oks, msg, k, hrs, hoks⟩ := hbroken.same_error
        have hne : bytes ≠ [] := fun hnil => by
          have := (hempty hnil).1
          rw [hbroken.first] at this
          exact Bool.noConfusion this
        refine Or.inr ⟨hbroken.reached, ?_, hbroken.last, ?_, .Ok bytes :: oks, msg, k, ?_, ?_⟩
        · by_contra hl
          have hl : p.last = true := by simpa using hl
          have := hbroken.first
          rw [hsame hl, hl] at this
          exact Bool.noConfusion this
        · rw [ReadResult.all_cons, ← List.append_assoc]
          exact hbroken.blocks
        · rw [hrs, List.cons_append]
        · intro r hr
          rcases List.mem_cons.mp hr with rfl | hr
          · exact ⟨bytes, rfl, hne⟩
          · exact hoks r hr

/-- Every schedule of reads yields `data`: no read fails, the bytes delivered are the first of
`data`, and a schedule of more reads than there are bytes reaches the end of the file. -/
def Yields (d : StreamingDecoder) (data : Bytes) : Prop :=
  ∀ ns : List Nat, (∀ n ∈ ns, 0 < n) → ∃ rs d', d.reads ns = .ok (rs, d') ∧
    (∀ r ∈ rs, ∃ bytes, r = .Ok bytes) ∧ ReadResult.all rs <+: data ∧
    (data.length < ns.length → .Ok [] ∈ rs ∧ ReadResult.all rs = data)

/-- Where the one-shot decode goes on to its end without reaching beyond the window, every schedule
succeeds: every read delivers a byte until everything was delivered. -/
theorem Follows.reads_of_run {q : BlockPos} (hword : q.state.out.length ≤ usizeMax)
    (hend : ∃ consumed, frame_end src header.content_size header.has_checksum
      (q.state.out.drop (dictionary_len dict)) q.pos = .ok consumed)
    (hwin : ∀ m ∈ q.state.matches_, 2 ≤ m.block →
      m.distance ≤ header.window_size + m.in_block) : ∀ (ns : List Nat)
    {d : StreamingDecoder} {p : BlockPos} {v : Bytes}, Follows src header dict d p v →
      BlocksIterate src p q → (∀ n ∈ ns, 0 < n) →
      ∃ rs d', d.reads ns = .ok (rs, d') ∧ (∀ r ∈ rs, ∃ bytes, r = .Ok bytes) ∧
        v ++ ReadResult.all rs <+: q.state.out.drop (dictionary_len dict) ∧
        (ns.length ≤ (ReadResult.all rs).length ∨
          .Ok [] ∈ rs ∧ v ++ ReadResult.all rs = q.state.out.drop (dictionary_len dict)) := by
  intro ns
  induction ns with
  | nil =>
    intro d p v h hrun _
    have hdl : p.state.dict_len ≤ p.state.out.length := by
      have hreach := uncapped_at h.reached
      omega
    refine ⟨[], d, rfl, fun r hr => absurd hr List.not_mem_nil, ?_, Or.inl le_rfl⟩
    rw [show ReadResult.all [] = [] from rfl, List.append_nil]
    exact h.front.trans ((BlocksIterate.grown hrun hdl).out_extends.drop _)
  | cons n ns ih =>
    intro d p v h hrun hpos
    obtain ⟨bytes, d₁, p₁, hread, hfollows, hrun₁, hempty⟩ :=
      h.read_of_run hrun hword hend hwin (hpos n List.mem_cons_self)
    obtain ⟨rs, d', hreads, hok, hpre, hcount⟩ := ih hfollows hrun₁
      fun m hm => hpos m (List.mem_cons_of_mem _ hm)
    refine ⟨.Ok bytes :: rs, d', ?_, ?_, ?_, ?_⟩
    · rw [StreamingDecoder.reads, hread, bind_ok]
      dsimp only
      rw [hreads]
      rfl
    · intro r hr
      rcases List.mem_cons.mp hr with rfl | hr
      · exact ⟨bytes, rfl⟩
      · exact hok r hr
    · rw [ReadResult.all_cons, ← List.append_assoc]
      exact hpre
    · rw [ReadResult.all_cons, ← List.append_assoc]
      by_cases hnil : bytes = []
      · subst hnil
        refine Or.inr ⟨List.mem_cons_self, hpre.eq_of_length_le ?_⟩
        rw [← hempty rfl]
        simp only [List.length_append]
        omega
      · have hlen := List.length_pos_iff.mpr hnil
        rcases hcount with hc | ⟨hmem, hall⟩
        · left
          simp only [ReadResult.bytes, List.length_append, List.length_cons]
          omega
        · exact Or.inr ⟨List.mem_cons_of_mem _ hmem, hall⟩

/-! ## Construction -/

/-- What the constructor builds follows the one-shot decode from its first block. -/
theorem with_options_follows {expect_magic : Bool} {w : Nat}
    (hheader : header_at_front src expect_magic = .ok header)
    (h : with_options src expect_magic dict w = .ok d)
    (hword : dictionary_len dict ≤ usizeMax) :
    Follows src header dict d (FrameStart.uncapped header dict).first [] := by
  rw [with_options] at h
  obtain ⟨header', hh, h⟩ := bind_eq_ok.mp h
  obtain rfl := Except.ok.inj (hheader.symm.trans hh)
  obtain ⟨max_ws, -, h⟩ := bind_eq_ok.mp h
  obtain ⟨-, h⟩ := guard_eq_ok.mp h
  obtain ⟨_, -, h⟩ := bind_eq_ok.mp h
  obtain rfl := Except.ok.inj h
  obtain ⟨hout, hdl⟩ := start_out usizeMax (min header.window_size MAX_BLOCK_SIZE) dict
  have hlift : (BlockState.start usizeMax (min header.window_size MAX_BLOCK_SIZE) dict).Lifted []
      (BlockState.start usizeMax (min header.window_size MAX_BLOCK_SIZE) dict) :=
    start_lifted _ _ _ _
  refine ⟨[], ⟨rfl, rfl, rfl, rfl, .start, hlift, hdl, start_max_output _ _ _, ?_, ?_, Or.inl rfl,
    fun _ => ⟨rfl, ?_⟩, ?_, ?_, ?_, ?_, rfl, fun _ => rfl, fun hl => Bool.noConfusion hl, rfl⟩, ?_,
    ?_⟩
  · simp only
    omega
  · simp only [List.length_nil]
    omega
  · simp only
    omega
  · simp only [FrameStart.first, FrameStart.uncapped, start_matches]
    exact fun m hm => absurd hm List.not_mem_nil
  · simp only [FrameStart.first, FrameStart.uncapped]
    rw [List.drop_eq_nil_of_le (by omega)]
    exact Xxh64.new_holds 0
  · simp only [FrameStart.first, FrameStart.uncapped]
    omega
  · simp only [FrameStart.first, FrameStart.uncapped]
    omega
  · intro _ hb
    exact absurd (start_blocks _ _ _) hb
  · simp only [delivered, FrameStart.first, FrameStart.uncapped]
    rw [List.drop_eq_nil_of_le]
    rw [List.length_take]
    omega

end StreamingDecoder

end ZstdPure
