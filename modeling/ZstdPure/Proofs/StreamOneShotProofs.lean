import ZstdPure.Proofs.FollowsProofs

/-!
# Streaming decode and one-shot decode

Without a dictionary the reads of a streaming decoder reach the end of the file only with the data
of the one-shot decode, reach it whenever the one-shot decode succeeds and no match is longer than
the window, and otherwise end in one error after whole blocks.
-/

namespace ZstdPure

open Outcome StreamingDecoder

variable {src : Bytes} {expect_magic : Bool} {header : FrameHeader} {dict : Option Dictionary}
  {w : Nat} {d₀ : StreamingDecoder}

/-- A streaming decoder that has decoded the last block has decoded what the one-shot decode
returns. -/
theorem one_shot_of_last {p : BlockPos} {d' : StreamingDecoder} {v : Bytes}
    (hheader : header_at_front src expect_magic = .ok header)
    (hdict : check_dictionary header.dictionary_id dict = .ok ())
    (h : Follows src header dict d' p v) (hlast : p.last = true) :
    ∃ f, decode_frame src expect_magic usizeMax dict none = .ok f ∧
      f.data = p.state.out.drop (dictionary_len dict) := by
  obtain ⟨evicted, ht, -, -⟩ := h
  obtain ⟨consumed, hend⟩ := ht.finished hlast
  have hword := ht.word
  exact decode_frame_of_uncapped hheader hdict (ht.reached.iterate (.stop (by simp [hlast]))) hend
    ht.word (by omega)

/-- Where the one-shot decode succeeds and no match of a later block reaches beyond the window that
was kept before it, every schedule of reads yields its data. -/
theorem yields_of_one_shot (hheader : header_at_front src expect_magic = .ok header)
    (hdict : check_dictionary header.dictionary_id dict = .ok ())
    (hd : with_options src expect_magic dict w = .ok d₀) {m : Nat} {f : DecodedFrame}
    (hf : decode_frame src expect_magic m dict none = .ok f)
    (hword : dictionary_len dict + f.data.length ≤ usizeMax)
    (hwin : ∀ mt ∈ f.matches_, 2 ≤ mt.block → mt.distance ≤ header.window_size + mt.in_block) :
    d₀.Yields f.data := by
  obtain ⟨q, hrun, hdata, hms, hend⟩ := decode_frame_uncapped hheader hdict hf hword
  have hlen := congrArg List.length hdata
  rw [List.length_drop] at hlen
  rw [hdata] at hend
  rw [hms] at hwin
  intro ns hpos
  obtain ⟨rs, d', hreads, hok, hpre, hcount⟩ := Follows.reads_of_run (by omega) ⟨_, hend⟩ hwin ns
    (with_options_follows hheader hd (by omega)) hrun hpos
  rw [List.nil_append, ← hdata] at hpre
  refine ⟨rs, d', hreads, hok, hpre, fun hlt => ?_⟩
  rcases hcount with hc | ⟨hmem, hall⟩
  · have hle := hpre.length_le
    omega
  · exact ⟨hmem, by rw [hdata]; exact hall⟩

/-- What the reads of a streaming decoder without a dictionary deliver. -/
theorem streaming_eq_one_shot (hheader : header_at_front src expect_magic = .ok header)
    (hid : header.dictionary_id = 0) (hd : with_options src expect_magic none w = .ok d₀) :
    (∀ ns rs d, (∀ n ∈ ns, 0 < n) → d₀.reads ns = .ok (rs, d) → .Ok [] ∈ rs →
      ∃ f, decode_one src expect_magic usizeMax = .ok f ∧ ReadResult.all rs = f.data) ∧
    (∀ f, decode_one src expect_magic usizeMax = .ok f →
      (∀ m ∈ f.matches_, m.distance ≤ header.window_size) → d₀.Yields f.data) ∧
    (∀ e, decode_one src expect_magic usizeMax = fail e →
      ∀ ns rs d, (∀ n ∈ ns, 0 < n) → d₀.reads ns = .ok (rs, d) →
        .Ok [] ∉ rs ∧
        (∃ p, BlockAt src (.uncapped header none) p ∧ p.last = false ∧
          ReadResult.all rs <+: p.state.out ∧
          ((∃ msg, ReadResult.Err msg ∈ rs) → ReadResult.all rs = p.state.out)) ∧
        ∀ (i j : Nat) (msg : String) (r : ReadResult), i ≤ j → rs[i]? = some (.Err msg) →
          rs[j]? = some r → r = .Err msg) := by
  have hdict : check_dictionary header.dictionary_id none = .ok () := by
    rw [hid]
    rfl
  have hslack : Slack src header none := Or.inl rfl
  have hstart := with_options_follows hheader hd (Nat.zero_le _)
  refine ⟨fun ns rs d hpos hreads heof => ?_, fun f hf hwin => ?_, fun e he ns rs d hpos hreads =>
    ?_⟩
  · obtain ⟨p', h | h⟩ := hstart.reads hslack ns hpos hreads
    · obtain ⟨hlast, hall⟩ := h.eof heof
      obtain ⟨f, hf, hdata⟩ := one_shot_of_last hheader hdict h.follows hlast
      exact ⟨f, hf, hall.trans hdata.symm⟩
    · obtain ⟨oks, msg, k, hrs, hoks⟩ := h.same_error
      rw [hrs, List.mem_append] at heof
      rcases heof with hmem | hmem
      · obtain ⟨bytes, hb, hne⟩ := hoks _ hmem
        exact absurd (ReadResult.Ok.inj hb).symm hne
      · simp at hmem
  · have hle := decode_frame_data_le _ hf
    exact yields_of_one_shot hheader hdict hd hf (by simp only [dictionary_len]; omega)
      fun m hm _ => (hwin m hm).trans (Nat.le_add_right _ _)
  · obtain ⟨p', h | h⟩ := hstart.reads hslack ns hpos hreads
    · -- the last block cannot have been decoded, as the one-shot decode would have succeeded
      have hlast : p'.last = false := by
        by_contra hl
        obtain ⟨f, hf, -⟩ := one_shot_of_last hheader hdict h.follows (by simpa using hl)
        exact ok_ne_fail _ _ (hf.symm.trans he)
      have hnerr : ∀ msg, ReadResult.Err msg ∉ rs := fun msg hm => by
        obtain ⟨bytes, hb⟩ := h.ok _ hm
        exact ReadResult.noConfusion hb
      refine ⟨fun heof => ?_, ⟨p', h.follows.reached, hlast, h.follows.front, fun hex =>
        absurd hex (not_exists.mpr hnerr)⟩, fun i j msg r _ hi _ => absurd (List.mem_of_getElem? hi)
          (hnerr msg)⟩
      exact Bool.noConfusion (hlast.symm.trans (h.eof heof).1)
    · obtain ⟨oks, msg, k, hrs, hoks⟩ := h.same_error
      refine ⟨fun heof => ?_, ⟨p', h.reached, h.last, ?_, fun _ => h.blocks⟩,
        fun i j msg' r hij hi hj => ?_⟩
      · rw [hrs, List.mem_append] at heof
        rcases heof with hmem | hmem
        · obtain ⟨bytes, hb, hne⟩ := hoks _ hmem
          exact hne (ReadResult.Ok.inj hb).symm
        · simp at hmem
      · exact (show ReadResult.all rs = p'.state.out from h.blocks) ▸ List.prefix_rfl
      · rw [hrs] at hi hj
        have hlen : oks.length ≤ i := by
          by_contra hlt
          rw [List.getElem?_append_left (by omega)] at hi
          obtain ⟨bytes, hb, -⟩ := hoks _ (List.mem_of_getElem? hi)
          exact ReadResult.noConfusion hb
        rw [List.getElem?_append_right hlen] at hi
        rw [List.getElem?_append_right (by omega)] at hj
        have h₁ := List.eq_of_mem_replicate (List.mem_of_getElem? hi)
        have h₂ := List.eq_of_mem_replicate (List.mem_of_getElem? hj)
        rw [h₁, h₂]

/-- `streaming_eq_one_shot` on the frame of three blocks. -/
theorem streaming_eq_one_shot_three_blocks :
    ∃ d₀, StreamingDecoder.new three_blocks = .ok d₀ ∧ d₀.Yields three_blocks_content := by
  obtain ⟨header, d₀, hheader, hid, hd, hwin⟩ : ∃ header d₀,
      header_at_front three_blocks true = .ok header ∧ header.dictionary_id = 0 ∧
        with_options three_blocks true none 27 = .ok d₀ ∧ header.window_size = 14 :=
    ⟨_, _, rfl, rfl, rfl, rfl⟩
  have hf : decode_one three_blocks true usizeMax
      = .ok ⟨three_blocks_content, 29, [⟨2, 1, 5, 4⟩]⟩ := by decide +kernel
  refine ⟨d₀, hd, (streaming_eq_one_shot hheader hid hd).2.1 _ hf fun m hm => ?_⟩
  rw [hwin, List.mem_singleton.mp hm]
  decide

end ZstdPure
