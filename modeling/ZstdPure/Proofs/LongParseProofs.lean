import ZstdPure.Proofs.FinderProofs
import ZstdPure.Proofs.LdmProofs
import ZstdPure.Proofs.ReplayProofs

/-!
# Proofs: parses around long-distance matches

The long matches cut a block into gaps. The finder parses each gap, and the literals left at its end
belong to the long match that follows.
-/

namespace ZstdPure.Encode

open Outcome Sequences

/-- Everything before the cursor is parsed, and the last sequence ends there. -/
structure LdmLoop.Inv (data : Bytes) (start : Nat) (rep : Reps) (s : LdmLoop) : Prop where
  finder : s.finder.Sound data s.cursor
  parses : s.out.Parses data start rep s.cursor

/-- Everything before `pos` is parsed, and the last `n` bytes of it are pending literals. -/
structure LdmLoop.Pending (data : Bytes) (start pos n : Nat) (rep : Reps) (s : LdmLoop) : Prop where
  finder : s.finder.Sound data pos
  le : n ≤ pos
  replays : Replays data start rep s.out.seqs (pos - n) s.out.rep
  literals : s.out.literals = literal_runs data start s.out.seqs ++ range_of data (pos - n) pos
  fits : Fits32 s.out.rep

/-- The matches of some sequences, at the positions and distances that the decoder replays them
with. -/
def matches_at : Nat → Reps → List Seq → List LdmSeq
  | _, _, [] => []
  | pos, rep, s :: seqs =>
    let (off, rep') := resolve rep s.offset_value (s.lit_len == 0)
    ⟨pos + s.lit_len, s.match_len, off⟩ :: matches_at (pos + s.lit_len + s.match_len) rep' seqs

section LongParse

variable {data : Bytes} {start stop max_offset pos n : Nat} {rep : Reps} {s : LdmLoop}

theorem matches_at_append {p q : Nat} {rep' : Reps} {seqs : List Seq}
    (h : Replays data p rep seqs q rep') (more : List Seq) :
    matches_at p rep (seqs ++ more) = matches_at p rep seqs ++ matches_at q rep' more := by
  induction h with
  | nil => rfl
  | cons resolved _ _ _ _ ih =>
    rw [List.cons_append, matches_at, matches_at, resolve, resolved]
    exact congrArg _ ih

/-- A gap adds its sequences. -/
theorem parse_gap_seqs (s : LdmLoop) (pos : Nat) :
    ∃ gap, (parse_gap asI32 data max_offset s pos).2.out.seqs = s.out.seqs ++ gap := by
  unfold parse_gap
  split_ifs
  · exact ⟨_, rfl⟩
  · exact ⟨[], (List.append_nil _).symm⟩

theorem LdmLoop.Inv.pending (h : s.Inv data start rep) : s.Pending data start s.cursor 0 rep := by
  refine ⟨h.finder, Nat.zero_le _, h.parses.replays, ?_, h.parses.fits⟩
  rw [Nat.sub_zero, h.parses.literals, range_of, List.drop_eq_nil_of_le (List.length_take_le _ _),
    List.append_nil]

/-- The gap before a position: its trailing literals are those that its sequences leave. -/
theorem parse_gap_pending (h : s.Inv data start rep) (hdata : data.length + 3 < 2 ^ 32)
    (hpos : s.cursor ≤ pos) (hin : pos ≤ data.length) (hblock : pos - s.cursor ≤ BLOCK_SIZE_MAX) :
    (parse_gap asI32 data max_offset s pos).2.Pending data start pos
      (parse_gap asI32 data max_offset s pos).1 rep := by
  unfold parse_gap
  by_cases hlt : s.cursor < pos
  · have hmax : BLOCK_SIZE_MAX = 131072 := rfl
    have hreach : min max_offset data.length ≤ data.length := min_le_right _ _
    have ha : s.finder.Accepts data s.cursor pos max_offset :=
      ⟨hpos, hin, by omega, by omega, h.finder.candidates_lt hblock⟩
    obtain ⟨hvalid, hsound⟩ := h.finder.parse ha h.parses.fits
    have hvalid := hvalid _ List.mem_cons_self
    rw [if_pos hlt]
    generalize s.finder.parse asI32 data s.cursor pos max_offset s.out.rep = g at hvalid hsound ⊢
    obtain ⟨last, hlast, hreplays, hlits⟩ := hvalid
    have hruns := hreplays.length_literals (hlast.trans hin)
    have hleft : g.1.primary.parse.literals.length -
        (g.1.primary.parse.seqs.map Seq.lit_len).sum = pos - last := by
      rw [hlits, List.length_append, hruns, length_range data hin, Nat.add_sub_cancel_left]
    dsimp only
    rw [hleft]
    have hpast : pos - (pos - last) = last := Nat.sub_sub_self hlast
    refine ⟨hsound, Nat.sub_le _ _, ?_, ?_, (hreplays.fields h.parses.fits (by omega)).2⟩
    · rw [hpast]
      exact h.parses.replays.append hreplays
    · show s.out.literals ++ g.1.primary.parse.literals = _
      rw [hpast, hlits, h.parses.literals, literal_runs_append h.parses.replays, List.append_assoc]
  · obtain rfl : s.cursor = pos := by omega
    rw [if_neg hlt]
    exact h.pending

/-- A long match takes the pending literals and is one more match of the parse. -/
theorem ldm_step_inv (h : s.Inv data start rep) (hdata : data.length + 3 < 2 ^ 32)
    (hin : stop ≤ data.length) (hblock : stop - start ≤ BLOCK_SIZE_MAX)
    {low min_offset window : Nat} {m : LdmSeq}
    (hm : LdmState.ValidMatch data low stop min_offset window m) (hlow : s.cursor ≤ m.pos)
    (hstart : start ≤ s.cursor) :
    (ldm_step asI32 data max_offset s m).Inv data start rep ∧
      (matches_at start rep s.out.seqs ++ [m]).Sublist
        (matches_at start rep (ldm_step asI32 data max_offset s m).out.seqs) := by
  obtain ⟨⟨_, hhigh⟩, hlong, _, _, hreal⟩ := hm
  have hmax : BLOCK_SIZE_MAX = 131072 := rfl
  have hldm : LDM_MIN_MATCH = 64 := rfl
  have hmin : MIN_MATCH = 4 := rfl
  have hback := hreal.2.1
  have hpend := @parse_gap_pending _ _ max_offset m.pos _ _ h hdata hlow (by omega) (by omega)
  obtain ⟨gap, hgap⟩ := @parse_gap_seqs data max_offset s m.pos
  unfold ldm_step
  generalize parse_gap asI32 data max_offset s m.pos = g at hpend hgap ⊢
  obtain ⟨ll, s'⟩ := g
  obtain ⟨hfinder, hle, hreplays, hlits, hfits⟩ := hpend
  dsimp only at hfinder hle hreplays hlits hfits hgap ⊢
  have hend := hreplays.le
  rw [Nat.mod_eq_of_lt (by omega : ll < 2 ^ 32), Nat.mod_eq_of_lt (by omega : m.len < 2 ^ 32)]
  obtain ⟨hpos, hbound, hres⟩ := encode_offset_resolves s'.out.rep hreal.1 (ll == 0)
  have hmatch : m.pos - ll + ll = m.pos := Nat.sub_add_cancel hle
  refine ⟨⟨hfinder.mono (Nat.le_add_right _ _), ⟨?_, ?_, hfits.resolve hpos hres (by omega)⟩⟩, ?_⟩
  · refine hreplays.append (Replays.cons hres hbound (by show MIN_MATCH ≤ m.len; omega) ?_ ?_)
    · show RealMatch data (m.pos - ll + ll) m.len m.offset
      rw [hmatch]
      exact hreal
    · show Replays data (m.pos - ll + ll + m.len) _ [] _ _
      rw [hmatch]
      exact Replays.nil _ _
  · show s'.out.literals = _
    rw [hlits, literal_runs_append hreplays, literal_runs, literal_runs, List.append_nil]
    show _ = _ ++ range_of data (m.pos - ll) (m.pos - ll + ll)
    rw [hmatch]
  · have hone : matches_at (m.pos - ll) s'.out.rep
        [⟨ll, m.len, encode_offset s'.out.rep m.offset (ll == 0)⟩] = [m] := by
      rw [matches_at, resolve, hres]
      dsimp only
      rw [hmatch, matches_at]
    rw [matches_at_append hreplays, hone, hgap, matches_at_append h.parses.replays]
    exact (List.sublist_append_left _ _).append (List.Sublist.refl _)

/-- Every long match in turn. -/
theorem ldm_steps_inv (hdata : data.length + 3 < 2 ^ 32) (hin : stop ≤ data.length)
    (hblock : stop - start ≤ BLOCK_SIZE_MAX) {min_offset window : Nat} (ms : List LdmSeq) :
    ∀ {s : LdmLoop}, s.Inv data start rep → start ≤ s.cursor → s.cursor ≤ stop →
      ms.Pairwise (fun a b => a.pos + a.len ≤ b.pos) → (∀ m ∈ ms, s.cursor ≤ m.pos) →
      (∀ m ∈ ms, LdmState.ValidMatch data start stop min_offset window m) →
      (ms.foldl (ldm_step asI32 data max_offset) s).Inv data start rep ∧
        start ≤ (ms.foldl (ldm_step asI32 data max_offset) s).cursor ∧
        (ms.foldl (ldm_step asI32 data max_offset) s).cursor ≤ stop ∧
        (matches_at start rep s.out.seqs ++ ms).Sublist
          (matches_at start rep (ms.foldl (ldm_step asI32 data max_offset) s).out.seqs) := by
  induction ms with
  | nil =>
    intro s h hstart hstop _ _ _
    rw [List.append_nil]
    exact ⟨h, hstart, hstop, List.Sublist.refl _⟩
  | cons m ms ih =>
    intro s h hstart hstop hordered hlow hvalid
    obtain ⟨hafter, hordered⟩ := List.pairwise_cons.mp hordered
    have hm := hvalid m List.mem_cons_self
    obtain ⟨hinv, hfound⟩ := @ldm_step_inv _ _ _ max_offset _ _ h hdata hin hblock _ _ _ _ hm
      (hlow m List.mem_cons_self) hstart
    have hcursor : (ldm_step asI32 data max_offset s m).cursor = m.pos + m.len := rfl
    have hinside := hm.inside
    obtain ⟨hinv, hlow, hhigh, hrest⟩ := ih hinv (by omega) (by omega) hordered
      (fun b hb => hafter b hb) fun b hb => hvalid b (List.mem_cons_of_mem _ hb)
    refine ⟨hinv, hlow, hhigh, List.Sublist.trans ?_ hrest⟩
    rw [← List.singleton_append, ← List.append_assoc]
    exact hfound.append (List.Sublist.refl _)

/-- Around long matches that are valid, in order and apart, the gap parses and the long matches make
a valid parse of the block, and the long matches are matches of it. -/
theorem parse_with_ldm_sound (hdata : data.length + 3 < 2 ^ 32) (hrange : start ≤ stop)
    (hin : stop ≤ data.length) (hblock : stop - start ≤ BLOCK_SIZE_MAX) {f : Finder}
    (hf : f.Sound data start) (hrep : Fits32 rep) {min_offset window : Nat} {ms : List LdmSeq}
    (hordered : ms.Pairwise fun a b => a.pos + a.len ≤ b.pos)
    (hvalid : ∀ m ∈ ms, LdmState.ValidMatch data start stop min_offset window m) :
    ValidParse data start stop rep (parse_with_ldm asI32 f data start stop max_offset rep ms).1 ∧
      (parse_with_ldm asI32 f data start stop max_offset rep ms).2.Sound data stop ∧
      ms.Sublist (matches_at start rep
        (parse_with_ldm asI32 f data start stop max_offset rep ms).1.parse.seqs) := by
  have hstart : (⟨f, start, ⟨[], [], rep⟩⟩ : LdmLoop).Inv data start rep :=
    ⟨hf, ParseOut.parses_start data start hrep⟩
  obtain ⟨hinv, hlow, hhigh, hfound⟩ := @ldm_steps_inv _ _ _ max_offset _ hdata hin hblock _ _ ms _
    hstart
    (le_refl _) hrange hordered (fun m hm => (hvalid m hm).inside.1) hvalid
  unfold parse_with_ldm
  generalize ms.foldl (ldm_step asI32 data max_offset) ⟨f, start, ⟨[], [], rep⟩⟩ = s
    at hinv hlow hhigh hfound ⊢
  obtain ⟨gap, hgap⟩ := @parse_gap_seqs data max_offset s stop
  have hpend := @parse_gap_pending _ _ max_offset stop _ _ hinv hdata hhigh hin (by omega)
  dsimp only
  generalize parse_gap asI32 data max_offset s stop = g at hpend hgap ⊢
  refine ⟨⟨stop - g.1, Nat.sub_le _ _, hpend.replays, hpend.literals⟩, hpend.finder, ?_⟩
  rw [hgap, matches_at_append hinv.parses.replays]
  exact hfound.trans (List.sublist_append_left _ _)

/-- The matches that `generate` returns, and the gaps between them. -/
theorem parse_found_sound {next : Nat} {f : Finder} {st : LdmState} (hf : Finder.Run data next f)
    (hnext : next ≤ start) (hst : LdmState.Run data start st) (hrange : start ≤ stop)
    (hin : stop ≤ data.length) (hblock : stop - start ≤ BLOCK_SIZE_MAX) (hrep : Fits32 rep)
    (regular_reach window : Nat) :
    let found := (st.generate asI32 data start stop regular_reach window).1
    let c := (parse_with_ldm asI32 f data start stop regular_reach rep found).1
    ValidParse data start stop rep c ∧ found.Sublist (matches_at start rep c.parse.seqs) := by
  intro found c
  obtain ⟨hdata, -, hbefore⟩ := hst.before
  obtain ⟨hordered, hmatches, -⟩ := @LdmState.generate_spec data start stop regular_reach window
    hdata
    hin st hbefore hrange
  obtain ⟨hvalid, -, hfound⟩ := @parse_with_ldm_sound data start stop regular_reach rep (by omega)
    hrange hin hblock f (hf.sound.mono hnext) hrep regular_reach window found hordered hmatches
  exact ⟨hvalid, hfound⟩

/-- For every state that finder and index can be in, the long matches of a block and the parses of
the gaps between them make a valid parse. The long matches are matches of it, in their order, at
their positions and with their lengths and distances. -/
theorem parse_with_ldm_valid {next : Nat} {f : Finder} {st : LdmState} (hf : Finder.Run data next f)
    (hnext : next ≤ start) (hst : LdmState.Run data start st) (hrange : start ≤ stop)
    (hin : stop ≤ data.length) (hblock : stop - start ≤ BLOCK_SIZE_MAX) (hrep : Fits32 rep)
    (regular_reach window : Nat) :
    let found := (st.generate asI32 data start stop regular_reach window).1
    let c := (parse_with_ldm asI32 f data start stop regular_reach rep found).1
    ValidParse data start stop rep c ∧ found.Sublist (matches_at start rep c.parse.seqs) :=
  parse_found_sound hf hnext hst hrange hin hblock hrep regular_reach window

end LongParse

/-- The second half of some zeros, after the first half was indexed. -/
theorem parse_with_ldm_valid_zeros :
    let data : Bytes := List.replicate 400 0
    let st := ((LdmState.new 20).generate asI32 data 0 200 5 1024).2
    let found := (st.generate asI32 data 200 400 5 1024).1
    let c := (parse_with_ldm asI32 (Finder.new (Finder.small_params .Btopt)) data 200 400 5
      ⟨1, 4, 8⟩
      found).1
    ValidParse data 200 400 ⟨1, 4, 8⟩ c ∧
      found.Sublist (matches_at 200 ⟨1, 4, 8⟩ c.parse.seqs) := by
  intro data st found c
  have hlen : data.length = 400 := List.length_replicate
  have hnew : LdmState.Run data 0 (LdmState.new 20) := .new 20 (by omega) (by omega)
  have hst : LdmState.Run data 200 st := hnew.generate (by decide) (by omega) 5 1024
  exact parse_with_ldm_valid (Finder.Run.new _ data) (by decide) hst (by decide) (by omega)
    (by decide)
    ⟨by decide, by decide, by decide⟩ 5 1024

end ZstdPure.Encode
