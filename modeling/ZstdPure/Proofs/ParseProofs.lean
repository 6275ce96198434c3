import ZstdPure.Proofs.OptProofs
import ZstdPure.Proofs.TreeRunProofs

/-!
# Proofs: parses of a range

What every match finder builds, and the two steps that all of them build it with: a match that was
compared, and the literals at the end.
-/

namespace ZstdPure.Encode

open Sequences

/-! ## Valid parses -/

/-- The literal runs before the matches of the sequences, from `p` on. -/
def literal_runs (data : Bytes) : Nat → List Seq → Bytes
  | _, [] => []
  | p, s :: seqs => range_of data p (p + s.lit_len) ++ literal_runs data
      (p + s.lit_len + s.match_len) seqs

/-- The sequences and the trailing literals tile the range in order, the sequences replay it from
`rep`, and the repeat offsets end as those of the candidate. -/
def ValidParse (data : Bytes) (start stop : Nat) (rep : Reps) (c : Candidate) : Prop :=
  ∃ last, last ≤ stop ∧ Replays data start rep c.parse.seqs last c.rep ∧
    c.parse.literals = literal_runs data start c.parse.seqs ++ range_of data last stop

theorem Replays.le {data : Bytes} {p q : Nat} {rep rep' : Reps} {seqs : List Seq}
    (h : Replays data p rep seqs q rep') : p ≤ q := by
  induction h with
  | nil => exact le_refl _
  | cons _ _ _ _ _ ih => omega

theorem literal_runs_append {data : Bytes} {p q : Nat} {rep rep' : Reps} {seqs : List Seq}
    (h : Replays data p rep seqs q rep') (more : List Seq) :
    literal_runs data p (seqs ++ more) = literal_runs data p seqs ++ literal_runs data q more := by
  induction h with
  | nil => rfl
  | cons _ _ _ _ _ ih =>
    rw [List.cons_append, literal_runs, literal_runs, ih, List.append_assoc]

theorem literal_parse_valid {data : Bytes} {start stop : Nat} (h : start ≤ stop) (rep : Reps) :
    ValidParse data start stop rep (literal_parse data start stop rep) :=
  ⟨start, h, Replays.nil start rep, rfl⟩

/-! ## Fields of 32 bits -/

/-- Repeat offsets are stored in 32 bits. -/
structure Fits32 (rep : Reps) : Prop where
  r0 : rep.r0 < 2 ^ 32
  r1 : rep.r1 < 2 ^ 32
  r2 : rep.r2 < 2 ^ 32

theorem Fits32.resolve {rep rep' : Reps} {offset_value off : Nat} {ll0 : Bool} (h : Fits32 rep)
    (hpos : 1 ≤ offset_value) (hres : resolve_offset rep offset_value ll0 = .ok (off, rep'))
    (hoff : off < 2 ^ 32) : Fits32 rep' := by
  obtain ⟨h0, h1, h2⟩ := h
  rw [resolve_offset_ok rep hpos] at hres
  have hres := Except.ok.inj hres
  unfold Reps.resolve at hres
  split_ifs at hres
  · obtain ⟨rfl, rfl⟩ := Prod.mk.inj hres
    exact ⟨hoff, h0, h1⟩
  · split at hres <;> obtain ⟨rfl, rfl⟩ := Prod.mk.inj hres
    · exact ⟨h0, h1, h2⟩
    · exact ⟨h1, h0, h2⟩
    · exact ⟨h2, h0, h1⟩
    · exact ⟨hoff, h0, h1⟩

/-! ## The parse in progress -/

/-- What was built so far parses the bytes from `start` to `anchor`. -/
structure ParseOut.Parses (data : Bytes) (start : Nat) (rep : Reps) (anchor : Nat)
    (out : ParseOut) :
    Prop where
  replays : Replays data start rep out.seqs anchor out.rep
  literals : out.literals = literal_runs data start out.seqs
  fits : Fits32 out.rep

section Parsing

variable {data : Bytes} {start anchor p stop ml off : Nat} {rep : Reps} {out : ParseOut}

theorem ParseOut.parses_start (data : Bytes) (start : Nat) (h : Fits32 rep) :
    ParseOut.Parses data start rep start ⟨[], [], rep⟩ :=
  ⟨Replays.nil start rep, rfl, h⟩

/-- A match that fits the fields of a sequence goes on from where the last one ended. -/
theorem ParseOut.Parses.push (h : out.Parses data start rep anchor) (hp : anchor ≤ p)
    (hlen : MIN_MATCH ≤ ml) (hlit : p - anchor < 2 ^ 32) (hml : ml < 2 ^ 32) (hoff : off < 2 ^ 32)
    (real : RealMatch data p ml off) :
    (out.push data anchor p ml off).Parses data start rep (p + ml) := by
  obtain ⟨hpos, hbound, hres⟩ := encode_offset_resolves out.rep real.1 ((p - anchor) == 0)
  have hpush : out.push data anchor p ml off =
      ⟨out.seqs ++ [⟨p - anchor, ml, encode_offset out.rep off ((p - anchor) == 0)⟩],
        out.literals ++ range_of data anchor p,
        (resolve out.rep (encode_offset out.rep off ((p - anchor) == 0))
          ((p - anchor) == 0)).2⟩ := by
    unfold ParseOut.push
    dsimp only
    rw [Nat.mod_eq_of_lt hlit, Nat.mod_eq_of_lt hml, Nat.mod_eq_of_lt hoff]
  have hend : anchor + (p - anchor) = p := Nat.add_sub_cancel' hp
  rw [hpush]
  constructor
  · refine h.replays.append (Replays.cons hres hbound hlen ?_ ?_)
    · show RealMatch data (anchor + (p - anchor)) ml off
      rw [hend]
      exact real
    · show Replays data (anchor + (p - anchor) + ml) _ [] _ _
      rw [hend]
      exact Replays.nil _ _
  · show out.literals ++ range_of data anchor p = _
    rw [literal_runs_append h.replays, ← h.literals, literal_runs, literal_runs, List.append_nil]
    show _ = _ ++ range_of data anchor (anchor + (p - anchor))
    rw [hend]
  · exact h.fits.resolve hpos hres hoff

theorem ParseOut.Parses.finish (h : out.Parses data start rep anchor) (hstop : anchor ≤ stop) :
    ValidParse data start stop rep (out.finish data anchor stop) := by
  refine ⟨anchor, hstop, h.replays, ?_⟩
  show out.literals ++ range_of data anchor stop = _
  rw [h.literals]
  rfl

/-- A match length measured from an earlier position is that of a real match. -/
theorem common_len_real {c : Nat} (hc : c < p) (hp : p ≤ stop) (hstop : stop ≤ data.length) :
    RealMatch data p (common_len data c p stop) (p - c) ∧ p + common_len data c p stop ≤ stop := by
  obtain ⟨hcap, hequal, _⟩ := common_len_agrees (le_of_lt hc) hp hstop
  refine ⟨⟨by omega, Nat.sub_le _ _, ?_⟩, by omega⟩
  intro k hk
  rw [Nat.sub_sub_self (le_of_lt hc)]
  exact (hequal k hk).symm

/-- The bytes of two equal words agree. -/
theorem read_u32_inj {c : Nat} (hc : c + 4 ≤ data.length) (hp : p + 4 ≤ data.length)
    (h : read_u32 data c = read_u32 data p) :
    ∀ k, k < 4 → byte_at data (c + k) = byte_at data (p + k) := by
  have hword : ∀ q, range_of data q (q + 4) = (data.drop q).take 4 := by
    intro q
    rw [range_of, List.drop_take, Nat.add_sub_cancel_left]
  rw [← range_eq_iff hc hp, hword, hword]
  exact leNat_injective (by simp only [List.length_take, List.length_drop]; omega) h

/-- Where the first words are equal, the match is as long as the format asks. -/
theorem common_len_long {c : Nat} (hc : c < p) (hp : p + 4 ≤ stop) (hstop : stop ≤ data.length)
    (h : read_u32 data c = read_u32 data p) : MIN_MATCH ≤ common_len data c p stop := by
  have hmin : MIN_MATCH = 4 := rfl
  obtain ⟨_, _, hdiffer⟩ := @common_len_agrees data c p stop (le_of_lt hc) (by omega) hstop
  by_contra hshort
  exact hdiffer (by omega) (read_u32_inj (by omega) (by omega) h _ (by omega))

/-- A match of sufficient length, given as length and distance, is real, ends by `stop`, and is not
too far for the fields of a sequence. -/
def GoodMatch (data : Bytes) (p stop : Nat) (m : Nat × Nat) : Prop :=
  MIN_MATCH ≤ m.1 → RealMatch data p m.1 m.2 ∧ p + m.1 ≤ stop ∧ m.2 < 2 ^ 32

theorem goodMatch_short {m : Nat × Nat} (h : m.1 < MIN_MATCH) : GoodMatch data p stop m :=
  fun hlen => absurd hlen (Nat.not_le_of_lt h)

theorem common_len_good {c : Nat} (hc : c < p) (hp : p ≤ stop) (hstop : stop ≤ data.length)
    (hoff : p - c < 2 ^ 32) : GoodMatch data p stop (common_len data c p stop, p - c) := by
  obtain ⟨hreal, hin⟩ := common_len_real hc hp hstop
  exact fun _ => ⟨hreal, hin, hoff⟩

/-- A repeat offset is offered only where its match is real. -/
theorem rep_match_at_good (h : Fits32 rep) (hp : p ≤ stop) (hstop : stop ≤ data.length)
    (ll0 : Bool) :
    GoodMatch data p stop (rep_match_at data p stop rep ll0) := by
  have hfits : rep_resolved_offset rep 1 ll0 < 2 ^ 32 := by
    cases ll0
    · exact h.r0
    · exact h.r1
  unfold rep_match_at
  dsimp only
  generalize rep_resolved_offset rep 1 ll0 = off at hfits ⊢
  split_ifs with hoff hlong
  · exact goodMatch_short (by decide)
  · have hgood := @common_len_good data p stop (p - off) (by omega) hp hstop (by omega)
    rw [Nat.sub_sub_self (by omega)] at hgood
    exact hgood
  · exact goodMatch_short (by decide)

end Parsing

/-! ## Tables of positions -/

/-- Indexing consecutive positions: `Ok st p` says that those indexed in `st` are below `p`. -/
theorem inserts_upto {σ : Type} {Ok : σ → Nat → Prop} {insert : σ → Nat → σ} {st : σ} {p n : Nat}
    (hinsert : ∀ st q, p ≤ q → q < p + n → Ok st q → Ok (insert st q) (q + 1)) (h : Ok st p) :
    Ok ((List.range' p n).foldl insert st) (p + n) := by
  induction n with
  | zero => exact h
  | succ n ih =>
    rw [List.range'_1_concat, List.foldl_append]
    exact hinsert _ _ (Nat.le_add_right _ _) (Nat.lt_succ_self _)
      (ih fun st q hpq hq => hinsert st q hpq (Nat.lt_succ_of_lt hq))

/-- The table holds positions below `p` only. -/
def TableBefore (table : List Int) (p : Nat) : Prop := ∀ k, slot table k < p

theorem TableBefore.empty (log p : Nat) : TableBefore (empty_table log) p := by
  intro k
  rw [slot_empty]
  omega

section Table

variable {table : List Int} {p q : Nat}

theorem TableBefore.mono (h : TableBefore table p) (hpq : p ≤ q) : TableBefore table q :=
  fun k => lt_of_lt_of_le (h k) (by exact_mod_cast hpq)

/-- Storing a position keeps the table before the next one. -/
theorem TableBefore.store (h : TableBefore table p) (i : Nat) :
    TableBefore (table.set i (asI32 p)) (p + 1) := by
  intro k
  have hk := h k
  have hle := asI32_le p
  rw [slot_set]
  split_ifs <;> omega

theorem TableBefore.reduce (h : TableBefore table p) (drop : Nat) :
    TableBefore (reduce_index_table asI32 drop table) (p - drop) := by
  intro k
  rw [slot_reduce]
  exact BtState.reduce_entry_lt (h k)

end Table

end ZstdPure.Encode
