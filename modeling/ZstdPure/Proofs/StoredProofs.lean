import ZstdPure.Encode.Stream
import ZstdPure.Proofs.SlidePeriodProofs
import ZstdPure.Proofs.TreeProofs

/-!
# Proofs: what the tables hold

A table holds positions as they were stored, and nothing else: every entry of every table of a
finder is one of 32 bits, whatever the parses and the slides of a session were. -/

namespace ZstdPure.Encode

open Sequences

/-- The entries of a table are numbers of 32 bits. -/
def Stored (table : List Int) : Prop := ∀ v ∈ table, v < 2 ^ 31

theorem asI32_lt (p : Nat) : asI32 p < 2 ^ 31 := by
  unfold asI32
  exact Int.bmod_lt (by decide)

section Tables

variable {table : List Int}

theorem Stored.set (h : Stored table) {v : Int} (hv : v < 2 ^ 31) (k : Nat) :
    Stored (table.set k v) := by
  intro w hw
  rcases List.mem_or_eq_of_mem_set hw with hmem | rfl
  · exact h w hmem
  · exact hv

theorem Stored.slot (h : Stored table) (k : Nat) : slot table k < 2 ^ 31 := by
  unfold Encode.slot
  rcases Nat.lt_or_ge k table.length with hk | hk
  · rw [List.getD_eq_getElem _ _ hk]
    exact h _ (List.getElem_mem hk)
  · rw [List.getD_eq_default _ _ hk]
    decide

theorem Stored.empty (log : Nat) : Stored (empty_table log) := by
  intro v hv
  rw [List.eq_of_mem_replicate hv]
  decide

theorem Stored.reduce (h : Stored table) (drop : Nat) :
    Stored (reduce_index_table asI32 drop table) := by
  intro v hv
  obtain ⟨w, hw, rfl⟩ := List.mem_map.mp hv
  unfold reduce_index_entry
  split_ifs
  · exact h w hw
  · exact asI32_lt _
  · decide

end Tables

/-! ## The finders -/

section Parses

variable {cast : Nat → Int} {data : Bytes} {start stop max_offset : Nat} {rep : Reps}

theorem MatchState.insert_stored (hcast : ∀ p, cast p < 2 ^ 31) {st : MatchState}
    (h : Stored st.table) (p : Nat) :
    Stored (insert cast data st p).table := h.set (hcast p) _

theorem MatchState.parse_block_stored (hcast : ∀ p, cast p < 2 ^ 31) {st : MatchState}
    (h : Stored st.table) :
    Stored (parse_block cast data start stop max_offset rep st).2.table := by
  unfold parse_block
  split_ifs
  · exact h
  · refine While.iterate_inv (fun s : Loop => Stored s.state.table) ?_ _ _ h
    intro s hs
    have hins := @insert_stored cast data hcast s.state hs s.p
    unfold parse_step
    dsimp only
    split_ifs
    · exact List.foldlRecOn (motive := fun st : MatchState => Stored st.table) _ _ hins
        fun st hst p _ => insert_stored hcast hst p
    · exact hins

/-- Both tables of `dfast`. -/
structure DFastState.Stored (st : DFastState) : Prop where
  long : Encode.Stored st.long
  short : Encode.Stored st.short

theorem DFastState.insert_stored (hcast : ∀ p, cast p < 2 ^ 31) {st : DFastState} (h : st.Stored)
    (p : Nat) :
    (insert cast data stop st p).Stored := by
  unfold insert
  dsimp only
  split_ifs
  · exact ⟨h.long.set (hcast p) _, h.short.set (hcast p) _⟩
  · exact ⟨h.long, h.short.set (hcast p) _⟩

theorem DFastState.dfast_parse_block_stored (hcast : ∀ p, cast p < 2 ^ 31) {st : DFastState}
    (h : st.Stored) :
    (dfast_parse_block cast data start stop max_offset rep st).2.Stored := by
  unfold dfast_parse_block
  split_ifs
  · exact h
  · refine While.iterate_inv (fun s : Loop => s.state.Stored) ?_ _ _ h
    intro s hs
    have hins := @insert_stored cast data stop hcast s.state hs s.p
    unfold parse_step
    dsimp only
    split_ifs
    · exact List.foldlRecOn (motive := DFastState.Stored) _ _ hins
        fun st hst p _ => insert_stored hcast hst p
    · exact hins

/-- The heads and the links of a chain. -/
structure ChainState.Stored (st : ChainState) : Prop where
  head : Encode.Stored st.head
  chain : Encode.Stored st.chain

theorem ChainState.insert_stored (hcast : ∀ p, cast p < 2 ^ 31) {st : ChainState} (h : st.Stored)
    (p : Nat) :
    (insert cast data st p).Stored :=
  ⟨h.head.set (hcast p) _, h.chain.set (h.head.slot _) _⟩

/-- The heads and the nodes of the trees. -/
structure BtState.Stored (st : BtState) : Prop where
  hash : Encode.Stored st.hash
  bt : Encode.Stored st.bt

namespace BtState

/-- A descent moves entries from slot to slot. -/
structure Descent.Stored (d : Descent) : Prop where
  bt : Encode.Stored d.bt
  match_index : d.match_index < 2 ^ 31

variable {st : BtState}

theorem start_descent_stored (h : st.Stored) (data : Bytes) (curr : Nat) :
    (st.start_descent data curr).Stored := ⟨h.bt, h.hash.slot _⟩

theorem close_stored {d : Descent} (h : d.Stored) : Encode.Stored (close d) :=
  (h.bt.set (by decide) _).set (by decide) _

theorem descend_stored {d : Descent} (h : d.Stored) (curr mi ml : Nat) :
    (descend st data curr mi ml d).Stored := by
  unfold descend
  dsimp only
  split_ifs
  · exact ⟨h.bt.set h.match_index _, (h.bt.set h.match_index _).slot _⟩
  · exact ⟨h.bt.set h.match_index _, (h.bt.set h.match_index _).slot _⟩

theorem descend_all_stored (curr window_low nb : Nat) {d : Descent} (h : d.Stored) :
    (descend_all st data curr stop window_low nb d).Stored := by
  induction nb generalizing d with
  | zero => exact h
  | succ nb ih =>
    unfold descend_all
    dsimp only
    split_ifs
    · exact ⟨h.bt, h.match_index⟩
    · exact h
    · refine ih (descend_stored ?_ _ _ _)
      exact ⟨h.bt, h.match_index⟩
    · exact ih (descend_stored h _ _ _)
    · exact h

theorem descend_bt1_stored (curr ext_end window_low nb : Nat) {d : Descent} (h : d.Stored) :
    (descend_bt1 st data curr stop ext_end window_low nb d).Stored := by
  induction nb generalizing d with
  | zero => exact h
  | succ nb ih =>
    unfold descend_bt1
    dsimp only
    split_ifs
    · exact h
    · exact ih (descend_stored h _ _ _)
    · exact h

theorem insert_bt1_stored (hcast : ∀ p, cast p < 2 ^ 31) (h : st.Stored) (nb curr : Nat) :
    (st.insert_bt1 cast data stop max_offset nb curr).Stored :=
  ⟨h.hash.set (hcast curr) _,
    close_stored (descend_bt1_stored curr _ _ nb (start_descent_stored h data curr))⟩

theorem insert_and_get_all_matches_stored (hcast : ∀ p, cast p < 2 ^ 31) (h : st.Stored)
    (nb curr : Nat) :
    (st.insert_and_get_all_matches cast data stop max_offset nb curr).2.Stored :=
  ⟨h.hash.set (hcast curr) _,
    close_stored (descend_all_stored curr _ nb (start_descent_stored h data curr))⟩

end BtState

/-- The tables of chain and tree. -/
structure Hybrid.Stored (st : Hybrid) : Prop where
  chain : st.chain.Stored
  tree : st.tree.Stored

theorem Hybrid.insert_stored (hcast : ∀ p, cast p < 2 ^ 31) {st : Hybrid} (h : st.Stored)
    (depth p : Nat) :
    (insert cast data stop max_offset depth st p).Stored :=
  ⟨ChainState.insert_stored hcast h.chain p, BtState.insert_bt1_stored hcast h.tree depth p⟩

end Parses

namespace Collect

variable {e : CollectEnv} {s : Collect}

theorem index_upto_stored (he : ∀ p, e.cast p < 2 ^ 31) (hs : s.finder.Stored) (ap : Nat) :
    (s.index_upto e ap).finder.Stored := by
  refine List.foldlRecOn (motive := Hybrid.Stored) _ _ hs fun st hst p _ => ?_
  exact Hybrid.insert_stored he hst e.depth p

theorem step_stored (he : ∀ p, e.cast p < 2 ^ 31) (hs : s.finder.Stored) (i : Nat) :
    (s.step e i).finder.Stored := by
  rw [step]
  dsimp only
  split_ifs
  · exact hs
  · exact index_upto_stored he (index_upto_stored he hs _) _
  · exact index_upto_stored he hs _
  · rw [record_finder]
    have hupto := @index_upto_stored e ⟨s.finder, s.inserted, s.skip_until,
      ⟨s.hybrid.starts ++ [s.hybrid.flat.length % 2 ^ 32], s.hybrid.flat⟩,
      ⟨s.full.starts ++ [s.full.flat.length % 2 ^ 32], s.full.flat⟩, s.pos_long⟩ he hs
      (e.start + i)
    exact ⟨ChainState.insert_stored he hupto.chain _,
      BtState.insert_and_get_all_matches_stored he hupto.tree _ _⟩

theorem run_stored (he : ∀ p, e.cast p < 2 ^ 31) {st : Hybrid} (hs : st.Stored) :
    (run e st).finder.Stored :=
  List.foldlRecOn (motive := fun s : Collect => s.finder.Stored) _ _ hs
    fun _ hs i _ => step_stored he hs i

end Collect

/-- All the tables of a finder. -/
def Finder.Stored : Finder → Prop
  | .Fast st => Encode.Stored st.table
  | .DFast st => st.Stored
  | .Chain st _ _ => st.Stored
  | .BtLazy st _ => st.Stored
  | .Opt st _ _ _ _ => st.Stored

namespace Finder

variable {f : Finder}

theorem Stored.new (params : CParams) : (Finder.new params).Stored := by
  have hchain : ∀ a b c, (ChainState.new a b c).Stored :=
    fun _ _ _ => ⟨Encode.Stored.empty _, Encode.Stored.empty _⟩
  have hhybrid : (new_hybrid params).Stored :=
    ⟨hchain _ _ _, Encode.Stored.empty _, Encode.Stored.empty _⟩
  unfold Finder.new
  cases params.strategy with
  | Fast => exact Encode.Stored.empty (clamp params.hash_log MIN_HASH_LOG MAX_HASH_LOG)
  | Dfast =>
    exact ⟨Encode.Stored.empty (clamp params.hash_log MIN_HASH_LOG MAX_HASH_LOG),
      Encode.Stored.empty (clamp params.chain_log MIN_HASH_LOG MAX_HASH_LOG)⟩
  | Greedy => exact hchain _ _ _
  | Lazy => exact hchain _ _ _
  | Lazy2 => exact hchain _ _ _
  | BtLazy2 => exact hhybrid
  | Btopt => exact hhybrid
  | Btultra => exact hhybrid
  | Btultra2 => exact hhybrid

theorem Stored.parse {cast : Nat → Int} (hcast : ∀ p, cast p < 2 ^ 31) (h : f.Stored) (data : Bytes)
    (start stop max_offset : Nat) (rep : Reps) :
    (f.parse cast data start stop max_offset rep).2.Stored := by
  cases f with
  | Fast st => exact MatchState.parse_block_stored hcast h
  | DFast st => exact DFastState.dfast_parse_block_stored hcast h
  | Chain st lazy_steps depth =>
    exact @LazyState.parse_block_inv _ _ ChainState.Stored
      (fun _ p hst => ChainState.insert_stored hcast hst p) data start stop lazy_steps rep st h
  | BtLazy st depth =>
    exact @LazyState.parse_block_inv _ _ Hybrid.Stored
      (fun _ p hst => Hybrid.insert_stored hcast hst depth p) data start stop 2 rep st h
  | Opt st depth sufficient_len two_pass stats =>
    show (opt_parse_block cast data start stop max_offset rep depth sufficient_len two_pass st
      stats).2.1.Stored
    rw [opt_parse_block]
    split_ifs
    · exact h
    · exact Collect.run_stored hcast h

theorem Stored.reduce (h : f.Stored) (drop : Nat) : (f.reduce_index asI32 drop).Stored := by
  cases f with
  | Fast st => exact Encode.Stored.reduce h drop
  | DFast st => exact ⟨h.long.reduce drop, h.short.reduce drop⟩
  | Chain st lazy_steps depth => exact ⟨h.head.reduce drop, h.chain.reduce drop⟩
  | BtLazy st depth =>
    exact ⟨⟨h.chain.head.reduce drop, h.chain.chain.reduce drop⟩,
      ⟨h.tree.hash.reduce drop, h.tree.bt.reduce drop⟩⟩
  | Opt st depth sufficient_len two_pass stats =>
    exact ⟨⟨h.chain.head.reduce drop, h.chain.chain.reduce drop⟩,
      ⟨h.tree.hash.reduce drop, h.tree.bt.reduce drop⟩⟩

end Finder

/-! ## Sessions -/

/-- An iteration of `generate` stores the position it is at, or nothing, and finds a match within
the window there, or nothing. -/
theorem LdmState.generate_step_cases (cast : Nat → Int) (data : Bytes)
    (stop min_offset window : Nat) (s : Loop) :
    ∃ st, (st = s.state ∨ ∃ i, st = { s.state with table := s.state.table.set i (cast s.p) }) ∧
      (generate_step cast data stop min_offset window s = ⟨st, s.p + 1, s.out⟩ ∨
        ∃ len offset, offset ≤ window ∧
          generate_step cast data stop min_offset window s =
            ⟨st, s.p + len, s.out ++ [⟨s.p, len, offset⟩]⟩) := by
  unfold generate_step
  dsimp only
  split_ifs with hgate hmatch
  · exact ⟨_, Or.inl rfl, Or.inl rfl⟩
  · exact ⟨_, Or.inr ⟨_, rfl⟩, Or.inr ⟨_, _, (Nat.mod_le _ _).trans hmatch.2.2.1, rfl⟩⟩
  · exact ⟨_, Or.inr ⟨_, rfl⟩, Or.inl rfl⟩

section Sessions

variable {cast : Nat → Int} (hcast : ∀ p, cast p < 2 ^ 31)

include hcast

theorem LdmState.generate_stored {st : LdmState} (h : Stored st.table) (data : Bytes)
    (start stop min_offset window : Nat) :
    Stored (st.generate cast data start stop min_offset window).2.table := by
  have hloop := @While.iterate_inv _ (fun s : LdmState.Loop => decide (s.p ≤ stop - 8))
    (LdmState.generate_step cast data stop min_offset window)
    (fun s : LdmState.Loop => Stored s.state.table) (by
      intro s hs
      obtain ⟨next, hnext, hstep⟩ :=
        LdmState.generate_step_cases cast data stop min_offset window s
      have hstored : Stored next.table := by
        rcases hnext with rfl | ⟨i, rfl⟩
        · exact hs
        · exact hs.set (hcast s.p) i
      rcases hstep with heq | ⟨len, offset, -, heq⟩
      · rw [heq]
        exact hstored
      · rw [heq]
        exact hstored)
    (stop - start) ⟨st, start, []⟩ h
  unfold LdmState.generate
  split_ifs
  · exact h
  · exact hloop

theorem parse_gap_stored (data : Bytes) (max_offset : Nat) {s : LdmLoop} (hs : s.finder.Stored)
    (pos : Nat) : (parse_gap cast data max_offset s pos).2.finder.Stored := by
  unfold parse_gap
  split_ifs
  · exact hs.parse hcast data _ _ _ _
  · exact hs

theorem parse_with_ldm_stored {f : Finder} (h : f.Stored) (data : Bytes)
    (start stop max_offset : Nat) (rep : Reps) (ms : List LdmSeq) :
    (parse_with_ldm cast f data start stop max_offset rep ms).2.Stored := by
  have hfold : (ms.foldl (ldm_step cast data max_offset) ⟨f, start, ⟨[], [], rep⟩⟩).finder.Stored :=
    List.foldlRecOn (motive := fun s : LdmLoop => s.finder.Stored) _ _ h
      fun _ hs m _ => parse_gap_stored hcast data max_offset hs m.pos
  exact parse_gap_stored hcast data max_offset hfold stop

end Sessions

/-- All the tables of a session. -/
structure Session.Stored (s : Session) : Prop where
  finder : s.finder.Stored
  ldm : ∀ st ∈ s.ldm, Encode.Stored st.table

theorem encode_block_stored {e : FrameEnv} (hcast : ∀ p, e.cast p < 2 ^ 31) {s : Session}
    (h : s.Stored) (last : Bool) (data : Bytes) (start stop : Nat) :
    (encode_block e last data start stop s).2.Stored := by
  obtain ⟨finder, ldm, state⟩ := s
  cases ldm with
  | none => exact ⟨h.finder.parse hcast data _ _ _ _, fun st hst => by cases hst⟩
  | some ldm =>
    refine ⟨parse_with_ldm_stored hcast h.finder data _ _ _ _ _, fun st hst => ?_⟩
    rw [← Option.mem_some_iff.mp hst]
    exact LdmState.generate_stored hcast (h.ldm ldm rfl) data _ _ _ _

theorem Session.Stored.reduce {s : Session} (h : s.Stored) (drop : Nat) :
    (s.reduce_index asI32 drop).Stored := by
  refine ⟨h.finder.reduce drop, fun st hst => ?_⟩
  obtain ⟨st₀, hst₀, rfl⟩ := Option.map_eq_some_iff.mp hst
  exact (h.ldm st₀ hst₀).reduce drop

end ZstdPure.Encode
