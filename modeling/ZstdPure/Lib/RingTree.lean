import Mathlib

/-!
# Search trees whose links lie in a ring

A node is a number, and its two links are in two slots of a table, which depend on the number modulo
the size `R` of the ring. The slots of a node are its own as long as no node `R` above it has been
made: the nodes above the mark `low` are live, and a link to any other is as good as none.

A tree is ordered by a relation `lt` of the nodes, and a link leads to a lower number than that of
the node. The two sides of a node are `false`, its smaller nodes, and `true`, its larger ones; all
is stated for a side `d`, so that each argument is made once. -/

namespace RingTree

/-! ## Slots and links -/

/-- The slot of the link of the node `p` to its side `d`. -/
def slot (R p : Nat) (d : Bool) : Nat := 2 * (p % R) + d.toNat

/-- The link in the slot `k`: a node, or a negative number. -/
def link (t : List Int) (k : Nat) : Int := t.getD k (-1)

theorem link_set_ne {t : List Int} {k j : Nat} (h : k ≠ j) (v : Int) :
    link (t.set k v) j = link t j := by
  unfold link
  rw [List.getD, List.getD, List.getElem?_set_ne h]

theorem link_set_self {t : List Int} {k : Nat} (h : k < t.length) (v : Int) :
    link (t.set k v) k = v := by
  unfold link
  rw [List.getD, List.getElem?_set_self h]
  rfl

theorem slot_lt {R : Nat} (hR : 0 < R) (p : Nat) (d : Bool) : slot R p d < 2 * R := by
  have h1 := Nat.mod_lt p hR
  have h2 := Bool.toNat_le d
  unfold slot
  omega

theorem slot_side {R p : Nat} {d e : Bool} (h : d ≠ e) : slot R p d ≠ slot R p e := by
  unfold slot
  cases d <;> cases e <;> simp at h ⊢

/-- Two live nodes within one turn of the ring share no slot. -/
theorem slot_ne {R low p q : Nat} (hlow : low < p) (hpq : p < q) (hq : q ≤ low + R) (d e : Bool) :
    slot R p d ≠ slot R q e := by
  intro heq
  have h1 := Bool.toNat_le d
  have h2 := Bool.toNat_le e
  have hmod : q % R = p % R := by
    unfold slot at heq
    omega
  have hdvd := Nat.sub_mod_eq_zero_of_mod_eq hmod
  rw [Nat.mod_eq_of_lt (by omega)] at hdvd
  omega

/-- A whole number of turns down, the slots are the same. -/
theorem slot_sub {R drop p : Nat} (hdrop : R ∣ drop) (hle : drop ≤ p) (d : Bool) :
    slot R (p - drop) d = slot R p d := by
  obtain ⟨k, rfl⟩ := hdrop
  unfold slot
  rw [Nat.sub_mul_mod hle]

/-! ## Sides and bounds -/

section Order

variable {lt : Nat → Nat → Prop}

/-- `q` is on the side `d` of `p`. -/
def Side (lt : Nat → Nat → Prop) (d : Bool) (p q : Nat) : Prop := if d then lt p q else lt q p

theorem side_not {d : Bool} {p q : Nat} : Side lt (!d) p q ↔ Side lt d q p := by
  cases d <;> exact Iff.rfl

theorem Side.trans (htrans : ∀ p q r, lt p q → lt q r → lt p r) {d : Bool} {p q r : Nat}
    (h : Side lt d p q) (h' : Side lt d q r) : Side lt d p r := by
  cases d
  · exact htrans r q p h' h
  · exact htrans p q r h h'

theorem Side.irrefl (hirrefl : ∀ p, ¬ lt p p) {d : Bool} {p : Nat} : ¬ Side lt d p p := by
  cases d <;> exact hirrefl p

/-- `q` is within the bounds `b`: the bound to the side `d`, if any, is on the side `d` of `q`. -/
def Within (lt : Nat → Nat → Prop) (b : Bool → Option Nat) (q : Nat) : Prop :=
  ∀ d, ∀ s ∈ b d, Side lt d q s

theorem within_none (q : Nat) : Within lt (fun _ => none) q := fun _ _ h => by cases h

/-- What is within a bound that is within the bounds is within them. -/
theorem Within.of_update (htrans : ∀ p q r, lt p q → lt q r → lt p r) {b : Bool → Option Nat}
    {p q : Nat} {e : Bool} (hp : Within lt b p) (hq : Within lt (Function.update b e (some p)) q) :
    Within lt b q := by
  intro d s hs
  by_cases hd : d = e
  · subst hd
    have hqp := hq d p (by rw [Function.update_self]; rfl)
    exact hqp.trans htrans (hp d s hs)
  · exact hq d s (by rw [Function.update_of_ne hd]; exact hs)

theorem Within.update {b : Bool → Option Nat} {p q : Nat} {e : Bool} (hq : Within lt b q)
    (hp : Side lt e q p) : Within lt (Function.update b e (some p)) q := by
  intro d s hs
  by_cases hd : d = e
  · subst hd
    rw [Function.update_self] at hs
    obtain rfl : p = s := by simpa using hs
    exact hp
  · rw [Function.update_of_ne hd] at hs
    exact hq d s hs

theorem Within.side {b : Bool → Option Nat} {p q : Nat} {e : Bool}
    (h : Within lt (Function.update b e (some p)) q) : Side lt e q p :=
  h e p (by rw [Function.update_self]; rfl)

/-- The bounds `drop` down. -/
theorem map_update (b : Bool → Option Nat) (e : Bool) (p drop : Nat) :
    (fun d => (Function.update b e (some p) d).map (· - drop)) =
      Function.update (fun d => (b d).map (· - drop)) e (some (p - drop)) := by
  funext d
  by_cases hd : d = e
  · subst hd
    rw [Function.update_self, Function.update_self]
    rfl
  · rw [Function.update_of_ne hd, Function.update_of_ne hd]

theorem Within.shift {lt' : Nat → Nat → Prop} {b : Bool → Option Nat} {p drop : Nat}
    (hlt : ∀ p q, drop ≤ p → drop ≤ q → lt p q → lt' (p - drop) (q - drop)) (hle : drop ≤ p)
    (hb : ∀ d, ∀ s ∈ b d, p < s) (h : Within lt b p) :
    Within lt' (fun d => (b d).map (· - drop)) (p - drop) := by
  intro d s hs
  obtain ⟨s', hs', rfl⟩ := Option.mem_map.mp hs
  have hside := h d s' hs'
  have hps := hb d s' hs'
  cases d
  · exact hlt _ _ (by omega) hle hside
  · exact hlt _ _ hle (by omega) hside

/-- A link below a node and its bounds is below the bounds of either side of the node. -/
theorem lt_update {b : Bool → Option Nat} {p : Nat} {v : Int} (hv : v < p)
    (hb : ∀ d, ∀ s ∈ b d, v < s) (e : Bool) : ∀ d, ∀ s ∈ Function.update b e (some p) d, v < s := by
  intro d s hs
  by_cases hd : d = e
  · subst hd
    rw [Function.update_self] at hs
    rw [← Option.some_inj.mp hs]
    exact hv
  · rw [Function.update_of_ne hd] at hs
    exact hb d s hs

end Order

/-! ## Trees -/

section Tree

variable {R low : Nat} {lt : Nat → Nat → Prop} {ok : Nat → Prop} {t F : List Int}

/-- The link `v` leads to a tree within the bounds `b`, whose nodes satisfy `ok`. -/
inductive Tree (R : Nat) (lt : Nat → Nat → Prop) (ok : Nat → Prop) (low : Nat) (t : List Int) :
    (Bool → Option Nat) → Int → Prop
  | leaf {b : Bool → Option Nat} {v : Int} (dead : v ≤ low) : Tree R lt ok low t b v
  | node {b : Bool → Option Nat} {p : Nat} (live : low < p) (good : ok p) (within : Within lt b p)
    (older : ∀ d, link t (slot R p d) < p)
    (child : ∀ d, Tree R lt ok low t (Function.update b (!d) (some p)) (link t (slot R p d))) :
    Tree R lt ok low t b p

/-- What a link to a live node leads to. -/
theorem Tree.cases_live {b : Bool → Option Nat} {p : Nat} (h : Tree R lt ok low t b p)
    (hp : low < p) : ok p ∧ Within lt b p ∧ (∀ d, link t (slot R p d) < p) ∧
      ∀ d, Tree R lt ok low t (Function.update b (!d) (some p)) (link t (slot R p d)) := by
  generalize hv : (p : Int) = v at h
  cases h with
  | leaf dead => omega
  | node live good within older child =>
    obtain rfl := Int.ofNat_inj.mp hv
    exact ⟨good, within, older, child⟩

/-- A tree is what the slots of its nodes make it. -/
theorem Tree.congr (htrans : ∀ p q r, lt p q → lt q r → lt p r) {b : Bool → Option Nat} {v : Int}
    (h : Tree R lt ok low t b v)
    (heq : ∀ q d, low < q → (q : Int) ≤ v → ok q → Within lt b q →
      link F (slot R q d) = link t (slot R q d)) :
    Tree R lt ok low F b v := by
  induction h with
  | leaf dead => exact Tree.leaf dead
  | @node b p live good within older child ih =>
    have hp := fun d => heq p d live (le_refl _) good within
    refine Tree.node live good within ?_ ?_
    · intro d
      rw [hp d]
      exact older d
    · intro d
      rw [hp d]
      refine ih d ?_
      intro q e hlow hle hgood hq
      exact heq q e hlow (hle.trans (le_of_lt (older d))) hgood (within.of_update htrans hq)

/-- Fewer nodes are live under a higher mark. -/
theorem Tree.mono {low' : Nat} (hlow : low ≤ low') {b : Bool → Option Nat} {v : Int}
    (h : Tree R lt ok low t b v) : Tree R lt ok low' t b v := by
  induction h with
  | leaf dead => exact Tree.leaf (by omega)
  | @node b p live good within older _ ih =>
    rcases Nat.lt_or_ge low' p with hp | hp
    · exact Tree.node hp good within older ih
    · exact Tree.leaf (by omega)

/-- A tree stays one under a coarser order. -/
theorem Tree.imp {lt' : Nat → Nat → Prop} {ok' : Nat → Prop} (hlt : ∀ p q, lt p q → lt' p q)
    (hok : ∀ p, ok p → ok' p) {b : Bool → Option Nat} {v : Int} (h : Tree R lt ok low t b v) :
    Tree R lt' ok' low t b v := by
  induction h with
  | leaf dead => exact Tree.leaf dead
  | node live good within older _ ih =>
    refine Tree.node live (hok _ good) ?_ older ih
    intro d s hs
    have hside := within d s hs
    cases d
    · exact hlt _ _ hside
    · exact hlt _ _ hside

/-- A tree whose nodes are all renumbered down by a whole number of turns. Links that do not follow
are dead. -/
theorem Tree.shift {lt' : Nat → Nat → Prop} {ok' : Nat → Prop} {drop bound : Nat} {red : Int → Int}
    (hdrop : R ∣ drop)
    (hlt : ∀ p q, drop ≤ p → drop ≤ q → lt p q → lt' (p - drop) (q - drop))
    (hok : ∀ p, drop ≤ p → ok p → ok' (p - drop))
    (hred : ∀ v : Int, v < bound → (drop ≤ v ∧ red v = v - drop) ∨ red v ≤ (low - drop : Nat))
    (hlink : ∀ k, link F k = red (link t k)) {b : Bool → Option Nat} {v : Int}
    (h : Tree R lt ok low t b v) (hv : v < bound) (hb : ∀ d, ∀ s ∈ b d, v < s) :
    Tree R lt' ok' (low - drop) F (fun d => (b d).map (· - drop)) (red v) := by
  induction h with
  | leaf dead =>
    refine Tree.leaf ?_
    rcases hred _ hv with ⟨hle, heq⟩ | hdead
    · omega
    · exact hdead
  | @node b p live good within older _ ih =>
    rcases hred _ hv with ⟨hle, heq⟩ | hdead
    · have hle : drop ≤ p := by exact_mod_cast hle
      have hcast : red p = ((p - drop : Nat) : Int) := by omega
      rw [hcast]
      rcases Nat.lt_or_ge (low - drop) (p - drop) with hlive | hlive
      · refine Tree.node hlive (hok p hle good) ?_ ?_ ?_
        · exact within.shift hlt hle fun d s hs => by exact_mod_cast hb d s hs
        · intro d
          have hold := older d
          rw [slot_sub hdrop hle, hlink]
          rcases hred (link t (slot R p d)) (by omega) with ⟨_, h2⟩ | h2 <;> omega
        · intro d
          have hold := older d
          have hbelow : ∀ e, ∀ s ∈ b e, link t (slot R p d) < s :=
            fun e s hs => hold.trans (hb e s hs)
          rw [slot_sub hdrop hle, hlink, ← map_update]
          exact ih d (by omega) (lt_update hold hbelow (!d))
      · exact Tree.leaf (by omega)
    · exact Tree.leaf hdead

end Tree

/-! ## A new root

A node `curr` above all others becomes the root: the descent from the old root hands each node it
passes to the side of `curr` it is on, in the slot left open there, and leaves open the slot of its
own link to the other side. -/

section Split

variable {R low curr : Nat} {lt : Nat → Nat → Prop} {ok : Nat → Prop}

/-- The descent from the link `v` with the open slots `h` ends in the table `F`. It may end at any
link: what is below is dropped. -/
inductive Split (R : Nat) (lt : Nat → Nat → Prop) (low curr : Nat) :
    List Int → Int → (Bool → Nat) → List Int → Prop
  | close {t : List Int} {v : Int} {h : Bool → Nat} :
    Split R lt low curr t v h ((t.set (h false) (-1)).set (h true) (-1))
  | go {t F : List Int} {p : Nat} {h : Bool → Nat} (d : Bool) (live : low < p)
    (side : Side lt d curr p)
    (rest : Split R lt low curr (t.set (h d) p) (link (t.set (h d) p) (slot R p (!d)))
      (Function.update h d (slot R p (!d))) F) :
    Split R lt low curr t p h F

/-- An open slot is that of a node above `v`. -/
def Open (R curr : Nat) (v : Int) (k : Nat) : Prop := ∃ q d, v < (q : Nat) ∧ q ≤ curr ∧
    k = slot R q d

theorem Open.mono {v w : Int} {k : Nat} (h : Open R curr v k) (hw : w ≤ v) : Open R curr w k := by
  obtain ⟨q, d, hv, hq, hk⟩ := h
  exact ⟨q, d, lt_of_le_of_lt hw hv, hq, hk⟩

theorem Open.lt_length {v : Int} {k : Nat} (h : Open R curr v k) (hR : 0 < R) {t : List Int}
    (hlen : 2 * R ≤ t.length) : k < t.length := by
  obtain ⟨q, d, _, _, rfl⟩ := h
  exact lt_of_lt_of_le (slot_lt hR q d) hlen

/-- An open slot is none of those of the live nodes further down. -/
theorem Open.ne {v : Int} {k : Nat} (h : Open R curr v k) (hR : curr ≤ low + R) {p : Nat} (e : Bool)
    (hlow : low < p) (hp : (p : Int) ≤ v) : k ≠ slot R p e := by
  obtain ⟨q, d, hv, hq, rfl⟩ := h
  exact (slot_ne hlow (by omega) (by omega) e d).symm

/-- The slots open below a node: its own link to the other side in place of the slot it took. -/
theorem Open.next {p : Nat} {w : Int} {h : Bool → Nat} (hopen : ∀ e, Open R curr p (h e))
    (hp : p ≤ curr) (hw : w < p) (d : Bool) (e : Bool) :
    Open R curr w (Function.update h d (slot R p (!d)) e) := by
  by_cases he : e = d
  · subst he
    rw [Function.update_self]
    exact ⟨p, !e, hw, hp, rfl⟩
  · rw [Function.update_of_ne he]
    exact (hopen e).mono (le_of_lt hw)

/-- What a descent leaves: on each side of `curr` a tree at the slot that was open there, and any
slot but these and those of the nodes below as it was. -/
structure Halves (R : Nat) (lt : Nat → Nat → Prop) (ok : Nat → Prop) (low curr : Nat) (t : List Int)
    (b : Bool → Option Nat) (v : Int) (h : Bool → Nat) (F : List Int) : Prop where
  length : F.length = t.length
  frame : ∀ k, (∀ d, k ≠ h d) → (∀ q d, low < q → (q : Int) ≤ v → ok q → Within lt b q →
    k ≠ slot R q d) → link F k = link t k
  older : ∀ d (p : Nat), v < p → link F (h d) < p
  tree : ∀ d, Tree R lt ok low F (Function.update b (!d) (some curr)) (link F (h d))

/-- Where the descent stops the two open slots are closed. -/
theorem Halves.close {t : List Int} {v : Int} {h : Bool → Nat} {b : Bool → Option Nat}
    (hne : h false ≠ h true) (hlt : ∀ d, h d < t.length) :
    Halves R lt ok low curr t b v h ((t.set (h false) (-1)).set (h true) (-1)) := by
  have hclosed : ∀ d, link ((t.set (h false) (-1)).set (h true) (-1)) (h d) = -1 := by
    intro d
    cases d
    · rw [link_set_ne hne.symm, link_set_self (hlt false)]
    · rw [link_set_self (by rw [List.length_set]; exact hlt true)]
  constructor
  · rw [List.length_set, List.length_set]
  · intro k hk _
    rw [link_set_ne (hk true).symm, link_set_ne (hk false).symm]
  · intro d p _
    rw [hclosed]
    omega
  · intro d
    rw [hclosed]
    exact Tree.leaf (by omega)

/-! ### One step of the descent

The descent passes the live node `p`: its number goes into the slot open to its side `d`, and the
slot of its own link to the other side is open in its place. -/

section Step

variable {t F : List Int} {p : Nat} {h : Bool → Nat} {b : Bool → Option Nat} {d : Bool}
variable (hlow : curr ≤ low + R) (live : low < p) (hp : p < curr) (hopen : ∀ e, Open R curr p (h e))
  (hne : h false ≠ h true) (older : ∀ e, link t (slot R p e) < p)
  (below : Halves R lt ok low curr (t.set (h d) p) (Function.update b d (some p))
    (link t (slot R p (!d))) (Function.update h d (slot R p (!d))) F)

include hlow live hopen in
/-- The slots of the node are none of the open ones. -/
theorem step_free (e e' : Bool) : h e ≠ slot R p e' := (hopen e).ne hlow e' live (le_refl _)

include hlow live hopen in
theorem step_ne : Function.update h d (slot R p (!d)) false ≠
    Function.update h d (slot R p (!d)) true := by
  cases d
  · rw [Function.update_self, Function.update_of_ne (by decide)]
    exact (step_free hlow live hopen true _).symm
  · rw [Function.update_self, Function.update_of_ne (by decide)]
    exact step_free hlow live hopen false _

include hlow hopen older in
/-- Below the other link, the nodes are between this one and the bound of that side. -/
theorem step_tree (htrans : ∀ p q r, lt p q → lt q r → lt p r)
    (child : Tree R lt ok low t (Function.update b d (some p)) (link t (slot R p (!d)))) :
    Tree R lt ok low (t.set (h d) p) (Function.update b d (some p)) (link t (slot R p (!d))) := by
  refine child.congr htrans ?_
  intro q e hq hle _ _
  have hbelow := older (!d)
  exact link_set_ne ((hopen d).ne hlow e hq (by omega)) _

include hlow hopen older below in
/-- The slot that was open holds the node. -/
theorem step_hole (hd : h d < t.length) (live : low < p) (hne : h false ≠ h true) : link F (h d) =
    p := by
  have hbelow := older (!d)
  rw [below.frame (h d), link_set_self hd]
  · intro e
    by_cases he : e = d
    · rw [he, Function.update_self]
      exact step_free hlow live hopen d _
    · rw [Function.update_of_ne he]
      intro heq
      cases d <;> cases e <;> first | exact he rfl | exact hne heq | exact hne heq.symm
  · intro q e hq hle _ _
    exact (hopen d).ne hlow e hq (by omega)

include hlow live hp hopen older below in
/-- The node keeps its link to its side. -/
theorem step_link : link F (slot R p d) = link t (slot R p d) := by
  have hbelow := older (!d)
  rw [below.frame (slot R p d), link_set_ne (step_free hlow live hopen d d)]
  · intro e
    by_cases he : e = d
    · rw [he, Function.update_self]
      exact slot_side (by simp)
    · rw [Function.update_of_ne he]
      exact (step_free hlow live hopen e d).symm
  · intro q e hq hle _ _
    exact (slot_ne hq (by omega) (by omega) e d).symm

include hlow hp hopen older below in
/-- What lies on the near side of the node is not touched. -/
theorem step_near (htrans : ∀ p q r, lt p q → lt q r → lt p r) (hirrefl : ∀ p, ¬ lt p p)
    {q : Nat} (e : Bool) (hq : low < q) (hle : (q : Int) ≤ link t (slot R p d))
    (hqb : Within lt (Function.update b (!d) (some p)) q) :
    link F (slot R q e) = link t (slot R q e) := by
  have hbelow := older (!d)
  have hqp : (q : Int) < p := lt_of_le_of_lt hle (older d)
  rw [below.frame (slot R q e), link_set_ne ((hopen d).ne hlow e hq (by omega))]
  · intro e'
    by_cases he : e' = d
    · rw [he, Function.update_self]
      exact slot_ne hq (by omega) (by omega) e (!d)
    · rw [Function.update_of_ne he]
      exact ((hopen e').ne hlow e hq (by omega)).symm
  · intro q' e' hq' hle' _ hqb'
    -- a node of the far side is not one of the near side
    rcases lt_trichotomy q q' with hlt | rfl | hlt
    · exact slot_ne hq hlt (by omega) e e'
    · exact absurd ((side_not.mp hqb.side).trans htrans hqb'.side) (Side.irrefl hirrefl)
    · exact (slot_ne hq' hlt (by omega) e' e).symm

include hlow live hp hopen hne older below in
/-- What the descent leaves below the node is what it leaves at the node. -/
theorem Halves.go (htrans : ∀ p q r, lt p q → lt q r → lt p r) (hirrefl : ∀ p, ¬ lt p p)
    (hd : h d < t.length) (side : Side lt d curr p) (good : ok p) (within : Within lt b p)
    (near : Tree R lt ok low t (Function.update b (!d) (some p)) (link t (slot R p d))) :
    Halves R lt ok low curr t b p h F := by
  have hbelow := older (!d)
  have hhole := step_hole hlow hopen older below hd live hne
  have hnode := step_link hlow live hp hopen older below
  have hupd : Function.update h d (slot R p (!d)) d = slot R p (!d) := Function.update_self ..
  have hkeep : Function.update h d (slot R p (!d)) (!d) = h (!d) :=
    Function.update_of_ne (by simp) ..
  have holder := below.older d
  have hfar := below.tree d
  have hother := below.tree (!d)
  rw [hupd] at holder hfar
  rw [hkeep, Bool.not_not, Function.update_idem] at hother
  constructor
  · rw [below.length, List.length_set]
  · intro k hk hnodes
    rw [below.frame k, link_set_ne (hk d).symm]
    · intro e
      by_cases he : e = d
      · rw [he, hupd]
        exact hnodes p _ live (le_refl _) good within
      · rw [Function.update_of_ne he]
        exact hk e
    · intro q e hq hle hgood hqb
      exact hnodes q e hq (by omega) hgood (within.of_update htrans hqb)
  · intro e q hq
    by_cases he : e = d
    · rw [he, hhole]
      exact hq
    · rw [Bool.eq_not_of_ne he]
      have hlast := below.older (!d) q (by omega)
      rw [hkeep] at hlast
      exact hlast
  · intro e
    by_cases he : e = d
    · -- the node is the root of its half: its near side as it was, its far side from below
      subst he
      rw [hhole]
      refine Tree.node live good (within.update (side_not.mpr side)) ?_ ?_
      · intro e'
        by_cases he' : e' = e
        · rw [he', hnode]
          exact older e
        · rw [Bool.eq_not_of_ne he']
          exact holder p hbelow
      · intro e'
        by_cases he' : e' = e
        · rw [he', hnode, Function.update_idem]
          refine near.congr htrans ?_
          intro q e'' hq hle _ hqb
          exact step_near hlow hp hopen older below htrans hirrefl e'' hq hle hqb
        · rw [Bool.eq_not_of_ne he', Bool.not_not, Function.update_comm (by simp)]
          exact hfar
    · rw [Bool.eq_not_of_ne he, Bool.not_not]
      exact hother

end Step

theorem Split.halves (hR : 0 < R) (hlow : curr ≤ low + R)
    (htrans : ∀ p q r, lt p q → lt q r → lt p r) (hirrefl : ∀ p, ¬ lt p p) {t F : List Int}
      {v : Int}
    {h : Bool → Nat} (s : Split R lt low curr t v h F) {b : Bool → Option Nat}
    (hlen : 2 * R ≤ t.length) (ht : Tree R lt ok low t b v) (hb : Within lt b curr)
    (hopen : ∀ d, Open R curr v (h d)) (hne : h false ≠ h true) :
    Halves R lt ok low curr t b v h F := by
  induction s generalizing b with
  | @close t v h => exact Halves.close hne fun d => (hopen d).lt_length hR hlen
  | @go t F p h d live side rest ih =>
    obtain ⟨good, within, older, child⟩ := ht.cases_live live
    have hp : p < curr := by
      obtain ⟨q, _, hq, hqc, _⟩ := hopen d
      omega
    have hread : link (t.set (h d) p) (slot R p (!d)) = link t (slot R p (!d)) :=
      link_set_ne (step_free hlow live hopen d _) _
    rw [hread] at rest ih
    have hfar := child (!d)
    rw [Bool.not_not] at hfar
    have hbelow := ih (by rw [List.length_set]; exact hlen) (step_tree hlow hopen older htrans hfar)
      (hb.update side) (Open.next hopen (le_of_lt hp) (older (!d)) d) (step_ne hlow live hopen)
    exact Halves.go hlow live hp hopen hne older hbelow htrans hirrefl ((hopen d).lt_length hR hlen)
      side
      good within (child d)

end Split

end RingTree
