import ZstdPure.Encode.Huff

/-!
# `code_lengths` with its checks

The same steps as in `code_lengths`, on the vectors of the source: every index, every subtraction
and every sum is checked, and every `while` is a loop that must end. -/

namespace ZstdPure.Encode

open Outcome

/-- `xs[i] = f(xs[i])`. -/
def update (xs : List Nat) (i : Nat) (f : Nat → Res Nat) : Res (List Nat) := do
  let x ← get xs i
  let x ← f x
  set xs i x

/-- The arena of the tree: the heap, the weight and the parent of each node, the next free node. -/
structure Arena where
  heap : List (Nat × Nat)
  weight : List Nat
  parent : List Nat
  next : Nat

/-- `heap.pop().unwrap()`. -/
def pop_least : List (Nat × Nat) → Res ((Nat × Nat) × List (Nat × Nat))
  | [] => crash .assertion
  | least :: heap => pure (least, heap)

/-- One round of `while heap.len() > 1`. -/
def merge_step (t : Arena) : Res Arena := do
  let ((w1, a), heap) ← pop_least t.heap
  let ((w2, b), heap) ← pop_least heap
  let w ← add 64 w1 w2
  let weight ← set t.weight t.next w
  let parent ← set t.parent a t.next
  let parent ← set parent b t.next
  let w ← get weight t.next
  let next ← add 64 t.next 1
  pure ⟨heap.orderedInsert heap_le (w, t.next), weight, parent, next⟩

/-- The tree of the present symbols. -/
def build_tree (freq present : List Nat) : Res Arena := do
  let m := present.length
  let weight ← present.zipIdx.foldlM (fun weight c => do
    let w ← get freq c.1
    set weight c.2 w) (List.replicate (2 * m) 0)
  let heap := ((weight.take m).zipIdx).insertionSort heap_le
  loop (fun t => decide (1 < t.heap.length)) merge_step m
    ⟨heap, weight, List.replicate (2 * m) usizeMax, m⟩

/-- One round of `while p != usize::MAX`, on `(d, p)`. -/
def climb (parent : List Nat) (s : Nat × Nat) : Res (Nat × Nat) := do
  let d ← add 64 s.1 1
  let p ← get parent s.2
  pure (d, p)

/-- The depth of leaf `i`, added to the counts and to the depths. -/
def count_depth (parent : List Nat) (s : List Nat × List Nat) (i : Nat) :
    Res (List Nat × List Nat) := do
  let p ← get parent i
  let (d, _) ← loop (fun s => decide (s.2 ≠ usizeMax)) (climb parent) parent.length (0, p)
  let counts ← update s.1 d fun c => add 32 c 1
  pure (counts, s.2 ++ [d])

/-- `while counts[j] == 0 { j -= 1 }`. -/
def find_donor (counts : List Nat) (j : Nat) : Res Nat := do
  let j ← loop (fun j => counts.getD j 0 == 0) (fun j => do
    let _ ← get counts j
    sub j 1) j j
  let _ ← get counts j
  pure j

/-- One round of `while counts[i] > 0`. -/
def repair_round (i : Nat) (counts : List Nat) : Res (List Nat) := do
  let j ← sub i 2
  let j ← find_donor counts j
  let counts ← update counts i fun c => sub c 2
  let above ← sub i 1
  let counts ← update counts above fun c => add 32 c 1
  let below ← add 64 j 1
  let counts ← update counts below fun c => add 32 c 2
  update counts j fun c => sub c 1

/-- `while counts[i] > 0`; the length of `counts` stays, so its index is checked once. -/
def repair_while (counts : List Nat) (i : Nat) : Res (List Nat) := do
  let c ← get counts i
  loop (fun counts => decide (0 < counts.getD i 0)) (repair_round i) c counts

/-- The repair of all lengths above the limit, where one is. -/
def limit_checked (counts depth : List Nat) : Res (List Nat) := do
  let maxlen ← unwrap depth.max?
  if MAX_CODE_LEN < maxlen then
    ((List.range' (MAX_CODE_LEN + 1) (maxlen - MAX_CODE_LEN)).reverse).foldlM repair_while counts
  else pure counts

/-- `lengths[order[k]] = len; k += 1`. -/
def assign_length (order : List Nat) (s : List Nat × Nat) (len : Nat) : Res (List Nat × Nat) := do
  let symbol ← get order s.2
  let lengths ← set s.1 symbol len
  let k ← add 64 s.2 1
  pure (lengths, k)

/-- `code_lengths`, with its checks. -/
def code_lengths_checked (freq : List Nat) : Res (List Nat) := do
  let present := (List.range 256).filter fun s => 0 < freq.getD s 0
  let m := present.length
  assert (decide (2 ≤ m))
  let t ← build_tree freq present
  let (counts, depth) ← (List.range m).foldlM (count_depth t.parent) (List.replicate 64 0, [])
  let counts ← limit_checked counts depth
  let (lengths, k) ← ((counts.take (MAX_CODE_LEN + 1)).zipIdx.drop 1).foldlM (fun s c =>
    times (fun s => assign_length (by_frequency freq present) s c.2) c.1 s) (List.replicate 256 0,
    0)
  assert (k == m)
  pure lengths

end ZstdPure.Encode
