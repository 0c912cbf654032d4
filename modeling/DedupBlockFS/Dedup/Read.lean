-- SUMMARY: `read_dedup`: lookup, sorting, grouping of consecutive slots, and the scatter into the output buffer.
import DedupBlockFS.Dedup.Write

/-!
# Reading

`read_dedup` of `dedup.c`. Phase 1 copies the slots of the mapped blocks under
the read lock; the other phases run without a lock and read each group of
consecutive slots with one `pread`.
-/

namespace DedupBlockFS

open ByteFile

/-- `BlockPair`. -/
structure BlockPair where
  logicalIdx : Nat
  masterBlockIndex : Nat
  deriving DecidableEq

/-- The arguments of `read_dedup`; `buf` is the output buffer of `size` bytes as
    the caller hands it over. -/
structure ReadRequest where
  path : CString
  buf : List UInt8
  size : Nat
  offset : Nat
  size_eq : buf.length = size

namespace ReadRequest

def numBlocks (req : ReadRequest) : Nat := req.size / blockSize
def startBlock (req : ReadRequest) : Nat := req.offset / blockSize

end ReadRequest

/-- Phase 1 for the `numBlocks` blocks from index `i` on: stop at the first block
    without a mapping. -/
def lookupPairs (ix : Index) (hp : Heap) (path : CString) (startBlock : Nat) :
    (numBlocks i : Nat) → List BlockPair
  | 0, _ => []
  | n + 1, i =>
    match ix.lookupByFileBlock path (startBlock + i) with
    | none => []
    | some info =>
      { logicalIdx := i, masterBlockIndex := (hp.cell info).masterBlockIndex } ::
        lookupPairs ix hp path startBlock n (i + 1)

/-! ## Phase 2: sorting -/

/-- `INSERTION_SORT_THRESHOLD`. -/
def insertionSortThreshold : Nat := 32

/-- The inner loop of `insertion_sort`: `sorted` is the part in front of `tmp`, last
    element first; elements greater than `tmp` move one place to the right. -/
def insertFromRight (tmp : BlockPair) : List BlockPair → List BlockPair
  | [] => [tmp]
  | x :: sorted =>
    if x.masterBlockIndex > tmp.masterBlockIndex then x :: insertFromRight tmp sorted
    else tmp :: x :: sorted

/-- `insertion_sort`. -/
def insertionSort (arr : List BlockPair) : List BlockPair :=
  (arr.foldl (fun sorted tmp => insertFromRight tmp sorted) []).reverse

theorem insertFromRight_perm (tmp : BlockPair) (sorted : List BlockPair) :
    (insertFromRight tmp sorted).Perm (tmp :: sorted) := by
  induction sorted with
  | nil => exact .refl _
  | cons x sorted ih =>
    simp only [insertFromRight]
    split
    · exact (ih.cons x).trans (.swap tmp x sorted)
    · exact .refl _

theorem insertionSort_perm (arr : List BlockPair) : (insertionSort arr).Perm arr := by
  have hfold : ∀ (arr sorted : List BlockPair),
      (arr.foldl (fun sorted tmp => insertFromRight tmp sorted) sorted).Perm (arr ++ sorted) := by
    intro arr
    induction arr with
    | nil => intro sorted; exact .refl _
    | cons x arr ih =>
      intro sorted
      rw [List.foldl_cons]
      exact (ih _).trans (((insertFromRight_perm x sorted).append_left arr).trans List.perm_middle)
  unfold insertionSort
  exact (List.reverse_perm _).trans (by simpa using hfold arr [])

/-- `qsort` with `cmp_master_idx`: some sorted rearrangement of the array. Nothing
    else is known, in particular not the order of pairs with equal slots. -/
structure Qsort where
  sort : List BlockPair → List BlockPair
  perm : ∀ arr, (sort arr).Perm arr
  sorted : ∀ arr, (sort arr).Pairwise fun a b => a.masterBlockIndex ≤ b.masterBlockIndex

/-- Merge sort is a `qsort`. -/
def Qsort.mergeSort : Qsort where
  sort arr := arr.mergeSort fun a b => a.masterBlockIndex ≤ b.masterBlockIndex
  perm arr := List.mergeSort_perm arr _
  sorted arr := by
    have hsorted : (arr.mergeSort fun a b => a.masterBlockIndex ≤ b.masterBlockIndex).Pairwise
        fun a b => decide (a.masterBlockIndex ≤ b.masterBlockIndex) = true :=
      List.pairwise_mergeSort (fun a b c => by simp only [decide_eq_true_eq]; omega)
        (fun a b => by simp only [Bool.or_eq_true, decide_eq_true_eq]; omega) arr
    simpa only [decide_eq_true_eq] using hsorted

/-- Phase 2. -/
def sortPairs (qs : Qsort) (pairs : List BlockPair) : List BlockPair :=
  if pairs.length ≤ insertionSortThreshold then insertionSort pairs else qs.sort pairs

theorem sortPairs_perm (qs : Qsort) (pairs : List BlockPair) : (sortPairs qs pairs).Perm pairs := by
  unfold sortPairs
  split
  · exact insertionSort_perm pairs
  · exact qs.perm pairs

/-! ## Phases 3 to 5: grouped reads -/

/-- One more than the number of pairs that continue the group of `first`. -/
def groupLength (first : BlockPair) (rest : List BlockPair) : Nat :=
  Runs.runLength (fun p => some p.masterBlockIndex) first.masterBlockIndex rest + 1

/-- Phase 5: copy each block of a group from `masterBuf` to its place in the output. -/
def scatterGroup (buf masterBuf : List UInt8) (minMaster : Nat) (group : List BlockPair) :
    List UInt8 :=
  group.foldl (fun buf p =>
    memcpy buf (p.logicalIdx * blockSize)
      (pread masterBuf ((p.masterBlockIndex - minMaster) * blockSize) blockSize)) buf

/-- Read the group that starts at `first`: the new output buffer, and whether the
    `pread` was complete. A group of one block is read straight into the output. -/
def readGroup (master buf : List UInt8) (first : BlockPair) (rest : List BlockPair) :
    List UInt8 × Bool :=
  let blocksInGroup := groupLength first rest
  if blocksInGroup = 1 then
    let data := pread master (first.masterBlockIndex * blockSize) blockSize
    (memcpy buf (first.logicalIdx * blockSize) data, data.length = blockSize)
  else
    let readSize := blocksInGroup * blockSize
    let masterBuf := pread master (first.masterBlockIndex * blockSize) readSize
    if masterBuf.length ≠ readSize then (buf, false)
    else (scatterGroup buf masterBuf first.masterBlockIndex ((first :: rest).take blocksInGroup),
      true)

/-- Phases 3 to 5 over the sorted pairs; they end at the first incomplete `pread`. -/
def readGroups (master buf : List UInt8) : List BlockPair → List UInt8 × Bool
  | [] => (buf, true)
  | first :: rest =>
    match readGroup master buf first rest with
    | (buf, false) => (buf, false)
    | (buf, true) => readGroups master buf (rest.drop (groupLength first rest - 1))
termination_by pairs => pairs.length
decreasing_by simp only [List.length_drop, List.length_cons]; omega

/-- `read_dedup`: the value returned and the output buffer. `malloc` does not fail. -/
def readDedup (qs : Qsort) (ctx : Context) (req : ReadRequest) : Int × List UInt8 :=
  if req.numBlocks = 0 ∨ req.size % blockSize ≠ 0 then (Errno.neg EOPNOTSUPP, req.buf) else
  let pairs := lookupPairs ctx.index ctx.heap req.path req.startBlock req.numBlocks 0
  if pairs.length = 0 then (0, req.buf) else
  match readGroups ctx.master req.buf (sortPairs qs pairs) with
  | (buf, false) => (Errno.neg EIO, buf)
  | (buf, true) => (cInt (pairs.length * blockSize), buf)

end DedupBlockFS
