-- SUMMARY: The batched removal of a range does what single removals do, one after the other.
import DedupBlockFS.Dedup.Remove
import Mathlib.Data.List.Basic

/-!
# Batched removal

`remove_blocks_dedup_batch` collects the slots that it releases in a list of its own, and puts
this list in front of the free list at the end. `remove_block_dedup` puts each slot there at
once. `WriteSection.commit` is the state that a section would leave if it ended here; a step of
the one loop is a step of the other on it, whatever the counters and the slots are.
-/

namespace DedupBlockFS

/-- `remove_block_dedup` for each block of `[startBlock, endBlock)`. -/
def removeEach (ix : Index) (hp : Heap) (path : CString) (startBlock endBlock : Nat) :
    Index × Heap :=
  (List.range' startBlock (endBlock - startBlock)).foldl
    (fun s i => removeBlockDedup s.1 s.2 path i) (ix, hp)

/-- Index and heap once the slots to release are in the free list. -/
def WriteSection.commit (st : WriteSection) : Index × Heap :=
  ({ st.index with freeBlockList := st.toRelease ++ st.index.freeBlockList }, st.heap)

/-- One iteration of the batch is a single removal. -/
theorem removeBlockDedup_commit (st : WriteSection) (path : CString) (i : Nat) :
    removeBlockDedup st.commit.1 st.commit.2 path i = (st.removeBlock path i).commit := by
  have hsame : st.commit.1.lookupByFileBlock path i = st.index.lookupByFileBlock path i := rfl
  unfold removeBlockDedup WriteSection.removeBlock
  rw [hsame]
  cases st.index.lookupByFileBlock path i with
  | none => rfl
  | some info =>
    let removed : WriteSection := { st with index := st.index.removeFileBlock path i }
    change _ = (removed.dropReference info).commit
    by_cases hlast : (st.heap.cell info).refcount = 1
    · have hdrop : removed.dropReference info = _ := WriteSection.dropReference_last hlast
      rw [hdrop]
      simp [WriteSection.commit, hlast, removed, Index.removeFileBlock, Index.removeHash]
    · have hdrop : removed.dropReference info = _ := WriteSection.dropReference_more hlast
      rw [hdrop]
      simp [WriteSection.commit, hlast, removed, Index.removeFileBlock]

/-- The batched removal leaves the index and the heap that the single removals leave, the order
    of the free list included. -/
theorem removeBlocksDedupBatch_eq_removeEach (ctx : Context) (path : CString)
    (startBlock endBlock : Nat) :
    removeBlocksDedupBatch ctx path startBlock endBlock = { ctx with
      index := (removeEach ctx.index ctx.heap path startBlock endBlock).1
      heap := (removeEach ctx.index ctx.heap path startBlock endBlock).2 } := by
  have hopen : ctx.openSection.commit = (ctx.index, ctx.heap) := rfl
  have heach : removeEach ctx.index ctx.heap path startBlock endBlock =
      (removeBlocksSection ctx.openSection path startBlock endBlock).commit := by
    rw [removeEach, ← hopen]
    apply List.foldl_hom
    intro st i
    exact removeBlockDedup_commit st path i
  rw [heach, removeBlocksDedupBatch]
  split
  · rename_i hempty
    rw [removeBlocksSection, Nat.sub_eq_zero_of_le hempty]
    rfl
  · rfl

end DedupBlockFS
