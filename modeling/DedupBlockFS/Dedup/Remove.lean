-- SUMMARY: Dropping references to blocks: the release of one reference, single removal, and the batched removal of a range.
import DedupBlockFS.Metaindex

/-!
# Removing blocks

`remove_block_dedup` and `remove_blocks_dedup_batch` of `dedup.c`. Both end in the
same cleanup, which overwriting and rollback use as well: the thread that takes
the counter from one to zero hands the slot back, removes the hash and frees the
object.
-/

namespace DedupBlockFS

/-- What a section under the write lock works on: the index, the heap, and the
    local list of slots it will hand to the free list afterwards. -/
structure WriteSection where
  index : Index
  heap : Heap
  toRelease : List Nat

namespace WriteSection

/-- `if (__atomic_fetch_sub(&info->refcount, 1) == 1)` and the cleanup it guards. -/
def dropReference (st : WriteSection) (info : Ptr) : WriteSection :=
  let r := st.heap.fetchSub info
  if r.1 = 1 then
    { index := st.index.removeHash (r.2.cell info).hash
      heap := r.2.free info
      toRelease := (r.2.cell info).masterBlockIndex :: st.toRelease }
  else
    { st with heap := r.2 }

theorem dropReference_last {st : WriteSection} {info : Ptr}
    (h : (st.heap.cell info).refcount = 1) :
    st.dropReference info =
      { index := st.index.removeHash (st.heap.cell info).hash
        heap := (st.heap.fetchSub info).2.free info
        toRelease := (st.heap.cell info).masterBlockIndex :: st.toRelease } := by
  simp [dropReference, h]

theorem dropReference_more {st : WriteSection} {info : Ptr}
    (h : (st.heap.cell info).refcount ≠ 1) :
    st.dropReference info = { st with heap := (st.heap.fetchSub info).2 } := by
  simp [dropReference, h]

@[simp] theorem dropReference_fileToMaster (st : WriteSection) (info : Ptr) :
    (st.dropReference info).index.fileToMaster = st.index.fileToMaster := by
  by_cases h : (st.heap.cell info).refcount = 1
  · rw [dropReference_last h]
    rfl
  · rw [dropReference_more h]

@[simp] theorem dropReference_fileToSizes (st : WriteSection) (info : Ptr) :
    (st.dropReference info).index.fileToSizes = st.index.fileToSizes := by
  by_cases h : (st.heap.cell info).refcount = 1
  · rw [dropReference_last h]
    rfl
  · rw [dropReference_more h]

/-- One iteration of the loop of `remove_blocks_dedup_batch`. -/
def removeBlock (path : CString) (st : WriteSection) (i : Nat) : WriteSection :=
  match st.index.lookupByFileBlock path i with
  | none => st
  | some info => dropReference { st with index := st.index.removeFileBlock path i } info

end WriteSection

namespace Context

/-- Enter a section under the write lock with an empty list of slots to release. -/
def openSection (ctx : Context) : WriteSection where
  index := ctx.index
  heap := ctx.heap
  toRelease := []

/-- Leave a section: index and heap become the shared ones. -/
def closeSection (ctx : Context) (st : WriteSection) : Context :=
  { ctx with index := st.index, heap := st.heap }

/-- `g_slist_concat(slots, free_block_list)` under the free-list mutex. -/
def concatFreeList (ctx : Context) (slots : List Nat) : Context :=
  { ctx with index := { ctx.index with freeBlockList := slots ++ ctx.index.freeBlockList } }

@[simp] theorem openSection_index (ctx : Context) : ctx.openSection.index = ctx.index := rfl
@[simp] theorem openSection_heap (ctx : Context) : ctx.openSection.heap = ctx.heap := rfl
@[simp] theorem openSection_toRelease (ctx : Context) : ctx.openSection.toRelease = [] := rfl
@[simp] theorem concatFreeList_nil (ctx : Context) : ctx.concatFreeList [] = ctx := rfl

end Context

/-- `remove_block_dedup`: the slot goes straight to the free list. -/
def removeBlockDedup (ix : Index) (hp : Heap) (path : CString) (blockIndex : Nat) : Index × Heap :=
  match ix.lookupByFileBlock path blockIndex with
  | none => (ix, hp)
  | some info =>
    let ix := ix.removeFileBlock path blockIndex
    let (old, hp) := hp.fetchSub info
    if old = 1 then
      let slot := (hp.cell info).masterBlockIndex
      let ix := { ix with freeBlockList := slot :: ix.freeBlockList }
      (ix.removeHash (hp.cell info).hash, hp.free info)
    else
      (ix, hp)

/-- The loop of `remove_blocks_dedup_batch` over `[startBlock, endBlock)`. -/
def removeBlocksSection (st : WriteSection) (path : CString) (startBlock endBlock : Nat) :
    WriteSection :=
  (List.range' startBlock (endBlock - startBlock)).foldl (WriteSection.removeBlock path) st

/-- `remove_blocks_dedup_batch`: all lookups and removals in one section, then one
    concatenation of the released slots to the free list. -/
def removeBlocksDedupBatch (ctx : Context) (path : CString) (startBlock endBlock : Nat) : Context :=
  if startBlock ≥ endBlock then ctx else
  let st := removeBlocksSection ctx.openSection path startBlock endBlock
  (ctx.closeSection st).concatFreeList st.toRelease

end DedupBlockFS
