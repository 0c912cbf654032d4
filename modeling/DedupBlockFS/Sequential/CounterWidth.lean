-- SUMMARY: When the 32-bit counters keep every mapped block alive, and a run that wraps one of them.
import DedupBlockFS.Sequential.Failure
import Mathlib.Data.List.Induction

/-!
# The width of the counter

Nothing checks `refcount` before it is incremented. As long as every write leaves fewer
than 2^32 references to any one block, no mapped block is ever released. The block of
zeros of one large file is enough to go beyond that.
-/

namespace DedupBlockFS

open Table (values)

/-- Every mapped object is published, and its slot is not free. -/
def LiveKept (ctx : Context) : Prop :=
  ∀ k m, ctx.index.fileToMaster.lookup k = some m →
    ctx.index.Published m ∧ (ctx.heap.cell m).masterBlockIndex ∉ ctx.index.freeBlockList

section
variable [Sha512] {W : List UInt8 → Prop} {ctx : Context}

theorem Quiet.liveKept (hq : Quiet W ctx) : LiveKept ctx := by
  intro k m hm
  have hpub := hq.mapped m (Table.mem_values_of_lookup hm)
  refine ⟨hpub, ?_⟩
  intro hfree
  have hnodup := hq.accounts.slots_nodup
  rw [add_zero] at hnodup
  exact Multiset.disjoint_left.mp (Multiset.nodup_add.mp hnodup).2.2
    (Multiset.mem_coe.mpr hfree) (Multiset.mem_map_of_mem _ hpub)

/-- In a run all of whose writes leave fewer than 2^32 references to any one block, no
    object and no slot is released while a block is mapped to it. -/
theorem live_blocks_kept (h : sequential.Reachable Roomy ctx) : LiveKept ctx :=
  (Quiet.reachable_any h).liveKept

end

/-- One block of zeros. -/
theorem live_blocks_kept_of_afterZeroWrite : LiveKept afterZeroWrite :=
  @live_blocks_kept Sha512.zerosAndOnes _ afterZeroWrite_reachable

/-! ## One block after the other -/

section
variable [Sha512] {ctx : Context} {req : WriteRequest} {m : Ptr} {n : Nat}

variable (req) in
/-- A write of one block whose content is known, to a place where no block is mapped. -/
theorem writeDedup_of_hit (hsize : req.size = blockSize)
    (hknown : ctx.index.lookupByHash (hash req.buf) = some m)
    (hnew : ctx.index.lookupByFileBlock req.path req.startBlock = none)
    (io : Nat → ByteFile.PwriteResult) :
    (writeDedup ctx req io).1 =
      { ctx with
        index := growSize (ctx.index.insertFileBlock req.path req.startBlock m) req.path
          ((req.startBlock + 1) * blockSize)
        heap := ctx.heap.fetchAdd m } := by
  have hone : req.numBlocks = 1 := by rw [WriteRequest.numBlocks, hsize]; rfl
  have hpos : req.size ≠ 0 := by rw [hsize]; decide
  have haligned : req.size % blockSize = 0 := by rw [hsize, Nat.mod_self]
  have hprepare : prepareWrite ctx req = ({ ctx with heap := ctx.heap.fetchAdd m },
      [{ kind := .hit, logicalBlk := req.startBlock, masterBlk := 0, payload := 0,
         hash := hash req.buf, info := m }], 0) := by
    simp [prepareWrite, pass1, hone, pass1Block, hknown]
  simp [writeDedup, hpos, hone, haligned, hprepare, pass3Section, publishPlan, mapBlock, hnew,
    Context.closeSection]

/-- The file `a` has `n` blocks of zeros. They are mapped to one object, whose counter has
    been incremented for each of them. -/
structure Popular (n : Nat) (ctx : Context) : Prop where
  known : ∀ x, ctx.index.lookupByHash x = some 0 ↔ x = hash (WriteRequest.zeros pathA 0 1).buf
  hash : (ctx.heap.cell 0).hash = DedupBlockFS.hash (WriteRequest.zeros pathA 0 1).buf
  refcount : (ctx.heap.cell 0).refcount = n % 2 ^ 32
  mapped : ∀ i, ctx.index.lookupByFileBlock pathA i = if i < n then some 0 else none
  size : ctx.index.fileToSizes.lookup pathA = some (n * blockSize)

/-- One more block of zeros. -/
theorem Popular.write (h : Popular n ctx) (io : Nat → ByteFile.PwriteResult) :
    Popular (n + 1) (writeDedup ctx (.zeros pathA n 1) io).1 := by
  have hstart : (WriteRequest.zeros pathA n 1).startBlock = n := Nat.mul_div_cancel n (by decide)
  have hnew : ctx.index.lookupByFileBlock pathA (WriteRequest.zeros pathA n 1).startBlock = none := by
    rw [h.mapped, hstart, if_neg (Nat.lt_irrefl n)]
  rw [writeDedup_of_hit (.zeros pathA n 1) rfl ((h.known _).mpr rfl) hnew io, hstart]
  refine ⟨?_, ?_, ?_, ?_, ?_⟩
  · intro x
    rw [growSize_eq]
    exact h.known x
  · rw [Heap.fetchAdd_hash]
    exact h.hash
  · rw [Heap.fetchAdd_refcount, if_pos rfl, h.refcount, Nat.mod_add_mod]
  · intro i
    rw [growSize_eq]
    show (ctx.index.fileToMaster.insert ⟨pathA, n⟩ 0).lookup ⟨pathA, i⟩ = _
    by_cases hi : i = n
    · rw [hi, AList.lookup_insert, if_pos (Nat.lt_succ_self n)]
    · have hne : (⟨pathA, i⟩ : BlockIndice) ≠ ⟨pathA, n⟩ := by
        intro heq
        exact hi (congrArg BlockIndice.offset heq)
      rw [AList.lookup_insert_ne hne]
      show ctx.index.lookupByFileBlock pathA i = _
      rw [h.mapped]
      exact if_congr (by omega) rfl rfl
  · rw [growSize_lookup]
    show (if pathA = pathA then some (max _ ((ctx.index.fileToSizes.lookup pathA).getD 0))
      else _) = _
    rw [if_pos rfl, h.size, Option.getD_some, max_eq_left (Nat.mul_le_mul_right _ (Nat.le_succ n))]

/-- When the counter has wrapped to one, cutting the last block off releases the object. -/
theorem Popular.truncate (h : Popular (n + 1) ctx) (hpos : 0 < n) (hwrap : (n + 1) % 2 ^ 32 = 1)
    (res : SyscallResult) : ¬LiveKept (xmpTruncate ctx pathA (n * blockSize : Nat) res).1 := by
  have hlt : n * blockSize < (n + 1) * blockSize :=
    Nat.mul_lt_mul_of_pos_right (Nat.lt_succ_self n) (by decide)
  have hblocks : ∀ n, blocksOfSize (n * blockSize) = n := by
    intro n
    simp only [blocksOfSize, blockSize]
    omega
  have hlast : ctx.index.lookupByFileBlock pathA n = some 0 := by
    rw [h.mapped, if_pos (Nat.lt_succ_self n)]
  have hfirst : ctx.index.lookupByFileBlock pathA 0 = some 0 := by
    rw [h.mapped, if_pos (Nat.succ_pos n)]
  have hone : (ctx.heap.cell 0).refcount = 1 := h.refcount.trans hwrap
  have hsection : removeBlocksSection ctx.openSection pathA n (n + 1) =
      { index := (ctx.index.removeFileBlock pathA n).removeHash (ctx.heap.cell 0).hash
        heap := (ctx.heap.fetchSub 0).2.free 0
        toRelease := [(ctx.heap.cell 0).masterBlockIndex] } := by
    have hrange : List.range' n (n + 1 - n) = [n] := by
      rw [Nat.add_sub_cancel_left]
      rfl
    rw [removeBlocksSection, hrange, List.foldl_cons, List.foldl_nil, WriteSection.removeBlock]
    simp only [Context.openSection_index, hlast]
    rw [WriteSection.dropReference_last hone]
    rfl
  rw [xmpTruncate_of_lt res (Nat.mul_mod_left _ _) h.size hlt, hblocks, hblocks, truncateSetSize_eq,
    removeBlocksDedupBatch, if_neg (by omega), hsection]
  intro hkept
  have hmapped : (ctx.index.fileToMaster.erase ⟨pathA, n⟩).lookup ⟨pathA, 0⟩ = some 0 := by
    have hne : (⟨pathA, 0⟩ : BlockIndice) ≠ ⟨pathA, n⟩ := by
      intro heq
      exact hpos.ne (congrArg BlockIndice.offset heq)
    rw [AList.lookup_erase_ne hne]
    exact hfirst
  obtain ⟨hpub, -⟩ := hkept ⟨pathA, 0⟩ 0 hmapped
  -- its hash is no longer in the table
  obtain ⟨x, hx⟩ := Table.mem_values.mp hpub
  have hx' : (ctx.index.hashToMaster.erase (ctx.heap.cell 0).hash).lookup x = some 0 := hx
  by_cases heq : x = (ctx.heap.cell 0).hash
  · rw [heq, AList.lookup_erase] at hx'
    cases hx'
  · rw [AList.lookup_erase_ne heq] at hx'
    exact heq (((h.known x).mp hx').trans h.hash.symm)

/-- `n` blocks of zeros are written to `a`, one after the other. -/
def zeroFile (n : Nat) : List Op :=
  (List.range n).map fun i => .write (.zeros pathA i 1) fun _ => .complete

theorem execOps_append (ops ops' : List Op) :
    execOps ctx (ops ++ ops') = execOps (execOps ctx ops) ops' :=
  List.foldl_append

theorem execOps_reachable (ops : List Op) :
    sequential.Reachable (fun _ _ _ => True) (execOps .empty ops) := by
  induction ops using List.reverseRecOn with
  | nil => exact .refl
  | append_singleton ops op ih =>
    rw [execOps_append]
    exact ih.trans (.single (e := op) rfl trivial)

theorem Popular.zeroFile (hone : Popular 1 (execOps .empty (zeroFile 1))) (n : Nat) :
    Popular (n + 1) (execOps .empty (DedupBlockFS.zeroFile (n + 1))) := by
  induction n with
  | zero => exact hone
  | succ n ih =>
    rw [DedupBlockFS.zeroFile, List.range_succ, List.map_append, execOps_append]
    exact ih.write _

end

theorem popular_zeroFile_one :
    @Popular Sha512.zeroBlock 1 (@execOps Sha512.zeroBlock .empty (zeroFile 1)) := by
  let _ := Sha512.zeroBlock
  have hhashes : (execOps .empty (zeroFile 1)).index.hashToMaster.entries =
      [⟨hash (WriteRequest.zeros pathA 0 1).buf, 0⟩] := by decide +kernel
  have hfiles : (execOps .empty (zeroFile 1)).index.fileToMaster.entries =
      [⟨⟨pathA, 0⟩, 0⟩] := by decide +kernel
  refine ⟨?_, by decide +kernel, by decide +kernel, ?_, by decide +kernel⟩
  · intro x
    rw [Index.lookupByHash, ← Table.mem_entries_iff, hhashes]
    simp
  · intro i
    apply Option.ext
    intro m
    rw [Index.lookupByFileBlock, ← Table.mem_entries_iff, hfiles]
    simp only [List.mem_singleton, Sigma.mk.injEq, BlockIndice.mk.injEq, true_and, heq_eq_eq,
      Nat.lt_one_iff]
    by_cases hi : i = 0
    · simp only [hi, true_and, if_true, Option.some.injEq]
      exact eq_comm
    · simp only [hi, false_and, if_false, reduceCtorEq]

/-- `n + 1` blocks of zeros, and the last one is cut off. -/
theorem not_liveKept_of_wrap {n : Nat} (hpos : 0 < n) (hwrap : (n + 1) % 2 ^ 32 = 1) :
    ¬LiveKept (@execOps Sha512.zeroBlock .empty
      (zeroFile (n + 1) ++ [.truncate pathA (n * blockSize : Nat) (.ok ())])) := by
  let _ := Sha512.zeroBlock
  rw [execOps_append]
  exact (Popular.zeroFile popular_zeroFile_one n).truncate hpos hwrap (.ok ())

/-- The counter has wrapped: all other blocks are mapped to an object that has been
    released. -/
theorem not_live_blocks_kept :
    (@sequential Sha512.zeroBlock).Reachable (fun _ _ _ => True)
        (@execOps Sha512.zeroBlock .empty
          (zeroFile (2 ^ 32 + 1) ++ [.truncate pathA (2 ^ 32 * blockSize : Nat) (.ok ())])) ∧
      ¬LiveKept (@execOps Sha512.zeroBlock .empty
        (zeroFile (2 ^ 32 + 1) ++ [.truncate pathA (2 ^ 32 * blockSize : Nat) (.ok ())])) := by
  have hwrap : (2 ^ 32 + 1) % 2 ^ 32 = 1 := by
    rw [Nat.add_mod_left]
    exact Nat.mod_eq_of_lt (Nat.one_lt_two_pow (by decide))
  have hpos : 0 < 2 ^ 32 := Nat.two_pow_pos 32
  exact ⟨@execOps_reachable Sha512.zeroBlock _, not_liveKept_of_wrap hpos hwrap⟩

end DedupBlockFS
