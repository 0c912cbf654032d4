-- SUMMARY: A write whose flush fails has no effect but the slots it has appended to the free list.
import DedupBlockFS.Sequential.Refinement

/-!
# Failure atomicity
-/

namespace DedupBlockFS

open ByteFile
open Table (values)

section
variable [Sha512] {W : List UInt8 → Prop} {ctx : Context} {req : WriteRequest}

/-- The sequential runs in which every call has room. -/
def Roomy (ctx : Context) (op : Op) (_ : Context) : Prop := op.HasRoom ctx

/-- Any block may be written. -/
theorem Quiet.reachable_any (h : sequential.Reachable Roomy ctx) : Quiet (fun _ => True) ctx :=
  .reachable (fun _ op _ hroom => ⟨hroom, op.blocksIn_true⟩) h

/-- A request without blocks has an empty plan. -/
theorem not_flushFails_of_empty (io : Nat → PwriteResult) (h : req.numBlocks = 0) :
    ¬FlushFails ctx req io := by
  rintro ⟨j, run, hj, -⟩
  have hplan : (prepareWrite ctx req).2.1 = [] := by simp [prepareWrite, pass1, h]
  rw [hplan, planRuns_of_none rfl] at hj
  cases hj

/-- The slots that the free list cannot provide are appended. -/
theorem prepareWrite_next : (prepareWrite ctx req).1.nextBlockIndex =
    ctx.nextBlockIndex + ((prepareWrite ctx req).2.2 - ctx.index.freeBlockList.length) := by
  set p := pass1 ctx.index ctx.heap req.buf req.startBlock req.numBlocks with hp
  have hcount : (prepareWrite ctx req).2.2 = p.missCount := by
    simp only [prepareWrite]
    split <;> rfl
  have htaken : ({ ctx with heap := p.heap }.drainFreeList p.missCount).2.length =
      min p.missCount ctx.index.freeBlockList.length := List.length_take
  rw [hcount]
  simp only [prepareWrite, allocateBatchStorageFirst, ← hp, htaken]
  split
  · split
    · show ctx.nextBlockIndex + _ = _
      omega
    · show ctx.nextBlockIndex = _
      omega
  · show ctx.nextBlockIndex = _
    omega

/-- Between `ctx` and `ctx'` nothing has changed but the bytes of slots that no published
    object owns, and that the free list has got `appended` new slots. -/
structure RolledBack (ctx ctx' : Context) (appended : Nat) : Prop where
  lookupByHash : ∀ x, ctx'.index.lookupByHash x = ctx.index.lookupByHash x
  cell : ∀ m, ctx.index.Published m → ctx'.heap.cell m = ctx.heap.cell m
  fileToMaster : ctx'.index.fileToMaster = ctx.index.fileToMaster
  fileToSizes : ctx'.index.fileToSizes = ctx.index.fileToSizes
  free : (ctx'.index.freeBlockList : Multiset Nat) =
    ctx.index.freeBlockList + List.range' ctx.nextBlockIndex appended
  next : ctx'.nextBlockIndex = ctx.nextBlockIndex + appended
  block : ∀ m, ctx.index.Published m →
    blockAt ctx'.master (ctx.heap.cell m).masterBlockIndex =
      blockAt ctx.master (ctx.heap.cell m).masterBlockIndex

/-- Wherever the flush of a write fails, the write returns an error and has rolled back;
    the new slots of the free list are those that its MISSes have appended. -/
theorem write_failure_atomic (h : sequential.Reachable Roomy ctx) (hroom : RoomFor ctx req)
    (haligned : req.size % blockSize = 0) {io : Nat → PwriteResult} (hfail : FlushFails ctx req io) :
    (writeDedup ctx req io).2 < 0 ∧ RolledBack ctx (writeDedup ctx req io).1
      ((prepareWrite ctx req).2.2 - ctx.index.freeBlockList.length) := by
  set ctx' := (writeDedup ctx req io).1 with hctx'
  set appended := (prepareWrite ctx req).2.2 - ctx.index.freeBlockList.length with happended
  have hq := Quiet.reachable_any h
  rcases writeDedup_cases hq hroom (fun _ _ => trivial) io with
    ⟨hrefused, -⟩ | ⟨-, herrno, hnext, rc, hfailed⟩ | ⟨hsuccess, -⟩
  · rcases hrefused with hempty | hmis
    · exact absurd hfail (not_flushFails_of_empty io hempty)
    · exact absurd haligned hmis
  · have hunt := hfailed.untouched
    have hq' := (hfailed.failed hq).1
    have hcell : ∀ m, ctx.index.Published m → ctx'.heap.cell m = ctx.heap.cell m := by
      intro m hm
      have hlt := hq.accounts.refsLt m (hq.mem_values hm)
      refine MasterInfo.ext (hunt.hash m hlt) (hunt.slot m hm) ?_
      have hcount' := hq'.accounts.balanced.publishedCount m (hunt.published.mpr hm)
      have hcount := hq.accounts.balanced.publishedCount m hm
      exact hcount'.trans ((congrArg (Multiset.count m ∘ values) hunt.fileToMaster).trans hcount.symm)
    have hgrown : ctx'.nextBlockIndex = ctx.nextBlockIndex + appended :=
      hnext.trans prepareWrite_next
    refine ⟨herrno.2, hunt.lookupByHash, hcell, hunt.fileToMaster, hunt.fileToSizes, ?_, hgrown,
      fun m hm => ?_⟩
    · -- what is not free is owned by the same published objects as before
      have hslots' := hq'.slots
      have howned : (values ctx'.index.hashToMaster).map
          (fun m => (ctx'.heap.cell m).masterBlockIndex) =
          (values ctx.index.hashToMaster).map fun m => (ctx.heap.cell m).masterBlockIndex := by
        rw [Table.values_eq_of_lookup hunt.lookupByHash]
        exact Multiset.map_congr rfl fun m hm => hunt.slot m hm
      rw [howned, hgrown, range_add_range', ← hq.slots, add_right_comm] at hslots'
      exact add_right_cancel hslots'
    · obtain ⟨b, -, -, hb⟩ := hq.intact m hm
      exact (hunt.stored m hm b hb).2.trans hb.2.symm
  · exact absurd hfail hsuccess

end

/-- A block of zeros is written to `a`. -/
theorem zeroWrite_enabled : ((@sequential Sha512.zerosAndOnes).replay
    (fun ctx op _ => op.roomCheck ctx) (@sequential Sha512.zerosAndOnes).init
      [.write (.zeros pathA 0 1) fun _ => .complete]).isSome := by
  decide +kernel

def afterZeroWrite : Context :=
  ((@sequential Sha512.zerosAndOnes).replay (fun ctx op _ => op.roomCheck ctx)
    (@sequential Sha512.zerosAndOnes).init
      [.write (.zeros pathA 0 1) fun _ => .complete]).get zeroWrite_enabled

theorem afterZeroWrite_reachable :
    (@sequential Sha512.zerosAndOnes).Reachable (@Roomy Sha512.zerosAndOnes) afterZeroWrite :=
  .of_replay (fun _ op _ _ hc => @Op.hasRoom_of_roomCheck Sha512.zerosAndOnes _ op hc)
    (Option.some_get zeroWrite_enabled).symm

/-- One block that is published already, a new one, and the new one again. -/
def mixedRequest : WriteRequest where
  path := pathB
  buf := List.replicate 4096 0 ++ List.replicate 8192 1
  size := 12288
  offset := 0
  size_eq := by rw [List.length_append, List.length_replicate, List.length_replicate]

theorem write_failure_atomic_of_mixedRequest :
    (@writeDedup Sha512.zerosAndOnes afterZeroWrite mixedRequest fun _ => .short 4095).2 < 0 ∧
      RolledBack afterZeroWrite
        (@writeDedup Sha512.zerosAndOnes afterZeroWrite mixedRequest fun _ => .short 4095).1
        ((@prepareWrite Sha512.zerosAndOnes afterZeroWrite mixedRequest).2.2 -
          afterZeroWrite.index.freeBlockList.length) := by
  let _ := Sha512.zerosAndOnes
  have hroom : (Op.write mixedRequest fun _ => .complete).HasRoom afterZeroWrite :=
    Op.hasRoom_of_roomCheck (by decide +kernel)
  have hfail : FlushFails afterZeroWrite mixedRequest fun _ => .short 4095 := by
    have hrun : (nextRun (prepareWrite afterZeroWrite mixedRequest).2.1).map (fun r => r.2.1) =
        some 1 := by
      decide +kernel
    obtain ⟨⟨first, runLen, rest⟩, hnext, hlen⟩ := Option.map_eq_some_iff.mp hrun
    obtain rfl : runLen = 1 := hlen
    have hshort : (PwriteResult.short 4095).ret (1 * blockSize) ≠ (1 * blockSize : Nat) := by decide
    exact ⟨0, (first, 1), by rw [planRuns_of_some hnext]; rfl, hshort⟩
  exact write_failure_atomic afterZeroWrite_reachable hroom (by decide) hfail

end DedupBlockFS
