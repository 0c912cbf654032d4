-- SUMMARY: What an unlink or a truncate whose system call fails has already changed, and when that is nothing.
import DedupBlockFS.Sequential.Failure

/-!
# Unlinks and truncates that fail

`xmp_unlink` and `xmp_truncate` release the metadata first and make the system call
last. When the call fails the handler returns its error, but what has been released is
not taken back: a failed call leaves the metadata alone only if there was nothing for it
to release.
-/

namespace DedupBlockFS

open ByteFile

/-- The tables find the same, the counters are the same, and so is the free list. -/
structure SameMetadata (ctx ctx' : Context) : Prop where
  fileToMaster : ∀ k, ctx'.index.fileToMaster.lookup k = ctx.index.fileToMaster.lookup k
  fileToSizes : ∀ q, ctx'.index.fileToSizes.lookup q = ctx.index.fileToSizes.lookup q
  hashToMaster : ∀ x, ctx'.index.lookupByHash x = ctx.index.lookupByHash x
  refcount : ∀ m, (ctx'.heap.cell m).refcount = (ctx.heap.cell m).refcount
  free : ctx'.index.freeBlockList = ctx.index.freeBlockList

/-- The metadata is the same, and every read returns what it returned. -/
structure NothingChanged (ctx ctx' : Context) : Prop where
  metadata : SameMetadata ctx ctx'
  reads : ∀ qs req, readDedup qs ctx' req = readDedup qs ctx req

theorem NothingChanged.refl (ctx : Context) : NothingChanged ctx ctx :=
  ⟨⟨fun _ => rfl, fun _ => rfl, fun _ => rfl, fun _ => rfl, rfl⟩, fun _ _ => rfl⟩

/-- An unlink drops the size of a file that has one. -/
theorem xmpUnlink_fileToSizes (ctx : Context) (path : CString) (res : SyscallResult) :
    (xmpUnlink ctx path res).1.index.fileToSizes.lookup path = none := by
  cases hsize : ctx.index.fileToSizes.lookup path with
  | none =>
    rw [xmpUnlink_of_none res hsize]
    exact hsize
  | some size =>
    rw [xmpUnlink_of_some res hsize]
    simp only [unlinkDropSize, AList.lookup_erase]

/-- A truncate lowers the size of a file that is longer. -/
theorem xmpTruncate_fileToSizes {ctx : Context} {path : CString} {size old : Nat}
    (res : SyscallResult) (haligned : size % blockSize = 0)
    (hold : ctx.index.fileToSizes.lookup path = some old) (hlt : size < old) :
    (xmpTruncate ctx path size res).1.index.fileToSizes.lookup path = some size := by
  rw [xmpTruncate_of_lt res haligned hold hlt, truncateSetSize,
    removeBlocksDedupBatch_fileToSizes, hold]
  dsimp only
  rw [if_pos hlt]
  exact AList.lookup_insert _

/-- When the system call of an unlink or of a truncate to `n` blocks fails, the handler
    returns the error. Nothing has changed exactly if the file has no size, for an unlink,
    or none beyond the new one, for a truncate. -/
theorem failed_call_changes_nothing_iff (ctx : Context) (path : CString) (e : Errno) :
    ((xmpUnlink ctx path (.error e)).2 = Errno.neg e ∧
      (NothingChanged ctx (xmpUnlink ctx path (.error e)).1 ↔
        ctx.index.fileToSizes.lookup path = none)) ∧
    ∀ n : Nat, (xmpTruncate ctx path (n * blockSize : Nat) (.error e)).2 = Errno.neg e ∧
      (NothingChanged ctx (xmpTruncate ctx path (n * blockSize : Nat) (.error e)).1 ↔
        ∀ old, ctx.index.fileToSizes.lookup path = some old → old ≤ n * blockSize) := by
  refine ⟨⟨?_, ?_, ?_⟩, fun n => ?_⟩
  · unfold xmpUnlink
    split <;> rfl
  · intro h
    rw [← h.metadata.fileToSizes, xmpUnlink_fileToSizes]
  · intro h
    rw [xmpUnlink_of_none _ h]
    exact .refl ctx
  · have haligned : n * blockSize % blockSize = 0 := Nat.mul_mod_left _ _
    by_cases hle : ∀ old, ctx.index.fileToSizes.lookup path = some old → old ≤ n * blockSize
    · rw [xmpTruncate_of_le _ haligned hle]
      exact ⟨rfl, fun _ => hle, fun _ => .refl ctx⟩
    · refine ⟨?_, fun h => ?_, fun h => absurd h hle⟩
      · simp only [not_forall, not_le] at hle
        obtain ⟨old, hold, hlt⟩ := hle
        rw [xmpTruncate_of_lt _ haligned hold hlt]
        rfl
      · intro old hold
        by_contra hlt
        have hsize := xmpTruncate_fileToSizes (.error e) haligned hold (Nat.lt_of_not_le hlt)
        rw [h.metadata.fileToSizes, hold] at hsize
        exact hlt (Option.some.inj hsize).le

/-- `EACCES`: the parent directory may not be written. -/
def EACCES : Errno := ⟨13, by decide, by decide⟩

/-- The file `a` of one block cannot be unlinked, but afterwards its block is gone and the
    slot of the block is free. The same for a truncate to size 0. -/
theorem not_failed_call_changes_nothing :
    (@sequential Sha512.zerosAndOnes).Reachable (@Roomy Sha512.zerosAndOnes) afterZeroWrite ∧
    (afterZeroWrite.index.lookupByFileBlock pathA 0 = some 0 ∧
      afterZeroWrite.index.freeBlockList = []) ∧
    ((xmpUnlink afterZeroWrite pathA (.error EACCES)).2 = -13 ∧
      (xmpUnlink afterZeroWrite pathA (.error EACCES)).1.index.lookupByFileBlock pathA 0 = none ∧
      (xmpUnlink afterZeroWrite pathA (.error EACCES)).1.index.freeBlockList = [0]) ∧
    (xmpTruncate afterZeroWrite pathA 0 (.error EACCES)).2 = -13 ∧
      (xmpTruncate afterZeroWrite pathA 0 (.error EACCES)).1.index.lookupByFileBlock pathA 0 = none ∧
      (xmpTruncate afterZeroWrite pathA 0 (.error EACCES)).1.index.freeBlockList = [0] :=
  ⟨afterZeroWrite_reachable, by decide +kernel, by decide +kernel, by decide +kernel⟩

end DedupBlockFS
