-- SUMMARY: The FUSE handlers that change the index: `xmp_write`, `xmp_unlink`, `xmp_truncate`, and sequential runs of them.
import DedupBlockFS.Dedup.Read

/-!
# Handlers

The part of `passthrough.c` that works on the index. `xmp_unlink` and
`xmp_truncate` look the size up in one critical section, remove blocks in a second
and update the size in a third; each section is a function of its own. The system
call on the underlying file comes last and leaves the index alone, so only its
result appears.
-/

namespace DedupBlockFS

open ByteFile

/-- The result of a system call on the underlying file: success or `errno`. -/
abbrev SyscallResult := Except Errno Unit

/-- `if (res == -1) return -errno; return 0;` -/
def SyscallResult.ret : SyscallResult → Int
  | .ok _ => 0
  | .error e => Errno.neg e

/-- `(size + BLOCK_SIZE - 1) / BLOCK_SIZE`. -/
def blocksOfSize (size : Nat) : Nat := (size + blockSize - 1) / blockSize

/-- The blocks of a file are those that start below its size. -/
theorem lt_blocksOfSize {size b : Nat} : b < blocksOfSize size ↔ b * blockSize < size := by
  simp only [blocksOfSize, blockSize]
  omega

/-- Every mapped block lies below the size of its file. -/
def Sized (ix : Index) : Prop :=
  ∀ path b m, ix.lookupByFileBlock path b = some m →
    ∃ size, ix.fileToSizes.lookup path = some size ∧ b * blockSize < size

/-! ## xmp_unlink -/

/-- First section of `xmp_unlink`: the number of blocks of the file, if it has a size. -/
def unlinkLookup (ctx : Context) (path : CString) : Option Nat :=
  (ctx.index.fileToSizes.lookup path).map blocksOfSize

/-- Last section of `xmp_unlink`: remove the size. -/
def unlinkDropSize (ctx : Context) (path : CString) : Context :=
  { ctx with index := { ctx.index with fileToSizes := ctx.index.fileToSizes.erase path } }

/-- `xmp_unlink`; `res` is the result of `unlink(path)`. -/
def xmpUnlink (ctx : Context) (path : CString) (res : SyscallResult) : Context × Int :=
  match unlinkLookup ctx path with
  | none => (ctx, res.ret)
  | some numBlocks =>
    (unlinkDropSize (removeBlocksDedupBatch ctx path 0 numBlocks) path, res.ret)

theorem xmpUnlink_of_none {ctx : Context} {path : CString} (res : SyscallResult)
    (h : ctx.index.fileToSizes.lookup path = none) : xmpUnlink ctx path res = (ctx, res.ret) := by
  simp only [xmpUnlink, unlinkLookup, h, Option.map_none]

theorem xmpUnlink_of_some {ctx : Context} {path : CString} {size : Nat} (res : SyscallResult)
    (h : ctx.index.fileToSizes.lookup path = some size) : xmpUnlink ctx path res =
      (unlinkDropSize (removeBlocksDedupBatch ctx path 0 (blocksOfSize size)) path, res.ret) := by
  simp only [xmpUnlink, unlinkLookup, h, Option.map_some]

theorem xmpUnlink_ret (ctx : Context) (path : CString) (res : SyscallResult) :
    (xmpUnlink ctx path res).2 = res.ret := by
  cases hsize : ctx.index.fileToSizes.lookup path with
  | none => rw [xmpUnlink_of_none res hsize]
  | some size => rw [xmpUnlink_of_some res hsize]

/-! ## xmp_truncate -/

/-- First section of `xmp_truncate`: the range of blocks to remove, if the file shrinks. -/
def truncateLookup (ctx : Context) (path : CString) (size : Nat) : Option (Nat × Nat) :=
  match ctx.index.fileToSizes.lookup path with
  | none => none
  | some logicalSize =>
    if size < logicalSize then some (blocksOfSize size, blocksOfSize logicalSize) else none

/-- Last section of `xmp_truncate`: lower the size, if it is still greater. -/
def truncateSetSize (ctx : Context) (path : CString) (size : Nat) : Context :=
  match ctx.index.fileToSizes.lookup path with
  | none => ctx
  | some logicalSize =>
    if size < logicalSize then
      { ctx with index := { ctx.index with fileToSizes := ctx.index.fileToSizes.insert path size } }
    else ctx

theorem truncateSetSize_eq (ctx : Context) (path : CString) (size : Nat) :
    truncateSetSize ctx path size = { ctx with index := { ctx.index with
      fileToSizes := (truncateSetSize ctx path size).index.fileToSizes } } := by
  unfold truncateSetSize
  split
  · rfl
  · split <;> rfl

/-- `xmp_truncate`; `res` is the result of `truncate` or `ftruncate`. -/
def xmpTruncate (ctx : Context) (path : CString) (size : Int) (res : SyscallResult) :
    Context × Int :=
  if size < 0 ∨ size % blockSize ≠ 0 then (ctx, Errno.neg EOPNOTSUPP) else
  match truncateLookup ctx path size.toNat with
  | none => (ctx, res.ret)
  | some (newBlockCount, oldBlockCount) =>
    (truncateSetSize (removeBlocksDedupBatch ctx path newBlockCount oldBlockCount) path size.toNat,
      res.ret)

/-- The three ways of a truncate: a size that is refused, a file that does not shrink, and
    one that does. -/
theorem xmpTruncate_of_refused {ctx : Context} {path : CString} {size : Int} (res : SyscallResult)
    (h : size < 0 ∨ size % blockSize ≠ 0) :
    xmpTruncate ctx path size res = (ctx, Errno.neg EOPNOTSUPP) := if_pos h

theorem xmpTruncate_of_le {ctx : Context} {path : CString} {size : Nat} (res : SyscallResult)
    (haligned : size % blockSize = 0)
    (h : ∀ old, ctx.index.fileToSizes.lookup path = some old → old ≤ size) :
    xmpTruncate ctx path size res = (ctx, res.ret) := by
  have hvalid : ¬((size : Int) < 0 ∨ (size : Int) % blockSize ≠ 0) := by omega
  have hnone : truncateLookup ctx path size = none := by
    unfold truncateLookup
    split
    · rfl
    · rename_i old hold
      exact if_neg (Nat.not_lt_of_le (h old hold))
  simp only [xmpTruncate, if_neg hvalid, Int.toNat_natCast, hnone]

theorem xmpTruncate_of_lt {ctx : Context} {path : CString} {size old : Nat} (res : SyscallResult)
    (haligned : size % blockSize = 0) (hold : ctx.index.fileToSizes.lookup path = some old)
    (h : size < old) :
    xmpTruncate ctx path size res =
      (truncateSetSize (removeBlocksDedupBatch ctx path (blocksOfSize size) (blocksOfSize old)) path
        size, res.ret) := by
  have hvalid : ¬((size : Int) < 0 ∨ (size : Int) % blockSize ≠ 0) := by omega
  have hsome : truncateLookup ctx path size = some (blocksOfSize size, blocksOfSize old) := by
    simp only [truncateLookup, hold, if_pos h]
  simp only [xmpTruncate, if_neg hvalid, Int.toNat_natCast, hsome]

theorem xmpTruncate_ret {ctx : Context} {path : CString} {n : Nat} (haligned : n % blockSize = 0)
    (res : SyscallResult) : (xmpTruncate ctx path n res).2 = res.ret := by
  by_cases hle : ∀ old, ctx.index.fileToSizes.lookup path = some old → old ≤ n
  · rw [xmpTruncate_of_le res haligned hle]
  · simp only [not_forall, not_le] at hle
    obtain ⟨old, hold, hlt⟩ := hle
    rw [xmpTruncate_of_lt res haligned hold hlt]

/-! ## Sequential runs -/

/-- A call that changes the index, with what the environment answers to it. -/
inductive Op where
  | write (req : WriteRequest) (io : Nat → PwriteResult)
  | unlink (path : CString) (res : SyscallResult)
  | truncate (path : CString) (size : Int) (res : SyscallResult)

variable [Sha512]

/-- Execute one call. `xmp_write` passes its arguments on to `write_dedup`. -/
def Op.exec (ctx : Context) : Op → Context × Int
  | .write req io => writeDedup ctx req io
  | .unlink path res => xmpUnlink ctx path res
  | .truncate path size res => xmpTruncate ctx path size res

/-- Execute the calls one after the other. -/
def execOps (ctx : Context) (ops : List Op) : Context :=
  ops.foldl (fun ctx op => (op.exec ctx).1) ctx

end DedupBlockFS
