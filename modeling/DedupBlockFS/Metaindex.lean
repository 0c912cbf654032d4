-- SUMMARY: The metadata index of the file system: blocks, hashes, MasterInfo objects, the heap they live in, and the index tables.
import DedupBlockFS.Lib.ByteFile
import DedupBlockFS.Lib.Table
import Mathlib.Algebra.Group.Nat.Defs

/-!
# The metadata index

The data model of `metaindex.h`. A `MasterInfo` stands for one physical block of
the master file; it is reached through `hash_to_master` and through
`file_to_master`, and the two tables share the object. Objects are therefore
kept in a heap and the tables hold pointers.

SHA-512 comes from a library, so it is a parameter (`Sha512`). Counters and file
offsets are natural numbers; only `refcount` is kept modulo 2^32, because the
code never checks it.
-/

namespace DedupBlockFS

/-- `BLOCK_SIZE`. -/
def blockSize : Nat := 4096

/-- `HASH_SIZE`. -/
def hashSize : Nat := 64

abbrev Hash := Vector UInt8 hashSize

/-- The digest function `SHA512` of the cryptographic library. -/
class Sha512 where
  digest : List UInt8 → Hash

/-- `hash`: the digest of the 4096 bytes that start at `input`. -/
def hash [Sha512] (input : List UInt8) : Hash := Sha512.digest (input.take blockSize)

/-- SHA-512 as far as the block of zeros goes, which is enough to run the model on
    files of zeros. -/
abbrev Sha512.zeroBlock : Sha512 where
  digest _ := #v[45, 35, 145, 61, 55, 89, 239, 1, 112, 74, 134, 180, 190, 227, 172, 138, 41, 0, 35, 19, 236,
    201, 138, 116, 36, 66, 90, 120, 23, 15, 33, 149, 119, 130, 47, 215, 126, 74, 233, 99, 19, 84,
    118, 150, 173, 125, 89, 73, 181, 142, 18, 213, 6, 62, 242, 238, 6, 59, 89, 87, 64, 163, 161, 45]

/-- SHA-512 as far as the blocks of zeros and of ones go. -/
abbrev Sha512.zerosAndOnes : Sha512 where
  digest input := if input.head? = some 0 then Sha512.zeroBlock.digest input else
    #v[102, 106, 89, 17, 78, 208, 42, 213, 219, 153, 49, 193, 70, 35, 226, 61, 214, 217, 19, 168, 6,
    65, 243, 205, 175, 107, 206, 60, 183, 208, 47, 10, 100, 208, 114, 90, 227, 78, 217, 111, 183,
    30, 78, 70, 151, 88, 68, 252, 10, 121, 73, 169, 100, 24, 187, 229, 130, 11, 80, 169, 60, 99, 62,
    46]

/-- A C string: the bytes in front of the terminating NUL. -/
structure CString where
  bytes : List UInt8
  noNul : 0 ∉ bytes
  deriving DecidableEq

/-- The paths `a` and `b`, for runs on concrete files. -/
def pathA : CString := ⟨[97], by decide⟩
def pathB : CString := ⟨[98], by decide⟩

/-- `struct blockIndice`: the key of `file_to_master`. -/
structure BlockIndice where
  path : CString
  offset : Nat
  deriving DecidableEq

/-- `struct masterInfo`. The counter is a `uint32_t`. -/
@[ext] structure MasterInfo where
  hash : Hash
  masterBlockIndex : Nat
  refcount : Nat
  deriving DecidableEq

abbrev Ptr := Nat

/-- The heap of `MasterInfo` objects. Objects below `brk` have been allocated; a
    freed one keeps its last values, because its memory is not handed out again. -/
structure Heap where
  cell : Ptr → MasterInfo
  brk : Ptr
  freed : List Ptr

namespace Heap

def empty : Heap where
  cell := fun _ => { hash := Vector.replicate hashSize 0, masterBlockIndex := 0, refcount := 0 }
  brk := 0
  freed := []

/-- `g_new(MasterInfo, 1)` followed by the initialisation of all its fields. -/
def alloc (hp : Heap) (info : MasterInfo) : Heap × Ptr :=
  ({ hp with cell := Function.update hp.cell hp.brk info, brk := hp.brk + 1 }, hp.brk)

/-- `free(info)`. -/
def free (hp : Heap) (m : Ptr) : Heap := { hp with freed := m :: hp.freed }

/-- Change the object at `m`. -/
def modify (hp : Heap) (m : Ptr) (f : MasterInfo → MasterInfo) : Heap :=
  { hp with cell := Function.update hp.cell m (f (hp.cell m)) }

/-- `__atomic_fetch_add(&info->refcount, 1)`. -/
def fetchAdd (hp : Heap) (m : Ptr) : Heap :=
  hp.modify m fun info => { info with refcount := (info.refcount + 1) % 2 ^ 32 }

/-- `__atomic_fetch_sub(&info->refcount, 1)`, which also returns the old value. -/
def fetchSub (hp : Heap) (m : Ptr) : Nat × Heap :=
  ((hp.cell m).refcount,
    hp.modify m fun info => { info with refcount := (info.refcount + (2 ^ 32 - 1)) % 2 ^ 32 })

/-- `info->masterBlockIndex = slot`. -/
def setMasterBlockIndex (hp : Heap) (m : Ptr) (slot : Nat) : Heap :=
  hp.modify m fun info => { info with masterBlockIndex := slot }

variable {hp : Heap} {m m' : Ptr} {info : MasterInfo} {slot : Nat}

@[simp] theorem alloc_snd : (hp.alloc info).2 = hp.brk := rfl
@[simp] theorem alloc_brk : (hp.alloc info).1.brk = hp.brk + 1 := rfl
@[simp] theorem free_cell : (hp.free m).cell = hp.cell := rfl
@[simp] theorem free_brk : (hp.free m).brk = hp.brk := rfl
@[simp] theorem fetchAdd_brk : (hp.fetchAdd m).brk = hp.brk := rfl
@[simp] theorem fetchSub_brk : (hp.fetchSub m).2.brk = hp.brk := rfl
@[simp] theorem fetchSub_fst : (hp.fetchSub m).1 = (hp.cell m).refcount := rfl
@[simp] theorem setMasterBlockIndex_brk : (hp.setMasterBlockIndex m slot).brk = hp.brk := rfl

@[simp] theorem alloc_cell_self : (hp.alloc info).1.cell hp.brk = info := by
  simp [alloc]

theorem alloc_cell : (hp.alloc info).1.cell m = if m = hp.brk then info else hp.cell m :=
  Function.update_apply hp.cell hp.brk info m

theorem alloc_cell_of_lt (h : m < hp.brk) : (hp.alloc info).1.cell m = hp.cell m := by
  simp only [alloc]
  exact Function.update_of_ne (Nat.ne_of_lt h) _ _

@[simp] theorem fetchAdd_hash : ((hp.fetchAdd m).cell m').hash = (hp.cell m').hash := by
  by_cases h : m' = m <;> simp [fetchAdd, modify, h]

@[simp] theorem fetchAdd_masterBlockIndex :
    ((hp.fetchAdd m).cell m').masterBlockIndex = (hp.cell m').masterBlockIndex := by
  by_cases h : m' = m <;> simp [fetchAdd, modify, h]

theorem fetchAdd_refcount : ((hp.fetchAdd m).cell m').refcount =
    if m' = m then ((hp.cell m).refcount + 1) % 2 ^ 32 else (hp.cell m').refcount := by
  by_cases h : m' = m <;> simp [fetchAdd, modify, h]

@[simp] theorem fetchSub_hash : ((hp.fetchSub m).2.cell m').hash = (hp.cell m').hash := by
  by_cases h : m' = m <;> simp [fetchSub, modify, h]

@[simp] theorem fetchSub_masterBlockIndex :
    ((hp.fetchSub m).2.cell m').masterBlockIndex = (hp.cell m').masterBlockIndex := by
  by_cases h : m' = m <;> simp [fetchSub, modify, h]

theorem fetchSub_refcount : ((hp.fetchSub m).2.cell m').refcount =
    if m' = m then ((hp.cell m).refcount + (2 ^ 32 - 1)) % 2 ^ 32 else (hp.cell m').refcount := by
  by_cases h : m' = m <;> simp [fetchSub, modify, h]

/-- Below the limit of 32 bits, `fetch_add` adds one to one counter. -/
theorem refcount_fetchAdd (hlt : (hp.cell m).refcount + 1 < 2 ^ 32) :
    (fun m' => ((hp.fetchAdd m).cell m').refcount) =
      Function.update (fun m' => (hp.cell m').refcount) m ((hp.cell m).refcount + 1) := by
  funext m'
  rw [fetchAdd_refcount, Function.update_apply, Nat.mod_eq_of_lt hlt]

/-- Above zero, `fetch_sub` takes one from one counter. -/
theorem refcount_fetchSub (hpos : 0 < (hp.cell m).refcount) (hlt : (hp.cell m).refcount < 2 ^ 32) :
    (fun m' => ((hp.fetchSub m).2.cell m').refcount) =
      Function.update (fun m' => (hp.cell m').refcount) m ((hp.cell m).refcount - 1) := by
  have hmod : ((hp.cell m).refcount + (2 ^ 32 - 1)) % 2 ^ 32 = (hp.cell m).refcount - 1 := by omega
  funext m'
  rw [fetchSub_refcount, Function.update_apply, hmod]

@[simp] theorem setMasterBlockIndex_hash :
    ((hp.setMasterBlockIndex m slot).cell m').hash = (hp.cell m').hash := by
  by_cases h : m' = m <;> simp [setMasterBlockIndex, modify, h]

@[simp] theorem setMasterBlockIndex_refcount :
    ((hp.setMasterBlockIndex m slot).cell m').refcount = (hp.cell m').refcount := by
  by_cases h : m' = m <;> simp [setMasterBlockIndex, modify, h]

theorem setMasterBlockIndex_masterBlockIndex :
    ((hp.setMasterBlockIndex m slot).cell m').masterBlockIndex =
      if m' = m then slot else (hp.cell m').masterBlockIndex := by
  by_cases h : m' = m <;> simp [setMasterBlockIndex, modify, h]

end Heap

/-- `struct index`. Its two locks are not part of the state: a critical section is
    one step of the model. -/
structure Index where
  hashToMaster : Table Hash Ptr
  fileToMaster : Table BlockIndice Ptr
  freeBlockList : List Nat
  fileToSizes : Table CString Nat

namespace Index

def empty : Index where
  hashToMaster := ∅
  fileToMaster := ∅
  freeBlockList := []
  fileToSizes := ∅

def lookupByFileBlock (ix : Index) (file : CString) (blockIndex : Nat) : Option Ptr :=
  ix.fileToMaster.lookup ⟨file, blockIndex⟩

def insertFileBlock (ix : Index) (file : CString) (blockIndex : Nat) (info : Ptr) : Index :=
  { ix with fileToMaster := ix.fileToMaster.insert ⟨file, blockIndex⟩ info }

def removeFileBlock (ix : Index) (file : CString) (blockIndex : Nat) : Index :=
  { ix with fileToMaster := ix.fileToMaster.erase ⟨file, blockIndex⟩ }

def lookupByHash (ix : Index) (h : Hash) : Option Ptr :=
  ix.hashToMaster.lookup h

def insertHash (ix : Index) (h : Hash) (info : Ptr) : Index :=
  { ix with hashToMaster := ix.hashToMaster.insert h info }

def removeHash (ix : Index) (h : Hash) : Index :=
  { ix with hashToMaster := ix.hashToMaster.erase h }

/-- `m` is published in `hash_to_master`. -/
def Published (ix : Index) (m : Ptr) : Prop := m ∈ Table.values ix.hashToMaster

end Index

/-- `struct context` as far as the deduplication uses it, with the contents of the
    master file and the heap of `MasterInfo` objects. -/
structure Context where
  index : Index
  heap : Heap
  nextBlockIndex : Nat
  master : List UInt8

/-- The empty index over an empty master file. -/
def Context.empty : Context where
  index := .empty
  heap := .empty
  nextBlockIndex := 0
  master := []

/-- The block of the master file in `slot`. -/
def blockAt (master : List UInt8) (slot : Nat) : List UInt8 :=
  ByteFile.pread master (slot * blockSize) blockSize

end DedupBlockFS
