-- SUMMARY: `write_dedup`: the plan of a request, allocation, flush, rollback and consolidation.
import DedupBlockFS.Lib.Runs
import DedupBlockFS.Dedup.Remove

/-!
# Writing

`write_dedup` of `dedup.c` in its passes: decide for every block whether its
content is known (pass 1), give the new blocks a slot (pass 1.5), write them to
the master file (pass 2), and publish them (pass 3); a failed flush is rolled
back. Every section that runs under one lock, and every system call, is a
function of its own, so that the sequential function composes the same pieces
that threads interleave.
-/

namespace DedupBlockFS

open ByteFile

def EIO : Errno := ⟨5, by decide, by decide⟩
def EOPNOTSUPP : Errno := ⟨95, by decide, by decide⟩

/-- The conversion `(int)` of an unsigned value. -/
def cInt (n : Nat) : Int := Int.bmod n (2 ^ 32)

/-- `-errno`. -/
def Errno.neg (e : Errno) : Int := -(e.code : Int)

/-- The arguments of `write_dedup`; `buf` holds `size` bytes. -/
structure WriteRequest where
  path : CString
  buf : List UInt8
  size : Nat
  offset : Nat
  size_eq : buf.length = size

namespace WriteRequest

def numBlocks (req : WriteRequest) : Nat := req.size / blockSize
def startBlock (req : WriteRequest) : Nat := req.offset / blockSize

/-- The request that writes `n` blocks of a single byte from `startBlock` on. -/
def fill (byte : UInt8) (path : CString) (startBlock n : Nat) : WriteRequest where
  path := path
  buf := List.replicate (n * blockSize) byte
  size := n * blockSize
  offset := startBlock * blockSize
  size_eq := List.length_replicate

abbrev zeros : CString → Nat → Nat → WriteRequest := fill 0

/-- The content of the `i`-th block of the request. -/
def block (req : WriteRequest) (i : Nat) : List UInt8 := pread req.buf (i * blockSize) blockSize

theorem block_fill {byte : UInt8} {path : CString} {startBlock n i : Nat} (hi : i < n) :
    (fill byte path startBlock n).block i = List.replicate blockSize byte := by
  have hfit := Nat.mul_le_mul_right blockSize hi
  rw [Nat.succ_mul] at hfit
  simp only [block, fill, pread, List.drop_replicate, List.take_replicate]
  rw [Nat.min_eq_left (by omega)]

end WriteRequest

inductive PlanKind where
  | hit
  | miss
  deriving DecidableEq

/-- `PlanEntry`. `payload` is a position in the buffer of the request; `masterBlk`
    is meaningful in a MISS only. -/
structure PlanEntry where
  kind : PlanKind
  logicalBlk : Nat
  masterBlk : Nat
  payload : Nat
  hash : Hash
  info : Ptr
  deriving DecidableEq

/-! ## Pass 1: decision -/

/-- The local state of the loop of pass 1. -/
structure Pass1 where
  heap : Heap
  plan : List PlanEntry
  pendingHashes : Table Hash Ptr
  missCount : Nat

section
variable [Sha512]

/-- One iteration of pass 1: look the hash up in the index, then among the pending
    blocks of this request. -/
def pass1Block (ix : Index) (buf : List UInt8) (startBlock : Nat) (st : Pass1) (i : Nat) : Pass1 :=
  let logicalBlk := startBlock + i
  let payload := i * blockSize
  let h := hash (buf.drop payload)
  match (ix.lookupByHash h).or (st.pendingHashes.lookup h) with
  | some existing =>
    { st with
      heap := st.heap.fetchAdd existing
      plan := st.plan ++
        [{ kind := .hit, logicalBlk, masterBlk := 0, payload, hash := h, info := existing }] }
  | none =>
    let (heap, info) := st.heap.alloc { hash := h, masterBlockIndex := 0, refcount := 1 }
    { heap
      plan := st.plan ++
        [{ kind := .miss, logicalBlk, masterBlk := 0, payload, hash := h, info }]
      pendingHashes := st.pendingHashes.insert h info
      missCount := st.missCount + 1 }

/-- Pass 1 over the first `numBlocks` blocks of the buffer. -/
def pass1 (ix : Index) (hp : Heap) (buf : List UInt8) (startBlock numBlocks : Nat) : Pass1 :=
  (List.range numBlocks).foldl (pass1Block ix buf startBlock)
    { heap := hp, plan := [], pendingHashes := ∅, missCount := 0 }

end

/-! ## Pass 1.5: allocation -/

namespace Context

/-- The drain of the free list from its head, under the free-list mutex. -/
def drainFreeList (ctx : Context) (missCount : Nat) : Context × List Nat :=
  let free := ctx.index.freeBlockList
  ({ ctx with index := { ctx.index with freeBlockList := free.drop missCount } },
    free.take missCount)

/-- `__atomic_fetch_add(next_block_index, remaining)` and the slots it reserves. -/
def reserveAppend (ctx : Context) (remaining : Nat) : Context × List Nat :=
  ({ ctx with nextBlockIndex := ctx.nextBlockIndex + remaining },
    List.range' ctx.nextBlockIndex remaining)

end Context

/-- `allocate_batch_storage_first`: free slots first, the rest by appending. -/
def allocateBatchStorageFirst (ctx : Context) (missCount : Nat) : Context × List Nat :=
  let (ctx, taken) := ctx.drainFreeList missCount
  let remaining := missCount - taken.length
  if 0 < remaining then
    let (ctx, appended) := ctx.reserveAppend remaining
    (ctx, taken ++ appended)
  else
    (ctx, taken)

/-- Store the allocated slots in the MISS entries and in their pending objects. -/
def assignSlots (hp : Heap) : List PlanEntry → List Nat → Heap × List PlanEntry
  | [], _ => (hp, [])
  | e :: es, slots =>
    match e.kind, slots with
    | .miss, slot :: slots =>
      let r := assignSlots (hp.setMasterBlockIndex e.info slot) es slots
      (r.1, { e with masterBlk := slot } :: r.2)
    | _, slots =>
      let r := assignSlots hp es slots
      (r.1, e :: r.2)

/-! ## Pass 2: flush -/

/-- The slot a MISS writes to; a HIT has none. -/
def PlanEntry.missSlot (e : PlanEntry) : Option Nat :=
  match e.kind with
  | .hit => none
  | .miss => some e.masterBlk

/-- Skip HITs, then collect one run: its first entry, its length, and what follows. -/
def nextRun : List PlanEntry → Option (PlanEntry × Nat × List PlanEntry)
  | [] => none
  | e :: rest =>
    match e.kind with
    | .hit => nextRun rest
    | .miss =>
      let more := Runs.runLength PlanEntry.missSlot e.masterBlk rest
      some (e, more + 1, rest.drop more)

theorem nextRun_length {plan rest : List PlanEntry} {first : PlanEntry} {runLen : Nat}
    (h : nextRun plan = some (first, runLen, rest)) : rest.length < plan.length := by
  induction plan with
  | nil => cases h
  | cons e es ih =>
    simp only [nextRun] at h
    cases hk : e.kind with
    | hit =>
      simp only [hk] at h
      have := ih h
      simp only [List.length_cons]
      omega
    | miss =>
      simp only [hk, Option.some.injEq, Prod.mk.injEq] at h
      obtain ⟨-, -, rfl⟩ := h
      simp only [List.length_drop, List.length_cons]
      omega

/-- The `pwrite` of one run: it takes `runLen` blocks from the payload of the first
    entry to the slot of that entry. Returns the new master file and the value of
    the system call. -/
def writeRun (master buf : List UInt8) (first : PlanEntry) (runLen : Nat) (r : PwriteResult) :
    List UInt8 × Int :=
  let bytes := runLen * blockSize
  let data := pread buf first.payload bytes
  (pwrite master (first.masterBlk * blockSize) (data.take (r.count bytes)), r.ret bytes)

/-- `(written < 0) ? -errno : -EIO`. -/
def flushError (r : PwriteResult) : Int :=
  match r with
  | .error e => Errno.neg e
  | _ => Errno.neg EIO

/-- `flush_plan`: one `pwrite` for each run, the `k`-th of them answered by `io k`.
    Returns the master file and 0 or the negative error of the first run that was
    not written completely. -/
def flushPlan (master buf : List UInt8) (io : Nat → PwriteResult) (k : Nat)
    (plan : List PlanEntry) : List UInt8 × Int :=
  match _h : nextRun plan with
  | none => (master, 0)
  | some (first, runLen, rest) =>
    let (master, written) := writeRun master buf first runLen (io k)
    if written = (runLen * blockSize : Nat) then flushPlan master buf io (k + 1) rest
    else (master, flushError (io k))
termination_by plan.length
decreasing_by exact nextRun_length ‹_›

/-! ## Rollback -/

/-- The HIT loop of `rollback_allocations`, under the write lock. -/
def rollbackHits (st : WriteSection) (plan : List PlanEntry) : WriteSection :=
  plan.foldl (fun st e => if e.kind ≠ .hit then st else st.dropReference e.info) st

/-- The MISS loop of `rollback_allocations`, under the free-list mutex. -/
def rollbackMisses (ctx : Context) (plan : List PlanEntry) : Context :=
  plan.foldl (fun ctx e =>
    if e.kind = .miss then
      { ctx.concatFreeList [e.masterBlk] with heap := ctx.heap.free e.info }
    else ctx) ctx

/-- `rollback_allocations`. -/
def rollbackAllocations (ctx : Context) (plan : List PlanEntry) : Context :=
  let st := rollbackHits ctx.openSection plan
  rollbackMisses ((ctx.closeSection st).concatFreeList st.toRelease) plan

/-! ## Pass 3: consolidation -/

/-- First loop of pass 3: publish each pending object, unless another thread has
    published the same hash in the meantime (the double check). -/
def publishPlan (st : WriteSection) : List PlanEntry → WriteSection × List PlanEntry
  | [] => (st, [])
  | e :: es =>
    match e.kind with
    | .hit =>
      let r := publishPlan st es
      (r.1, e :: r.2)
    | .miss =>
      match st.index.lookupByHash (st.heap.cell e.info).hash with
      | some winner =>
        let r := publishPlan
          { st with
            toRelease := e.masterBlk :: st.toRelease
            heap := (st.heap.free e.info).fetchAdd winner } es
        (r.1, { e with info := winner } :: r.2)
      | none =>
        let r := publishPlan
          { st with index := st.index.insertHash (st.heap.cell e.info).hash e.info } es
        (r.1, e :: r.2)

/-- One iteration of the second loop of pass 3: drop the reference of the mapping
    that is overwritten, then insert the new one. -/
def mapBlock (path : CString) (st : WriteSection) (e : PlanEntry) : WriteSection :=
  let st :=
    match st.index.lookupByFileBlock path e.logicalBlk with
    | none => st
    | some old => st.dropReference old
  { st with index := st.index.insertFileBlock path e.logicalBlk e.info }

/-- The size update of pass 3: a write never shrinks the file. -/
def growSize (ix : Index) (path : CString) (newEnd : Nat) : Index :=
  match ix.fileToSizes.lookup path with
  | none => { ix with fileToSizes := ix.fileToSizes.insert path newEnd }
  | some logicalSize =>
    if newEnd > logicalSize then { ix with fileToSizes := ix.fileToSizes.insert path newEnd }
    else ix

/-- The write-locked section of pass 3. -/
def pass3Section (st : WriteSection) (path : CString) (startBlock numBlocks : Nat)
    (plan : List PlanEntry) : WriteSection :=
  let (st, plan) := publishPlan st plan
  let st := plan.foldl (mapBlock path) st
  { st with index := growSize st.index path ((startBlock + numBlocks) * blockSize) }

/-! ## The whole call -/

variable [Sha512]

/-- Passes 1 and 1.5: the plan of the request, its MISSes with their slots, and the
    number of MISSes. -/
def prepareWrite (ctx : Context) (req : WriteRequest) : Context × List PlanEntry × Nat :=
  let p := pass1 ctx.index ctx.heap req.buf req.startBlock req.numBlocks
  let ctx := { ctx with heap := p.heap }
  if 0 < p.missCount then
    let (ctx, masterBlks) := allocateBatchStorageFirst ctx p.missCount
    let (heap, plan) := assignSlots ctx.heap p.plan masterBlks
    ({ ctx with heap := heap }, plan, p.missCount)
  else (ctx, p.plan, p.missCount)

/-- `write_dedup`. -/
def writeDedup (ctx : Context) (req : WriteRequest) (io : Nat → PwriteResult) : Context × Int :=
  if req.size = 0 then (ctx, 0) else
  if req.numBlocks = 0 ∨ req.size % blockSize ≠ 0 then (ctx, Errno.neg EOPNOTSUPP) else
  let (ctx, plan, missCount) := prepareWrite ctx req
  let (master, rc) :=
    if 0 < missCount then flushPlan ctx.master req.buf io 0 plan else (ctx.master, 0)
  let ctx := { ctx with master := master }
  if rc < 0 then
    (rollbackAllocations ctx plan, rc)
  else
    let st := pass3Section ctx.openSection req.path req.startBlock req.numBlocks plan
    ((ctx.closeSection st).concatFreeList st.toRelease, cInt (req.numBlocks * blockSize))

end DedupBlockFS
