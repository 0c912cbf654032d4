-- SUMMARY: Any number of calls in flight, interleaved at their critical sections and system calls.
import DedupBlockFS.Lib.TransitionSystem
import DedupBlockFS.Passthrough

/-!
# Calls in flight

FUSE dispatches calls on many threads. A call runs through the sections of its C
function: code under one acquisition of a lock, the atomic reservation at the end
of the master file, and each `pread` or `pwrite`. Sections of different calls
interleave freely; one section is one step. The program counter of a call carries
the local variables that are live between two sections.
-/

namespace DedupBlockFS

open ByteFile

/-- Where a `write_dedup` is, before which section. -/
inductive WritePc where
  /-- before pass 1 -/
  | start
  /-- before the drain of the free list -/
  | drain (plan : List PlanEntry) (missCount : Nat)
  /-- before `fetch_add` on `nextBlockIndex` -/
  | append (plan : List PlanEntry) (taken : List Nat) (remaining : Nat)
  /-- before the next `pwrite`; `todo` is the part of the plan after the last run -/
  | flush (plan todo : List PlanEntry)
  /-- before the write-locked section of pass 3 -/
  | consolidate (plan : List PlanEntry)
  /-- before the released slots go to the free list -/
  | concat (slots : List Nat)
  /-- before the write-locked section of the rollback -/
  | rollbackHits (plan : List PlanEntry) (rc : Int)
  /-- before the slots released by the rollback of HITs go to the free list -/
  | rollbackConcat (plan : List PlanEntry) (slots : List Nat) (rc : Int)
  /-- before the free-list section of the rollback -/
  | rollbackMisses (plan : List PlanEntry) (rc : Int)
  | done (ret : Int)

/-- Where a `remove_blocks_dedup_batch` is. -/
inductive RemovePc where
  | start
  | concat (slots : List Nat)
  | done

/-- Where an `xmp_unlink` is. -/
inductive UnlinkPc where
  | start
  | remove (numBlocks : Nat)
  | concat (slots : List Nat)
  | dropSize
  | done (ret : Int)

/-- Where an `xmp_truncate` with an aligned size is. -/
inductive TruncatePc where
  | start
  | remove (newBlockCount oldBlockCount : Nat)
  | concat (slots : List Nat)
  | setSize
  | done (ret : Int)

/-- Where a `read_dedup` is; `todo` are the sorted pairs not yet read. -/
inductive ReadPc where
  | start
  | groups (validBlocks : Nat) (todo : List BlockPair) (buf : List UInt8)
  | done (ret : Int) (buf : List UInt8)

/-- A call that has been dispatched, with its arguments and its program counter. -/
inductive Call where
  | write (req : WriteRequest) (pc : WritePc)
  | remove (path : CString) (startBlock endBlock : Nat) (pc : RemovePc)
  | unlink (path : CString) (res : SyscallResult) (pc : UnlinkPc)
  | truncate (path : CString) (size : Nat) (res : SyscallResult) (pc : TruncatePc)
  | read (req : ReadRequest) (pc : ReadPc)

/-- The value a call has returned; a removal returns nothing and counts as 0. -/
def Call.result : Call → Option Int
  | .write _ (.done ret) | .unlink _ _ (.done ret) | .truncate _ _ _ (.done ret)
  | .read _ (.done ret _) => some ret
  | .remove _ _ _ .done => some 0
  | _ => none

/-- A call with its arguments, as FUSE dispatches it. A truncate that gets past the
    check of its arguments has a non-negative size. -/
inductive Request where
  | write (req : WriteRequest)
  | remove (path : CString) (startBlock endBlock : Nat)
  | unlink (path : CString) (res : SyscallResult)
  | truncate (path : CString) (size : Nat) (res : SyscallResult)
  | read (req : ReadRequest)

def Request.toCall : Request → Call
  | .write req => .write req .start
  | .remove path startBlock endBlock => .remove path startBlock endBlock .start
  | .unlink path res => .unlink path res .start
  | .truncate path size res => .truncate path size res .start
  | .read req => .read req .start

/-- Pass 1.5 after the allocation: store the slots, then go on to the flush. -/
def storeSlots (ctx : Context) (plan : List PlanEntry) (slots : List Nat) : Context × WritePc :=
  let r := assignSlots ctx.heap plan slots
  ({ ctx with heap := r.1 }, .flush r.2 r.2)

section
variable [Sha512]

/-- The next section of a `write_dedup`; `io` answers it if it is a `pwrite`. -/
def advanceWrite (ctx : Context) (req : WriteRequest) (io : PwriteResult) :
    WritePc → Option (Context × WritePc)
  | .start =>
    if req.size = 0 then some (ctx, .done 0)
    else if req.numBlocks = 0 ∨ req.size % blockSize ≠ 0 then
      some (ctx, .done (Errno.neg EOPNOTSUPP))
    else
      let p := pass1 ctx.index ctx.heap req.buf req.startBlock req.numBlocks
      some ({ ctx with heap := p.heap },
        if 0 < p.missCount then .drain p.plan p.missCount else .consolidate p.plan)
  | .drain plan missCount =>
    let r := ctx.drainFreeList missCount
    let remaining := missCount - r.2.length
    if 0 < remaining then some (r.1, .append plan r.2 remaining)
    else some (storeSlots r.1 plan r.2)
  | .append plan taken remaining =>
    let r := ctx.reserveAppend remaining
    some (storeSlots r.1 plan (taken ++ r.2))
  | .flush plan todo =>
    match nextRun todo with
    | none => some (ctx, .consolidate plan)
    | some (first, runLen, rest) =>
      let w := writeRun ctx.master req.buf first runLen io
      some ({ ctx with master := w.1 },
        if w.2 = (runLen * blockSize : Nat) then .flush plan rest
        else .rollbackHits plan (flushError io))
  | .consolidate plan =>
    let st := pass3Section ctx.openSection req.path req.startBlock req.numBlocks plan
    some (ctx.closeSection st, .concat st.toRelease)
  | .concat slots => some (ctx.concatFreeList slots, .done (cInt (req.numBlocks * blockSize)))
  | .rollbackHits plan rc =>
    let st := rollbackHits ctx.openSection plan
    some (ctx.closeSection st, .rollbackConcat plan st.toRelease rc)
  | .rollbackConcat plan slots rc => some (ctx.concatFreeList slots, .rollbackMisses plan rc)
  | .rollbackMisses plan rc => some (rollbackMisses ctx plan, .done rc)
  | .done _ => none

end

/-- The next section of a `remove_blocks_dedup_batch`. -/
def advanceRemove (ctx : Context) (path : CString) (startBlock endBlock : Nat) :
    RemovePc → Option (Context × RemovePc)
  | .start =>
    let st := removeBlocksSection ctx.openSection path startBlock endBlock
    some (ctx.closeSection st, .concat st.toRelease)
  | .concat slots => some (ctx.concatFreeList slots, .done)
  | .done => none

/-- The next section of an `xmp_unlink`. -/
def advanceUnlink (ctx : Context) (path : CString) (res : SyscallResult) :
    UnlinkPc → Option (Context × UnlinkPc)
  | .start =>
    match unlinkLookup ctx path with
    | none => some (ctx, .done res.ret)
    | some numBlocks => some (ctx, .remove numBlocks)
  | .remove numBlocks =>
    let st := removeBlocksSection ctx.openSection path 0 numBlocks
    some (ctx.closeSection st, .concat st.toRelease)
  | .concat slots => some (ctx.concatFreeList slots, .dropSize)
  | .dropSize => some (unlinkDropSize ctx path, .done res.ret)
  | .done _ => none

/-- The next section of an `xmp_truncate`. -/
def advanceTruncate (ctx : Context) (path : CString) (size : Nat) (res : SyscallResult) :
    TruncatePc → Option (Context × TruncatePc)
  | .start =>
    if size % blockSize ≠ 0 then some (ctx, .done (Errno.neg EOPNOTSUPP)) else
    match truncateLookup ctx path size with
    | none => some (ctx, .done res.ret)
    | some (newBlockCount, oldBlockCount) => some (ctx, .remove newBlockCount oldBlockCount)
  | .remove newBlockCount oldBlockCount =>
    let st := removeBlocksSection ctx.openSection path newBlockCount oldBlockCount
    some (ctx.closeSection st, .concat st.toRelease)
  | .concat slots => some (ctx.concatFreeList slots, .setSize)
  | .setSize => some (truncateSetSize ctx path size, .done res.ret)
  | .done _ => none

/-- The next section of a `read_dedup`. -/
def advanceRead (qs : Qsort) (ctx : Context) (req : ReadRequest) : ReadPc → Option ReadPc
  | .start =>
    if req.numBlocks = 0 ∨ req.size % blockSize ≠ 0 then
      some (.done (Errno.neg EOPNOTSUPP) req.buf)
    else
      let pairs := lookupPairs ctx.index ctx.heap req.path req.startBlock req.numBlocks 0
      if pairs.length = 0 then some (.done 0 req.buf)
      else some (.groups pairs.length (sortPairs qs pairs) req.buf)
  | .groups validBlocks [] buf => some (.done (cInt (validBlocks * blockSize)) buf)
  | .groups validBlocks (first :: rest) buf =>
    match readGroup ctx.master buf first rest with
    | (buf, false) => some (.done (Errno.neg EIO) buf)
    | (buf, true) => some (.groups validBlocks (rest.drop (groupLength first rest - 1)) buf)
  | .done _ _ => none

section
variable [Sha512]

/-- The next section of a call, or `none` when it has returned. -/
def advance (qs : Qsort) (ctx : Context) (io : PwriteResult) : Call → Option (Context × Call)
  | .write req pc => (advanceWrite ctx req io pc).map fun r => (r.1, .write req r.2)
  | .remove path startBlock endBlock pc =>
    (advanceRemove ctx path startBlock endBlock pc).map fun r =>
      (r.1, .remove path startBlock endBlock r.2)
  | .unlink path res pc => (advanceUnlink ctx path res pc).map fun r => (r.1, .unlink path res r.2)
  | .truncate path size res pc =>
    (advanceTruncate ctx path size res pc).map fun r => (r.1, .truncate path size res r.2)
  | .read req pc => (advanceRead qs ctx req pc).map fun pc => (ctx, .read req pc)

end

/-- The shared state and all calls dispatched so far, in this order. -/
structure Machine where
  ctx : Context
  calls : List Call

inductive Event where
  /-- FUSE dispatches a call. -/
  | dispatch (r : Request)
  /-- The call `tid` runs its next section; `io` answers it if it is a `pwrite`. -/
  | run (tid : Nat) (io : PwriteResult)

variable [Sha512]

def Machine.step (qs : Qsort) (s : Machine) : Event → Option Machine
  | .dispatch r => some { s with calls := s.calls ++ [r.toCall] }
  | .run tid io =>
    match s.calls[tid]? with
    | none => none
    | some c =>
      (advance qs s.ctx io c).map fun r => { ctx := r.1, calls := s.calls.set tid r.2 }

/-- All interleavings from the empty index over an empty master file. -/
def machine (qs : Qsort) : TransitionSystem Machine Event where
  init := { ctx := .empty, calls := [] }
  step := Machine.step qs

variable {qs : Qsort}

/-- A step of another call leaves a call alone. -/
theorem Machine.step_other {s s' : Machine} {e : Event} {tid : Nat} {c : Call}
    (h : s.step qs e = some s') (hc : s.calls[tid]? = some c) (hne : ∀ io, e ≠ .run tid io) :
    s'.calls[tid]? = some c := by
  cases e with
  | dispatch r =>
    obtain rfl := Option.some.inj h
    rw [List.getElem?_append_left (List.getElem?_eq_some_iff.mp hc).1]
    exact hc
  | run tid' io =>
    simp only [Machine.step] at h
    split at h
    · cases h
    · obtain ⟨r, -, rfl⟩ := Option.map_eq_some_iff.mp h
      rw [List.getElem?_set_ne fun heq => hne io (by rw [heq])]
      exact hc

/-- A step of a call advances it. -/
theorem Machine.step_self {s s' : Machine} {tid : Nat} {io : PwriteResult} {c : Call}
    (h : s.step qs (.run tid io) = some s') (hc : s.calls[tid]? = some c) :
    ∃ c', advance qs s.ctx io c = some (s'.ctx, c') ∧ s'.calls[tid]? = some c' := by
  simp only [Machine.step, hc] at h
  obtain ⟨⟨ctx', c'⟩, hadv, rfl⟩ := Option.map_eq_some_iff.mp h
  exact ⟨c', hadv, List.getElem?_set_self (List.getElem?_eq_some_iff.mp hc).1⟩

/-- A step either dispatches a call or advances one call that is in flight. -/
theorem Machine.step_cases {s s' : Machine} {e : Event} (h : s.step qs e = some s') :
    (∃ r, e = .dispatch r ∧ s' = { s with calls := s.calls ++ [r.toCall] }) ∨
    (∃ io c c' ctx' before after, e = .run before.length io ∧ s.calls = before ++ c :: after ∧
      advance qs s.ctx io c = some (ctx', c') ∧
      s' = { ctx := ctx', calls := before ++ c' :: after }) := by
  cases e with
  | dispatch r =>
    simp only [Machine.step, Option.some.injEq] at h
    exact .inl ⟨r, rfl, h.symm⟩
  | run tid io =>
    simp only [Machine.step] at h
    split at h
    · cases h
    · rename_i c hc
      rw [Option.map_eq_some_iff] at h
      obtain ⟨⟨ctx', c'⟩, hadv, rfl⟩ := h
      obtain ⟨hlt, hget⟩ := List.getElem?_eq_some_iff.mp hc
      have hlen : (s.calls.take tid).length = tid := List.length_take_of_le (Nat.le_of_lt hlt)
      refine .inr ⟨io, c, c', ctx', s.calls.take tid, s.calls.drop (tid + 1), ?_, ?_, hadv, ?_⟩
      · rw [hlen]
      · rw [← hget, ← List.drop_eq_getElem_cons hlt, List.take_append_drop]
      · rw [List.set_eq_take_append_cons_drop, if_pos hlt]

end DedupBlockFS
