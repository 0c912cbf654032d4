-- SUMMARY: One call at a time, the machine computes exactly what the handlers' sequential functions do.
import DedupBlockFS.Concurrent.Linearization
import DedupBlockFS.Concurrent.Progress
import DedupBlockFS.Reading
import DedupBlockFS.Sequential.Operations
import Mathlib.Data.List.Induction

/-!
# One call at a time

The machine cuts the handlers into sections; the sequential functions run them in one go.
`finish` says what is left of a call at each program counter when nobody interferes. One
section and then the rest is the same as the rest (`advance_finish`), so that the runs of
the machine without overlapping calls are the sequential ones.
-/

namespace DedupBlockFS

open ByteFile

section
variable [Sha512]

/-! ## The rest of a call -/

/-- The rest of a `write_dedup` before the `pwrite` of the runs in `todo`. -/
def finishFlush (ctx : Context) (req : WriteRequest) (io : Nat → PwriteResult)
    (plan todo : List PlanEntry) : Context × Int :=
  let r := flushPlan ctx.master req.buf io 0 todo
  let ctx := { ctx with master := r.1 }
  if r.2 < 0 then (rollbackAllocations ctx plan, r.2)
  else (afterPass3 ctx req plan, cInt (req.numBlocks * blockSize))

/-- The rest of a `write_dedup` that has got its slots. -/
def finishSlots (ctx : Context) (req : WriteRequest) (io : Nat → PwriteResult)
    (plan : List PlanEntry) (slots : List Nat) : Context × Int :=
  let r := assignSlots ctx.heap plan slots
  finishFlush { ctx with heap := r.1 } req io r.2 r.2

def WritePc.finish (ctx : Context) (req : WriteRequest) (io : Nat → PwriteResult) :
    WritePc → Context × Int
  | .start => writeDedup ctx req io
  | .drain plan missCount =>
    let r := allocateBatchStorageFirst ctx missCount
    finishSlots r.1 req io plan r.2
  | .append plan taken remaining =>
    let r := ctx.reserveAppend remaining
    finishSlots r.1 req io plan (taken ++ r.2)
  | .flush plan todo => finishFlush ctx req io plan todo
  | .consolidate plan => (afterPass3 ctx req plan, cInt (req.numBlocks * blockSize))
  | .concat slots => (ctx.concatFreeList slots, cInt (req.numBlocks * blockSize))
  | .rollbackHits plan rc => (rollbackAllocations ctx plan, rc)
  | .rollbackConcat plan slots rc =>
    (DedupBlockFS.rollbackMisses (ctx.concatFreeList slots) plan, rc)
  | .rollbackMisses plan rc => (DedupBlockFS.rollbackMisses ctx plan, rc)
  | .done rc => (ctx, rc)

def RemovePc.finish (ctx : Context) (path : CString) (startBlock endBlock : Nat) :
    RemovePc → Context
  | .start => removeBlocksDedupBatch ctx path startBlock endBlock
  | .concat slots => ctx.concatFreeList slots
  | .done => ctx

def UnlinkPc.finish (ctx : Context) (path : CString) (res : SyscallResult) :
    UnlinkPc → Context × Int
  | .start => xmpUnlink ctx path res
  | .remove numBlocks =>
    (unlinkDropSize (removeBlocksDedupBatch ctx path 0 numBlocks) path, res.ret)
  | .concat slots => (unlinkDropSize (ctx.concatFreeList slots) path, res.ret)
  | .dropSize => (unlinkDropSize ctx path, res.ret)
  | .done ret => (ctx, ret)

def TruncatePc.finish (ctx : Context) (path : CString) (size : Nat) (res : SyscallResult) :
    TruncatePc → Context × Int
  | .start => xmpTruncate ctx path size res
  | .remove newBlockCount oldBlockCount =>
    (truncateSetSize (removeBlocksDedupBatch ctx path newBlockCount oldBlockCount) path size,
      res.ret)
  | .concat slots => (truncateSetSize (ctx.concatFreeList slots) path size, res.ret)
  | .setSize => (truncateSetSize ctx path size, res.ret)
  | .done ret => (ctx, ret)

def ReadPc.finish (qs : Qsort) (ctx : Context) (req : ReadRequest) : ReadPc → Int × List UInt8
  | .start => readDedup qs ctx req
  | .groups validBlocks todo buf =>
    let r := readGroups ctx.master buf todo
    (if r.2 then cInt (validBlocks * blockSize) else Errno.neg EIO, r.1)
  | .done ret buf => (ret, buf)

/-- The state and the call once the call has returned, if no other call takes a step. -/
def Call.finish (qs : Qsort) (ctx : Context) (io : Nat → PwriteResult) : Call → Context × Call
  | .write req pc =>
    let r := pc.finish ctx req io
    (r.1, .write req (.done r.2))
  | .remove path startBlock endBlock pc =>
    (pc.finish ctx path startBlock endBlock, .remove path startBlock endBlock .done)
  | .unlink path res pc =>
    let r := pc.finish ctx path res
    (r.1, .unlink path res (.done r.2))
  | .truncate path size res pc =>
    let r := pc.finish ctx path size res
    (r.1, .truncate path size res (.done r.2))
  | .read req pc =>
    let r := pc.finish qs ctx req
    (ctx, .read req (.done r.1 r.2))

/-! ## One section of a write -/

variable {qs : Qsort} {ctx ctx' : Context} {req : WriteRequest} {plan todo : List PlanEntry}
  {r : PwriteResult} {io : Nat → PwriteResult}

omit [Sha512] in
/-- The `pwrite`s after the first one are answered by the rest of the answers. -/
theorem flushPlan_shift (master buf : List UInt8) (io : Nat → PwriteResult) (k : Nat)
    (todo : List PlanEntry) : flushPlan master buf io (k + 1) todo =
      flushPlan master buf (fun i => io (i + 1)) k todo := by
  induction hn : todo.length using Nat.strong_induction_on generalizing master todo k with
  | _ n ih =>
    rw [flushPlan, flushPlan]
    split
    · rfl
    · rename_i hrun
      dsimp only
      split
      · exact ih _ (hn ▸ nextRun_length hrun) _ _ _ rfl
      · rfl

/-- The answers to a write at `pc` whose next section gets the answer `r`: only a `pwrite`
    uses it up. -/
def WritePc.feed (r : PwriteResult) (io : Nat → PwriteResult) : WritePc → Nat → PwriteResult
  | .flush _ _, 0 => r
  | .flush _ _, i + 1 => io i
  | _, i => io i

omit [Sha512] in
theorem WritePc.feed_of_ne {pc : WritePc} (h : ∀ plan todo, pc ≠ .flush plan todo) :
    pc.feed r io = io := by
  funext i
  cases pc with
  | flush plan todo => exact absurd rfl (h plan todo)
  | _ => cases i <;> rfl

omit [Sha512] in
theorem WritePc.exists_feed (pc : WritePc) (io : Nat → PwriteResult) :
    ∃ r io', pc.feed r io' = io := by
  cases pc with
  | flush plan todo =>
    refine ⟨io 0, fun i => io (i + 1), funext fun i => ?_⟩
    cases i <;> rfl
  | _ => exact ⟨.complete, io, rfl⟩

omit [Sha512] in
theorem finishFlush_of_end (h : nextRun todo = none) :
    finishFlush ctx req io plan todo =
      (afterPass3 ctx req plan, cInt (req.numBlocks * blockSize)) := by
  have hflush : flushPlan ctx.master req.buf io 0 todo = (ctx.master, 0) := by
    rw [flushPlan]
    split
    · rfl
    · rename_i hrun
      rw [h] at hrun
      cases hrun
  simp only [finishFlush, hflush, Int.lt_irrefl, if_false]

omit [Sha512] in
theorem finishFlush_of_run {first : PlanEntry} {runLen : Nat} {rest : List PlanEntry}
    (h : nextRun todo = some (first, runLen, rest)) :
    let w := writeRun ctx.master req.buf first runLen r
    finishFlush ctx req ((WritePc.flush plan todo).feed r io) plan todo =
      if w.2 = (runLen * blockSize : Nat) then
        finishFlush { ctx with master := w.1 } req io plan rest
      else (rollbackAllocations { ctx with master := w.1 } plan, flushError r) := by
  intro w
  have hflush : flushPlan ctx.master req.buf ((WritePc.flush plan todo).feed r io) 0 todo =
      if w.2 = (runLen * blockSize : Nat) then flushPlan w.1 req.buf io 0 rest
      else (w.1, flushError r) := by
    rw [flushPlan]
    split
    · rename_i hrun
      rw [h] at hrun
      cases hrun
    · rename_i hrun
      rw [h] at hrun
      obtain ⟨rfl, rfl, rfl⟩ := Prod.mk.injEq .. ▸ Option.some.inj hrun
      dsimp only
      rw [flushPlan_shift]
      rfl
  simp only [finishFlush, hflush]
  by_cases hwhole : w.2 = (runLen * blockSize : Nat)
  · simp only [if_pos hwhole]
  · simp only [if_neg hwhole, if_pos (isErrno_flushError r).2]

/-- An accepted `write_dedup` after pass 1. -/
theorem writeDedup_of_accepted (hsize : req.size ≠ 0)
    (haccepted : ¬(req.numBlocks = 0 ∨ req.size % blockSize ≠ 0)) (io : Nat → PwriteResult) :
    let p := pass1 ctx.index ctx.heap req.buf req.startBlock req.numBlocks
    writeDedup ctx req io =
      (if 0 < p.missCount then WritePc.drain p.plan p.missCount
        else .consolidate p.plan).finish { ctx with heap := p.heap } req io := by
  intro p
  by_cases hmiss : 0 < p.missCount
  · have hprepare : prepareWrite ctx req =
        (let a := allocateBatchStorageFirst { ctx with heap := p.heap } p.missCount
         let t := assignSlots a.1.heap p.plan a.2
         ({ a.1 with heap := t.1 }, t.2, p.missCount)) := if_pos hmiss
    simp only [writeDedup, if_neg hsize, if_neg haccepted, hprepare, if_pos hmiss]
    rfl
  · have hprepare : prepareWrite ctx req = ({ ctx with heap := p.heap }, p.plan, p.missCount) :=
      if_neg hmiss
    simp only [writeDedup, if_neg hsize, if_neg haccepted, hprepare, if_neg hmiss]
    rfl

/-- One section of a write and then the rest is the rest. -/
theorem advanceWrite_finish {pc pc' : WritePc}
    (h : advanceWrite ctx req r pc = some (ctx', pc')) (io : Nat → PwriteResult) :
    pc.finish ctx req (pc.feed r io) = pc'.finish ctx' req io := by
  cases pc with
  | start =>
    rw [WritePc.feed_of_ne (fun _ _ heq => by cases heq)]
    simp only [advanceWrite] at h
    split at h
    · rename_i hzero
      obtain ⟨rfl, rfl⟩ := Prod.mk.injEq .. ▸ Option.some.inj h
      exact if_pos hzero
    · rename_i hsize
      split at h
      · rename_i hbad
        obtain ⟨rfl, rfl⟩ := Prod.mk.injEq .. ▸ Option.some.inj h
        exact (if_neg hsize).trans (if_pos hbad)
      · rename_i haccepted
        obtain ⟨rfl, rfl⟩ := Prod.mk.injEq .. ▸ Option.some.inj h
        exact writeDedup_of_accepted hsize haccepted io
  | drain plan missCount =>
    rw [WritePc.feed_of_ne (fun _ _ heq => by cases heq)]
    simp only [advanceWrite] at h
    split at h
    · rename_i hremaining
      obtain ⟨rfl, rfl⟩ := Prod.mk.injEq .. ▸ Option.some.inj h
      simp only [WritePc.finish, allocateBatchStorageFirst, if_pos hremaining]
    · rename_i hremaining
      obtain ⟨rfl, rfl⟩ := Prod.mk.injEq .. ▸ Option.some.inj h
      simp only [WritePc.finish, allocateBatchStorageFirst, if_neg hremaining, finishSlots]
  | flush plan todo =>
    simp only [advanceWrite] at h
    split at h
    · rename_i hend
      obtain ⟨rfl, rfl⟩ := Prod.mk.injEq .. ▸ Option.some.inj h
      exact finishFlush_of_end hend
    · rename_i first runLen rest hrun
      obtain ⟨rfl, rfl⟩ := Prod.mk.injEq .. ▸ Option.some.inj h
      refine (finishFlush_of_run hrun).trans ?_
      split <;> rfl
  | append plan taken remaining | consolidate plan | concat slots | rollbackHits plan rc
  | rollbackConcat plan slots rc | rollbackMisses plan rc =>
    rw [WritePc.feed_of_ne (fun _ _ heq => by cases heq)]
    obtain ⟨rfl, rfl⟩ := Prod.mk.injEq .. ▸ Option.some.inj h
    rfl
  | done rc => cases h

/-! ## One section of the other calls -/

omit [Sha512] in
/-- A removal without its check for an empty range, in which it does nothing anyway. -/
theorem removeBlocksDedupBatch_sections (ctx : Context) (path : CString)
    (startBlock endBlock : Nat) :
    let st := removeBlocksSection ctx.openSection path startBlock endBlock
    removeBlocksDedupBatch ctx path startBlock endBlock =
      (ctx.closeSection st).concatFreeList st.toRelease := by
  unfold removeBlocksDedupBatch
  split
  · rename_i hempty
    have hnone : removeBlocksSection ctx.openSection path startBlock endBlock =
        ctx.openSection := by
      rw [removeBlocksSection, Nat.sub_eq_zero_of_le hempty]
      rfl
    rw [hnone]
    rfl
  · rfl

omit [Sha512] in
theorem advanceRemove_finish {path : CString} {startBlock endBlock : Nat} {pc pc' : RemovePc}
    (h : advanceRemove ctx path startBlock endBlock pc = some (ctx', pc')) :
    pc.finish ctx path startBlock endBlock = pc'.finish ctx' path startBlock endBlock := by
  cases pc with
  | start =>
    obtain ⟨rfl, rfl⟩ := Prod.mk.injEq .. ▸ Option.some.inj h
    exact removeBlocksDedupBatch_sections ctx path startBlock endBlock
  | concat slots =>
    obtain ⟨rfl, rfl⟩ := Prod.mk.injEq .. ▸ Option.some.inj h
    rfl
  | done => cases h

omit [Sha512] in
theorem advanceUnlink_finish {path : CString} {res : SyscallResult} {pc pc' : UnlinkPc}
    (h : advanceUnlink ctx path res pc = some (ctx', pc')) :
    pc.finish ctx path res = pc'.finish ctx' path res := by
  cases pc with
  | start =>
    simp only [advanceUnlink] at h
    split at h
    · rename_i hlookup
      obtain ⟨rfl, rfl⟩ := Prod.mk.injEq .. ▸ Option.some.inj h
      simp only [UnlinkPc.finish, xmpUnlink, hlookup]
    · rename_i hlookup
      obtain ⟨rfl, rfl⟩ := Prod.mk.injEq .. ▸ Option.some.inj h
      simp only [UnlinkPc.finish, xmpUnlink, hlookup]
  | remove numBlocks =>
    obtain ⟨rfl, rfl⟩ := Prod.mk.injEq .. ▸ Option.some.inj h
    simp only [UnlinkPc.finish, removeBlocksDedupBatch_sections]
  | concat slots | dropSize =>
    obtain ⟨rfl, rfl⟩ := Prod.mk.injEq .. ▸ Option.some.inj h
    rfl
  | done ret => cases h

omit [Sha512] in
theorem advanceTruncate_finish {path : CString} {size : Nat} {res : SyscallResult}
    {pc pc' : TruncatePc} (h : advanceTruncate ctx path size res pc = some (ctx', pc')) :
    pc.finish ctx path size res = pc'.finish ctx' path size res := by
  cases pc with
  | start =>
    simp only [advanceTruncate] at h
    split at h
    · rename_i hunaligned
      obtain ⟨rfl, rfl⟩ := Prod.mk.injEq .. ▸ Option.some.inj h
      exact xmpTruncate_of_refused res (.inr (by omega))
    · rename_i haligned
      have hvalid : ¬((size : Int) < 0 ∨ (size : Int) % blockSize ≠ 0) := by omega
      split at h
      · rename_i hlookup
        obtain ⟨rfl, rfl⟩ := Prod.mk.injEq .. ▸ Option.some.inj h
        simp only [TruncatePc.finish, xmpTruncate, if_neg hvalid, Int.toNat_natCast, hlookup]
      · rename_i hlookup
        obtain ⟨rfl, rfl⟩ := Prod.mk.injEq .. ▸ Option.some.inj h
        simp only [TruncatePc.finish, xmpTruncate, if_neg hvalid, Int.toNat_natCast, hlookup]
  | remove newBlockCount oldBlockCount =>
    obtain ⟨rfl, rfl⟩ := Prod.mk.injEq .. ▸ Option.some.inj h
    simp only [TruncatePc.finish, removeBlocksDedupBatch_sections]
  | concat slots | setSize =>
    obtain ⟨rfl, rfl⟩ := Prod.mk.injEq .. ▸ Option.some.inj h
    rfl
  | done ret => cases h

omit [Sha512] in
theorem advanceRead_finish {rreq : ReadRequest} {pc pc' : ReadPc}
    (h : advanceRead qs ctx rreq pc = some pc') :
    pc.finish qs ctx rreq = pc'.finish qs ctx rreq := by
  cases pc with
  | start =>
    simp only [advanceRead] at h
    split at h
    · rename_i hbad
      obtain rfl := Option.some.inj h
      exact if_pos hbad
    · rename_i haccepted
      split at h
      · rename_i hnone
        obtain rfl := Option.some.inj h
        simp only [ReadPc.finish, readDedup, if_neg haccepted, if_pos hnone]
      · rename_i hsome
        obtain rfl := Option.some.inj h
        simp only [ReadPc.finish, readDedup, if_neg haccepted, if_neg hsome]
        rcases readGroups ctx.master rreq.buf (sortPairs qs _) with ⟨buf, whole⟩
        cases whole with
        | false => simp only [Bool.false_eq_true, if_false]
        | true => simp only [if_true]
  | groups validBlocks todo buf =>
    cases todo with
    | nil =>
      simp only [advanceRead, Option.some.injEq] at h
      rw [← h]
      simp only [ReadPc.finish, readGroups, if_true]
    | cons first rest =>
      simp only [advanceRead] at h
      split at h
      · rename_i hgroup
        obtain rfl := Option.some.inj h
        simp only [ReadPc.finish, readGroups, hgroup, Bool.false_eq_true, if_false]
      · rename_i hgroup
        obtain rfl := Option.some.inj h
        simp only [ReadPc.finish, readGroups, hgroup]
  | done ret buf => cases h

/-! ## One section of any call -/

def Call.feed (r : PwriteResult) (io : Nat → PwriteResult) : Call → Nat → PwriteResult
  | .write _ pc => pc.feed r io
  | _ => io

omit [Sha512] in
theorem Call.exists_feed (c : Call) (io : Nat → PwriteResult) : ∃ r io', c.feed r io' = io := by
  cases c with
  | write req pc => exact pc.exists_feed io
  | _ => exact ⟨.complete, io, rfl⟩

/-- One section and then the rest is the rest. -/
theorem advance_finish {c c' : Call} (h : advance qs ctx r c = some (ctx', c'))
    (io : Nat → PwriteResult) : c.finish qs ctx (c.feed r io) = c'.finish qs ctx' io := by
  cases c with
  | write req pc =>
    obtain ⟨⟨ctx₁, pc'⟩, hadv, hres⟩ := Option.map_eq_some_iff.mp h
    obtain ⟨rfl, rfl⟩ := Prod.ext_iff.mp hres
    simp only [Call.finish, Call.feed, advanceWrite_finish hadv io]
  | remove path startBlock endBlock pc =>
    obtain ⟨⟨ctx₁, pc'⟩, hadv, hres⟩ := Option.map_eq_some_iff.mp h
    obtain ⟨rfl, rfl⟩ := Prod.ext_iff.mp hres
    simp only [Call.finish, advanceRemove_finish hadv]
  | unlink path res pc =>
    obtain ⟨⟨ctx₁, pc'⟩, hadv, hres⟩ := Option.map_eq_some_iff.mp h
    obtain ⟨rfl, rfl⟩ := Prod.ext_iff.mp hres
    simp only [Call.finish, advanceUnlink_finish hadv]
  | truncate path size res pc =>
    obtain ⟨⟨ctx₁, pc'⟩, hadv, hres⟩ := Option.map_eq_some_iff.mp h
    obtain ⟨rfl, rfl⟩ := Prod.ext_iff.mp hres
    simp only [Call.finish, advanceTruncate_finish hadv]
  | read rreq pc =>
    obtain ⟨pc', hadv, hres⟩ := Option.map_eq_some_iff.mp h
    obtain ⟨rfl, rfl⟩ := Prod.ext_iff.mp hres
    simp only [Call.finish, advanceRead_finish hadv]

/-- Nothing is left of a call that has returned. -/
theorem Call.finish_of_result {c : Call} (h : c.result ≠ none) (io : Nat → PwriteResult) :
    c.finish qs ctx io = (ctx, c) := by
  unfold Call.result at h
  split at h <;> first | rfl | exact absurd rfl h

theorem Call.result_finish (c : Call) (io : Nat → PwriteResult) :
    (c.finish qs ctx io).2.result ≠ none := by
  cases c <;> exact Option.some_ne_none _

/-! ## Every call returns -/

/-- Every section of a call brings it closer to its return. -/
theorem advance_lowers {c c' : Call} (h : advance qs ctx r c = some (ctx', c')) :
    c'.stepsLeft < c.stepsLeft := by
  by_cases hwrite : ∃ wreq, c = .write wreq .start ∧ wreq.Accepted
  · obtain ⟨wreq, rfl, hsize, haccepted⟩ := hwrite
    simp only [advance, advanceWrite, if_neg hsize, if_neg haccepted, Option.map_some] at h
    obtain ⟨-, rfl⟩ := Prod.mk.injEq .. ▸ Option.some.inj h
    have hplan := congrArg List.length
      (pass1_logicalBlk ctx.index ctx.heap wreq.buf wreq.startBlock wreq.numBlocks)
    rw [List.length_map, List.length_range'] at hplan
    split <;> simp only [Call.stepsLeft, WritePc.stepsLeft, hplan] <;> omega
  by_cases hread : ∃ rreq, c = .read rreq .start ∧ rreq.Accepted
  · obtain ⟨rreq, rfl, haccepted⟩ := hread
    have hpairs : (lookupPairs ctx.index ctx.heap rreq.path rreq.startBlock rreq.numBlocks
        0).length ≤ rreq.numBlocks := by
      rw [length_lookupPairs]
      exact length_lookupInfos_le
    simp only [advance, advanceRead, if_neg haccepted] at h
    split at h
    · obtain ⟨-, rfl⟩ := Prod.mk.injEq .. ▸ Option.some.inj h
      simp only [Call.stepsLeft, ReadPc.stepsLeft]
      omega
    · obtain ⟨-, rfl⟩ := Prod.mk.injEq .. ▸ Option.some.inj h
      simp only [Call.stepsLeft, ReadPc.stepsLeft, (sortPairs_perm qs _).length_eq]
      omega
  exact advance_stepsLeft h (fun wreq heq hok => hwrite ⟨wreq, heq, hok⟩)
    (fun rreq heq hok => hread ⟨rreq, heq, hok⟩)

/-! ## Runs without overlapping calls -/

/-- What the handler computes for a request, and the call once it has returned. -/
def Request.exec (qs : Qsort) (ctx : Context) (io : Nat → PwriteResult) :
    Request → Context × Call
  | .write req =>
    let r := writeDedup ctx req io
    (r.1, .write req (.done r.2))
  | .remove path startBlock endBlock =>
    (removeBlocksDedupBatch ctx path startBlock endBlock, .remove path startBlock endBlock .done)
  | .unlink path res =>
    let r := xmpUnlink ctx path res
    (r.1, .unlink path res (.done r.2))
  | .truncate path size res =>
    let r := xmpTruncate ctx path size res
    (r.1, .truncate path size res (.done r.2))
  | .read req =>
    let r := readDedup qs ctx req
    (ctx, .read req (.done r.1 r.2))

theorem Request.toCall_finish (rq : Request) (io : Nat → PwriteResult) :
    rq.toCall.finish qs ctx io = rq.exec qs ctx io := by
  cases rq <;> rfl

/-- Execute a request as a whole; `io` answers its `pwrite`s. -/
def Machine.exec (qs : Qsort) (s : Machine) (rq : Request × (Nat → PwriteResult)) : Machine :=
  let r := rq.1.exec qs s.ctx rq.2
  { ctx := r.1, calls := s.calls ++ [r.2] }

/-- Execute the requests one after the other. -/
def execRequests (qs : Qsort) (rqs : List (Request × (Nat → PwriteResult))) : Machine :=
  rqs.foldl (Machine.exec qs) { ctx := .empty, calls := [] }

/-- A call is dispatched only when all others have returned. -/
def OneAtATime (s : Machine) (e : Event) (_ : Machine) : Prop :=
  ∀ rq, e = .dispatch rq → ∀ c ∈ s.calls, c.result ≠ none

variable (qs) in
/-- The last call, run to its end. -/
theorem run_finish (calls : List Call) (ctx : Context) (c : Call) (io : Nat → PwriteResult) :
    (machine qs).Run OneAtATime { ctx := ctx, calls := calls ++ [c] }
      { ctx := (c.finish qs ctx io).1, calls := calls ++ [(c.finish qs ctx io).2] } := by
  induction hn : c.stepsLeft using Nat.strong_induction_on generalizing ctx c io with
  | _ n ih =>
    by_cases hresult : c.result = none
    · obtain ⟨r, io', hfeed⟩ := c.exists_feed io
      have hsome : (advance qs ctx r c).isSome := advance_isSome hresult
      obtain ⟨⟨ctx', c'⟩, hadv⟩ := Option.isSome_iff_exists.mp hsome
      have hrest := ih _ (hn ▸ advance_lowers hadv) ctx' c' io' rfl
      rw [← advance_finish hadv io', hfeed] at hrest
      refine TransitionSystem.Run.step (e := .run calls.length r) ?_ (fun rq he => by cases he)
        hrest
      simp only [machine, Machine.step, List.getElem?_concat_length, hadv, Option.map_some]
      rw [List.set_append_right _ _ (Nat.le_refl _), Nat.sub_self, List.set_cons_zero]
    · rw [Call.finish_of_result hresult]
      exact .refl

/-- A whole request is a run. -/
theorem run_exec {s : Machine} (hreturned : ∀ c ∈ s.calls, c.result ≠ none)
    (rq : Request × (Nat → PwriteResult)) : (machine qs).Run OneAtATime s (s.exec qs rq) := by
  have hrest := run_finish qs s.calls s.ctx rq.1.toCall rq.2
  rw [Request.toCall_finish] at hrest
  exact TransitionSystem.Run.step (e := .dispatch rq.1) rfl (fun _ _ => hreturned) hrest

/-- The call `c` is in the middle of the request `rq`, which came after `rqs`. -/
structure Midway (qs : Qsort) (s : Machine) (rqs : List (Request × (Nat → PwriteResult)))
    (c : Call) (rq : Request) : Prop where
  calls : s.calls = (execRequests qs rqs).calls ++ [c]
  rest : ∀ io, ∃ io', rq.exec qs (execRequests qs rqs).ctx io' = c.finish qs s.ctx io

theorem execRequests_concat (rqs : List (Request × (Nat → PwriteResult)))
    (rq : Request × (Nat → PwriteResult)) :
    execRequests qs (rqs ++ [rq]) = (execRequests qs rqs).exec qs rq := List.foldl_concat ..

theorem returned_execRequests (rqs : List (Request × (Nat → PwriteResult))) :
    ∀ c ∈ (execRequests qs rqs).calls, c.result ≠ none := by
  induction rqs using List.reverseRecOn with
  | nil => exact fun c hc => by cases hc
  | append_singleton rqs rq ih =>
    intro c hc
    rw [execRequests_concat] at hc
    rcases List.mem_append.mp hc with hold | hnew
    · exact ih c hold
    · rw [List.mem_singleton.mp hnew, ← Request.toCall_finish]
      exact Call.result_finish _ _

/-- Every state of a run without overlapping calls is the one after some whole requests, or is
    in the middle of one more. -/
theorem midway_of_reachable {s : Machine} (h : (machine qs).Reachable OneAtATime s) :
    ∃ rqs, s = execRequests qs rqs ∨ ∃ c rq, c.result = none ∧ Midway qs s rqs c rq := by
  refine h.invariant (I := fun s => ∃ rqs, s = execRequests qs rqs ∨
    ∃ c rq, c.result = none ∧ Midway qs s rqs c rq) ⟨[], .inl rfl⟩ ?_
  rintro s e s' ⟨rqs, hs⟩ hstep hone
  cases e with
  | dispatch rq =>
    obtain rfl := Option.some.inj hstep
    have hreturned := hone rq rfl
    rcases hs with rfl | ⟨c, rq', hresult, hmid⟩
    · refine ⟨rqs, .inr ⟨rq.toCall, rq, by cases rq <;> rfl, rfl, fun io => ⟨io, ?_⟩⟩⟩
      exact (Request.toCall_finish rq io).symm
    · exact absurd hresult (hreturned c (by rw [hmid.calls]; simp))
  | run tid r =>
    simp only [machine, Machine.step] at hstep
    split at hstep
    · cases hstep
    rename_i d hd
    obtain ⟨⟨ctx', d'⟩, hadv, rfl⟩ := Option.map_eq_some_iff.mp hstep
    have hrunning : d.result = none := by
      by_contra hresult
      rw [advance_returned hresult] at hadv
      cases hadv
    rcases hs with rfl | ⟨c, rq, -, hmid⟩
    · exact absurd hrunning (returned_execRequests rqs d (List.mem_of_getElem? hd))
    -- the call that runs is the last one
    have htid : tid = (execRequests qs rqs).calls.length := by
      rw [hmid.calls] at hd
      rcases Nat.lt_trichotomy tid (execRequests qs rqs).calls.length with hlt | heq | hgt
      · rw [List.getElem?_append_left hlt] at hd
        exact absurd hrunning (returned_execRequests rqs d (List.mem_of_getElem? hd))
      · exact heq
      · rw [List.getElem?_eq_none (by simp; omega)] at hd
        cases hd
    subst htid
    rw [hmid.calls, List.getElem?_concat_length] at hd
    obtain rfl := Option.some.inj hd
    have hcalls : s.calls.set (execRequests qs rqs).calls.length d' =
        (execRequests qs rqs).calls ++ [d'] := by
      rw [hmid.calls, List.set_append_right _ _ (Nat.le_refl _), Nat.sub_self, List.set_cons_zero]
    have hrest : ∀ io, ∃ io',
        rq.exec qs (execRequests qs rqs).ctx io' = d'.finish qs ctx' io := by
      intro io
      rw [← advance_finish hadv io]
      exact hmid.rest _
    by_cases hresult : d'.result = none
    · exact ⟨rqs, .inr ⟨d', rq, hresult, hcalls, hrest⟩⟩
    · obtain ⟨io', hexec⟩ := hrest fun _ => .complete
      rw [Call.finish_of_result hresult] at hexec
      refine ⟨rqs ++ [(rq, io')], .inl ?_⟩
      rw [execRequests_concat]
      simp only [Machine.exec, hexec, hcalls]

/-- The states that the machine reaches without overlapping calls, once all calls have
    returned, are those that the sequential functions of the handlers compute, with the
    values and the buffers that they return. -/
theorem one_at_a_time {s : Machine} :
    (machine qs).Reachable OneAtATime s ∧ (∀ c ∈ s.calls, c.result ≠ none) ↔
      ∃ rqs, s = execRequests qs rqs := by
  constructor
  · rintro ⟨hreach, hreturned⟩
    obtain ⟨rqs, hs | ⟨c, rq, hresult, hmid⟩⟩ := midway_of_reachable hreach
    · exact ⟨rqs, hs⟩
    · exact absurd hresult (hreturned c (by rw [hmid.calls]; simp))
  · rintro ⟨rqs, rfl⟩
    refine ⟨?_, returned_execRequests rqs⟩
    induction rqs using List.reverseRecOn with
    | nil => exact .refl
    | append_singleton rqs rq ih =>
      rw [execRequests_concat]
      exact TransitionSystem.Run.trans ih (run_exec (returned_execRequests rqs) rq)

/-- The request of a call; a truncate to a negative size does not get past the check of its
    arguments. -/
def Op.request : Op → Option (Request × (Nat → PwriteResult))
  | .write req io => some (.write req, io)
  | .unlink path res => some (.unlink path res, fun _ => .complete)
  | .truncate path size res =>
    if 0 ≤ size then some (.truncate path size.toNat res, fun _ => .complete) else none

variable (qs) in
theorem Op.exec_eq (op : Op) (ctx : Context) :
    (op.exec ctx).1 = match op.request with
      | some rq => (rq.1.exec qs ctx rq.2).1
      | none => ctx := by
  cases op with
  | write req io => rfl
  | unlink path res => rfl
  | truncate path size res =>
    by_cases hsize : 0 ≤ size
    · obtain ⟨n, rfl⟩ := Int.eq_ofNat_of_zero_le hsize
      simp only [Op.request, if_pos hsize, Int.toNat_natCast]
      rfl
    · simp only [Op.request, if_neg hsize]
      exact congrArg Prod.fst (xmpTruncate_of_refused res (.inl (Int.not_le.mp hsize)))

variable (qs) in
/-- A sequential run of the calls that change the index is such a run. -/
theorem execOps_eq (ops : List Op) :
    execOps .empty ops = (execRequests qs (ops.filterMap Op.request)).ctx := by
  induction ops using List.reverseRecOn with
  | nil => rfl
  | append_singleton ops op ih =>
    rw [execOps, List.foldl_concat, ← execOps, ih, List.filterMap_append, Op.exec_eq qs op]
    cases hrequest : op.request with
    | none => simp only [List.filterMap_cons, hrequest, List.filterMap_nil, List.append_nil]
    | some rq =>
      simp only [List.filterMap_cons, hrequest, List.filterMap_nil, execRequests_concat]
      rfl

end

end DedupBlockFS
