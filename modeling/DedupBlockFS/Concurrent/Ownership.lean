-- SUMMARY: What the calls in flight own, the invariant of the whole machine, and the interface of one step of one call.
import Mathlib.Algebra.Order.BigOperators.Group.List
import Mathlib.Data.Multiset.OrderedMonoid
import DedupBlockFS.Concurrent.Machine
import DedupBlockFS.Flush
import DedupBlockFS.Sections

/-!
# Ownership

A call in flight holds references through its plan, owns the pending objects of its
MISSes, and has slots out: those allocated to its MISSes and those it has taken from
released objects and not yet handed to the free list. `Ledger` balances the shared
state against one call and the sum of all others; every section of every call is
then verified once, against arbitrary others (`CallStep`).
-/

namespace DedupBlockFS

open ByteFile
open Table (values)

/-! ## What a call owns -/

namespace WritePc

/-- The objects the call has created and not yet published, given up or freed. -/
def pending : WritePc → Multiset Ptr
  | .drain plan _ | .append plan _ _ | .flush plan _ | .consolidate plan | .rollbackHits plan _
  | .rollbackConcat plan _ _ | .rollbackMisses plan _ => missInfos plan
  | .start | .concat _ | .done _ => 0

/-- The references that HIT entries hold until consolidation or rollback. -/
def hits : WritePc → Multiset Ptr
  | .drain plan _ | .append plan _ _ | .flush plan _ | .consolidate plan
  | .rollbackHits plan _ => hitInfos plan
  | .start | .concat _ | .rollbackConcat _ _ _ | .rollbackMisses _ _ | .done _ => 0

/-- The slots allocated to MISS entries that are not yet published, discarded or
    rolled back. -/
def allocated : WritePc → Multiset Nat
  | .append _ taken _ => taken
  | .flush plan _ | .consolidate plan | .rollbackHits plan _ | .rollbackConcat plan _ _
  | .rollbackMisses plan _ => missSlots plan
  | .start | .drain _ _ | .concat _ | .done _ => 0

/-- The slots in local release lists. -/
def released : WritePc → Multiset Nat
  | .concat slots | .rollbackConcat _ slots _ => slots
  | .start | .drain _ _ | .append _ _ _ | .flush _ _ | .consolidate _ | .rollbackHits _ _
  | .rollbackMisses _ _ | .done _ => 0

end WritePc

namespace Call

def pending : Call → Multiset Ptr
  | .write _ pc => pc.pending
  | _ => 0

def hits : Call → Multiset Ptr
  | .write _ pc => pc.hits
  | _ => 0

def allocated : Call → Multiset Nat
  | .write _ pc => pc.allocated
  | _ => 0

def released : Call → Multiset Nat
  | .write _ pc => pc.released
  | .remove _ _ _ (.concat slots) => slots
  | .unlink _ _ (.concat slots) => slots
  | .truncate _ _ _ (.concat slots) => slots
  | _ => 0

/-- All references of the call. -/
def holds (c : Call) : Multiset Ptr := c.pending + c.hits

/-- All slots the call has out. -/
def slots (c : Call) : Multiset Nat := c.allocated + c.released

end Call

namespace Machine

def pending (s : Machine) : Multiset Ptr := (s.calls.map Call.pending).sum
def hits (s : Machine) : Multiset Ptr := (s.calls.map Call.hits).sum
def allocated (s : Machine) : Multiset Nat := (s.calls.map Call.allocated).sum
def released (s : Machine) : Multiset Nat := (s.calls.map Call.released).sum
def holds (s : Machine) : Multiset Ptr := (s.calls.map Call.holds).sum
def slots (s : Machine) : Multiset Nat := (s.calls.map Call.slots).sum

theorem holds_eq (s : Machine) : s.holds = s.pending + s.hits := by
  exact List.sum_map_add

theorem slots_eq (s : Machine) : s.slots = s.allocated + s.released := by
  exact List.sum_map_add

end Machine

/-! ## What is true of a call -/

/-- The MISSes of the plan and their objects agree on the slots. -/
def Placed (hp : Heap) (plan : List PlanEntry) : Prop :=
  ∀ e ∈ plan, e.kind = .miss → (hp.cell e.info).masterBlockIndex = e.masterBlk

section
variable [Sha512]

/-- A plan in flight. -/
structure InFlight (ctx : Context) (req : WriteRequest) (plan : List PlanEntry) : Prop where
  ok : PlanOk ctx.index ctx.heap req plan
  length : plan.length = req.numBlocks
  aligned : req.size = req.numBlocks * blockSize
  nonempty : req.numBlocks ≠ 0

/-- What a `write_dedup` relies on before its next section. -/
def WritePc.Ok (ctx : Context) (req : WriteRequest) : WritePc → Prop
  | .drain plan missCount => InFlight ctx req plan ∧ missCount = (missInfos plan).card
  | .append plan taken remaining =>
    InFlight ctx req plan ∧ taken.length + remaining = (missInfos plan).card
  | .flush plan todo =>
    InFlight ctx req plan ∧ Placed ctx.heap plan ∧
      ∃ k, todo = plan.drop k ∧ Flushed ctx.master req plan k
  | .consolidate plan =>
    InFlight ctx req plan ∧ Placed ctx.heap plan ∧ Flushed ctx.master req plan plan.length
  | .start | .concat _ | .rollbackHits _ _ | .rollbackConcat _ _ _ | .rollbackMisses _ _
  | .done _ => True

def Call.Ok (ctx : Context) : Call → Prop
  | .write req pc => pc.Ok ctx req
  | _ => True

/-- All blocks of the request are among `W`. -/
def WriteRequest.BlocksIn (W : List UInt8 → Prop) (req : WriteRequest) : Prop :=
  ∀ i < req.numBlocks, W (req.block i)

/-- Among blocks of zeros alone there is no collision. -/
def IsZeroBlock (b : List UInt8) : Prop := b = List.replicate blockSize 0

omit [Sha512] in
theorem blocksIn_zeros {path : CString} {startBlock n : Nat} :
    (WriteRequest.zeros path startBlock n).BlocksIn IsZeroBlock := by
  intro i hi
  have hnum : (WriteRequest.zeros path startBlock n).numBlocks = n :=
    Nat.mul_div_cancel n (by decide)
  exact WriteRequest.block_fill (hnum ▸ hi)

/-- If the call is a write, its blocks are among `W`. -/
def Call.BlocksIn (W : List UInt8 → Prop) : Call → Prop
  | .write req _ => req.BlocksIn W
  | _ => True

/-- The slot of every published object holds a block among `W` with the hash of the
    object. -/
def Intact (W : List UInt8 → Prop) (ctx : Context) : Prop :=
  ∀ m, ctx.index.Published m → ∃ b, W b ∧ hash b = (ctx.heap.cell m).hash ∧
    Stored ctx.master (ctx.heap.cell m).masterBlockIndex b

end

/-! ## One step of one call -/

section
variable [Sha512]

/-- The shared state and one call are consistent, where all other calls together hold
    the references `H`, own the pending objects `Pd` and have the slots `O` out. -/
structure Ledger (W : List UInt8 → Prop) (H Pd : Multiset Ptr) (O : Multiset Nat) (ctx : Context)
    (c : Call) : Prop where
  accounts : Accounts ctx.index ctx.heap ctx.nextBlockIndex
    (values ctx.index.fileToMaster + (c.holds + H)) (c.pending + Pd) (c.slots + O)
  few : FewReferences ctx.heap (values ctx.index.fileToMaster + (c.holds + H))
  intact : Intact W ctx
  ok : c.Ok ctx
  blocks : c.BlocksIn W
  others : Pd ≤ H

/-- A step of one call: the books stay balanced against the same others; allocated
    objects keep their hash, and their slot unless they are pending in this call; slots
    the call does not have out keep their block; a published object that somebody refers
    to stays published. -/
structure CallStep (W : List UInt8 → Prop) (H Pd : Multiset Ptr) (O : Multiset Nat)
    (ctx : Context) (c : Call) (ctx' : Context) (c' : Call) : Prop where
  ledger : Ledger W H Pd O ctx' c'
  brk : ctx.heap.brk ≤ ctx'.heap.brk
  hash : ∀ m < ctx.heap.brk, (ctx'.heap.cell m).hash = (ctx.heap.cell m).hash
  slot : ∀ m < ctx.heap.brk, m ∉ c.pending →
    (ctx'.heap.cell m).masterBlockIndex = (ctx.heap.cell m).masterBlockIndex
  stored : ∀ s ∉ c.slots, ∀ b, Stored ctx.master s b → Stored ctx'.master s b
  kept : ∀ m ∈ values ctx'.index.fileToMaster + (c'.holds + H),
    ctx.index.Published m → ctx'.index.Published m

variable {W : List UInt8 → Prop} {H Pd : Multiset Ptr} {O : Multiset Nat} {ctx ctx' : Context}
  {c c' : Call}

namespace Ledger

/-- A published object is not pending in the call. -/
theorem not_pending (hl : Ledger W H Pd O ctx c) {m : Ptr} (hm : ctx.index.Published m) :
    m ∉ c.pending := fun hp =>
  hl.accounts.balanced.notPublished m (Multiset.mem_add.mpr (.inl hp)) hm

theorem published_lt (hl : Ledger W H Pd O ctx c) {m : Ptr} (hm : ctx.index.Published m) :
    m < ctx.heap.brk :=
  hl.accounts.refsLt m (hl.accounts.published_mem_refs hm)

/-- The slot of a published object is not out. -/
theorem slot_not_out (hl : Ledger W H Pd O ctx c) {m : Ptr} (hm : ctx.index.Published m) :
    (ctx.heap.cell m).masterBlockIndex ∉ c.slots := fun hs =>
  hl.accounts.slot_not_out hm (Multiset.mem_add.mpr (.inl hs))

end Ledger

/-- The interface of a step that publishes nothing: what is left to show. -/
theorem CallStep.of_frame (hl : Ledger W H Pd O ctx c)
    (haccounts : Accounts ctx'.index ctx'.heap ctx'.nextBlockIndex
      (values ctx'.index.fileToMaster + (c'.holds + H)) (c'.pending + Pd) (c'.slots + O))
    (hfew : FewReferences ctx'.heap (values ctx'.index.fileToMaster + (c'.holds + H)))
    (hok : c'.Ok ctx') (hblocks : c'.BlocksIn W) (hbrk : ctx.heap.brk ≤ ctx'.heap.brk)
    (hhash : ∀ m < ctx.heap.brk, (ctx'.heap.cell m).hash = (ctx.heap.cell m).hash)
    (hslot : ∀ m < ctx.heap.brk, m ∉ c.pending →
      (ctx'.heap.cell m).masterBlockIndex = (ctx.heap.cell m).masterBlockIndex)
    (hstored : ∀ s ∉ c.slots, ∀ b, Stored ctx.master s b → Stored ctx'.master s b)
    (hkept : ∀ m ∈ values ctx'.index.fileToMaster + (c'.holds + H),
      ctx.index.Published m → ctx'.index.Published m)
    (hpub : ∀ m, ctx'.index.Published m → ctx.index.Published m) :
    CallStep W H Pd O ctx c ctx' c' where
  ledger :=
    { accounts := haccounts
      few := hfew
      intact := by
        intro m hm
        have hold := hpub m hm
        obtain ⟨b, hW, hb, hstore⟩ := hl.intact m hold
        have hlt := hl.published_lt hold
        refine ⟨b, hW, hb.trans (hhash m hlt).symm, ?_⟩
        rw [hslot m hlt (hl.not_pending hold)]
        exact hstored _ (hl.slot_not_out hold) b hstore
      ok := hok
      blocks := hblocks
      others := hl.others }
  brk := hbrk
  hash := hhash
  slot := hslot
  stored := hstored
  kept := hkept

end

end DedupBlockFS
