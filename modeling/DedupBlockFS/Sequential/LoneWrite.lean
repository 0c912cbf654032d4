-- SUMMARY: A write that runs without company: what it leaves untouched until pass 3, and the three ways it ends.
import DedupBlockFS.Concurrent.Mapping

/-!
# A write without company

The sequential functions run the sections of the concurrent ones one after the other,
so the ledgers of their steps apply with nobody else around. Until pass 3 a write
only moves counters, slots and bytes that belong to no published object; what the
tables say is the same in every state it goes through (`Untouched`).
-/

namespace DedupBlockFS

open ByteFile
open Table (values)

section
variable [Sha512]

/-- Between two calls: nobody holds a reference but `file_to_master`, and all its
    objects are published. -/
structure Quiet (W : List UInt8 → Prop) (ctx : Context) : Prop where
  accounts : Accounts ctx.index ctx.heap ctx.nextBlockIndex (values ctx.index.fileToMaster) 0 0
  few : FewReferences ctx.heap (values ctx.index.fileToMaster)
  intact : Intact W ctx
  mapped : ∀ m ∈ values ctx.index.fileToMaster, ctx.index.Published m
  sized : Sized ctx.index

variable {W : List UInt8 → Prop} {ctx₀ ctx ctx' : Context} {c c' : Call} {req : WriteRequest}
  {pc pc' : WritePc} {plan : List PlanEntry} {io : PwriteResult}

namespace Quiet

theorem empty : Quiet W .empty where
  accounts := .empty
  few _ := by simp [Context.empty, Index.empty]
  intact m hm := by simp [Context.empty, Index.empty, Index.Published] at hm
  mapped m hm := by simp [Context.empty, Index.empty] at hm
  sized path b m hm := by cases hm

/-- The ledger of a call that owns nothing. -/
theorem ledger (hq : Quiet W ctx) (hholds : c.holds = 0) (hpending : c.pending = 0)
    (hslots : c.slots = 0) (hok : c.Ok ctx) (hblocks : c.BlocksIn W) : Ledger W 0 0 0 ctx c where
  accounts := by simpa only [hholds, hpending, hslots, add_zero] using hq.accounts
  few := by simpa only [hholds, add_zero] using hq.few
  intact := hq.intact
  ok := hok
  blocks := hblocks
  others := le_refl _

/-- A published object is mapped. -/
theorem mem_values (hq : Quiet W ctx) {m : Ptr} (hm : ctx.index.Published m) :
    m ∈ values ctx.index.fileToMaster :=
  hq.accounts.published_mem_refs hm

/-- Every slot ever used is free or holds a published block. -/
theorem slots (hq : Quiet W ctx) : (ctx.index.freeBlockList : Multiset Nat) +
    (values ctx.index.hashToMaster).map (fun m => (ctx.heap.cell m).masterBlockIndex) =
      Multiset.range ctx.nextBlockIndex := by
  have hslots := hq.accounts.balanced.slots
  simp only [poolOf, add_zero] at hslots
  exact hslots

theorem slot_lt_iff (hq : Quiet W ctx) {slot : Nat} : slot < ctx.nextBlockIndex ↔
    slot ∈ ctx.index.freeBlockList ∨
      ∃ m, ctx.index.Published m ∧ (ctx.heap.cell m).masterBlockIndex = slot := by
  rw [← Multiset.mem_range, ← hq.slots, Multiset.mem_add, Multiset.mem_coe, Multiset.mem_map]
  rfl

end Quiet

/-- The call owns nothing, and the tables fit together. -/
theorem Ledger.quiet (hl : Ledger W 0 0 0 ctx c) (hholds : c.holds = 0) (hpending : c.pending = 0)
    (hslots : c.slots = 0) (hmapped : ∀ m ∈ values ctx.index.fileToMaster, ctx.index.Published m)
    (hsized : Sized ctx.index) : Quiet W ctx where
  accounts := by simpa only [hholds, hpending, hslots, add_zero] using hl.accounts
  few := by simpa only [hholds, add_zero] using hl.few
  intact := hl.intact
  mapped := hmapped
  sized := hsized

/-- The tables say the same; allocated objects keep their hash, published ones also
    their slot and the block in it. -/
structure Untouched (ctx ctx' : Context) : Prop where
  fileToMaster : ctx'.index.fileToMaster = ctx.index.fileToMaster
  fileToSizes : ctx'.index.fileToSizes = ctx.index.fileToSizes
  lookupByHash : ∀ h, ctx'.index.lookupByHash h = ctx.index.lookupByHash h
  brk : ctx.heap.brk ≤ ctx'.heap.brk
  hash : ∀ m < ctx.heap.brk, (ctx'.heap.cell m).hash = (ctx.heap.cell m).hash
  slot : ∀ m, ctx.index.Published m →
    (ctx'.heap.cell m).masterBlockIndex = (ctx.heap.cell m).masterBlockIndex
  stored : ∀ m, ctx.index.Published m → ∀ b,
    Stored ctx.master (ctx.heap.cell m).masterBlockIndex b →
      Stored ctx'.master (ctx.heap.cell m).masterBlockIndex b

omit [Sha512] in
theorem Untouched.refl : Untouched ctx ctx :=
  ⟨rfl, rfl, fun _ => rfl, Nat.le_refl _, fun _ _ => rfl, fun _ _ => rfl, fun _ _ _ h => h⟩

omit [Sha512] in
theorem Untouched.published (h : Untouched ctx ctx') {m : Ptr} :
    ctx'.index.Published m ↔ ctx.index.Published m := by
  simp only [Index.Published, Table.mem_values]
  exact exists_congr fun x => iff_of_eq (congrArg (· = some m) (h.lookupByHash x))

/-- A step that changes no mapping, no size and publishes nothing. What is published
    stays so, because it is mapped. -/
theorem Untouched.step (h : Untouched ctx₀ ctx) (hq : Quiet W ctx₀) (hl : Ledger W 0 0 0 ctx c)
    (hs : CallStep W 0 0 0 ctx c ctx' c')
    (hfiles : ctx'.index.fileToMaster = ctx.index.fileToMaster)
    (hsizes : ctx'.index.fileToSizes = ctx.index.fileToSizes)
    (hshrink : ∀ x m, ctx'.index.lookupByHash x = some m → ctx.index.lookupByHash x = some m) :
    Untouched ctx₀ ctx' where
  fileToMaster := hfiles.trans h.fileToMaster
  fileToSizes := hsizes.trans h.fileToSizes
  lookupByHash x := by
    refine Option.ext fun m => ⟨fun hm => h.lookupByHash x ▸ hshrink x m hm, fun hm => ?_⟩
    have hold : ctx.index.lookupByHash x = some m := (h.lookupByHash x).trans hm
    have hpub := Table.mem_values_of_lookup hold
    have hmapped : m ∈ values ctx'.index.fileToMaster := by
      rw [hfiles, h.fileToMaster]
      exact hq.mem_values (Table.mem_values_of_lookup hm)
    have hpub' := hs.kept m (Multiset.mem_add.mpr (.inl hmapped)) hpub
    rw [← hl.accounts.keyed hold, ← hs.hash m (hl.published_lt hpub)]
    exact hs.ledger.accounts.lookup_hash hpub'
  brk := h.brk.trans hs.brk
  hash m hm := (hs.hash m (hm.trans_le h.brk)).trans (h.hash m hm)
  slot m hm := by
    have hpub := h.published.mpr hm
    exact (hs.slot m (hl.published_lt hpub) (hl.not_pending hpub)).trans (h.slot m hm)
  stored m hm b hb := by
    have hpub := h.published.mpr hm
    refine hs.stored _ (fun hout => ?_) b (h.stored m hm b hb)
    rw [← h.slot m hm] at hout
    exact hl.slot_not_out hpub hout

/-! ## Until pass 3 -/

/-- A write that has started from `ctx₀` and is alone. The hashes of its pending objects
    are not published. -/
structure Underway (W : List UInt8 → Prop) (ctx₀ ctx : Context) (req : WriteRequest) (pc : WritePc) :
    Prop where
  ledger : Ledger W 0 0 0 ctx (.write req pc)
  untouched : Untouched ctx₀ ctx
  fresh : ∀ m ∈ pc.pending, ctx.index.lookupByHash (ctx.heap.cell m).hash = none

/-- After pass 1 a write creates no more objects. -/
theorem advanceWrite_pending (h : advanceWrite ctx req io pc = some (ctx', pc'))
    (hstart : pc ≠ .start) : ∀ m ∈ pc'.pending, m ∈ pc.pending := by
  have hstore : ∀ (ctx : Context) plan slots,
      (storeSlots ctx plan slots).2.pending = missInfos plan := fun ctx plan slots =>
    slotChanged_missInfos (assignSlots_slotChanged ctx.heap plan slots)
  cases pc with
  | start => exact absurd rfl hstart
  | drain plan missCount =>
    simp only [advanceWrite] at h
    split at h
    · obtain ⟨-, rfl⟩ := Prod.ext_iff.mp (Option.some.inj h)
      exact fun _ hm => hm
    · obtain ⟨-, rfl⟩ := Prod.ext_iff.mp (Option.some.inj h)
      intro m hm
      rw [hstore] at hm
      exact hm
  | append plan taken remaining =>
    obtain ⟨-, rfl⟩ := Prod.ext_iff.mp (Option.some.inj h)
    intro m hm
    rw [hstore] at hm
    exact hm
  | flush plan todo =>
    simp only [advanceWrite] at h
    split at h
    · obtain ⟨-, rfl⟩ := Prod.ext_iff.mp (Option.some.inj h)
      exact fun _ hm => hm
    · obtain ⟨-, rfl⟩ := Prod.ext_iff.mp (Option.some.inj h)
      intro m hm
      dsimp only at hm
      split at hm <;> exact hm
  | rollbackHits plan rc | rollbackConcat plan slots rc =>
    obtain ⟨-, rfl⟩ := Prod.ext_iff.mp (Option.some.inj h)
    exact fun _ hm => hm
  | consolidate plan | concat slots | rollbackMisses plan rc =>
    obtain ⟨-, rfl⟩ := Prod.ext_iff.mp (Option.some.inj h)
    exact fun _ hm => absurd hm (Multiset.notMem_zero _)
  | done rc => cases h

namespace Underway

/-- All sections but pass 1 and pass 3. -/
theorem step (io : PwriteResult) (hq : Quiet W ctx₀) (h : Underway W ctx₀ ctx req pc)
    (hadv : advanceWrite ctx req io pc = some (ctx', pc')) (hstart : pc ≠ .start)
    (hcons : ∀ plan, pc ≠ .consolidate plan) : Underway W ctx₀ ctx' req pc' := by
  have hadv' : advance .mergeSort ctx io (.write req pc) = some (ctx', .write req pc') := by
    simp only [advance, hadv, Option.map_some]
  have hs := advance_callStep h.ledger hadv' fun ⟨_, heq⟩ => by
    cases heq
    exact absurd rfl hstart
  obtain ⟨plan, heq, -⟩ | ⟨hfiles, hsizes, hshrink⟩ := advanceWrite_tables hadv
  · exact absurd heq (hcons plan)
  have hunt := h.untouched.step hq h.ledger hs hfiles hsizes hshrink
  refine ⟨hs.ledger, hunt, fun m hm => ?_⟩
  have hold := advanceWrite_pending hadv hstart m hm
  have hlt : m < ctx.heap.brk := h.ledger.accounts.refsLt m (Multiset.mem_add.mpr (.inr
    (Multiset.mem_add.mpr (.inl (Multiset.mem_add.mpr (.inl hold))))))
  rw [hs.hash m hlt, hunt.lookupByHash, ← h.untouched.lookupByHash]
  exact h.fresh m hold

/-- The slots of all MISSes, from the free list or from the end of the master file. -/
theorem allocate {missCount : Nat} (hq : Quiet W ctx₀)
    (h : Underway W ctx₀ ctx req (.drain plan missCount)) :
    Underway W ctx₀
      (storeSlots (allocateBatchStorageFirst ctx missCount).1 plan
        (allocateBatchStorageFirst ctx missCount).2).1 req
      (storeSlots (allocateBatchStorageFirst ctx missCount).1 plan
        (allocateBatchStorageFirst ctx missCount).2).2 := by
  by_cases hpos : 0 < missCount - (ctx.drainFreeList missCount).2.length
  · simp only [allocateBatchStorageFirst, if_pos hpos]
    have hdrain := h.step .complete hq (if_pos hpos) (by simp) (by simp)
    exact hdrain.step .complete hq rfl (by simp) (by simp)
  · simp only [allocateBatchStorageFirst, if_neg hpos]
    exact h.step .complete hq (if_neg hpos) (by simp) (by simp)

/-- The flush goes through to pass 3, or ends in the rollback. -/
theorem flush (hq : Quiet W ctx₀) (io : Nat → PwriteResult) (k : Nat) (todo : List PlanEntry)
    (master : List UInt8)
    (h : Underway W ctx₀ { ctx with master := master } req (.flush plan todo)) :
    ((flushPlan master req.buf io k todo).2 = 0 ∧
      Underway W ctx₀ { ctx with master := (flushPlan master req.buf io k todo).1 } req
        (.consolidate plan)) ∨
    (IsErrno (flushPlan master req.buf io k todo).2 ∧
      Underway W ctx₀ { ctx with master := (flushPlan master req.buf io k todo).1 } req
        (.rollbackHits plan (flushPlan master req.buf io k todo).2)) := by
  fun_induction flushPlan master req.buf io k todo with
  | case1 =>
    rename_i hnone
    refine .inl ⟨rfl, h.step .complete hq ?_ (by simp) (by simp)⟩
    simp only [advanceWrite, hnone]
  | case2 =>
    rename_i k _ _ _ _ hsome _ hwrite ih
    refine ih (h.step (io k) hq (?_ : advanceWrite _ req (io k) _ = _) (by simp) (by simp))
    simp only [advanceWrite, hsome, hwrite, if_pos]
  | case3 =>
    rename_i k _ _ _ _ hsome _ _ hwrite hret
    refine .inr ⟨isErrno_flushError _,
      h.step (io k) hq (?_ : advanceWrite _ req (io k) _ = _) (by simp) (by simp)⟩
    simp only [advanceWrite, hsome, hwrite, if_neg hret]

/-- The rollback. -/
theorem rollback {rc : Int} (hq : Quiet W ctx₀) (h : Underway W ctx₀ ctx req (.rollbackHits plan rc)) :
    Underway W ctx₀ (rollbackAllocations ctx plan) req (.done rc) := by
  have hhits := h.step .complete hq rfl (by simp) (by simp)
  have hconcat := hhits.step .complete hq rfl (by simp) (by simp)
  exact hconcat.step .complete hq rfl (by simp) (by simp)

end Underway

/-! ## The whole call -/

/-- Together with the blocks of the request there are fewer than 2^32 references to any
    one block. -/
def RoomFor (ctx : Context) (req : WriteRequest) : Prop :=
  ∀ h, ((values ctx.index.fileToMaster).map fun m => (ctx.heap.cell m).hash).count h +
    ((Multiset.range req.numBlocks).map fun i => hash (req.block i)).count h < 2 ^ 32

/-- Some `pwrite` of the flush is incomplete. -/
def FlushFails (ctx : Context) (req : WriteRequest) (io : Nat → PwriteResult) : Prop :=
  ∃ j run, (planRuns (prepareWrite ctx req).2.1)[j]? = some run ∧
    (io j).ret (run.2 * blockSize) ≠ (run.2 * blockSize : Nat)

theorem Underway.start (hq : Quiet W ctx) (hroom : RoomFor ctx req) (hblocks : req.BlocksIn W)
    (haligned : ¬(req.numBlocks = 0 ∨ req.size % blockSize ≠ 0)) :
    Underway W ctx { ctx with heap :=
        (pass1 ctx.index ctx.heap req.buf req.startBlock req.numBlocks).heap } req
      (if 0 < (pass1 ctx.index ctx.heap req.buf req.startBlock req.numBlocks).missCount then
        .drain (pass1 ctx.index ctx.heap req.buf req.startBlock req.numBlocks).plan
          (pass1 ctx.index ctx.heap req.buf req.startBlock req.numBlocks).missCount
      else .consolidate (pass1 ctx.index ctx.heap req.buf req.startBlock req.numBlocks).plan) := by
  have hpass := hq.accounts.pass1_of_few req req.numBlocks hroom
  set p := pass1 ctx.index ctx.heap req.buf req.startBlock req.numBlocks with hp
  have hl : Ledger W 0 0 0 ctx (.write req .start) := hq.ledger rfl rfl rfl trivial hblocks
  rw [not_or, not_not] at haligned
  have hholds : (afterPass1 req p).holds = infos p.plan := by
    unfold afterPass1
    split <;> exact Call.holds_of_plan rfl rfl
  have hfew : FewReferences p.heap
      (values ctx.index.fileToMaster + ((afterPass1 req p).holds + 0)) := by
    intro x
    have hbase : (values ctx.index.fileToMaster).map (fun m => (p.heap.cell m).hash) =
        (values ctx.index.fileToMaster).map fun m => (ctx.heap.cell m).hash :=
      Multiset.map_congr rfl fun m hm => hpass.grown.hash m (hq.accounts.refsLt m hm)
    have hx := hroom x
    rwa [← hpass.length, ← hpass.plan.map_hash, ← hbase, ← Multiset.count_add, ← Multiset.map_add,
      ← hholds, ← add_zero (afterPass1 req p).holds] at hx
  have hs := callStep_pass1 hl (Nat.div_mul_cancel (Nat.dvd_of_mod_eq_zero haligned.2)).symm
    haligned.1 hfew
  have hpending : ∀ m ∈ (afterPass1 req p).pending, m ∈ missInfos p.plan := by
    unfold afterPass1
    split <;> exact fun m hm => hm
  refine ⟨hs.ledger, Untouched.refl.step hq hl hs rfl rfl fun _ _ h => h, fun m hm => ?_⟩
  obtain ⟨e, he, hk, rfl⟩ := mem_missInfos.mp (hpending m hm)
  show ctx.index.lookupByHash (p.heap.cell e.info).hash = none
  rw [hpass.plan.hashed e he]
  exact hpass.missFresh e he hk

/-- Passes 1 and 1.5. -/
theorem Underway.prepare (hq : Quiet W ctx) (hroom : RoomFor ctx req) (hblocks : req.BlocksIn W)
    (haligned : ¬(req.numBlocks = 0 ∨ req.size % blockSize ≠ 0)) :
    Underway W ctx (prepareWrite ctx req).1 req
      (if 0 < (prepareWrite ctx req).2.2 then
        .flush (prepareWrite ctx req).2.1 (prepareWrite ctx req).2.1
      else .consolidate (prepareWrite ctx req).2.1) := by
  have h := Underway.start hq hroom hblocks haligned
  by_cases hmiss : 0 < (pass1 ctx.index ctx.heap req.buf req.startBlock req.numBlocks).missCount
  · rw [if_pos hmiss] at h
    simp only [prepareWrite, if_pos hmiss]
    exact h.allocate hq
  · rw [if_neg hmiss] at h
    simp only [prepareWrite, if_neg hmiss]
    exact h

/-- Without a MISS there is nothing to flush. -/
theorem not_flushFails_of_hits (hq : Quiet W ctx) (hroom : RoomFor ctx req)
    (hmiss : ¬0 < (prepareWrite ctx req).2.2) (io : Nat → PwriteResult) :
    ¬FlushFails ctx req io := by
  have hpass := hq.accounts.pass1_of_few req req.numBlocks hroom
  have hcount : (prepareWrite ctx req).2.2 =
      (pass1 ctx.index ctx.heap req.buf req.startBlock req.numBlocks).missCount := by
    simp only [prepareWrite]
    split <;> rfl
  have hplan : (prepareWrite ctx req).2.1 =
      (pass1 ctx.index ctx.heap req.buf req.startBlock req.numBlocks).plan := by
    simp only [prepareWrite, if_neg (hcount ▸ hmiss)]
  have hits : ∀ e ∈ (prepareWrite ctx req).2.1, e.kind = .hit := by
    intro e he
    cases hk : e.kind with
    | hit => rfl
    | miss =>
      have hmem := mem_missInfos.mpr ⟨e, hplan ▸ he, hk, rfl⟩
      have hpos := Multiset.card_pos_iff_exists_mem.mpr ⟨_, hmem⟩
      rw [← hpass.missCount] at hpos
      exact absurd hpos (hcount ▸ hmiss)
  rintro ⟨j, run, hj, -⟩
  rw [planRuns_of_none (nextRun_of_hits hits)] at hj
  cases hj

/-- A write that is alone is refused without any effect, or fails in the flush and rolls
    back, or goes through pass 3. -/
theorem writeDedup_cases (hq : Quiet W ctx) (hroom : RoomFor ctx req) (hblocks : req.BlocksIn W)
    (io : Nat → PwriteResult) :
    ((req.numBlocks = 0 ∨ req.size % blockSize ≠ 0) ∧ (writeDedup ctx req io).1 = ctx ∧
      ((writeDedup ctx req io).2 = 0 ∧ req.size = 0 ∨
        (writeDedup ctx req io).2 = Errno.neg EOPNOTSUPP ∧ req.size ≠ 0)) ∨
    (FlushFails ctx req io ∧ IsErrno (writeDedup ctx req io).2 ∧
      (writeDedup ctx req io).1.nextBlockIndex = (prepareWrite ctx req).1.nextBlockIndex ∧
      ∃ rc, Underway W ctx (writeDedup ctx req io).1 req (.done rc)) ∨
    (¬FlushFails ctx req io ∧ ∃ ctx₁ plan, Underway W ctx ctx₁ req (.consolidate plan) ∧
      writeDedup ctx req io =
        ((ctx₁.closeSection (pass3Section ctx₁.openSection req.path req.startBlock req.numBlocks
            plan)).concatFreeList
          (pass3Section ctx₁.openSection req.path req.startBlock req.numBlocks plan).toRelease,
        cInt (req.numBlocks * blockSize))) := by
  by_cases hzero : req.size = 0
  · have hblocks : req.numBlocks = 0 := by
      rw [WriteRequest.numBlocks, hzero, Nat.zero_div]
    have heq : writeDedup ctx req io = (ctx, 0) := if_pos hzero
    rw [heq]
    exact .inl ⟨.inl hblocks, rfl, .inl ⟨rfl, hzero⟩⟩
  by_cases haligned : req.numBlocks = 0 ∨ req.size % blockSize ≠ 0
  · have heq : writeDedup ctx req io = (ctx, Errno.neg EOPNOTSUPP) := by
      rw [writeDedup, if_neg hzero, if_pos haligned]
    rw [heq]
    exact .inl ⟨haligned, rfl, .inr ⟨rfl, hzero⟩⟩
  right
  have h := Underway.prepare hq hroom hblocks haligned
  simp only [writeDedup, if_neg hzero, if_neg haligned]
  by_cases hmiss : 0 < (prepareWrite ctx req).2.2
  · rw [if_pos hmiss] at h
    simp only [if_pos hmiss]
    have hret := flushPlan_ret (prepareWrite ctx req).1.master req.buf io 0
      (prepareWrite ctx req).2.1
    simp only [Nat.zero_add] at hret
    rcases Underway.flush hq io 0 (prepareWrite ctx req).2.1 (prepareWrite ctx req).1.master h with
      ⟨hrc, hflushed⟩ | ⟨hrc, hfailed⟩
    · right
      rw [if_neg (not_lt_of_ge (le_of_eq hrc.symm))]
      refine ⟨?_, _, _, hflushed, rfl⟩
      rintro ⟨j, run, hj, hfail⟩
      rcases hret with ⟨-, hall⟩ | ⟨hneg, -⟩
      · exact hfail (hall j run hj)
      · exact absurd hneg.2 (not_lt_of_ge (le_of_eq hrc.symm))
    · left
      rw [if_pos hrc.2]
      refine ⟨?_, hrc, (rollbackMisses_released _ _).next, _, hfailed.rollback hq⟩
      rcases hret with ⟨hzero, -⟩ | ⟨-, hfail⟩
      · exact absurd hrc.2 (not_lt_of_ge (le_of_eq hzero.symm))
      · exact hfail
  · rw [if_neg hmiss] at h
    simp only [if_neg hmiss]
    exact .inr ⟨not_flushFails_of_hits hq hroom hmiss io, _, _, h, rfl⟩

end

end DedupBlockFS
