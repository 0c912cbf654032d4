-- SUMMARY: The sections of `write_dedup`, each verified against arbitrary other calls.
import DedupBlockFS.Concurrent.Ownership
import DedupBlockFS.Consolidation

/-!
# Steps of a write

One lemma for each section of `write_dedup`, all of the same shape: under the ledger
of the call, the section is a `CallStep`.
-/

namespace DedupBlockFS

open ByteFile
open Table (values)

variable [Sha512]
variable {W : List UInt8 → Prop} {H Pd : Multiset Ptr} {O : Multiset Nat} {ctx ctx' : Context}
  {c c' : Call} {req : WriteRequest} {pc : WritePc} {plan : List PlanEntry}

/-! ## Steps that leave the tables alone -/

/-- The call moves on and the shared state stays as it is. -/
theorem CallStep.of_same (hl : Ledger W H Pd O ctx c) (hpending : c'.pending = c.pending)
    (hholds : c'.holds = c.holds) (hslots : c'.slots = c.slots) (hok : c'.Ok ctx)
    (hblocks : c'.BlocksIn W) : CallStep W H Pd O ctx c ctx c' := by
  refine .of_frame hl ?_ ?_ hok hblocks (Nat.le_refl _) (fun _ _ => rfl) (fun _ _ _ => rfl)
    (fun _ _ _ h => h) (fun _ _ h => h) (fun _ h => h)
  · rw [hpending, hholds, hslots]
    exact hl.accounts
  · rw [hholds]
    exact hl.few

/-- Slots move between the free list, the call and the end of the master file. -/
theorem CallStep.of_moveSlots (hl : Ledger W H Pd O ctx c) {free : List Nat} {next : Nat}
    (hctx : ctx' = { ctx with index := { ctx.index with freeBlockList := free }
                              nextBlockIndex := next })
    (hpending : c'.pending = c.pending) (hholds : c'.holds = c.holds)
    (hmove : (free : Multiset Nat) + c'.slots + Multiset.range ctx.nextBlockIndex =
      (ctx.index.freeBlockList : Multiset Nat) + c.slots + Multiset.range next)
    (hok : c'.Ok ctx') (hblocks : c'.BlocksIn W) : CallStep W H Pd O ctx c ctx' c' := by
  subst hctx
  refine .of_frame hl ?_ ?_ hok hblocks (Nat.le_refl _) (fun _ _ => rfl) (fun _ _ _ => rfl)
    (fun _ _ _ h => h) (fun _ _ h => h) (fun _ h => h)
  · rw [hpending, hholds]
    refine hl.accounts.moveSlots ?_
    rw [← add_assoc, add_right_comm, hmove]
    abel
  · rw [hholds]
    exact hl.few

/-- Released slots go to the free list. -/
theorem callStep_concat (hl : Ledger W H Pd O ctx c) {slots : List Nat}
    (hctx : ctx' = ctx.concatFreeList slots) (hpending : c'.pending = c.pending)
    (hholds : c'.holds = c.holds) (hslots : c'.slots + slots = c.slots) (hok : c'.Ok ctx')
    (hblocks : c'.BlocksIn W) : CallStep W H Pd O ctx c ctx' c' := by
  refine .of_moveSlots hl hctx hpending hholds ?_ hok hblocks
  rw [← hslots, ← Multiset.coe_add]
  abel

/-- Only `file_to_sizes` changes. -/
theorem CallStep.of_sizes (hl : Ledger W H Pd O ctx c) {sizes : Table CString Nat}
    (hctx : ctx' = { ctx with index := { ctx.index with fileToSizes := sizes } })
    (hpending : c'.pending = c.pending) (hholds : c'.holds = c.holds) (hslots : c'.slots = c.slots)
    (hok : c'.Ok ctx') (hblocks : c'.BlocksIn W) : CallStep W H Pd O ctx c ctx' c' := by
  subst hctx
  refine .of_frame hl ?_ ?_ hok hblocks (Nat.le_refl _) (fun _ _ => rfl) (fun _ _ _ => rfl)
    (fun _ _ _ h => h) (fun _ _ h => h) (fun _ h => h)
  · rw [hpending, hholds, hslots]
    exact hl.accounts.congr_index rfl rfl
  · rw [hholds]
    exact hl.few

omit [Sha512] in
/-- The references of a plan in flight. -/
theorem Call.holds_of_plan (hpending : pc.pending = missInfos plan) (hhits : pc.hits = hitInfos plan) :
    (Call.write req pc).holds = infos plan := by
  rw [infos_eq, ← hpending, ← hhits]
  rfl

/-! ## Pass 1 -/

/-- The call after pass 1. -/
def afterPass1 (req : WriteRequest) (p : Pass1) : Call :=
  .write req (if 0 < p.missCount then .drain p.plan p.missCount else .consolidate p.plan)

theorem callStep_pass1 (hl : Ledger W H Pd O ctx (.write req .start))
    (haligned : req.size = req.numBlocks * blockSize) (hnonempty : req.numBlocks ≠ 0)
    (hfew : FewReferences (pass1 ctx.index ctx.heap req.buf req.startBlock
        req.numBlocks).heap
      (values ctx.index.fileToMaster + ((afterPass1 req (pass1 ctx.index ctx.heap
        req.buf req.startBlock req.numBlocks)).holds + H))) :
    CallStep W H Pd O ctx (.write req .start)
      { ctx with heap := (pass1 ctx.index ctx.heap req.buf req.startBlock
          req.numBlocks).heap }
      (afterPass1 req (pass1 ctx.index ctx.heap req.buf req.startBlock
        req.numBlocks)) := by
  set p := pass1 ctx.index ctx.heap req.buf req.startBlock req.numBlocks with hp
  have hholds : (afterPass1 req p).holds = infos p.plan := by
    unfold afterPass1
    split <;> exact Call.holds_of_plan rfl rfl
  have hpending : (afterPass1 req p).pending = missInfos p.plan := by
    unfold afterPass1
    split <;> rfl
  have haccounts : Accounts ctx.index ctx.heap ctx.nextBlockIndex
      (values ctx.index.fileToMaster + H) Pd O :=
    hl.accounts.congr (congrArg _ (zero_add H)) (zero_add Pd) (zero_add O)
  have hpass : Pass1Ok ctx.index ctx.heap req ctx.nextBlockIndex
      (values ctx.index.fileToMaster + H) Pd O req.numBlocks p := by
    refine haccounts.pass1 req.numBlocks fun m => ?_
    have hlt := hfew.count_lt m
    rwa [hholds, add_left_comm] at hlt
  have hflight : InFlight { ctx with heap := p.heap } req p.plan :=
    ⟨hpass.plan, hpass.length, haligned, hnonempty⟩
  have hnomiss : ¬0 < p.missCount → ∀ e ∈ p.plan, e.kind ≠ .miss := by
    intro hzero e he hk
    have hmem := mem_missInfos.mpr ⟨e, he, hk, rfl⟩
    rw [hpass.missCount, Multiset.card_pos, not_not] at hzero
    rw [hzero] at hmem
    exact Multiset.notMem_zero _ hmem
  have hslots : (afterPass1 req p).slots = 0 := by
    unfold afterPass1
    split
    · rfl
    · rename_i hzero
      have hnone : missSlots p.plan = 0 := by
        rw [Multiset.eq_zero_iff_forall_notMem]
        intro s hs
        obtain ⟨e, he, hk, -⟩ := mem_missSlots.mp hs
        exact hnomiss hzero e he hk
      exact (add_zero _).trans hnone
  have hok : (afterPass1 req p).Ok { ctx with heap := p.heap } := by
    unfold afterPass1
    split
    · exact ⟨hflight, hpass.missCount⟩
    · rename_i hzero
      exact ⟨hflight, fun e he hk => absurd hk (hnomiss hzero e he),
        fun i e _ he hk => absurd hk (hnomiss hzero e (List.mem_of_getElem? he))⟩
  have hblocks : (afterPass1 req p).BlocksIn W := hl.blocks
  refine .of_frame hl ?_ hfew hok hblocks hpass.grown.brk hpass.grown.hash
    (fun m hm _ => hpass.grown.slot m hm) (fun _ _ _ h => h) (fun _ _ h => h) (fun _ h => h)
  rw [hholds, hpending, hslots, zero_add]
  exact hpass.accounts.congr (add_left_comm _ _ _) rfl rfl

/-! ## Allocation -/

/-- Store the slots, whichever place they came from. -/
theorem callStep_storeSlots (hl : Ledger W H Pd O ctx (.write req pc))
    (hpending : pc.pending = missInfos plan) (hhits : pc.hits = hitInfos plan)
    (hflight : InFlight ctx req plan) {free slots : List Nat} {next : Nat}
    (hctx : ctx' = { ctx with index := { ctx.index with freeBlockList := free }
                              nextBlockIndex := next })
    (hlen : slots.length = (missInfos plan).card)
    (hmove : (free : Multiset Nat) + slots + Multiset.range ctx.nextBlockIndex =
      (ctx.index.freeBlockList : Multiset Nat) + (Call.write req pc).slots + Multiset.range next) :
    CallStep W H Pd O ctx (.write req pc) (storeSlots ctx' plan slots).1
      (.write req (storeSlots ctx' plan slots).2) := by
  subst hctx
  have hholds : (Call.write req pc).holds = infos plan := Call.holds_of_plan hpending hhits
  have hpend : (Call.write req pc).pending = missInfos plan := hpending
  have haccounts := hl.accounts
  rw [hpend, hholds] at haccounts
  have hmoved : Accounts { ctx.index with freeBlockList := free } ctx.heap next
      (values ctx.index.fileToMaster + (infos plan + H)) (missInfos plan + Pd) (slots + O) := by
    refine haccounts.moveSlots ?_
    rw [← add_assoc, add_right_comm, hmove]
    abel
  have hassigned := hmoved.assignSlots plan slots
    (fun m hm => Multiset.mem_add.mpr (.inl hm))
    (Multiset.nodup_of_le (Multiset.le_add_right _ _) hmoved.balanced.pendingNodup) hlen
  have hentries := assignSlots_slotChanged ctx.heap plan slots
  set r := assignSlots ctx.heap plan slots with hr
  have hholds' : (Call.write req (.flush r.2 r.2)).holds = infos plan :=
    (Call.holds_of_plan rfl rfl).trans (slotChanged_infos hentries)
  have hpend' : (Call.write req (.flush r.2 r.2)).pending = missInfos plan :=
    slotChanged_missInfos hentries
  have hslots' : (Call.write req (.flush r.2 r.2)).slots = slots :=
    (add_zero _).trans hassigned.missSlots
  have hframed : PlanOk { ctx.index with freeBlockList := free } r.1 req plan :=
    hflight.ok.frame (fun e _ => hassigned.hashEq e.info) fun _ _ h => h
  have hplan := hframed.slotChanged hentries
  have hblocks : (Call.write req (.flush r.2 r.2)).BlocksIn W := hl.blocks
  refine .of_frame hl ?_ ?_ ?_ hblocks hassigned.brkEq.ge (fun m _ => hassigned.hashEq m)
    (fun m _ hm => hassigned.slotEq m (hpend ▸ hm)) (fun _ _ _ h => h) (fun _ _ h => h)
    (fun _ h => h)
  · show Accounts _ r.1 next (_ + ((Call.write req (.flush r.2 r.2)).holds + H))
      ((Call.write req (.flush r.2 r.2)).pending + Pd)
      ((Call.write req (.flush r.2 r.2)).slots + O)
    rw [hholds', hpend', hslots']
    exact hassigned.accounts
  · refine hl.few.mono (le_of_eq ?_) fun m _ => hassigned.hashEq m
    show _ + ((Call.write req (.flush r.2 r.2)).holds + H) = _
    rw [hholds', hholds]
    rfl
  · exact ⟨⟨hplan, hentries.length_eq.symm.trans hflight.length, hflight.aligned,
      hflight.nonempty⟩,
      hassigned.placed, 0, rfl, fun i e hi => absurd hi (Nat.not_lt_zero i)⟩

theorem callStep_drain {missCount : Nat} (hl : Ledger W H Pd O ctx (.write req (.drain plan missCount)))
    (io : PwriteResult)
    (h : advanceWrite ctx req io (.drain plan missCount) = some (ctx', pc)) :
    CallStep W H Pd O ctx (.write req (.drain plan missCount)) ctx' (.write req pc) := by
  obtain ⟨hflight, hcount⟩ := hl.ok
  have hsplit : (ctx.index.freeBlockList : Multiset Nat) =
      (ctx.index.freeBlockList.drop missCount : Multiset Nat) +
        (ctx.index.freeBlockList.take missCount : Multiset Nat) := by
    rw [add_comm, Multiset.coe_add, List.take_append_drop]
  have hslots : (Call.write req (.drain plan missCount)).slots = 0 := rfl
  have htake : (ctx.drainFreeList missCount).2 = ctx.index.freeBlockList.take missCount := rfl
  simp only [advanceWrite] at h
  split at h
  · simp only [Option.some.injEq, Prod.mk.injEq] at h
    obtain ⟨rfl, rfl⟩ := h
    have hblocks : (Call.write req (.append plan (ctx.drainFreeList missCount).2
        (missCount - (ctx.drainFreeList missCount).2.length))).BlocksIn W := hl.blocks
    have hslots' : (Call.write req (.append plan (ctx.drainFreeList missCount).2
        (missCount - (ctx.drainFreeList missCount).2.length))).slots =
          (ctx.index.freeBlockList.take missCount : Multiset Nat) := add_zero _
    refine .of_moveSlots hl rfl rfl rfl ?_ ⟨⟨hflight.ok.frame (fun _ _ => rfl) fun _ _ h => h,
      hflight.length, hflight.aligned, hflight.nonempty⟩, ?_⟩ hblocks
    · rw [hslots, hslots', add_zero, hsplit]
    · rw [← hcount]
      omega
  · obtain ⟨rfl, rfl⟩ := Prod.ext_iff.mp (Option.some.inj h)
    refine callStep_storeSlots hl rfl rfl hflight rfl ?_ ?_
    · rw [htake, List.length_take] at *
      omega
    · rw [hslots, add_zero, htake, ← hsplit]

omit [Sha512] in
/-- The slots below `n + k` are those below `n` and the `k` slots reserved at `n`. -/
theorem range_add_range' (n k : Nat) :
    Multiset.range (n + k) = Multiset.range n + (List.range' n k : Multiset Nat) := by
  rw [← Multiset.coe_range, ← Multiset.coe_range, Multiset.coe_add, List.range_eq_range',
    List.range_eq_range', ← List.range'_append_1, Nat.zero_add]

theorem callStep_append {taken : List Nat} {remaining : Nat}
    (hl : Ledger W H Pd O ctx (.write req (.append plan taken remaining))) :
    CallStep W H Pd O ctx (.write req (.append plan taken remaining))
      (storeSlots (ctx.reserveAppend remaining).1 plan (taken ++ (ctx.reserveAppend remaining).2)).1
      (.write req (storeSlots (ctx.reserveAppend remaining).1 plan
        (taken ++ (ctx.reserveAppend remaining).2)).2) := by
  obtain ⟨hflight, hcount⟩ := hl.ok
  have hslots : (Call.write req (.append plan taken remaining)).slots = taken := add_zero _
  have happended : (ctx.reserveAppend remaining).2 =
    List.range' ctx.nextBlockIndex remaining := rfl
  refine callStep_storeSlots hl rfl rfl hflight rfl ?_ ?_
  · rw [happended, List.length_append, List.length_range', hcount]
  · rw [hslots, happended, range_add_range', ← Multiset.coe_add]
    abel

/-! ## Flush -/

/-- The slots of the plan are distinct. -/
theorem Ledger.missSlots_nodup (hl : Ledger W H Pd O ctx (.write req pc))
    (hslots : pc.allocated = missSlots plan) : (missSlots plan).Nodup := by
  refine Multiset.nodup_of_le ?_ hl.accounts.out_nodup
  rw [← hslots]
  exact (Multiset.le_add_right _ _).trans (Multiset.le_add_right _ _)

theorem callStep_flush {todo rest : List PlanEntry} {first : PlanEntry} {runLen : Nat}
    (hl : Ledger W H Pd O ctx (.write req (.flush plan todo)))
    (hrun : nextRun todo = some (first, runLen, rest)) (io : PwriteResult) :
    CallStep W H Pd O ctx (.write req (.flush plan todo))
      { ctx with master := (writeRun ctx.master req.buf first runLen io).1 }
      (.write req (if (writeRun ctx.master req.buf first runLen io).2 = (runLen * blockSize : Nat)
        then .flush plan rest else .rollbackHits plan (flushError io))) := by
  obtain ⟨hflight, hplaced, k, rfl, hflushed⟩ := hl.ok
  set w := writeRun ctx.master req.buf first runLen io with hw
  set pc' : WritePc := if w.2 = (runLen * blockSize : Nat) then .flush plan rest
    else .rollbackHits plan (flushError io) with hpc'
  have hpending : (Call.write req pc').pending = missInfos plan := by
    rw [hpc']
    split <;> rfl
  have hholds : (Call.write req pc').holds = (Call.write req (.flush plan (plan.drop k))).holds := by
    rw [hpc']
    split <;> rfl
  have hslots : (Call.write req pc').slots = (Call.write req (.flush plan (plan.drop k))).slots := by
    rw [hpc']
    split <;> rfl
  have hok : (Call.write req pc').Ok { ctx with master := w.1 } := by
    rw [hpc']
    split
    · rename_i hret
      obtain ⟨k', hrest, hflushed'⟩ := hflushed.writeRun hflight.ok hflight.length hflight.aligned
        (hl.missSlots_nodup rfl) hrun hret
      exact ⟨⟨hflight.ok, hflight.length, hflight.aligned, hflight.nonempty⟩, hplaced, k', hrest,
        hflushed'⟩
    · trivial
  have hblocks : (Call.write req pc').BlocksIn W := hl.blocks
  refine .of_frame hl ?_ ?_ hok hblocks (Nat.le_refl _) (fun _ _ => rfl) (fun _ _ _ => rfl)
    (fun s hs b hb => ?_) (fun _ _ h => h) (fun _ h => h)
  · rw [hpending, hholds, hslots]
    exact hl.accounts
  · rw [hholds]
    exact hl.few
  · exact writeRun_frame hrun (fun hmem => hs (Multiset.mem_add.mpr (.inl hmem))) hb

/-! ## Sections under the write lock -/

theorem Ledger.pending_le (hl : Ledger W H Pd O ctx c) : c.pending + Pd ≤ c.holds + H :=
  add_le_add (Multiset.le_add_right _ _) hl.others

/-- A section that only gives references back. -/
theorem CallStep.of_dropped (hl : Ledger W H Pd O ctx c) {st : WriteSection}
    (hd : Dropped ctx.nextBlockIndex (c.pending + Pd) (c.slots + O) ctx.openSection
      (values ctx.index.fileToMaster + (c.holds + H)) st
      (values st.index.fileToMaster + (c'.holds + H)))
    (hpending : c'.pending = c.pending) (hslots : c'.slots = st.toRelease + c.slots)
    (hok : c'.Ok (ctx.closeSection st)) (hblocks : c'.BlocksIn W) :
    CallStep W H Pd O ctx c (ctx.closeSection st) c' := by
  refine .of_frame hl ?_ (hl.few.mono hd.refsLe fun m _ => hd.hashEq m) hok hblocks hd.brkEq.ge
    (fun m _ => hd.hashEq m) (fun m _ _ => hd.slotEq m) (fun _ _ _ h => h) hd.kept
    (fun m hm => ?_)
  · rw [hpending, hslots, add_assoc]
    exact hd.accounts
  · obtain ⟨x, hx⟩ := Table.mem_values.mp hm
    exact Table.mem_values_of_lookup (hd.lookupOf hx)

/-- The section of a batch removal. -/
theorem callStep_remove (hl : Ledger W H Pd O ctx c) (path : CString) (startBlock endBlock : Nat)
    (hpending : c'.pending = c.pending) (hholds : c'.holds = c.holds)
    (hslots : c'.slots = (removeBlocksSection ctx.openSection path startBlock endBlock).toRelease +
      c.slots)
    (hok : c'.Ok (ctx.closeSection (removeBlocksSection ctx.openSection path startBlock endBlock)))
    (hblocks : c'.BlocksIn W) :
    CallStep W H Pd O ctx c
      (ctx.closeSection (removeBlocksSection ctx.openSection path startBlock endBlock)) c' := by
  have hopen : Accounts ctx.openSection.index ctx.openSection.heap ctx.nextBlockIndex
      (values ctx.openSection.index.fileToMaster + (c.holds + H)) (c.pending + Pd)
      (ctx.openSection.toRelease + (c.slots + O)) :=
    hl.accounts.congr rfl rfl (zero_add _).symm
  have hd := hopen.removeBlocks path hl.pending_le (List.range' startBlock (endBlock - startBlock))
  refine .of_dropped hl ?_ hpending hslots hok hblocks
  rw [hholds]
  exact hd

theorem callStep_rollbackHits {rc : Int}
    (hl : Ledger W H Pd O ctx (.write req (.rollbackHits plan rc))) :
    CallStep W H Pd O ctx (.write req (.rollbackHits plan rc))
      (ctx.closeSection (rollbackHits ctx.openSection plan))
      (.write req (.rollbackConcat plan (rollbackHits ctx.openSection plan).toRelease rc)) := by
  have hholds : (Call.write req (.rollbackHits plan rc)).holds = missInfos plan + hitInfos plan := rfl
  have hpend : (Call.write req (.rollbackHits plan rc)).pending = missInfos plan := rfl
  set base := values ctx.index.fileToMaster + (missInfos plan + H) with hbase
  have hsplit : values ctx.index.fileToMaster + (missInfos plan + hitInfos plan + H) =
      hitInfos plan + base := by
    rw [hbase]
    abel
  have hopen : Accounts ctx.openSection.index ctx.openSection.heap ctx.nextBlockIndex
      (hitInfos plan + base) (missInfos plan + Pd)
      (ctx.openSection.toRelease + ((Call.write req (.rollbackHits plan rc)).slots + O)) :=
    hl.accounts.congr hsplit rfl (zero_add _).symm
  have hd := hopen.rollbackHits fun m hm => by
    refine Multiset.mem_of_le ?_ hm
    exact (add_le_add_right hl.others _).trans (Multiset.le_add_left _ _)
  have hblocks : (Call.write req (.rollbackConcat plan
      (rollbackHits ctx.openSection plan).toRelease rc)).BlocksIn W := hl.blocks
  refine .of_dropped hl ?_ rfl ?_ trivial hblocks
  rotate_left
  · show missSlots plan + _ = _ + (missSlots plan + 0)
    rw [add_zero]
    exact add_comm _ _
  have hholds' : (Call.write req (.rollbackConcat plan
      (rollbackHits ctx.openSection plan).toRelease rc)).holds = missInfos plan :=
    add_zero _
  rw [hholds, hholds', hpend, hsplit, rollbackHits_fileToMaster]
  exact hd

/-- Pass 3 starts with balanced books. -/
theorem Ledger.consolidated (hl : Ledger W H Pd O ctx (.write req (.consolidate plan))) :
    Consolidated ctx.nextBlockIndex H Pd O ctx.openSection req.path
      (req.startBlock + req.numBlocks) plan
      (pass3Section ctx.openSection req.path req.startBlock req.numBlocks plan) := by
  obtain ⟨-, hplaced, -⟩ := hl.ok
  have hholds : (Call.write req (.consolidate plan)).holds = infos plan := Call.holds_of_plan rfl rfl
  have hslots : (Call.write req (.consolidate plan)).slots = missSlots plan := add_zero _
  have haccounts := hl.accounts
  have hfew := hl.few
  rw [hholds] at hfew
  rw [hholds, hslots] at haccounts
  exact pass3Section_consolidated (haccounts.congr rfl rfl (zero_add _).symm) hplaced hfew hl.others

theorem callStep_consolidate (hl : Ledger W H Pd O ctx (.write req (.consolidate plan))) :
    CallStep W H Pd O ctx (.write req (.consolidate plan))
      (ctx.closeSection (pass3Section ctx.openSection req.path req.startBlock req.numBlocks plan))
      (.write req (.concat (pass3Section ctx.openSection req.path req.startBlock req.numBlocks
        plan).toRelease)) := by
  have hc := hl.consolidated
  obtain ⟨hflight, hplaced, hflushed⟩ := hl.ok
  set st' := pass3Section ctx.openSection req.path req.startBlock req.numBlocks plan with hst'
  have hholds : (Call.write req (.concat st'.toRelease)).holds = 0 := rfl
  have hpend : (Call.write req (.concat st'.toRelease)).pending = 0 := rfl
  have hslots : (Call.write req (.concat st'.toRelease)).slots = st'.toRelease := zero_add _
  have hblocks : (Call.write req (.concat st'.toRelease)).BlocksIn W := hl.blocks
  refine
    { ledger :=
        { accounts := ?_
          few := ?_
          intact := fun m hm => ?_
          ok := trivial
          blocks := hblocks
          others := hl.others }
      brk := hc.brkEq.ge
      hash := fun m _ => hc.hashEq m
      slot := fun m _ _ => hc.slotEq m
      stored := fun _ _ _ h => h
      kept := fun m hm => ?_ }
  · rw [hholds, hpend, hslots, zero_add, zero_add]
    exact hc.accounts
  · rw [hholds, zero_add]
    exact hc.few
  · show ∃ b, W b ∧ hash b = (st'.heap.cell m).hash ∧
      Stored ctx.master (st'.heap.cell m).masterBlockIndex b
    rw [hc.hashEq, hc.slotEq]
    rcases hc.published m hm with hold | ⟨e, he, hk, rfl⟩
    · exact hl.intact m hold
    · -- a block of this request, which the flush has stored
      obtain ⟨i, hi⟩ := List.mem_iff_getElem?.mp he
      have hlt := (List.getElem?_eq_some_iff.mp hi).1
      refine ⟨req.block i, hl.blocks i (hflight.length ▸ hlt), ?_, ?_⟩
      · exact (hflight.ok.entries i e hi).hash.symm.trans (hflight.ok.hashed e he).symm
      · show Stored ctx.master (ctx.heap.cell e.info).masterBlockIndex (req.block i)
        rw [hplaced e he hk]
        exact hflushed i e hlt hi hk
  · rw [hholds, zero_add] at hm
    exact hc.kept m hm

theorem callStep_rollbackMisses {rc : Int}
    (hl : Ledger W H Pd O ctx (.write req (.rollbackMisses plan rc))) :
    CallStep W H Pd O ctx (.write req (.rollbackMisses plan rc)) (rollbackMisses ctx plan)
      (.write req (.done rc)) := by
  have hreleased := rollbackMisses_released ctx plan
  have haccounts : Accounts ctx.index ctx.heap ctx.nextBlockIndex
      (missInfos plan + (values ctx.index.fileToMaster + H)) (missInfos plan + Pd)
      (missSlots plan + O) := by
    refine hl.accounts.congr ?_ rfl (congrArg (· + O) (add_zero _))
    show _ + (missInfos plan + 0 + H) = _
    abel
  have hafter := haccounts.rollbackMisses
  have hblocks : (Call.write req (.done rc)).BlocksIn W := hl.blocks
  have hholds : (Call.write req (.done rc)).holds = 0 := rfl
  refine .of_frame hl ?_ ?_ trivial hblocks hreleased.brk.ge (fun m _ => by rw [hreleased.cell])
    (fun m _ _ => by rw [hreleased.cell]) (fun s _ b hb => by rwa [hreleased.master])
    (fun m _ hm => ?_) (fun m hm => ?_)
  · rw [hholds, hreleased.fileToMaster, hreleased.next]
    exact hafter.congr (by rw [zero_add]) (zero_add _).symm (zero_add _).symm
  · refine hl.few.mono ?_ fun m _ => by rw [hreleased.cell]
    rw [hholds, hreleased.fileToMaster]
    exact add_le_add_right (add_le_add_left (Multiset.zero_le _) _) _
  · rwa [Index.Published, hreleased.hashToMaster]
  · rwa [Index.Published, ← hreleased.hashToMaster]

end DedupBlockFS
