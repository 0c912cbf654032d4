-- SUMMARY: What each whole call does to the sizes and to the set of mapped blocks, in any state.
import DedupBlockFS.MappedBlocks
import DedupBlockFS.Sequential.Operations

/-!
# Sizes and mapped blocks

A write, an unlink and a truncate change the sizes and the set of mapped blocks in the same
way in every state, also in one whose counters are wrong.
-/

namespace DedupBlockFS

open ByteFile

variable [Sha512] {ctx : Context} {req : WriteRequest} {io : Nat → PwriteResult} {q path : CString}
  {b : Nat}

/-! ## Writing -/

/-- Passes 1 and 1.5 leave the tables of the files alone, and plan the blocks of the
    request. -/
theorem prepareWrite_tables (ctx : Context) (req : WriteRequest) :
    (prepareWrite ctx req).1.index.fileToMaster = ctx.index.fileToMaster ∧
      (prepareWrite ctx req).1.index.fileToSizes = ctx.index.fileToSizes ∧
      (prepareWrite ctx req).2.1.map PlanEntry.logicalBlk =
        List.range' req.startBlock req.numBlocks := by
  have hplan := pass1_logicalBlk ctx.index ctx.heap req.buf req.startBlock req.numBlocks
  have hslots : ∀ (hp : Heap) (plan : List PlanEntry) (slots : List Nat),
      (assignSlots hp plan slots).2.map PlanEntry.logicalBlk = plan.map PlanEntry.logicalBlk := by
    intro hp plan slots
    induction plan generalizing hp slots with
    | nil => rfl
    | cons e es ih =>
      simp only [assignSlots]
      split <;> simp [ih]
  unfold prepareWrite allocateBatchStorageFirst
  dsimp only
  split
  · split
    · exact ⟨rfl, rfl, (hslots _ _ _).trans hplan⟩
    · exact ⟨rfl, rfl, (hslots _ _ _).trans hplan⟩
  · exact ⟨rfl, rfl, hplan⟩

/-- The state after the flush. -/
def afterFlush (ctx : Context) (req : WriteRequest) (io : Nat → PwriteResult) : Context :=
  { (prepareWrite ctx req).1 with
    master := (if 0 < (prepareWrite ctx req).2.2 then
      flushPlan (prepareWrite ctx req).1.master req.buf io 0 (prepareWrite ctx req).2.1
      else ((prepareWrite ctx req).1.master, 0)).1 }

/-- Nor does the flush. -/
theorem afterFlush_tables (ctx : Context) (req : WriteRequest) (io : Nat → PwriteResult) :
    (afterFlush ctx req io).index.fileToMaster = ctx.index.fileToMaster ∧
      (afterFlush ctx req io).index.fileToSizes = ctx.index.fileToSizes := by
  obtain ⟨hfiles, hsizes, -⟩ := prepareWrite_tables ctx req
  exact ⟨hfiles, hsizes⟩

omit [Sha512] in
/-- The rollback leaves the tables of the files alone, too. -/
theorem rollbackAllocations_tables (ctx : Context) (plan : List PlanEntry) :
    (rollbackAllocations ctx plan).index.fileToMaster = ctx.index.fileToMaster ∧
      (rollbackAllocations ctx plan).index.fileToSizes = ctx.index.fileToSizes := by
  set st := rollbackHits ctx.openSection plan with hst
  have hmisses := rollbackMisses_released ((ctx.closeSection st).concatFreeList st.toRelease) plan
  constructor
  · rw [rollbackAllocations, hmisses.fileToMaster]
    exact rollbackHits_fileToMaster plan
  · rw [rollbackAllocations, hmisses.fileToSizes]
    exact rollbackHits_fileToSizes ctx.openSection plan

omit [Sha512] in
theorem afterPass3_tables (ctx : Context) (req : WriteRequest) (plan : List PlanEntry) :
    let st := pass3Section ctx.openSection req.path req.startBlock req.numBlocks plan
    (afterPass3 ctx req plan).index.fileToMaster = st.index.fileToMaster ∧
      (afterPass3 ctx req plan).index.fileToSizes = st.index.fileToSizes := ⟨rfl, rfl⟩

/-- A write does nothing, or it ends in the rollback or in pass 3. -/
theorem writeDedup_ends (ctx : Context) (req : WriteRequest) (io : Nat → PwriteResult) :
    ((req.numBlocks = 0 ∨ req.size % blockSize ≠ 0) ∧ (writeDedup ctx req io).1 = ctx ∧
      ((writeDedup ctx req io).2 = 0 ∧ req.size = 0 ∨
        (writeDedup ctx req io).2 = Errno.neg EOPNOTSUPP ∧ req.size ≠ 0)) ∨
    (req.numBlocks ≠ 0 ∧ req.size % blockSize = 0) ∧
      (IsErrno (writeDedup ctx req io).2 ∧ (writeDedup ctx req io).1 =
          rollbackAllocations (afterFlush ctx req io) (prepareWrite ctx req).2.1 ∨
        (writeDedup ctx req io).2 = cInt req.size ∧ (writeDedup ctx req io).1 =
          afterPass3 (afterFlush ctx req io) req (prepareWrite ctx req).2.1) := by
  by_cases hzero : req.size = 0
  · have hempty : req.numBlocks = 0 := by rw [WriteRequest.numBlocks, hzero, Nat.zero_div]
    have heq : writeDedup ctx req io = (ctx, 0) := if_pos hzero
    rw [heq]
    exact .inl ⟨.inl hempty, rfl, .inl ⟨rfl, hzero⟩⟩
  by_cases hrefused : req.numBlocks = 0 ∨ req.size % blockSize ≠ 0
  · have heq : writeDedup ctx req io = (ctx, Errno.neg EOPNOTSUPP) := by
      rw [writeDedup, if_neg hzero, if_pos hrefused]
    rw [heq]
    exact .inl ⟨hrefused, rfl, .inr ⟨rfl, hzero⟩⟩
  right
  have haccepted := hrefused
  rw [not_or, not_not] at haccepted
  refine ⟨haccepted, ?_⟩
  have hsize : req.numBlocks * blockSize = req.size :=
    Nat.div_mul_cancel (Nat.dvd_of_mod_eq_zero haccepted.2)
  have hret : (if 0 < (prepareWrite ctx req).2.2 then
      flushPlan (prepareWrite ctx req).1.master req.buf io 0 (prepareWrite ctx req).2.1
      else ((prepareWrite ctx req).1.master, 0)).2 < 0 →
      IsErrno (if 0 < (prepareWrite ctx req).2.2 then
        flushPlan (prepareWrite ctx req).1.master req.buf io 0 (prepareWrite ctx req).2.1
        else ((prepareWrite ctx req).1.master, 0)).2 := by
    intro hneg
    split at hneg
    · rename_i hmiss
      rw [if_pos hmiss]
      rcases flushPlan_ret (prepareWrite ctx req).1.master req.buf io 0
        (prepareWrite ctx req).2.1 with ⟨hrc, -⟩ | ⟨hrc, -⟩
      · exact absurd hneg (not_lt_of_ge hrc.ge)
      · exact hrc
    · exact absurd hneg (lt_irrefl _)
  simp only [writeDedup, if_neg hzero, if_neg hrefused, afterFlush]
  generalize (if 0 < (prepareWrite ctx req).2.2 then
    flushPlan (prepareWrite ctx req).1.master req.buf io 0 (prepareWrite ctx req).2.1
    else ((prepareWrite ctx req).1.master, 0)) = flushed at hret ⊢
  split
  · rename_i hneg
    exact .inl ⟨hret hneg, rfl⟩
  · right
    refine ⟨?_, rfl⟩
    simp only [hsize]

/-- The sizes and the mapped blocks are the same. -/
structure SameShape (ctx ctx' : Context) : Prop where
  sizes : ∀ q, ctx'.index.fileToSizes.lookup q = ctx.index.fileToSizes.lookup q
  mapped : ∀ q b, Mapped ctx'.index q b ↔ Mapped ctx.index q b

omit [Sha512] in
theorem SameShape.of_tables {ctx' : Context}
    (hfiles : ctx'.index.fileToMaster = ctx.index.fileToMaster)
    (hsizes : ctx'.index.fileToSizes = ctx.index.fileToSizes) : SameShape ctx ctx' where
  sizes q := by rw [hsizes]
  mapped q b := mapped_congr hfiles

omit [Sha512] in
theorem SameShape.refl (ctx : Context) : SameShape ctx ctx := .of_tables rfl rfl

/-- The blocks of the request are mapped, and the file reaches at least to its end. -/
structure Written (ctx : Context) (req : WriteRequest) (ctx' : Context) : Prop where
  sizes : ∀ q, ctx'.index.fileToSizes.lookup q =
    if q = req.path then some (max ((req.startBlock + req.numBlocks) * blockSize)
      ((ctx.index.fileToSizes.lookup req.path).getD 0))
    else ctx.index.fileToSizes.lookup q
  mapped : ∀ q b, Mapped ctx'.index q b ↔ Mapped ctx.index q b ∨
    (q = req.path ∧ req.startBlock ≤ b ∧ b < req.startBlock + req.numBlocks)

/-- A write that returns the length of its request has written it; any other leaves the
    shape of the files alone. -/
theorem writeDedup_shape (ctx : Context) (req : WriteRequest) (io : Nat → PwriteResult) :
    ((req.numBlocks ≠ 0 ∧ req.size % blockSize = 0) ∧ (writeDedup ctx req io).2 = cInt req.size ∧
      Written ctx req (writeDedup ctx req io).1) ∨
    (((writeDedup ctx req io).2 = 0 ∧ req.size = 0 ∨ IsErrno (writeDedup ctx req io).2) ∧
      SameShape ctx (writeDedup ctx req io).1) := by
  obtain ⟨-, -, hplan⟩ := prepareWrite_tables ctx req
  obtain ⟨hfiles, hsizes⟩ := afterFlush_tables ctx req io
  rcases writeDedup_ends ctx req io with
    ⟨-, hctx, hret⟩ | ⟨haccepted, ⟨herrno, hctx⟩ | ⟨hret, hctx⟩⟩
  · right
    rw [hctx]
    refine ⟨hret.imp_right ?_, .refl ctx⟩
    rintro ⟨hret, -⟩
    rw [hret]
    exact isErrno_neg _
  · right
    rw [hctx]
    obtain ⟨hfiles', hsizes'⟩ := rollbackAllocations_tables (afterFlush ctx req io)
      (prepareWrite ctx req).2.1
    exact ⟨.inr herrno, .of_tables (hfiles'.trans hfiles) (hsizes'.trans hsizes)⟩
  · left
    refine ⟨haccepted, hret, ?_⟩
    rw [hctx]
    obtain ⟨hfiles', hsizes'⟩ := afterPass3_tables (afterFlush ctx req io) req
      (prepareWrite ctx req).2.1
    constructor
    · intro q
      rw [hsizes', pass3Section_sizes, Context.openSection_index, hsizes]
    · intro q b
      have hblks : (∃ e ∈ (prepareWrite ctx req).2.1, e.logicalBlk = b) ↔
          req.startBlock ≤ b ∧ b < req.startBlock + req.numBlocks := by
        rw [← List.mem_map, hplan, List.mem_range'_1]
      rw [mapped_congr hfiles', mapped_pass3Section, hblks, Context.openSection_index,
        mapped_congr hfiles]

/-! ## Unlink and truncate -/

omit [Sha512] in
/-- What a removal leaves mapped. -/
theorem mapped_removeBlocksDedupBatch {startBlock endBlock : Nat} :
    Mapped (removeBlocksDedupBatch ctx path startBlock endBlock).index q b ↔
      Mapped ctx.index q b ∧ ¬(q = path ∧ startBlock ≤ b ∧ b < endBlock) := by
  rw [Mapped, Index.lookupByFileBlock, removeBlocksDedupBatch_lookup]
  by_cases hin : q = path ∧ startBlock ≤ b ∧ b < endBlock
  · simp [hin]
  · rw [if_neg hin]
    exact ⟨fun h => ⟨h, hin⟩, fun h => h.1⟩

omit [Sha512] in
/-- After an unlink the file has neither a size nor a mapped block. -/
theorem xmpUnlink_shape (hsized : Sized ctx.index) (path : CString) (res : SyscallResult) :
    (∀ q, (xmpUnlink ctx path res).1.index.fileToSizes.lookup q =
      if q = path then none else ctx.index.fileToSizes.lookup q) ∧
    ∀ q b, Mapped (xmpUnlink ctx path res).1.index q b ↔ q ≠ path ∧ Mapped ctx.index q b := by
  cases hsize : ctx.index.fileToSizes.lookup path with
  | none =>
    rw [xmpUnlink_of_none res hsize]
    constructor
    · intro q
      split
      · rename_i hq
        rw [hq, hsize]
      · rfl
    · intro q b
      refine ⟨fun hm => ⟨?_, hm⟩, fun h => h.2⟩
      rintro rfl
      obtain ⟨size, hsome, -⟩ := hsized.of_mapped hm
      rw [hsize] at hsome
      cases hsome
  | some size =>
    rw [xmpUnlink_of_some res hsize]
    constructor
    · intro q
      show ((removeBlocksDedupBatch ctx path 0 _).index.fileToSizes.erase path).lookup q = _
      rw [removeBlocksDedupBatch_fileToSizes]
      split
      · rename_i hq
        rw [hq, AList.lookup_erase]
      · rename_i hq
        exact AList.lookup_erase_ne hq
    · intro q b
      show Mapped (removeBlocksDedupBatch ctx path 0 _).index q b ↔ _
      rw [mapped_removeBlocksDedupBatch, and_comm]
      apply and_congr_left
      intro hm
      rw [not_iff_not]
      refine ⟨fun h => h.1, ?_⟩
      rintro rfl
      obtain ⟨size', hsome, hlt⟩ := hsized.of_mapped hm
      obtain rfl := Option.some.inj (hsize.symm.trans hsome)
      exact ⟨rfl, Nat.zero_le b, lt_blocksOfSize.mpr hlt⟩

omit [Sha512] in
/-- A truncate cuts the size and the mapped blocks of the file off; it never extends it. -/
theorem xmpTruncate_shape (hsized : Sized ctx.index) (path : CString) {n : Nat}
    (haligned : n % blockSize = 0) (res : SyscallResult) :
    (∀ q, (xmpTruncate ctx path n res).1.index.fileToSizes.lookup q =
      if q = path then (ctx.index.fileToSizes.lookup path).map (min n)
      else ctx.index.fileToSizes.lookup q) ∧
    ∀ q b, Mapped (xmpTruncate ctx path n res).1.index q b ↔
      Mapped ctx.index q b ∧ (q = path → b * blockSize < n) := by
  by_cases hle : ∀ old, ctx.index.fileToSizes.lookup path = some old → old ≤ n
  · rw [xmpTruncate_of_le res haligned hle]
    constructor
    · intro q
      split
      · rename_i hq
        rw [hq]
        cases hsize : ctx.index.fileToSizes.lookup path with
        | none => rfl
        | some old => rw [Option.map_some, Nat.min_eq_right (hle old hsize)]
      · rfl
    · intro q b
      refine ⟨fun hm => ⟨hm, ?_⟩, fun h => h.1⟩
      rintro rfl
      obtain ⟨old, hold, hlt⟩ := hsized.of_mapped hm
      exact hlt.trans_le (hle old hold)
  · simp only [not_forall, not_le] at hle
    obtain ⟨old, hold, hlt⟩ := hle
    rw [xmpTruncate_of_lt res haligned hold hlt]
    have hset : (truncateSetSize (removeBlocksDedupBatch ctx path (blocksOfSize n)
        (blocksOfSize old)) path n).index.fileToSizes = ctx.index.fileToSizes.insert path n := by
      rw [truncateSetSize, removeBlocksDedupBatch_fileToSizes, hold]
      dsimp only
      rw [if_pos hlt]
    constructor
    · intro q
      dsimp only
      rw [hset]
      split
      · rename_i hq
        rw [hq, AList.lookup_insert, hold, Option.map_some, Nat.min_eq_left hlt.le]
      · rename_i hq
        exact AList.lookup_insert_ne hq
    · intro q b
      rw [truncateSetSize_eq]
      show Mapped (removeBlocksDedupBatch ctx path _ _).index q b ↔ _
      rw [mapped_removeBlocksDedupBatch]
      apply and_congr_right
      intro hm
      have hstart : blocksOfSize n ≤ b ↔ ¬b * blockSize < n := by
        rw [← lt_blocksOfSize, not_lt]
      rw [hstart]
      constructor
      · intro hout hq
        subst hq
        obtain ⟨old', hold', hlt'⟩ := hsized.of_mapped hm
        obtain rfl := Option.some.inj (hold.symm.trans hold')
        by_contra hge
        exact hout ⟨rfl, hge, lt_blocksOfSize.mpr hlt'⟩
      · rintro hlt ⟨hq, hge, -⟩
        exact hge (hlt hq)

/-! ## Every call -/

/-- Every recorded size is a number of whole blocks. -/
def SizesAligned (ix : Index) : Prop :=
  ∀ path size, ix.fileToSizes.lookup path = some size → size % blockSize = 0

/-- The mapped blocks lie below the sizes, and the sizes are whole blocks. -/
structure WellSized (ix : Index) : Prop where
  sized : Sized ix
  aligned : SizesAligned ix

omit [Sha512] in
theorem WellSized.empty : WellSized .empty where
  sized path b m hm := by cases hm
  aligned path size hsize := by cases hsize

omit [Sha512] in
theorem SameShape.wellSized {ctx' : Context} (h : SameShape ctx ctx') (hw : WellSized ctx.index) :
    WellSized ctx'.index where
  sized := hw.sized.mono h.sizes fun q b => (h.mapped q b).mp
  aligned path size hsize := by
    rw [h.sizes] at hsize
    exact hw.aligned path size hsize

omit [Sha512] in
theorem Written.wellSized {ctx' : Context} (h : Written ctx req ctx') (hw : WellSized ctx.index) :
    WellSized ctx'.index where
  sized := by
    refine hw.sized.grow h.sizes fun q b hm => ((h.mapped q b).mp hm).imp_right ?_
    rintro ⟨hq, -, hlt⟩
    exact ⟨hq, Nat.mul_lt_mul_of_pos_right hlt (by decide)⟩
  aligned path size hsize := by
    rw [h.sizes] at hsize
    split at hsize
    · obtain rfl := Option.some.inj hsize
      cases hold : ctx.index.fileToSizes.lookup req.path with
      | none =>
        rw [Option.getD_none, Nat.max_zero]
        exact Nat.mul_mod_left _ _
      | some old =>
        rw [Option.getD_some]
        rcases max_choice ((req.startBlock + req.numBlocks) * blockSize) old with hmax | hmax
        · rw [hmax]
          exact Nat.mul_mod_left _ _
        · rw [hmax]
          exact hw.aligned _ _ hold
    · exact hw.aligned path size hsize

theorem WellSized.exec (hw : WellSized ctx.index) (op : Op) : WellSized (op.exec ctx).1.index := by
  cases op with
  | write req io =>
    rcases writeDedup_shape ctx req io with ⟨-, -, hwritten⟩ | ⟨-, hsame⟩
    · exact hwritten.wellSized hw
    · exact hsame.wellSized hw
  | unlink path res =>
    obtain ⟨hsizes, hmapped⟩ := xmpUnlink_shape hw.sized path res
    constructor
    · intro q b m hm
      obtain ⟨hq, hold⟩ := (hmapped q b).mp (mapped_of_lookup hm)
      show ∃ size, (xmpUnlink ctx path res).1.index.fileToSizes.lookup q = some size ∧ _
      rw [hsizes, if_neg hq]
      exact hw.sized.of_mapped hold
    · intro q size hsize
      have hsize' : (xmpUnlink ctx path res).1.index.fileToSizes.lookup q = some size := hsize
      rw [hsizes] at hsize'
      split at hsize'
      · cases hsize'
      · exact hw.aligned q size hsize'
  | truncate path size res =>
    by_cases hrefused : size < 0 ∨ size % blockSize ≠ 0
    · simp only [Op.exec, xmpTruncate_of_refused res hrefused]
      exact hw
    obtain ⟨n, rfl⟩ := Int.eq_ofNat_of_zero_le (not_lt.mp fun h => hrefused (.inl h))
    have haligned : n % blockSize = 0 := by omega
    obtain ⟨hsizes, hmapped⟩ := xmpTruncate_shape hw.sized path haligned res
    constructor
    · intro q b m hm
      obtain ⟨hold, hbelow⟩ := (hmapped q b).mp (mapped_of_lookup hm)
      obtain ⟨size, hsize, hlt⟩ := hw.sized.of_mapped hold
      show ∃ size, (xmpTruncate ctx path n res).1.index.fileToSizes.lookup q = some size ∧ _
      rw [hsizes]
      split
      · rename_i hq
        rw [← hq, hsize]
        exact ⟨_, rfl, lt_min (hbelow hq) hlt⟩
      · exact ⟨size, hsize, hlt⟩
    · intro q size hsize
      have hsize' : (xmpTruncate ctx path n res).1.index.fileToSizes.lookup q = some size := hsize
      rw [hsizes] at hsize'
      split at hsize'
      · obtain ⟨old, hold, rfl⟩ := Option.map_eq_some_iff.mp hsize'
        rcases min_choice n old with hmin | hmin
        · rw [hmin]
          exact haligned
        · rw [hmin]
          exact hw.aligned path old hold
      · exact hw.aligned q size hsize'

end DedupBlockFS
