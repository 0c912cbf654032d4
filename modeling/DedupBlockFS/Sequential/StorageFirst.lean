-- SUMMARY: Which slots a write takes, how many slots are ever used, and when a write lengthens the master file.
import DedupBlockFS.GroupedFlush
import DedupBlockFS.Sequential.Failure
import DedupBlockFS.Sequential.Shape

/-!
# Storage first

A write needs one slot for each distinct new content of its request. It empties the free
list before it appends, and nothing leaks, so the number of slots ever used is the largest
demand so far: `withHighWater` records that demand next to the run.

The file itself may end before those slots do. A write that fails leaves the slots it has
appended to the free list, the last of them at its head, even if nothing was written
there, so the next write can lengthen the file while earlier slots are free.
-/

namespace DedupBlockFS

open ByteFile
open Table (values)

/-! ## The slots of the plan -/

/-- The slots that `assignSlots` stores in the MISSes are those it is given, in order. -/
theorem assignSlots_slots (hp : Heap) {plan : List PlanEntry} {slots : List Nat}
    (hlen : slots.length = (plan.filter (·.kind = .miss)).length) :
    (((assignSlots hp plan slots).2.filter (·.kind = .miss)).map PlanEntry.masterBlk) = slots := by
  induction plan generalizing hp slots with
  | nil =>
    apply Eq.symm
    exact List.eq_nil_of_length_eq_zero hlen
  | cons e es ih =>
    cases hk : e.kind with
    | hit =>
      simp only [hk, reduceCtorEq, decide_false, Bool.false_eq_true, not_false_eq_true,
        List.filter_cons_of_neg] at hlen
      have hcons : (assignSlots hp (e :: es) slots).2 = e :: (assignSlots hp es slots).2 := by
        simp [assignSlots, hk]
      rw [hcons, List.filter_cons_of_neg (by simp [hk])]
      exact ih hp hlen
    | miss =>
      simp only [hk, decide_true, List.filter_cons_of_pos, List.length_cons] at hlen
      obtain ⟨slot, slots, rfl⟩ := List.exists_cons_of_length_eq_add_one hlen
      have hcons : (assignSlots hp (e :: es) (slot :: slots)).2 = { e with masterBlk := slot } ::
          (assignSlots (hp.setMasterBlockIndex e.info slot) es slots).2 := by
        simp [assignSlots, hk]
      rw [hcons, List.filter_cons_of_pos (by simp [hk]), List.map_cons]
      simp only [List.length_cons, Nat.add_right_cancel_iff] at hlen
      rw [ih _ hlen]

/-- The slots that `allocate_batch_storage_first` hands out. -/
theorem allocateBatchStorageFirst_slots (ctx : Context) (missCount : Nat) :
    (allocateBatchStorageFirst ctx missCount).2 = ctx.index.freeBlockList.take missCount ++
      List.range' ctx.nextBlockIndex (missCount - ctx.index.freeBlockList.length) := by
  have htaken : (ctx.drainFreeList missCount).2 = ctx.index.freeBlockList.take missCount := rfl
  have hremaining : missCount - (ctx.index.freeBlockList.take missCount).length =
      missCount - ctx.index.freeBlockList.length := by
    rw [List.length_take]
    omega
  simp only [allocateBatchStorageFirst, htaken, hremaining]
  split
  · rfl
  · rename_i hpos
    rw [Nat.eq_zero_of_not_pos hpos, List.range'_zero, List.append_nil]

theorem allocateBatchStorageFirst_freeBlockList (ctx : Context) (missCount : Nat) :
    (allocateBatchStorageFirst ctx missCount).1.index.freeBlockList =
      ctx.index.freeBlockList.drop missCount := by
  unfold allocateBatchStorageFirst
  dsimp only
  split <;> rfl

/-! ## The length of the master file -/

section
variable {master buf : List UInt8} {io : Nat → PwriteResult} {bytes k : Nat}
  {plan rest : List PlanEntry} {first : PlanEntry} {runLen : Nat} {r : PwriteResult}

/-- The slots behind the next run are slots of the plan. -/
theorem missSlots_rest (hnext : nextRun plan = some (first, runLen, rest)) {s : Nat}
    (hs : s ∈ missSlots rest) : s ∈ missSlots plan := by
  obtain ⟨-, skip, -, hrest, -⟩ := nextRun_eq_some hnext
  rw [hrest] at hs
  obtain ⟨e, he, hk, hslot⟩ := mem_missSlots.mp hs
  exact mem_missSlots.mpr ⟨e, List.mem_of_mem_drop he, hk, hslot⟩

variable (master buf r) in
/-- A run whose slots end within the first `bytes` bytes does not lengthen the file
    beyond them. -/
theorem length_writeRun_le (h : ∀ s ∈ missSlots plan, (s + 1) * blockSize ≤ bytes)
    (hnext : nextRun plan = some (first, runLen, rest)) :
    (writeRun master buf first runLen r).1.length ≤ max master.length bytes := by
  obtain ⟨hpos, -⟩ := nextRun_eq_some hnext
  have hnext₀ : nextRun (plan.drop 0) = some (first, runLen, rest) := by
    rwa [List.drop_zero]
  obtain ⟨i, e, -, he, hk, hslot⟩ := nextRun_slots hnext₀ (show runLen - 1 < runLen by omega)
  have hend := h _ (mem_missSlots.mpr ⟨e, List.mem_of_getElem? he, hk, rfl⟩)
  rw [hslot, show first.masterBlk + (runLen - 1) + 1 = first.masterBlk + runLen by omega,
    Nat.add_mul] at hend
  have hdata : ((pread buf first.payload (runLen * blockSize)).take
      (r.count (runLen * blockSize))).length ≤ runLen * blockSize := by
    have hcount := r.count_le (runLen * blockSize)
    rw [List.length_take]
    omega
  simp only [writeRun]
  rw [length_pwrite]
  split <;> omega

theorem length_flushPlan_le (h : ∀ s ∈ missSlots plan, (s + 1) * blockSize ≤ bytes) :
    (flushPlan master buf io k plan).1.length ≤ max master.length bytes := by
  fun_induction flushPlan master buf io k plan with
  | case1 => exact le_max_left _ _
  | case2 =>
    rename_i master k _ _ _ _ hsome _ hwrite ih
    have hone := length_writeRun_le master buf (io k) h hsome
    rw [hwrite] at hone
    have hrest := ih fun s hs => h s (missSlots_rest hsome hs)
    exact hrest.trans (max_le hone (le_max_right _ _))
  | case3 =>
    rename_i master k _ _ _ _ hsome _ _ hwrite _
    have hone := length_writeRun_le master buf (io k) h hsome
    rwa [hwrite] at hone

/-- The file ends behind every slot that is written to. -/
theorem le_length_writeMisses (hpayload : ∀ e ∈ plan, e.payload + blockSize ≤ buf.length)
    {s : Nat} (hs : s ∈ missSlots plan) :
    (s + 1) * blockSize ≤ (writeMisses buf master plan).length := by
  induction plan using List.reverseRecOn with
  | nil => simp [missSlots] at hs
  | append_singleton es e ih =>
    rw [writeMisses_append]
    show _ ≤ (writeMiss buf (writeMisses buf master es) e).length
    obtain ⟨a, ha, hk, rfl⟩ := mem_missSlots.mp hs
    rcases List.mem_append.mp ha with ha | ha
    · have hbefore := ih (fun a ha => hpayload a (List.mem_append_left _ ha))
        (mem_missSlots.mpr ⟨a, ha, hk, rfl⟩)
      refine hbefore.trans ?_
      unfold writeMiss
      split
      · exact Nat.le_refl _
      · exact length_le_length_pwrite _ _ _
    · obtain rfl := List.mem_singleton.mp ha
      have hlen : (pread buf a.payload blockSize).length = blockSize :=
        length_pread_of_le (hpayload a (List.mem_append_right _ (List.mem_singleton_self a)))
      have hne : pread buf a.payload blockSize ≠ [] := by
        intro hnil
        rw [hnil] at hlen
        cases hlen
      simp only [writeMiss, hk]
      rw [length_pwrite, if_neg hne, hlen, Nat.succ_mul]
      exact le_max_right _ _

end

/-! ## The distinct new blocks of a request -/

section
variable [Sha512] {W : List UInt8 → Prop} {ctx : Context} {req : WriteRequest}
  {io : Nat → PwriteResult}

/-- The hashes of the blocks of a request. -/
def WriteRequest.hashes (req : WriteRequest) : List Hash :=
  (List.range req.numBlocks).map fun i => hash (req.block i)

/-- Those that are not in `hash_to_master`, each of them once. -/
def newHashes (ix : Index) (req : WriteRequest) : List Hash :=
  req.hashes.dedup.filter fun x => (ix.lookupByHash x).isNone

theorem mem_newHashes {ix : Index} {x : Hash} : x ∈ newHashes ix req ↔
    (∃ i < req.numBlocks, hash (req.block i) = x) ∧ ix.lookupByHash x = none := by
  simp [newHashes, WriteRequest.hashes]

/-- Pass 1 makes one MISS for each distinct new block. -/
theorem length_misses_pass1 (hq : Quiet W ctx) (hroom : RoomFor ctx req) :
    ((pass1 ctx.index ctx.heap req.buf req.startBlock req.numBlocks).plan.filter
      (·.kind = .miss)).length = (newHashes ctx.index req).length := by
  have hpass := hq.accounts.pass1_of_few req req.numBlocks hroom
  set p := pass1 ctx.index ctx.heap req.buf req.startBlock req.numBlocks with hp
  rw [← List.length_map PlanEntry.hash]
  apply List.Perm.length_eq
  apply (List.perm_ext_iff_of_nodup hpass.plan.missDistinct
    ((List.nodup_dedup _).filter _)).mpr
  intro x
  rw [← newHashes, mem_newHashes]
  constructor
  · intro hx
    obtain ⟨e, he, rfl⟩ := List.mem_map.mp hx
    simp only [List.mem_filter, decide_eq_true_eq] at he
    obtain ⟨i, hi⟩ := List.mem_iff_getElem?.mp he.1
    refine ⟨⟨i, ?_, (hpass.plan.entries i e hi).hash.symm⟩, hpass.missFresh e he.1 he.2⟩
    rw [← hpass.length]
    exact (List.getElem?_eq_some_iff.mp hi).1
  · rintro ⟨⟨i, hi, rfl⟩, hnone⟩
    rw [← hpass.length] at hi
    have hget := List.getElem?_eq_getElem hi
    have hmem := List.getElem_mem hi
    rw [← (hpass.plan.entries i _ hget).hash] at hnone ⊢
    set e := p.plan[i] with he
    simp only [List.mem_map, List.mem_filter, decide_eq_true_eq]
    cases hk : e.kind with
    | miss => exact ⟨e, ⟨hmem, hk⟩, rfl⟩
    | hit =>
      -- it shares the object of a MISS, because its hash is not published
      rcases hpass.plan.hits e hmem hk with hpub | hown
      · have hlookup := hpass.accounts.lookup_hash hpub
        rw [hpass.plan.hashed e hmem] at hlookup
        cases hnone.symm.trans hlookup
      · obtain ⟨a, ha, hka, hinfo⟩ := mem_missInfos.mp hown
        refine ⟨a, ⟨ha, hka⟩, ?_⟩
        rw [← hpass.plan.hashed a ha, hinfo, hpass.plan.hashed e hmem]

theorem missCount_eq (hq : Quiet W ctx) (hroom : RoomFor ctx req) :
    (prepareWrite ctx req).2.2 = (newHashes ctx.index req).length := by
  have hpass := hq.accounts.pass1_of_few req req.numBlocks hroom
  have hcount : (prepareWrite ctx req).2.2 =
      (pass1 ctx.index ctx.heap req.buf req.startBlock req.numBlocks).missCount := by
    simp only [prepareWrite]
    split <;> rfl
  rw [hcount, hpass.missCount, ← length_misses_pass1 hq hroom, missInfos, Multiset.coe_card,
    List.length_map]

/-- The MISSes take free slots from the head of the list, then new ones. -/
theorem prepareWrite_slots (hq : Quiet W ctx) (hroom : RoomFor ctx req) :
    ((prepareWrite ctx req).2.1.filter (·.kind = .miss)).map PlanEntry.masterBlk =
        ctx.index.freeBlockList.take (newHashes ctx.index req).length ++
          List.range' ctx.nextBlockIndex
            ((newHashes ctx.index req).length - ctx.index.freeBlockList.length) ∧
      (prepareWrite ctx req).1.index.freeBlockList =
        ctx.index.freeBlockList.drop (newHashes ctx.index req).length := by
  have hcount := missCount_eq hq hroom
  have hmisses := length_misses_pass1 hq hroom
  unfold prepareWrite at hcount ⊢
  set p := pass1 ctx.index ctx.heap req.buf req.startBlock req.numBlocks with hp
  by_cases hpos : 0 < p.missCount
  · simp only [if_pos hpos] at hcount ⊢
    rw [← hcount] at hmisses ⊢
    have hslots := allocateBatchStorageFirst_slots { ctx with heap := p.heap } p.missCount
    refine ⟨?_, allocateBatchStorageFirst_freeBlockList { ctx with heap := p.heap } p.missCount⟩
    rw [assignSlots_slots _ (?_), hslots]
    rw [hslots, hmisses]
    simp only [List.length_append, List.length_take, List.length_range']
    omega
  · simp only [if_neg hpos] at hcount ⊢
    rw [← hcount, Nat.eq_zero_of_not_pos hpos] at hmisses ⊢
    rw [List.eq_nil_of_length_eq_zero hmisses]
    simp

theorem length_misses_prepareWrite (hq : Quiet W ctx) (hroom : RoomFor ctx req) :
    ((prepareWrite ctx req).2.1.filter (·.kind = .miss)).length =
      (newHashes ctx.index req).length := by
  rw [← List.length_map PlanEntry.masterBlk, (prepareWrite_slots hq hroom).1]
  simp only [List.length_append, List.length_take, List.length_range']
  omega

/-- Every slot that was ever handed out is free or holds a published block. -/
theorem Quiet.next_eq (hq : Quiet W ctx) :
    ctx.nextBlockIndex = ctx.index.freeBlockList.length + ctx.index.hashToMaster.keys.length := by
  have hslots := congrArg Multiset.card hq.slots
  rw [Multiset.card_add, Multiset.card_map, Multiset.coe_card, Multiset.card_range] at hslots
  rw [← hslots, values, Multiset.coe_card, List.length_map, AList.keys, List.keys, List.length_map]

variable (ctx io) in
/-- After pass 1.5 nothing moves the end of the master file. -/
theorem writeDedup_next (haligned : req.size % blockSize = 0) :
    (writeDedup ctx req io).1.nextBlockIndex = (prepareWrite ctx req).1.nextBlockIndex := by
  rcases writeDedup_ends ctx req io with ⟨hrefused, hctx, -⟩ | ⟨-, ⟨-, hctx⟩ | ⟨-, hctx⟩⟩
  · have hempty : req.numBlocks = 0 := hrefused.resolve_right (not_not_intro haligned)
    rw [hctx]
    simp [prepareWrite, pass1, hempty]
  · rw [hctx]
    exact (rollbackMisses_released _ _).next
  · rw [hctx]
    rfl

omit [Sha512] in
variable (ctx) in
theorem rollbackAllocations_master (plan : List PlanEntry) :
    (rollbackAllocations ctx plan).master = ctx.master := by
  rw [rollbackAllocations, (rollbackMisses_released _ _).master]
  rfl

variable (ctx req) in
theorem prepareWrite_master : (prepareWrite ctx req).1.master = ctx.master := by
  unfold prepareWrite allocateBatchStorageFirst
  dsimp only
  split
  · split <;> rfl
  · rfl

variable (ctx io) in
/-- Neither rollback nor pass 3 touches the master file. -/
theorem writeDedup_master (haccepted : req.numBlocks ≠ 0 ∧ req.size % blockSize = 0) :
    (writeDedup ctx req io).1.master = (afterFlush ctx req io).master := by
  rcases writeDedup_ends ctx req io with ⟨hrefused, -⟩ | ⟨-, ⟨-, hctx⟩ | ⟨-, hctx⟩⟩
  · rcases hrefused with hempty | hunaligned
    · exact absurd hempty haccepted.1
    · exact absurd haccepted.2 hunaligned
  · rw [hctx]
    exact rollbackAllocations_master _ _
  · rw [hctx]
    rfl

/-- If its slots end within the first `bytes` bytes, a write does not lengthen the file
    beyond them. -/
theorem length_writeDedup_master_le {bytes : Nat}
    (h : ∀ s ∈ missSlots (prepareWrite ctx req).2.1, (s + 1) * blockSize ≤ bytes) :
    (writeDedup ctx req io).1.master.length ≤ max ctx.master.length bytes := by
  by_cases haccepted : req.numBlocks ≠ 0 ∧ req.size % blockSize = 0
  · rw [writeDedup_master ctx io haccepted]
    simp only [afterFlush, prepareWrite_master]
    split
    · exact length_flushPlan_le h
    · exact le_max_left _ _
  · rcases writeDedup_ends ctx req io with ⟨-, hctx, -⟩ | ⟨haccepted', -⟩
    · rw [hctx]
      exact le_max_left _ _
    · exact absurd haccepted' haccepted

/-- A write whose `pwrite`s are all complete leaves a file that ends behind its slots. -/
theorem le_length_writeDedup_master (hq : Quiet W ctx) (hroom : RoomFor ctx req)
    (haligned : req.size % blockSize = 0) {s : Nat}
    (hs : s ∈ missSlots (prepareWrite ctx req).2.1) :
    (s + 1) * blockSize ≤ (writeDedup ctx req fun _ => .complete).1.master.length := by
  have hcount : 0 < (prepareWrite ctx req).2.2 := by
    have hmisses := length_misses_prepareWrite hq hroom
    obtain ⟨e, he, hk, -⟩ := mem_missSlots.mp hs
    rw [missCount_eq hq hroom, ← hmisses]
    exact List.length_pos_of_mem (List.mem_filter.mpr ⟨he, decide_eq_true hk⟩)
  obtain ⟨slots, hplan⟩ := prepareWrite_plan ctx req hcount
  have hlaid := laidOut_planWithSlots ctx req slots
  rw [← hplan] at hlaid
  have hblocks : req.numBlocks ≠ 0 := by
    intro hempty
    simp [prepareWrite, pass1, hempty] at hcount
  rw [writeDedup_master ctx _ ⟨hblocks, haligned⟩]
  simp only [afterFlush, if_pos hcount]
  rcases flushPlan_cases (prepareWrite ctx req).1.master 0 (fun _ => .complete) hlaid with
    ⟨-, hall⟩ | ⟨-, -, -, -, runLen, -, -, -, hshort, -⟩
  · rw [hall]
    exact le_length_writeMisses (fun e he => hlaid.inside he) hs
  · exact absurd rfl hshort

/-- The slots that a write takes lie below the end of the slots after it. -/
theorem missSlots_prepareWrite_lt (hq : Quiet W ctx) (hroom : RoomFor ctx req)
    (haligned : req.size % blockSize = 0) (io : Nat → PwriteResult) :
    ∀ s ∈ missSlots (prepareWrite ctx req).2.1, s < (writeDedup ctx req io).1.nextBlockIndex := by
  intro s hs
  have hend := writeDedup_next ctx io haligned
  rw [prepareWrite_next, missCount_eq hq hroom] at hend
  rw [missSlots, (prepareWrite_slots hq hroom).1, Multiset.mem_coe, List.mem_append] at hs
  rcases hs with hfree | hnew
  · have hlt := hq.slot_lt_iff.mpr (.inl (List.mem_of_mem_take hfree))
    omega
  · rw [List.mem_range'_1] at hnew
    omega

/-- A write of `d` distinct new blocks takes `d` slots: from the head of the free list as
    long as there are any, then behind the last slot ever used. If the free list is long
    enough, no slot is added, and the master file does not reach beyond the last one,
    unless it did before. -/
structure StorageFirst (ctx : Context) (req : WriteRequest) (io : Nat → PwriteResult) (d : Nat) :
    Prop where
  slots : ((prepareWrite ctx req).2.1.filter (·.kind = .miss)).map PlanEntry.masterBlk =
    ctx.index.freeBlockList.take d ++
      List.range' ctx.nextBlockIndex (d - ctx.index.freeBlockList.length)
  count : ((prepareWrite ctx req).2.1.filter (·.kind = .miss)).length = d
  drained : (prepareWrite ctx req).1.index.freeBlockList = ctx.index.freeBlockList.drop d
  next : (writeDedup ctx req io).1.nextBlockIndex =
    max ctx.nextBlockIndex (ctx.index.hashToMaster.keys.length + d)
  sameEnd : d ≤ ctx.index.freeBlockList.length →
    (writeDedup ctx req io).1.nextBlockIndex = ctx.nextBlockIndex ∧
      (writeDedup ctx req io).1.master.length ≤
        max ctx.master.length (ctx.nextBlockIndex * blockSize)

theorem Quiet.storageFirst (hq : Quiet W ctx) (hroom : RoomFor ctx req)
    (haligned : req.size % blockSize = 0) (io : Nat → PwriteResult) :
    StorageFirst ctx req io (newHashes ctx.index req).length := by
  have hend := writeDedup_next ctx io haligned
  have hbelow := missSlots_prepareWrite_lt hq hroom haligned io
  obtain ⟨hslots, hdrained⟩ := prepareWrite_slots hq hroom
  rw [prepareWrite_next, missCount_eq hq hroom] at hend
  have hconserved := hq.next_eq
  refine ⟨hslots, length_misses_prepareWrite hq hroom, hdrained, by omega, ?_⟩
  intro hfits
  have hsame : (DedupBlockFS.writeDedup ctx req io).1.nextBlockIndex = ctx.nextBlockIndex := by
    omega
  rw [hsame] at hbelow
  exact ⟨hsame, length_writeDedup_master_le fun s hs => Nat.mul_le_mul_right _ (hbelow s hs)⟩

/-- A write that finds enough free slots never lengthens the master file, whatever its
    `pwrite`s return, exactly if the file reaches over the slots it takes. -/
theorem Quiet.keeps_length_iff (hq : Quiet W ctx) (hroom : RoomFor ctx req)
    (haligned : req.size % blockSize = 0)
    (hfits : (newHashes ctx.index req).length ≤ ctx.index.freeBlockList.length) :
    (∀ io, (DedupBlockFS.writeDedup ctx req io).1.master.length ≤ ctx.master.length) ↔
      ∀ s ∈ ctx.index.freeBlockList.take (newHashes ctx.index req).length,
        (s + 1) * blockSize ≤ ctx.master.length := by
  have hslots : ∀ s, s ∈ missSlots (prepareWrite ctx req).2.1 ↔
      s ∈ ctx.index.freeBlockList.take (newHashes ctx.index req).length := by
    intro s
    rw [missSlots, (prepareWrite_slots hq hroom).1, Nat.sub_eq_zero_of_le hfits, List.range'_zero,
      List.append_nil, Multiset.mem_coe]
  constructor
  · intro hkeeps s hs
    have hbehind := le_length_writeDedup_master hq hroom haligned ((hslots s).mpr hs)
    exact hbehind.trans (hkeeps _)
  · intro hinside io
    have hbound : (DedupBlockFS.writeDedup ctx req io).1.master.length ≤
        max ctx.master.length ctx.master.length :=
      length_writeDedup_master_le fun s hs => hinside s ((hslots s).mp hs)
    rwa [max_self] at hbound

/-! ## The high-water mark of a run -/

/-- The slots a call needs beside those that are freed by then: for a write, the published
    blocks and the distinct new ones. -/
def Op.demand (ctx : Context) : Op → Nat
  | .write req _ =>
    if req.size % blockSize = 0 then
      ctx.index.hashToMaster.keys.length + (newHashes ctx.index req).length
    else 0
  | _ => 0

/-- The sequential runs next to the largest demand of their calls so far. -/
def withHighWater : TransitionSystem (Context × Nat) Op where
  init := (.empty, 0)
  step s op := some ((op.exec s.1).1, max s.2 (op.demand s.1))

/-- The runs in which every call has room. -/
def RoomyMark (s : Context × Nat) (op : Op) (_ : Context × Nat) : Prop := op.HasRoom s.1

/-! Only writes append. -/

omit [Sha512] in
theorem removeBlocksDedupBatch_end (ctx : Context) (path : CString) (startBlock endBlock : Nat) :
    (removeBlocksDedupBatch ctx path startBlock endBlock).nextBlockIndex = ctx.nextBlockIndex ∧
      (removeBlocksDedupBatch ctx path startBlock endBlock).master = ctx.master := by
  unfold removeBlocksDedupBatch
  split <;> exact ⟨rfl, rfl⟩

omit [Sha512] in
theorem xmpUnlink_end (ctx : Context) (path : CString) (res : SyscallResult) :
    (xmpUnlink ctx path res).1.nextBlockIndex = ctx.nextBlockIndex ∧
      (xmpUnlink ctx path res).1.master = ctx.master := by
  unfold xmpUnlink
  split
  · exact ⟨rfl, rfl⟩
  · exact removeBlocksDedupBatch_end ctx path _ _

omit [Sha512] in
theorem xmpTruncate_end (ctx : Context) (path : CString) (size : Int) (res : SyscallResult) :
    (xmpTruncate ctx path size res).1.nextBlockIndex = ctx.nextBlockIndex ∧
      (xmpTruncate ctx path size res).1.master = ctx.master := by
  unfold xmpTruncate
  split
  · exact ⟨rfl, rfl⟩
  · split
    · exact ⟨rfl, rfl⟩
    · rw [truncateSetSize_eq]
      exact removeBlocksDedupBatch_end ctx path _ _

theorem writeDedup_of_unaligned (hunaligned : req.size % blockSize ≠ 0) (io : Nat → PwriteResult) :
    writeDedup ctx req io = (ctx, Errno.neg EOPNOTSUPP) := by
  have hzero : req.size ≠ 0 := by
    intro hzero
    rw [hzero] at hunaligned
    exact hunaligned rfl
  rw [writeDedup, if_neg hzero, if_pos (.inr hunaligned)]

/-- A call raises the end of the master file to its demand, if that is beyond it. -/
theorem exec_next (hq : Quiet W ctx) {op : Op} (hroom : op.HasRoom ctx) :
    (op.exec ctx).1.nextBlockIndex = max ctx.nextBlockIndex (op.demand ctx) := by
  cases op with
  | write req io =>
    by_cases haligned : req.size % blockSize = 0
    · simp only [Op.demand, if_pos haligned]
      exact (hq.storageFirst hroom haligned io).next
    · simp only [Op.demand, if_neg haligned, Nat.max_zero, Op.exec,
        writeDedup_of_unaligned haligned]
  | unlink path res =>
    simp only [Op.demand, Nat.max_zero]
    exact (xmpUnlink_end ctx path res).1
  | truncate path size res =>
    simp only [Op.demand, Nat.max_zero]
    exact (xmpTruncate_end ctx path size res).1

/-- The master file never reaches beyond the slots ever used. -/
theorem length_exec_master_le (hq : Quiet W ctx) {op : Op} (hroom : op.HasRoom ctx)
    (h : ctx.master.length ≤ ctx.nextBlockIndex * blockSize) :
    (op.exec ctx).1.master.length ≤ (op.exec ctx).1.nextBlockIndex * blockSize := by
  cases op with
  | write req io =>
    by_cases haligned : req.size % blockSize = 0
    · have hgrown : ctx.nextBlockIndex ≤ (writeDedup ctx req io).1.nextBlockIndex := by
        rw [(hq.storageFirst hroom haligned io).next]
        exact le_max_left _ _
      refine (length_writeDedup_master_le fun s hs => Nat.mul_le_mul_right _
        (missSlots_prepareWrite_lt hq hroom haligned io s hs)).trans ?_
      exact max_le (h.trans (Nat.mul_le_mul_right blockSize hgrown)) (Nat.le_refl _)
    · rw [Op.exec, writeDedup_of_unaligned haligned]
      exact h
  | unlink path res =>
    obtain ⟨hnext, hmaster⟩ := xmpUnlink_end ctx path res
    rw [Op.exec, hnext, hmaster]
    exact h
  | truncate path size res =>
    obtain ⟨hnext, hmaster⟩ := xmpTruncate_end ctx path size res
    rw [Op.exec, hnext, hmaster]
    exact h

theorem withHighWater_invariant {mark : Nat} (h : withHighWater.Reachable RoomyMark (ctx, mark)) :
    Quiet (fun _ => True) ctx ∧ ctx.nextBlockIndex = mark := by
  apply h.invariant (I := fun s => Quiet (fun _ => True) s.1 ∧ s.1.nextBlockIndex = s.2)
  · exact ⟨.empty, rfl⟩
  · intro s op s' hs hstep hroom
    obtain ⟨hq, hmark⟩ := hs
    obtain rfl := Option.some.inj hstep
    exact ⟨hq.exec hroom op.blocksIn_true,
      (exec_next hq hroom).trans (congrArg (max · _) hmark)⟩

/-- In every state of a sequential run the number of slots ever used is the largest demand
    of its writes, and every further write goes to free slots first. If there are enough of
    them, the write keeps the length of the master file exactly if the slots it takes lie
    inside the file. -/
theorem storage_first {mark : Nat} (h : withHighWater.Reachable RoomyMark (ctx, mark)) :
    ctx.nextBlockIndex = mark ∧
      ∀ req, RoomFor ctx req → req.size % blockSize = 0 →
        (∀ io, StorageFirst ctx req io (newHashes ctx.index req).length) ∧
        ((newHashes ctx.index req).length ≤ ctx.index.freeBlockList.length →
          ((∀ io, (writeDedup ctx req io).1.master.length ≤ ctx.master.length) ↔
            ∀ s ∈ ctx.index.freeBlockList.take (newHashes ctx.index req).length,
              (s + 1) * blockSize ≤ ctx.master.length)) := by
  obtain ⟨hq, hmark⟩ := withHighWater_invariant h
  exact ⟨hmark, fun req hroom haligned =>
    ⟨hq.storageFirst hroom haligned, hq.keeps_length_iff hroom haligned⟩⟩

end

/-! ## Two runs that leave slots free -/

/-- A write of zeros to `a`, which is then unlinked. -/
def zerosUnlinked : List Op :=
  [.write (.zeros pathA 0 1) fun _ => .complete, .unlink pathA (.ok ())]

theorem zerosUnlinked_enabled : ((@withHighWater Sha512.zerosAndOnes).replay
    (fun s op _ => op.roomCheck s.1) (@withHighWater Sha512.zerosAndOnes).init
      zerosUnlinked).isSome := by
  decide +kernel

def afterZerosUnlinked : Context × Nat :=
  ((@withHighWater Sha512.zerosAndOnes).replay (fun s op _ => op.roomCheck s.1)
    (@withHighWater Sha512.zerosAndOnes).init zerosUnlinked).get zerosUnlinked_enabled

theorem afterZerosUnlinked_reachable : (@withHighWater Sha512.zerosAndOnes).Reachable
    (@RoomyMark Sha512.zerosAndOnes) afterZerosUnlinked :=
  .of_replay (fun _ op _ _ hc => @Op.hasRoom_of_roomCheck Sha512.zerosAndOnes _ op hc)
    (Option.some_get zerosUnlinked_enabled).symm

/-- Of the blocks of `mixedRequest` two are new and different, and one slot is free. A block
    of zeros fits into that slot, which lies inside the file. -/
theorem storage_first_of_zerosUnlinked :
    afterZerosUnlinked.1.index.freeBlockList = [0] ∧
      (@newHashes Sha512.zerosAndOnes afterZerosUnlinked.1.index mixedRequest).length = 2 ∧
      afterZerosUnlinked.1.nextBlockIndex = afterZerosUnlinked.2 ∧
      @StorageFirst Sha512.zerosAndOnes afterZerosUnlinked.1 mixedRequest (fun _ => .complete)
        (@newHashes Sha512.zerosAndOnes afterZerosUnlinked.1.index mixedRequest).length ∧
      ∀ io, (@writeDedup Sha512.zerosAndOnes afterZerosUnlinked.1 (.zeros pathB 0 1) io).1.master.length
        ≤ afterZerosUnlinked.1.master.length := by
  let _ := Sha512.zerosAndOnes
  have hmixed : (Op.write mixedRequest fun _ => .complete).HasRoom afterZerosUnlinked.1 :=
    Op.hasRoom_of_roomCheck (by decide +kernel)
  have hzeros : (Op.write (.zeros pathB 0 1) fun _ => .complete).HasRoom afterZerosUnlinked.1 :=
    Op.hasRoom_of_roomCheck (by decide +kernel)
  obtain ⟨hmark, hfirst⟩ := storage_first afterZerosUnlinked_reachable
  obtain ⟨-, hlength⟩ := hfirst (.zeros pathB 0 1) hzeros (by decide)
  exact ⟨by decide +kernel, by decide +kernel, hmark, (hfirst mixedRequest hmixed (by decide)).1 _,
    (hlength (by decide +kernel)).mpr (by decide +kernel)⟩

/-- The first `pwrite` of `mixedRequest` fails, so nothing is written to the two slots it
    has appended. -/
def mixedFailed : List Op := [.write mixedRequest fun _ => .error EIO]

theorem mixedFailed_enabled : ((@withHighWater Sha512.zerosAndOnes).replay
    (fun s op _ => op.roomCheck s.1) (@withHighWater Sha512.zerosAndOnes).init
      mixedFailed).isSome := by
  decide +kernel

def afterMixedFailed : Context × Nat :=
  ((@withHighWater Sha512.zerosAndOnes).replay (fun s op _ => op.roomCheck s.1)
    (@withHighWater Sha512.zerosAndOnes).init mixedFailed).get mixedFailed_enabled

theorem afterMixedFailed_reachable : (@withHighWater Sha512.zerosAndOnes).Reachable
    (@RoomyMark Sha512.zerosAndOnes) afterMixedFailed :=
  .of_replay (fun _ op _ _ hc => @Op.hasRoom_of_roomCheck Sha512.zerosAndOnes _ op hc)
    (Option.some_get mixedFailed_enabled).symm

/-- Both slots are free and the file is empty. A block of zeros goes to slot 1, so the file
    grows by two blocks, although there was a slot for it. -/
theorem not_storage_first : afterMixedFailed.1.index.freeBlockList = [1, 0] ∧
    (@writeDedup Sha512.zerosAndOnes afterMixedFailed.1 (.zeros pathA 0 1)
      fun _ => .complete).1.master.length = 8192 ∧
    ¬∀ s, (@withHighWater Sha512.zerosAndOnes).Reachable (@RoomyMark Sha512.zerosAndOnes) s →
      ∀ req io, @RoomFor Sha512.zerosAndOnes s.1 req → req.size % blockSize = 0 →
        (@newHashes Sha512.zerosAndOnes s.1.index req).length ≤ s.1.index.freeBlockList.length →
        (@writeDedup Sha512.zerosAndOnes s.1 req io).1.master.length ≤ s.1.master.length := by
  let _ := Sha512.zerosAndOnes
  refine ⟨by decide +kernel, by decide +kernel, fun h => ?_⟩
  have hroom : (Op.write (.zeros pathA 0 1) fun _ => .complete).HasRoom afterMixedFailed.1 :=
    Op.hasRoom_of_roomCheck (by decide +kernel)
  have hkept := h afterMixedFailed afterMixedFailed_reachable (.zeros pathA 0 1)
    (fun _ => .complete) hroom (by decide) (by decide +kernel)
  revert hkept
  decide +kernel

end DedupBlockFS
