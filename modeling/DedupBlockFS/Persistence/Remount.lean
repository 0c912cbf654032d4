-- SUMMARY: Runs of any number of mounts, and that no slot is handed out twice as long as the master file is long enough at each unmount.
import DedupBlockFS.Persistence.Reload
import DedupBlockFS.Sequential.StorageFirst

/-!
# Mounting again

`xmp_destroy` saves the index, and `xmp_init` loads it and takes the end of the slots from the
size of the master file, which is not the end that was reached: slots that a failed write has
appended are in the free list, but no block of them may be in the file.
-/

namespace DedupBlockFS

open ByteFile
open Table (values)

/-- What is left of a mount: the files of the index, and the master file. -/
structure Disk where
  files : IndexFiles
  master : List UInt8

/-- `xmp_init`. -/
def xmpInit (env : LoadEnv) (disk : Disk) : Option Context := do
  let (index, heap) ← indexInit env disk.files
  return { index := index
           heap := heap
           nextBlockIndex := disk.master.length / blockSize
           master := disk.master }

/-- `xmp_destroy`. -/
def xmpDestroy (env : SaveEnv) (ctx : Context) : Option Disk := do
  let files ← indexDestroy env ctx.index ctx.heap
  return { files := files, master := ctx.master }

/-- A call, or the end of a mount and the begin of the next one. -/
inductive MountOp where
  | call (op : Op)
  | remount (save : SaveEnv) (load : LoadEnv)

/-! ## The first mount -/

/-- Nothing is loaded from an empty file. -/
theorem loadAll_nil {β : Type} (answers : Nat → Nat) (nothing : β)
    (load : Nat → BufferedReader → Option β) : loadAll [] answers nothing load = some nothing := by
  have hread : ((openReader [] answers).bufferedRead sizeofInt).1 = none := by
    rw [BufferedReader.bufferedRead]
    simp [sizeofInt, openReader, BufferedReader.init, BufferedReader.ready,
      BufferedReader.refillReadBuffer, pread]
  rw [loadAll]
  split
  · rfl
  · rename_i heq
    rw [heq] at hread
    cases hread

theorem resolveIndices_empty {K : Type} [DecidableEq K] (order : HashOrder) :
    resolveIndices order [] (∅ : Table K Nat) = ∅ := by
  have hnil := (order.perm (∅ : Table K Nat)).eq_nil
  rw [resolveIndices, hnil]
  rfl

/-- The first mount, which finds no files. -/
theorem xmpInit_nothing (env : LoadEnv) :
    xmpInit env { files := fun _ => [], master := [] } = some .empty := by
  simp only [xmpInit, indexInit, gslistLoad, ghashLoad, loadAll_nil, Option.bind_eq_bind,
    Option.bind_some, Option.pure_def]
  rw [show (allocAll []).2 = [] from rfl, resolveIndices_empty, resolveIndices_empty]
  rfl

/-! ## Other objects -/

section
variable [Sha512] {W : List UInt8 → Prop} {ctx : Context} {f : Ptr → Ptr} {ix' : Index} {hp' : Heap}

/-- Nothing that a quiet state promises depends on the addresses of its objects. -/
theorem Quiet.renamed (hq : Quiet W ctx) (h : Renamed ctx.index ctx.heap f ix' hp') :
    Quiet W { ctx with index := ix', heap := hp' } := by
  have hpublished : values ix'.hashToMaster = (values ctx.index.hashToMaster).map f :=
    Table.values_of_lookup_map h.hashes
  have hmapped : values ix'.fileToMaster = (values ctx.index.fileToMaster).map f :=
    Table.values_of_lookup_map fun k => h.blocks k.path k.offset
  refine ⟨⟨?_, fun {x m'} hm' => ?_, fun m' hm' => ?_, fun m' => ?_⟩, fun x => ?_, fun m' hm' => ?_,
    fun m' hm' => ?_, fun path b m' hm' => ?_⟩
  · refine hq.accounts.balanced.rename (fun m hm m' hm' => h.inj m m' hm hm') hq.mapped hpublished
      rfl hmapped (fun m hm => ?_) (fun m hm => ?_) (congrArg Multiset.ofList h.free) rfl
    · exact congrArg MasterInfo.refcount (h.cells m hm).1
    · exact congrArg MasterInfo.masterBlockIndex (h.cells m hm).1
  · have hx : ix'.hashToMaster.lookup x = (ctx.index.hashToMaster.lookup x).map f := h.hashes x
    rw [hx] at hm'
    obtain ⟨m, hm, rfl⟩ := Option.map_eq_some_iff.mp hm'
    show (hp'.cell (f m)).hash = x
    rw [(h.cells m (Table.mem_values_of_lookup hm)).1]
    exact hq.accounts.keyed hm
  · rw [hmapped] at hm'
    obtain ⟨m, hm, rfl⟩ := Multiset.mem_map.mp hm'
    exact (h.cells m (hq.mapped m hm)).2
  · show (hp'.cell m').refcount < 2 ^ 32
    rcases h.noOther m' with hempty | ⟨m, hm⟩
    · rw [hempty]
      exact Nat.two_pow_pos 32
    · rw [hm]
      exact hq.accounts.counterLt m
  · rw [hmapped, Multiset.map_map]
    have hhash : (values ctx.index.fileToMaster).map ((fun m => (hp'.cell m).hash) ∘ f) =
        (values ctx.index.fileToMaster).map fun m => (ctx.heap.cell m).hash :=
      Multiset.map_congr rfl fun m hm =>
        congrArg MasterInfo.hash (h.cells m (hq.mapped m hm)).1
    rw [hhash]
    exact hq.few x
  · rw [Index.Published, hpublished] at hm'
    obtain ⟨m, hm, rfl⟩ := Multiset.mem_map.mp hm'
    show ∃ b, W b ∧ hash b = (hp'.cell (f m)).hash ∧
      Stored ctx.master (hp'.cell (f m)).masterBlockIndex b
    rw [(h.cells m hm).1]
    exact hq.intact m hm
  · rw [hmapped] at hm'
    obtain ⟨m, hm, rfl⟩ := Multiset.mem_map.mp hm'
    rw [Index.Published, hpublished]
    exact Multiset.mem_map_of_mem f (hq.mapped m hm)
  · rw [h.sizes]
    rw [h.blocks] at hm'
    obtain ⟨m, hm, -⟩ := Option.map_eq_some_iff.mp hm'
    exact hq.sized path b m hm

/-- The master file does not change between two mounts. -/
theorem remount_eq (hq : Quiet W ctx) (save : SaveEnv) (load : LoadEnv)
    (hfits : FitsWords ctx.index ctx.heap) (hwrite : ∀ file k, save.answers file k = .complete)
    (hread : ∀ file k, 0 < load.answers file k) :
    ∃ f ix' hp', Renamed ctx.index ctx.heap f ix' hp' ∧
      (xmpDestroy save ctx).bind (xmpInit load) = some { ctx with
        index := ix', heap := hp', nextBlockIndex := ctx.master.length / blockSize } := by
  obtain ⟨files, ix', hp', hsave, hload, hrenamed⟩ :=
    renamed_of_destroy_init save load hq.mapped hfits hwrite hread
  refine ⟨_, ix', hp', hrenamed, ?_⟩
  simp only [xmpDestroy, hsave, Option.bind_eq_bind, Option.bind_some, Option.pure_def, xmpInit,
    hload]

end

/-! ## Slots -/

/-- The slots of the published blocks. -/
def publishedSlots (ctx : Context) : Multiset Nat :=
  (values ctx.index.hashToMaster).map fun m => (ctx.heap.cell m).masterBlockIndex

/-- Every slot that is free or holds a published block lies before the end, and no slot is in
    two places. -/
structure SlotsOnce (ctx : Context) : Prop where
  nodup : ((ctx.index.freeBlockList : Multiset Nat) + publishedSlots ctx).Nodup
  lt : ∀ slot ∈ (ctx.index.freeBlockList : Multiset Nat) + publishedSlots ctx,
    slot < ctx.nextBlockIndex

/-- What `allocate_batch_storage_first` hands out is not in use, and nothing is handed out
    twice. -/
theorem SlotsOnce.allocate {ctx : Context} (h : SlotsOnce ctx) (missCount : Nat) :
    (allocateBatchStorageFirst ctx missCount).2.Nodup ∧
      ∀ slot ∈ (allocateBatchStorageFirst ctx missCount).2, slot ∉ publishedSlots ctx := by
  obtain ⟨hfree, -, hdisjoint⟩ := Multiset.nodup_add.mp h.nodup
  rw [allocateBatchStorageFirst_slots]
  refine ⟨List.nodup_append.mpr ⟨hfree.sublist (List.take_sublist _ _), List.nodup_range', ?_⟩, ?_⟩
  · intro slot hslot new hnew
    have hlt := h.lt slot (Multiset.mem_add.mpr (.inl (List.mem_of_mem_take hslot)))
    have hge := (List.mem_range'_1.mp hnew).1
    exact Nat.ne_of_lt (Nat.lt_of_lt_of_le hlt hge)
  · intro slot hslot hpub
    rcases List.mem_append.mp hslot with hold | hnew
    · exact Multiset.disjoint_left.mp hdisjoint (List.mem_of_mem_take hold) hpub
    · have hlt := h.lt slot (Multiset.mem_add.mpr (.inr hpub))
      exact Nat.not_le_of_lt hlt (List.mem_range'_1.mp hnew).1

section
variable [Sha512] {W : List UInt8 → Prop} {ctx ctx' : Context}

theorem Quiet.slotsOnce (hq : Quiet W ctx) : SlotsOnce ctx where
  nodup := by
    have hnodup := hq.accounts.slots_nodup
    rwa [add_zero] at hnodup
  lt slot hslot := by
    rw [← Multiset.mem_range, ← hq.slots]
    exact hslot

/-- Slot numbers are below the end that the size of the master file tells exactly if the last
    slot ever used is in the file. -/
theorem Quiet.slotsOnce_iff {f : Ptr → Ptr} {ix' : Index} {hp' : Heap} (hq : Quiet W ctx)
    (h : Renamed ctx.index ctx.heap f ix' hp')
    (hend : ctx.master.length ≤ ctx.nextBlockIndex * blockSize) :
    SlotsOnce { ctx with
        index := ix', heap := hp', nextBlockIndex := ctx.master.length / blockSize } ↔
      ctx.nextBlockIndex ≤ ctx.master.length / blockSize := by
  have hle : ctx.master.length / blockSize ≤ ctx.nextBlockIndex :=
    Nat.div_le_of_le_mul (by rwa [Nat.mul_comm])
  constructor
  · intro hones
    by_contra hlt
    have hpos : 0 < ctx.nextBlockIndex := Nat.zero_lt_of_lt (Nat.lt_of_not_le hlt)
    -- the last slot is not in the file, hence it is free
    have hbeyond : ctx.nextBlockIndex - 1 < ctx.master.length / blockSize := by
      rcases hq.slot_lt_iff.mp (Nat.sub_lt hpos Nat.one_pos) with hfree | ⟨m, hm, hslot⟩
      · refine hones.lt _ (Multiset.mem_add.mpr (.inl ?_))
        rw [h.free]
        exact hfree
      · obtain ⟨b, -, -, hstored, -⟩ := hq.intact m hm
        rw [← hslot]
        exact (Nat.le_div_iff_mul_le (by decide)).mpr hstored
    exact hlt (Nat.le_of_pred_lt hbeyond)
  · intro hge
    rw [Nat.le_antisymm hle hge]
    exact (hq.renamed h).slotsOnce

/-! ## Any number of mounts -/

/-- Calls and remounts one after the other, from the first mount. -/
def mounts : TransitionSystem Context MountOp where
  init := .empty
  step ctx e :=
    match e with
    | .call op => some (op.exec ctx).1
    | .remount save load => (xmpDestroy save ctx).bind (xmpInit load)

/-- A call has room. At a remount the metadata are written completely, and read. -/
def MountOp.Complete (ctx : Context) : MountOp → Prop
  | .call op => op.HasRoom ctx
  | .remount save load => FitsWords ctx.index ctx.heap ∧
      (∀ file k, save.answers file k = .complete) ∧ ∀ file k, 0 < load.answers file k

omit [Sha512] in
/-- At a remount every slot ever used is in the master file. -/
def MountOp.KeepsEnd (ctx : Context) : MountOp → Prop
  | .call _ => True
  | .remount _ _ => ctx.nextBlockIndex ≤ ctx.master.length / blockSize

/-- The runs of complete steps. -/
def Completely (ctx : Context) (e : MountOp) (_ : Context) : Prop := e.Complete ctx

/-- Those in which the slots keep their end. -/
def KeepingEnds (ctx : Context) (e : MountOp) (_ : Context) : Prop :=
  e.Complete ctx ∧ e.KeepsEnd ctx

/-- A call is a step of a sequential run, and a remount only renames the objects. -/
theorem Quiet.mounts_step (hq : Quiet (fun _ => True) ctx)
    (hend : ctx.master.length ≤ ctx.nextBlockIndex * blockSize) {e : MountOp}
    (hstep : mounts.step ctx e = some ctx') (hcomplete : e.Complete ctx) (hkeeps : e.KeepsEnd ctx) :
    Quiet (fun _ => True) ctx' ∧ ctx'.master.length ≤ ctx'.nextBlockIndex * blockSize := by
  cases e with
  | call op =>
    obtain rfl := Option.some.inj hstep
    exact ⟨hq.exec hcomplete op.blocksIn_true, length_exec_master_le hq hcomplete hend⟩
  | remount save load =>
    obtain ⟨hfits, hwrite, hread⟩ := hcomplete
    obtain ⟨f, ix', hp', hrenamed, heq⟩ := remount_eq hq save load hfits hwrite hread
    obtain rfl := Option.some.inj (heq.symm.trans hstep)
    have hnext : ctx.master.length / blockSize = ctx.nextBlockIndex :=
      Nat.le_antisymm (Nat.div_le_of_le_mul (by rwa [Nat.mul_comm])) hkeeps
    rw [hnext]
    exact ⟨hq.renamed hrenamed, hend⟩

theorem quiet_mounts (h : mounts.Reachable KeepingEnds ctx) :
    Quiet (fun _ => True) ctx ∧ ctx.master.length ≤ ctx.nextBlockIndex * blockSize := by
  apply h.invariant (I := fun ctx => Quiet (fun _ => True) ctx ∧
    ctx.master.length ≤ ctx.nextBlockIndex * blockSize)
  · exact ⟨.empty, Nat.zero_le _⟩
  · intro ctx e ctx' hinv hstep hP
    exact hinv.1.mounts_step hinv.2 hstep hP.1 hP.2

/-- In every state of a run in which every slot ever used is in the master file whenever it is
    unmounted, no slot is in two places, and none is handed out while it is in use. The first
    remount at which a slot is missing from the file brings a free slot beyond the end. -/
theorem slots_once_across_mounts (h : mounts.Reachable KeepingEnds ctx) :
    SlotsOnce ctx ∧
    (∀ missCount, (allocateBatchStorageFirst ctx missCount).2.Nodup ∧
      ∀ slot ∈ (allocateBatchStorageFirst ctx missCount).2, slot ∉ publishedSlots ctx) ∧
    ∀ save load ctx', mounts.step ctx (.remount save load) = some ctx' →
      (MountOp.remount save load).Complete ctx →
        (SlotsOnce ctx' ↔ ctx.nextBlockIndex ≤ ctx.master.length / blockSize) := by
  obtain ⟨hq, hend⟩ := quiet_mounts h
  refine ⟨hq.slotsOnce, hq.slotsOnce.allocate, fun save load ctx' hstep hcomplete => ?_⟩
  obtain ⟨hfits, hwrite, hread⟩ := hcomplete
  obtain ⟨f, ix', hp', hrenamed, heq⟩ := remount_eq hq save load hfits hwrite hread
  obtain rfl := Option.some.inj (heq.symm.trans hstep)
  exact hq.slotsOnce_iff hrenamed hend

end

/-- A write of zeros that fails, and one that gets the slot of the first. -/
def zerosRepeated : List MountOp :=
  [.call (.write (.zeros pathA 0 1) fun _ => .error EIO),
    .call (.write (.zeros pathA 0 1) fun _ => .complete)]

def MountOp.roomCheck (ctx : Context) : MountOp → Bool
  | .call op => op.roomCheck ctx
  | .remount _ _ => false

theorem zerosRepeated_enabled : ((@mounts Sha512.zerosAndOnes).replay
    (fun ctx e _ => e.roomCheck ctx) (@mounts Sha512.zerosAndOnes).init zerosRepeated).isSome := by
  decide +kernel

def afterZerosRepeated : Context :=
  ((@mounts Sha512.zerosAndOnes).replay (fun ctx e _ => e.roomCheck ctx)
    (@mounts Sha512.zerosAndOnes).init zerosRepeated).get zerosRepeated_enabled

theorem afterZerosRepeated_reachable :
    (@mounts Sha512.zerosAndOnes).Reachable (@KeepingEnds Sha512.zerosAndOnes)
      afterZerosRepeated := by
  let _ := Sha512.zerosAndOnes
  refine .of_replay (fun ctx e _ _ hc => ?_) (Option.some_get zerosRepeated_enabled).symm
  cases e with
  | call op => exact ⟨op.hasRoom_of_roomCheck hc, trivial⟩
  | remount save load => cases hc

theorem remountZeros_complete : @MountOp.Complete Sha512.zerosAndOnes afterZerosRepeated
    (.remount bytewiseSave bytewiseLoad) :=
  ⟨fitsWords_of_fitsCheck (by decide +kernel), fun _ _ => rfl, fun _ _ => Nat.one_pos⟩

/-- The next mount. -/
theorem remountZeros_enabled : ((@mounts Sha512.zerosAndOnes).step afterZerosRepeated
    (.remount bytewiseSave bytewiseLoad)).isSome := by
  let _ := Sha512.zerosAndOnes
  obtain ⟨hfits, hwrite, hread⟩ := remountZeros_complete
  obtain ⟨_, _, _, -, heq⟩ := remount_eq (quiet_mounts afterZerosRepeated_reachable).1 _ _
    hfits hwrite hread
  exact Option.isSome_of_eq_some heq

def afterRemount : Context :=
  ((@mounts Sha512.zerosAndOnes).step afterZerosRepeated
    (.remount bytewiseSave bytewiseLoad)).get remountZeros_enabled

theorem slots_once_across_mounts_of_zerosRepeated : SlotsOnce afterRemount ∧
    (∀ missCount, (allocateBatchStorageFirst afterRemount missCount).2.Nodup ∧
      ∀ slot ∈ (allocateBatchStorageFirst afterRemount missCount).2,
        slot ∉ publishedSlots afterRemount) ∧
    ∀ save load ctx',
      (@mounts Sha512.zerosAndOnes).step afterRemount (.remount save load) = some ctx' →
        @MountOp.Complete Sha512.zerosAndOnes afterRemount (.remount save load) →
          (SlotsOnce ctx' ↔
            afterRemount.nextBlockIndex ≤ afterRemount.master.length / blockSize) := by
  let _ := Sha512.zerosAndOnes
  have hkeeps : (MountOp.remount bytewiseSave bytewiseLoad).KeepsEnd afterZerosRepeated := by
    unfold MountOp.KeepsEnd
    decide +kernel
  have hremount : mounts.Run KeepingEnds afterZerosRepeated afterRemount :=
    .single (Option.some_get remountZeros_enabled).symm ⟨remountZeros_complete, hkeeps⟩
  exact slots_once_across_mounts (afterZerosRepeated_reachable.trans hremount)

/-- The first write of zeros fails. Its slot is in the free list, and after a remount it is
    also the end of the slots, so that the next two new blocks both get it. -/
theorem not_slots_once_across_mounts : ∃ ctx,
    (@mounts Sha512.zerosAndOnes).Reachable (@Completely Sha512.zerosAndOnes) ctx ∧
      ctx.index.freeBlockList = [0] ∧ ctx.nextBlockIndex = 0 ∧ ¬SlotsOnce ctx ∧
        (allocateBatchStorageFirst ctx 2).2 = [0, 0] := by
  let _ := Sha512.zerosAndOnes
  set failed : Op := .write (.zeros pathA 0 1) fun _ => .error EIO with hfailed
  set ctx₁ := (failed.exec .empty).1 with hctx₁
  have hroom : failed.HasRoom .empty := Op.hasRoom_of_roomCheck (by decide +kernel)
  have hq : Quiet (fun _ => True) ctx₁ := Quiet.empty.exec hroom fun _ _ => trivial
  have hfits : FitsWords ctx₁.index ctx₁.heap := fitsWords_of_fitsCheck (by decide +kernel)
  have hfree : ctx₁.index.freeBlockList = [0] := by decide +kernel
  have hmaster : ctx₁.master.length / blockSize = 0 := by decide +kernel
  obtain ⟨f, ix', hp', hrenamed, heq⟩ := remount_eq hq bytewiseSave bytewiseLoad hfits
    (fun _ _ => rfl) fun _ _ => Nat.one_pos
  set ctx₂ : Context := { ctx₁ with
    index := ix', heap := hp', nextBlockIndex := ctx₁.master.length / blockSize } with hctx₂
  have hfree₂ : ctx₂.index.freeBlockList = [0] := hrenamed.free.trans hfree
  refine ⟨ctx₂, ?_, hfree₂, hmaster, fun hones => ?_, ?_⟩
  · have hwrite : mounts.Run Completely .empty ctx₁ :=
      .single (show mounts.step .empty (.call failed) = some ctx₁ from rfl) hroom
    have hremount : mounts.step ctx₁ (.remount bytewiseSave bytewiseLoad) = some ctx₂ := heq
    exact hwrite.trans (.single hremount ⟨hfits, fun _ _ => rfl, fun _ _ => Nat.one_pos⟩)
  · have hlt := hones.lt 0 (Multiset.mem_add.mpr (.inl (by simp [hfree₂])))
    rw [show ctx₂.nextBlockIndex = 0 from hmaster] at hlt
    exact Nat.lt_irrefl 0 hlt
  · rw [allocateBatchStorageFirst_slots, hfree₂, show ctx₂.nextBlockIndex = 0 from hmaster]
    rfl

end DedupBlockFS
