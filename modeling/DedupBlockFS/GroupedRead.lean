-- SUMMARY: Reading in groups copies every looked-up block to its place once, and stays inside its two buffers.
import DedupBlockFS.Reading

/-!
# Grouped reading

Phases 2 to 5 of `read_dedup` against one `pread` for each block. `readAccesses` lists
what the phases do to their two buffers, the output buffer of the caller and
`master_buf`, in order. Its copies to the output buffer are the blocks one by one, in the
order of the sorted pairs.
-/

namespace DedupBlockFS

open ByteFile

/-- An access to a buffer: bytes put into the output buffer, the bytes that a `pread`
    fills `master_buf` with, and bytes taken from there. -/
inductive Access where
  | copy (off : Nat) (data : List UInt8)
  | fill (len : Nat)
  | take (off len : Nat)

/-- The effect on the output buffer. -/
def Access.apply (buf : List UInt8) : Access → List UInt8
  | .copy off data => memcpy buf off data
  | .fill _ | .take _ _ => buf

/-- What is put into the output buffer, and where. -/
def Access.toCopy : Access → Option (Nat × List UInt8)
  | .copy off data => some (off, data)
  | .fill _ | .take _ _ => none

/-- The access stays inside `size` bytes of `master_buf`. -/
def Access.Inside (size : Nat) : Access → Prop
  | .copy _ _ => True
  | .fill len => len ≤ size
  | .take off len => off + len ≤ size

/-- The accesses of `readGroup`. -/
def groupAccesses (master : List UInt8) (first : BlockPair) (rest : List BlockPair) :
    List Access :=
  let blocksInGroup := groupLength first rest
  if blocksInGroup = 1 then
    [.copy (first.logicalIdx * blockSize) (pread master (first.masterBlockIndex * blockSize) blockSize)]
  else
    let readSize := blocksInGroup * blockSize
    let masterBuf := pread master (first.masterBlockIndex * blockSize) readSize
    .fill readSize :: ((first :: rest).take blocksInGroup).flatMap fun p =>
      let src := (p.masterBlockIndex - first.masterBlockIndex) * blockSize
      [.take src blockSize, .copy (p.logicalIdx * blockSize) (pread masterBuf src blockSize)]

/-- The accesses of `readGroups`. -/
def readAccesses (master : List UInt8) : List BlockPair → List Access
  | [] => []
  | first :: rest =>
    groupAccesses master first rest ++
      readAccesses master (rest.drop (groupLength first rest - 1))
termination_by pairs => pairs.length
decreasing_by simp only [List.length_drop, List.length_cons]; omega

/-- The copy of one block to its place. -/
def BlockPair.toCopy (master : List UInt8) (p : BlockPair) : Nat × List UInt8 :=
  (p.logicalIdx * blockSize, blockAt master p.masterBlockIndex)

section
variable {master buf : List UInt8} {first : BlockPair} {rest pairs : List BlockPair}

/-- The copies of a group are those of its blocks, in order. -/
theorem groupAccesses_copies : (groupAccesses master first rest).filterMap Access.toCopy =
    ((first :: rest).take (groupLength first rest)).map (BlockPair.toCopy master) := by
  simp only [groupAccesses]
  split
  · rename_i hone
    rw [hone]
    rfl
  · rw [List.filterMap_cons]
    simp only [Access.toCopy, List.filterMap_flatMap]
    rw [List.map_eq_flatMap]
    apply List.flatMap_congr
    intro p hp
    simp only [List.filterMap_cons, Access.toCopy, List.filterMap_nil, blockAt_of_group hp]
    rfl

/-- The accesses of a group stay inside as much of `master_buf` as the group has blocks. -/
theorem groupAccesses_inside {size : Nat} (hsize : (first :: rest).length * blockSize ≤ size) :
    ∀ a ∈ groupAccesses master first rest, a.Inside size := by
  have hlen := (Nat.mul_le_mul_right blockSize (groupLength_le first rest)).trans hsize
  intro a ha
  simp only [groupAccesses] at ha
  split at ha
  · rw [List.mem_singleton.mp ha]
    trivial
  · rcases List.mem_cons.mp ha with rfl | ha
    · exact hlen
    · obtain ⟨p, hp, ha⟩ := List.mem_flatMap.mp ha
      obtain ⟨j, hlt, hslot⟩ := slot_of_mem_group hp
      rcases List.mem_cons.mp ha with rfl | ha
      · have hfit := Nat.mul_le_mul_right blockSize (Nat.succ_le_of_lt hlt)
        rw [Nat.succ_mul] at hfit
        simp only [Access.Inside, hslot, Nat.add_sub_cancel_left]
        exact hfit.trans hlen
      · rw [List.mem_singleton.mp ha]
        trivial

/-- The group as its accesses leave the output buffer. -/
theorem readGroup_eq_accesses (hread : Readable master buf (first :: rest)) :
    readGroup master buf first rest =
      ((groupAccesses master first rest).foldl Access.apply buf, true) := by
  simp only [readGroup, groupAccesses]
  split
  · have hfirst := (hread first List.mem_cons_self).1
    rw [Nat.succ_mul] at hfirst
    exact Prod.ext rfl (decide_eq_true (length_pread_of_le hfirst))
  · have hsize : (pread master (first.masterBlockIndex * blockSize)
        (groupLength first rest * blockSize)).length = groupLength first rest * blockSize :=
      length_pread_of_le (by rw [← Nat.add_mul]; exact group_inside hread)
    rw [if_neg (not_not.mpr hsize), List.foldl_cons, List.foldl_flatMap]
    rfl

/-- The copies of all groups are those of the blocks, in order. -/
theorem readAccesses_copies : (readAccesses master pairs).filterMap Access.toCopy =
    pairs.map (BlockPair.toCopy master) := by
  fun_induction readAccesses master pairs with
  | case1 => rfl
  | case2 first rest ih =>
    rw [List.filterMap_append, groupAccesses_copies, ih, ← List.map_append]
    congr 1
    exact List.take_append_drop (groupLength first rest) (first :: rest)

theorem readAccesses_inside {size : Nat} (hsize : pairs.length * blockSize ≤ size) :
    ∀ a ∈ readAccesses master pairs, a.Inside size := by
  fun_induction readAccesses master pairs with
  | case1 => exact fun a ha => (List.not_mem_nil ha).elim
  | case2 first rest ih =>
    intro a ha
    rcases List.mem_append.mp ha with ha | ha
    · exact groupAccesses_inside hsize a ha
    · apply ih _ a ha
      refine (Nat.mul_le_mul_right _ ?_).trans hsize
      rw [List.length_drop, List.length_cons]
      omega

theorem readGroups_eq_accesses (hread : Readable master buf pairs)
    (hnodup : (pairs.map BlockPair.logicalIdx).Nodup) :
    readGroups master buf pairs = ((readAccesses master pairs).foldl Access.apply buf, true) := by
  fun_induction readAccesses master pairs generalizing buf with
  | case1 => rw [readGroups, List.foldl_nil]
  | case2 first rest ih =>
    have hdrop : rest.drop (groupLength first rest - 1) =
        (first :: rest).drop (groupLength first rest) := rfl
    have hgroup := readGroup_eq_accesses hread
    obtain ⟨buf₁, hfilled, hlength⟩ := readGroup_filled hread hnodup
    have hlen : ((groupAccesses master first rest).foldl Access.apply buf).length = buf.length := by
      rw [← hlength.length, ← show _ = buf₁ from congrArg Prod.fst (hgroup.symm.trans hfilled)]
    rw [readGroups, hgroup, List.foldl_append]
    apply ih
    · intro p hp
      rw [hlen]
      exact hread p (List.mem_cons_of_mem _ (List.mem_of_mem_drop hp))
    · rw [hdrop]
      exact hnodup.sublist ((List.drop_sublist _ _).map _)

end

/-! ## From the slots to the output buffer -/

/-- The pairs of phase 1 for blocks in the given slots. -/
def pairsOf (slots : List Nat) : List BlockPair :=
  slots.zipIdx.map fun x => { logicalIdx := x.2, masterBlockIndex := x.1 }

theorem lookupPairs_eq_pairsOf (ix : Index) (hp : Heap) (path : CString) (startBlock n : Nat) :
    lookupPairs ix hp path startBlock n 0 = pairsOf
      ((lookupInfos ix path startBlock n).map fun m => (hp.cell m).masterBlockIndex) := by
  rw [lookupPairs_eq, pairsOf, List.zipIdx_map, List.map_map]
  rfl

theorem mem_pairsOf {slots : List Nat} {p : BlockPair} :
    p ∈ pairsOf slots ↔ slots[p.logicalIdx]? = some p.masterBlockIndex := by
  obtain ⟨i, s⟩ := p
  rw [pairsOf, List.mem_map]
  constructor
  · rintro ⟨⟨s', i'⟩, hmem, heq⟩
    cases heq
    exact List.mem_zipIdx_iff_getElem?.mp hmem
  · intro h
    exact ⟨(s, i), List.mem_zipIdx_iff_getElem?.mpr h, rfl⟩

theorem logicalIdx_pairsOf (slots : List Nat) :
    (pairsOf slots).map BlockPair.logicalIdx = List.range slots.length := by
  rw [pairsOf, List.map_map]
  exact (List.zipIdx_map_snd 0 _).trans (List.range_eq_range' ..).symm

/-- The accesses turn `buf` into `buf'`: the block of each slot is put into its place, in one
    copy each; nothing changes behind these places; and `master_buf` needs no more bytes
    than they have. -/
structure ReadsBlocks (master : List UInt8) (slots : List Nat) (accesses : List Access)
    (buf buf' : List UInt8) : Prop where
  block : ∀ i s, slots[i]? = some s → pread buf' (i * blockSize) blockSize = blockAt master s
  behind : buf'.drop (slots.length * blockSize) = buf.drop (slots.length * blockSize)
  effect : buf' = accesses.foldl Access.apply buf
  copies : (accesses.filterMap Access.toCopy).Perm
    (slots.zipIdx.map fun x => (x.2 * blockSize, blockAt master x.1))
  inside : ∀ a ∈ accesses, a.Inside (slots.length * blockSize)

/-- Whatever slots have been looked up, in whatever order `qsort` leaves equal ones: phases
    2 to 5 read them as if block by block. -/
theorem grouped_read_eq (qs : Qsort) (master buf : List UInt8) (slots : List Nat)
    (hmaster : ∀ s ∈ slots, (s + 1) * blockSize ≤ master.length)
    (hbuf : slots.length * blockSize ≤ buf.length) :
    ∃ buf', readGroups master buf (sortPairs qs (pairsOf slots)) = (buf', true) ∧
      ReadsBlocks master slots (readAccesses master (sortPairs qs (pairsOf slots))) buf buf' := by
  set sorted := sortPairs qs (pairsOf slots) with hsorted
  set accesses := readAccesses master sorted with haccesses
  have hperm : sorted.Perm (pairsOf slots) := sortPairs_perm qs _
  have hlength : sorted.length = slots.length := by
    rw [hperm.length_eq, pairsOf, List.length_map, List.length_zipIdx]
  have hmem : ∀ p ∈ sorted, slots[p.logicalIdx]? = some p.masterBlockIndex := fun p hp =>
    mem_pairsOf.mp (hperm.mem_iff.mp hp)
  have hnodup : (sorted.map BlockPair.logicalIdx).Nodup := by
    rw [(hperm.map _).nodup_iff, logicalIdx_pairsOf]
    exact List.nodup_range
  have hlt : ∀ p ∈ sorted, (p.logicalIdx + 1) * blockSize ≤ slots.length * blockSize :=
    fun p hp => Nat.mul_le_mul_right _ (List.getElem?_eq_some_iff.mp (hmem p hp)).1
  have hread : Readable master buf sorted := fun p hp =>
    ⟨hmaster _ (List.mem_of_getElem? (hmem p hp)), (hlt p hp).trans hbuf⟩
  have heffect := readGroups_eq_accesses hread hnodup
  obtain ⟨buf', hgroups, hfilled⟩ := readGroups_filled hread hnodup
  have hbuf' : buf' = accesses.foldl Access.apply buf :=
    congrArg Prod.fst (hgroups.symm.trans heffect)
  have hcopies : accesses.filterMap Access.toCopy = sorted.map (BlockPair.toCopy master) :=
    readAccesses_copies
  refine ⟨buf', hgroups, fun i s hs => ?_, ?_, hbuf', ?_, ?_⟩
  · have hpair : (⟨i, s⟩ : BlockPair) ∈ sorted := hperm.mem_iff.mpr (mem_pairsOf.mpr hs)
    have hinside := hfilled.inside _ hpair
    dsimp only at hinside
    exact hinside
  · apply eq_of_byteAt
    · rw [List.length_drop, List.length_drop, hfilled.length]
    · intro p _
      have hbehind : (slots.length * blockSize + p) / blockSize ∉
          sorted.map BlockPair.logicalIdx := by
        rw [(hperm.map _).mem_iff, logicalIdx_pairsOf, List.mem_range, not_lt,
          Nat.le_div_iff_mul_le (by decide)]
        exact Nat.le_add_right _ _
      have hblock := congrArg (fun b => byteAt b ((slots.length * blockSize + p) % blockSize))
        (hfilled.outside _ hbehind)
      rw [byteAt_pread (Nat.mod_lt _ (by decide)), byteAt_pread (Nat.mod_lt _ (by decide)),
        Nat.mul_comm, Nat.div_add_mod] at hblock
      rwa [byteAt_drop, byteAt_drop]
  · rw [hcopies]
    refine (hperm.map _).trans (.of_eq ?_)
    rw [pairsOf, List.map_map]
    rfl
  · exact readAccesses_inside (Nat.mul_le_mul_right _ hlength.le)

/-- Three of four blocks share a slot. -/
theorem grouped_read_eq_of_sharedSlot :
    ∃ buf', readGroups (List.replicate 8192 7) (List.replicate 20480 0)
        (sortPairs .mergeSort (pairsOf [1, 1, 0, 1])) = (buf', true) ∧
      ReadsBlocks (List.replicate 8192 7) [1, 1, 0, 1]
        (readAccesses (List.replicate 8192 7) (sortPairs .mergeSort (pairsOf [1, 1, 0, 1])))
        (List.replicate 20480 0) buf' := by
  apply grouped_read_eq
  · rw [List.length_replicate]
    decide
  · rw [List.length_replicate]
    decide

end DedupBlockFS
