-- SUMMARY: What `read_dedup` looks up and what its grouped reads put into the output buffer.
import DedupBlockFS.Flush

/-!
# What a read returns

The lookup finds the longest run of mapped blocks from the start of the request on.
The rest of `read_dedup` sorts and groups, which must not show: each block of the
output is the block of the master file in the slot that was looked up for it.
-/

namespace DedupBlockFS

open ByteFile

/-! ## Lookup -/

/-- The objects of the mapped blocks from `block` on, up to `n` of them. -/
def lookupInfos (ix : Index) (path : CString) : (block n : Nat) → List Ptr
  | _, 0 => []
  | block, n + 1 =>
    match ix.lookupByFileBlock path block with
    | none => []
    | some info => info :: lookupInfos ix path (block + 1) n

section
variable {ix : Index} {path : CString} {block n : Nat}

theorem lookupInfos_of_none (h : ix.lookupByFileBlock path block = none) :
    lookupInfos ix path block (n + 1) = [] := by
  simp only [lookupInfos, h]

theorem lookupInfos_of_some {m : Ptr} (h : ix.lookupByFileBlock path block = some m) :
    lookupInfos ix path block (n + 1) = m :: lookupInfos ix path (block + 1) n := by
  simp only [lookupInfos, h]

theorem length_lookupInfos_le : (lookupInfos ix path block n).length ≤ n := by
  induction n generalizing block with
  | zero => exact Nat.le_refl 0
  | succ n ih =>
    cases hl : ix.lookupByFileBlock path block with
    | none =>
      rw [lookupInfos_of_none hl]
      exact Nat.zero_le _
    | some info =>
      rw [lookupInfos_of_some hl]
      exact Nat.succ_le_succ ih

/-- The objects that were looked up are those the blocks are mapped to. -/
theorem lookup_of_lookupInfos {j : Nat} {m : Ptr} (h : (lookupInfos ix path block n)[j]? = some m) :
    ix.lookupByFileBlock path (block + j) = some m := by
  induction n generalizing block j with
  | zero => cases h
  | succ n ih =>
    cases hl : ix.lookupByFileBlock path block with
    | none =>
      rw [lookupInfos_of_none hl] at h
      cases h
    | some info =>
      rw [lookupInfos_of_some hl] at h
      cases j with
      | zero => exact Option.some.inj h ▸ hl
      | succ j =>
        rw [← ih h, show block + (j + 1) = block + 1 + j by omega]

/-- The lookup stops in front of an unmapped block only. -/
theorem lookup_length_lookupInfos (h : (lookupInfos ix path block n).length < n) :
    ix.lookupByFileBlock path (block + (lookupInfos ix path block n).length) = none := by
  induction n generalizing block with
  | zero => cases h
  | succ n ih =>
    cases hl : ix.lookupByFileBlock path block with
    | none =>
      rw [lookupInfos_of_none hl]
      exact hl
    | some info =>
      rw [lookupInfos_of_some hl, List.length_cons] at h ⊢
      rw [show ∀ k, block + (k + 1) = block + 1 + k by omega]
      exact ih (Nat.lt_of_succ_lt_succ h)

/-- Phase 1 pairs each object with the index of its block in the request. -/
theorem lookupPairs_eq (hp : Heap) (startBlock i : Nat) :
    lookupPairs ix hp path startBlock n i =
      ((lookupInfos ix path (startBlock + i) n).zipIdx i).map fun x =>
        { logicalIdx := x.2, masterBlockIndex := (hp.cell x.1).masterBlockIndex } := by
  induction n generalizing i with
  | zero => rfl
  | succ n ih =>
    cases hl : ix.lookupByFileBlock path (startBlock + i) with
    | none =>
      rw [lookupInfos_of_none hl]
      simp only [lookupPairs, hl]
      rfl
    | some info =>
      rw [lookupInfos_of_some hl, List.zipIdx_cons, List.map_cons, Nat.add_assoc, ← ih]
      simp only [lookupPairs, hl]

theorem mem_lookupPairs {hp : Heap} {startBlock : Nat} {p : BlockPair} :
    p ∈ lookupPairs ix hp path startBlock n 0 ↔ ∃ m,
      (lookupInfos ix path startBlock n)[p.logicalIdx]? = some m ∧
        p.masterBlockIndex = (hp.cell m).masterBlockIndex := by
  rw [lookupPairs_eq, List.mem_map]
  constructor
  · rintro ⟨⟨m, j⟩, hmem, rfl⟩
    exact ⟨m, (List.mem_zipIdx_iff_getElem?.mp hmem), rfl⟩
  · rintro ⟨m, hm, hslot⟩
    refine ⟨(m, p.logicalIdx), List.mem_zipIdx_iff_getElem?.mpr hm, ?_⟩
    cases p
    exact congrArg _ hslot.symm

theorem logicalIdx_lookupPairs (hp : Heap) (startBlock : Nat) :
    (lookupPairs ix hp path startBlock n 0).map BlockPair.logicalIdx =
      List.range (lookupInfos ix path startBlock n).length := by
  rw [lookupPairs_eq, List.map_map]
  exact (List.zipIdx_map_snd 0 _).trans (List.range_eq_range' ..).symm

theorem length_lookupPairs (hp : Heap) (startBlock : Nat) :
    (lookupPairs ix hp path startBlock n 0).length =
      (lookupInfos ix path startBlock n).length := by
  rw [lookupPairs_eq, List.length_map, List.length_zipIdx, Nat.add_zero]

/-- After sorting, the pairs still have each index once. -/
theorem logicalIdx_sortPairs (qs : Qsort) (hp : Heap) (startBlock : Nat) :
    ((sortPairs qs (lookupPairs ix hp path startBlock n 0)).map BlockPair.logicalIdx).Perm
      (List.range (lookupInfos ix path startBlock n).length) := by
  rw [← logicalIdx_lookupPairs hp]
  exact (sortPairs_perm qs _).map _

theorem mem_sortPairs {qs : Qsort} {hp : Heap} {startBlock : Nat} {p : BlockPair} :
    p ∈ sortPairs qs (lookupPairs ix hp path startBlock n 0) ↔ ∃ m,
      (lookupInfos ix path startBlock n)[p.logicalIdx]? = some m ∧
        p.masterBlockIndex = (hp.cell m).masterBlockIndex := by
  rw [(sortPairs_perm qs _).mem_iff, mem_lookupPairs]

end

/-! ## Grouped reads -/

/-- The reads for `pairs` turn `buf` into `buf'`: each pair has its block, and the other
    blocks of the buffer are as before. -/
structure Filled (master : List UInt8) (pairs : List BlockPair) (buf buf' : List UInt8) : Prop where
  length : buf'.length = buf.length
  inside : ∀ p ∈ pairs, pread buf' (p.logicalIdx * blockSize) blockSize =
    blockAt master p.masterBlockIndex
  outside : ∀ i ∉ pairs.map BlockPair.logicalIdx, pread buf' (i * blockSize) blockSize =
    pread buf (i * blockSize) blockSize

namespace Filled

variable {master buf buf' buf'' : List UInt8} {pairs pairs' : List BlockPair}

theorem nil : Filled master [] buf buf :=
  ⟨rfl, fun _ h => (List.not_mem_nil h).elim, fun _ _ => rfl⟩

theorem append (h : Filled master pairs buf buf') (h' : Filled master pairs' buf' buf'')
    (hnodup : ((pairs ++ pairs').map BlockPair.logicalIdx).Nodup) :
    Filled master (pairs ++ pairs') buf buf'' := by
  rw [List.map_append, List.nodup_append] at hnodup
  refine ⟨h'.length.trans h.length, fun p hp => ?_, fun i hi => ?_⟩
  · rcases List.mem_append.mp hp with hp | hp
    · rw [h'.outside _ fun hmem => hnodup.2.2 _ (List.mem_map_of_mem hp) _ hmem rfl]
      exact h.inside p hp
    · exact h'.inside p hp
  · rw [List.map_append, List.mem_append, not_or] at hi
    rw [h'.outside i hi.2, h.outside i hi.1]

/-- Copying one block to its place. -/
theorem single {p : BlockPair} (hbuf : (p.logicalIdx + 1) * blockSize ≤ buf.length)
    (hmaster : (p.masterBlockIndex + 1) * blockSize ≤ master.length) :
    Filled master [p] buf
      (memcpy buf (p.logicalIdx * blockSize) (blockAt master p.masterBlockIndex)) := by
  rw [Nat.succ_mul] at hbuf hmaster
  have hlen : (blockAt master p.masterBlockIndex).length = blockSize :=
    length_pread_of_le hmaster
  refine ⟨length_memcpy (by rw [hlen]; exact hbuf), fun q hq => ?_, fun i hi => ?_⟩
  · obtain rfl := List.mem_singleton.mp hq
    have hcopy : pread (memcpy buf (q.logicalIdx * blockSize) (blockAt master q.masterBlockIndex))
        (q.logicalIdx * blockSize + 0) blockSize =
          pread (blockAt master q.masterBlockIndex) 0 blockSize :=
      pread_memcpy_inside (by omega) (by rw [hlen, Nat.zero_add])
    rw [Nat.add_zero] at hcopy
    rw [hcopy, pread, List.drop_zero, List.take_of_length_le hlen.le]
  · rw [List.map_singleton, List.mem_singleton] at hi
    refine pread_memcpy_outside (by omega) ?_
    rw [hlen]
    rcases Nat.lt_or_gt_of_ne hi with h | h
    · exact .inl (by rw [← Nat.succ_mul]; exact Nat.mul_le_mul_right _ h)
    · exact .inr (by rw [← Nat.succ_mul]; exact Nat.mul_le_mul_right _ h)

end Filled

section
variable {master buf masterBuf : List UInt8} {first : BlockPair} {rest pairs : List BlockPair}

/-- The places of all pairs exist, in the master file and in the buffer. -/
def Readable (master buf : List UInt8) (pairs : List BlockPair) : Prop :=
  ∀ p ∈ pairs, (p.masterBlockIndex + 1) * blockSize ≤ master.length ∧
    (p.logicalIdx + 1) * blockSize ≤ buf.length

/-- The scatter copies the right block out of the buffer of the group, if that buffer
    holds the blocks from `minMaster` on. -/
theorem scatterGroup_filled {minMaster : Nat} (hread : Readable master buf pairs)
    (hnodup : (pairs.map BlockPair.logicalIdx).Nodup)
    (hgroup : ∀ p ∈ pairs, pread masterBuf ((p.masterBlockIndex - minMaster) * blockSize)
      blockSize = blockAt master p.masterBlockIndex) :
    Filled master pairs buf (scatterGroup buf masterBuf minMaster pairs) := by
  induction pairs generalizing buf with
  | nil => exact .nil
  | cons p pairs ih =>
    have hp := hread p List.mem_cons_self
    have hone := Filled.single hp.2 hp.1
    have hcons : scatterGroup buf masterBuf minMaster (p :: pairs) = scatterGroup
        (memcpy buf (p.logicalIdx * blockSize) (blockAt master p.masterBlockIndex)) masterBuf
        minMaster pairs := by
      rw [← hgroup p List.mem_cons_self]
      rfl
    rw [hcons]
    have hrest := ih (fun q hq => by
        rw [hone.length]
        exact hread q (List.mem_cons_of_mem _ hq)) (List.nodup_cons.mp hnodup).2
      (fun q hq => hgroup q (List.mem_cons_of_mem _ hq))
    exact hone.append hrest hnodup

theorem groupLength_le (first : BlockPair) (rest : List BlockPair) :
    groupLength first rest ≤ (first :: rest).length :=
  Nat.succ_le_succ (Runs.runLength_le _ _)

/-- The pairs of a group sit in consecutive slots. -/
theorem slot_of_lt_groupLength {j : Nat} {p : BlockPair} (hj : j < groupLength first rest)
    (hp : (first :: rest)[j]? = some p) : p.masterBlockIndex = first.masterBlockIndex + j := by
  cases j with
  | zero => exact Option.some.inj hp ▸ rfl
  | succ j =>
    have hpos := Runs.pos_of_lt_runLength (Nat.lt_of_succ_lt_succ hj) hp
    rw [Option.some.inj hpos]
    omega

/-- The place of a pair inside its group. -/
theorem slot_of_mem_group {p : BlockPair} (hp : p ∈ (first :: rest).take (groupLength first rest)) :
    ∃ j < groupLength first rest, p.masterBlockIndex = first.masterBlockIndex + j := by
  obtain ⟨j, hj⟩ := List.mem_iff_getElem?.mp hp
  rw [List.getElem?_take] at hj
  split at hj
  · exact ⟨j, ‹_›, slot_of_lt_groupLength ‹_› hj⟩
  · cases hj

/-- The block of a pair, taken from the bytes of its group. -/
theorem blockAt_of_group {p : BlockPair}
    (hp : p ∈ (first :: rest).take (groupLength first rest)) :
    pread (pread master (first.masterBlockIndex * blockSize) (groupLength first rest * blockSize))
      ((p.masterBlockIndex - first.masterBlockIndex) * blockSize) blockSize =
        blockAt master p.masterBlockIndex := by
  obtain ⟨j, hlt, hslot⟩ := slot_of_mem_group hp
  rw [hslot, Nat.add_sub_cancel_left, pread_pread, ← Nat.add_mul]
  · rfl
  · rw [← Nat.succ_mul]
    exact Nat.mul_le_mul_right _ hlt

/-- The last pair of a group shows that the whole group is inside the file. -/
theorem group_inside (hread : Readable master buf (first :: rest)) :
    (first.masterBlockIndex + groupLength first rest) * blockSize ≤ master.length := by
  have hle := groupLength_le first rest
  have hpos : 0 < groupLength first rest := Nat.succ_pos _
  have hlt : groupLength first rest - 1 < (first :: rest).length := by omega
  have hslot := slot_of_lt_groupLength (by omega) (List.getElem?_eq_getElem hlt)
  have hlast := (hread _ (List.getElem_mem hlt)).1
  rwa [hslot, show first.masterBlockIndex + (groupLength first rest - 1) + 1 =
    first.masterBlockIndex + groupLength first rest by omega] at hlast

/-- One group is read completely, and right. -/
theorem readGroup_filled (hread : Readable master buf (first :: rest))
    (hnodup : ((first :: rest).map BlockPair.logicalIdx).Nodup) :
    ∃ buf', readGroup master buf first rest = (buf', true) ∧
      Filled master ((first :: rest).take (groupLength first rest)) buf buf' := by
  have hfirst := hread first List.mem_cons_self
  by_cases hone : groupLength first rest = 1
  · have hlen : (blockAt master first.masterBlockIndex).length = blockSize := by
      rw [Nat.succ_mul] at hfirst
      exact length_pread_of_le hfirst.1
    refine ⟨memcpy buf (first.logicalIdx * blockSize) (blockAt master first.masterBlockIndex),
      ?_, ?_⟩
    · simp only [readGroup, hone, if_true]
      exact Prod.ext rfl (decide_eq_true hlen)
    · rw [hone]
      exact .single hfirst.2 hfirst.1
  · have hsize : (pread master (first.masterBlockIndex * blockSize)
        (groupLength first rest * blockSize)).length = groupLength first rest * blockSize :=
      length_pread_of_le (by rw [← Nat.add_mul]; exact group_inside hread)
    refine ⟨scatterGroup buf (pread master (first.masterBlockIndex * blockSize)
      (groupLength first rest * blockSize)) first.masterBlockIndex
        ((first :: rest).take (groupLength first rest)), ?_, ?_⟩
    · simp only [readGroup, if_neg hone]
      rw [if_neg (not_not.mpr hsize)]
    · refine scatterGroup_filled (fun p hp => hread p (List.mem_of_mem_take hp)) ?_
        fun p hp => blockAt_of_group hp
      exact hnodup.sublist ((List.take_sublist _ _).map _)

/-- All groups are read completely, and right. -/
theorem readGroups_filled (hread : Readable master buf pairs)
    (hnodup : (pairs.map BlockPair.logicalIdx).Nodup) :
    ∃ buf', readGroups master buf pairs = (buf', true) ∧ Filled master pairs buf buf' := by
  induction hn : pairs.length using Nat.strong_induction_on generalizing pairs buf with
  | _ n ih =>
    cases pairs with
    | nil => exact ⟨buf, by rw [readGroups], .nil⟩
    | cons first rest =>
      obtain ⟨buf₁, hgroup, hfilled⟩ := readGroup_filled hread hnodup
      have hdrop : rest.drop (groupLength first rest - 1) =
          (first :: rest).drop (groupLength first rest) := rfl
      have hrest : Readable master buf₁ ((first :: rest).drop (groupLength first rest)) := by
          intro p hp
          rw [hfilled.length]
          exact hread p (List.mem_of_mem_drop hp)
      have hlen : ((first :: rest).drop (groupLength first rest)).length < n := by
        have hpos : 0 < groupLength first rest := Nat.succ_pos _
        rw [List.length_drop, List.length_cons, ← hn, List.length_cons]
        omega
      obtain ⟨buf₂, hgroups, hfilled'⟩ := ih _ hlen hrest
        (hnodup.sublist ((List.drop_sublist _ _).map _)) rfl
      refine ⟨buf₂, ?_, ?_⟩
      · rw [readGroups, hgroup, hdrop]
        exact hgroups
      · have happend := hfilled.append hfilled' (by rw [List.take_append_drop]; exact hnodup)
        rwa [List.take_append_drop] at happend

end

/-! ## The whole call -/

section
variable {ctx : Context} {req : ReadRequest}

/-- The objects that a read of `req` looks up. -/
def ReadRequest.infos (req : ReadRequest) (ix : Index) : List Ptr :=
  lookupInfos ix req.path req.startBlock req.numBlocks

/-- If the slots of the mapped blocks hold the blocks `content`, then `read_dedup`
    returns the bytes of all blocks up to the first unmapped one, and no error. -/
theorem readDedup_eq (qs : Qsort) (hpos : req.numBlocks ≠ 0) (haligned : req.size % blockSize = 0)
    {content : Ptr → List UInt8} (hstored : ∀ m ∈ req.infos ctx.index,
      Stored ctx.master (ctx.heap.cell m).masterBlockIndex (content m)) :
    (readDedup qs ctx req).1 = cInt ((req.infos ctx.index).length * blockSize) ∧
      (readDedup qs ctx req).2.length = req.size ∧
      ∀ i m, (req.infos ctx.index)[i]? = some m →
        pread (readDedup qs ctx req).2 (i * blockSize) blockSize = content m := by
  set pairs := lookupPairs ctx.index ctx.heap req.path req.startBlock req.numBlocks 0 with hpairs
  have hlength : pairs.length = (req.infos ctx.index).length := length_lookupPairs _ _
  have hnodup : ((sortPairs qs pairs).map BlockPair.logicalIdx).Nodup :=
    (logicalIdx_sortPairs qs _ _).nodup_iff.mpr List.nodup_range
  have hread : Readable ctx.master req.buf (sortPairs qs pairs) := by
    intro p hp
    obtain ⟨m, hm, hslot⟩ := mem_sortPairs.mp hp
    refine ⟨hslot ▸ (hstored m (List.mem_of_getElem? hm)).1, ?_⟩
    rw [req.size_eq, ← Nat.div_mul_cancel (Nat.dvd_of_mod_eq_zero haligned)]
    refine Nat.mul_le_mul_right _ (Nat.succ_le_of_lt ?_)
    exact (List.getElem?_eq_some_iff.mp hm).1.trans_le length_lookupInfos_le
  obtain ⟨buf, hgroups, hfilled⟩ := readGroups_filled hread hnodup
  have hresult : readDedup qs ctx req = (cInt (pairs.length * blockSize),
      if pairs.length = 0 then req.buf else buf) := by
    unfold readDedup
    rw [if_neg (not_or.mpr ⟨hpos, not_not.mpr haligned⟩), ← hpairs]
    by_cases hnone : pairs.length = 0
    · simp only [hnone, if_true]
      rfl
    · simp only [hnone, if_false, hgroups]
  refine ⟨?_, ?_, fun i m hm => ?_⟩
  · rw [hresult, hlength]
  · rw [hresult]
    dsimp only
    split
    · exact req.size_eq
    · exact hfilled.length.trans req.size_eq
  · have hlt := (List.getElem?_eq_some_iff.mp hm).1
    rw [hresult, hlength]
    dsimp only
    rw [if_neg (by omega)]
    have hpair : (⟨i, (ctx.heap.cell m).masterBlockIndex⟩ : BlockPair) ∈ sortPairs qs pairs :=
      mem_sortPairs.mpr ⟨m, hm, rfl⟩
    exact (hfilled.inside _ hpair).trans (hstored m (List.mem_of_getElem? hm)).2

/-- A request all of whose blocks are mapped looks up one object for each of them. -/
theorem ReadRequest.length_infos {ix : Index} (h : ∀ i < req.numBlocks,
    ix.lookupByFileBlock req.path (req.startBlock + i) ≠ none) :
    (req.infos ix).length = req.numBlocks := by
  refine Nat.le_antisymm length_lookupInfos_le (Nat.le_of_not_lt fun hlt => ?_)
  exact h _ hlt (lookup_length_lookupInfos hlt)

end

end DedupBlockFS
