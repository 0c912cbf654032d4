-- SUMMARY: Phase 2 of `read_dedup`: the loops of `insertion_sort`, and what the choice of the sort can change.
import DedupBlockFS.GroupedRead
import DedupBlockFS.Lib.InPlaceSort

/-!
# Sorted reading

Up to `INSERTION_SORT_THRESHOLD` pairs are sorted in place by `insertion_sort`, more of them
by `qsort`, which may put pairs with equal slots in any order. Neither the threshold nor that
order can be seen from outside: the `pread`s depend on the slots only.
-/

namespace DedupBlockFS

open ByteFile
open InPlaceSort (SortsStably)

/-! ## insertion_sort -/

/-- `insertion_sort` as it runs on the array; `none` stands for an access outside of it. -/
def insertionSortInPlace (arr : List BlockPair) (n : Nat) : Option (List BlockPair) :=
  InPlaceSort.insertionSort BlockPair.masterBlockIndex arr n

theorem insertFromRight_reverse (tmp : BlockPair) (sorted : List BlockPair) :
    (insertFromRight tmp sorted.reverse).reverse =
      InPlaceSort.insertRight BlockPair.masterBlockIndex tmp sorted := by
  induction sorted using List.reverseRecOn with
  | nil => rfl
  | append_singleton sorted x ih =>
    rw [List.reverse_append, List.reverse_singleton, List.singleton_append, insertFromRight,
      InPlaceSort.insertRight]
    by_cases hgreater : x.masterBlockIndex > tmp.masterBlockIndex
    · rw [if_pos hgreater, List.reverse_cons, ih, InPlaceSort.kept_concat_of_lt hgreater,
        InPlaceSort.moved_concat_of_lt hgreater, InPlaceSort.insertRight, List.append_assoc]
      rfl
    · have hle : x.masterBlockIndex ≤ tmp.masterBlockIndex := Nat.le_of_not_gt hgreater
      rw [if_neg hgreater, InPlaceSort.kept_concat_of_le hle, InPlaceSort.moved_concat_of_le hle,
        List.reverse_cons, List.reverse_cons, List.reverse_reverse]

theorem insertionSort_eq_sort (arr : List BlockPair) :
    insertionSort arr = InPlaceSort.sort BlockPair.masterBlockIndex arr := by
  have hfold : arr.foldl (fun sorted tmp => insertFromRight tmp sorted) [] =
      (InPlaceSort.sort BlockPair.masterBlockIndex arr).reverse := by
    induction arr using List.reverseRecOn with
    | nil => rfl
    | append_singleton arr tmp ih =>
      rw [List.foldl_concat, ih, InPlaceSort.sort_concat, ← insertFromRight_reverse,
        List.reverse_reverse]
  rw [insertionSort, hfold, List.reverse_reverse]

/-- Merge sort keeps pairs with equal slots in their order. -/
theorem mergeSort_sortsStably (arr : List BlockPair) :
    SortsStably BlockPair.masterBlockIndex arr (Qsort.mergeSort.sort arr) := by
  refine ⟨Qsort.mergeSort.sorted arr, fun k => ?_⟩
  have hsame : (arr.filter (·.masterBlockIndex = k)).Pairwise
      fun a b => decide (a.masterBlockIndex ≤ b.masterBlockIndex) = true := by
    refine List.pairwise_filter.mpr (List.pairwise_of_forall fun a b ha hb => ?_)
    simp only [decide_eq_true_eq] at ha hb ⊢
    exact (ha.trans hb.symm).le
  have hsub := List.sublist_mergeSort (fun a b c => by simp only [decide_eq_true_eq]; omega)
    (fun a b => by simp only [Bool.or_eq_true, decide_eq_true_eq]; omega) hsame
    List.filter_sublist
  have hfilter := hsub.filter (·.masterBlockIndex = k)
  rw [List.filter_filter] at hfilter
  simp only [Bool.and_self] at hfilter
  exact (hfilter.eq_of_length
    ((Qsort.mergeSort.perm arr).filter (·.masterBlockIndex = k)).length_eq.symm).symm

/-- The loops of `insertion_sort` stay inside the array. They leave the first `n` pairs in
    the order of their slots, pairs with equal slots in the order that they had, as merge
    sort does, and the pairs behind them alone. -/
theorem insertionSortInPlace_eq {arr : List BlockPair} {n : Nat} (hn : n ≤ arr.length) :
    insertionSortInPlace arr n = some (insertionSort (arr.take n) ++ arr.drop n) ∧
      insertionSort (arr.take n) = Qsort.mergeSort.sort (arr.take n) ∧
      SortsStably BlockPair.masterBlockIndex (arr.take n) (insertionSort (arr.take n)) := by
  have hstable := InPlaceSort.sort_sortsStably BlockPair.masterBlockIndex (arr.take n)
  rw [← insertionSort_eq_sort] at hstable
  refine ⟨?_, hstable.unique (mergeSort_sortsStably _), hstable⟩
  have hloops := InPlaceSort.insertionSort_append BlockPair.masterBlockIndex
    (arr.take n) (arr.drop n)
  rwa [List.take_append_drop, List.length_take_of_le hn, ← insertionSort_eq_sort] at hloops

/-- The first four of five pairs, which are in the slots 3, 1, 3 and 1. -/
theorem insertionSortInPlace_eq_of_sharedSlots :
    insertionSortInPlace (pairsOf [3, 1, 3, 1, 0]) 4 =
        some [⟨1, 1⟩, ⟨3, 1⟩, ⟨0, 3⟩, ⟨2, 3⟩, ⟨4, 0⟩] ∧
      SortsStably BlockPair.masterBlockIndex ((pairsOf [3, 1, 3, 1, 0]).take 4)
        (insertionSort ((pairsOf [3, 1, 3, 1, 0]).take 4)) := by
  have h := insertionSortInPlace_eq (show 4 ≤ (pairsOf [3, 1, 3, 1, 0]).length by decide)
  exact ⟨h.1.trans (by decide), h.2.2⟩

/-! ## The preads -/

/-- The `pread` of the offset and length `r` gets all the bytes it asks for. -/
def Complete (master : List UInt8) (r : Nat × Nat) : Prop := (pread master r.1 r.2).length = r.2

instance (master : List UInt8) : DecidablePred (Complete master) := fun _ =>
  inferInstanceAs (Decidable (_ = _))

/-- The `pread`s of phases 3 to 5, each with its offset and its length. There are none after
    an incomplete one. -/
def readPreads (master : List UInt8) : List BlockPair → List (Nat × Nat)
  | [] => []
  | first :: rest =>
    let r := (first.masterBlockIndex * blockSize, groupLength first rest * blockSize)
    r :: if Complete master r
      then readPreads master (rest.drop (groupLength first rest - 1)) else []
termination_by pairs => pairs.length
decreasing_by simp only [List.length_drop, List.length_cons]; omega

/-- The same from the slots alone. -/
def slotPreads (master : List UInt8) : List Nat → List (Nat × Nat)
  | [] => []
  | first :: rest =>
    let blocksInGroup := Runs.runLength some first rest + 1
    let r := (first * blockSize, blocksInGroup * blockSize)
    r :: if Complete master r then slotPreads master (rest.drop (blocksInGroup - 1)) else []
termination_by slots => slots.length
decreasing_by simp only [List.length_drop, List.length_cons]; omega

section
variable {master buf buf' buf'' : List UInt8} {first : BlockPair}
  {rest pairs pairs' : List BlockPair}

theorem groupLength_eq (first : BlockPair) (rest : List BlockPair) : groupLength first rest =
    Runs.runLength some first.masterBlockIndex (rest.map BlockPair.masterBlockIndex) + 1 := by
  rw [groupLength, Runs.runLength_map]

theorem readPreads_eq : readPreads master pairs =
    slotPreads master (pairs.map BlockPair.masterBlockIndex) := by
  fun_induction readPreads master pairs with
  | case1 => rw [List.map_nil, slotPreads]
  | case2 first rest r ih =>
    rw [List.map_cons, slotPreads, ← List.map_drop, ← groupLength_eq]
    refine congrArg (_ :: ·) ?_
    split
    · exact ih
    · rfl

/-- The `pread`s depend on the slots only, not on where their blocks go. -/
theorem readPreads_congr (h : pairs.map BlockPair.masterBlockIndex =
    pairs'.map BlockPair.masterBlockIndex) : readPreads master pairs = readPreads master pairs' := by
  rw [readPreads_eq, readPreads_eq, h]

variable (master buf first rest) in
theorem readGroup_complete : (readGroup master buf first rest).2 =
    decide (Complete master (first.masterBlockIndex * blockSize,
      groupLength first rest * blockSize)) := by
  simp only [readGroup, Complete]
  split
  · rename_i hone
    simp only [hone, Nat.one_mul]
  · split
    · rename_i hshort
      exact (decide_eq_false hshort).symm
    · rename_i hwhole
      exact (decide_eq_true (not_not.mp hwhole)).symm

variable (master buf pairs) in
/-- The reads succeed if all `pread`s do. -/
theorem readGroups_complete : (readGroups master buf pairs).2 =
    decide (∀ r ∈ readPreads master pairs, Complete master r) := by
  induction pairs using readPreads.induct generalizing buf with
  | case1 =>
    rw [readGroups, readPreads]
    rfl
  | case2 first rest ih =>
    have hgroup := readGroup_complete master buf first rest
    rw [readGroups, readPreads]
    rcases hread : readGroup master buf first rest with ⟨buf₁, whole⟩
    rw [hread] at hgroup
    cases whole with
    | true =>
      have hwhole := of_decide_eq_true hgroup.symm
      simp only [List.forall_mem_cons, hwhole, true_and, if_true]
      exact ih buf₁
    | false =>
      have hshort := of_decide_eq_false hgroup.symm
      simp only [List.forall_mem_cons, hshort, false_and, decide_false]

/-- Then the slots of all pairs are inside the master file. -/
theorem inside_of_complete (h : ∀ r ∈ readPreads master pairs, Complete master r) :
    ∀ p ∈ pairs, (p.masterBlockIndex + 1) * blockSize ≤ master.length := by
  fun_induction readPreads master pairs with
  | case1 => exact fun p hp => (List.not_mem_nil hp).elim
  | case2 first rest r ih =>
    obtain ⟨hwhole, hrest⟩ := List.forall_mem_cons.mp h
    rw [if_pos hwhole] at hrest
    intro p hp
    rw [← List.take_append_drop (groupLength first rest) (first :: rest)] at hp
    rcases List.mem_append.mp hp with hgroup | hlater
    · obtain ⟨j, hlt, hslot⟩ := slot_of_mem_group hgroup
      have hlen : (pread master (first.masterBlockIndex * blockSize)
        (groupLength first rest * blockSize)).length = groupLength first rest * blockSize := hwhole
      have hfit := Nat.mul_le_mul_right blockSize (Nat.succ_le_of_lt hlt)
      rw [length_pread] at hlen
      rw [Nat.succ_mul] at hfit
      rw [hslot, Nat.succ_mul, Nat.add_mul]
      have hpos : 0 < blockSize := by decide
      omega
    · exact ih hrest p hlater

/-- Whatever order the pairs were read in, the buffer is the same. -/
theorem Filled.unique (h : Filled master pairs buf buf') (h' : Filled master pairs' buf buf'')
    (hperm : pairs.Perm pairs') : buf' = buf'' := by
  refine eq_of_byteAt (h.length.trans h'.length.symm) fun p _ => ?_
  have hblock : pread buf' (p / blockSize * blockSize) blockSize =
      pread buf'' (p / blockSize * blockSize) blockSize := by
    by_cases hin : p / blockSize ∈ pairs.map BlockPair.logicalIdx
    · obtain ⟨q, hq, hidx⟩ := List.mem_map.mp hin
      rw [← hidx, h.inside q hq, h'.inside q (hperm.mem_iff.mp hq)]
    · rw [h.outside _ hin, h'.outside _ fun hin' => hin ((hperm.map _).mem_iff.mpr hin')]
  have hbyte := congrArg (fun b => byteAt b (p % blockSize)) hblock
  rwa [byteAt_pread (Nat.mod_lt _ (by decide)), byteAt_pread (Nat.mod_lt _ (by decide)),
    Nat.mul_comm, Nat.div_add_mod] at hbyte

/-- Neighbouring `pread`s in the order of their slots: the second one starts with the block that
    the first one has ended with, which occurs twice, or leaves a gap. It never starts where
    the first one ends. -/
def Separate (r r' : Nat × Nat) : Prop := r'.1 + blockSize = r.1 + r.2 ∨ r.1 + r.2 < r'.1

/-- In the order of the slots there is no smaller one behind the end of a group. -/
theorem runLength_next {prev : Nat} {slots : List Nat} (hsorted : (prev :: slots).Pairwise (· ≤ ·))
    {s : Nat} (hs : (slots.drop (Runs.runLength some prev slots)).head? = some s) :
    s = prev + Runs.runLength some prev slots ∨ prev + Runs.runLength some prev slots + 1 < s := by
  induction slots generalizing prev with
  | nil => cases hs
  | cons x slots ih =>
    obtain ⟨hle, hrest⟩ := List.pairwise_cons.mp hsorted
    rw [Runs.runLength] at hs ⊢
    by_cases hnext : some x = some (prev + 1)
    · rw [if_pos hnext] at hs ⊢
      rw [List.drop_succ_cons] at hs
      obtain rfl := Option.some.inj hnext
      rcases ih hrest hs with h | h
      · exact .inl (by omega)
      · exact .inr (by omega)
    · rw [if_neg hnext] at hs ⊢
      have hx := hle x List.mem_cons_self
      have hne : x ≠ prev + 1 := fun h => hnext (congrArg some h)
      obtain rfl : x = s := Option.some.inj hs
      omega

theorem head?_slotPreads (master : List UInt8) (slots : List Nat) :
    ((slotPreads master slots).head?).map Prod.fst = slots.head?.map (· * blockSize) := by
  cases slots with
  | nil => rw [slotPreads]; rfl
  | cons first rest => rw [slotPreads]; rfl

/-- A group ends only where the next slot does not follow. -/
theorem slotPreads_separate {slots : List Nat} (hsorted : slots.Pairwise (· ≤ ·)) :
    (slotPreads master slots).IsChain Separate := by
  fun_induction slotPreads master slots with
  | case1 => exact .nil
  | case2 first rest blocksInGroup r ih =>
    split
    · have hrest := (List.pairwise_cons.mp hsorted).2
      refine List.isChain_cons.mpr ⟨fun r' hr' => ?_, ih (hrest.sublist (List.drop_sublist _ _))⟩
      have hhead := head?_slotPreads master (rest.drop (blocksInGroup - 1))
      rw [Option.mem_def.mp hr', Option.map_some] at hhead
      obtain ⟨s, hs, hoffset⟩ := Option.map_eq_some_iff.mp hhead.symm
      unfold Separate
      rw [← hoffset, ← Nat.add_mul, ← Nat.succ_mul]
      rcases runLength_next hsorted hs with hagain | hgap
      · exact .inl (congrArg (· * blockSize) (by omega))
      · exact .inr (Nat.mul_lt_mul_of_pos_right (by omega) (by decide))
    · exact .singleton _

end

/-! ## The whole call -/

/-- `read_dedup` with `sort` for its phase 2. -/
def readDedupWith (sort : List BlockPair → List BlockPair) (ctx : Context) (req : ReadRequest) :
    Int × List UInt8 :=
  if req.numBlocks = 0 ∨ req.size % blockSize ≠ 0 then (Errno.neg EOPNOTSUPP, req.buf) else
  let pairs := lookupPairs ctx.index ctx.heap req.path req.startBlock req.numBlocks 0
  if pairs.length = 0 then (0, req.buf) else
  match readGroups ctx.master req.buf (sort pairs) with
  | (buf, false) => (Errno.neg EIO, buf)
  | (buf, true) => (cInt (pairs.length * blockSize), buf)

/-- The `pread`s of that call. -/
def preadsWith (sort : List BlockPair → List BlockPair) (ctx : Context) (req : ReadRequest) :
    List (Nat × Nat) :=
  if req.numBlocks = 0 ∨ req.size % blockSize ≠ 0 then []
  else readPreads ctx.master
    (sort (lookupPairs ctx.index ctx.heap req.path req.startBlock req.numBlocks 0))

/-- Phase 2 is a `qsort` itself, whatever the number of pairs. -/
def Qsort.phase2 (qs : Qsort) : Qsort where
  sort := sortPairs qs
  perm := sortPairs_perm qs
  sorted arr := by
    unfold sortPairs
    split
    · rw [insertionSort_eq_sort]
      exact (InPlaceSort.sort_sortsStably _ arr).sorted
    · exact qs.sorted arr

theorem readDedup_eq_with (qs : Qsort) (ctx : Context) (req : ReadRequest) :
    readDedup qs ctx req = readDedupWith qs.phase2.sort ctx req := rfl

/-- All `qsort`s give the slots in the same order. -/
theorem Qsort.slots_eq (qs qs' : Qsort) (pairs : List BlockPair) :
    (qs.sort pairs).map BlockPair.masterBlockIndex =
      (qs'.sort pairs).map BlockPair.masterBlockIndex := by
  refine List.Perm.eq_of_pairwise (fun a b _ _ => Nat.le_antisymm)
    (List.pairwise_map.mpr (qs.sorted pairs)) (List.pairwise_map.mpr (qs'.sorted pairs)) ?_
  exact ((qs.perm pairs).trans (qs'.perm pairs).symm).map _

/-- Whatever the state is, even if the master file is too short: with `sort` of any `qsort` in
    place of phase 2, threshold and all, `read_dedup` issues the same `pread`s and returns the
    same value; it leaves the same bytes in the buffer unless that value is `-EIO`. And no
    `pread` that it issues starts where the one before it ends. -/
theorem sort_unobservable (qs qs' : Qsort) (ctx : Context) (req : ReadRequest) :
    preadsWith qs'.sort ctx req = preadsWith qs.phase2.sort ctx req ∧
      (preadsWith qs.phase2.sort ctx req).IsChain Separate ∧
      (readDedupWith qs'.sort ctx req).1 = (readDedup qs ctx req).1 ∧
      ((readDedup qs ctx req).1 ≠ Errno.neg EIO →
        readDedupWith qs'.sort ctx req = readDedup qs ctx req) := by
  rw [readDedup_eq_with]
  unfold preadsWith readDedupWith
  by_cases hbad : req.numBlocks = 0 ∨ req.size % blockSize ≠ 0
  · simp only [if_pos hbad]
    exact ⟨trivial, .nil, trivial, fun _ => trivial⟩
  simp only [if_neg hbad]
  set pairs := lookupPairs ctx.index ctx.heap req.path req.startBlock req.numBlocks 0 with hpairs
  have hpreads : readPreads ctx.master (qs'.sort pairs) =
      readPreads ctx.master (qs.phase2.sort pairs) :=
    readPreads_congr (Qsort.slots_eq qs' qs.phase2 pairs)
  refine ⟨hpreads, ?_, ?_⟩
  · rw [readPreads_eq]
    exact slotPreads_separate (List.pairwise_map.mpr (qs.phase2.sorted pairs))
  split
  · exact ⟨rfl, fun _ => rfl⟩
  have hcomplete := fun qs'' : Qsort =>
    readGroups_complete ctx.master req.buf (qs''.sort pairs)
  by_cases hall : ∀ r ∈ readPreads ctx.master (qs.phase2.sort pairs), Complete ctx.master r
  · -- every pair is read completely, in either order
    have hread : ∀ qs'' : Qsort, (∀ r ∈ readPreads ctx.master (qs''.sort pairs),
        Complete ctx.master r) → ∃ buf, readGroups ctx.master req.buf (qs''.sort pairs) =
          (buf, true) ∧ Filled ctx.master (qs''.sort pairs) req.buf buf := by
      intro qs'' hall
      refine readGroups_filled (fun p hp => ⟨inside_of_complete hall p hp, ?_⟩) ?_
      · obtain ⟨m, hm, -⟩ := mem_lookupPairs.mp ((qs''.perm pairs).mem_iff.mp hp)
        rw [req.size_eq]
        refine le_trans (Nat.mul_le_mul_right _ (Nat.succ_le_of_lt ?_)) (Nat.div_mul_le_self _ _)
        exact (List.getElem?_eq_some_iff.mp hm).1.trans_le length_lookupInfos_le
      · rw [((qs''.perm pairs).map _).nodup_iff, hpairs, logicalIdx_lookupPairs]
        exact List.nodup_range
    obtain ⟨buf, hgroups, hfilled⟩ := hread qs.phase2 hall
    obtain ⟨buf', hgroups', hfilled'⟩ := hread qs' (hpreads ▸ hall)
    obtain rfl := hfilled.unique hfilled'
      ((qs.phase2.perm pairs).trans (qs'.perm pairs).symm)
    rw [hgroups, hgroups']
    exact ⟨rfl, fun _ => rfl⟩
  · have hshort := (hcomplete qs.phase2).trans (decide_eq_false hall)
    have hshort' := (hcomplete qs').trans (decide_eq_false (hpreads ▸ hall))
    rcases hgroups : readGroups ctx.master req.buf (qs.phase2.sort pairs) with ⟨buf, whole⟩
    rcases hgroups' : readGroups ctx.master req.buf (qs'.sort pairs) with ⟨buf', whole'⟩
    rw [hgroups] at hshort
    rw [hgroups'] at hshort'
    obtain rfl : whole = false := hshort
    obtain rfl : whole' = false := hshort'
    exact ⟨rfl, fun hne => absurd rfl hne⟩

end DedupBlockFS
