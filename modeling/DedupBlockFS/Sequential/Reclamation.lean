-- SUMMARY: Exact deduplication: one object for each content in use, and nothing is left once every file is unlinked.
import DedupBlockFS.Sequential.Failure

/-!
# Deduplication and reclamation

Between two calls `hash_to_master` is determined by `file_to_master`: it holds the objects
of the mapped blocks and nothing else. A file without a size has no blocks, so unlinking
every file that has one empties all tables and frees every slot.
-/

namespace DedupBlockFS

open ByteFile
open Table (values)

section
variable [Sha512] {W : List UInt8 → Prop} {ctx : Context}

/-- The hash under which an object is published is that of the block in its slot. -/
theorem Quiet.hash_blockAt (hq : Quiet W ctx) {m : Ptr} (hm : ctx.index.Published m) :
    hash (blockAt ctx.master (ctx.heap.cell m).masterBlockIndex) = (ctx.heap.cell m).hash := by
  obtain ⟨b, -, hb, hstored⟩ := hq.intact m hm
  rw [hstored.2, hb]

/-- There is one object for each content that some file block has, and no other. -/
theorem Quiet.lookupByHash_iff (hq : Quiet W ctx) {x : Hash} {m : Ptr} :
    ctx.index.lookupByHash x = some m ↔ ∃ k, ctx.index.fileToMaster.lookup k = some m ∧
      hash (blockAt ctx.master (ctx.heap.cell m).masterBlockIndex) = x := by
  constructor
  · intro hx
    have hpub := Table.mem_values_of_lookup hx
    obtain ⟨k, hk⟩ := Table.mem_values.mp (hq.mem_values hpub)
    exact ⟨k, hk, (hq.hash_blockAt hpub).trans (hq.accounts.keyed hx)⟩
  · rintro ⟨k, hk, rfl⟩
    have hpub := hq.mapped m (Table.mem_values_of_lookup hk)
    rw [hq.hash_blockAt hpub]
    exact hq.accounts.lookup_hash hpub

/-- Unlink files one after the other. -/
theorem Quiet.unlinks (hq : Quiet W ctx) (res : CString → SyscallResult) (paths : List CString) :
    Quiet W (execOps ctx (paths.map fun p => .unlink p (res p))) ∧
      ∀ q, (execOps ctx (paths.map fun p => .unlink p (res p))).index.fileToSizes.lookup q =
        if q ∈ paths then none else ctx.index.fileToSizes.lookup q := by
  induction paths generalizing ctx with
  | nil => exact ⟨hq, fun q => rfl⟩
  | cons p ps ih =>
    obtain ⟨hq₁, hsizes₁, -⟩ := hq.xmpUnlink p (res p)
    obtain ⟨hq₂, hsizes₂⟩ := ih hq₁
    refine ⟨hq₂, fun q => (hsizes₂ q).trans ?_⟩
    rw [hsizes₁, ← ite_or]
    exact if_congr (by rw [List.mem_cons, or_comm]) rfl rfl

/-- A quiet state without sizes has empty tables, and all its slots are free. -/
theorem Quiet.of_no_sizes (hq : Quiet W ctx) (hsizes : ∀ q, ctx.index.fileToSizes.lookup q = none) :
    ctx.index.hashToMaster = ∅ ∧ ctx.index.fileToMaster = ∅ ∧ ctx.index.fileToSizes = ∅ ∧
      ctx.index.freeBlockList.Perm (List.range ctx.nextBlockIndex) := by
  have hfiles : ctx.index.fileToMaster = ∅ := Table.eq_empty_of_lookup fun ⟨p, b⟩ => by
    rw [Option.eq_none_iff_forall_ne_some]
    intro m hm
    obtain ⟨size, hsize, -⟩ := hq.sized p b m hm
    rw [hsizes p] at hsize
    cases hsize
  have hhashes : ctx.index.hashToMaster = ∅ := Table.eq_empty_of_lookup fun x => by
    rw [Option.eq_none_iff_forall_ne_some]
    intro m hm
    have hmem := hq.mem_values (Table.mem_values_of_lookup hm)
    rw [hfiles] at hmem
    exact Multiset.notMem_zero m hmem
  have hslots := hq.slots
  rw [hhashes, Table.values_empty, Multiset.map_zero, add_zero] at hslots
  exact ⟨hhashes, hfiles, Table.eq_empty_of_lookup hsizes, Multiset.coe_eq_coe.mp hslots⟩

/-- After any sequential run there is exactly one object for each content in use, every
    mapped block lies below the size of its file, and unlinking all files that have a
    size leaves empty tables and every slot free. -/
theorem dedup_exact (h : sequential.Reachable Roomy ctx) :
    (∀ x m, ctx.index.lookupByHash x = some m ↔ ∃ k, ctx.index.fileToMaster.lookup k = some m ∧
      hash (blockAt ctx.master (ctx.heap.cell m).masterBlockIndex) = x) ∧
    Sized ctx.index ∧
    ∀ (paths : List CString) (res : CString → SyscallResult),
      (∀ q, ctx.index.fileToSizes.lookup q ≠ none → q ∈ paths) →
      let ctx' := execOps ctx (paths.map fun p => .unlink p (res p))
      ctx'.index.hashToMaster = ∅ ∧ ctx'.index.fileToMaster = ∅ ∧ ctx'.index.fileToSizes = ∅ ∧
        ctx'.index.freeBlockList.Perm (List.range ctx'.nextBlockIndex) := by
  have hq := Quiet.reachable_any h
  refine ⟨fun x m => hq.lookupByHash_iff, hq.sized, fun paths res hall => ?_⟩
  obtain ⟨hq', hsizes⟩ := hq.unlinks res paths
  refine hq'.of_no_sizes fun q => (hsizes q).trans ?_
  split
  · rfl
  · rename_i hq
    exact not_not.mp fun hne => hq (hall q hne)

end

/-- A block of zeros in `a`; a block of zeros and two of ones in `b`. -/
def bothWritten : List Op :=
  [.write (.zeros pathA 0 1) fun _ => .complete, .write mixedRequest fun _ => .complete]

theorem bothWritten_enabled : ((@sequential Sha512.zerosAndOnes).replay
    (fun ctx op _ => op.roomCheck ctx) (@sequential Sha512.zerosAndOnes).init
      bothWritten).isSome := by
  decide +kernel

def afterBothWritten : Context :=
  ((@sequential Sha512.zerosAndOnes).replay (fun ctx op _ => op.roomCheck ctx)
    (@sequential Sha512.zerosAndOnes).init bothWritten).get bothWritten_enabled

theorem afterBothWritten_reachable :
    (@sequential Sha512.zerosAndOnes).Reachable (@Roomy Sha512.zerosAndOnes) afterBothWritten :=
  .of_replay (fun _ op _ _ hc => @Op.hasRoom_of_roomCheck Sha512.zerosAndOnes _ op hc)
    (Option.some_get bothWritten_enabled).symm

/-- Four blocks of two files share two objects, and both slots are free in the end. -/
theorem dedup_exact_of_bothWritten :
    afterBothWritten.index.hashToMaster.keys.length = 2 ∧
      afterBothWritten.index.fileToMaster.keys.length = 4 ∧ Sized afterBothWritten.index ∧
      let ctx' := @execOps Sha512.zerosAndOnes afterBothWritten
        [.unlink pathA (.ok ()), .unlink pathB (.ok ())]
      ctx'.index.hashToMaster = ∅ ∧ ctx'.index.fileToMaster = ∅ ∧ ctx'.index.fileToSizes = ∅ ∧
        ctx'.index.freeBlockList.Perm (List.range ctx'.nextBlockIndex) := by
  let _ := Sha512.zerosAndOnes
  have hkeys : ∀ q ∈ afterBothWritten.index.fileToSizes.keys, q ∈ [pathA, pathB] := by
    decide +kernel
  obtain ⟨-, hsized, hreclaim⟩ := dedup_exact afterBothWritten_reachable
  refine ⟨by decide +kernel, by decide +kernel, hsized,
    hreclaim [pathA, pathB] (fun _ => .ok ()) fun q hq => hkeys q ?_⟩
  exact not_not.mp fun hnot => hq (AList.lookup_eq_none.mpr hnot)

end DedupBlockFS
