-- SUMMARY: What writes, removals, unlinks and truncates that run alone do to the contents of the files.
import DedupBlockFS.Sequential.LoneWrite

/-!
# Calls one after the other

Each call takes a quiet state to a quiet state. What it means is told by `contents`, the
hash of every mapped block: pointers, counters and slots no longer appear.
-/

namespace DedupBlockFS

open ByteFile
open Table (values)

/-- The hash of the content of a file block, if the block is mapped. -/
def contents (ctx : Context) (k : BlockIndice) : Option Hash :=
  (ctx.index.fileToMaster.lookup k).map fun m => (ctx.heap.cell m).hash

section
variable [Sha512]
variable {W : List UInt8 → Prop} {ctx ctx' : Context} {req : WriteRequest} {plan : List PlanEntry}
  {path : CString} {k : BlockIndice}

/-! ## Writing -/

/-- A write that has rolled back. -/
theorem Underway.failed {rc : Int} (hq : Quiet W ctx) (h : Underway W ctx ctx' req (.done rc)) :
    Quiet W ctx' ∧ ∀ k, contents ctx' k = contents ctx k := by
  have hfiles := h.untouched.fileToMaster
  have hsizes := h.untouched.fileToSizes
  have hsized : Sized ctx'.index :=
    hq.sized.mono (fun q => by rw [hsizes]) fun q b => (mapped_congr hfiles).mp
  refine ⟨h.ledger.quiet rfl rfl rfl (fun m hm => ?_) hsized, fun k => ?_⟩
  · rw [hfiles] at hm
    exact h.untouched.published.mpr (hq.mapped m hm)
  · simp only [contents, hfiles]
    refine Option.map_congr fun m hm => h.untouched.hash m ?_
    exact hq.accounts.refsLt m (Table.mem_values_of_lookup hm)

/-- The state after pass 3 and the release of the slots. -/
def afterPass3 (ctx : Context) (req : WriteRequest) (plan : List PlanEntry) : Context :=
  let st := pass3Section ctx.openSection req.path req.startBlock req.numBlocks plan
  (ctx.closeSection st).concatFreeList st.toRelease

/-- Alone, a write never finds that its hashes have been published in the meantime. -/
theorem Underway.sharesSurvive {ctx₁ : Context} (h : Underway W ctx ctx₁ req (.consolidate plan)) :
    SharesSurvive ctx₁.index plan := by
  intro a ha hk _ _ _ _
  obtain ⟨hflight, -⟩ := h.ledger.ok
  rw [← hflight.ok.hashed a ha]
  exact h.fresh a.info (mem_missInfos.mpr ⟨a, ha, hk, rfl⟩)

/-- A write that has succeeded. -/
theorem Underway.succeeded {ctx₁ : Context} (hq : Quiet W ctx)
    (h : Underway W ctx ctx₁ req (.consolidate plan)) :
    Quiet W (afterPass3 ctx₁ req plan) ∧
      ∀ k, contents (afterPass3 ctx₁ req plan) k =
        if k.path = req.path ∧ req.startBlock ≤ k.offset ∧
          k.offset < req.startBlock + req.numBlocks
        then some (hash (req.block (k.offset - req.startBlock)))
        else contents ctx k := by
  obtain ⟨hflight, -⟩ := h.ledger.ok
  have hc := h.ledger.consolidated
  have hafter := (callStep_consolidate h.ledger).ledger
  have hkept := hc.kept
  set st := pass3Section ctx₁.openSection req.path req.startBlock req.numBlocks plan with hst
  have hslots : (Call.write req (.done 0)).slots + (st.toRelease : Multiset Nat) =
      (Call.write req (.concat st.toRelease)).slots := congrArg (· + _) (add_zero 0)
  have hconcat : CallStep W 0 0 0 (ctx₁.closeSection st) (.write req (.concat st.toRelease))
      (afterPass3 ctx₁ req plan) (.write req (.done 0)) :=
    callStep_concat hafter rfl rfl rfl hslots trivial h.ledger.blocks
  have hl := hconcat.ledger
  -- every block is mapped either by this request or as it was before
  have hinside : ∀ k : BlockIndice, k.path = req.path ∧ req.startBlock ≤ k.offset ∧
      k.offset < req.startBlock + req.numBlocks → ∃ m, st.index.fileToMaster.lookup k = some m ∧
        st.index.lookupByHash (hash (req.block (k.offset - req.startBlock))) = some m := by
    rintro ⟨p, b⟩ ⟨rfl, hge, hlt⟩
    have hi : b - req.startBlock < plan.length := by
      dsimp only at hge hlt
      rw [hflight.length]
      omega
    have hfound := hc.lookup_published hflight.ok h.ledger.accounts.keyed h.sharesSurvive hi
    rwa [Nat.add_sub_cancel' hge] at hfound
  have houtside : ∀ k : BlockIndice, ¬(k.path = req.path ∧ req.startBlock ≤ k.offset ∧
      k.offset < req.startBlock + req.numBlocks) →
        st.index.fileToMaster.lookup k = ctx.index.fileToMaster.lookup k := by
    intro k hk
    rw [← hflight.length] at hk
    rw [hc.lookup_outside hflight.ok hk]
    exact congrArg (AList.lookup k) h.untouched.fileToMaster
  have hsized : Sized st.index := by
    have hold : Sized ctx₁.index := hq.sized.mono (fun q => by rw [h.untouched.fileToSizes])
      fun q b => (mapped_congr h.untouched.fileToMaster).mp
    refine hold.grow hc.sizes fun q b hm => ?_
    by_cases hk : q = req.path ∧ req.startBlock ≤ b ∧ b < req.startBlock + req.numBlocks
    · exact .inr ⟨hk.1, Nat.mul_lt_mul_of_pos_right hk.2.2 (by decide)⟩
    · have hout := (houtside ⟨q, b⟩ hk).trans
        (congrArg (AList.lookup ⟨q, b⟩) h.untouched.fileToMaster.symm)
      exact .inl fun hnone => hm (hout.trans hnone)
  refine ⟨hl.quiet rfl rfl rfl (fun m hm => ?_) hsized, fun k => ?_⟩
  · show st.index.Published m
    obtain ⟨k, hlookup⟩ := Table.mem_values.mp hm
    by_cases hk : k.path = req.path ∧ req.startBlock ≤ k.offset ∧
        k.offset < req.startBlock + req.numBlocks
    · obtain ⟨m', hm', hpub⟩ := hinside k hk
      obtain rfl := Option.some.inj (hm'.symm.trans hlookup)
      exact Table.mem_values_of_lookup hpub
    · refine hkept m (Multiset.mem_add.mpr (.inl hm)) (h.untouched.published.mpr (hq.mapped m ?_))
      exact Table.mem_values_of_lookup ((houtside k hk).symm.trans hlookup)
  · have hcontents : contents (afterPass3 ctx₁ req plan) k =
        (st.index.fileToMaster.lookup k).map fun m => (st.heap.cell m).hash := rfl
    rw [hcontents]
    split
    · rename_i hk
      obtain ⟨m, hm, hpub⟩ := hinside k hk
      rw [hm, Option.map_some]
      exact congrArg some (hl.accounts.keyed hpub)
    · rename_i hk
      rw [houtside k hk]
      refine Option.map_congr fun m hm => ?_
      rw [hc.hashEq]
      exact h.untouched.hash m (hq.accounts.refsLt m (Table.mem_values_of_lookup hm))

/-- What a write that is alone does: if it returns the length of the request, the blocks
    have the new contents; otherwise nothing has changed. -/
theorem Quiet.writeDedup (hq : Quiet W ctx) (hroom : RoomFor ctx req) (hblocks : req.BlocksIn W)
    (io : Nat → PwriteResult) :
    Quiet W (writeDedup ctx req io).1 ∧ ∀ k, contents (writeDedup ctx req io).1 k =
      if req.size % blockSize = 0 ∧ (writeDedup ctx req io).2 = cInt req.size ∧
        k.path = req.path ∧ req.startBlock ≤ k.offset ∧
          k.offset < req.startBlock + req.numBlocks
      then some (hash (req.block (k.offset - req.startBlock)))
      else contents ctx k := by
  rcases writeDedup_cases hq hroom hblocks io with
    ⟨hrefused, hctx, -⟩ | ⟨-, herrno, -, rc, hfailed⟩ | ⟨-, ctx₁, plan, hpass3, heq⟩
  · rw [hctx]
    refine ⟨hq, fun k => (if_neg ?_).symm⟩
    rintro ⟨haligned, -, -, hge, hlt⟩
    rcases hrefused with hzero | hmis
    · omega
    · exact hmis haligned
  · obtain ⟨hq', hcontents⟩ := hfailed.failed hq
    refine ⟨hq', fun k => (hcontents k).trans (if_neg ?_).symm⟩
    rintro ⟨haligned, hret, -⟩
    exact herrno.ne_cInt haligned hret
  · obtain ⟨hq', hcontents⟩ := hpass3.succeeded hq
    obtain ⟨hflight, -⟩ := hpass3.ledger.ok
    rw [heq]
    refine ⟨hq', fun k => (hcontents k).trans ?_⟩
    rw [hflight.aligned, Nat.mul_mod_left]
    simp only [true_and]

/-! ## Removing -/

/-- A batch removal: the blocks of the range are no longer mapped. -/
theorem Quiet.removeBlocks (hq : Quiet W ctx) (path : CString) (startBlock endBlock : Nat) :
    Quiet W (removeBlocksDedupBatch ctx path startBlock endBlock) ∧
      (removeBlocksDedupBatch ctx path startBlock endBlock).index.fileToSizes =
        ctx.index.fileToSizes ∧
      ∀ k, contents (removeBlocksDedupBatch ctx path startBlock endBlock) k =
        if k.path = path ∧ startBlock ≤ k.offset ∧ k.offset < endBlock then none
        else contents ctx k := by
  have hsizes : (removeBlocksDedupBatch ctx path startBlock endBlock).index.fileToSizes =
      ctx.index.fileToSizes := removeBlocksDedupBatch_fileToSizes ctx path startBlock endBlock
  have hlookup := removeBlocksDedupBatch_lookup ctx path startBlock endBlock
  have hold : ∀ {k m},
      (removeBlocksDedupBatch ctx path startBlock endBlock).index.fileToMaster.lookup k = some m →
        ctx.index.fileToMaster.lookup k = some m := by
    intro k m hm
    rw [hlookup] at hm
    split at hm
    · cases hm
    · exact hm
  by_cases hempty : startBlock ≥ endBlock
  · rw [removeBlocksDedupBatch, if_pos hempty]
    exact ⟨hq, rfl, fun k => (if_neg (by omega)).symm⟩
  rw [removeBlocksDedupBatch, if_neg hempty] at hsizes hlookup hold ⊢
  set st := removeBlocksSection ctx.openSection path startBlock endBlock with hst
  have hl : Ledger W 0 0 0 ctx (.remove path startBlock endBlock .start) :=
    hq.ledger rfl rfl rfl trivial trivial
  have hsection : CallStep W 0 0 0 ctx (.remove path startBlock endBlock .start)
      (ctx.closeSection st) (.remove path startBlock endBlock (.concat st.toRelease)) :=
    callStep_remove hl path startBlock endBlock rfl rfl (add_comm _ _) trivial trivial
  have hconcat : CallStep W 0 0 0 (ctx.closeSection st)
      (.remove path startBlock endBlock (.concat st.toRelease))
      ((ctx.closeSection st).concatFreeList st.toRelease) (.remove path startBlock endBlock .done) :=
    callStep_concat hsection.ledger rfl rfl rfl rfl trivial trivial
  refine ⟨hconcat.ledger.quiet rfl rfl rfl (fun m hm => ?_) fun p b m hm => ?_, hsizes, fun k => ?_⟩
  · obtain ⟨k, hk⟩ := Table.mem_values.mp hm
    exact hsection.kept m (Multiset.mem_add.mpr (.inl hm))
      (hq.mapped m (Table.mem_values_of_lookup (hold hk)))
  · rw [hsizes]
    exact hq.sized p b m (hold hm)
  · rw [contents, hlookup]
    split
    · rfl
    · refine Option.map_congr fun m hm => ?_
      exact hsection.hash m (hq.accounts.refsLt m (Table.mem_values_of_lookup hm))

/-! ## Unlink and truncate -/

/-- A block that lies outside the size of its file has no content. -/
theorem Quiet.contents_eq_none (hq : Quiet W ctx)
    (h : ∀ size, ctx.index.fileToSizes.lookup k.path = some size → size ≤ k.offset * blockSize) :
    contents ctx k = none := by
  rw [contents, Option.map_eq_none_iff, Option.eq_none_iff_forall_ne_some]
  intro m hm
  obtain ⟨size, hsize, hlt⟩ := hq.sized k.path k.offset m hm
  exact Nat.not_le_of_lt hlt (h size hsize)

/-- Sizes may change as long as the mapped blocks stay below them. -/
theorem Quiet.withSizes (hq : Quiet W ctx) {sizes : Table CString Nat}
    (hsized : Sized { ctx.index with fileToSizes := sizes }) :
    Quiet W { ctx with index := { ctx.index with fileToSizes := sizes } } where
  accounts := hq.accounts.congr_index rfl rfl
  few := hq.few
  intact := hq.intact
  mapped := hq.mapped
  sized := hsized

/-- After an unlink no block of the file is mapped. -/
theorem Quiet.xmpUnlink (hq : Quiet W ctx) (path : CString) (res : SyscallResult) :
    Quiet W (xmpUnlink ctx path res).1 ∧
      (∀ q, (xmpUnlink ctx path res).1.index.fileToSizes.lookup q =
        if q = path then none else ctx.index.fileToSizes.lookup q) ∧
      ∀ k, contents (xmpUnlink ctx path res).1 k =
        if k.path = path then none else contents ctx k := by
  cases hsize : ctx.index.fileToSizes.lookup path with
  | none =>
    rw [xmpUnlink_of_none res hsize]
    refine ⟨hq, fun q => ?_, fun k => ?_⟩
    · split
      · rename_i hp
        rw [hp]
        exact hsize
      · rfl
    · split
      · rename_i hp
        exact hq.contents_eq_none fun size h => by
          rw [hp, hsize] at h
          cases h
      · rfl
  | some size =>
    rw [xmpUnlink_of_some res hsize]
    obtain ⟨hq', hsizes, hcontents⟩ := hq.removeBlocks path 0 (blocksOfSize size)
    set ctx' := removeBlocksDedupBatch ctx path 0 (blocksOfSize size) with hctx'
    have hgone : ∀ k : BlockIndice, k.path = path → contents ctx' k = none := by
      intro k hk
      rw [hcontents]
      split
      · rfl
      · rename_i hout
        refine hq.contents_eq_none fun size' h => ?_
        rw [hk, hsize] at h
        obtain rfl := Option.some.inj h
        rw [← not_lt, ← lt_blocksOfSize]
        exact fun hlt => hout ⟨hk, Nat.zero_le _, hlt⟩
    refine ⟨hq'.withSizes fun p b m hm => ?_, fun q => ?_, fun k => ?_⟩
    · have hp : p ≠ path := by
        intro hp
        have hnone := hgone ⟨p, b⟩ hp
        rw [contents, Option.map_eq_none_iff] at hnone
        cases hnone.symm.trans hm
      obtain ⟨size', hsize', hlt⟩ := hq'.sized p b m hm
      exact ⟨size', (AList.lookup_erase_ne hp).trans hsize', hlt⟩
    · show (ctx'.index.fileToSizes.erase path).lookup q = _
      split
      · rename_i hp
        rw [hp, AList.lookup_erase]
      · rename_i hp
        rw [AList.lookup_erase_ne hp, hsizes]
    · show contents ctx' k = _
      split
      · rename_i hp
        exact hgone k hp
      · rename_i hp
        rw [hcontents, if_neg fun h => hp h.1]

/-- After a truncate no block from the new end on is mapped. -/
theorem Quiet.xmpTruncate (hq : Quiet W ctx) (path : CString) (size : Int) (res : SyscallResult) :
    Quiet W (xmpTruncate ctx path size res).1 ∧
      ∀ k, contents (xmpTruncate ctx path size res).1 k =
        if (0 ≤ size ∧ size % blockSize = 0) ∧ k.path = path ∧ size.toNat / blockSize ≤ k.offset
        then none else contents ctx k := by
  by_cases hrefused : size < 0 ∨ size % blockSize ≠ 0
  · rw [xmpTruncate_of_refused res hrefused]
    exact ⟨hq, fun k => (if_neg fun h => by omega).symm⟩
  obtain ⟨n, rfl⟩ := Int.eq_ofNat_of_zero_le (not_lt.mp fun h => hrefused (.inl h))
  have haligned : n % blockSize = 0 := by omega
  have hmul : n / blockSize * blockSize = n := Nat.div_mul_cancel (Nat.dvd_of_mod_eq_zero haligned)
  have hcond : ∀ k : BlockIndice, ((0 ≤ (n : Int) ∧ (n : Int) % blockSize = 0) ∧ k.path = path ∧
      (n : Int).toNat / blockSize ≤ k.offset) ↔ k.path = path ∧ n ≤ k.offset * blockSize := by
    intro k
    rw [Int.toNat_natCast, and_iff_right ⟨by omega, by omega⟩]
    conv_rhs => rw [← hmul, Nat.mul_le_mul_right_iff (by decide)]
  simp only [hcond]
  by_cases hle : ∀ old, ctx.index.fileToSizes.lookup path = some old → old ≤ n
  · rw [xmpTruncate_of_le res haligned hle]
    refine ⟨hq, fun k => ?_⟩
    split
    · rename_i hk
      exact hq.contents_eq_none fun old h => (hle old (hk.1 ▸ h)).trans hk.2
    · rfl
  simp only [not_forall, not_le] at hle
  obtain ⟨old, hold, hlt⟩ := hle
  rw [xmpTruncate_of_lt res haligned hold hlt]
  obtain ⟨hq', hsizes, hcontents⟩ := hq.removeBlocks path (blocksOfSize n) (blocksOfSize old)
  set ctx' := removeBlocksDedupBatch ctx path (blocksOfSize n) (blocksOfSize old) with hctx'
  have hset : truncateSetSize ctx' path n = { ctx' with index := { ctx'.index with
      fileToSizes := ctx'.index.fileToSizes.insert path n } } := by
    rw [truncateSetSize, hsizes, hold]
    exact if_pos hlt
  rw [hset]
  have hcontents' : ∀ k, contents ctx' k =
      if k.path = path ∧ n ≤ k.offset * blockSize then none else contents ctx k := by
    intro k
    rw [hcontents]
    have hstart : blocksOfSize n ≤ k.offset ↔ n ≤ k.offset * blockSize := by
      rw [← not_lt, lt_blocksOfSize, not_lt]
    by_cases hk : k.path = path ∧ n ≤ k.offset * blockSize
    · rw [if_pos hk]
      split
      · rfl
      · rename_i hout
        refine hq.contents_eq_none fun size' h => ?_
        rw [hk.1, hold] at h
        obtain rfl := Option.some.inj h
        rw [← not_lt, ← lt_blocksOfSize]
        exact fun hin => hout ⟨hk.1, hstart.mpr hk.2, hin⟩
    · rw [if_neg hk, if_neg fun h => hk ⟨h.1, hstart.mp h.2.1⟩]
  refine ⟨hq'.withSizes fun p b m hm => ?_, hcontents'⟩
  by_cases hp : p = path
  · subst hp
    refine ⟨n, AList.lookup_insert _, ?_⟩
    by_contra hge
    have hnone := hcontents' ⟨p, b⟩
    rw [if_pos ⟨rfl, Nat.le_of_not_lt hge⟩, contents, Option.map_eq_none_iff] at hnone
    cases hnone.symm.trans hm
  · obtain ⟨size', hsize', hlt'⟩ := hq'.sized p b m hm
    exact ⟨size', (AList.lookup_insert_ne hp).trans hsize', hlt'⟩

end

end DedupBlockFS
