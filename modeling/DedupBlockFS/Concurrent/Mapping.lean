-- SUMMARY: Which sections change which mappings of file blocks, and what they leave of them.
import DedupBlockFS.Concurrent.Invariant
import DedupBlockFS.MappedBlocks

/-!
# Mappings

`file_to_master` changes in two kinds of sections only: pass 3 maps the blocks of its
request, and a removal unmaps the blocks of its range. All other mappings stay, with
their objects.
-/

namespace DedupBlockFS

open Table (values)

/-- The next section of the call maps or unmaps the block `k`. -/
def Call.Touches (k : BlockIndice) : Call → Prop
  | .write req (.consolidate _) =>
    k.path = req.path ∧ req.startBlock ≤ k.offset ∧ k.offset < req.startBlock + req.numBlocks
  | .remove path startBlock endBlock .start =>
    k.path = path ∧ startBlock ≤ k.offset ∧ k.offset < endBlock
  | .unlink path _ (.remove numBlocks) => k.path = path ∧ k.offset < numBlocks
  | .truncate path _ _ (.remove newBlockCount oldBlockCount) =>
    k.path = path ∧ newBlockCount ≤ k.offset ∧ k.offset < oldBlockCount
  | _ => False

section
variable [Sha512]
variable {W : List UInt8 → Prop} {H Pd : Multiset Ptr} {O : Multiset Nat} {ctx ctx' : Context}
  {c c' : Call} {qs : Qsort} {io : ByteFile.PwriteResult} {k : BlockIndice}

omit [Sha512] in
theorem dropReference_lookupByHash {st : WriteSection} {info m : Ptr} {h : Hash}
    (hl : (st.dropReference info).index.lookupByHash h = some m) :
    st.index.lookupByHash h = some m := by
  by_cases hone : (st.heap.cell info).refcount = 1
  · rw [WriteSection.dropReference_last hone] at hl
    by_cases heq : h = (st.heap.cell info).hash
    · subst heq
      rw [Index.lookupByHash, Index.removeHash, AList.lookup_erase] at hl
      cases hl
    · rwa [Index.lookupByHash, Index.removeHash, AList.lookup_erase_ne heq] at hl
  · rwa [WriteSection.dropReference_more hone] at hl

omit [Sha512] in
/-- The rollback of HITs publishes nothing. -/
theorem rollbackHits_lookupByHash {st : WriteSection} {plan : List PlanEntry} {h : Hash} {m : Ptr}
    (hl : (rollbackHits st plan).index.lookupByHash h = some m) :
    st.index.lookupByHash h = some m := by
  induction plan generalizing st with
  | nil => exact hl
  | cons e es ih =>
    have hcons : rollbackHits st (e :: es) =
        rollbackHits (if e.kind ≠ .hit then st else st.dropReference e.info) es := rfl
    rw [hcons] at hl
    have htail := ih hl
    split at htail
    · exact htail
    · exact dropReference_lookupByHash htail

/-- Of the sections of a write, only pass 3 changes mappings or sizes or publishes
    objects. -/
theorem advanceWrite_tables {req : WriteRequest} {pc pc' : WritePc}
    (h : advanceWrite ctx req io pc = some (ctx', pc')) :
    (∃ plan, pc = .consolidate plan ∧
      ctx' = ctx.closeSection
        (pass3Section ctx.openSection req.path req.startBlock req.numBlocks plan)) ∨
    (ctx'.index.fileToMaster = ctx.index.fileToMaster ∧
      ctx'.index.fileToSizes = ctx.index.fileToSizes ∧
      ∀ h m, ctx'.index.lookupByHash h = some m → ctx.index.lookupByHash h = some m) := by
  cases pc with
  | start =>
    right
    simp only [advanceWrite] at h
    split at h
    · obtain ⟨rfl, -⟩ := Prod.ext_iff.mp (Option.some.inj h)
      exact ⟨rfl, rfl, fun _ _ h => h⟩
    · split at h <;>
      · obtain ⟨rfl, -⟩ := Prod.ext_iff.mp (Option.some.inj h)
        exact ⟨rfl, rfl, fun _ _ h => h⟩
  | drain plan missCount =>
    right
    simp only [advanceWrite] at h
    split at h <;>
    · obtain ⟨rfl, -⟩ := Prod.ext_iff.mp (Option.some.inj h)
      exact ⟨rfl, rfl, fun _ _ h => h⟩
  | flush plan todo =>
    right
    simp only [advanceWrite] at h
    split at h <;>
    · obtain ⟨rfl, -⟩ := Prod.ext_iff.mp (Option.some.inj h)
      exact ⟨rfl, rfl, fun _ _ h => h⟩
  | consolidate plan =>
    left
    obtain ⟨rfl, -⟩ := Prod.ext_iff.mp (Option.some.inj h)
    exact ⟨plan, rfl, rfl⟩
  | rollbackHits plan rc =>
    right
    obtain ⟨rfl, -⟩ := Prod.ext_iff.mp (Option.some.inj h)
    exact ⟨rollbackHits_fileToMaster plan, rollbackHits_fileToSizes _ plan,
      fun _ _ h => rollbackHits_lookupByHash h⟩
  | rollbackMisses plan rc =>
    right
    obtain ⟨rfl, -⟩ := Prod.ext_iff.mp (Option.some.inj h)
    have hreleased := rollbackMisses_released ctx plan
    exact ⟨hreleased.fileToMaster, hreleased.fileToSizes, fun _ _ h => by
      rwa [Index.lookupByHash, hreleased.hashToMaster] at h⟩
  | done rc => cases h
  | append plan taken remaining | concat slots | rollbackConcat plan slots rc =>
    right
    obtain ⟨rfl, -⟩ := Prod.ext_iff.mp (Option.some.inj h)
    exact ⟨rfl, rfl, fun _ _ h => h⟩

/-- A section leaves the mappings alone that it does not touch. -/
theorem advance_lookup (hl : Ledger W H Pd O ctx c) (h : advance qs ctx io c = some (ctx', c'))
    (hk : ¬c.Touches k) : ctx'.index.fileToMaster.lookup k = ctx.index.fileToMaster.lookup k := by
  cases c with
  | write req pc =>
    obtain ⟨⟨ctx₁, pc'⟩, hadv, hres⟩ := Option.map_eq_some_iff.mp h
    obtain ⟨rfl, rfl⟩ := Prod.ext_iff.mp hres
    rcases advanceWrite_tables hadv with ⟨plan, rfl, rfl⟩ | ⟨hfiles, -⟩
    · obtain ⟨hflight, -⟩ := hl.ok
      refine hl.consolidated.lookup_outside hflight.ok fun hin => hk ?_
      rwa [hflight.length] at hin
    · exact congrArg (AList.lookup k) hfiles
  | remove path startBlock endBlock pc =>
    obtain ⟨⟨ctx₁, pc'⟩, hadv, hres⟩ := Option.map_eq_some_iff.mp h
    obtain ⟨rfl, rfl⟩ := Prod.ext_iff.mp hres
    cases pc with
    | start =>
      simp only [advanceRemove, Option.some.injEq, Prod.mk.injEq] at hadv
      obtain ⟨rfl, -⟩ := hadv
      exact (removeBlocksSection_lookup ..).trans (if_neg hk)
    | concat slots =>
      simp only [advanceRemove, Option.some.injEq, Prod.mk.injEq] at hadv
      obtain ⟨rfl, -⟩ := hadv
      rfl
    | done => cases hadv
  | unlink path res pc =>
    obtain ⟨⟨ctx₁, pc'⟩, hadv, hres⟩ := Option.map_eq_some_iff.mp h
    obtain ⟨rfl, rfl⟩ := Prod.ext_iff.mp hres
    cases pc with
    | start =>
      simp only [advanceUnlink] at hadv
      split at hadv <;>
      · simp only [Option.some.injEq, Prod.mk.injEq] at hadv
        obtain ⟨rfl, -⟩ := hadv
        rfl
    | remove numBlocks =>
      simp only [advanceUnlink, Option.some.injEq, Prod.mk.injEq] at hadv
      obtain ⟨rfl, -⟩ := hadv
      exact (removeBlocksSection_lookup ..).trans (if_neg fun hin => hk ⟨hin.1, hin.2.2⟩)
    | concat slots =>
      simp only [advanceUnlink, Option.some.injEq, Prod.mk.injEq] at hadv
      obtain ⟨rfl, -⟩ := hadv
      rfl
    | dropSize =>
      simp only [advanceUnlink, Option.some.injEq, Prod.mk.injEq] at hadv
      obtain ⟨rfl, -⟩ := hadv
      rfl
    | done ret => cases hadv
  | truncate path size res pc =>
    obtain ⟨⟨ctx₁, pc'⟩, hadv, hres⟩ := Option.map_eq_some_iff.mp h
    obtain ⟨rfl, rfl⟩ := Prod.ext_iff.mp hres
    cases pc with
    | start =>
      simp only [advanceTruncate] at hadv
      split at hadv
      · simp only [Option.some.injEq, Prod.mk.injEq] at hadv
        obtain ⟨rfl, -⟩ := hadv
        rfl
      · split at hadv <;>
        · simp only [Option.some.injEq, Prod.mk.injEq] at hadv
          obtain ⟨rfl, -⟩ := hadv
          rfl
    | remove newBlockCount oldBlockCount =>
      simp only [advanceTruncate, Option.some.injEq, Prod.mk.injEq] at hadv
      obtain ⟨rfl, -⟩ := hadv
      exact (removeBlocksSection_lookup ..).trans (if_neg hk)
    | concat slots =>
      simp only [advanceTruncate, Option.some.injEq, Prod.mk.injEq] at hadv
      obtain ⟨rfl, -⟩ := hadv
      rfl
    | setSize =>
      simp only [advanceTruncate, Option.some.injEq, Prod.mk.injEq] at hadv
      obtain ⟨rfl, -⟩ := hadv
      rw [truncateSetSize_eq]
    | done ret => cases hadv
  | read req pc =>
    obtain ⟨pc', hadv, hres⟩ := Option.map_eq_some_iff.mp h
    obtain ⟨rfl, -⟩ := Prod.ext_iff.mp hres
    rfl

end

end DedupBlockFS
