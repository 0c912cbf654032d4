-- SUMMARY: Which blocks are mapped and which sizes are recorded after each section, whatever the counters are.
import DedupBlockFS.Consolidation
import DedupBlockFS.Passthrough

/-!
# Mapped blocks

What the sections do to the set of mapped blocks and to the sizes does not depend on
counters, slots or hashes, so nothing is assumed about them here.
-/

namespace DedupBlockFS

/-- The block is mapped. -/
def Mapped (ix : Index) (path : CString) (b : Nat) : Prop := ix.lookupByFileBlock path b ≠ none

theorem mapped_of_lookup {ix : Index} {path : CString} {b : Nat} {m : Ptr}
    (h : ix.lookupByFileBlock path b = some m) : Mapped ix path b := by
  rw [Mapped, h]
  exact Option.some_ne_none m

/-- Which blocks are mapped depends on `file_to_master` only. -/
theorem mapped_congr {ix ix' : Index} {path : CString} {b : Nat}
    (h : ix'.fileToMaster = ix.fileToMaster) : Mapped ix' path b ↔ Mapped ix path b := by
  rw [Mapped, Mapped, Index.lookupByFileBlock, Index.lookupByFileBlock, h]

/-! ## Mapped blocks and sizes -/

section
variable {ix ix' : Index}

/-- A mapped block lies below the size of its file. -/
theorem Sized.of_mapped (hsized : Sized ix) {q : CString} {b : Nat} (hm : Mapped ix q b) :
    ∃ size, ix.fileToSizes.lookup q = some size ∧ b * blockSize < size := by
  obtain ⟨m, hm⟩ := Option.ne_none_iff_exists'.mp hm
  exact hsized q b m hm

/-- Without a recorded size there are no blocks. -/
theorem Sized.unmapped (hsized : Sized ix) {q : CString}
    (hsize : (ix.fileToSizes.lookup q).getD 0 = 0) (b : Nat) : ¬Mapped ix q b := by
  intro hm
  obtain ⟨size, hsome, hlt⟩ := hsized.of_mapped hm
  rw [hsome, Option.getD_some] at hsize
  omega

/-- Nothing more is mapped, and the sizes are the same. -/
theorem Sized.mono (hsized : Sized ix)
    (hsizes : ∀ q, ix'.fileToSizes.lookup q = ix.fileToSizes.lookup q)
    (hmapped : ∀ q b, Mapped ix' q b → Mapped ix q b) : Sized ix' := by
  intro q b m hm
  rw [hsizes]
  exact hsized.of_mapped (hmapped q b (mapped_of_lookup hm))

/-- Blocks below `newEnd` are mapped, and the file grows at least to there. -/
theorem Sized.grow (hsized : Sized ix) {path : CString} {newEnd : Nat}
    (hsizes : ∀ q, ix'.fileToSizes.lookup q = if q = path
      then some (max newEnd ((ix.fileToSizes.lookup path).getD 0)) else ix.fileToSizes.lookup q)
    (hmapped : ∀ q b, Mapped ix' q b → Mapped ix q b ∨ q = path ∧ b * blockSize < newEnd) :
    Sized ix' := by
  intro q b m hm
  rw [hsizes]
  rcases hmapped q b (mapped_of_lookup hm) with hold | ⟨rfl, hlt⟩
  · obtain ⟨size, hsize, hlt⟩ := hsized.of_mapped hold
    split
    · rename_i hq
      rw [← hq, hsize]
      exact ⟨_, rfl, lt_max_of_lt_right hlt⟩
    · exact ⟨size, hsize, hlt⟩
  · rw [if_pos rfl]
    exact ⟨_, rfl, lt_max_of_lt_left hlt⟩

end

/-! ## Removal -/

/-- What a removal leaves in `file_to_master`. -/
theorem removeBlocksSection_lookup (st : WriteSection) (path : CString) (startBlock endBlock : Nat)
    (k : BlockIndice) :
    (removeBlocksSection st path startBlock endBlock).index.fileToMaster.lookup k =
      if k.path = path ∧ startBlock ≤ k.offset ∧ k.offset < endBlock then none
      else st.index.fileToMaster.lookup k := by
  rw [removeBlocksSection, removeBlocks_lookup]
  congr 1
  rw [List.mem_range'_1]
  have : k.offset < startBlock + (endBlock - startBlock) ↔
      k.offset < endBlock ∨ k.offset < startBlock := by omega
  refine propext (and_congr_right fun _ => ?_)
  omega

theorem removeBlocksDedupBatch_lookup (ctx : Context) (path : CString) (startBlock endBlock : Nat)
    (k : BlockIndice) :
    (removeBlocksDedupBatch ctx path startBlock endBlock).index.fileToMaster.lookup k =
      if k.path = path ∧ startBlock ≤ k.offset ∧ k.offset < endBlock then none
      else ctx.index.fileToMaster.lookup k := by
  unfold removeBlocksDedupBatch
  split
  · exact (if_neg (by omega)).symm
  · exact removeBlocksSection_lookup ctx.openSection path startBlock endBlock k

/-- Removal maps nothing. -/
theorem mapped_of_removeBlocks {ctx : Context} {path q : CString} {startBlock endBlock b : Nat}
    (h : Mapped (removeBlocksSection ctx.openSection path startBlock endBlock).index q b) :
    Mapped ctx.index q b ∧ ¬(q = path ∧ startBlock ≤ b ∧ b < endBlock) := by
  rw [Mapped, Index.lookupByFileBlock, removeBlocksSection_lookup] at h
  split at h
  · exact absurd rfl h
  · rename_i hout
    exact ⟨h, hout⟩

/-! ## Rollback -/

/-- The rollback does not look at the sizes. -/
@[simp] theorem rollbackHits_fileToSizes (st : WriteSection) (plan : List PlanEntry) :
    (rollbackHits st plan).index.fileToSizes = st.index.fileToSizes := by
  induction plan generalizing st with
  | nil => rfl
  | cons e es ih =>
    have hcons : rollbackHits st (e :: es) =
        rollbackHits (if e.kind ≠ .hit then st else st.dropReference e.info) es := rfl
    rw [hcons, ih]
    split
    · rfl
    · exact WriteSection.dropReference_fileToSizes _ _

/-! ## Pass 3 -/

section
variable {st : WriteSection} {path : CString} {startBlock numBlocks : Nat} {plan : List PlanEntry}

theorem publishPlan_tables (st : WriteSection) (plan : List PlanEntry) :
    (publishPlan st plan).1.index.fileToMaster = st.index.fileToMaster ∧
      (publishPlan st plan).1.index.fileToSizes = st.index.fileToSizes ∧
      (publishPlan st plan).2.map PlanEntry.logicalBlk = plan.map PlanEntry.logicalBlk := by
  induction plan generalizing st with
  | nil => exact ⟨rfl, rfl, rfl⟩
  | cons e es ih =>
    simp only [publishPlan]
    split
    · obtain ⟨hfiles, hsizes, hplan⟩ := ih st
      exact ⟨hfiles, hsizes, congrArg (e.logicalBlk :: ·) hplan⟩
    · split
      · obtain ⟨hfiles, hsizes, hplan⟩ := ih _
        exact ⟨hfiles, hsizes, congrArg (e.logicalBlk :: ·) hplan⟩
      · obtain ⟨hfiles, hsizes, hplan⟩ := ih _
        exact ⟨hfiles, hsizes, congrArg (e.logicalBlk :: ·) hplan⟩

theorem mapBlocks_fileToSizes (plan : List PlanEntry) (st : WriteSection) :
    (plan.foldl (mapBlock path) st).index.fileToSizes = st.index.fileToSizes := by
  induction plan generalizing st with
  | nil => rfl
  | cons e es ih =>
    rw [List.foldl_cons, ih]
    simp only [mapBlock]
    split
    · rfl
    · exact WriteSection.dropReference_fileToSizes _ _

/-- Pass 3 maps the blocks of its plan and no others. -/
theorem mapped_pass3Section {q : CString} {b : Nat} :
    Mapped (pass3Section st path startBlock numBlocks plan).index q b ↔
      Mapped st.index q b ∨ (q = path ∧ ∃ e ∈ plan, e.logicalBlk = b) := by
  obtain ⟨hfiles, -, hplan⟩ := publishPlan_tables st plan
  have hblks : (∃ e ∈ (publishPlan st plan).2, e.logicalBlk = b) ↔ ∃ e ∈ plan, e.logicalBlk = b := by
    rw [← List.mem_map, hplan, List.mem_map]
  rw [Mapped, Mapped, ← hblks, pass3Section_eq, Index.lookupByFileBlock, growSize_eq,
    mapBlocks_fileToMaster, hfiles, ne_eq, Table.lookup_foldl_insert_eq_none, not_and_or, or_comm]
  simp only [BlockIndice.mk.injEq, ne_eq, not_forall, not_not, exists_prop, eq_comm (a := path)]
  apply or_congr_right
  constructor
  · rintro ⟨e, he, hpath, hblk⟩
    exact ⟨hpath, e, he, hblk⟩
  · rintro ⟨hpath, e, he, hblk⟩
    exact ⟨e, he, hpath, hblk⟩

/-- Pass 3 raises the size of its file to its own end. -/
theorem pass3Section_sizes (q : CString) :
    (pass3Section st path startBlock numBlocks plan).index.fileToSizes.lookup q =
      if q = path then some (max ((startBlock + numBlocks) * blockSize)
        ((st.index.fileToSizes.lookup path).getD 0))
      else st.index.fileToSizes.lookup q := by
  obtain ⟨-, hsizes, -⟩ := publishPlan_tables st plan
  rw [pass3Section_eq]
  dsimp only
  rw [growSize_lookup, mapBlocks_fileToSizes, hsizes]

end

/-! ## Pass 1 -/

section
variable [Sha512]

/-- Pass 1 plans the blocks of its request. -/
theorem pass1_logicalBlk (ix : Index) (hp : Heap) (buf : List UInt8) (startBlock n : Nat) :
    (pass1 ix hp buf startBlock n).plan.map PlanEntry.logicalBlk = List.range' startBlock n := by
  induction n with
  | zero => rfl
  | succ n ih =>
    have hsucc : pass1 ix hp buf startBlock (n + 1) =
        pass1Block ix buf startBlock (pass1 ix hp buf startBlock n) n := by
      simp [pass1, List.range_succ]
    rw [hsucc, List.range'_concat, ← ih]
    simp only [pass1Block]
    split <;> simp

end

end DedupBlockFS
