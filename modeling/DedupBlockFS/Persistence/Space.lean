-- SUMMARY: Deduplication is exact: how many slots and references the files of all committed updates take.
import DedupBlockFS.Persistence.Durability

/-!
# The space that files take

When all calls have returned, whatever their interleaving was and in whatever mount, the
metadata are determined by the files that the committed updates have produced: one object
for each content, counted once for each file block that has it, and no slot for anything
else.
-/

namespace DedupBlockFS

open ByteFile
open Table (values)

/-! ## What files consist of -/

/-- The file blocks with the content `b`. -/
def Files.uses (f : Files) (b : List UInt8) : Set BlockIndice := {k | f k = some b}

/-- The contents of the file blocks, each once. -/
def Files.contents (f : Files) : Set (List UInt8) := {b | ∃ k, f k = some b}

section
variable [Sha512] {W : List UInt8 → Prop} {ctx : Context} {f : Files} {x : Hash} {m : Ptr}
  {b : List UInt8}

/-! ## Between two calls -/

namespace Settled

/-- The hash under which an object is published is that of the block in its slot. -/
theorem hash_blockAt (hs : Settled W ctx) (hm : ctx.index.Published m) :
    hash (blockAt ctx.master (ctx.heap.cell m).masterBlockIndex) = (ctx.heap.cell m).hash := by
  obtain ⟨b, -, hb, hstored⟩ := hs.intact m hm
  rw [hstored.2, hb]

/-- The file blocks that a published object is mapped from are those with its content. -/
theorem uses_eq (hs : Settled W ctx) (hf : ∀ k, blockContent ctx k = f k)
    (hm : ctx.index.Published m) :
    f.uses (blockAt ctx.master (ctx.heap.cell m).masterBlockIndex) =
      {k | ctx.index.fileToMaster.lookup k = some m} := by
  ext k
  simp only [Files.uses, Set.mem_ofPred_eq, ← hf k, blockContent, Option.map_eq_some_iff]
  constructor
  · rintro ⟨m', hm', hblock⟩
    have hpub := hs.mapped m' (Table.mem_values_of_lookup hm')
    have hhash : (ctx.heap.cell m').hash = (ctx.heap.cell m).hash := by
      rw [← hs.hash_blockAt hpub, hblock, hs.hash_blockAt hm]
    have hsame := hs.accounts.lookup_hash hpub
    rw [hhash, hs.accounts.lookup_hash hm] at hsame
    rw [Option.some.inj hsame]
    exact hm'
  · exact fun hk => ⟨m, hk, rfl⟩

/-- The counter of an object is the number of file blocks with its content. -/
theorem refcount_eq (hs : Settled W ctx) (hf : ∀ k, blockContent ctx k = f k)
    (hm : ctx.index.Published m) : ((ctx.heap.cell m).refcount : ℕ∞) =
      (f.uses (blockAt ctx.master (ctx.heap.cell m).masterBlockIndex)).encard := by
  rw [hs.uses_eq hf hm, Table.encard_lookup]
  exact congrArg Nat.cast (hs.accounts.balanced.publishedCount m hm)

/-- Every content in use is published, and nothing else is. -/
theorem contents_eq (hs : Settled W ctx) (hf : ∀ k, blockContent ctx k = f k) :
    f.contents = (fun m => blockAt ctx.master (ctx.heap.cell m).masterBlockIndex) ''
      {m | ctx.index.Published m} := by
  ext b
  constructor
  · rintro ⟨k, hk⟩
    rw [← hf k] at hk
    obtain ⟨m, hm, rfl⟩ := Option.map_eq_some_iff.mp hk
    exact ⟨m, hs.mapped m (Table.mem_values_of_lookup hm), rfl⟩
  · rintro ⟨m, hm, rfl⟩
    obtain ⟨k, hk⟩ := Table.mem_values.mp (hs.accounts.published_mem_refs hm)
    exact ⟨k, (hf k).symm.trans (Option.map_eq_some_iff.mpr ⟨m, hk, rfl⟩)⟩

/-- Different objects have different contents. -/
theorem blockAt_injOn (hs : Settled W ctx) : Set.InjOn
    (fun m => blockAt ctx.master (ctx.heap.cell m).masterBlockIndex)
      {m | ctx.index.Published m} := by
  intro m hm m' hm' hblock
  have hhash : (ctx.heap.cell m).hash = (ctx.heap.cell m').hash := by
    rw [← hs.hash_blockAt hm, ← hs.hash_blockAt hm']
    exact congrArg hash hblock
  have hsame := hs.accounts.lookup_hash hm
  rw [hhash, hs.accounts.lookup_hash hm'] at hsame
  exact (Option.some.inj hsame).symm

/-- Every slot is free or holds one of the contents. -/
theorem slots_eq (hs : Settled W ctx) (hf : ∀ k, blockContent ctx k = f k) :
    (ctx.index.freeBlockList.length : ℕ∞) + f.contents.encard = ctx.nextBlockIndex := by
  have hnodup : (values ctx.index.hashToMaster).Nodup := hs.accounts.balanced.publishedNodup
  have hpublished : {m | ctx.index.Published m} =
      ((values ctx.index.hashToMaster).toFinset : Set Ptr) := by
    ext m
    simp [Index.Published]
  have hcard := congrArg Multiset.card hs.accounts.balanced.slots
  simp only [poolOf, Multiset.card_add, Multiset.coe_card, Multiset.card_map,
    Multiset.card_range, add_zero] at hcard
  rw [hs.contents_eq hf, hs.blockAt_injOn.encard_image, hpublished,
    Set.encard_coe_eq_coe_finsetCard, Multiset.toFinset_card_of_nodup hnodup, ← hcard]
  exact (Nat.cast_add _ _).symm

end Settled

variable {qs : Qsort}

/-- In every state of a run of any number of mounts in which all calls have returned, each
    content of a file block has exactly one object, which is counted once for each file block
    with this content; there are no other objects, and every other slot is free. -/
theorem space_is_distinct_blocks {m : Machine} {log : List (Nat × Commit)}
    (hinj : ∀ a b, W a → W b → hash a = hash b → a = b)
    (h : (service qs).Reachable (CleanService W) (m, log))
    (hreturned : ∀ c ∈ m.calls, c.result ≠ none) :
    (∀ b ∈ (filesOf log).contents, ∃ p, m.ctx.index.lookupByHash (hash b) = some p ∧
      blockAt m.ctx.master (m.ctx.heap.cell p).masterBlockIndex = b ∧
      ((m.ctx.heap.cell p).refcount : ℕ∞) = ((filesOf log).uses b).encard) ∧
    (∀ x p, m.ctx.index.lookupByHash x = some p → ∃ b ∈ (filesOf log).contents, hash b = x) ∧
    (m.ctx.index.freeBlockList.length : ℕ∞) + (filesOf log).contents.encard =
      m.ctx.nextBlockIndex := by
  have hlin := (Served.reachable h).linearized
  have hs := hlin.settled hreturned
  have hf := hlin.blockContent_eq hinj
  have hcontents := hs.contents_eq hf
  refine ⟨fun b hb => ?_, fun x p hp => ?_, hs.slots_eq hf⟩
  · rw [hcontents] at hb
    obtain ⟨p, hp, rfl⟩ := hb
    refine ⟨p, ?_, rfl, hs.refcount_eq hf hp⟩
    dsimp only
    rw [hs.hash_blockAt hp]
    exact hs.accounts.lookup_hash hp
  · have hpub := Table.mem_values_of_lookup hp
    refine ⟨blockAt m.ctx.master (m.ctx.heap.cell p).masterBlockIndex, ?_,
      (hs.hash_blockAt hpub).trans (hs.accounts.keyed hp)⟩
    rw [hcontents]
    exact ⟨p, hpub, rfl⟩

end

/-- The overlapping writes have stored one content, for three file blocks. -/
theorem space_is_distinct_blocks_of_overlappingWrites :
    afterOverlappingWrites.1.ctx.nextBlockIndex = 2 ∧
      afterOverlappingWrites.1.ctx.index.freeBlockList.length = 1 ∧
      (filesOf afterOverlappingWrites.2).contents.encard = 1 := by
  let _ := Sha512.zeroBlock
  have hnext : afterOverlappingWrites.1.ctx.nextBlockIndex = 2 := by decide +kernel
  have hfree : afterOverlappingWrites.1.ctx.index.freeBlockList.length = 1 := by decide +kernel
  have hreturned : ∀ c ∈ afterOverlappingWrites.1.calls, c.result ≠ none := by decide +kernel
  have hreach : (service .mergeSort).Reachable (CleanService IsZeroBlock)
      (afterOverlappingWrites.1, afterOverlappingWrites.2) :=
    service_of_withLog afterOverlappingWrites_reachable
  obtain ⟨-, -, hspace⟩ :=
    space_is_distinct_blocks (fun a b ha hb _ => ha.trans hb.symm) hreach hreturned
  rw [hnext, hfree, Nat.cast_one, add_comm] at hspace
  have htwo : ((2 : ℕ) : ℕ∞) = 1 + 1 := rfl
  rw [htwo] at hspace
  exact ⟨hnext, hfree, (WithTop.add_right_inj ENat.one_ne_top).mp hspace⟩

end DedupBlockFS
