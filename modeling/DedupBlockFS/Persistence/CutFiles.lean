-- SUMMARY: What `index_init` makes of the files of an index, each of them cut off somewhere.
import DedupBlockFS.Persistence.IndexFiles
import DedupBlockFS.Persistence.Prefixes

/-!
# Loading what is left of the files

Of each of the five files there may be only a prefix, of each a different one. Every table and the
free list are loaded as far as `loadedPart` goes; the two tables that share their objects lose,
besides, the entries whose object is not among the loaded ones (`Loaded`). That a complete index
comes back, and that what is left of an index is a part of it, are both read off this.
-/

namespace DedupBlockFS

open ByteFile
open Table (values)

/-- Each file cut off after some number of bytes. -/
def IndexFiles.cut (files : IndexFiles) (len : IndexFile → Nat) : IndexFiles :=
  fun file => (files file).take (len file)

/-- The positions of the objects and the fields of the index fit the words that they are saved
    as. -/
structure FieldsFit (order : HashOrder) (ix : Index) (hp : Heap) : Prop where
  positions : ∀ m ∈ (indexedValues order ix).values, (indexedValues order ix).position m < 2 ^ 64
  infos : ∀ m ∈ (indexedValues order ix).values,
    (hp.cell m).masterBlockIndex < 2 ^ 64 ∧ (hp.cell m).refcount < 2 ^ 32
  blocks : ∀ k m, ix.fileToMaster.lookup k = some m → k.offset < 2 ^ 64
  sizes : ∀ path size, ix.fileToSizes.lookup path = some size → size < 2 ^ 64
  free : ∀ slot ∈ ix.freeBlockList, slot < 2 ^ 64

/-- The objects that are loaded, as they were saved. -/
def keptValues (save : SaveEnv) (ix : Index) (hp : Heap) (len : IndexFile → Nat) : List Ptr :=
  loadedPart (infoBytes save hp) (indexedValues save.order ix).values (len .masterInfos)

/-- What is loaded from the files that are cut off: the entries that are loaded, with the objects
    at their positions. -/
structure Loaded (save : SaveEnv) (ix : Index) (hp : Heap) (len : IndexFile → Nat)
    (ix' : Index) (hp' : Heap) : Prop where
  hashes : ∀ h m', ix'.lookupByHash h = some m' ↔
    ∃ e ∈ loadedPart (hashBytes (indexedValues save.order ix))
      (save.order.entries ix.hashToMaster) (len .hashToMaster),
      e.1 = h ∧ (indexedValues save.order ix).position e.2 = m' ∧
        m' < (keptValues save ix hp len).length
  blocks : ∀ path b m', ix'.lookupByFileBlock path b = some m' ↔
    ∃ e ∈ loadedPart (blockBytes (indexedValues save.order ix))
      (save.order.entries ix.fileToMaster) (len .fileToMaster),
      e.1 = ⟨path, b⟩ ∧ (indexedValues save.order ix).position e.2 = m' ∧
        m' < (keptValues save ix hp len).length
  sizes : ∀ path size, ix'.fileToSizes.lookup path = some size ↔
    ⟨path, size⟩ ∈ loadedPart sizeBytes (save.order.entries ix.fileToSizes) (len .fileToSizes)
  free : ix'.freeBlockList = loadedPart slotBytes ix.freeBlockList (len .freeBlockList)
  heap : hp' = (allocAll ((keptValues save ix hp len).map hp.cell)).1

/-- One of the two tables that share their values: the entries that are loaded, and of these the
    ones whose value is among the loaded `count`. -/
theorem load_cut_shared {K R : Type} [DecidableEq K] {v : IndexedValues}
    (hsmall : ∀ m ∈ v.values, v.position m < 2 ^ 64) {t : Table K Ptr}
    {es : List ((_ : K) × Ptr)} (hperm : es.Perm t.entries) (hvalues : ∀ e ∈ es, e.2 ∈ v.values)
    (keyBytes : K → List UInt8) (raw : K → R) {decodeKey : Decoder R} {asKey : R → Option K}
    {file : List UInt8} (hfile : file = fileContents (fun e =>
      record (keyBytes e.1) ++ record (encodeSize (v.position e.2))) es)
    {answers : Nat → Nat} (hread : ∀ k, 0 < answers k)
    (hkey : ∀ e ∈ es, decodeKey.Makes (keyBytes e.1) (raw e.1) ∧ asKey (raw e.1) = some e.1)
    (order : HashOrder) (len count : Nat) :
    ∃ ht, ghashLoad (file.take len) answers decodeKey asKey decodeSizeElem = some ht ∧
      ∀ k m', (resolveIndices order (List.range count) ht).lookup k = some m' ↔
        ∃ e ∈ loadedPart (fun e => record (keyBytes e.1) ++ record (encodeSize (v.position e.2))) es
          len, e.1 = k ∧ v.position e.2 = m' ∧ m' < count := by
  obtain ⟨ht, hload, hentries⟩ := ghashLoad_cut hperm keyBytes raw hfile hread hkey
    (fun e he => decodeSizeElem_makes (hsmall e.2 (hvalues e he))) len
  refine ⟨ht, hload, fun k m' => ?_⟩
  rw [resolveIndices, Table.lookup_foldl_insertSome_perm (order.perm ht), Option.bind_eq_some_iff]
  constructor
  · rintro ⟨i, hi, hget⟩
    obtain ⟨e, he, hk, rfl⟩ := (hentries k i).mp hi
    obtain ⟨hlt, hrange⟩ := List.getElem?_eq_some_iff.mp hget
    rw [List.getElem_range] at hrange
    rw [List.length_range] at hlt
    exact ⟨e, he, hk, hrange, hrange ▸ hlt⟩
  · rintro ⟨e, he, hk, rfl, hlt⟩
    exact ⟨v.position e.2, (hentries k _).mpr ⟨e, he, hk, rfl⟩, List.getElem?_range hlt⟩

section
variable {ix : Index} {hp : Heap} {save : SaveEnv} {load : LoadEnv} {files : IndexFiles}

/-- `index_init` loads from the files that are cut off what is left in them. -/
theorem indexInit_cut (hfits : FieldsFit save.order ix hp) (hsaved : Saved save ix hp files)
    (hread : ∀ file k, 0 < load.answers file k) (len : IndexFile → Nat) :
    ∃ ix' hp', indexInit load (files.cut len) = some (ix', hp') ∧
      Loaded save ix hp len ix' hp' := by
  obtain ⟨-, hmem⟩ := indexedValues_numbered save.order ix
  have hhash : ∀ e ∈ save.order.entries ix.hashToMaster,
      e.2 ∈ (indexedValues save.order ix).values := fun e he =>
    (hmem e.2).mpr (.inl (List.mem_map_of_mem ((save.order.perm _).mem_iff.mp he)))
  have hfile : ∀ e ∈ save.order.entries ix.fileToMaster,
      e.2 ∈ (indexedValues save.order ix).values := fun e he =>
    (hmem e.2).mpr (.inr (List.mem_map_of_mem ((save.order.perm _).mem_iff.mp he)))
  have hblock : ∀ e ∈ save.order.entries ix.fileToMaster,
      ix.fileToMaster.lookup e.1 = some e.2 := fun e he =>
    Table.mem_entries_iff.mp ((save.order.perm _).mem_iff.mp he)
  have hsize : ∀ e ∈ save.order.entries ix.fileToSizes,
      ix.fileToSizes.lookup e.1 = some e.2 := fun e he =>
    Table.mem_entries_iff.mp ((save.order.perm _).mem_iff.mp he)
  -- each of the five files
  have hinfosLoad : gslistLoad ((files .masterInfos).take (len .masterInfos))
      (load.answers .masterInfos) decodeMasterInfo =
        some ((keptValues save ix hp len).map hp.cell) :=
    gslistLoad_cut hsaved.masterInfos (hread .masterInfos) (fun m hm =>
      decodeMasterInfo_makes (save.padding m) (hfits.infos m hm).1 (hfits.infos m hm).2)
      (len .masterInfos)
  obtain ⟨hashIdx, hhashLoad, hhashes⟩ := load_cut_shared hfits.positions
    (save.order.perm ix.hashToMaster) hhash encodeHash id hsaved.hashToMaster
    (hread .hashToMaster) (fun e _ => ⟨decodeHash_makes e.1, rfl⟩) load.order (len .hashToMaster)
    (keptValues save ix hp len).length
  obtain ⟨blockIdx, hblockLoad, hblocks⟩ := load_cut_shared hfits.positions
    (save.order.perm ix.fileToMaster) hfile (fun k => (encodeBlockIndice k).getD [])
    BlockIndice.raw hsaved.fileToMaster (hread .fileToMaster)
    (fun e he => ⟨decodeBlockIndice_makes (hsaved.blocks e he)
      (hfits.blocks e.1 e.2 (hblock e he)), RawBlockIndice.asKey_raw e.1⟩) load.order
    (len .fileToMaster) (keptValues save ix hp len).length
  obtain ⟨sizes, hsizeLoad, hsizes⟩ := ghashLoad_cut (save.order.perm ix.fileToSizes)
    CString.withNul CString.withNul hsaved.fileToSizes (hread .fileToSizes)
    (fun e he => decodeStr_makes (hsaved.paths e he))
    (fun e he => decodeSize_makes (hfits.sizes e.1 e.2 (hsize e he))) (len .fileToSizes)
  have hfreeLoad : gslistLoad ((files .freeBlockList).take (len .freeBlockList))
      (load.answers .freeBlockList) decodeFreeBlock =
        some (loadedPart slotBytes ix.freeBlockList (len .freeBlockList)) := by
    rw [← List.map_id (loadedPart slotBytes _ _)]
    exact gslistLoad_cut hsaved.freeBlockList (hread .freeBlockList) (fun slot hslot =>
      decodeFreeBlock_makes (hfits.free slot hslot)) (len .freeBlockList)
  obtain ⟨free, hfree⟩ : ∃ free,
      loadedPart slotBytes ix.freeBlockList (len .freeBlockList) = free := ⟨_, rfl⟩
  have hloaded := (allocAll_eq ((keptValues save ix hp len).map hp.cell)).1
  rw [List.length_map] at hloaded
  refine ⟨{ hashToMaster := resolveIndices load.order
              (List.range (keptValues save ix hp len).length) hashIdx
            fileToMaster := resolveIndices load.order
              (List.range (keptValues save ix hp len).length) blockIdx
            freeBlockList := free
            fileToSizes := sizes }, (allocAll ((keptValues save ix hp len).map hp.cell)).1, ?_,
    { hashes := hhashes
      blocks := fun path b => hblocks ⟨path, b⟩
      sizes := ?_
      free := hfree.symm
      heap := rfl }⟩
  · rw [hfree] at hfreeLoad
    simp only [indexInit, IndexFiles.cut, hinfosLoad, hhashLoad, hblockLoad, hsizeLoad, hfreeLoad]
    simp only [Option.bind_eq_bind, Option.bind_some, hloaded]
    rfl
  · intro path size
    rw [hsizes]
    constructor
    · rintro ⟨e, he, rfl, rfl⟩
      exact he
    · exact fun he => ⟨⟨path, size⟩, he, rfl, rfl⟩

end

end DedupBlockFS
