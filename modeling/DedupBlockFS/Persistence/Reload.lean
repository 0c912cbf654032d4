-- SUMMARY: The round trip of the index: what `index_init` loads from complete files is what `index_destroy` saved, up to the addresses.
import DedupBlockFS.Persistence.CutFiles

/-!
# Loading the whole index

Complete files are those that nothing is cut off of, so all entries are loaded. The loaded index is
the saved one with the position of each object in place of the object (`Renamed`); the two find
the same and share the same (`SameIndex`).
-/

namespace DedupBlockFS

open ByteFile
open Table (values)

/-- The numbers of the index fit the machine words that they are saved as, and the numbers of
    entries and the lengths of the elements fit an `int`. -/
structure FitsWords (ix : Index) (hp : Heap) : Prop where
  hashCount : ix.hashToMaster.entries.length < 2 ^ 31
  fileCount : ix.fileToMaster.entries.length < 2 ^ 31
  sizeCount : ix.fileToSizes.entries.length < 2 ^ 31
  freeCount : ix.freeBlockList.length < 2 ^ 31
  infos : ∀ m, ix.Published m →
    (hp.cell m).masterBlockIndex < 2 ^ 64 ∧ (hp.cell m).refcount < 2 ^ 32
  blocks : ∀ k m, ix.fileToMaster.lookup k = some m →
    k.path.bytes.length + 13 < 2 ^ 31 ∧ k.offset < 2 ^ 64
  sizes : ∀ path size, ix.fileToSizes.lookup path = some size →
    path.bytes.length + 13 < 2 ^ 31 ∧ size < 2 ^ 64
  free : ∀ slot ∈ ix.freeBlockList, slot < 2 ^ 64

/-- The second index is the first with other objects in place of its own. -/
structure Renamed (ix : Index) (hp : Heap) (f : Ptr → Ptr) (ix' : Index) (hp' : Heap) : Prop where
  hashes : ∀ h, ix'.lookupByHash h = (ix.lookupByHash h).map f
  blocks : ∀ path b, ix'.lookupByFileBlock path b = (ix.lookupByFileBlock path b).map f
  sizes : ∀ path, ix'.fileToSizes.lookup path = ix.fileToSizes.lookup path
  free : ix'.freeBlockList = ix.freeBlockList
  cells : ∀ m, ix.Published m → hp'.cell (f m) = hp.cell m ∧ f m < hp'.brk
  inj : ∀ m m', ix.Published m → ix.Published m' → f m = f m' → m = m'
  noOther : ∀ m', hp'.cell m' = Heap.empty.cell m' ∨ ∃ m, hp'.cell m' = hp.cell m

section
variable {ix : Index} {hp : Heap} {save : SaveEnv} {load : LoadEnv} {files : IndexFiles}

/-- They are those of `hash_to_master` if this has all that are mapped. -/
theorem indexedValues_eq (order : HashOrder)
    (hpublished : ∀ m ∈ values ix.fileToMaster, ix.Published m) :
    (indexedValues order ix).Numbered ∧
      (∀ m, m ∈ (indexedValues order ix).values ↔ ix.Published m) ∧
      (indexedValues order ix).values.length ≤ ix.hashToMaster.entries.length := by
  obtain ⟨hnumbered, hmem⟩ := indexedValues_numbered order ix
  have hpub : ∀ m, m ∈ (indexedValues order ix).values ↔ ix.Published m := by
    intro m
    rw [hmem]
    exact or_iff_left_of_imp (hpublished m)
  refine ⟨hnumbered, hpub, ?_⟩
  have hsub : (indexedValues order ix).values ⊆ ix.hashToMaster.entries.map Sigma.snd :=
    fun m hm => (hpub m).mp hm
  have hle := (List.Nodup.subperm hnumbered.nodup hsub).length_le
  rwa [List.length_map] at hle

theorem encodeBlockIndice_of_fits {k : BlockIndice} (h : k.path.bytes.length + 13 < 2 ^ 31) :
    encodeBlockIndice k = some ((encodeBlockIndice k).getD []) := by
  have htotal : sizeofInt + (k.path.bytes.length + 1) + sizeofSize < 2 ^ 31 := by
    rw [show sizeofInt = 4 from rfl, show sizeofSize = 8 from rfl]
    omega
  simp only [encodeBlockIndice, if_pos htotal, Option.getD_some]

theorem encodeStr_of_fits {path : CString} (h : path.bytes.length + 13 < 2 ^ 31) :
    encodeStr path = some path.withNul :=
  encodeStr_eq_some.mpr ⟨by omega, rfl⟩

theorem FitsWords.fieldsFit (h : FitsWords ix hp) (order : HashOrder)
    (hpublished : ∀ m ∈ values ix.fileToMaster, ix.Published m) : FieldsFit order ix hp := by
  obtain ⟨hv, hpub, hle⟩ := indexedValues_eq order hpublished
  have hcount : ix.hashToMaster.entries.length < 18446744073709551616 :=
    h.hashCount.trans (by decide)
  exact
    { positions := fun m hm => ((hv.position_lt hm).trans_le hle).trans hcount
      infos := fun m hm => h.infos m ((hpub m).mp hm)
      blocks := fun k m hk => (h.blocks k m hk).2
      sizes := fun path size hsize => (h.sizes path size hsize).2
      free := h.free }

/-- A lookup that finds the image of what is found in a table. -/
theorem eq_map_lookup {K : Type} [DecidableEq K] {t : Table K Ptr} {es : List ((_ : K) × Ptr)}
    (hperm : es.Perm t.entries) {f : Ptr → Ptr} {n : Nat} (hlt : ∀ e ∈ es, f e.2 < n) {k : K}
    {found : Option Ptr}
    (hfound : ∀ m', found = some m' ↔ ∃ e ∈ es, e.1 = k ∧ f e.2 = m' ∧ m' < n) :
    found = (t.lookup k).map f := by
  refine Option.ext fun m' => ?_
  rw [hfound, Option.map_eq_some_iff]
  constructor
  · rintro ⟨⟨_, m⟩, he, rfl, rfl, -⟩
    exact ⟨m, Table.mem_entries_iff.mp (hperm.mem_iff.mp he), rfl⟩
  · rintro ⟨m, hm, rfl⟩
    have he := hperm.mem_iff.mpr (Table.mem_entries_iff.mpr hm)
    exact ⟨⟨k, m⟩, he, rfl, rfl, hlt _ he⟩

/-- What is loaded from complete files. -/
theorem Loaded.renamed {ix' : Index} {hp' : Heap}
    (h : Loaded save ix hp (fun file => (files file).length) ix' hp')
    (hsaved : Saved save ix hp files) (hfits : FitsWords ix hp)
    (hpublished : ∀ m ∈ values ix.fileToMaster, ix.Published m) :
    Renamed ix hp (indexedValues save.order ix).position ix' hp' := by
  obtain ⟨hv, hpub, hle⟩ := indexedValues_eq save.order hpublished
  have hhash := save.order.perm ix.hashToMaster
  have hfile := save.order.perm ix.fileToMaster
  have hsize := save.order.perm ix.fileToSizes
  obtain ⟨hhashes, hblocks, hsizes, hfree, hheap⟩ := h
  have hkept : keptValues save ix hp (fun file => (files file).length) =
      (indexedValues save.order ix).values := by
    rw [keptValues, hsaved.masterInfos]
    exact loadedPart_eq_self (hle.trans_lt hfits.hashCount)
  rw [hkept, hsaved.hashToMaster,
    loadedPart_eq_self (hhash.length_eq.trans_lt hfits.hashCount)] at hhashes
  rw [hkept, hsaved.fileToMaster,
    loadedPart_eq_self (hfile.length_eq.trans_lt hfits.fileCount)] at hblocks
  rw [hsaved.fileToSizes, loadedPart_eq_self (hsize.length_eq.trans_lt hfits.sizeCount)] at hsizes
  rw [hsaved.freeBlockList, loadedPart_eq_self hfits.freeCount] at hfree
  rw [hkept] at hheap
  subst hheap
  obtain ⟨-, hbrk, hcell⟩ := allocAll_eq ((indexedValues save.order ix).values.map hp.cell)
  rw [List.length_map] at hbrk
  refine ⟨fun x => ?_, fun path b => ?_, fun path => ?_, hfree, fun m hm => ?_, ?_, fun m' => ?_⟩
  · exact eq_map_lookup hhash (fun e he => hv.position_lt ((hpub e.2).mpr
      (List.mem_map_of_mem (hhash.mem_iff.mp he)))) (hhashes x)
  · exact eq_map_lookup hfile (fun e he => hv.position_lt ((hpub e.2).mpr
      (hpublished e.2 (List.mem_map_of_mem (hfile.mem_iff.mp he))))) (hblocks path b)
  · refine Option.ext fun size => ?_
    rw [hsizes, hsize.mem_iff, Table.mem_entries_iff]
  · have hmem := (hpub m).mpr hm
    refine ⟨hv.cell_allocAll List.prefix_rfl hmem (hv.position_lt hmem), ?_⟩
    rw [hbrk]
    exact hv.position_lt hmem
  · exact fun m m' hm hm' => hv.position_inj ((hpub m).mpr hm) ((hpub m').mpr hm')
  · rw [hcell, List.getElem?_map]
    cases (indexedValues save.order ix).values[m']? with
    | none => exact .inl rfl
    | some m => exact .inr ⟨m, rfl⟩

/-- What `index_init` loads is what `index_destroy` saved, up to the addresses. -/
theorem renamed_of_destroy_init (save : SaveEnv) (load : LoadEnv)
    (hpublished : ∀ m ∈ values ix.fileToMaster, ix.Published m) (hfits : FitsWords ix hp)
    (hwrite : ∀ file k, save.answers file k = .complete)
    (hread : ∀ file k, 0 < load.answers file k) :
    ∃ files ix' hp', indexDestroy save ix hp = some files ∧
      indexInit load files = some (ix', hp') ∧
      Renamed ix hp (indexedValues save.order ix).position ix' hp' := by
  have hblocks : ∀ e ∈ save.order.entries ix.fileToMaster,
      encodeBlockIndice e.1 = some ((encodeBlockIndice e.1).getD []) := fun e he =>
    encodeBlockIndice_of_fits (hfits.blocks e.1 e.2 (Table.mem_entries_iff.mp
      ((save.order.perm ix.fileToMaster).mem_iff.mp he))).1
  have hpaths : ∀ e ∈ save.order.entries ix.fileToSizes, encodeStr e.1 = some e.1.withNul :=
    fun e he => encodeStr_of_fits (hfits.sizes e.1 e.2 (Table.mem_entries_iff.mp
      ((save.order.perm ix.fileToSizes).mem_iff.mp he))).1
  obtain ⟨files, hsave, hsaved⟩ := exists_saved save ix hp hwrite hblocks hpaths
  obtain ⟨ix', hp', hload, hloaded⟩ := indexInit_cut (hfits.fieldsFit save.order hpublished) hsaved
    hread fun file => (files file).length
  have hwhole : files.cut (fun file => (files file).length) = files :=
    funext fun file => List.take_length
  rw [hwhole] at hload
  exact ⟨files, ix', hp', hsave, hload, hloaded.renamed hsaved hfits hpublished⟩

/-- The second index finds what the first finds, and its tables share the same objects. -/
structure SameIndex (ix : Index) (hp : Heap) (ix' : Index) (hp' : Heap) : Prop where
  hashes : ∀ h, (ix'.lookupByHash h).map hp'.cell = (ix.lookupByHash h).map hp.cell
  blocks : ∀ path b,
    (ix'.lookupByFileBlock path b).map hp'.cell = (ix.lookupByFileBlock path b).map hp.cell
  sizes : ∀ path, ix'.fileToSizes.lookup path = ix.fileToSizes.lookup path
  free : ix'.freeBlockList = ix.freeBlockList
  shared : ∀ path b h,
    (∃ m, ix'.lookupByFileBlock path b = some m ∧ ix'.lookupByHash h = some m) ↔
      ∃ m, ix.lookupByFileBlock path b = some m ∧ ix.lookupByHash h = some m

theorem Renamed.sameIndex {ix' : Index} {hp' : Heap} {f : Ptr → Ptr}
    (h : Renamed ix hp f ix' hp') (hpublished : ∀ m ∈ values ix.fileToMaster, ix.Published m) :
    SameIndex ix hp ix' hp' where
  hashes x := by
    rw [h.hashes, Option.map_map]
    refine Option.map_congr fun m hm => ?_
    exact (h.cells m (Table.mem_values_of_lookup hm)).1
  blocks path b := by
    rw [h.blocks, Option.map_map]
    refine Option.map_congr fun m hm => ?_
    exact (h.cells m (hpublished m (Table.mem_values_of_lookup hm))).1
  sizes := h.sizes
  free := h.free
  shared path b x := by
    rw [h.blocks, h.hashes]
    constructor
    · rintro ⟨m', hblock, hhash⟩
      obtain ⟨m₁, hm₁, rfl⟩ := Option.map_eq_some_iff.mp hblock
      obtain ⟨m₂, hm₂, heq⟩ := Option.map_eq_some_iff.mp hhash
      obtain rfl := h.inj m₂ m₁ (Table.mem_values_of_lookup hm₂)
        (hpublished m₁ (Table.mem_values_of_lookup hm₁)) heq
      exact ⟨m₂, hm₁, hm₂⟩
    · rintro ⟨m, hblock, hhash⟩
      exact ⟨f m, by rw [hblock, Option.map_some], by rw [hhash, Option.map_some]⟩

/-- Every index whose mapped objects are all published is saved and loaded again with the same
    contents and the same sharing, in whatever order its tables are gone through, and whatever
    part of a file each read returns. -/
theorem index_round_trip (save : SaveEnv) (load : LoadEnv)
    (hpublished : ∀ m ∈ values ix.fileToMaster, ix.Published m) (hfits : FitsWords ix hp)
    (hwrite : ∀ file k, save.answers file k = .complete)
    (hread : ∀ file k, 0 < load.answers file k) :
    ∃ files ix' hp', indexDestroy save ix hp = some files ∧
      indexInit load files = some (ix', hp') ∧ SameIndex ix hp ix' hp' := by
  obtain ⟨files, ix', hp', hsave, hload, hrenamed⟩ :=
    renamed_of_destroy_init save load hpublished hfits hwrite hread
  exact ⟨files, ix', hp', hsave, hload, hrenamed.sameIndex hpublished⟩

end

/-- The first blocks of `a` and `b` are one object, the second of `b` is another, and two
    slots are free. -/
def sharedBlock : Index where
  hashToMaster := (AList.singleton (Vector.replicate hashSize 0) 0).insert
    (Vector.replicate hashSize 1) 1
  fileToMaster := ((AList.singleton ⟨pathA, 0⟩ 0).insert ⟨pathB, 0⟩ 0).insert ⟨pathB, 1⟩ 1
  freeBlockList := [3, 1]
  fileToSizes := (AList.singleton pathA 4096).insert pathB 8192

def sharedBlockHeap : Heap where
  cell := fun m =>
    if m = 0 then { hash := Vector.replicate hashSize 0, masterBlockIndex := 2, refcount := 2 }
    else { hash := Vector.replicate hashSize 1, masterBlockIndex := 0, refcount := 1 }
  brk := 2
  freed := []

theorem published_sharedBlock : ∀ m ∈ values sharedBlock.fileToMaster, sharedBlock.Published m := by
  unfold Index.Published
  decide +kernel

/-- Writes are complete, and reads return one byte each. -/
def bytewiseSave : SaveEnv where
  order := .lastFirst
  answers := fun _ _ => .complete
  padding := fun _ => Vector.replicate 4 0

def bytewiseLoad : LoadEnv where
  order := .lastFirst
  answers := fun _ _ => 1

/-- A check that the entries of an index fit. -/
def fitsCheck (ix : Index) (hp : Heap) : Bool :=
  decide (ix.hashToMaster.entries.length < 2 ^ 31 ∧ ix.fileToMaster.entries.length < 2 ^ 31 ∧
    ix.fileToSizes.entries.length < 2 ^ 31 ∧ ix.freeBlockList.length < 2 ^ 31) &&
  ix.hashToMaster.entries.all (fun e =>
    (hp.cell e.2).masterBlockIndex < 2 ^ 64 ∧ (hp.cell e.2).refcount < 2 ^ 32) &&
  ix.fileToMaster.entries.all (fun e =>
    e.1.path.bytes.length + 13 < 2 ^ 31 ∧ e.1.offset < 2 ^ 64) &&
  ix.fileToSizes.entries.all (fun e => e.1.bytes.length + 13 < 2 ^ 31 ∧ e.2 < 2 ^ 64) &&
  ix.freeBlockList.all (· < 2 ^ 64)

theorem fitsWords_of_fitsCheck {ix : Index} {hp : Heap} (h : fitsCheck ix hp) :
    FitsWords ix hp := by
  simp only [fitsCheck, Bool.and_eq_true, decide_eq_true_eq, List.all_eq_true] at h
  obtain ⟨⟨⟨⟨⟨hhash, hfile, hsize, hfree⟩, hinfos⟩, hblocks⟩, hsizes⟩, hslots⟩ := h
  refine ⟨hhash, hfile, hsize, hfree, fun m hm => ?_, fun k m hk => ?_, fun path size hp => ?_,
    hslots⟩
  · obtain ⟨x, hx⟩ := Table.mem_values.mp hm
    exact hinfos ⟨x, m⟩ (Table.mem_entries_iff.mpr hx)
  · exact hblocks ⟨k, m⟩ (Table.mem_entries_iff.mpr hk)
  · exact hsizes ⟨path, size⟩ (Table.mem_entries_iff.mpr hp)

theorem index_round_trip_of_sharedBlock : ∃ files ix' hp',
    indexDestroy bytewiseSave sharedBlock sharedBlockHeap = some files ∧
      indexInit bytewiseLoad files = some (ix', hp') ∧
      SameIndex sharedBlock sharedBlockHeap ix' hp' :=
  index_round_trip bytewiseSave bytewiseLoad published_sharedBlock
    (fitsWords_of_fitsCheck (by decide +kernel)) (fun _ _ => rfl) fun _ _ => Nat.one_pos

end DedupBlockFS
