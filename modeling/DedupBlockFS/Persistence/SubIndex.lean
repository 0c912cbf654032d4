-- SUMMARY: The index that is loaded from files of which only prefixes are left: it is a part of the one that was saved.
import DedupBlockFS.Persistence.Reload

/-!
# Loading what is left

The five files of an index, each cut off somewhere. What `index_init` makes of them is a part of
the saved index (`SubIndex`), whose two tables still share their objects. Of `file_to_sizes` and of
the free list it is the part that is whole, unless the number of entries does not fit the `int`
in front of them.
-/

namespace DedupBlockFS

open ByteFile
open Table (values)

/-- The addresses and the fields of the index fit their machine words. -/
structure InWords (ix : Index) (hp : Heap) : Prop where
  infos : ∀ m, m ∈ values ix.hashToMaster ∨ m ∈ values ix.fileToMaster →
    m < 2 ^ 64 ∧ (hp.cell m).masterBlockIndex < 2 ^ 64 ∧ (hp.cell m).refcount < 2 ^ 32
  blocks : ∀ k m, ix.fileToMaster.lookup k = some m → k.offset < 2 ^ 64
  sizes : ∀ path size, ix.fileToSizes.lookup path = some size → size < 2 ^ 64
  free : ∀ slot ∈ ix.freeBlockList, slot < 2 ^ 64

theorem FitsWords.inWords {ix : Index} {hp : Heap} (h : FitsWords ix hp)
    (hpublished : ∀ m ∈ values ix.fileToMaster, ix.Published m)
    (haddress : ∀ m, ix.Published m → m < 2 ^ 64) : InWords ix hp where
  infos m hm := by
    have hpub : ix.Published m := hm.elim id (hpublished m)
    exact ⟨haddress m hpub, h.infos m hpub⟩
  blocks k m hk := (h.blocks k m hk).2
  sizes path size hsize := (h.sizes path size hsize).2
  free := h.free

/-- The entries of `file_to_sizes` and the slots of the free list that are whole in a prefix of
    their file. -/
def wholeSizes (order : HashOrder) (ix : Index) (len : Nat) : List ((_ : CString) × Nat) :=
  whole sizeBytes (order.entries ix.fileToSizes) (len - sizeofInt)

def wholeSlots (ix : Index) (len : Nat) : List Nat :=
  whole slotBytes ix.freeBlockList (len - sizeofInt)

/-- The second index has some of the entries of the first, and its tables share the objects that
    those of the first share. -/
structure SubIndex (ix : Index) (hp : Heap) (ix' : Index) (hp' : Heap) : Prop where
  hashes : ∀ h m', ix'.lookupByHash h = some m' →
    ∃ m, ix.lookupByHash h = some m ∧ hp'.cell m' = hp.cell m
  blocks : ∀ path b m', ix'.lookupByFileBlock path b = some m' →
    ∃ m, ix.lookupByFileBlock path b = some m ∧ hp'.cell m' = hp.cell m
  sizes : ∀ path size, ix'.fileToSizes.lookup path = some size →
    ix.fileToSizes.lookup path = some size
  shared : ∀ path b h m₁ m₂, ix'.lookupByFileBlock path b = some m₁ →
    ix'.lookupByHash h = some m₂ →
      (m₁ = m₂ ↔ ix.lookupByFileBlock path b = ix.lookupByHash h)
  sharedBlocks : ∀ path₁ b₁ path₂ b₂ m₁ m₂, ix'.lookupByFileBlock path₁ b₁ = some m₁ →
    ix'.lookupByFileBlock path₂ b₂ = some m₂ →
      (m₁ = m₂ ↔ ix.lookupByFileBlock path₁ b₁ = ix.lookupByFileBlock path₂ b₂)

/-- `index_init` loads a part of the index from the files that are cut off, and of `file_to_sizes`
    and the free list exactly what is whole. -/
def LoadsSubIndex (order : HashOrder) (ix : Index) (hp : Heap) (load : LoadEnv)
    (files : IndexFiles) (len : IndexFile → Nat) : Prop :=
  ∃ ix' hp', indexInit load (files.cut len) = some (ix', hp') ∧ SubIndex ix hp ix' hp' ∧
    (∀ path size, ix'.fileToSizes.lookup path = some size ↔
      ⟨path, size⟩ ∈ wholeSizes order ix (len .fileToSizes)) ∧
    ix'.freeBlockList = wholeSlots ix (len .freeBlockList)

section
variable {ix ix' : Index} {hp hp' : Heap} {save : SaveEnv} {load : LoadEnv} {files : IndexFiles}
  {len : IndexFile → Nat}

theorem InWords.fieldsFit (h : InWords ix hp) (order : HashOrder) : FieldsFit order ix hp := by
  obtain ⟨hv, hmem⟩ := indexedValues_numbered order ix
  exact
    { positions := fun m hm =>
        hv.position_lt_of_lt (fun m hm => (h.infos m ((hmem m).mp hm)).1) hm
      infos := fun m hm => (h.infos m ((hmem m).mp hm)).2
      blocks := h.blocks
      sizes := h.sizes
      free := h.free }

/-- An entry that is loaded is one of the table. -/
theorem lookup_of_mem_loadedPart {K V : Type} [DecidableEq K] {t : Table K V}
    {es : List ((_ : K) × V)} (hperm : es.Perm t.entries)
    {bytes : (_ : K) × V → List UInt8} {n : Nat} {e : (_ : K) × V}
    (he : e ∈ loadedPart bytes es n) : t.lookup e.1 = some e.2 :=
  Table.mem_entries_iff.mp (hperm.mem_iff.mp ((loadedPart_isPrefix bytes es n).subset he))

/-- What is found by a hash. -/
theorem Loaded.lookupByHash (h : Loaded save ix hp len ix' hp') {x : Hash} {m' : Ptr}
    (hm' : ix'.lookupByHash x = some m') :
    ∃ m ∈ (indexedValues save.order ix).values, ix.lookupByHash x = some m ∧
      (indexedValues save.order ix).position m = m' ∧ m' < (keptValues save ix hp len).length := by
  obtain ⟨-, hmem⟩ := indexedValues_numbered save.order ix
  obtain ⟨e, he, rfl, hpos, hlt⟩ := (h.hashes x m').mp hm'
  have hm := lookup_of_mem_loadedPart (save.order.perm ix.hashToMaster) he
  exact ⟨e.2, (hmem e.2).mpr (.inl (Table.mem_values_of_lookup hm)), hm, hpos, hlt⟩

/-- What is found by a block of a file. -/
theorem Loaded.lookupByFileBlock (h : Loaded save ix hp len ix' hp') {path : CString} {b : Nat}
    {m' : Ptr} (hm' : ix'.lookupByFileBlock path b = some m') :
    ∃ m ∈ (indexedValues save.order ix).values, ix.lookupByFileBlock path b = some m ∧
      (indexedValues save.order ix).position m = m' ∧ m' < (keptValues save ix hp len).length := by
  obtain ⟨-, hmem⟩ := indexedValues_numbered save.order ix
  obtain ⟨e, he, hkey, hpos, hlt⟩ := (h.blocks path b m').mp hm'
  have hm := lookup_of_mem_loadedPart (save.order.perm ix.fileToMaster) he
  rw [hkey] at hm
  exact ⟨e.2, (hmem e.2).mpr (.inr (Table.mem_values_of_lookup hm)), hm, hpos, hlt⟩

/-- What is loaded is a part of the index. -/
theorem Loaded.subIndex (h : Loaded save ix hp len ix' hp') : SubIndex ix hp ix' hp' := by
  obtain ⟨hv, -⟩ := indexedValues_numbered save.order ix
  have hkept : keptValues save ix hp len <+: (indexedValues save.order ix).values :=
    loadedPart_isPrefix _ _ _
  have hcell : ∀ m ∈ (indexedValues save.order ix).values,
      (indexedValues save.order ix).position m < (keptValues save ix hp len).length →
        hp'.cell ((indexedValues save.order ix).position m) = hp.cell m := by
    rw [h.heap]
    exact fun m => hv.cell_allocAll hkept
  have hshared : ∀ a ∈ (indexedValues save.order ix).values,
      ∀ c ∈ (indexedValues save.order ix).values,
        ((indexedValues save.order ix).position a = (indexedValues save.order ix).position c ↔
          some a = some c) := by
    intro a ha c hc
    rw [Option.some.injEq]
    exact ⟨hv.position_inj ha hc, congrArg (indexedValues save.order ix).position⟩
  refine ⟨fun x m' hm' => ?_, fun path b m' hm' => ?_, fun path size hfound => ?_,
    fun path b x m₁ m₂ hm₁ hm₂ => ?_, fun path₁ b₁ path₂ b₂ m₁ m₂ hm₁ hm₂ => ?_⟩
  · obtain ⟨m, hmem, hm, rfl, hlt⟩ := h.lookupByHash hm'
    exact ⟨m, hm, hcell m hmem hlt⟩
  · obtain ⟨m, hmem, hm, rfl, hlt⟩ := h.lookupByFileBlock hm'
    exact ⟨m, hm, hcell m hmem hlt⟩
  · exact lookup_of_mem_loadedPart (save.order.perm ix.fileToSizes) ((h.sizes path size).mp hfound)
  · obtain ⟨a, hmem₁, ha, rfl, -⟩ := h.lookupByFileBlock hm₁
    obtain ⟨c, hmem₂, hc, rfl, -⟩ := h.lookupByHash hm₂
    rw [ha, hc]
    exact hshared a hmem₁ c hmem₂
  · obtain ⟨a, hmem₁, ha, rfl, -⟩ := h.lookupByFileBlock hm₁
    obtain ⟨c, hmem₂, hc, rfl, -⟩ := h.lookupByFileBlock hm₂
    rw [ha, hc]
    exact hshared a hmem₁ c hmem₂

/-- What is loaded of `file_to_sizes` and the free list is as much of their whole entries as is
    announced. -/
theorem indexInit_cut_whole (hwords : InWords ix hp) (hsaved : Saved save ix hp files)
    (hread : ∀ file k, 0 < load.answers file k) (len : IndexFile → Nat) :
    ∃ ix' hp', indexInit load (files.cut len) = some (ix', hp') ∧ SubIndex ix hp ix' hp' ∧
      (∀ path size, ix'.fileToSizes.lookup path = some size ↔
        ⟨path, size⟩ ∈ (wholeSizes save.order ix (len .fileToSizes)).take
          (announced (save.order.entries ix.fileToSizes).length)) ∧
      ix'.freeBlockList = (wholeSlots ix (len .freeBlockList)).take
        (announced ix.freeBlockList.length) := by
  obtain ⟨ix', hp', hload, hloaded⟩ :=
    indexInit_cut (hwords.fieldsFit save.order) hsaved hread len
  exact ⟨ix', hp', hload, hloaded.subIndex, hloaded.sizes, hloaded.free⟩

/-- The free list is not longer than what is read of it. -/
theorem LoadsSubIndex.length_wholeSlots_le
    (h : LoadsSubIndex save.order ix hp load files len) (hwords : InWords ix hp)
    (hsaved : Saved save ix hp files) (hread : ∀ file k, 0 < load.answers file k) :
    (wholeSlots ix (len .freeBlockList)).length ≤ announced ix.freeBlockList.length := by
  obtain ⟨ix₁, hp₁, hload₁, -, -, hfree₁⟩ := indexInit_cut_whole hwords hsaved hread len
  obtain ⟨ix₂, hp₂, hload₂, -, -, hfree₂⟩ := h
  obtain ⟨rfl, -⟩ := Prod.ext_iff.mp (Option.some.inj (hload₁.symm.trans hload₂))
  have hlen := congrArg List.length (hfree₂.symm.trans hfree₁)
  rw [List.length_take] at hlen
  exact hlen.le.trans (Nat.min_le_left _ _)

/-- The same for the entries of `file_to_sizes`, which are different from each other. -/
theorem LoadsSubIndex.length_wholeSizes_le
    (h : LoadsSubIndex save.order ix hp load files len) (hwords : InWords ix hp)
    (hsaved : Saved save ix hp files) (hread : ∀ file k, 0 < load.answers file k) :
    (wholeSizes save.order ix (len .fileToSizes)).length ≤
      announced (save.order.entries ix.fileToSizes).length := by
  obtain ⟨ix₁, hp₁, hload₁, -, hsizes₁, -⟩ := indexInit_cut_whole hwords hsaved hread len
  obtain ⟨ix₂, hp₂, hload₂, -, hsizes₂, -⟩ := h
  obtain ⟨rfl, -⟩ := Prod.ext_iff.mp (Option.some.inj (hload₁.symm.trans hload₂))
  have hnodup : (wholeSizes save.order ix (len .fileToSizes)).Nodup :=
    (whole_isPrefix _ _ _).sublist.nodup
      ((save.order.perm ix.fileToSizes).nodup_iff.mpr ix.fileToSizes.nodupKeys.nodup)
  have hsub : wholeSizes save.order ix (len .fileToSizes) ⊆
      (wholeSizes save.order ix (len .fileToSizes)).take
        (announced (save.order.entries ix.fileToSizes).length) :=
    fun ⟨path, size⟩ he => (hsizes₁ path size).mp ((hsizes₂ path size).mpr he)
  have hle := (List.Nodup.subperm hnodup hsub).length_le
  rw [List.length_take] at hle
  exact hle.trans (Nat.min_le_left _ _)

/-- From prefixes of the files, whatever they are, `index_init` loads a part of the index, and of
    `file_to_sizes` and the free list exactly the whole entries, if and only if these are no more
    than the number at the start of the file says. -/
theorem loadsSubIndex_iff (hwords : InWords ix hp)
    (hwrite : ∀ file k, save.answers file k = .complete)
    (hread : ∀ file k, 0 < load.answers file k) (hsave : indexDestroy save ix hp = some files)
    (len : IndexFile → Nat) :
    LoadsSubIndex save.order ix hp load files len ↔
      (wholeSizes save.order ix (len .fileToSizes)).length ≤
          announced ix.fileToSizes.entries.length ∧
        (wholeSlots ix (len .freeBlockList)).length ≤ announced ix.freeBlockList.length := by
  have hsaved := saved_of_indexDestroy hwrite hsave
  have hcount := (save.order.perm ix.fileToSizes).length_eq
  constructor
  · intro h
    have hsizes := h.length_wholeSizes_le hwords hsaved hread
    rw [hcount] at hsizes
    exact ⟨hsizes, h.length_wholeSlots_le hwords hsaved hread⟩
  · rintro ⟨hsizes, hslots⟩
    obtain ⟨ix', hp', hload, hsub, hsizes', hfree⟩ := indexInit_cut_whole hwords hsaved hread len
    rw [hcount, List.take_of_length_le hsizes] at hsizes'
    rw [List.take_of_length_le hslots] at hfree
    exact ⟨ix', hp', hload, hsub, hsizes', hfree⟩

end

/-- Lengths that cut the last entry off each table and off the free list. -/
def cutLengths : IndexFile → Nat
  | .hashToMaster => 100
  | .fileToMaster => 90
  | .masterInfos => 180
  | .fileToSizes => 40
  | .freeBlockList => 30

theorem loadsSubIndex_of_sharedBlock : ∃ files,
    indexDestroy bytewiseSave sharedBlock sharedBlockHeap = some files ∧
      LoadsSubIndex bytewiseSave.order sharedBlock sharedBlockHeap bytewiseLoad files cutLengths := by
  have hfits : FitsWords sharedBlock sharedBlockHeap := fitsWords_of_fitsCheck (by decide +kernel)
  have haddress : ∀ m ∈ values sharedBlock.hashToMaster, m < 2 ^ 64 := by decide +kernel
  have hwords := hfits.inWords published_sharedBlock haddress
  obtain ⟨files, -, -, hsave, -⟩ := renamed_of_destroy_init bytewiseSave bytewiseLoad
    published_sharedBlock hfits (fun _ _ => rfl) fun _ _ => Nat.one_pos
  exact ⟨files, hsave, (loadsSubIndex_iff hwords (fun _ _ => rfl) (fun _ _ => Nat.one_pos) hsave
    cutLengths).mpr (by decide +kernel)⟩

/-- In files that nothing is cut off of, all slots are whole. -/
theorem Saved.wholeSlots_eq {ix : Index} {hp : Heap} {save : SaveEnv} {files : IndexFiles}
    (h : Saved save ix hp files) :
    wholeSlots ix (files .freeBlockList).length = ix.freeBlockList := by
  rw [wholeSlots, h.freeBlockList]
  exact whole_fileContents slotBytes ix.freeBlockList

/-- A free list of `n` slots, and nothing else. -/
def onlyFree (n : Nat) : Index where
  hashToMaster := ∅
  fileToMaster := ∅
  freeBlockList := List.range n
  fileToSizes := ∅

theorem inWords_onlyFree {n : Nat} (hn : n ≤ 2 ^ 64) : InWords (onlyFree n) .empty where
  infos m hm := by
    simp [onlyFree] at hm
  blocks _ _ h := nomatch h
  sizes _ _ h := nomatch h
  free slot hslot := lt_of_lt_of_le (List.mem_range.mp hslot) hn

/-- A free list whose length does not fit the `int` is not loaded as a whole. -/
theorem not_loadsSubIndex_onlyFree {n : Nat} (hn : 2 ^ 31 ≤ n) (hwords : n ≤ 2 ^ 64) : ∃ files len,
    indexDestroy bytewiseSave (onlyFree n) .empty = some files ∧
      ¬LoadsSubIndex bytewiseSave.order (onlyFree n) .empty bytewiseLoad files len := by
  obtain ⟨files, hsave, hsaved⟩ := exists_saved bytewiseSave (onlyFree n) .empty
    (fun _ _ => rfl) (fun _ he => nomatch he) (fun _ he => nomatch he)
  refine ⟨files, fun file => (files file).length, hsave, fun h => ?_⟩
  have hle := h.length_wholeSlots_le (inWords_onlyFree hwords) hsaved fun _ _ => Nat.one_pos
  have hlen : (onlyFree n).freeBlockList.length = n := List.length_range
  rw [hsaved.wholeSlots_eq, hlen] at hle
  exact absurd (announced_lt hn) (Nat.not_lt.mpr hle)

/-- A free list of 2^31 slots. -/
theorem not_loadsSubIndex :
    ¬∀ (save : SaveEnv) (load : LoadEnv) (ix : Index) (hp : Heap) (files : IndexFiles)
      (len : IndexFile → Nat), InWords ix hp → (∀ file k, save.answers file k = .complete) →
      (∀ file k, 0 < load.answers file k) → indexDestroy save ix hp = some files →
        LoadsSubIndex save.order ix hp load files len := by
  intro hall
  obtain ⟨files, len, hsave, hnot⟩ :=
    not_loadsSubIndex_onlyFree (n := 2147483648) (by decide) (by decide)
  exact hnot (hall _ bytewiseLoad _ _ files len (inWords_onlyFree (by decide)) (fun _ _ => rfl)
    (fun _ _ => Nat.one_pos) hsave)

end DedupBlockFS
