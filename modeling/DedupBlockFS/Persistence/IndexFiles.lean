-- SUMMARY: Saving the index when the file system is unmounted and loading it when it is mounted: the five files and what is in them.
import DedupBlockFS.Persistence.Tables
import Mathlib.Data.List.Induction

/-!
# The files of the index

`index_destroy` saves the index to five files and `index_init` loads it from them. The
`MasterInfo` objects go to a file of their own, each once, and the two tables that share them
refer to them by position. What is in the files if every write is complete is `Saved`; there is
such a result exactly if every key can be encoded.
-/

namespace DedupBlockFS

open ByteFile
open Table (values)

/-- The files that the index is saved to. -/
inductive IndexFile where
  | hashToMaster
  | fileToMaster
  | masterInfos
  | fileToSizes
  | freeBlockList
  deriving DecidableEq

/-- Their contents; a file that is not there is empty. -/
abbrev IndexFiles := IndexFile → List UInt8

def IndexFiles.of (hashToMaster fileToMaster masterInfos fileToSizes freeBlockList : List UInt8) :
    IndexFiles
  | .hashToMaster => hashToMaster
  | .fileToMaster => fileToMaster
  | .masterInfos => masterInfos
  | .fileToSizes => fileToSizes
  | .freeBlockList => freeBlockList

/-- The environment of `index_destroy`: the order of the tables, the results of the writes, and
    the bytes behind the last field of each object. -/
structure SaveEnv where
  order : HashOrder
  answers : IndexFile → Nat → PwriteResult
  padding : Ptr → Vector UInt8 4

/-- The environment of `index_init`: the order of the tables, and the results of the reads. -/
structure LoadEnv where
  order : HashOrder
  answers : IndexFile → Nat → Nat

/-- The values in `ghash_save_indexed_pair`. -/
def indexedValues (order : HashOrder) (ix : Index) : IndexedValues :=
  collectValues order ix.fileToMaster (collectValues order ix.hashToMaster .empty)

/-- `index_destroy`. -/
def indexDestroy (env : SaveEnv) (ix : Index) (hp : Heap) : Option IndexFiles := do
  let v := indexedValues env.order ix
  let masterInfos ← gslistSave (env.answers .masterInfos) v.values fun m =>
    encodeMasterInfo (env.padding m) (hp.cell m)
  let hashToMaster ← saveIndexedTable env.order (env.answers .hashToMaster) v ix.hashToMaster
    fun h => some (encodeHash h)
  let fileToMaster ← saveIndexedTable env.order (env.answers .fileToMaster) v ix.fileToMaster
    encodeBlockIndice
  let fileToSizes ← ghashSave env.order (env.answers .fileToSizes) ix.fileToSizes encodeStr
    fun n => some (encodeSize n)
  let freeBlockList ← gslistSave (env.answers .freeBlockList) ix.freeBlockList encodeFreeBlock
  return .of hashToMaster fileToMaster masterInfos fileToSizes freeBlockList

/-- The objects that `decode_master_info` allocates one after the other, and their addresses. -/
def allocAll (infos : List MasterInfo) : Heap × List Ptr :=
  infos.foldl (fun s info => ((s.1.alloc info).1, s.2 ++ [(s.1.alloc info).2])) (.empty, [])

/-- `index_init`. -/
def indexInit (env : LoadEnv) (files : IndexFiles) : Option (Index × Heap) := do
  let infos ← gslistLoad (files .masterInfos) (env.answers .masterInfos) decodeMasterInfo
  let loaded := allocAll infos
  let table1Idx : Table Hash Nat ← ghashLoad (files .hashToMaster) (env.answers .hashToMaster)
    decodeHash some decodeSizeElem
  let table2Idx : Table BlockIndice Nat ← ghashLoad (files .fileToMaster)
    (env.answers .fileToMaster) decodeBlockIndice RawBlockIndice.asKey decodeSizeElem
  let fileToSizes ← ghashLoad (files .fileToSizes) (env.answers .fileToSizes) decodeStr asCString
    decodeSize
  let freeBlockList ← gslistLoad (files .freeBlockList) (env.answers .freeBlockList)
    decodeFreeBlock
  return ({ hashToMaster := resolveIndices env.order loaded.2 table1Idx
            fileToMaster := resolveIndices env.order loaded.2 table2Idx
            freeBlockList := freeBlockList
            fileToSizes := fileToSizes }, loaded.1)

/-! ## Positions and addresses -/

/-- The new objects are numbered from 0. -/
theorem allocAll_eq (infos : List MasterInfo) :
    (allocAll infos).2 = List.range infos.length ∧ (allocAll infos).1.brk = infos.length ∧
      ∀ i, (allocAll infos).1.cell i = infos[i]?.getD (Heap.empty.cell i) := by
  induction infos using List.reverseRecOn with
  | nil => exact ⟨rfl, rfl, fun i => rfl⟩
  | append_singleton infos last ih =>
    obtain ⟨haddr, hbrk, hcell⟩ := ih
    have hstep : allocAll (infos ++ [last]) =
        (((allocAll infos).1.alloc last).1, (allocAll infos).2 ++ [(allocAll infos).1.brk]) := by
      rw [allocAll, List.foldl_append]
      rfl
    rw [hstep, List.length_append, List.length_singleton]
    refine ⟨?_, ?_, fun i => ?_⟩
    · rw [haddr, hbrk, List.range_succ]
    · rw [Heap.alloc_brk, hbrk]
    · rw [Heap.alloc_cell, hbrk, List.getElem?_append, hcell]
      split
      · rename_i hlast
        rw [hlast, if_neg (Nat.lt_irrefl _), Nat.sub_self]
        rfl
      · rename_i hne
        split
        · rfl
        · rename_i hge
          have hle : infos.length ≤ i := Nat.not_lt.mp hge
          have hlt : infos.length < i := lt_of_le_of_ne hle fun heq => hne heq.symm
          rw [List.getElem?_eq_none hle, List.getElem?_eq_none (Nat.sub_pos_of_lt hlt)]

/-- The position of a value, which is its address after loading. -/
def IndexedValues.position (v : IndexedValues) (m : Ptr) : Nat :=
  (v.valueToIndex.lookup m).getD 1 - 1

section
variable {v : IndexedValues} {m m' : Ptr}

theorem IndexedValues.Numbered.get_position (h : v.Numbered) (hm : m ∈ v.values) :
    v.valueToIndex.lookup m = some (v.position m + 1) ∧ v.values[v.position m]? = some m := by
  obtain ⟨stored, hstored⟩ := Option.ne_none_iff_exists'.mp (h.known m hm)
  obtain ⟨hpos, hget⟩ := h.position m stored hstored
  have hposition : v.position m = stored - 1 := by
    rw [IndexedValues.position, hstored, Option.getD_some]
  rw [hposition, hstored, Nat.sub_add_cancel hpos]
  exact ⟨rfl, hget⟩

theorem IndexedValues.Numbered.position_lt (h : v.Numbered) (hm : m ∈ v.values) :
    v.position m < v.values.length :=
  (List.getElem?_eq_some_iff.mp (h.get_position hm).2).1

theorem IndexedValues.Numbered.position_inj (h : v.Numbered) (hm : m ∈ v.values)
    (hm' : m' ∈ v.values) (heq : v.position m = v.position m') : m = m' := by
  have hget := (h.get_position hm).2
  rw [heq, (h.get_position hm').2] at hget
  exact (Option.some.inj hget).symm

end

/-- There are no more positions than addresses. -/
theorem IndexedValues.Numbered.position_lt_of_lt {v : IndexedValues} (h : v.Numbered) {n : Nat}
    (hlt : ∀ m ∈ v.values, m < n) {m : Ptr} (hm : m ∈ v.values) : v.position m < n := by
  have hsub : v.values ⊆ List.range n := fun m hm => List.mem_range.mpr (hlt m hm)
  have hle := (List.Nodup.subperm h.nodup hsub).length_le
  rw [List.length_range] at hle
  exact lt_of_lt_of_le (h.position_lt hm) hle

/-- An object that is loaded at its position is the one that was saved. -/
theorem IndexedValues.Numbered.cell_allocAll {v : IndexedValues} (h : v.Numbered) {hp : Heap}
    {kept : List Ptr} (hkept : kept <+: v.values) {m : Ptr} (hm : m ∈ v.values)
    (hlt : v.position m < kept.length) :
    (allocAll (kept.map hp.cell)).1.cell (v.position m) = hp.cell m := by
  have hget := List.prefix_iff_getElem?.mp hkept _ hlt
  rw [(h.get_position hm).2] at hget
  obtain ⟨-, -, hcell⟩ := allocAll_eq (kept.map hp.cell)
  rw [hcell, List.getElem?_map, List.getElem?_eq_getElem hlt, ← hget]
  rfl

/-! ## What is in the files -/

/-- The bytes of an entry in each of the files. -/
def infoBytes (save : SaveEnv) (hp : Heap) (m : Ptr) : List UInt8 :=
  record (encodeMasterInfo (save.padding m) (hp.cell m))

def hashBytes (v : IndexedValues) (e : (_ : Hash) × Ptr) : List UInt8 :=
  record (encodeHash e.1) ++ record (encodeSize (v.position e.2))

def blockBytes (v : IndexedValues) (e : (_ : BlockIndice) × Ptr) : List UInt8 :=
  record ((encodeBlockIndice e.1).getD []) ++ record (encodeSize (v.position e.2))

def sizeBytes (e : (_ : CString) × Nat) : List UInt8 :=
  record e.1.withNul ++ record (encodeSize e.2)

def slotBytes (slot : Nat) : List UInt8 := record (encodeFreeBlock slot)

/-- The files of `index_destroy`: what the keys are saved as, and the contents of each. -/
structure Saved (save : SaveEnv) (ix : Index) (hp : Heap) (files : IndexFiles) : Prop where
  blocks : ∀ e ∈ save.order.entries ix.fileToMaster,
    encodeBlockIndice e.1 = some ((encodeBlockIndice e.1).getD [])
  paths : ∀ e ∈ save.order.entries ix.fileToSizes, encodeStr e.1 = some e.1.withNul
  masterInfos : files .masterInfos =
    fileContents (infoBytes save hp) (indexedValues save.order ix).values
  hashToMaster : files .hashToMaster =
    fileContents (hashBytes (indexedValues save.order ix)) (save.order.entries ix.hashToMaster)
  fileToMaster : files .fileToMaster =
    fileContents (blockBytes (indexedValues save.order ix)) (save.order.entries ix.fileToMaster)
  fileToSizes : files .fileToSizes = fileContents sizeBytes (save.order.entries ix.fileToSizes)
  freeBlockList : files .freeBlockList = fileContents slotBytes ix.freeBlockList

/-- The saved objects are those of the two tables. -/
theorem indexedValues_numbered (order : HashOrder) (ix : Index) :
    (indexedValues order ix).Numbered ∧ ∀ m, m ∈ (indexedValues order ix).values ↔
      m ∈ values ix.hashToMaster ∨ m ∈ values ix.fileToMaster := by
  obtain ⟨hfirst, hmem⟩ := IndexedValues.numbered_empty.collect order ix.hashToMaster
  obtain ⟨hboth, hmem'⟩ := hfirst.collect order ix.fileToMaster
  refine ⟨hboth, fun m => ?_⟩
  rw [indexedValues, hmem', hmem]
  simp [IndexedValues.empty]

/-- The entry of a shared value is saved with its position. -/
theorem appends_saveIndexedEntry {K : Type} {v : IndexedValues} (hv : v.Numbered)
    {encodeKey : K → Option (List UInt8)} {e : (_ : K) × Ptr} {keyBytes : List UInt8}
    (hvalue : e.2 ∈ v.values) (hencode : encodeKey e.1 = some keyBytes) :
    Appends (saveIndexedEntry v encodeKey · e)
      (record keyBytes ++ record (encodeSize (v.position e.2))) := by
  have hstored := (hv.get_position hvalue).1
  have hsave : ∀ w, saveIndexedEntry v encodeKey w e =
      saveEntry encodeKey (fun idx => some (encodeSize idx)) w ⟨e.1, v.position e.2⟩ := by
    intro w
    simp only [saveIndexedEntry, hstored, Nat.add_sub_cancel]
  simp only [hsave]
  exact appends_saveEntry hencode rfl

section
variable {α K V : Type} {answers : Nat → PwriteResult}

theorem exists_of_foldlM {β : Type} {f : β → α → Option β} {xs : List α} {b b' : β}
    (h : xs.foldlM f b = some b') {x : α} (hx : x ∈ xs) : ∃ c c', f c x = some c' := by
  induction xs generalizing b with
  | nil => cases hx
  | cons y xs ih =>
    rw [List.foldlM_cons] at h
    obtain ⟨c, hfirst, hrest⟩ := Option.bind_eq_some_iff.mp h
    rcases List.mem_cons.mp hx with rfl | hx
    · exact ⟨b, c, hfirst⟩
    · exact ih hrest hx

/-- A file is saved only if each of its entries is. -/
theorem exists_of_saveAll {entries : List α} {save : BufferedWriter → α → Option BufferedWriter}
    {file : List UInt8} (h : saveAll answers entries save = some file) {x : α} (hx : x ∈ entries) :
    ∃ w w', save w x = some w' := by
  obtain ⟨w, -, h⟩ := Option.bind_eq_some_iff.mp h
  obtain ⟨w', hentries, -⟩ := Option.bind_eq_some_iff.mp h
  exact exists_of_foldlM hentries hx

theorem encodes_of_saveEntry {encodeKey : K → Option (List UInt8)}
    {encodeVal : V → Option (List UInt8)} {w w' : BufferedWriter} {e : (_ : K) × V}
    (h : saveEntry encodeKey encodeVal w e = some w') : ∃ bytes, encodeKey e.1 = some bytes := by
  obtain ⟨bytes, hkey, -⟩ := Option.bind_eq_some_iff.mp h
  exact ⟨bytes, hkey⟩

end

section
variable {ix : Index} {hp : Heap} {save : SaveEnv} {files : IndexFiles}

/-- Complete writes save every index whose keys can be encoded. -/
theorem exists_saved (save : SaveEnv) (ix : Index) (hp : Heap)
    (hwrite : ∀ file k, save.answers file k = .complete)
    (hblocks : ∀ e ∈ save.order.entries ix.fileToMaster,
      encodeBlockIndice e.1 = some ((encodeBlockIndice e.1).getD []))
    (hpaths : ∀ e ∈ save.order.entries ix.fileToSizes, encodeStr e.1 = some e.1.withNul) :
    ∃ files, indexDestroy save ix hp = some files ∧ Saved save ix hp files := by
  obtain ⟨hv, hmem⟩ := indexedValues_numbered save.order ix
  have hinfosSave := gslistSave_eq (hwrite .masterInfos) (indexedValues save.order ix).values
    fun m => encodeMasterInfo (save.padding m) (hp.cell m)
  have hhashSave : saveIndexedTable save.order (save.answers .hashToMaster)
      (indexedValues save.order ix) ix.hashToMaster (fun h => some (encodeHash h)) = some _ :=
    saveAll_eq (hwrite .hashToMaster) fun e he => appends_saveIndexedEntry hv ((hmem e.2).mpr
      (.inl (List.mem_map_of_mem ((save.order.perm ix.hashToMaster).mem_iff.mp he)))) rfl
  have hblockSave : saveIndexedTable save.order (save.answers .fileToMaster)
      (indexedValues save.order ix) ix.fileToMaster encodeBlockIndice = some _ :=
    saveAll_eq (hwrite .fileToMaster) fun e he => appends_saveIndexedEntry hv ((hmem e.2).mpr
      (.inr (List.mem_map_of_mem ((save.order.perm ix.fileToMaster).mem_iff.mp he))))
      (hblocks e he)
  have hsizeSave : ghashSave save.order (save.answers .fileToSizes) ix.fileToSizes encodeStr
      (fun n => some (encodeSize n)) = some _ :=
    saveAll_eq (hwrite .fileToSizes) fun e he => appends_saveEntry (hpaths e he) rfl
  have hfreeSave := gslistSave_eq (hwrite .freeBlockList) ix.freeBlockList encodeFreeBlock
  refine ⟨.of _ _ _ _ _, ?_, ⟨hblocks, hpaths, rfl, rfl, rfl, rfl, rfl⟩⟩
  simp only [indexDestroy, hinfosSave, hhashSave, hblockSave, hsizeSave, hfreeSave]
  rfl

/-- What is saved has keys that can be encoded. -/
theorem saved_of_indexDestroy (hwrite : ∀ file k, save.answers file k = .complete)
    (hsave : indexDestroy save ix hp = some files) : Saved save ix hp files := by
  obtain ⟨hv, hmem⟩ := indexedValues_numbered save.order ix
  obtain ⟨infosFile, -, hrest⟩ := Option.bind_eq_some_iff.mp hsave
  obtain ⟨hashFile, -, hrest⟩ := Option.bind_eq_some_iff.mp hrest
  obtain ⟨blockFile, hblockSave, hrest⟩ := Option.bind_eq_some_iff.mp hrest
  obtain ⟨sizeFile, hsizeSave, -⟩ := Option.bind_eq_some_iff.mp hrest
  have hblocks : ∀ e ∈ save.order.entries ix.fileToMaster,
      encodeBlockIndice e.1 = some ((encodeBlockIndice e.1).getD []) := by
    intro e he
    have hvalue : e.2 ∈ (indexedValues save.order ix).values := (hmem e.2).mpr
      (.inr (List.mem_map_of_mem ((save.order.perm ix.fileToMaster).mem_iff.mp he)))
    obtain ⟨w, w', hentry⟩ := exists_of_saveAll hblockSave he
    simp only [saveIndexedEntry, (hv.get_position hvalue).1] at hentry
    obtain ⟨bytes, hbytes⟩ := encodes_of_saveEntry hentry
    rw [hbytes, Option.getD_some]
  have hpaths : ∀ e ∈ save.order.entries ix.fileToSizes, encodeStr e.1 = some e.1.withNul := by
    intro e he
    obtain ⟨w, w', hentry⟩ := exists_of_saveAll hsizeSave he
    obtain ⟨bytes, hbytes⟩ := encodes_of_saveEntry hentry
    rw [hbytes, (encodeStr_eq_some.mp hbytes).2]
  obtain ⟨files', hsave', hsaved⟩ := exists_saved save ix hp hwrite hblocks hpaths
  obtain rfl := Option.some.inj (hsave.symm.trans hsave')
  exact hsaved

end

end DedupBlockFS
