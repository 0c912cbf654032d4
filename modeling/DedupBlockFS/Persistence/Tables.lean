-- SUMMARY: Saving and loading hash tables and lists, and the two tables that share their values.
import DedupBlockFS.Persistence.Elements

/-!
# Tables in files

`ghash_save`, `ghash_load`, their versions for two tables with shared values, `gslist_save` and
`gslist_load` of `persistence.c`. Every file is a number of entries, an `int`, and the elements
of the entries one after the other; a table is gone through in an order of its own
(`HashOrder`). A saving function yields the contents of its file and a loading function takes
them; where the code would read or write beyond a buffer there is no result.
-/

namespace DedupBlockFS

open LittleEndian
open ByteFile

/-- The order in which hash tables are gone through: some rearrangement of the entries. -/
structure HashOrder where
  entries : {K V : Type} → Table K V → List ((_ : K) × V)
  perm : ∀ {K V : Type} (t : Table K V), (entries t).Perm t.entries

/-- The last insertion comes first. -/
def HashOrder.lastFirst : HashOrder where
  entries t := t.entries
  perm t := List.Perm.refl t.entries

/-- `BUFFER_SIZE`. -/
def bufferSize : Nat := 10485760

/-- `open` with `O_TRUNC`, and `buffered_io_init`. -/
def openWriter (answers : Nat → PwriteResult) : BufferedWriter :=
  .init bufferSize (by decide) answers

/-- `open` for reading, and `buffered_io_init`. -/
def openReader (file : List UInt8) (answers : Nat → Nat) : BufferedReader :=
  .init bufferSize (by decide) file answers

/-! ## Saving -/

section
variable {α K V : Type}

/-- What the saving functions have in common: the number of entries, each of the entries, and
    the last `flush_write_buffer`. -/
def saveAll (answers : Nat → PwriteResult) (entries : List α)
    (save : BufferedWriter → α → Option BufferedWriter) : Option (List UInt8) := do
  let w ← (openWriter answers).bufferedWrite (leBytes 4 entries.length)
  let w ← entries.foldlM save w
  return w.flushWriteBuffer.file

/-- `save_entry`. -/
def saveEntry (encodeKey : K → Option (List UInt8)) (encodeVal : V → Option (List UInt8))
    (w : BufferedWriter) (e : (_ : K) × V) : Option BufferedWriter := do
  let keyBytes ← encodeKey e.1
  let valBytes ← encodeVal e.2
  let w ← writeElemBuffered w keyBytes
  writeElemBuffered w valBytes

/-- `ghash_save`. -/
def ghashSave (order : HashOrder) (answers : Nat → PwriteResult) (ht : Table K V)
    (encodeKey : K → Option (List UInt8)) (encodeVal : V → Option (List UInt8)) :
    Option (List UInt8) :=
  saveAll answers (order.entries ht) (saveEntry encodeKey encodeVal)

/-- `gslist_save`, and `save_values_array`. -/
def gslistSave (answers : Nat → PwriteResult) (list : List α) (encodeElem : α → List UInt8) :
    Option (List UInt8) :=
  saveAll answers list fun w elem => writeElemBuffered w (encodeElem elem)

/-- The values of the two tables, each once, and the position of each plus one. -/
structure IndexedValues where
  valueToIndex : Table Ptr Nat
  values : List Ptr

def IndexedValues.empty : IndexedValues where
  valueToIndex := ∅
  values := []

/-- `get_or_create_value_index`. -/
def getOrCreateValueIndex (v : IndexedValues) (value : Ptr) : IndexedValues × Nat :=
  match v.valueToIndex.lookup value with
  | some existing => (v, existing - 1)
  | none =>
    let idx := v.values.length
    ({ valueToIndex := v.valueToIndex.insert value (idx + 1), values := v.values ++ [value] }, idx)

/-- `collect_value_index`, for each entry of a table. -/
def collectValues (order : HashOrder) (ht : Table K Ptr) (v : IndexedValues) : IndexedValues :=
  (order.entries ht).foldl (fun v e => (getOrCreateValueIndex v e.2).1) v

/-- `save_indexed_entry`. -/
def saveIndexedEntry (v : IndexedValues) (encodeKey : K → Option (List UInt8)) (w : BufferedWriter)
    (e : (_ : K) × Ptr) : Option BufferedWriter :=
  match v.valueToIndex.lookup e.2 with
  | none => some w
  | some stored => saveEntry encodeKey (fun idx => some (encodeSize idx)) w ⟨e.1, stored - 1⟩

/-- One of the two tables in `ghash_save_indexed_pair`. -/
def saveIndexedTable (order : HashOrder) (answers : Nat → PwriteResult) (v : IndexedValues)
    (ht : Table K Ptr) (encodeKey : K → Option (List UInt8)) : Option (List UInt8) :=
  saveAll answers (order.entries ht) (saveIndexedEntry v encodeKey)

/-! ## Loading -/

/-- What the loading functions have in common: the number of entries, or nothing if it cannot be
    read. -/
def loadAll {β : Type} (file : List UInt8) (answers : Nat → Nat) (nothing : β)
    (load : Nat → BufferedReader → Option β) : Option β :=
  match (openReader file answers).bufferedRead sizeofInt with
  | (none, _) => some nothing
  | (some n, r) => load (cInt (leNat n)).toNat r

/-- The loop of `gslist_load` and of `load_values_array`. -/
def loadElems (decode : Decoder α) : Nat → BufferedReader → Option (List α)
  | 0, _ => some []
  | n + 1, r =>
    match readElemBuffered r decode with
    | (.overread, _) => none
    | (.null, _) => some []
    | (.elem a, r) => (loadElems decode n r).map (a :: ·)

/-- `gslist_load`, and `load_values_array`. -/
def gslistLoad (file : List UInt8) (answers : Nat → Nat) (decodeElem : Decoder α) :
    Option (List α) :=
  loadAll file answers [] (loadElems decodeElem)

variable {R : Type} [DecidableEq K]

/-- The loop of `ghash_load`. What the decoder makes of a key is compared as `asKey` says. -/
def loadEntries (decodeKey : Decoder R) (asKey : R → Option K) (decodeVal : Decoder V) :
    Nat → BufferedReader → Table K V → Option (Table K V)
  | 0, _, ht => some ht
  | n + 1, r, ht =>
    match readElemBuffered r decodeKey with
    | (.overread, _) => none
    | (key, r) =>
      match readElemBuffered r decodeVal with
      | (.overread, _) => none
      | (val, r) =>
        match key, val with
        | .elem key, .elem val =>
          (asKey key).bind fun key => loadEntries decodeKey asKey decodeVal n r (ht.insert key val)
        | _, _ => some ht

/-- `ghash_load`. -/
def ghashLoad (file : List UInt8) (answers : Nat → Nat) (decodeKey : Decoder R)
    (asKey : R → Option K) (decodeVal : Decoder V) : Option (Table K V) :=
  loadAll file answers ∅ fun n r => loadEntries decodeKey asKey decodeVal n r ∅

/-- The end of `ghash_load_indexed_pair` for one of the tables: numbers that are no position in
    `values` are left out. -/
def resolveIndices (order : HashOrder) (values : List Ptr) (idxTable : Table K Nat) :
    Table K Ptr :=
  (order.entries idxTable).foldl (Table.insertSome fun e => values[e.2]?) ∅

end

/-! ## What is in the files -/

section
variable {α K V : Type} {answers : Nat → PwriteResult} {w : BufferedWriter} {data : List UInt8}

/-- A complete file: the number of entries, and the bytes of each. -/
def fileContents (bytes : α → List UInt8) (entries : List α) : List UInt8 :=
  leBytes 4 entries.length ++ entries.flatMap bytes

/-- `save` appends `bytes`. -/
def Appends (save : BufferedWriter → Option BufferedWriter) (bytes : List UInt8) : Prop :=
  ∀ w data, w.Holds data → ∃ w', save w = some w' ∧ w'.Holds (data ++ bytes)

theorem appends_writeElem (bytes : List UInt8) :
    Appends (fun w => writeElemBuffered w bytes) (record bytes) := fun _ _ h => h.writeElem bytes

theorem BufferedWriter.Holds.saveEach {entries : List α}
    {save : BufferedWriter → α → Option BufferedWriter} {bytes : α → List UInt8} (h : w.Holds data)
    (hsave : ∀ x ∈ entries, Appends (save · x) (bytes x)) :
    ∃ w', entries.foldlM save w = some w' ∧ w'.Holds (data ++ entries.flatMap bytes) := by
  induction entries generalizing w data with
  | nil => exact ⟨w, rfl, by rwa [List.flatMap_nil, List.append_nil]⟩
  | cons x entries ih =>
    obtain ⟨w₁, hfirst, h₁⟩ := hsave x List.mem_cons_self w data h
    obtain ⟨w₂, hrest, h₂⟩ := ih h₁ fun y hy => hsave y (List.mem_cons_of_mem x hy)
    replace hfirst : save w x = some w₁ := hfirst
    refine ⟨w₂, ?_, ?_⟩
    · rw [List.foldlM_cons, hfirst]
      exact hrest
    · rwa [List.flatMap_cons, ← List.append_assoc]

theorem holds_openWriter (hanswers : ∀ k, answers k = .complete) : (openWriter answers).Holds [] :=
  BufferedWriter.holds_init hanswers

/-- If every `pwrite` is complete, the file has the number of entries and then the entries. -/
theorem saveAll_eq {entries : List α} {save : BufferedWriter → α → Option BufferedWriter}
    {bytes : α → List UInt8} (hanswers : ∀ k, answers k = .complete)
    (hsave : ∀ x ∈ entries, Appends (save · x) (bytes x)) :
    saveAll answers entries save = some (fileContents bytes entries) := by
  obtain ⟨w₁, hcount, h₁⟩ :=
    (holds_openWriter hanswers).bufferedWrite (leBytes 4 entries.length)
  obtain ⟨w₂, hentries, h₂⟩ := h₁.saveEach hsave
  rw [saveAll, hcount]
  show (entries.foldlM save w₁).bind (fun w => some w.flushWriteBuffer.file) = _
  rw [hentries, Option.bind_some, h₂.flush_eq.1, List.nil_append, fileContents]

/-- The file of a list. -/
theorem gslistSave_eq (hanswers : ∀ k, answers k = .complete) (list : List α)
    (encodeElem : α → List UInt8) : gslistSave answers list encodeElem =
      some (fileContents (fun x => record (encodeElem x)) list) :=
  saveAll_eq hanswers fun x _ => appends_writeElem (encodeElem x)

theorem appends_saveEntry {encodeKey : K → Option (List UInt8)}
    {encodeVal : V → Option (List UInt8)} {e : (_ : K) × V} {keyBytes valBytes : List UInt8}
    (hkey : encodeKey e.1 = some keyBytes) (hval : encodeVal e.2 = some valBytes) :
    Appends (saveEntry encodeKey encodeVal · e) (record keyBytes ++ record valBytes) := by
  intro w data h
  obtain ⟨w₁, hfirst, h₁⟩ := h.writeElem keyBytes
  obtain ⟨w₂, hsecond, h₂⟩ := h₁.writeElem valBytes
  refine ⟨w₂, ?_, ?_⟩
  · simp only [saveEntry, hkey, hval, Option.bind_eq_bind, Option.bind_some, hfirst, hsecond]
  · rwa [← List.append_assoc]

end

/-! ## Numbering the shared values -/

/-- Every value has one position, and the table knows it. -/
structure IndexedValues.Numbered (v : IndexedValues) : Prop where
  position : ∀ p stored, v.valueToIndex.lookup p = some stored →
    0 < stored ∧ v.values[stored - 1]? = some p
  known : ∀ p ∈ v.values, v.valueToIndex.lookup p ≠ none
  nodup : v.values.Nodup

theorem IndexedValues.numbered_empty : IndexedValues.empty.Numbered where
  position _ _ h := by cases h
  known _ h := by cases h
  nodup := List.nodup_nil

section
variable {K : Type} {v : IndexedValues} {value : Ptr}

theorem IndexedValues.Numbered.getOrCreate (h : v.Numbered) (value : Ptr) :
    (getOrCreateValueIndex v value).1.Numbered ∧
      ∀ p, p ∈ (getOrCreateValueIndex v value).1.values ↔ p ∈ v.values ∨ p = value := by
  unfold getOrCreateValueIndex
  split
  · rename_i existing hsome
    refine ⟨h, fun p => ⟨.inl, ?_⟩⟩
    rintro (hp | rfl)
    · exact hp
    · exact List.mem_of_getElem? (h.position _ _ hsome).2
  · rename_i hnone
    have hfresh : value ∉ v.values := fun hmem => h.known value hmem hnone
    refine ⟨⟨fun p stored hp => ?_, fun p hp => ?_, ?_⟩, fun p => ?_⟩
    · by_cases hpv : p = value
      · subst hpv
        rw [AList.lookup_insert] at hp
        obtain rfl := Option.some.inj hp
        exact ⟨Nat.succ_pos _, by rw [Nat.add_sub_cancel, List.getElem?_concat_length]⟩
      · rw [AList.lookup_insert_ne hpv] at hp
        obtain ⟨hpos, hget⟩ := h.position p stored hp
        exact ⟨hpos, by rw [List.getElem?_append_left (List.getElem?_eq_some_iff.mp hget).1, hget]⟩
    · by_cases hpv : p = value
      · rw [hpv, AList.lookup_insert]
        exact Option.some_ne_none _
      · rw [AList.lookup_insert_ne hpv]
        refine h.known p ((List.mem_append.mp hp).resolve_right fun hmem => ?_)
        exact hpv (List.mem_singleton.mp hmem)
    · exact List.nodup_append_comm.mp (List.nodup_cons.mpr ⟨hfresh, h.nodup⟩)
    · rw [List.mem_append, List.mem_singleton]

theorem IndexedValues.Numbered.collect (h : v.Numbered) (order : HashOrder) (ht : Table K Ptr) :
    (collectValues order ht v).Numbered ∧
      ∀ p, p ∈ (collectValues order ht v).values ↔ p ∈ v.values ∨ p ∈ Table.values ht := by
  have hall : ∀ (es : List ((_ : K) × Ptr)) (v : IndexedValues), v.Numbered →
      (es.foldl (fun v e => (getOrCreateValueIndex v e.2).1) v).Numbered ∧
      ∀ p, p ∈ (es.foldl (fun v e => (getOrCreateValueIndex v e.2).1) v).values ↔
        p ∈ v.values ∨ p ∈ es.map Sigma.snd := by
    intro es
    induction es with
    | nil =>
      intro v h
      exact ⟨h, fun p => by simp⟩
    | cons e es ih =>
      intro v h
      obtain ⟨hone, hmem⟩ := h.getOrCreate e.2
      obtain ⟨hrest, hmem'⟩ := ih _ hone
      refine ⟨hrest, fun p => ?_⟩
      rw [List.foldl_cons, hmem', hmem, List.map_cons, List.mem_cons, or_assoc]
  obtain ⟨hnumbered, hmem⟩ := hall (order.entries ht) v h
  refine ⟨hnumbered, fun p => ?_⟩
  rw [collectValues, hmem, Table.values, Multiset.mem_coe,
    ((order.perm ht).map Sigma.snd).mem_iff]

end

end DedupBlockFS
