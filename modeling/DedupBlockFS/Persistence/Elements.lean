-- SUMMARY: The encoders and decoders of the saved elements, and the elements of a stream with their length in front.
import DedupBlockFS.Flush
import DedupBlockFS.Lib.LittleEndian
import DedupBlockFS.Persistence.BufferedIO
import Mathlib.Data.List.TakeWhile

/-!
# Elements

The encoders and decoders of `metaindex.c`, and `write_elem_buffered` and `read_elem_buffered`
of `persistence.c`. An element is saved as its length, a `size_t`, and then its bytes; an `int`
and a `size_t` take 4 and 8 bytes, lowest first.

The decoders copy from the buffer they are given without asking how long it is, so what they
do may be to read beyond its end. A string they make is the bytes that they copied, which
are a C string only if there is a NUL among them.
-/

namespace DedupBlockFS

open LittleEndian
open ByteFile

/-- `sizeof(int)` and `sizeof(size_t)`. -/
def sizeofInt : Nat := 4
def sizeofSize : Nat := 8

/-- What a decoder does: it reads beyond its buffer, or it returns NULL or an element. -/
inductive Decoded (α : Type) where
  | overread
  | null
  | elem (a : α)
  deriving DecidableEq

/-- A `DecodeFunc`: a buffer, and its length as an `int`. -/
abbrev Decoder (α : Type) := List UInt8 → Int → Decoded α

/-- The source of a `memcpy` of `n` bytes from position `off` of a buffer. -/
def copyFrom (data : List UInt8) (off n : Nat) : Option (List UInt8) :=
  if off + n ≤ data.length then some (pread data off n) else none

/-- What the element is when a copy of `n` bytes is all that it needs. -/
def decodeCopy {α : Type} (data : List UInt8) (n : Nat) (make : List UInt8 → α) : Decoded α :=
  match copyFrom data 0 n with
  | none => .overread
  | some bytes => .elem (make bytes)

/-- A decoder of elements of `n` bytes: the other lengths make NULL. -/
def decodeExact {α : Type} (n : Nat) (make : List UInt8 → α) : Decoder α := fun data size =>
  if size ≠ n then .null else decodeCopy data n make

/-! ## Strings -/

/-- The bytes in front of the first NUL, if there is one. -/
def asCString (buf : List UInt8) : Option CString :=
  if 0 ∈ buf then
    some ⟨buf.takeWhile (· ≠ 0), fun hmem => by simpa using List.mem_takeWhile_imp hmem⟩
  else none

/-- A C string with its NUL. -/
def CString.withNul (s : CString) : List UInt8 := s.bytes ++ [0]

theorem CString.length_withNul (s : CString) : s.withNul.length = s.bytes.length + 1 :=
  List.length_append

theorem asCString_withNul (s : CString) : asCString s.withNul = some s := by
  have htake : s.withNul.takeWhile (· ≠ 0) = s.bytes := by
    have hall : ∀ b ∈ s.bytes, (decide (b ≠ 0)) = true := fun b hb =>
      decide_eq_true fun hzero => s.noNul (hzero ▸ hb)
    rw [CString.withNul, List.takeWhile_append_of_pos hall]
    simp
  have hmem : 0 ∈ s.withNul := by simp [CString.withNul]
  rw [asCString, if_pos hmem, Option.some.injEq]
  cases s
  simp only [CString.mk.injEq]
  exact htake

/-! ## The elements of the index -/

/-- The 64 bytes of a hash. -/
def hashOfBytes (bytes : List UInt8) : Hash := Vector.ofFn fun i => bytes.getD i 0

/-- `encode_hash`. -/
def encodeHash (h : Hash) : List UInt8 := h.toList

/-- `decode_hash`. -/
def decodeHash : Decoder Hash := decodeExact hashSize hashOfBytes

/-- The size of a `MasterInfo`, the last 4 bytes of which belong to no field. -/
def masterInfoSize : Nat := 80

/-- `encode_master_info`; `padding` is what the bytes behind the last field happen to be. -/
def encodeMasterInfo (padding : Vector UInt8 4) (info : MasterInfo) : List UInt8 :=
  encodeHash info.hash ++ leBytes 8 info.masterBlockIndex ++ leBytes 4 info.refcount ++
    padding.toList

def masterInfoOfBytes (bytes : List UInt8) : MasterInfo where
  hash := hashOfBytes (pread bytes 0 64)
  masterBlockIndex := leNat (pread bytes 64 8)
  refcount := leNat (pread bytes 72 4)

/-- `decode_master_info`. -/
def decodeMasterInfo : Decoder MasterInfo := decodeExact masterInfoSize masterInfoOfBytes

/-- A `BlockIndice` in memory: its path is the buffer that the decoder allocated. -/
structure RawBlockIndice where
  path : List UInt8
  offset : Nat

/-- A `BlockIndice` as the decoder makes it. -/
def BlockIndice.raw (b : BlockIndice) : RawBlockIndice where
  path := b.path.withNul
  offset := b.offset

/-- What `blockIndice_equal` compares; it reads beyond a path without NUL. -/
def RawBlockIndice.asKey (b : RawBlockIndice) : Option BlockIndice :=
  (asCString b.path).map fun path => ⟨path, b.offset⟩

theorem RawBlockIndice.asKey_raw (b : BlockIndice) : b.raw.asKey = some b := by
  rw [BlockIndice.raw, RawBlockIndice.asKey, asCString_withNul, Option.map_some]

/-- `encode_block_indice`. Its lengths are `int`s; if they overflow it has no result. -/
def encodeBlockIndice (b : BlockIndice) : Option (List UInt8) :=
  let pathLen := b.path.bytes.length + 1
  let total := sizeofInt + pathLen + sizeofSize
  if total < 2 ^ 31 then some (leBytes 4 pathLen ++ b.path.withNul ++ leBytes 8 b.offset) else none

/-- `decode_block_indice`. It takes the length of the path from the buffer; for a negative one
    it asks for and copies a number of bytes that no buffer has. -/
def decodeBlockIndice : Decoder RawBlockIndice := fun data _ =>
  match copyFrom data 0 sizeofInt with
  | none => .overread
  | some len =>
    let pathLen := cInt (leNat len)
    if pathLen < 0 then .overread else
    match copyFrom data sizeofInt pathLen.toNat with
    | none => .overread
    | some path =>
      match copyFrom data (sizeofInt + pathLen.toNat) sizeofSize with
      | none => .overread
      | some offset => .elem ⟨path, leNat offset⟩

/-- `encode_free_block`. -/
def encodeFreeBlock (slot : Nat) : List UInt8 := leBytes 8 slot

/-- `decode_free_block`. -/
def decodeFreeBlock : Decoder Nat := decodeExact sizeofSize leNat

/-- `encode_size`, and `encode_size_elem` of `persistence.c`. -/
def encodeSize (n : Nat) : List UInt8 := leBytes 8 n

/-- `decode_size`, which does not look at the length. -/
def decodeSize : Decoder Nat := fun data _ => decodeCopy data sizeofSize leNat

/-- `decode_size_elem` of `persistence.c`. -/
def decodeSizeElem : Decoder Nat := decodeExact sizeofSize leNat

/-- `encode_str`. Its length is an `int`; if it overflows it has no result. -/
def encodeStr (s : CString) : Option (List UInt8) :=
  if s.bytes.length + 1 < 2 ^ 31 then some s.withNul else none

/-- `decode_str`. -/
def decodeStr : Decoder (List UInt8) := fun data size =>
  if size < 0 then .overread
  else decodeCopy data size.toNat id

theorem encodeBlockIndice_eq_some {b : BlockIndice} {bytes : List UInt8} :
    encodeBlockIndice b = some bytes ↔
      sizeofInt + (b.path.bytes.length + 1) + sizeofSize < 2 ^ 31 ∧
        leBytes 4 (b.path.bytes.length + 1) ++ b.path.withNul ++ leBytes 8 b.offset = bytes := by
  simp only [encodeBlockIndice, Option.ite_none_right_eq_some, Option.some.injEq]

theorem encodeStr_eq_some {str : CString} {bytes : List UInt8} :
    encodeStr str = some bytes ↔ str.bytes.length + 1 < 2 ^ 31 ∧ str.withNul = bytes := by
  rw [encodeStr, Option.ite_none_right_eq_some, Option.some.injEq]

/-! ## Round trips -/

/-- Given `bytes` and their length, the decoder makes `a`. -/
structure Decoder.Makes {α : Type} (decode : Decoder α) (bytes : List UInt8) (a : α) : Prop where
  fits : bytes.length < 2 ^ 31
  elem : decode bytes bytes.length = .elem a

theorem Decoder.Makes.length_lt {α : Type} {decode : Decoder α} {bytes : List UInt8} {a : α}
    (h : decode.Makes bytes a) : bytes.length < 2 ^ 64 := by
  have hfits : bytes.length < 2147483648 := h.fits
  exact show bytes.length < 18446744073709551616 by omega

theorem pread_middle (pre post : List UInt8) {data bytes : List UInt8} {off n : Nat}
    (hdata : data = pre ++ bytes ++ post) (hoff : pre.length = off) (hn : bytes.length = n) :
    pread data off n = bytes := by
  rw [pread, hdata, ← hoff, ← hn, List.append_assoc, List.drop_left, List.take_left]

theorem copyFrom_middle (pre post : List UInt8) {data bytes : List UInt8} {off n : Nat}
    (hdata : data = pre ++ bytes ++ post) (hoff : pre.length = off) (hn : bytes.length = n) :
    copyFrom data off n = some bytes := by
  have hle : off + n ≤ data.length := by
    rw [hdata, ← hoff, ← hn, List.length_append, List.length_append]
    exact Nat.le_add_right _ _
  rw [copyFrom, if_pos hle, pread_middle pre post hdata hoff hn]

theorem decodeCopy_self {α : Type} {bytes : List UInt8} {n : Nat} (hlen : bytes.length = n)
    (make : List UInt8 → α) : decodeCopy bytes n make = .elem (make bytes) := by
  have hcopy : copyFrom bytes 0 n = some bytes :=
    copyFrom_middle [] [] (List.append_nil bytes).symm rfl hlen
  rw [decodeCopy, hcopy]

theorem decodeExact_makes {α : Type} {bytes : List UInt8} {n : Nat} {make : List UInt8 → α} {a : α}
    (hlen : bytes.length = n) (hn : n < 2 ^ 31) (hmake : make bytes = a) :
    (decodeExact n make).Makes bytes a where
  fits := by rwa [hlen]
  elem := by rw [decodeExact, hlen, if_neg (not_not_intro rfl), decodeCopy_self hlen, hmake]

theorem hashOfBytes_encodeHash (h : Hash) : hashOfBytes (encodeHash h) = h := by
  apply Vector.ext
  intro i hi
  simp [hashOfBytes, encodeHash]

theorem length_encodeHash (h : Hash) : (encodeHash h).length = hashSize := Vector.length_toList

theorem decodeHash_makes (h : Hash) : decodeHash.Makes (encodeHash h) h :=
  decodeExact_makes (length_encodeHash h) (by decide) (hashOfBytes_encodeHash h)

theorem leNat_leBytes_size {n : Nat} (h : n < 2 ^ 64) : leNat (leBytes 8 n) = n :=
  leNat_leBytes (by rwa [show 256 ^ 8 = 2 ^ 64 from rfl])

theorem decodeMasterInfo_makes (padding : Vector UInt8 4) {info : MasterInfo}
    (hslot : info.masterBlockIndex < 2 ^ 64) (hrefcount : info.refcount < 2 ^ 32) :
    decodeMasterInfo.Makes (encodeMasterInfo padding info) info := by
  have hlen : (encodeMasterInfo padding info).length = masterInfoSize := by
    simp only [encodeMasterInfo, List.length_append, length_encodeHash, length_leBytes,
      Vector.length_toList]
    rfl
  have hhash : pread (encodeMasterInfo padding info) 0 64 = encodeHash info.hash := by
    refine pread_middle [] (leBytes 8 info.masterBlockIndex ++ (leBytes 4 info.refcount ++
      padding.toList)) ?_ rfl (length_encodeHash _)
    rw [encodeMasterInfo, List.append_assoc, List.append_assoc, List.nil_append]
  have hindex : pread (encodeMasterInfo padding info) 64 8 = leBytes 8 info.masterBlockIndex :=
    pread_middle _ _ (List.append_assoc _ _ _) (length_encodeHash _) (length_leBytes _ _)
  have hcount : pread (encodeMasterInfo padding info) 72 4 = leBytes 4 info.refcount := by
    refine pread_middle _ _ rfl ?_ (length_leBytes _ _)
    rw [List.length_append, length_encodeHash, length_leBytes]
    rfl
  refine decodeExact_makes hlen (by decide) (MasterInfo.ext ?_ ?_ ?_)
  · rw [masterInfoOfBytes, hhash, hashOfBytes_encodeHash]
  · rw [masterInfoOfBytes, hindex, leNat_leBytes_size hslot]
  · rw [masterInfoOfBytes, hcount, leNat_leBytes (by rwa [show 256 ^ 4 = 2 ^ 32 from rfl])]

theorem decodeFreeBlock_makes {slot : Nat} (h : slot < 2 ^ 64) :
    decodeFreeBlock.Makes (encodeFreeBlock slot) slot :=
  decodeExact_makes (length_leBytes 8 slot) (by decide) (leNat_leBytes_size h)

theorem decodeSizeElem_makes {n : Nat} (h : n < 2 ^ 64) : decodeSizeElem.Makes (encodeSize n) n :=
  decodeExact_makes (length_leBytes 8 n) (by decide) (leNat_leBytes_size h)

theorem decodeSize_makes {n : Nat} (h : n < 2 ^ 64) : decodeSize.Makes (encodeSize n) n where
  fits := by
    rw [encodeSize, length_leBytes]
    decide
  elem := by
    have hcopy : decodeCopy (leBytes 8 n) sizeofSize leNat = .elem (leNat (leBytes 8 n)) :=
      decodeCopy_self (length_leBytes 8 n) leNat
    rw [encodeSize, decodeSize, hcopy, leNat_leBytes_size h]

theorem decodeBlockIndice_makes {b : BlockIndice} {bytes : List UInt8}
    (hencode : encodeBlockIndice b = some bytes) (hoffset : b.offset < 2 ^ 64) :
    decodeBlockIndice.Makes bytes b.raw := by
  obtain ⟨htotal, hbytes⟩ := encodeBlockIndice_eq_some.mp hencode
  rw [show sizeofInt = 4 from rfl, show sizeofSize = 8 from rfl] at htotal
  replace hbytes := hbytes.symm
  have hpath := b.path.length_withNul
  set n := b.path.bytes.length + 1
  have hsmall : n < 2147483648 := lt_of_le_of_lt (by omega) htotal
  have hlen : leNat (leBytes 4 n) = n :=
    leNat_leBytes (show n < 4294967296 from hsmall.trans (by decide))
  have hint : cInt (leNat (leBytes 4 n)) = n := by
    rw [hlen]
    exact cInt_of_lt hsmall
  have hfirst : copyFrom bytes 0 sizeofInt = some (leBytes 4 n) :=
    copyFrom_middle [] (b.path.withNul ++ leBytes 8 b.offset)
      (by rw [hbytes, List.nil_append, List.append_assoc]) rfl (length_leBytes 4 n)
  have hsecond : copyFrom bytes sizeofInt n = some b.path.withNul :=
    copyFrom_middle _ _ hbytes (length_leBytes 4 n) hpath
  have hthird : copyFrom bytes (sizeofInt + n) sizeofSize = some (leBytes 8 b.offset) :=
    copyFrom_middle _ [] (by rw [hbytes, List.append_nil])
      (by rw [List.length_append, length_leBytes, hpath]; rfl) (length_leBytes 8 _)
  constructor
  · rw [hbytes]
    simp only [List.length_append, length_leBytes, hpath]
    exact htotal
  · have hnonneg : ¬(n : Int) < 0 := not_lt.mpr (Int.natCast_nonneg n)
    simp only [decodeBlockIndice, hfirst]
    rw [hint, if_neg hnonneg]
    simp only [Int.toNat_natCast, hsecond, hthird]
    rw [leNat_leBytes_size hoffset, BlockIndice.raw]

theorem decodeStr_makes {str : CString} {bytes : List UInt8} (hencode : encodeStr str = some bytes) :
    decodeStr.Makes bytes bytes ∧ asCString bytes = some str := by
  obtain ⟨hlen, rfl⟩ := encodeStr_eq_some.mp hencode
  have hfits : str.withNul.length < 2 ^ 31 := by
    rw [CString.length_withNul]
    exact hlen
  refine ⟨⟨hfits, ?_⟩, asCString_withNul str⟩
  rw [decodeStr, if_neg (not_lt.mpr (Int.natCast_nonneg _)), Int.toNat_natCast,
    decodeCopy_self rfl, id]

/-! ## Elements in a stream -/

/-- An element in a file: its length and its bytes. -/
def record (bytes : List UInt8) : List UInt8 := leBytes 8 bytes.length ++ bytes

/-- `write_elem_buffered`. -/
def writeElemBuffered (w : BufferedWriter) (bytes : List UInt8) : Option BufferedWriter :=
  (w.bufferedWrite (leBytes 8 bytes.length)).bind fun w => w.bufferedWrite bytes

/-- `read_elem_buffered`, with a `malloc` that serves every length. -/
def readElemBuffered {α : Type} (r : BufferedReader) (decode : Decoder α) :
    Decoded α × BufferedReader :=
  match r.bufferedRead sizeofSize with
  | (none, r) => (.null, r)
  | (some size, r) =>
    match r.bufferedRead (leNat size) with
    | (none, r) => (.null, r)
    | (some buf, r) => (decode buf (cInt (leNat size)), r)

theorem BufferedWriter.Holds.writeElem {w : BufferedWriter} {data : List UInt8} (h : w.Holds data)
    (bytes : List UInt8) :
    ∃ w', writeElemBuffered w bytes = some w' ∧ w'.Holds (data ++ record bytes) := by
  obtain ⟨w₁, hsize, h₁⟩ := h.bufferedWrite (leBytes 8 bytes.length)
  obtain ⟨w₂, hbytes, h₂⟩ := h₁.bufferedWrite bytes
  refine ⟨w₂, ?_, ?_⟩
  · rw [writeElemBuffered, hsize, Option.bind_some, hbytes]
  · rwa [record, ← List.append_assoc]

/-- An element that is next in the stream is decoded from its own bytes. -/
theorem BufferedReader.Supplies.readElem {α : Type} {r : BufferedReader} {bytes tail : List UInt8}
    {decode : Decoder α} {a : α} (h : r.Supplies (record bytes ++ tail))
    (hmakes : decode.Makes bytes a) :
    ∃ r', readElemBuffered r decode = (.elem a, r') ∧ r'.Supplies tail := by
  have hfits : bytes.length < 2147483648 := hmakes.fits
  have hlen : leNat (leBytes 8 bytes.length) = bytes.length :=
    leNat_leBytes_size (show bytes.length < 18446744073709551616 by omega)
  rw [record, List.append_assoc] at h
  obtain ⟨r₁, hsize, h₁⟩ := h.bufferedRead
  obtain ⟨r₂, hbytes, h₂⟩ := h₁.bufferedRead
  rw [length_leBytes] at hsize
  refine ⟨r₂, ?_, h₂⟩
  have hsize' : r.bufferedRead sizeofSize = (some (leBytes 8 bytes.length), r₁) := hsize
  simp only [readElemBuffered, hsize']
  rw [hlen]
  simp only [hbytes]
  rw [cInt_of_lt hfits, hmakes.elem]

theorem record_ne_nil (bytes : List UInt8) : record bytes ≠ [] :=
  List.ne_nil_of_length_pos (by rw [record, List.length_append, length_leBytes]; omega)

/-- An element of which some bytes are missing is not read. -/
theorem BufferedReader.Supplies.readElem_short {α : Type} {r : BufferedReader}
    {bytes : List UInt8} {room : Nat} (decode : Decoder α)
    (h : r.Supplies ((record bytes).take room)) (hshort : room < (record bytes).length)
    (hsmall : bytes.length < 2 ^ 64) :
    ∃ r', readElemBuffered r decode = (.null, r') ∧ r'.Supplies [] := by
  by_cases hlen : room < sizeofSize
  · have hroom : ((record bytes).take room).length < sizeofSize := by
      rw [List.length_take]
      omega
    obtain ⟨r', hread, h'⟩ := h.bufferedRead_short hroom
    refine ⟨r', ?_, h'⟩
    simp only [readElemBuffered, hread]
  · have hheader : (leBytes 8 bytes.length).length = sizeofSize := length_leBytes 8 _
    have hsplit : (record bytes).take room =
        leBytes 8 bytes.length ++ bytes.take (room - sizeofSize) := by
      rw [record, List.take_append, hheader, List.take_of_length_le (by omega)]
    rw [record, List.length_append, hheader] at hshort
    rw [hsplit] at h
    obtain ⟨r₁, hsize, h₁⟩ := h.bufferedRead
    have hrest : (bytes.take (room - sizeofSize)).length < bytes.length := by
      rw [List.length_take]
      omega
    obtain ⟨r₂, hread, h₂⟩ := h₁.bufferedRead_short hrest
    refine ⟨r₂, ?_, h₂⟩
    rw [hheader] at hsize
    simp only [readElemBuffered, hsize]
    rw [leNat_leBytes_size hsmall]
    simp only [hread]

theorem BufferedReader.Supplies.readElem_end {α : Type} {r : BufferedReader} (h : r.Supplies [])
    (decode : Decoder α) :
    ∃ r', readElemBuffered r decode = (.null, r') ∧ r'.Supplies [] := by
  have hnone : r.Supplies ((record []).take 0) := h
  exact hnone.readElem_short decode (by decide) (by decide)

end DedupBlockFS
