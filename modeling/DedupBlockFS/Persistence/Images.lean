-- SUMMARY: Which byte strings the decoders of keys and sizes take for an element that is encoded as them.
import DedupBlockFS.Persistence.Elements

/-!
# Images of the encoders

A decoder gets a byte string from a file, and its length as an `int`. It should stay inside the
byte string, and make an element only if the encoder makes the same bytes of it
(`DecodesImages`). `decode_block_indice` and `decode_size` do not look at the length, and
`decode_str` does not look at the bytes, so each does so only for the byte strings that its
encoder makes.
-/

namespace DedupBlockFS

open LittleEndian
open ByteFile

/-- Given `data`, the decoder stays inside it, and makes NULL or an element that is encoded as
    `data`. -/
def DecodesImages {α : Type} (decode : Decoder α) (encode : α → Option (List UInt8))
    (data : List UInt8) : Prop :=
  decode data (cInt data.length) = .null ∨
    ∃ a, decode data (cInt data.length) = .elem a ∧ encode a = some data

/-- `encode_block_indice` of what `decode_block_indice` makes; it reads beyond a path without
    NUL. -/
def RawBlockIndice.encode (b : RawBlockIndice) : Option (List UInt8) :=
  b.asKey.bind encodeBlockIndice

/-- `encode_str` of what `decode_str` makes. -/
def encodeRawStr (buf : List UInt8) : Option (List UInt8) := (asCString buf).bind encodeStr

/-! ## The images -/

/-- The bytes end in a NUL and have no other. -/
def NulTerminated (bytes : List UInt8) : Prop := ∃ front, bytes = front ++ [0] ∧ 0 ∉ front

/-- The length of the path that a saved `BlockIndice` starts with. -/
def pathLenField (data : List UInt8) : Int := cInt (leNat (pread data 0 sizeofInt))

/-- The bytes of a saved `BlockIndice`: the path has the length that is in front of it and is a
    string, and behind it are the 8 bytes of the offset and no more. -/
structure BlockIndiceImage (data : List UInt8) : Prop where
  fits : data.length < 2 ^ 31
  length : sizeofInt + (pathLenField data).toNat + sizeofSize = data.length
  path : NulTerminated (pread data sizeofInt (pathLenField data).toNat)

section
variable {α : Type} {decode : Decoder α} {encode : α → Option (List UInt8)} {data : List UInt8}
  {a : α}

/-- A decoder that never makes NULL has to make an element of the bytes. -/
theorem DecodesImages.encoded (h : DecodesImages decode encode data)
    (hnull : decode data (cInt data.length) ≠ .null) : ∃ a, encode a = some data := by
  obtain ⟨a, -, hencode⟩ := h.resolve_left hnull
  exact ⟨a, hencode⟩

theorem decodesImages_of_makes (hmakes : decode.Makes data a) (hencode : encode a = some data) :
    DecodesImages decode encode data := by
  right
  rw [cInt_of_lt hmakes.fits]
  exact ⟨a, hmakes.elem, hencode⟩

end

theorem nulTerminated_withNul (s : CString) : NulTerminated s.withNul := ⟨s.bytes, rfl, s.noNul⟩

theorem NulTerminated.exists_withNul {bytes : List UInt8} (h : NulTerminated bytes) :
    ∃ s : CString, bytes = s.withNul := by
  obtain ⟨front, rfl, hnoNul⟩ := h
  exact ⟨⟨front, hnoNul⟩, rfl⟩

/-! ## Strings and sizes -/

theorem decodeStr_ne_null (data : List UInt8) (size : Int) : decodeStr data size ≠ .null := by
  unfold decodeStr decodeCopy
  split
  · exact nofun
  · split <;> exact nofun

theorem decodesImages_decodeStr_iff {data : List UInt8} :
    DecodesImages decodeStr encodeRawStr data ↔ data.length < 2 ^ 31 ∧ NulTerminated data := by
  constructor
  · intro h
    obtain ⟨buf, hencode⟩ := h.encoded (decodeStr_ne_null _ _)
    obtain ⟨s, -, hs⟩ := Option.bind_eq_some_iff.mp hencode
    obtain ⟨hlen, rfl⟩ := encodeStr_eq_some.mp hs
    rw [CString.length_withNul]
    exact ⟨hlen, nulTerminated_withNul s⟩
  · rintro ⟨hfits, hnul⟩
    obtain ⟨s, hs⟩ := hnul.exists_withNul
    have hlen : s.bytes.length + 1 < 2 ^ 31 := by
      rwa [hs, CString.length_withNul] at hfits
    have hencode : encodeStr s = some data := encodeStr_eq_some.mpr ⟨hlen, hs.symm⟩
    obtain ⟨hmakes, hstr⟩ := decodeStr_makes hencode
    exact decodesImages_of_makes hmakes (by rw [encodeRawStr, hstr, Option.bind_some, hencode])

theorem decodesImages_decodeSize_iff {data : List UInt8} :
    DecodesImages decodeSize (fun n => some (encodeSize n)) data ↔ data.length = sizeofSize := by
  constructor
  · intro h
    obtain ⟨n, hencode⟩ := h.encoded (by
      unfold decodeSize decodeCopy
      split <;> exact nofun)
    rw [← Option.some.inj hencode]
    exact length_leBytes 8 n
  · intro hlen
    have hdata : encodeSize (leNat data) = data := by
      have hbytes := leBytes_leNat data
      rwa [hlen] at hbytes
    have hlt : leNat data < 2 ^ 64 := by
      have hlt := leNat_lt data
      rwa [hlen, show 256 ^ sizeofSize = 2 ^ 64 from rfl] at hlt
    have hmakes := decodeSize_makes hlt
    rw [hdata] at hmakes
    exact decodesImages_of_makes hmakes (congrArg some hdata)

/-! ## Block indices -/

theorem decodeBlockIndice_ne_null (data : List UInt8) (size : Int) :
    decodeBlockIndice data size ≠ .null := by
  simp only [decodeBlockIndice]
  cases copyFrom data 0 sizeofInt with
  | none =>
    rintro ⟨⟩
  | some len =>
    dsimp only
    by_cases hneg : cInt (leNat len) < 0
    · rw [if_pos hneg]
      rintro ⟨⟩
    · rw [if_neg hneg]
      cases copyFrom data sizeofInt (cInt (leNat len)).toNat with
      | none =>
        rintro ⟨⟩
      | some path =>
        cases copyFrom data (sizeofInt + (cInt (leNat len)).toNat) sizeofSize with
        | none =>
          rintro ⟨⟩
        | some offset =>
          rintro ⟨⟩

/-- What the encoder makes is such an image. -/
theorem blockIndiceImage_of_encode {b : BlockIndice} {data : List UInt8}
    (hencode : encodeBlockIndice b = some data) : BlockIndiceImage data := by
  obtain ⟨htotal, hbytes⟩ := encodeBlockIndice_eq_some.mp hencode
  replace hbytes := hbytes.symm
  have hpath := b.path.length_withNul
  set n := b.path.bytes.length + 1
  have hsmall : n < 2147483648 := lt_of_le_of_lt (by omega) htotal
  have hfirst : pread data 0 sizeofInt = leBytes 4 n :=
    pread_middle [] (b.path.withNul ++ leBytes 8 b.offset)
      (by rw [hbytes, List.nil_append, List.append_assoc]) rfl (length_leBytes 4 n)
  have hlen : pathLenField data = n := by
    rw [pathLenField, hfirst, leNat_leBytes (show n < 4294967296 by omega)]
    exact cInt_of_lt hsmall
  have hmiddle : pread data sizeofInt n = b.path.withNul :=
    pread_middle _ _ hbytes (length_leBytes 4 n) hpath
  have hall : data.length = sizeofInt + n + sizeofSize := by
    rw [hbytes]
    simp only [List.length_append, length_leBytes, hpath]
    rfl
  constructor
  · rw [hall]
    exact htotal
  · rw [hlen, Int.toNat_natCast, hall]
  · rw [hlen, Int.toNat_natCast, hmiddle]
    exact nulTerminated_withNul b.path

/-- A word that is positive as an `int` is its own value. -/
theorem eq_toNat_cInt {n : Nat} (hn : n < 2 ^ 32) (hpos : 0 < (cInt n).toNat) :
    n = (cInt n).toNat := by
  have hlt : n < 4294967296 := hn
  have hint : cInt n = Int.bmod n 4294967296 := rfl
  rw [hint] at hpos ⊢
  clear hint hn
  rw [Int.bmod_def] at hpos ⊢
  omega

/-- Such an image is what the encoder makes of the element that it stands for. -/
theorem BlockIndiceImage.exists_encode {data : List UInt8} (h : BlockIndiceImage data) :
    ∃ b, encodeBlockIndice b = some data ∧ b.offset < 2 ^ 64 := by
  obtain ⟨path, hpath⟩ := h.path.exists_withNul
  have hall := h.length
  set p := (pathLenField data).toNat
  have hplen : path.bytes.length + 1 = p := by
    rw [← path.length_withNul, ← hpath]
    exact length_pread_of_le (by omega)
  have hfirst : (pread data 0 sizeofInt).length = 4 := length_pread_of_le (by omega)
  have hlast : (pread data (sizeofInt + p) sizeofSize).length = 8 := length_pread_of_le (by omega)
  have hword : leNat (pread data 0 sizeofInt) = p := by
    have hlt := leNat_lt (pread data 0 sizeofInt)
    rw [hfirst, show 256 ^ 4 = 2 ^ 32 from rfl] at hlt
    have hpos : 0 < p := by omega
    exact eq_toNat_cInt hlt hpos
  have hlenBytes : leBytes 4 p = pread data 0 sizeofInt := by
    have hbytes := leBytes_leNat (pread data 0 sizeofInt)
    rwa [hfirst, hword] at hbytes
  have hoffset := leNat_lt (pread data (sizeofInt + p) sizeofSize)
  have hoffsetBytes := leBytes_leNat (pread data (sizeofInt + p) sizeofSize)
  rw [hlast] at hoffset hoffsetBytes
  rw [show 256 ^ 8 = 2 ^ 64 from rfl] at hoffset
  generalize leNat (pread data (sizeofInt + p) sizeofSize) = offset at hoffset hoffsetBytes
  refine ⟨⟨path, offset⟩, encodeBlockIndice_eq_some.mpr ⟨?_, ?_⟩, hoffset⟩
  · rw [hplen, hall]
    exact h.fits
  · rw [hplen, ← hpath, hlenBytes, hoffsetBytes]
    calc pread data 0 sizeofInt ++ pread data sizeofInt p ++ pread data (sizeofInt + p) sizeofSize
        = pread data 0 (sizeofInt + p + sizeofSize) := by
          rw [pread_add, pread_add, Nat.zero_add, Nat.zero_add]
      _ = data := by rw [hall, pread, List.drop_zero, List.take_length]

theorem decodesImages_decodeBlockIndice_iff {data : List UInt8} :
    DecodesImages decodeBlockIndice RawBlockIndice.encode data ↔ BlockIndiceImage data := by
  constructor
  · intro h
    obtain ⟨raw, hencode⟩ := h.encoded (decodeBlockIndice_ne_null _ _)
    obtain ⟨b, -, hb⟩ := Option.bind_eq_some_iff.mp hencode
    exact blockIndiceImage_of_encode hb
  · intro h
    obtain ⟨b, hencode, hoffset⟩ := h.exists_encode
    refine decodesImages_of_makes (decodeBlockIndice_makes hencode hoffset) ?_
    rw [RawBlockIndice.encode, RawBlockIndice.asKey_raw, Option.bind_some, hencode]

/-- Each of the decoders stays inside its bytes and accepts only images of its encoder exactly for
    these images. -/
theorem decodesImages_iff (data : List UInt8) :
    (DecodesImages decodeBlockIndice RawBlockIndice.encode data ↔ BlockIndiceImage data) ∧
      (DecodesImages decodeStr encodeRawStr data ↔
        data.length < 2 ^ 31 ∧ NulTerminated data) ∧
      (DecodesImages decodeSize (fun n => some (encodeSize n)) data ↔
        data.length = sizeofSize) :=
  ⟨decodesImages_decodeBlockIndice_iff, decodesImages_decodeStr_iff, decodesImages_decodeSize_iff⟩

/-- A path of length -1, a string without NUL, and a size of 9 bytes. -/
theorem not_decodesImages :
    ¬DecodesImages decodeBlockIndice RawBlockIndice.encode
        [255, 255, 255, 255, 0, 0, 0, 0, 0, 0, 0, 0] ∧
      ¬DecodesImages decodeStr encodeRawStr [97] ∧
      ¬DecodesImages decodeSize (fun n => some (encodeSize n)) [0, 0, 0, 0, 0, 0, 0, 0, 0] := by
  refine ⟨fun h => ?_, fun h => ?_, fun h => ?_⟩
  · obtain ⟨front, hfront, -⟩ := (decodesImages_decodeBlockIndice_iff.mp h).path
    have hempty : pread [255, 255, 255, 255, 0, 0, 0, 0, 0, 0, 0, 0] sizeofInt
        (pathLenField [255, 255, 255, 255, 0, 0, 0, 0, 0, 0, 0, 0]).toNat = [] := by decide
    rw [hempty] at hfront
    exact absurd hfront (by simp)
  · obtain ⟨front, hfront, -⟩ := (decodesImages_decodeStr_iff.mp h).2
    exact absurd (congrArg List.getLast? hfront) (by simp)
  · exact absurd (decodesImages_decodeSize_iff.mp h) (by decide)

end DedupBlockFS
