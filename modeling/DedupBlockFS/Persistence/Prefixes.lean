-- SUMMARY: What the loading functions make of files that are cut off: the entries that are whole, as far as they are announced.
import DedupBlockFS.Persistence.Tables

/-!
# Prefixes of the files

Of every file only some prefix may be left. The loading functions stop at the first element that is
not complete, so a list or a table is loaded as far as its entries are whole (`whole`), and no
further than the number of entries says, which is an `int` (`announced`). What is loaded from a
complete file is the case where nothing is cut off.
-/

namespace DedupBlockFS

open LittleEndian
open ByteFile

/-! ## Whole entries -/

/-- The entries that are whole in the first `room` bytes. -/
def whole {α : Type} (bytes : α → List UInt8) : List α → Nat → List α
  | [], _ => []
  | x :: xs, room =>
    if (bytes x).length ≤ room then x :: whole bytes xs (room - (bytes x).length) else []

/-- What the loading functions take the number of entries for. -/
def announced (n : Nat) : Nat := (cInt n).toNat

/-- The entries that are loaded from the first `len` bytes of a file. -/
def loadedPart {α : Type} (bytes : α → List UInt8) (xs : List α) (len : Nat) : List α :=
  (whole bytes xs (len - sizeofInt)).take (announced xs.length)

section
variable {α : Type} {bytes : α → List UInt8} {xs : List α} {room : Nat}

theorem whole_isPrefix (bytes : α → List UInt8) (xs : List α) (room : Nat) :
    whole bytes xs room <+: xs := by
  induction xs generalizing room with
  | nil => exact List.prefix_rfl
  | cons x xs ih =>
    rw [whole]
    split
    · exact (List.prefix_cons_inj x).mpr (ih _)
    · exact List.nil_prefix

/-- All entries are whole where all bytes are there. -/
theorem whole_eq_self (h : (xs.flatMap bytes).length ≤ room) : whole bytes xs room = xs := by
  induction xs generalizing room with
  | nil => rfl
  | cons x xs ih =>
    rw [List.flatMap_cons, List.length_append] at h
    rw [whole, if_pos (by omega), ih (by omega)]

/-- The first entry is whole, and then the others follow. -/
theorem take_flatMap_of_le (bytes : α → List UInt8) {x : α} (h : (bytes x).length ≤ room) :
    ((x :: xs).flatMap bytes).take room =
      bytes x ++ (xs.flatMap bytes).take (room - (bytes x).length) := by
  rw [List.flatMap_cons, List.take_append, List.take_of_length_le h]

/-- The first entry is not whole, and then nothing follows. -/
theorem take_flatMap_of_lt (bytes : α → List UInt8) {x : α} (h : room < (bytes x).length) :
    ((x :: xs).flatMap bytes).take room = (bytes x).take room := by
  rw [List.flatMap_cons, List.take_append_of_le_length h.le]

theorem whole_zero (h : ∀ x, bytes x ≠ []) (xs : List α) : whole bytes xs 0 = [] := by
  cases xs with
  | nil => rfl
  | cons x xs =>
    have hpos := List.length_pos_of_ne_nil (h x)
    rw [whole, if_neg (by omega)]

theorem announced_of_lt {n : Nat} (h : n < 2 ^ 31) : announced n = n := by
  rw [announced, cInt_of_lt h, Int.toNat_natCast]

/-- A number that does not fit is taken for a smaller one. -/
theorem announced_lt {n : Nat} (h : 2 ^ 31 ≤ n) : announced n < n := by
  have hle : 2147483648 ≤ n := h
  have hint : cInt n = Int.bmod n 4294967296 := rfl
  rw [announced, hint]
  clear h hint
  rw [Int.bmod_def]
  omega

theorem loadedPart_isPrefix (bytes : α → List UInt8) (xs : List α) (len : Nat) :
    loadedPart bytes xs len <+: xs := (List.take_prefix _ _).trans (whole_isPrefix _ _ _)

/-- In a complete file every entry is whole. -/
theorem whole_fileContents (bytes : α → List UInt8) (xs : List α) :
    whole bytes xs ((fileContents bytes xs).length - sizeofInt) = xs := by
  apply whole_eq_self
  rw [fileContents, List.length_append, length_leBytes]
  exact (Nat.add_sub_cancel_left 4 _).ge

/-- Everything is loaded from it, if the number of entries fits. -/
theorem loadedPart_eq_self (hn : xs.length < 2 ^ 31) :
    loadedPart bytes xs (fileContents bytes xs).length = xs := by
  rw [loadedPart, whole_fileContents, announced_of_lt hn, List.take_length]

end

/-! ## What is loaded from a prefix -/

section
variable {α β K V R : Type} {answers : Nat → Nat} {room : Nat} {r : BufferedReader}

theorem BufferedReader.Supplies.loadElems_cut {xs : List α} {bytes : α → List UInt8}
    {elem : α → β} {decode : Decoder β}
    (h : r.Supplies ((xs.flatMap fun x => record (bytes x)).take room))
    (hmakes : ∀ x ∈ xs, decode.Makes (bytes x) (elem x)) (n : Nat) :
    DedupBlockFS.loadElems decode n r =
      some (((whole (fun x => record (bytes x)) xs room).take n).map elem) := by
  induction n generalizing r xs room with
  | zero => rfl
  | succ n ih =>
    cases xs with
    | nil =>
      rw [List.flatMap_nil, List.take_nil] at h
      obtain ⟨r', hread, -⟩ := h.readElem_end decode
      simp only [DedupBlockFS.loadElems, hread, whole, List.take_nil, List.map_nil]
    | cons x xs =>
      have hx := hmakes x List.mem_cons_self
      by_cases hroom : (record (bytes x)).length ≤ room
      · rw [take_flatMap_of_le (fun x => record (bytes x)) hroom] at h
        obtain ⟨r', hread, h'⟩ := h.readElem hx
        have hrest := ih h' fun y hy => hmakes y (List.mem_cons_of_mem x hy)
        simp only [DedupBlockFS.loadElems, hread, hrest, whole, if_pos hroom, List.take_succ_cons,
          List.map_cons, Option.map_some]
      · rw [take_flatMap_of_lt (fun x => record (bytes x)) (Nat.lt_of_not_le hroom)] at h
        obtain ⟨r', hread, -⟩ := h.readElem_short decode (Nat.lt_of_not_le hroom) hx.length_lt
        simp only [DedupBlockFS.loadElems, hread, whole, if_neg hroom, List.take_nil, List.map_nil]

theorem BufferedReader.Supplies.loadEntries_cut [DecidableEq K] {es : List α} {key : α → K}
    {val : α → V} {raw : α → R} {keyBytes valBytes : α → List UInt8} {decodeKey : Decoder R}
    {decodeVal : Decoder V} {asKey : R → Option K} (ht : Table K V)
    (h : r.Supplies ((es.flatMap fun e => record (keyBytes e) ++ record (valBytes e)).take room))
    (hkey : ∀ e ∈ es, decodeKey.Makes (keyBytes e) (raw e) ∧ asKey (raw e) = some (key e))
    (hval : ∀ e ∈ es, decodeVal.Makes (valBytes e) (val e)) (n : Nat) :
    DedupBlockFS.loadEntries decodeKey asKey decodeVal n r ht =
      some (((whole (fun e => record (keyBytes e) ++ record (valBytes e)) es room).take n).foldl
        (fun ht e => ht.insert (key e) (val e)) ht) := by
  induction n generalizing r es room ht with
  | zero => rfl
  | succ n ih =>
    cases es with
    | nil =>
      rw [List.flatMap_nil, List.take_nil] at h
      obtain ⟨r₁, hfirst, h₁⟩ := h.readElem_end decodeKey
      obtain ⟨r₂, hsecond, -⟩ := h₁.readElem_end decodeVal
      simp only [DedupBlockFS.loadEntries, hfirst, hsecond, whole, List.take_nil, List.foldl_nil]
    | cons e es =>
      obtain ⟨hmakes, hasKey⟩ := hkey e List.mem_cons_self
      have hmakes' := hval e List.mem_cons_self
      by_cases hroom : (record (keyBytes e) ++ record (valBytes e)).length ≤ room
      · rw [take_flatMap_of_le (fun e => record (keyBytes e) ++ record (valBytes e)) hroom,
          List.append_assoc] at h
        obtain ⟨r₁, hfirst, h₁⟩ := h.readElem hmakes
        obtain ⟨r₂, hsecond, h₂⟩ := h₁.readElem hmakes'
        have hrest := ih (ht.insert (key e) (val e)) h₂
          (fun e' he' => hkey e' (List.mem_cons_of_mem e he'))
          (fun e' he' => hval e' (List.mem_cons_of_mem e he'))
        simp only [DedupBlockFS.loadEntries, hfirst, hsecond, hasKey, Option.bind_some, hrest, whole,
          if_pos hroom, List.take_succ_cons, List.foldl_cons]
      · have hlt := Nat.lt_of_not_le hroom
        rw [take_flatMap_of_lt (fun e => record (keyBytes e) ++ record (valBytes e)) hlt] at h
        have hstop : whole (fun e => record (keyBytes e) ++ record (valBytes e)) (e :: es) room =
            [] := by rw [whole, if_neg hroom]
        rw [hstop]
        by_cases hfits : (record (keyBytes e)).length ≤ room
        · -- the key is whole, but not the value
          rw [List.take_append, List.take_of_length_le hfits] at h
          rw [List.length_append] at hlt
          obtain ⟨r₁, hfirst, h₁⟩ := h.readElem hmakes
          obtain ⟨r₂, hsecond, -⟩ := h₁.readElem_short decodeVal (by omega) hmakes'.length_lt
          simp only [DedupBlockFS.loadEntries, hfirst, hsecond, List.take_nil, List.foldl_nil]
        · rw [List.take_append_of_le_length (by omega)] at h
          obtain ⟨r₁, hfirst, h₁⟩ :=
            h.readElem_short decodeKey (Nat.lt_of_not_le hfits) hmakes.length_lt
          obtain ⟨r₂, hsecond, -⟩ := h₁.readElem_end decodeVal
          simp only [DedupBlockFS.loadEntries, hfirst, hsecond, List.take_nil, List.foldl_nil]

/-- The lowest four bytes of a number are the same `int`. -/
theorem cInt_leBytes (n : Nat) : cInt (leNat (leBytes 4 n)) = cInt n := by
  have hint : ∀ m, cInt m = Int.bmod m 4294967296 := fun _ => rfl
  have hword : leNat (leBytes 4 n) = n % 4294967296 := leNat_leBytes_mod 4 n
  rw [hint, hint, hword, Int.natCast_emod]
  exact Int.emod_bmod n 4294967296

/-- The number of entries is read if it is whole. -/
theorem loadAll_cut (bytes : α → List UInt8) (xs : List α) (len : Nat)
    (hanswers : ∀ k, 0 < answers k) (nothing : β) (load : Nat → BufferedReader → Option β) :
    (len < sizeofInt ∧
        loadAll ((fileContents bytes xs).take len) answers nothing load = some nothing) ∨
      ∃ r, BufferedReader.Supplies r ((xs.flatMap bytes).take (len - sizeofInt)) ∧
        loadAll ((fileContents bytes xs).take len) answers nothing load =
          load (announced xs.length) r := by
  have hheader : (leBytes 4 xs.length).length = sizeofInt := length_leBytes 4 _
  have hopen : (openReader ((fileContents bytes xs).take len) answers).Supplies
      ((fileContents bytes xs).take len) := BufferedReader.supplies_init hanswers
  by_cases hlen : len < sizeofInt
  · have hshort : ((fileContents bytes xs).take len).length < sizeofInt := by
      rw [List.length_take]
      omega
    obtain ⟨r, hread, -⟩ := hopen.bufferedRead_short hshort
    refine .inl ⟨hlen, ?_⟩
    simp only [loadAll, hread]
  · have hsplit : (fileContents bytes xs).take len =
        leBytes 4 xs.length ++ (xs.flatMap bytes).take (len - sizeofInt) := by
      rw [fileContents, List.take_append, hheader, List.take_of_length_le (by omega)]
    rw [hsplit] at hopen ⊢
    obtain ⟨r, hread, hr⟩ := hopen.bufferedRead
    rw [hheader] at hread
    refine .inr ⟨r, hr, ?_⟩
    simp only [loadAll, hread, cInt_leBytes]
    rfl

/-- A list is loaded as far as its elements are whole. -/
theorem gslistLoad_cut {xs : List α} {bytes : α → List UInt8} {elem : α → β} {decode : Decoder β}
    {file : List UInt8} (hfile : file = fileContents (fun x => record (bytes x)) xs)
    (hread : ∀ k, 0 < answers k) (hmakes : ∀ x ∈ xs, decode.Makes (bytes x) (elem x)) (len : Nat) :
    gslistLoad (file.take len) answers decode =
      some ((loadedPart (fun x => record (bytes x)) xs len).map elem) := by
  subst hfile
  rcases loadAll_cut (fun x => record (bytes x)) xs len hread [] (loadElems decode) with
    ⟨hlen, hload⟩ | ⟨r, hr, hload⟩
  · rw [gslistLoad, hload, loadedPart, Nat.sub_eq_zero_of_le hlen.le,
      whole_zero (fun x => record_ne_nil _), List.take_nil, List.map_nil]
  · rw [gslistLoad, hload, hr.loadElems_cut hmakes, loadedPart]

/-- A table is loaded as far as its entries are whole: these are found in it, and nothing else. -/
theorem ghashLoad_cut {U : Type} [DecidableEq K] {t : Table K U} {es : List ((_ : K) × U)}
    (hperm : es.Perm t.entries) {val : (_ : K) × U → V} (keyBytes : K → List UInt8)
    {valBytes : (_ : K) × U → List UInt8} (raw : K → R) {decodeKey : Decoder R}
    {decodeVal : Decoder V} {asKey : R → Option K} {file : List UInt8}
    (hfile : file = fileContents (fun e => record (keyBytes e.1) ++ record (valBytes e)) es)
    (hread : ∀ k, 0 < answers k)
    (hkey : ∀ e ∈ es, decodeKey.Makes (keyBytes e.1) (raw e.1) ∧ asKey (raw e.1) = some e.1)
    (hval : ∀ e ∈ es, decodeVal.Makes (valBytes e) (val e)) (len : Nat) :
    ∃ ht, ghashLoad (file.take len) answers decodeKey asKey decodeVal = some ht ∧
      ∀ k x, ht.lookup k = some x ↔
        ∃ e ∈ loadedPart (fun e => record (keyBytes e.1) ++ record (valBytes e)) es len,
          e.1 = k ∧ val e = x := by
  subst hfile
  set entryBytes : (_ : K) × U → List UInt8 := fun e => record (keyBytes e.1) ++ record (valBytes e)
    with hbytes
  have hload : ghashLoad ((fileContents entryBytes es).take len) answers decodeKey asKey decodeVal =
      some ((loadedPart entryBytes es len).foldl (fun ht e => ht.insert e.1 (val e)) ∅) := by
    rcases loadAll_cut entryBytes es len hread ∅
      (fun n r => loadEntries decodeKey asKey decodeVal n r ∅) with ⟨hlen, hload⟩ | ⟨r, hr, hload⟩
    · have hne : ∀ e, entryBytes e ≠ [] := fun e =>
        List.append_ne_nil_of_left_ne_nil (record_ne_nil _) _
      rw [ghashLoad, hload, loadedPart, Nat.sub_eq_zero_of_le hlen.le, whole_zero hne,
        List.take_nil, List.foldl_nil]
    · rw [ghashLoad, hload, hr.loadEntries_cut ∅ hkey hval, loadedPart]
  refine ⟨_, hload, fun k x => Table.lookup_foldl_insert_eq_some _ _ ?_⟩
  have hsub := (loadedPart_isPrefix entryBytes es len).sublist.map Sigma.fst
  exact hsub.nodup ((List.perm_nodupKeys hperm).mpr t.nodupKeys)

end

end DedupBlockFS
