-- SUMMARY: The unbuffered `write_elem` and `read_elem` agree with the buffered stream, on every file whose lengths one `pread` can serve.
import DedupBlockFS.Persistence.Tables

/-!
# Elements without a buffer

`write_elem` and `read_elem` of `persistence.c` work on the file itself, two system calls for
each element. They are there for other modules to use the same format: what they write is what
the buffered stream writes, and from any file, whole or not, they read the same elements, as
long as no length in front of an element is beyond what one `pread` transfers.
-/

namespace DedupBlockFS

open LittleEndian
open ByteFile

/-- `write_elem`: the file and `*offset` after it. `header` and `data` answer its two `pwrite`s;
    after an incomplete one it gives up. -/
def writeElem (s : List UInt8 × Nat) (bytes : List UInt8) (header data : PwriteResult) :
    List UInt8 × Nat :=
  let size := leBytes 8 bytes.length
  let file := pwrite s.1 s.2 (size.take (header.count size.length))
  if header.ret size.length ≠ size.length then (file, s.2)
  else
    let offset := s.2 + size.length
    let file := pwrite file offset (bytes.take (data.count bytes.length))
    if data.ret bytes.length ≠ bytes.length then (file, offset)
    else (file, offset + bytes.length)

/-- `read_elem`: the element, and `*offset` after it. -/
def readElem {α : Type} (file : List UInt8) (decode : Decoder α) (offset : Nat) :
    Decoded α × Nat :=
  let size := pread file offset sizeofSize
  if size.length ≠ sizeofSize then (.null, offset)
  else
    let offset := offset + sizeofSize
    -- `malloc` returns NULL, and the -1 of the failing `pread` is taken for this length
    if leNat size = 2 ^ 64 - 1 then (decode [] (cInt (leNat size)), (offset + leNat size) % 2 ^ 64)
    else
    let buf := pread file offset (leNat size)
    if buf.length ≠ leNat size then (.null, offset)
    else (decode buf (cInt (leNat size)), offset + leNat size)

/-- `read_elem` in the loop of `gslist_load`. -/
def loadUnbuffered {α : Type} (file : List UInt8) (decode : Decoder α) :
    Nat → Nat → Option (List α)
  | 0, _ => some []
  | n + 1, offset =>
    match readElem file decode offset with
    | (.overread, _) => none
    | (.null, _) => some []
    | (.elem a, offset) => (loadUnbuffered file decode n offset).map (a :: ·)

/-- The most that one `pread` transfers. -/
def maxRwCount : Nat := 0x7ffff000

/-- No length that the loop of `loadUnbuffered` comes to is greater than that. -/
def LengthsServed {α : Type} (file : List UInt8) (decode : Decoder α) : Nat → Nat → Prop
  | 0, _ => True
  | n + 1, offset =>
    ((pread file offset sizeofSize).length = sizeofSize →
      leNat (pread file offset sizeofSize) ≤ maxRwCount) ∧
    match readElem file decode offset with
    | (.elem _, offset) => LengthsServed file decode n offset
    | _ => True

/-! ## Writing -/

theorem writeElem_complete (file bytes : List UInt8) :
    writeElem (file, file.length) bytes .complete .complete =
      (file ++ record bytes, (file ++ record bytes).length) := by
  have hsize : (leBytes 8 bytes.length).length = 8 := length_leBytes 8 _
  have hend : file.length + 8 = (file ++ leBytes 8 bytes.length).length := by
    rw [List.length_append, hsize]
  simp only [writeElem, PwriteResult.count, PwriteResult.ret, List.take_length, pwrite_at_end,
    ne_eq, not_true_eq_false, if_false]
  rw [hsize, hend, pwrite_at_end, record, ← List.append_assoc, ← List.length_append]

/-- One after the other they are in the file, each with its length in front. -/
theorem writeElems_complete (elems : List (List UInt8)) (file : List UInt8) :
    (elems.foldl (fun s bytes => writeElem s bytes .complete .complete) (file, file.length)).1 =
      file ++ elems.flatMap record := by
  induction elems generalizing file with
  | nil => exact (List.append_nil _).symm
  | cons bytes elems ih =>
    rw [List.foldl_cons, writeElem_complete, ih, List.flatMap_cons, List.append_assoc]

/-! ## Reading -/

section
variable {α : Type} {r : BufferedReader} {file : List UInt8} {offset : Nat}

theorem pread_eq_take (file : List UInt8) (offset n : Nat) :
    pread file offset n = (file.drop offset).take n := rfl

/-- The stream gives as many bytes as a `pread` of the file does. -/
theorem bufferedRead_eq_pread (h : r.Supplies (file.drop offset)) (n : Nat) :
    ((pread file offset n).length ≠ n ∧ ∃ r', r.bufferedRead n = (none, r')) ∨
      ((pread file offset n).length = n ∧ ∃ r', r.bufferedRead n = (some (pread file offset n), r') ∧
        r'.Supplies (file.drop (offset + n))) := by
  by_cases hfit : n ≤ (file.drop offset).length
  · right
    -- the stream has still to give what the `pread` gives, and then the rest of the file
    have hlen : (pread file offset n).length = n := List.length_take_of_le hfit
    have hsplit : r.Supplies (pread file offset n ++ file.drop (offset + n)) := by
      rw [pread_eq_take, ← List.drop_drop, List.take_append_drop]
      exact h
    obtain ⟨r', hread, h'⟩ := hsplit.bufferedRead
    rw [hlen] at hread
    exact ⟨hlen, r', hread, h'⟩
  · left
    have hshort := Nat.lt_of_not_le hfit
    obtain ⟨r', hread, -⟩ := h.bufferedRead_short hshort
    refine ⟨?_, r', hread⟩
    rw [pread_eq_take, List.length_take]
    omega

/-- Both read the same element, and go on from the same place. -/
theorem readElemBuffered_eq (h : r.Supplies (file.drop offset))
    (hlength : (pread file offset sizeofSize).length = sizeofSize →
      leNat (pread file offset sizeofSize) ≤ maxRwCount) (decode : Decoder α) : ∃ r', readElemBuffered r decode = ((readElem file decode offset).1, r') ∧
      ((readElem file decode offset).1 ≠ .null →
        r'.Supplies (file.drop (readElem file decode offset).2)) := by
  unfold readElemBuffered readElem
  rcases bufferedRead_eq_pread h sizeofSize with ⟨hshort, r₁, hread⟩ | ⟨hsize, r₁, hread, h₁⟩
  · rw [hread, if_pos hshort]
    exact ⟨r₁, rfl, fun hne => absurd rfl hne⟩
  have hserved := hlength hsize
  rw [hread, if_neg (not_not.mpr hsize)]
  dsimp only
  rw [if_neg (by rw [maxRwCount] at hserved; omega)]
  rcases bufferedRead_eq_pread h₁ (leNat (pread file offset sizeofSize)) with
    ⟨hshort, r₂, hread'⟩ | ⟨hlen, r₂, hread', h₂⟩
  · rw [hread', if_pos hshort]
    exact ⟨r₂, rfl, fun hne => absurd rfl hne⟩
  · rw [hread', if_neg (not_not.mpr hlen)]
    exact ⟨r₂, rfl, fun _ => h₂⟩

theorem loadElems_eq (h : r.Supplies (file.drop offset)) (decode : Decoder α) (n : Nat)
    (hlengths : LengthsServed file decode n offset) : loadElems decode n r = loadUnbuffered file decode n offset := by
  induction n generalizing r offset with
  | zero => rfl
  | succ n ih =>
    obtain ⟨hlength, hrest⟩ := hlengths
    obtain ⟨r', hread, h'⟩ := readElemBuffered_eq h hlength decode
    rw [loadElems, loadUnbuffered, hread]
    rcases helem : readElem file decode offset with ⟨elem, next⟩
    rw [helem] at h' hrest
    cases elem with
    | overread => rfl
    | null => rfl
    | elem a =>
      have hsame := ih (h' fun heq => by cases heq) hrest
      dsimp only at hsame ⊢
      rw [hsame]

end

/-- Whatever the size of the buffer is: if all `pwrite`s are complete, the elements given to the
    stream make the same file as those given to `write_elem`; and from any file, however few bytes
    each `pread` into the buffer transfers, the stream reads the elements that `read_elem` reads,
    up to the first one that it does not, if no length they come to is beyond `maxRwCount`. -/
theorem buffered_eq_unbuffered {α : Type} {bufferSize : Nat} (hpos : 0 < bufferSize)
    {answers : Nat → PwriteResult} (hanswers : ∀ k, answers k = .complete) {preads : Nat → Nat}
    (hpreads : ∀ k, 0 < preads k) (elems : List (List UInt8)) (file : List UInt8)
    (decode : Decoder α) (n : Nat) (hlengths : LengthsServed file decode n 0) :
    (elems.foldlM writeElemBuffered (.init bufferSize hpos answers)).map
        (fun w => w.flushWriteBuffer.file) =
      some (elems.foldl (fun s bytes => writeElem s bytes .complete .complete) ([], 0)).1 ∧
    loadElems decode n (.init bufferSize hpos file preads) = loadUnbuffered file decode n 0 := by
  constructor
  · have hholds : (BufferedWriter.init bufferSize hpos answers).Holds [] :=
      BufferedWriter.holds_init hanswers
    obtain ⟨w, hwrite, h⟩ := hholds.saveEach fun bytes _ => appends_writeElem bytes
    rw [hwrite, Option.map_some, h.flush_eq.1]
    exact congrArg some (writeElems_complete elems []).symm
  · have hsupplies : (BufferedReader.init bufferSize hpos file preads).Supplies (file.drop 0) :=
      BufferedReader.supplies_init hpreads
    exact loadElems_eq hsupplies decode n hlengths

/-- A length of 2^64 - 1 is not told apart from a failed `pread`: `read_elem` steps back to the
    last byte of the length itself. -/
example : readElem (List.replicate 8 255) decodeFreeBlock 0 = (.null, 7) := by decide

/-- A buffer of three bytes, filled byte by byte from a file that ends in the middle of its
    second element. -/
theorem buffered_eq_unbuffered_of_cutFile :
    ([[97, 0], [98, 99, 0]].foldlM writeElemBuffered
        (.init 3 (by decide) fun _ => .complete)).map (fun w => w.flushWriteBuffer.file) =
      some [2, 0, 0, 0, 0, 0, 0, 0, 97, 0, 3, 0, 0, 0, 0, 0, 0, 0, 98, 99, 0] ∧
    loadElems decodeStr 2 (.init 3 (by decide)
        [2, 0, 0, 0, 0, 0, 0, 0, 97, 0, 3, 0, 0, 0, 0, 0, 0, 0, 98] fun _ => 1) = some [[97, 0]] := by
  have h := buffered_eq_unbuffered (show 0 < 3 by decide) (fun _ => rfl) (fun _ => Nat.one_pos)
    [[97, 0], [98, 99, 0]] [2, 0, 0, 0, 0, 0, 0, 0, 97, 0, 3, 0, 0, 0, 0, 0, 0, 0, 98] decodeStr 2
    ⟨fun _ => by decide, fun _ => by decide, trivial⟩
  exact ⟨h.1.trans (by decide), h.2.trans (by decide)⟩

end DedupBlockFS
