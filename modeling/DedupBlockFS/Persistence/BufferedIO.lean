-- SUMMARY: `BufferedIOCtx`: the buffered stream in both directions, over `pwrite` and `pread` calls that may be short.
import DedupBlockFS.Metaindex

/-!
# Buffered input and output

`BufferedIOCtx` of `persistence.c`. One structure of the source serves both
directions; here each direction has its own. The bytes of the buffer that count are
a list: the filled part when writing, the part that is still unread when reading. A
copy that would leave the buffer has no result.

A stream carries the answers of its environment to the system calls to come. What a
writer has been given, and what a reader has still to give, are byte strings that do
not depend on the size of the buffer (`Holds`, `Supplies`).
-/

namespace DedupBlockFS

open ByteFile

/-! ## Writing -/

/-- A context that writes. The `k`-th `pwrite` has the result `answers k`. -/
structure BufferedWriter where
  file : List UInt8
  buffer : List UInt8
  bufferSize : Nat
  fileOffset : Nat
  answers : Nat → PwriteResult
  calls : Nat
  size_pos : 0 < bufferSize
  fits : buffer.length ≤ bufferSize

namespace BufferedWriter

/-- `open` with `O_TRUNC`, and `buffered_io_init`. -/
def init (bufferSize : Nat) (hpos : 0 < bufferSize) (answers : Nat → PwriteResult) :
    BufferedWriter where
  file := []
  buffer := []
  bufferSize := bufferSize
  fileOffset := 0
  answers := answers
  calls := 0
  size_pos := hpos
  fits := Nat.zero_le _

/-- `flush_write_buffer`. A short write keeps the rest in the buffer, an error all of it. -/
def flushWriteBuffer (w : BufferedWriter) : BufferedWriter :=
  if w.buffer = [] then w
  else
    let r := w.answers w.calls
    let n := r.count w.buffer.length
    let written := r.ret w.buffer.length
    let file := pwrite w.file w.fileOffset (w.buffer.take n)
    if written = w.buffer.length then
      { w with
        file := file, fileOffset := w.fileOffset + w.buffer.length, buffer := [],
        calls := w.calls + 1, fits := Nat.zero_le _ }
    else if 0 < written then
      { w with
        file := file, fileOffset := w.fileOffset + n, buffer := w.buffer.drop n,
        calls := w.calls + 1, fits := (List.drop_sublist _ _).length_le.trans w.fits }
    else { w with calls := w.calls + 1 }

/-- Copy what fits `available` to the buffer: the stream after it and the data that is
    left. -/
def copyChunk (w : BufferedWriter) (data : List UInt8) (available : Nat) :
    Option (BufferedWriter × List UInt8) :=
  let toCopy := min data.length available
  if h : (w.buffer ++ data.take toCopy).length ≤ w.bufferSize then
    some ({ w with buffer := w.buffer ++ data.take toCopy, fits := h }, data.drop toCopy)
  else none

/-- One turn of the loop of `buffered_write`. After a flush the code takes the whole
    buffer for available. -/
def writeChunk (w : BufferedWriter) (data : List UInt8) : Option (BufferedWriter × List UInt8) :=
  let available := w.bufferSize - w.buffer.length
  if available = 0 then w.flushWriteBuffer.copyChunk data w.bufferSize
  else w.copyChunk data available

theorem copyChunk_lt {w w' : BufferedWriter} {data rest : List UInt8} {available : Nat}
    (hne : data ≠ []) (hpos : 0 < available) (h : w.copyChunk data available = some (w', rest)) :
    rest.length < data.length := by
  have hlen : 0 < data.length := List.length_pos_of_ne_nil hne
  simp only [copyChunk] at h
  split at h
  · cases h
    rw [List.length_drop]
    omega
  · cases h

theorem writeChunk_lt {w w' : BufferedWriter} {data rest : List UInt8} (hne : data ≠ [])
    (h : w.writeChunk data = some (w', rest)) : rest.length < data.length := by
  simp only [writeChunk] at h
  split at h
  · exact copyChunk_lt hne w.size_pos h
  · rename_i hroom
    exact copyChunk_lt hne (Nat.pos_of_ne_zero hroom) h

/-- `buffered_write`; `none` when a copy leaves the buffer. -/
def bufferedWrite (w : BufferedWriter) (data : List UInt8) : Option BufferedWriter :=
  if _ : data = [] then some w
  else
    match _ : w.writeChunk data with
    | none => none
    | some (w', rest) => bufferedWrite w' rest
termination_by data.length
decreasing_by exact writeChunk_lt ‹_› ‹_›

/-- The stream has been given `data`, and every `pwrite` is complete. -/
structure Holds (w : BufferedWriter) (data : List UInt8) : Prop where
  eq : w.file ++ w.buffer = data
  offset : w.fileOffset = w.file.length
  complete : ∀ k, w.answers k = .complete

variable {w : BufferedWriter} {data : List UInt8}

theorem holds_init {bufferSize : Nat} {hpos : 0 < bufferSize} {answers : Nat → PwriteResult}
    (h : ∀ k, answers k = .complete) : (init bufferSize hpos answers).Holds [] where
  eq := rfl
  offset := rfl
  complete := h

theorem Holds.flush_eq (h : w.Holds data) :
    w.flushWriteBuffer.file = data ∧ w.flushWriteBuffer.buffer = [] ∧
      w.flushWriteBuffer.bufferSize = w.bufferSize ∧ w.flushWriteBuffer.Holds data := by
  by_cases hempty : w.buffer = []
  · have hfile : w.file = data := by rw [← h.eq, hempty, List.append_nil]
    rw [flushWriteBuffer, if_pos hempty]
    exact ⟨hfile, hempty, rfl, h⟩
  · have hwrite : pwrite w.file w.fileOffset w.buffer = data := by
      rw [h.offset, pwrite_at_end, h.eq]
    have hflush : w.flushWriteBuffer = { w with
        file := data, fileOffset := w.fileOffset + w.buffer.length, buffer := [],
        calls := w.calls + 1, fits := Nat.zero_le _ } := by
      simp only [flushWriteBuffer, if_neg hempty, h.complete, PwriteResult.count,
        PwriteResult.ret, if_pos, List.take_length, hwrite]
    rw [hflush]
    refine ⟨rfl, rfl, rfl, List.append_nil _, ?_, h.complete⟩
    rw [← h.eq, List.length_append, h.offset]

theorem Holds.copyChunk (h : w.Holds data) {more : List UInt8} {available : Nat}
    (hroom : w.buffer.length + available ≤ w.bufferSize) :
    ∃ w' n, w.copyChunk more available = some (w', more.drop n) ∧
      w'.Holds (data ++ more.take n) := by
  have hfits : (w.buffer ++ more.take (min more.length available)).length ≤ w.bufferSize := by
    rw [List.length_append, List.length_take]
    omega
  refine ⟨{ w with buffer := w.buffer ++ more.take (min more.length available), fits := hfits },
    min more.length available, dif_pos hfits, ?_, h.offset, h.complete⟩
  rw [← List.append_assoc, h.eq]

theorem Holds.writeChunk (h : w.Holds data) (more : List UInt8) :
    ∃ w' n, w.writeChunk more = some (w', more.drop n) ∧ w'.Holds (data ++ more.take n) := by
  have hfits := w.fits
  simp only [BufferedWriter.writeChunk]
  split
  · obtain ⟨-, hbuffer, hsize, hholds⟩ := h.flush_eq
    apply hholds.copyChunk
    rw [hbuffer, hsize, List.length_nil, Nat.zero_add]
  · apply h.copyChunk
    omega

/-- While every `pwrite` is complete, `buffered_write` appends to the stream. -/
theorem Holds.bufferedWrite (h : w.Holds data) (more : List UInt8) :
    ∃ w', w.bufferedWrite more = some w' ∧ w'.Holds (data ++ more) := by
  induction hn : more.length using Nat.strong_induction_on generalizing w data more with
  | h n ih =>
    subst hn
    by_cases hne : more = []
    · refine ⟨w, ?_, ?_⟩
      · rw [BufferedWriter.bufferedWrite, dif_pos hne]
      · rwa [hne, List.append_nil]
    · obtain ⟨w', k, hchunk, hholds⟩ := h.writeChunk more
      obtain ⟨w'', hrest, hholds'⟩ := ih _ (writeChunk_lt hne hchunk) hholds (more.drop k) rfl
      refine ⟨w'', ?_, ?_⟩
      · rw [BufferedWriter.bufferedWrite, dif_neg hne]
        split
        · rename_i hnone
          rw [hchunk] at hnone
          cases hnone
        · rename_i hsome
          rw [hchunk] at hsome
          obtain ⟨rfl, rfl⟩ := Prod.ext_iff.mp (Option.some.inj hsome)
          exact hrest
      · rwa [List.append_assoc, List.take_append_drop] at hholds'

end BufferedWriter

/-! ## Reading -/

/-- A context that reads. The `k`-th `pread` transfers at most `answers k` bytes; none
    stands for an error. -/
structure BufferedReader where
  file : List UInt8
  buffer : List UInt8
  bufferSize : Nat
  fileOffset : Nat
  answers : Nat → Nat
  calls : Nat
  size_pos : 0 < bufferSize

namespace BufferedReader

/-- `open` for reading, and `buffered_io_init`. -/
def init (bufferSize : Nat) (hpos : 0 < bufferSize) (file : List UInt8) (answers : Nat → Nat) :
    BufferedReader where
  file := file
  buffer := []
  bufferSize := bufferSize
  fileOffset := 0
  answers := answers
  calls := 0
  size_pos := hpos

/-- `refill_read_buffer`. -/
def refillReadBuffer (r : BufferedReader) : Bool × BufferedReader :=
  let data := (pread r.file r.fileOffset r.bufferSize).take (r.answers r.calls)
  if data = [] then (false, { r with calls := r.calls + 1 })
  else
    (true, { r with
      buffer := data, fileOffset := r.fileOffset + data.length, calls := r.calls + 1 })

/-- The beginning of a turn of the loop of `buffered_read`. -/
def ready (r : BufferedReader) : Bool × BufferedReader :=
  if r.buffer = [] then r.refillReadBuffer else (true, r)

/-- `buffered_read` of `size` bytes. -/
def bufferedRead (r : BufferedReader) (size : Nat) : Option (List UInt8) × BufferedReader :=
  if _ : size = 0 then (some [], r)
  else
    match r.ready with
    | (false, r) => (none, r)
    | (true, r) =>
      if _ : r.buffer = [] then (none, r)
      else
        let toCopy := min size r.buffer.length
        match bufferedRead { r with buffer := r.buffer.drop toCopy } (size - toCopy) with
        | (none, r') => (none, r')
        | (some rest, r') => (some (r.buffer.take toCopy ++ rest), r')
termination_by size
decreasing_by
  have := List.length_pos_of_ne_nil ‹_›
  omega

/-- The stream has `data` still to give, and every `pread` before the end of the file
    transfers something. -/
structure Supplies (r : BufferedReader) (data : List UInt8) : Prop where
  eq : r.buffer ++ r.file.drop r.fileOffset = data
  progress : ∀ k, 0 < r.answers k

variable {r : BufferedReader} {data : List UInt8}

theorem supplies_init {bufferSize : Nat} {hpos : 0 < bufferSize} {answers : Nat → Nat}
    (h : ∀ k, 0 < answers k) : (init bufferSize hpos data answers).Supplies data where
  eq := rfl
  progress := h

theorem Supplies.refill (h : r.Supplies data) (hbuffer : r.buffer = []) (hne : data ≠ []) :
    ∃ r', r.refillReadBuffer = (true, r') ∧ r'.buffer ≠ [] ∧ r'.Supplies data := by
  have hdata : r.file.drop r.fileOffset = data := by rw [← h.eq, hbuffer, List.nil_append]
  have htake : (pread r.file r.fileOffset r.bufferSize).take (r.answers r.calls) =
      data.take (min (r.answers r.calls) r.bufferSize) := by
    rw [pread, hdata, List.take_take]
  have hlen : 0 < data.length := List.length_pos_of_ne_nil hne
  have hpos := r.size_pos
  have hprogress := h.progress r.calls
  set chunk := data.take (min (r.answers r.calls) r.bufferSize) with hchunk
  have hne' : chunk ≠ [] := by
    apply List.ne_nil_of_length_pos
    rw [hchunk, List.length_take]
    omega
  refine ⟨{ r with
    buffer := chunk, fileOffset := r.fileOffset + chunk.length, calls := r.calls + 1 }, ?_, hne', ?_⟩
  · simp only [refillReadBuffer, htake, if_neg hne']
  · refine ⟨?_, h.progress⟩
    dsimp only
    rw [← List.drop_drop, hdata, hchunk, List.length_take, List.take_eq_take_min]
    exact List.take_append_drop _ _

theorem Supplies.ready (h : r.Supplies data) (hne : data ≠ []) :
    ∃ r', r.ready = (true, r') ∧ r'.buffer ≠ [] ∧ r'.Supplies data := by
  by_cases hbuffer : r.buffer = []
  · rw [BufferedReader.ready, if_pos hbuffer]
    exact h.refill hbuffer hne
  · rw [BufferedReader.ready, if_neg hbuffer]
    exact ⟨r, rfl, hbuffer, h⟩

/-- `buffered_read` takes its bytes from the front of the stream. -/
theorem Supplies.bufferedRead {tail : List UInt8} (h : r.Supplies (data ++ tail)) :
    ∃ r', r.bufferedRead data.length = (some data, r') ∧ r'.Supplies tail := by
  induction hn : data.length using Nat.strong_induction_on generalizing r data with
  | h n ih =>
    subst hn
    by_cases hsize : data.length = 0
    · obtain rfl := List.eq_nil_of_length_eq_zero hsize
      refine ⟨r, ?_, h⟩
      rw [BufferedReader.bufferedRead, dif_pos hsize]
    · have hne : data ++ tail ≠ [] := fun hnil =>
        hsize (by rw [(List.append_eq_nil_iff.mp hnil).1]; rfl)
      obtain ⟨r₁, hready, hbuffer, h₁⟩ := h.ready hne
      have hpos := List.length_pos_of_ne_nil hbuffer
      set n := min data.length r₁.buffer.length with hn
      have htake : r₁.buffer.take n = data.take n := by
        have hboth := congrArg (List.take n) h₁.eq
        rwa [List.take_append_of_le_length (Nat.min_le_right _ _),
          List.take_append_of_le_length (Nat.min_le_left _ _)] at hboth
      have hdrop : Supplies { r₁ with buffer := r₁.buffer.drop n } (data.drop n ++ tail) := by
        refine ⟨?_, h₁.progress⟩
        have hboth := congrArg (List.drop n) h₁.eq
        rwa [List.drop_append_of_le_length (Nat.min_le_right _ _),
          List.drop_append_of_le_length (Nat.min_le_left _ _)] at hboth
      obtain ⟨r₂, hrest, h₂⟩ := ih (data.drop n).length (by rw [List.length_drop]; omega) hdrop rfl
      refine ⟨r₂, ?_, h₂⟩
      rw [BufferedReader.bufferedRead, dif_neg hsize, hready]
      rw [List.length_drop] at hrest
      simp only [dif_neg hbuffer, ← hn, hrest, htake, List.take_append_drop]

/-- At the end of the file there is nothing to refill the buffer with. -/
theorem Supplies.ready_end (h : r.Supplies []) :
    ∃ r', r.ready = (false, r') ∧ r'.Supplies [] := by
  obtain ⟨hbuffer, hfile⟩ := List.append_eq_nil_iff.mp h.eq
  have hnone : (pread r.file r.fileOffset r.bufferSize).take (r.answers r.calls) = [] := by
    rw [pread, hfile, List.take_nil, List.take_nil]
  refine ⟨{ r with calls := r.calls + 1 }, ?_, h.eq, h.progress⟩
  simp only [BufferedReader.ready, if_pos hbuffer, refillReadBuffer, hnone, if_true]

/-- Where fewer bytes are left than it needs, `buffered_read` takes them all and fails. -/
theorem Supplies.bufferedRead_short {size : Nat} (h : r.Supplies data) (hshort : data.length < size) :
    ∃ r', r.bufferedRead size = (none, r') ∧ r'.Supplies [] := by
  induction size using Nat.strong_induction_on generalizing r data with
  | h size ih =>
    have hsize : size ≠ 0 := by omega
    by_cases hne : data = []
    · subst hne
      obtain ⟨r', hready, h'⟩ := h.ready_end
      refine ⟨r', ?_, h'⟩
      rw [BufferedReader.bufferedRead, dif_neg hsize, hready]
    · obtain ⟨r₁, hready, hbuffer, h₁⟩ := h.ready hne
      have hpos := List.length_pos_of_ne_nil hbuffer
      have hle : r₁.buffer.length ≤ data.length := by
        rw [← h₁.eq, List.length_append]
        exact Nat.le_add_right _ _
      set n := min size r₁.buffer.length with hn
      have hdrop : Supplies { r₁ with buffer := r₁.buffer.drop n } (data.drop n) := by
        refine ⟨?_, h₁.progress⟩
        have hboth := congrArg (List.drop n) h₁.eq
        rwa [List.drop_append_of_le_length (Nat.min_le_right _ _)] at hboth
      obtain ⟨r₂, hrest, h₂⟩ := ih (size - n) (by omega) hdrop (by rw [List.length_drop]; omega)
      refine ⟨r₂, ?_, h₂⟩
      rw [BufferedReader.bufferedRead, dif_neg hsize, hready]
      simp only [dif_neg hbuffer, ← hn, hrest]

end BufferedReader

end DedupBlockFS
