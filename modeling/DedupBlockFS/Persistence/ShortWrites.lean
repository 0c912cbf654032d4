-- SUMMARY: The buffered writer when `pwrite` is short or fails: what room it needs, and when the file is complete.
import DedupBlockFS.Persistence.BufferedIO
import Mathlib.Data.List.TakeDrop

/-!
# Short writes

`buffered_write` flushes a full buffer and then takes all of it for available. The flush has made
room for as much as `pwrite` has taken, so the copy that follows leaves the buffer if it is longer
than that. And a saving function flushes once at its end, so what a short `pwrite` leaves in the
buffer there is lost.

How far the writer has come is a matter of how much the writes of a full buffer have taken
(`taken`); the invariant is that the file is that part of the data, and the buffer the rest
(`Tracks`).
-/

namespace DedupBlockFS

open ByteFile

/-- The calls of `buffered_write` in a saving function. -/
def bufferedWrites (w : BufferedWriter) (writes : List (List UInt8)) : Option BufferedWriter :=
  writes.foldlM BufferedWriter.bufferedWrite w

/-- Whatever is to be written, `pwrite` returns a positive count. -/
def ReturnsPositive (r : PwriteResult) : Prop := ∀ n, 0 < n → 0 < r.ret n

/-- No copy leaves the buffer; and if every `pwrite` that was made has returned a positive count,
    the file is the data, in order, after the last flush. -/
def SafeAndLossless (w : BufferedWriter) (writes : List (List UInt8)) : Prop :=
  ∃ w', bufferedWrites w writes = some w' ∧
    ((∀ k < w'.flushWriteBuffer.calls, ReturnsPositive (w.answers k)) →
      w'.flushWriteBuffer.file = writes.flatten)

/-! ## What the writer needs -/

/-- The bytes that the first `k` writes of a full buffer take. -/
def taken (answers : Nat → PwriteResult) (size : Nat) : Nat → Nat
  | 0 => 0
  | k + 1 => taken answers size k + (answers k).count size

/-- What the call of `buffered_write` that byte `p` of the data belongs to has to store from there
    on. -/
def restOfWrite : List (List UInt8) → Nat → Nat
  | [], _ => 0
  | data :: writes, p =>
    if p < data.length then data.length - p else restOfWrite writes (p - data.length)

/-- The `k`-th write of a full buffer takes as much as is copied to the buffer after it. -/
def MakesRoom (answers : Nat → PwriteResult) (size : Nat) (writes : List (List UInt8))
    (k : Nat) : Prop :=
  min (restOfWrite writes (taken answers size k + size)) size ≤ (answers k).count size

/-- What the writer needs of `pwrite`: it makes room whenever a full buffer is not the end of the
    data, and the last flush is not short. -/
structure WritesEnough (answers : Nat → PwriteResult) (size : Nat)
    (writes : List (List UInt8)) : Prop where
  room : ∀ k, taken answers size k + size < writes.flatten.length →
    MakesRoom answers size writes k
  last : ∀ k, (∀ i < k, taken answers size i + size < writes.flatten.length) →
    writes.flatten.length ≤ taken answers size k + size →
    let rest := writes.flatten.length - taken answers size k
    0 < (answers k).count rest → (answers k).count rest = rest

section
variable {answers : Nat → PwriteResult} {size : Nat}

theorem taken_mono {i k : Nat} (h : i ≤ k) : taken answers size i ≤ taken answers size k := by
  induction h with
  | refl => exact Nat.le_refl _
  | step _ ih => exact ih.trans (Nat.le_add_right _ _)

theorem restOfWrite_pos {writes : List (List UInt8)} {p : Nat} (h : p < writes.flatten.length) :
    0 < restOfWrite writes p := by
  induction writes generalizing p with
  | nil => cases h
  | cons data writes ih =>
    rw [List.flatten_cons, List.length_append] at h
    rw [restOfWrite]
    split
    · omega
    · exact ih (by omega)

theorem returnsPositive_iff {r : PwriteResult} {n : Nat} (hn : 0 < n) :
    ReturnsPositive r ↔ 0 < r.count n := by
  cases r with
  | complete => exact ⟨fun _ => hn, fun _ m hm => Int.natCast_pos.mpr hm⟩
  | short m =>
    constructor
    · intro h
      have hpos : (0 : Int) < min (m : Int) (n : Int) := h n hn
      show 0 < min m n
      omega
    · intro h k hk
      have hmin : 0 < min m n := h
      show (0 : Int) < min (m : Int) (k : Int)
      omega
  | error e => exact ⟨fun h => absurd (h n hn) (by simp [PwriteResult.ret]), fun h => nomatch h⟩

end

namespace BufferedWriter

/-- The stream has been given `data`: the file is what the writes of a full buffer have taken. -/
structure Tracks (w : BufferedWriter) (data : List UInt8) : Prop where
  eq : w.file ++ w.buffer = data
  offset : w.fileOffset = w.file.length
  flushed : w.file.length = taken w.answers w.bufferSize w.calls

/-- Moreover each of these writes came before the end of the data. -/
structure Reaches (w : BufferedWriter) (data : List UInt8) : Prop extends w.Tracks data where
  earlier : ∀ k < w.calls, taken w.answers w.bufferSize k + w.bufferSize < data.length

/-- The environment of the stream is the same. -/
structure SameEnv (w w' : BufferedWriter) : Prop where
  answers : w'.answers = w.answers
  bufferSize : w'.bufferSize = w.bufferSize

variable {w w' : BufferedWriter} {data more : List UInt8}

theorem bufferedWrite_eq (hne : more ≠ []) :
    w.bufferedWrite more = (w.writeChunk more).bind fun s => s.1.bufferedWrite s.2 := by
  rw [bufferedWrite, dif_neg hne]
  split
  · rename_i hnone
    rw [hnone, Option.bind_none]
  · rename_i hsome
    rw [hsome, Option.bind_some]

theorem reaches_init {size : Nat} (hpos : 0 < size) (answers : Nat → PwriteResult) :
    (init size hpos answers).Reaches [] where
  eq := rfl
  offset := rfl
  flushed := rfl
  earlier k hk := absurd hk (Nat.not_lt_zero k)

/-- What is in the buffer begins where the writes have come to. -/
theorem Tracks.length_eq (h : w.Tracks data) :
    data.length = taken w.answers w.bufferSize w.calls + w.buffer.length := by
  rw [← h.eq, List.length_append, h.flushed]

/-- A flush moves the bytes that `pwrite` takes from the buffer to the file. -/
theorem Tracks.flush_eq (h : w.Tracks data) (hne : w.buffer ≠ []) {n : Nat}
    (hn : (w.answers w.calls).count w.buffer.length = n) :
    ∃ hfits, w.flushWriteBuffer = { w with
      file := w.file ++ w.buffer.take n, buffer := w.buffer.drop n,
      fileOffset := w.fileOffset + n, calls := w.calls + 1, fits := hfits } := by
  subst hn
  refine ⟨(List.drop_sublist _ _).length_le.trans w.fits, ?_⟩
  simp only [flushWriteBuffer, if_neg hne, h.offset, pwrite_at_end]
  split
  · rename_i hall
    simp only [PwriteResult.count_of_ret hall, List.drop_length]
  · split
    · rfl
    · rename_i hnone
      have hzero : (w.answers w.calls).count w.buffer.length = 0 := by
        have hlen := List.length_pos_of_ne_nil hne
        by_contra hpos
        exact hnone ((returnsPositive_iff hlen).mpr (Nat.pos_of_ne_zero hpos) _ hlen)
      simp only [hzero, List.take_zero, List.append_nil, List.drop_zero, Nat.add_zero, ← h.offset]

/-- A copy that fits the buffer. -/
theorem Tracks.copyChunk (h : w.Tracks data) (more : List UInt8) {available : Nat}
    (hroom : w.buffer.length + min more.length available ≤ w.bufferSize) :
    ∃ w', w.copyChunk more available = some (w', more.drop (min more.length available)) ∧
      w'.calls = w.calls ∧ SameEnv w w' ∧
      w'.Tracks (data ++ more.take (min more.length available)) := by
  have hfits : (w.buffer ++ more.take (min more.length available)).length ≤ w.bufferSize := by
    rw [List.length_append, List.length_take]
    omega
  refine ⟨{ w with buffer := w.buffer ++ more.take (min more.length available), fits := hfits },
    dif_pos hfits, rfl, ⟨rfl, rfl⟩, ?_⟩
  exact
    { eq := by rw [← h.eq, List.append_assoc]
      offset := h.offset
      flushed := h.flushed }

/-- While the buffer is not full, the next copy fits. -/
theorem Reaches.writeChunk_of_room (h : w.Reaches data) (more : List UInt8)
    (hroom : w.buffer.length < w.bufferSize) :
    ∃ w' n, w.writeChunk more = some (w', more.drop n) ∧ SameEnv w w' ∧ w'.calls = w.calls ∧
      w'.Reaches (data ++ more.take n) := by
  have hne : w.bufferSize - w.buffer.length ≠ 0 := by omega
  have hfits : w.buffer.length + min more.length (w.bufferSize - w.buffer.length) ≤
      w.bufferSize := by omega
  obtain ⟨w', hcopy, hcalls, henv, htracks⟩ := h.copyChunk more hfits
  refine ⟨w', _, ?_, henv, hcalls, htracks, fun k hk => ?_⟩
  · simp only [writeChunk, if_neg hne, hcopy]
  · rw [henv.answers, henv.bufferSize, List.length_append]
    have := h.earlier k (hcalls ▸ hk)
    omega

/-- A flush that is not the last keeps track. -/
theorem Tracks.flush_full (h : w.Tracks data) (hfull : w.buffer.length = w.bufferSize) :
    w.flushWriteBuffer.Tracks data ∧ SameEnv w w.flushWriteBuffer ∧
      w.flushWriteBuffer.calls = w.calls + 1 ∧ w.flushWriteBuffer.buffer.length =
        w.bufferSize - (w.answers w.calls).count w.bufferSize := by
  have hne : w.buffer ≠ [] := List.ne_nil_of_length_pos (hfull ▸ w.size_pos)
  obtain ⟨hfits, hflush⟩ := h.flush_eq hne (by rw [hfull])
  have hcount := (w.answers w.calls).count_le w.bufferSize
  rw [hflush]
  refine ⟨⟨?_, ?_, ?_⟩, ⟨rfl, rfl⟩, rfl, ?_⟩
  · rw [← h.eq, List.append_assoc, List.take_append_drop]
  · rw [List.length_append, List.length_take, hfull, h.offset, Nat.min_eq_left hcount]
  · rw [List.length_append, List.length_take, hfull, h.flushed, Nat.min_eq_left hcount]
    rfl
  · rw [List.length_drop, hfull]

/-- When the buffer is full, the next copy fits if the flush makes room for it. -/
theorem Reaches.writeChunk_of_full (h : w.Reaches data) (hfull : w.buffer.length = w.bufferSize)
    (hne : more ≠ [])
    (hroom : min more.length w.bufferSize ≤ (w.answers w.calls).count w.bufferSize) :
    ∃ w' n, w.writeChunk more = some (w', more.drop n) ∧ SameEnv w w' ∧ w'.calls = w.calls + 1 ∧
      w'.Reaches (data ++ more.take n) := by
  have hlen := List.length_pos_of_ne_nil hne
  have hpos := w.size_pos
  have hzero : w.bufferSize - w.buffer.length = 0 := by omega
  have hcount := (w.answers w.calls).count_le w.bufferSize
  obtain ⟨htracks, henv, hcalls, hbuffer⟩ := h.flush_full hfull
  have hfits : w.flushWriteBuffer.buffer.length + min more.length w.bufferSize ≤
      w.flushWriteBuffer.bufferSize := by
    rw [hbuffer, henv.bufferSize]
    omega
  obtain ⟨w', hcopy, hcalls', henv', htracks'⟩ := htracks.copyChunk more hfits
  refine ⟨w', _, ?_, ⟨henv'.answers.trans henv.answers, henv'.bufferSize.trans henv.bufferSize⟩,
    hcalls'.trans hcalls, htracks', fun k hk => ?_⟩
  · simp only [writeChunk, if_pos hzero, hcopy]
  · rw [henv'.answers, henv.answers, henv'.bufferSize, henv.bufferSize, List.length_append,
      List.length_take]
    have hall := h.length_eq
    have hle : taken w.answers w.bufferSize k ≤ taken w.answers w.bufferSize w.calls :=
      taken_mono (by omega)
    omega

/-- If it makes less room, the copy leaves the buffer. -/
theorem Tracks.writeChunk_of_short (h : w.Tracks data) (hfull : w.buffer.length = w.bufferSize)
    (hshort : (w.answers w.calls).count w.bufferSize < min more.length w.bufferSize) :
    w.writeChunk more = none := by
  have hzero : w.bufferSize - w.buffer.length = 0 := by omega
  have hcount := (w.answers w.calls).count_le w.bufferSize
  obtain ⟨-, henv, -, hbuffer⟩ := h.flush_full hfull
  simp only [writeChunk, if_pos hzero]
  refine dif_neg ?_
  rw [List.length_append, List.length_take, hbuffer, henv.bufferSize]
  omega

/-- If the `k`-th write of a full buffer comes before byte `n`, where the data of the call ends, it
    takes as much as is copied to the buffer after it. -/
def RoomUpTo (w : BufferedWriter) (n k : Nat) : Prop :=
  taken w.answers w.bufferSize k + w.bufferSize < n →
    min (n - (taken w.answers w.bufferSize k + w.bufferSize)) w.bufferSize ≤
      (w.answers k).count w.bufferSize

theorem SameEnv.roomUpTo (h : SameEnv w w') (n k : Nat) : w'.RoomUpTo n k ↔ w.RoomUpTo n k := by
  rw [RoomUpTo, RoomUpTo, h.answers, h.bufferSize]

theorem SameEnv.trans {w'' : BufferedWriter} (h : SameEnv w w') (h' : SameEnv w' w'') :
    SameEnv w w'' where
  answers := h'.answers.trans h.answers
  bufferSize := h'.bufferSize.trans h.bufferSize

/-- The writes that come later start beyond the data that the stream has been given. -/
theorem Tracks.le_taken (h : w.Tracks data) {k : Nat} (hk : w.calls ≤ k) :
    data.length ≤ taken w.answers w.bufferSize k + w.bufferSize := by
  have hfits := w.fits
  have hmono : taken w.answers w.bufferSize w.calls ≤ taken w.answers w.bufferSize k :=
    taken_mono hk
  rw [h.length_eq]
  omega

/-- What a call of `buffered_write` does: it stores its data if the writes from now on make room,
    and it has a result only if they do. -/
structure Serves (w : BufferedWriter) (data more : List UInt8) : Prop where
  stores : (∀ k, w.calls ≤ k → w.RoomUpTo (data ++ more).length k) →
    ∃ w', w.bufferedWrite more = some w' ∧ SameEnv w w' ∧ w'.Reaches (data ++ more)
  needs : ∀ w', w.bufferedWrite more = some w' →
    ∀ k, w.calls ≤ k → w.RoomUpTo (data ++ more).length k

/-- After a copy it is up to the rest of the call, if the writes up to here have made room. -/
theorem Serves.of_copy {n : Nat} (h : w'.Serves (data ++ more.take n) (more.drop n))
    (henv : SameEnv w w') (hne : more ≠ []) (hchunk : w.writeChunk more = some (w', more.drop n))
    (hcalls : w.calls ≤ w'.calls)
    (hroom : ∀ k, w.calls ≤ k → k < w'.calls → w.RoomUpTo (data ++ more).length k) :
    w.Serves data more := by
  obtain ⟨hstores, hneeds⟩ := h
  rw [List.append_assoc, List.take_append_drop] at hstores hneeds
  simp only [henv.roomUpTo] at hstores hneeds
  have hrest : w.bufferedWrite more = w'.bufferedWrite (more.drop n) := by
    rw [bufferedWrite_eq hne, hchunk, Option.bind_some]
  refine ⟨fun hall => ?_, fun w'' hsome k hk => ?_⟩
  · obtain ⟨w'', hsome, henv', hreaches⟩ := hstores fun k hk => hall k (hcalls.trans hk)
    exact ⟨w'', hrest.trans hsome, henv.trans henv', hreaches⟩
  · by_cases hlt : k < w'.calls
    · exact hroom k hk hlt
    · exact hneeds w'' (hrest.symm.trans hsome) k (Nat.le_of_not_lt hlt)

/-- What a call of `buffered_write` needs, and what is in the stream after it. -/
theorem Reaches.bufferedWrite (h : w.Reaches data) (more : List UInt8) : w.Serves data more := by
  induction hn : more.length using Nat.strong_induction_on generalizing w data more with
  | h n ih =>
    subst hn
    by_cases hne : more = []
    · subst hne
      have hend : w.bufferedWrite [] = some w := by rw [BufferedWriter.bufferedWrite, dif_pos rfl]
      constructor
      · intro _
        rw [List.append_nil]
        exact ⟨w, hend, ⟨rfl, rfl⟩, h⟩
      · intro _ _ k hk hbefore
        have := h.le_taken hk
        rw [List.append_nil] at hbefore
        omega
    · have hlen := List.length_pos_of_ne_nil hne
      have hfits := w.fits
      by_cases hroom : w.buffer.length < w.bufferSize
      · obtain ⟨w', n, hchunk, henv, hcalls, hreaches⟩ := h.writeChunk_of_room more hroom
        have hrest := ih _ (writeChunk_lt hne hchunk) hreaches (more.drop n) rfl
        exact hrest.of_copy henv hne hchunk hcalls.ge fun k hk hlt => absurd hlt (by omega)
      · -- the buffer is full, so the copy needs room from the write of it
        have hfull : w.buffer.length = w.bufferSize := by omega
        have hdata := h.length_eq
        have hfirst : w.RoomUpTo (data ++ more).length w.calls ↔
            min more.length w.bufferSize ≤ (w.answers w.calls).count w.bufferSize := by
          rw [RoomUpTo, List.length_append, hdata, hfull, Nat.add_sub_cancel_left]
          exact ⟨fun hr => hr (by omega), fun hr _ => hr⟩
        by_cases hflush : min more.length w.bufferSize ≤ (w.answers w.calls).count w.bufferSize
        · obtain ⟨w', n, hchunk, henv, hcalls, hreaches⟩ := h.writeChunk_of_full hfull hne hflush
          have hrest := ih _ (writeChunk_lt hne hchunk) hreaches (more.drop n) rfl
          refine hrest.of_copy henv hne hchunk (by omega) fun k hk hlt => ?_
          obtain rfl : k = w.calls := by omega
          exact hfirst.mpr hflush
        · have hnone : w.bufferedWrite more = none := by
            rw [bufferedWrite_eq hne, h.writeChunk_of_short hfull (by omega), Option.bind_none]
          refine ⟨fun hall => absurd (hfirst.mp (hall _ (Nat.le_refl _))) hflush, ?_⟩
          intro w' hsome
          rw [hnone] at hsome
          cases hsome

/-- The same for the calls that follow the first `start` bytes of the data. -/
def RoomFrom (w : BufferedWriter) (start : Nat) (writes : List (List UInt8)) (k : Nat) : Prop :=
  taken w.answers w.bufferSize k + w.bufferSize < start + writes.flatten.length →
    min (restOfWrite writes (taken w.answers w.bufferSize k + w.bufferSize - start)) w.bufferSize ≤
      (w.answers k).count w.bufferSize

theorem SameEnv.roomFrom (h : SameEnv w w') (start : Nat) (writes : List (List UInt8)) (k : Nat) :
    w'.RoomFrom start writes k ↔ w.RoomFrom start writes k := by
  rw [RoomFrom, RoomFrom, h.answers, h.bufferSize]

/-- A write of a full buffer comes before the end of the next call, or else what it needs is a
    matter of the calls after that. -/
theorem roomFrom_cons {writes : List (List UInt8)} {k : Nat}
    (hstart : data.length ≤ taken w.answers w.bufferSize k + w.bufferSize) :
    w.RoomFrom data.length (more :: writes) k ↔ w.RoomUpTo (data ++ more).length k ∧
      ((data ++ more).length ≤ taken w.answers w.bufferSize k + w.bufferSize →
        w.RoomFrom (data ++ more).length writes k) := by
  have hlen : (data ++ more).length = data.length + more.length := List.length_append
  simp only [RoomFrom, RoomUpTo, hlen, List.flatten_cons, List.length_append, restOfWrite]
  by_cases hlt : taken w.answers w.bufferSize k + w.bufferSize < data.length + more.length
  · rw [if_pos (by omega)]
    omega
  · rw [if_neg (by omega), Nat.sub_sub]
    omega

/-- What the calls of `buffered_write` need, and what is in the stream after them. -/
theorem Reaches.bufferedWrites (h : w.Reaches data) (writes : List (List UInt8)) :
    ((∀ k, w.calls ≤ k → w.RoomFrom data.length writes k) →
      ∃ w', bufferedWrites w writes = some w' ∧ SameEnv w w' ∧
        w'.Reaches (data ++ writes.flatten)) ∧
    (∀ w', bufferedWrites w writes = some w' →
      ∀ k, w.calls ≤ k → w.RoomFrom data.length writes k) := by
  induction writes generalizing w data with
  | nil =>
    refine ⟨fun _ => ⟨w, rfl, ⟨rfl, rfl⟩, by rwa [List.flatten_nil, List.append_nil]⟩, ?_⟩
    intro _ _ k hk hbefore
    have := h.le_taken hk
    rw [List.flatten_nil, List.length_nil] at hbefore
    omega
  | cons more writes ih =>
    obtain ⟨hsafe, honly⟩ := h.bufferedWrite more
    have hcons : DedupBlockFS.bufferedWrites w (more :: writes) =
        (w.bufferedWrite more).bind fun w' => DedupBlockFS.bufferedWrites w' writes :=
      List.foldlM_cons
    rw [hcons]
    constructor
    · intro hall
      obtain ⟨w', hfirst, henv, hreaches⟩ :=
        hsafe fun k hk => ((roomFrom_cons (h.le_taken hk)).mp (hall k hk)).1
      have hrest : ∀ k, w'.calls ≤ k → w'.RoomFrom (data ++ more).length writes k := by
        intro k hk
        have hlater := hreaches.le_taken hk
        rw [henv.answers, henv.bufferSize] at hlater
        have hcalls : w.calls ≤ k := by
          by_contra hlt
          have hbefore := h.earlier k (Nat.lt_of_not_le hlt)
          rw [List.length_append] at hlater
          omega
        rw [henv.roomFrom]
        exact ((roomFrom_cons (h.le_taken hcalls)).mp (hall k hcalls)).2 hlater
      obtain ⟨w'', hwrites, henv', hreaches'⟩ := (ih hreaches).1 hrest
      refine ⟨w'', ?_, henv.trans henv', ?_⟩
      · rw [hfirst, Option.bind_some, hwrites]
      · rwa [List.flatten_cons, ← List.append_assoc]
    · intro w'' hboth k hk
      obtain ⟨w', hfirst, hwrites⟩ := Option.bind_eq_some_iff.mp hboth
      have hupTo := honly w' hfirst
      obtain ⟨w₁, hfirst', henv, hreaches⟩ := hsafe hupTo
      obtain rfl := Option.some.inj (hfirst.symm.trans hfirst')
      refine (roomFrom_cons (h.le_taken hk)).mpr ⟨hupTo k hk, fun hlater => ?_⟩
      have hcalls : w'.calls ≤ k := by
        by_contra hlt
        have hbefore := hreaches.earlier k (Nat.lt_of_not_le hlt)
        rw [henv.answers, henv.bufferSize] at hbefore
        omega
      rw [← henv.roomFrom]
      exact (ih hreaches).2 w'' hwrites k hcalls

/-- After the last flush the file is complete exactly if that flush is, provided that the other
    writes were positive. -/
theorem Tracks.lossless_iff (h : w.Tracks data)
    (hpos : ∀ k < w.calls, ReturnsPositive (w.answers k)) :
    ((∀ k < w.flushWriteBuffer.calls, ReturnsPositive (w.answers k)) →
        w.flushWriteBuffer.file = data) ↔
      (0 < (w.answers w.calls).count w.buffer.length →
        (w.answers w.calls).count w.buffer.length = w.buffer.length) := by
  by_cases hempty : w.buffer = []
  · have hfile : w.file = data := by rw [← h.eq, hempty, List.append_nil]
    have hzero := (w.answers w.calls).count_le 0
    rw [flushWriteBuffer, if_pos hempty, hempty, List.length_nil]
    exact ⟨fun _ _ => Nat.le_zero.mp hzero, fun _ _ => hfile⟩
  · have hlen := List.length_pos_of_ne_nil hempty
    obtain ⟨hfits, hflush⟩ := h.flush_eq hempty rfl
    have hall : (∀ k < w.calls + 1, ReturnsPositive (w.answers k)) ↔
        0 < (w.answers w.calls).count w.buffer.length := by
      rw [Nat.forall_lt_succ_right, returnsPositive_iff hlen]
      exact and_iff_right hpos
    rw [hflush]
    dsimp only
    rw [hall, ← h.eq, List.append_cancel_left_eq, List.take_eq_self_iff]
    have := (w.answers w.calls).count_le w.buffer.length
    omega

/-- The last flush is the first write that comes at the end of the data. -/
theorem Reaches.calls_eq (h : w.Reaches data) {k : Nat}
    (hbefore : ∀ i < k, taken w.answers w.bufferSize i + w.bufferSize < data.length)
    (hend : data.length ≤ taken w.answers w.bufferSize k + w.bufferSize) : k = w.calls := by
  apply Nat.le_antisymm
  · by_contra hlt
    have := hbefore w.calls (Nat.lt_of_not_le hlt)
    have := h.le_taken (Nat.le_refl _)
    omega
  · by_contra hlt
    have := h.earlier k (Nat.lt_of_not_le hlt)
    omega

end BufferedWriter

variable {size : Nat} {hpos : 0 < size} {answers : Nat → PwriteResult}
  {writes : List (List UInt8)}

/-- A write of a full buffer that makes room for the rest of a call takes something. -/
theorem MakesRoom.positive {k : Nat} (h : MakesRoom answers size writes k) (hpos : 0 < size)
    (hbefore : taken answers size k + size < writes.flatten.length) :
    ReturnsPositive (answers k) := by
  have hrest := restOfWrite_pos hbefore
  rw [returnsPositive_iff hpos]
  exact lt_of_lt_of_le (lt_min hrest hpos) h

theorem roomFrom_init {k : Nat} : (BufferedWriter.init size hpos answers).RoomFrom 0 writes k ↔
    (taken answers size k + size < writes.flatten.length → MakesRoom answers size writes k) := by
  rw [BufferedWriter.RoomFrom, Nat.zero_add, Nat.sub_zero]
  rfl

/-- The last flush, when every write of a full buffer has made room. -/
theorem lossless_iff_last {w : BufferedWriter}
    (henv : BufferedWriter.SameEnv (.init size hpos answers) w) (h : w.Reaches writes.flatten)
    (hrooms : ∀ k, taken answers size k + size < writes.flatten.length →
      MakesRoom answers size writes k) :
    ((∀ k < w.flushWriteBuffer.calls, ReturnsPositive (answers k)) →
        w.flushWriteBuffer.file = writes.flatten) ↔
      (0 < (answers w.calls).count (writes.flatten.length - taken answers size w.calls) →
        (answers w.calls).count (writes.flatten.length - taken answers size w.calls) =
          writes.flatten.length - taken answers size w.calls) := by
  have hanswers : w.answers = answers := henv.answers
  have hsize : w.bufferSize = size := henv.bufferSize
  have hlen := h.length_eq
  have hbefore := h.earlier
  have hiff := h.lossless_iff
  rw [hanswers, hsize] at hlen hbefore
  rw [hanswers] at hiff
  rw [hiff fun k hk => (hrooms k (hbefore k hk)).positive hpos (hbefore k hk), hlen,
    Nat.add_sub_cancel_left]

/-- No copy of the writer leaves its buffer and nothing is lost exactly if every write of a full
    buffer makes room for the copy after it, and the last flush is not short. -/
theorem safeAndLossless_iff_writesEnough :
    SafeAndLossless (.init size hpos answers) writes ↔ WritesEnough answers size writes := by
  obtain ⟨hsafe, honly⟩ :=
    (BufferedWriter.reaches_init hpos answers).bufferedWrites writes
  constructor
  · rintro ⟨w', hwrites, hfile⟩
    have hall := honly w' hwrites
    obtain ⟨w₁, hwrites', henv, hreaches⟩ := hsafe hall
    obtain rfl := Option.some.inj (hwrites.symm.trans hwrites')
    have hrooms := fun k => roomFrom_init.mp (hall k (Nat.zero_le k))
    refine ⟨hrooms, fun k hbefore hend => ?_⟩
    have hk : k = w'.calls := by
      apply hreaches.calls_eq
      · rwa [henv.answers, henv.bufferSize]
      · rwa [henv.answers, henv.bufferSize]
    subst hk
    exact (lossless_iff_last henv hreaches hrooms).mp hfile
  · rintro ⟨hrooms, hfinal⟩
    obtain ⟨w', hwrites, henv, hreaches⟩ := hsafe fun k _ => roomFrom_init.mpr (hrooms k)
    refine ⟨w', hwrites, (lossless_iff_last henv hreaches hrooms).mpr (hfinal w'.calls ?_ ?_)⟩
    · have hbefore := hreaches.earlier
      rwa [henv.answers, henv.bufferSize] at hbefore
    · have hend := hreaches.le_taken (Nat.le_refl _)
      rwa [henv.answers, henv.bufferSize] at hend

/-- The first write of the full buffer takes two bytes, and two are still to come of the call. -/
theorem safeAndLossless_of_justEnough :
    SafeAndLossless (.init 4 (by decide) fun k => if k = 0 then .short 2 else .complete)
      [[1, 2, 3, 4], [5, 6], [7]] := by
  refine safeAndLossless_iff_writesEnough.mpr ⟨fun k _ => ?_, fun k _ hend => ?_⟩
  · cases k with
    | zero =>
      unfold MakesRoom
      decide
    | succ k => exact Nat.min_le_right _ _
  · cases k with
    | zero => exact absurd hend (by decide)
    | succ k => exact fun _ => rfl

/-- When the buffer is full and `pwrite` fails, there is no room for one byte more. -/
theorem not_safeAndLossless_of_error (errno : Errno) :
    ¬SafeAndLossless (.init size hpos fun _ => .error errno) [List.replicate size 0, [0]] := by
  rintro ⟨w', hwrites, -⟩
  have hroom := ((BufferedWriter.reaches_init hpos _).bufferedWrites _).2 w' hwrites 0 (Nat.le_refl 0)
  have hrest : restOfWrite [List.replicate size 0, [0]] (0 + size - 0) = 1 := by
    simp [restOfWrite]
  have hneed : min (restOfWrite [List.replicate size 0, [0]] (0 + size - 0)) size ≤ 0 :=
    hroom (by simp [taken, BufferedWriter.init])
  rw [hrest] at hneed
  omega

/-- A failed write of a full buffer of the size that the code uses. -/
theorem not_safeAndLossless :
    ¬∀ (size : Nat) (hpos : 0 < size) (answers : Nat → PwriteResult) (writes : List (List UInt8)),
      SafeAndLossless (.init size hpos answers) writes := fun hall =>
  not_safeAndLossless_of_error ⟨28, by decide, by decide⟩ (hall 10485760 (by decide) _ _)

end DedupBlockFS
