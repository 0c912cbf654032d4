-- SUMMARY: Files and buffers as byte strings: positional reads, writes and copies, and what each leaves unchanged.
import Mathlib.Data.List.Basic
import Mathlib.Tactic.Common

/-!
# Byte files

A regular file, like a memory buffer, is a list of bytes. `pread` and `pwrite`
follow POSIX: a read stops at the end of the file, a write past the end fills
the hole with zeros, and a system call may transfer fewer bytes than asked for
or fail. `memcpy` is the copy inside a buffer that is already large enough.
-/

namespace ByteFile

/-- The error number of a failed system call; the kernel has none above 4095. -/
structure Errno where
  code : Nat
  pos : 0 < code
  lt : code < 4096
  deriving DecidableEq

/-- What the environment answers to one `pwrite`: all bytes, some of them, or an
    error. -/
inductive PwriteResult where
  | complete
  | short (count : Nat)
  | error (errno : Errno)
  deriving DecidableEq

/-- The number of bytes transferred by a `pwrite` of `len` bytes. -/
def PwriteResult.count (r : PwriteResult) (len : Nat) : Nat :=
  match r with
  | .complete => len
  | .short n => min n len
  | .error _ => 0

/-- The value a `pwrite` of `len` bytes returns. -/
def PwriteResult.ret (r : PwriteResult) (len : Nat) : Int :=
  match r with
  | .complete => len
  | .short n => min n len
  | .error _ => -1

theorem PwriteResult.count_le (r : PwriteResult) (len : Nat) : r.count len ≤ len := by
  cases r <;> simp only [PwriteResult.count] <;> omega

/-- A `pwrite` that returns the requested length has transferred everything. -/
theorem PwriteResult.count_of_ret {r : PwriteResult} {len : Nat} (h : r.ret len = len) :
    r.count len = len := by
  cases r with
  | complete => rfl
  | short n =>
    simp only [PwriteResult.ret, PwriteResult.count] at h ⊢
    omega
  | error e =>
    simp only [PwriteResult.ret] at h
    omega

/-- Overwrite `dst` from position `off` on with `src`. -/
def memcpy (dst : List UInt8) (off : Nat) (src : List UInt8) : List UInt8 :=
  dst.take off ++ src ++ dst.drop (off + src.length)

/-- At most `len` bytes of `f` from position `off` on. -/
def pread (f : List UInt8) (off len : Nat) : List UInt8 :=
  (f.drop off).take len

/-- Store `data` at position `off`; an empty write does not extend the file. -/
def pwrite (f : List UInt8) (off : Nat) (data : List UInt8) : List UInt8 :=
  if data = [] then f else memcpy (f ++ List.replicate (off - f.length) 0) off data

/-! ## Reads -/

theorem length_pread (f : List UInt8) (off len : Nat) :
    (pread f off len).length = min len (f.length - off) := by
  simp [pread]

theorem length_pread_of_le {f : List UInt8} {off len : Nat} (h : off + len ≤ f.length) :
    (pread f off len).length = len := by
  rw [length_pread]
  omega

theorem pread_pread {f : List UInt8} {off len o n : Nat} (h : o + n ≤ len) :
    pread (pread f off len) o n = pread f (off + o) n := by
  simp only [pread, List.drop_take, List.take_take, List.drop_drop]
  rw [Nat.min_eq_left (by omega)]

theorem pread_append_left {f g : List UInt8} {off len : Nat} (h : off + len ≤ f.length) :
    pread (f ++ g) off len = pread f off len := by
  simp only [pread, List.drop_append, List.take_append, List.length_drop]
  rw [show len - (f.length - off) = 0 by omega]
  simp

/-- Files of `n` blocks with the same blocks are the same. -/
theorem eq_of_blocks {f g : List UInt8} {n size : Nat} (hf : f.length = n * size)
    (hg : g.length = n * size) (h : ∀ i < n, pread f (i * size) size = pread g (i * size) size) :
    f = g := by
  induction n generalizing f g with
  | zero =>
    rw [Nat.zero_mul] at hf hg
    rw [List.eq_nil_of_length_eq_zero hf, List.eq_nil_of_length_eq_zero hg]
  | succ n ih =>
    have hhead := h 0 (Nat.succ_pos n)
    simp only [pread, Nat.zero_mul, List.drop_zero] at hhead
    rw [Nat.succ_mul] at hf hg
    have htail : f.drop size = g.drop size := by
      refine ih (by rw [List.length_drop, hf, Nat.add_sub_cancel])
        (by rw [List.length_drop, hg, Nat.add_sub_cancel]) fun i hi => ?_
      have hnext := h (i + 1) (Nat.succ_lt_succ hi)
      simpa only [pread, List.drop_drop, Nat.succ_mul, Nat.add_comm size] using hnext
    rw [← List.take_append_drop size f, ← List.take_append_drop size g, hhead, htail]

/-! ## Copies -/

theorem length_memcpy {dst src : List UInt8} {off : Nat} (h : off + src.length ≤ dst.length) :
    (memcpy dst off src).length = dst.length := by
  simp only [memcpy, List.length_append, List.length_take, List.length_drop]
  omega

theorem pread_memcpy_inside {dst src : List UInt8} {off o n : Nat} (hoff : off ≤ dst.length)
    (h : o + n ≤ src.length) :
    pread (memcpy dst off src) (off + o) n = pread src o n := by
  have hlen : (dst.take off).length = off := List.length_take_of_le hoff
  simp only [memcpy, pread, List.append_assoc, List.drop_append, hlen]
  rw [List.drop_eq_nil_of_le (by omega : (dst.take off).length ≤ off + o), List.nil_append,
    Nat.add_sub_cancel_left, List.take_append, List.length_drop,
    show n - (src.length - o) = 0 by omega]
  simp

theorem pread_memcpy_outside {dst src : List UInt8} {off o n : Nat} (hoff : off ≤ dst.length)
    (h : o + n ≤ off ∨ off + src.length ≤ o) :
    pread (memcpy dst off src) o n = pread dst o n := by
  have hlen : (dst.take off).length = off := List.length_take_of_le hoff
  rcases h with h | h
  · have hfit : o + n ≤ (dst.take off).length := by omega
    rw [memcpy, List.append_assoc, pread_append_left hfit]
    simp only [pread, List.drop_take, List.take_take]
    rw [Nat.min_eq_left (by omega)]
  · simp only [memcpy, pread, List.append_assoc, List.drop_append, hlen]
    rw [List.drop_eq_nil_of_le (by omega : (dst.take off).length ≤ o),
      List.drop_eq_nil_of_le (by omega : src.length ≤ o - off), List.nil_append, List.nil_append,
      List.drop_drop]
    congr 2
    omega

/-! ## Writes -/

theorem length_pwrite {f data : List UInt8} {off : Nat} :
    (pwrite f off data).length =
      if data = [] then f.length else max f.length (off + data.length) := by
  unfold pwrite
  split
  · rfl
  · simp only [memcpy, List.length_append, List.length_take, List.length_drop,
      List.length_replicate]
    omega

theorem length_le_length_pwrite (f data : List UInt8) (off : Nat) :
    f.length ≤ (pwrite f off data).length := by
  rw [length_pwrite]
  split <;> omega

theorem pwrite_at_end (f data : List UInt8) : pwrite f f.length data = f ++ data := by
  unfold pwrite
  split
  · rename_i hnil
    rw [hnil, List.append_nil]
  · simp [memcpy]

theorem pread_pwrite_inside {f data : List UInt8} {off o n : Nat} (hne : data ≠ [])
    (h : o + n ≤ data.length) :
    pread (pwrite f off data) (off + o) n = pread data o n := by
  rw [pwrite, if_neg hne]
  exact pread_memcpy_inside (by simp only [List.length_append, List.length_replicate]; omega) h

/-- A write leaves every range alone that lies inside the file and does not meet it. -/
theorem pread_pwrite_outside {f data : List UInt8} {off o n : Nat} (hfile : o + n ≤ f.length)
    (h : o + n ≤ off ∨ off + data.length ≤ o) :
    pread (pwrite f off data) o n = pread f o n := by
  unfold pwrite
  split
  · rfl
  · rw [pread_memcpy_outside (by simp only [List.length_append, List.length_replicate]; omega) h,
      pread_append_left hfile]

/-! ## Single bytes -/

/-- The byte at position `p`, zero past the end. -/
def byteAt (f : List UInt8) (p : Nat) : UInt8 := f.getD p 0

theorem byteAt_drop (f : List UInt8) (n p : Nat) : byteAt (f.drop n) p = byteAt f (n + p) := by
  simp only [byteAt, List.getD_eq_getElem?_getD, List.getElem?_drop]

theorem byteAt_pread {f : List UInt8} {off len p : Nat} (hp : p < len) :
    byteAt (pread f off len) p = byteAt f (off + p) := by
  simp only [byteAt, pread, List.getD_eq_getElem?_getD, List.getElem?_take, if_pos hp,
    List.getElem?_drop]

theorem byteAt_memcpy {dst src : List UInt8} {off p : Nat} (hoff : off ≤ dst.length) :
    byteAt (memcpy dst off src) p =
      if off ≤ p ∧ p < off + src.length then byteAt src (p - off) else byteAt dst p := by
  have hlen : (dst.take off).length = off := List.length_take_of_le hoff
  simp only [byteAt, memcpy, List.getD_eq_getElem?_getD, List.append_assoc, List.getElem?_append,
    hlen]
  by_cases hbefore : p < off
  · rw [if_pos hbefore, if_neg (by omega), List.getElem?_take, if_pos hbefore]
  · rw [if_neg hbefore]
    by_cases hinside : p < off + src.length
    · rw [if_pos (by omega), if_pos ⟨by omega, hinside⟩]
    · rw [if_neg (by omega), if_neg (by omega), List.getElem?_drop]
      congr 2
      omega

/-- A write replaces the bytes of its range. What lies between the old end and the
    range is zero, before and after. -/
theorem byteAt_pwrite (f data : List UInt8) (off p : Nat) :
    byteAt (pwrite f off data) p =
      if off ≤ p ∧ p < off + data.length then byteAt data (p - off) else byteAt f p := by
  unfold pwrite
  split
  · rename_i hnil
    rw [hnil, if_neg (by simp only [List.length_nil]; omega)]
  · rw [byteAt_memcpy (by simp only [List.length_append, List.length_replicate]; omega)]
    congr 1
    simp only [byteAt, List.getD_eq_getElem?_getD, List.getElem?_append, List.getElem?_replicate]
    split
    · rfl
    · rename_i hpast
      rw [List.getElem?_eq_none (Nat.le_of_not_lt hpast)]
      split <;> rfl

theorem eq_of_byteAt {f g : List UInt8} (hlen : f.length = g.length)
    (h : ∀ p < f.length, byteAt f p = byteAt g p) : f = g := by
  apply List.ext_getElem hlen
  intro p hf hg
  have hp := h p hf
  simp only [byteAt, List.getD_eq_getElem?_getD] at hp
  rwa [List.getElem?_eq_getElem hf, List.getElem?_eq_getElem hg, Option.getD_some,
    Option.getD_some] at hp

/-- Two writes next to each other are one. -/
theorem pwrite_append (f a b : List UInt8) (off : Nat) :
    pwrite f off (a ++ b) = pwrite (pwrite f off a) (off + a.length) b := by
  apply eq_of_byteAt
  · simp only [length_pwrite, List.append_eq_nil_iff, List.length_append]
    by_cases ha : a = []
    · simp [ha]
    · by_cases hb : b = []
      · simp [hb]
      · simp only [ha, hb, false_and, if_false]
        omega
  · intro p _
    simp only [byteAt_pwrite, List.length_append]
    by_cases hb : off + a.length ≤ p ∧ p < off + a.length + b.length
    · rw [if_pos (by omega), if_pos hb]
      simp only [byteAt, List.getD_eq_getElem?_getD]
      rw [List.getElem?_append_right (by omega), Nat.sub_add_eq]
    · rw [if_neg hb]
      by_cases ha : off ≤ p ∧ p < off + a.length
      · rw [if_pos (by omega), if_pos ha]
        simp only [byteAt, List.getD_eq_getElem?_getD]
        rw [List.getElem?_append_left (by omega)]
      · rw [if_neg (by omega), if_neg ha]

theorem pread_add {f : List UInt8} {off n k : Nat} :
    pread f off (n + k) = pread f off n ++ pread f (off + n) k := by
  simp only [pread, List.take_add, List.drop_drop]

end ByteFile
