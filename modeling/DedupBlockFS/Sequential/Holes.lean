-- SUMMARY: When a read below the end of a file returns all bytes: exactly if there is no hole in what it asks for.
import DedupBlockFS.Sequential.Failure
import DedupBlockFS.Sequential.Shape

/-!
# Holes

A write beyond the end of a file raises its size and leaves the blocks in between
unmapped. `read_dedup` takes the first unmapped block for the end of the file, also when
the recorded size is greater.
-/

namespace DedupBlockFS

open ByteFile

/-- The block of 4096 zeros. -/
def zeroBlock : List UInt8 := List.replicate blockSize 0

section
variable [Sha512] {W : List UInt8 → Prop} {ctx : Context} {f : Files} {qs : Qsort}

/-- The read returns all bytes of the request that lie below `size`: what was written last
    to a block, and zeros where nothing was. -/
structure ReadsToEnd (f : Files) (req : ReadRequest) (size : Nat) (r : Int × List UInt8) : Prop where
  ret : r.1 = (min req.size (size - req.offset) : Nat)
  written : ∀ i b, req.offset + i * blockSize < size → i < req.numBlocks → f (req.key i) = some b →
    pread r.2 (i * blockSize) blockSize = b
  hole : ∀ i, req.offset + i * blockSize < size → i < req.numBlocks → f (req.key i) = none →
    pread r.2 (i * blockSize) blockSize = zeroBlock

/-- The states of the runs keep the sizes right. -/
theorem wellSized_reachable {P : Context × Files → Op → Context × Files → Prop}
    (h : withReference.Reachable P (ctx, f)) : WellSized ctx.index := by
  have hinv : WellSized (ctx, f).1.index :=
    h.invariant (I := fun s => WellSized s.1.index) .empty fun s op s' hs hstep _ => by
      obtain rfl := Option.some.inj hstep
      exact hs.exec op
  exact hinv

omit [Sha512] in
/-- The conversion to `int` yields no more than the number, and the number itself only if it
    fits. -/
theorem cInt_le (n : Nat) : cInt n ≤ n := by
  have hcInt : cInt n = Int.bmod n 4294967296 := rfl
  rw [hcInt, Int.bmod_def]
  split <;> omega

omit [Sha512] in
theorem lt_of_cInt_eq {n : Nat} (h : cInt n = n) : n < 2 ^ 31 := by
  have hcInt : cInt n = Int.bmod n 4294967296 := rfl
  have hlt : Int.bmod (n : Int) 4294967296 < (4294967296 + 1) / 2 := Int.bmod_lt (by decide)
  have hsmall : n < 2147483648 := by omega
  exact hsmall

omit [Sha512] in
/-- The lookup finds no block beyond the recorded size. -/
theorem length_infos_le (hw : WellSized ctx.index) {req : ReadRequest} {size : Nat}
    (hoffset : req.offset % blockSize = 0)
    (hsize : ctx.index.fileToSizes.lookup req.path = some size) :
    (req.infos ctx.index).length * blockSize ≤ size - req.offset := by
  have hstart : req.startBlock * blockSize = req.offset :=
    Nat.div_mul_cancel (Nat.dvd_of_mod_eq_zero hoffset)
  cases hn : (req.infos ctx.index).length with
  | zero =>
    rw [Nat.zero_mul]
    exact Nat.zero_le _
  | succ k =>
    have hk : k < (req.infos ctx.index).length := by omega
    obtain ⟨size', hsize', hlt⟩ := hw.sized _ _ _
      (lookup_of_lookupInfos (List.getElem?_eq_getElem hk))
    obtain rfl := Option.some.inj (hsize.symm.trans hsize')
    have hdiv : size = size / blockSize * blockSize :=
      (Nat.div_mul_cancel (Nat.dvd_of_mod_eq_zero (hw.aligned _ _ hsize))).symm
    have hblock : req.startBlock + k < size / blockSize := by
      rw [hdiv] at hlt
      exact Nat.lt_of_mul_lt_mul_right hlt
    have hmul := Nat.mul_le_mul_right blockSize (Nat.succ_le_of_lt hblock)
    rw [← hdiv, Nat.succ_mul, Nat.add_mul, hstart] at hmul
    rw [Nat.succ_mul]
    omega

/-- In every state of a sequential run an aligned read below the end of a file returns all
    bytes up to the end of the request or of the file exactly if every block in between is
    mapped and their number fits an `int`. -/
theorem read_reaches_end_iff (hinj : ∀ a b, W a → W b → hash a = hash b → a = b)
    (h : withReference.Reachable (RoomyIn W) (ctx, f)) (qs : Qsort) (req : ReadRequest) {size : Nat}
    (hpos : req.numBlocks ≠ 0) (haligned : req.size % blockSize = 0)
    (hoffset : req.offset % blockSize = 0)
    (hsize : ctx.index.fileToSizes.lookup req.path = some size) (hbelow : req.offset < size) :
    ReadsToEnd f req size (readDedup qs ctx req) ↔
      (∀ i < req.numBlocks, req.offset + i * blockSize < size →
        Mapped ctx.index req.path (req.startBlock + i)) ∧
      min req.size (size - req.offset) < 2 ^ 31 := by
  have hr : Represents W ctx f := Represents.reachable h
  obtain ⟨hret, hread, hend⟩ := hr.quiet.read qs hpos haligned
  have hfiles := hr.blockContent_eq hinj
  have hcut := length_infos_le (wellSized_reachable h) hoffset hsize
  have hlength : (req.infos ctx.index).length ≤ req.numBlocks := length_lookupInfos_le
  have hblocks : req.numBlocks * blockSize = req.size :=
    Nat.div_mul_cancel (Nat.dvd_of_mod_eq_zero haligned)
  have hmapped : ∀ i < (req.infos ctx.index).length,
      Mapped ctx.index req.path (req.startBlock + i) := fun i hi =>
    mapped_of_lookup (lookup_of_lookupInfos (List.getElem?_eq_getElem hi))
  set k := (req.infos ctx.index).length with hk
  have hfound : k * blockSize ≤ min req.size (size - req.offset) :=
    le_min (hblocks ▸ Nat.mul_le_mul_right _ hlength) hcut
  -- the blocks the request is about are those below the minimum
  have hinside : ∀ i < req.numBlocks, req.offset + i * blockSize < size →
      i * blockSize < min req.size (size - req.offset) := by
    intro i hi hlt
    have hmul := Nat.mul_lt_mul_of_pos_right hi (show 0 < blockSize by decide)
    rw [hblocks] at hmul
    exact lt_min hmul (by omega)
  constructor
  · intro hall
    have hcast := cInt_le (k * blockSize)
    rw [← hret, hall.ret] at hcast
    have heq : min req.size (size - req.offset) = k * blockSize :=
      Nat.le_antisymm (Int.ofNat_le.mp hcast) hfound
    have hfits := hall.ret
    rw [hret, heq] at hfits
    rw [heq] at hinside ⊢
    exact ⟨fun i hi hlt => hmapped i (Nat.lt_of_mul_lt_mul_right (hinside i hi hlt)),
      lt_of_cInt_eq hfits⟩
  · rintro ⟨hnohole, hsmall⟩
    have heq : min req.size (size - req.offset) = k * blockSize := by
      apply Nat.le_antisymm _ hfound
      by_cases hlt : k < req.numBlocks
      · apply (min_le_right _ _).trans
        by_contra hbeyond
        exact hnohole k hlt (by omega) (hend hlt)
      · rw [← hblocks]
        exact (min_le_left _ _).trans (Nat.mul_le_mul_right _ (Nat.le_of_not_lt hlt))
    rw [heq] at hinside hsmall
    have hcontent : ∀ i < req.numBlocks, req.offset + i * blockSize < size →
        f (req.key i) = some (pread (readDedup qs ctx req).2 (i * blockSize) blockSize) := by
      intro i hi hlt
      rw [← hfiles, hread i (Nat.lt_of_mul_lt_mul_right (hinside i hi hlt))]
    refine ⟨?_, fun i b hlt hi hb => ?_, fun i hlt hi hnone => ?_⟩
    · rw [hret, heq, cInt_of_lt hsmall]
    · rw [hcontent i hi hlt] at hb
      exact Option.some.inj hb
    · rw [hcontent i hi hlt] at hnone
      cases hnone

end

/-- A block of zeros is written to `a` at offset 4096. -/
def zeroBehindHole : List Op := [.write (.zeros pathA 1 1) fun _ => .complete]

theorem zeroBehindHole_enabled : ((@withReference Sha512.zeroBlock).replay
    (fun s op _ => op.roomCheck s.1) (@withReference Sha512.zeroBlock).init
      zeroBehindHole).isSome := by
  decide +kernel

def afterHole : Context × Files :=
  ((@withReference Sha512.zeroBlock).replay (fun s op _ => op.roomCheck s.1)
    (@withReference Sha512.zeroBlock).init zeroBehindHole).get zeroBehindHole_enabled

theorem afterHole_reachable :
    (@withReference Sha512.zeroBlock).Reachable (@RoomyIn Sha512.zeroBlock IsZeroBlock)
      afterHole := by
  let _ := Sha512.zeroBlock
  have hblocks : ∀ op ∈ zeroBehindHole, op.BlocksIn IsZeroBlock := by
    simp [zeroBehindHole, Op.BlocksIn, blocksIn_zeros]
  exact .of_replay (fun _ op hop _ hc => ⟨op.hasRoom_of_roomCheck hc, hblocks op hop⟩)
    (Option.some_get zeroBehindHole_enabled).symm

/-- The file is 8192 bytes long, but a read from its start returns nothing. -/
theorem not_read_reaches_end :
    (@withReference Sha512.zeroBlock).Reachable (@RoomyIn Sha512.zeroBlock IsZeroBlock)
      afterHole ∧
    afterHole.1.index.fileToSizes.lookup pathA = some 8192 ∧
    (readDedup .mergeSort afterHole.1 readTwoBlocks).1 = 0 ∧
    ¬ReadsToEnd afterHole.2 readTwoBlocks 8192
      (readDedup .mergeSort afterHole.1 readTwoBlocks) := by
  have hzero : (readDedup .mergeSort afterHole.1 readTwoBlocks).1 = 0 := by decide +kernel
  refine ⟨afterHole_reachable, by decide +kernel, hzero, ?_⟩
  intro hall
  have hret := hall.ret
  rw [hzero] at hret
  revert hret
  decide

/-- Behind the hole the read reaches the end. -/
theorem read_reaches_end_iff_of_behindHole :
    let req : ReadRequest := { readTwoBlocks with offset := 4096 }
    ReadsToEnd afterHole.2 req 8192 (readDedup .mergeSort afterHole.1 req) ↔
      (∀ i < req.numBlocks, req.offset + i * blockSize < 8192 →
        Mapped afterHole.1.index req.path (req.startBlock + i)) ∧
      min req.size (8192 - req.offset) < 2 ^ 31 := by
  let _ := Sha512.zeroBlock
  exact read_reaches_end_iff (fun a b ha hb _ => ha.trans hb.symm) afterHole_reachable .mergeSort
    { readTwoBlocks with offset := 4096 } (by decide) (by decide) (by decide) (by decide +kernel)
    (by decide)

end DedupBlockFS
