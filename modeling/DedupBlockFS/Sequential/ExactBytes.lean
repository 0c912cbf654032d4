-- SUMMARY: Which byte of a file a read or a write at any offset is about, and when it is the one that was asked for.
import DedupBlockFS.Sequential.Holes

/-!
# Exact bytes

`write_dedup` and `read_dedup` refuse a size that is no number of blocks, but they round
an offset inside a block down to the start of the block. The request is then served from
the wrong place, which shows unless the bytes happen to agree.
-/

namespace DedupBlockFS

open ByteFile

/-- The byte of a file at position `p`, if the file is longer than that. Blocks that are
    not mapped are zero. -/
def logicalByte (ctx : Context) (path : CString) (p : Nat) : Option UInt8 :=
  if p < (ctx.index.fileToSizes.lookup path).getD 0 then
    some (byteAt ((blockContent ctx ⟨path, p / blockSize⟩).getD []) (p % blockSize))
  else none

/-- The write is refused without any effect, or the bytes it says it has written are those of
    the buffer, and all others are as before. -/
def WritesExactly (ctx : Context) (req : WriteRequest) (r : Context × Int) : Prop :=
  (r.2 = Errno.neg EOPNOTSUPP ∧ r.1 = ctx) ∨
    ∀ n : Nat, r.2 = n →
      (∀ i < n, logicalByte r.1 req.path (req.offset + i) = some (byteAt req.buf i)) ∧
      ∀ p x, ¬(req.offset ≤ p ∧ p < req.offset + n) → logicalByte ctx req.path p = some x →
        logicalByte r.1 req.path p = some x

/-- The read is refused, or the bytes it returns are those of the file. -/
def ReadsExactly (ctx : Context) (req : ReadRequest) (r : Int × List UInt8) : Prop :=
  r.1 = Errno.neg EOPNOTSUPP ∨
    ∀ n : Nat, r.1 = n → ∀ i < n,
      logicalByte ctx req.path (req.offset + i) = some (byteAt r.2 i)

/-- It makes no difference that the buffer is written from the start of the block on: what
    lands in front of the offset was there, what lands behind it is the same shifted, and the
    bytes at the end, which are not written, had their values already. -/
structure ShiftUnnoticed (ctx : Context) (req : WriteRequest) : Prop where
  front : ∀ i < req.offset % blockSize, ∀ x,
    logicalByte ctx req.path (req.startBlock * blockSize + i) = some x → byteAt req.buf i = x
  inside : ∀ i, req.offset % blockSize + i < req.size →
    byteAt req.buf (req.offset % blockSize + i) = byteAt req.buf i
  tail : ∀ i < req.size, req.size ≤ req.offset % blockSize + i →
    logicalByte ctx req.path (req.offset + i) = some (byteAt req.buf i)

/-- At the start of a block there is no shift. -/
theorem ShiftUnnoticed.of_aligned {ctx : Context} {req : WriteRequest}
    (haligned : req.offset % blockSize = 0) : ShiftUnnoticed ctx req where
  front i hi := by
    rw [haligned] at hi
    cases hi
  inside i _ := by rw [haligned, Nat.zero_add]
  tail i hi hge := by
    rw [haligned, Nat.zero_add] at hge
    exact absurd hi (Nat.not_lt_of_le hge)

section
variable [Sha512] {W : List UInt8 → Prop} {ctx : Context} {f : Files}

/-! ## Writing -/

/-- The bytes of the file after a write that has succeeded. -/
theorem logicalByte_written (hinj : ∀ a b, W a → W b → hash a = hash b → a = b)
    (hr : Represents W ctx f) (hw : WellSized ctx.index) {ctx' : Context} {req : WriteRequest}
    (hr' : Represents W ctx' (f.write req)) (hwritten : Written ctx req ctx')
    (haligned : req.size % blockSize = 0) (p : Nat) :
    logicalByte ctx' req.path p =
      if p < req.startBlock * blockSize then some ((logicalByte ctx req.path p).getD 0)
      else if p < req.startBlock * blockSize + req.size then
        some (byteAt req.buf (p - req.startBlock * blockSize))
      else logicalByte ctx req.path p := by
  have hbs : 0 < blockSize := by decide
  have hsize : req.numBlocks * blockSize = req.size :=
    Nat.div_mul_cancel (Nat.dvd_of_mod_eq_zero haligned)
  have hend : (req.startBlock + req.numBlocks) * blockSize =
      req.startBlock * blockSize + req.size := by rw [Nat.add_mul, hsize]
  have hgrown : (ctx'.index.fileToSizes.lookup req.path).getD 0 =
      max (req.startBlock * blockSize + req.size)
        ((ctx.index.fileToSizes.lookup req.path).getD 0) := by
    rw [hwritten.sizes, if_pos rfl, hend, Option.getD_some]
  have hinside : req.startBlock ≤ p / blockSize ∧ p / blockSize < req.startBlock + req.numBlocks ↔
      req.startBlock * blockSize ≤ p ∧ p < req.startBlock * blockSize + req.size := by
    rw [Nat.le_div_iff_mul_le hbs, Nat.div_lt_iff_lt_mul hbs, hend]
  have hcontent : blockContent ctx' ⟨req.path, p / blockSize⟩ =
      if req.startBlock * blockSize ≤ p ∧ p < req.startBlock * blockSize + req.size then
        some (req.block (p / blockSize - req.startBlock))
      else blockContent ctx ⟨req.path, p / blockSize⟩ := by
    rw [hr'.blockContent_eq hinj, hr.blockContent_eq hinj, Files.write]
    simp only [true_and, hinside]
  rw [logicalByte, hgrown, hcontent]
  by_cases hfront : p < req.startBlock * blockSize
  · rw [if_pos hfront, if_pos (by omega), if_neg (by omega), logicalByte]
    split
    · rfl
    · -- a block behind the old end is not mapped
      rename_i hpast
      have hnone : blockContent ctx ⟨req.path, p / blockSize⟩ = none := by
        rw [blockContent, Option.map_eq_none_iff, Option.eq_none_iff_forall_ne_some]
        intro m hm
        obtain ⟨old, hold, hlt⟩ := hw.sized _ _ _ hm
        rw [hold, Option.getD_some, ← Nat.div_mul_cancel
          (Nat.dvd_of_mod_eq_zero (hw.aligned _ _ hold)), not_lt, ← Nat.le_div_iff_mul_le hbs] at hpast
        rw [← Nat.div_mul_cancel (Nat.dvd_of_mod_eq_zero (hw.aligned _ _ hold))] at hlt
        exact Nat.not_lt_of_le hpast (Nat.lt_of_mul_lt_mul_right hlt)
      rw [hnone]
      rfl
  · rw [if_neg hfront]
    by_cases hin : p < req.startBlock * blockSize + req.size
    · rw [if_pos hin, if_pos (by omega), if_pos ⟨Nat.le_of_not_lt hfront, hin⟩, Option.getD_some,
        WriteRequest.block, byteAt_pread (Nat.mod_lt _ hbs), Nat.sub_mul]
      have hdiv := Nat.div_add_mod' p blockSize
      have hle := (hinside.mpr ⟨Nat.le_of_not_lt hfront, hin⟩).1
      have hmul := Nat.mul_le_mul_right blockSize hle
      congr 2
      omega
    · have hout : ¬(req.startBlock * blockSize ≤ p ∧
          p < req.startBlock * blockSize + req.size) := fun h => hin h.2
      rw [if_neg hin, if_neg hout, logicalByte]
      exact if_congr (by omega) rfl rfl

omit [Sha512] in
/-- If the file has these bytes after the write, the write was exact if and only if the shift
    is not noticed. -/
theorem shiftUnnoticed_iff {ctx' : Context} {req : WriteRequest} (hpos : req.numBlocks ≠ 0)
    (haligned : req.size % blockSize = 0)
    (hbytes : ∀ p, logicalByte ctx' req.path p =
      if p < req.startBlock * blockSize then some ((logicalByte ctx req.path p).getD 0)
      else if p < req.startBlock * blockSize + req.size then
        some (byteAt req.buf (p - req.startBlock * blockSize))
      else logicalByte ctx req.path p) :
    ((∀ i < req.size, logicalByte ctx' req.path (req.offset + i) = some (byteAt req.buf i)) ∧
      ∀ p x, ¬(req.offset ≤ p ∧ p < req.offset + req.size) → logicalByte ctx req.path p = some x →
        logicalByte ctx' req.path p = some x) ↔ ShiftUnnoticed ctx req := by
  have hoffset : req.offset = req.startBlock * blockSize + req.offset % blockSize :=
    (Nat.div_add_mod' req.offset blockSize).symm
  have hshift : req.offset % blockSize < req.size := by
    have hmod := Nat.mod_lt req.offset (show 0 < blockSize by decide)
    have hone := Nat.mul_le_mul_right blockSize (Nat.one_le_iff_ne_zero.mpr hpos)
    rw [show req.numBlocks * blockSize = req.size from
      Nat.div_mul_cancel (Nat.dvd_of_mod_eq_zero haligned), Nat.one_mul] at hone
    exact hmod.trans_le hone
  constructor
  · rintro ⟨hinside, houtside⟩
    refine ⟨fun i hi x hx => ?_, fun i hi => ?_, fun i hi hge => ?_⟩
    · have hkept := houtside _ x (by omega) hx
      rw [hbytes, if_neg (by omega), if_pos (by omega), Nat.add_sub_cancel_left] at hkept
      exact Option.some.inj hkept
    · have hnew := hinside i (by omega)
      rw [hbytes, if_neg (by omega), if_pos (by omega)] at hnew
      rw [← Option.some.inj hnew]
      congr 1
      omega
    · have hnew := hinside i hi
      rwa [hbytes, if_neg (by omega), if_neg (by omega)] at hnew
  · intro hshifted
    refine ⟨fun i hi => ?_, fun p x hout hx => ?_⟩
    · rw [hbytes, if_neg (by omega)]
      split
      · rename_i hlt
        rw [show req.offset + i - req.startBlock * blockSize = req.offset % blockSize + i by omega,
          hshifted.inside i (by omega)]
      · exact hshifted.tail i hi (by omega)
    · rw [hbytes]
      split
      · rw [hx, Option.getD_some]
      · split
        · rename_i hge hlt
          have hp : p = req.startBlock * blockSize + (p - req.startBlock * blockSize) := by omega
          rw [hp] at hx
          rw [hshifted.front _ (by omega) x hx]
        · exact hx

/-- A write at any offset serves exactly what was asked for if it is refused, if the flush
    fails, or if rounding the offset down makes no difference, and only then. -/
theorem writesExactly_iff (hinj : ∀ a b, W a → W b → hash a = hash b → a = b)
    (h : withReference.Reachable (RoomyIn W) (ctx, f)) {req : WriteRequest} (hpos : 0 < req.size)
    (hsmall : req.size ≤ 2 ^ 20) (hroom : RoomFor ctx req) (hblocks : req.BlocksIn W)
    (io : Nat → PwriteResult) :
    WritesExactly ctx req (writeDedup ctx req io) ↔
      req.size % blockSize ≠ 0 ∨ FlushFails ctx req io ∨ ShiftUnnoticed ctx req := by
  have hr : Represents W ctx f := Represents.reachable h
  have hw : WellSized ctx.index := wellSized_reachable h
  rcases writeDedup_cases hr.quiet hroom hblocks io with
    ⟨hrefused, hctx, hret⟩ | ⟨hfail, herrno, -⟩ | ⟨hsuccess, _, _, -, heq⟩
  · have hmis : req.size % blockSize ≠ 0 := by
      rcases hrefused with hnone | hmis
      · have hlt := (Nat.div_eq_zero_iff_lt (show 0 < blockSize by decide)).mp hnone
        rw [Nat.mod_eq_of_lt hlt]
        exact hpos.ne'
      · exact hmis
    obtain ⟨hret, -⟩ := hret.resolve_left fun h => hpos.ne' h.2
    exact ⟨fun _ => .inl hmis, fun _ => .inl ⟨hret, hctx⟩⟩
  · refine ⟨fun _ => .inr (.inl hfail), fun _ => .inr fun n hn => ?_⟩
    have hneg := herrno.2
    rw [hn] at hneg
    omega
  · have hlarge : req.size < 2 ^ 31 := hsmall.trans_lt (Nat.pow_lt_pow_right (by decide) (by decide))
    rcases writeDedup_shape ctx req io with
      ⟨⟨hnum, haligned⟩, hret, hwritten⟩ | ⟨⟨-, hzero⟩ | herrno, -⟩
    · have hr' := hr.exec (show Op.HasRoom ctx (.write req io) from hroom) hblocks
      have happly : f.apply (.write req io) ((Op.write req io).exec ctx).2 = f.write req :=
        if_pos ⟨haligned, hret⟩
      rw [happly] at hr'
      have hbytes := logicalByte_written hinj hr hw hr' hwritten haligned
      rw [cInt_of_lt hlarge] at hret
      have hexact := shiftUnnoticed_iff hnum haligned hbytes
      constructor
      · rintro (⟨hrefused, -⟩ | hall)
        · rw [hret] at hrefused
          have hneg := (isErrno_neg EOPNOTSUPP).2
          rw [← hrefused] at hneg
          omega
        · exact .inr (.inr (hexact.mp (hall req.size hret)))
      · rintro (hmis | hfail | hshift)
        · exact absurd haligned hmis
        · exact absurd hfail hsuccess
        · right
          intro n hn
          rw [hret] at hn
          obtain rfl := Int.ofNat.inj hn
          exact hexact.mpr hshift
    · exact absurd hzero hpos.ne'
    · have hret : (writeDedup ctx req io).2 = cInt (req.numBlocks * blockSize) := by rw [heq]
      exact absurd hret (herrno.ne_cInt (Nat.mul_mod_left _ _))

/-! ## Reading -/

/-- A read at any offset returns exactly what was asked for if it is refused, or if the
    bytes of the file are the same from the start of the block on, and only then. -/
theorem readsExactly_iff (h : withReference.Reachable (RoomyIn W) (ctx, f)) (qs : Qsort)
    {req : ReadRequest} (hsmall : req.size ≤ 2 ^ 20) :
    ReadsExactly ctx req (readDedup qs ctx req) ↔
      req.size < blockSize ∨ req.size % blockSize ≠ 0 ∨
        ∀ i < req.size, (∀ j ≤ i / blockSize, Mapped ctx.index req.path (req.startBlock + j)) →
          logicalByte ctx req.path (req.offset + i) =
            logicalByte ctx req.path (req.startBlock * blockSize + i) := by
  have hr : Represents W ctx f := Represents.reachable h
  have hw : WellSized ctx.index := wellSized_reachable h
  have hbs : 0 < blockSize := by decide
  by_cases hrefused : req.numBlocks = 0 ∨ req.size % blockSize ≠ 0
  · have heq : readDedup qs ctx req = (Errno.neg EOPNOTSUPP, req.buf) := by
      rw [readDedup, if_pos hrefused]
    have hcond : req.size < blockSize ∨ req.size % blockSize ≠ 0 :=
      hrefused.imp_left (Nat.div_eq_zero_iff_lt hbs).mp
    rw [heq]
    exact ⟨fun _ => hcond.imp_right .inl, fun _ => .inl rfl⟩
  rw [not_or, not_not] at hrefused
  obtain ⟨hpos, haligned⟩ := hrefused
  obtain ⟨hret, hread, hend⟩ := hr.quiet.read qs hpos haligned
  have hlength : (req.infos ctx.index).length ≤ req.numBlocks := length_lookupInfos_le
  have hblocks : req.numBlocks * blockSize = req.size :=
    Nat.div_mul_cancel (Nat.dvd_of_mod_eq_zero haligned)
  have hmapped : ∀ i < (req.infos ctx.index).length,
      Mapped ctx.index req.path (req.startBlock + i) := fun i hi =>
    mapped_of_lookup (lookup_of_lookupInfos (List.getElem?_eq_getElem hi))
  set k := (req.infos ctx.index).length with hk
  have hfit : k * blockSize ≤ req.size := hblocks ▸ Nat.mul_le_mul_right _ hlength
  have hlarge : k * blockSize < 2 ^ 31 :=
    (hfit.trans hsmall).trans_lt (Nat.pow_lt_pow_right (by decide) (by decide))
  rw [cInt_of_lt hlarge] at hret
  -- what is found are the blocks in front of the first unmapped one
  have hfound : ∀ i, i < k * blockSize ↔ i < req.size ∧
      ∀ j ≤ i / blockSize, Mapped ctx.index req.path (req.startBlock + j) := by
    intro i
    constructor
    · intro hi
      have hdiv := (Nat.div_lt_iff_lt_mul hbs).mpr hi
      exact ⟨hi.trans_le hfit, fun j hj => hmapped j (hj.trans_lt hdiv)⟩
    · rintro ⟨hi, hall⟩
      by_contra hge
      have hdiv : k ≤ i / blockSize := (Nat.le_div_iff_mul_le hbs).mpr (Nat.le_of_not_lt hge)
      have hlt : i / blockSize < req.numBlocks := by
        rw [Nat.div_lt_iff_lt_mul hbs, hblocks]
        exact hi
      exact hall k hdiv (hend (hdiv.trans_lt hlt))
  have hbyte : ∀ i < k * blockSize, logicalByte ctx req.path (req.startBlock * blockSize + i) =
      some (byteAt (readDedup qs ctx req).2 i) := by
    intro i hi
    have hdiv := (Nat.div_lt_iff_lt_mul hbs).mpr hi
    obtain ⟨size, hsize, hlt⟩ := hw.sized.of_mapped (hmapped _ hdiv)
    have hblock : (req.startBlock * blockSize + i) / blockSize = req.startBlock + i / blockSize := by
      rw [Nat.add_comm, Nat.add_mul_div_right _ _ hbs, Nat.add_comm]
    have hbelow : req.startBlock * blockSize + i < size := by
      rw [← Nat.div_mul_cancel (Nat.dvd_of_mod_eq_zero (hw.aligned _ _ hsize))] at hlt ⊢
      have hlt := Nat.lt_of_mul_lt_mul_right hlt
      rw [← Nat.div_lt_iff_lt_mul hbs, hblock]
      exact hlt
    have hcontent : blockContent ctx ⟨req.path, req.startBlock + i / blockSize⟩ = _ :=
      hread _ hdiv
    rw [logicalByte, hsize, Option.getD_some, if_pos hbelow, hblock, hcontent, Option.getD_some,
      Nat.mul_add_mod_self_right, byteAt_pread (Nat.mod_lt _ hbs), Nat.div_add_mod']
  constructor
  · rintro (hrefused | hall)
    · rw [hret] at hrefused
      have hneg := (isErrno_neg EOPNOTSUPP).2
      rw [← hrefused] at hneg
      omega
    · right
      right
      intro i hi hfront
      have hin := (hfound i).mpr ⟨hi, hfront⟩
      rw [hall _ hret i hin, hbyte i hin]
  · rintro (hlt | hmis | hsame)
    · exact absurd ((Nat.div_eq_zero_iff_lt hbs).mpr hlt) hpos
    · exact absurd haligned hmis
    · right
      intro n hn i hi
      rw [hret] at hn
      obtain rfl := Int.ofNat.inj hn
      obtain ⟨hsize, hfront⟩ := (hfound i).mp hi
      rw [hsame i hsize hfront, hbyte i hi]

/-- The reads at the start of a block are exact. -/
theorem readsExactly_of_aligned (h : withReference.Reachable (RoomyIn W) (ctx, f)) (qs : Qsort)
    {req : ReadRequest} (hsmall : req.size ≤ 2 ^ 20) (haligned : req.offset % blockSize = 0) :
    ReadsExactly ctx req (readDedup qs ctx req) := by
  apply (readsExactly_iff h qs hsmall).mpr
  right
  right
  intro i _ _
  rw [show req.startBlock * blockSize = req.offset from
    Nat.div_mul_cancel (Nat.dvd_of_mod_eq_zero haligned)]

/-- In every state of a sequential run, for every offset and every size that is sent: a write
    is exact if and only if it is refused, fails, or its shift is not noticed, and a read if
    and only if it is refused or the file looks the same from the start of the block on. -/
theorem exact_bytes_iff (hinj : ∀ a b, W a → W b → hash a = hash b → a = b)
    (h : withReference.Reachable (RoomyIn W) (ctx, f)) :
    (∀ (req : WriteRequest) (io : Nat → PwriteResult), 0 < req.size → req.size ≤ 2 ^ 20 →
      RoomFor ctx req → req.BlocksIn W →
      (WritesExactly ctx req (writeDedup ctx req io) ↔
        req.size % blockSize ≠ 0 ∨ FlushFails ctx req io ∨ ShiftUnnoticed ctx req)) ∧
    (∀ (qs : Qsort) (req : ReadRequest), 0 < req.size → req.size ≤ 2 ^ 20 →
      (ReadsExactly ctx req (readDedup qs ctx req) ↔
        req.size < blockSize ∨ req.size % blockSize ≠ 0 ∨
          ∀ i < req.size, (∀ j ≤ i / blockSize, Mapped ctx.index req.path (req.startBlock + j)) →
            logicalByte ctx req.path (req.offset + i) =
              logicalByte ctx req.path (req.startBlock * blockSize + i))) := by
  constructor
  · intro req io hpos hsmall hroom hblocks
    exact writesExactly_iff hinj h hpos hsmall hroom hblocks io
  · intro qs req _ hsmall
    exact readsExactly_iff h qs hsmall

end

/-- A write of zeros to `a` at offset 1, for which there is room. -/
def zerosAtOne : WriteRequest := { WriteRequest.zeros pathA 0 1 with offset := 1 }

theorem exact_bytes_iff_of_zeroOps :
    (@WritesExactly afterZeroOps.1 zerosAtOne
        (@writeDedup Sha512.zeroBlock afterZeroOps.1 zerosAtOne fun _ => .complete) ↔
      zerosAtOne.size % blockSize ≠ 0 ∨
        (@FlushFails Sha512.zeroBlock afterZeroOps.1 zerosAtOne fun _ => .complete) ∨
        ShiftUnnoticed afterZeroOps.1 zerosAtOne) ∧
    (ReadsExactly afterZeroOps.1 readTwoBlocks (readDedup .mergeSort afterZeroOps.1 readTwoBlocks) ↔
      readTwoBlocks.size < blockSize ∨ readTwoBlocks.size % blockSize ≠ 0 ∨
        ∀ i < readTwoBlocks.size, (∀ j ≤ i / blockSize,
          Mapped afterZeroOps.1.index readTwoBlocks.path (readTwoBlocks.startBlock + j)) →
            logicalByte afterZeroOps.1 readTwoBlocks.path (readTwoBlocks.offset + i) =
              logicalByte afterZeroOps.1 readTwoBlocks.path
                (readTwoBlocks.startBlock * blockSize + i)) := by
  let _ := Sha512.zeroBlock
  have hroom : (Op.write zerosAtOne fun _ => .complete).HasRoom afterZeroOps.1 :=
    Op.hasRoom_of_roomCheck (by decide +kernel)
  have hblocks : zerosAtOne.BlocksIn IsZeroBlock := @blocksIn_zeros pathA 0 1
  obtain ⟨hwrites, hreads⟩ := exact_bytes_iff (fun a b ha hb _ => ha.trans hb.symm)
    afterZeroOps_reachable
  exact ⟨hwrites zerosAtOne _ (by decide) (by decide) hroom hblocks,
    hreads .mergeSort readTwoBlocks (by decide) (by decide)⟩

/-- The file `b` has a block of zeros and two of ones. -/
theorem mixedWrite_enabled : ((@withReference Sha512.zerosAndOnes).replay
    (fun s op _ => op.roomCheck s.1) (@withReference Sha512.zerosAndOnes).init
      [.write mixedRequest fun _ => .complete]).isSome := by
  decide +kernel

def afterMixedWrite : Context × Files :=
  ((@withReference Sha512.zerosAndOnes).replay (fun s op _ => op.roomCheck s.1)
    (@withReference Sha512.zerosAndOnes).init
      [.write mixedRequest fun _ => .complete]).get mixedWrite_enabled

/-- A write of ones to `b` at offset 1. -/
def onesAtOne : WriteRequest := { WriteRequest.fill 1 pathB 0 1 with offset := 1 }

/-- A read of one block of `b` at offset 1. -/
def readAtOne : ReadRequest where
  path := pathB
  buf := List.replicate 4096 7
  size := 4096
  offset := 1
  size_eq := List.length_replicate

/-- The write at offset 1 returns 4096 and changes the byte at position 0; the read at
    offset 1 returns 4096 bytes, the last of which is not that of the file. -/
theorem not_exact_bytes :
    (@withReference Sha512.zerosAndOnes).Reachable
      (@RoomyIn Sha512.zerosAndOnes fun _ => True) afterMixedWrite ∧
    ¬WritesExactly afterMixedWrite.1 onesAtOne
      (@writeDedup Sha512.zerosAndOnes afterMixedWrite.1 onesAtOne fun _ => .complete) ∧
    ¬ReadsExactly afterMixedWrite.1 readAtOne
      (readDedup .mergeSort afterMixedWrite.1 readAtOne) := by
  let _ := Sha512.zerosAndOnes
  refine ⟨?_, ?_, ?_⟩
  · refine .of_replay (fun _ op hop _ hc => ⟨op.hasRoom_of_roomCheck hc, ?_⟩)
      (Option.some_get mixedWrite_enabled).symm
    rw [List.mem_singleton.mp hop]
    exact fun _ _ => trivial
  · obtain ⟨hret, hbefore, hafter⟩ :
        (writeDedup afterMixedWrite.1 onesAtOne fun _ => .complete).2 = (4096 : Nat) ∧
          logicalByte afterMixedWrite.1 pathB 0 = some 0 ∧
          logicalByte (writeDedup afterMixedWrite.1 onesAtOne fun _ => .complete).1 pathB 0 =
            some 1 := by
      decide +kernel
    rintro (⟨hrefused, -⟩ | hall)
    · rw [hret] at hrefused
      cases hrefused
    · have hkept := (hall 4096 hret).2 0 0 (by decide) hbefore
      cases hafter.symm.trans hkept
  · obtain ⟨hret, hfile, hbuf⟩ :
        (readDedup .mergeSort afterMixedWrite.1 readAtOne).1 = (4096 : Nat) ∧
          logicalByte afterMixedWrite.1 pathB 4096 = some 1 ∧
          byteAt (readDedup .mergeSort afterMixedWrite.1 readAtOne).2 4095 = 0 := by
      decide +kernel
    rintro (hrefused | hall)
    · rw [hret] at hrefused
      cases hrefused
    · have hbyte := hall 4096 hret 4095 (by decide)
      rw [hbuf] at hbyte
      cases hfile.symm.trans hbyte

end DedupBlockFS
