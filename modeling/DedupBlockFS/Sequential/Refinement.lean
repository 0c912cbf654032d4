-- SUMMARY: The reference model of the files, and that reading after any sequential run returns what it holds.
import DedupBlockFS.Reading
import DedupBlockFS.Sequential.Operations

/-!
# The reference model

What a user believes: a file block has the content that was last written to it, until
it is written again, cut off or unlinked. The deduplicating store, run one call after the
other, keeps to this picture: `Represents` relates the two, and every call preserves it.
-/

namespace DedupBlockFS

open ByteFile
open Table (values)

/-! ## Files as partial maps -/

/-- The content of every file block that has one. -/
abbrev Files := BlockIndice → Option (List UInt8)

namespace Files

def empty : Files := fun _ => none

/-- The blocks of the request replace what was there. -/
def write (f : Files) (req : WriteRequest) : Files := fun k =>
  if k.path = req.path ∧ req.startBlock ≤ k.offset ∧ k.offset < req.startBlock + req.numBlocks
  then some (req.block (k.offset - req.startBlock)) else f k

def unlink (f : Files) (path : CString) : Files := fun k => if k.path = path then none else f k

def truncate (f : Files) (path : CString) (size : Nat) : Files := fun k =>
  if k.path = path ∧ size / blockSize ≤ k.offset then none else f k

/-- What a call that has returned `ret` means: a write that does not return its length
    and a truncate to a size that is no number of blocks change nothing. -/
def apply (f : Files) (op : Op) (ret : Int) : Files :=
  match op with
  | .write req _ => if req.size % blockSize = 0 ∧ ret = cInt req.size then f.write req else f
  | .unlink path _ => f.unlink path
  | .truncate path size _ =>
    if 0 ≤ size ∧ size % blockSize = 0 then f.truncate path size.toNat else f

end Files

/-! ## Sequential runs -/

section
variable [Sha512]

/-- One call after the other, from the empty index over an empty master file. -/
def sequential : TransitionSystem Context Op where
  init := .empty
  step ctx op := some (op.exec ctx).1

/-- The same next to the reference model, which sees the calls and what they return. -/
def withReference : TransitionSystem (Context × Files) Op where
  init := (.empty, .empty)
  step s op := some ((op.exec s.1).1, s.2.apply op (op.exec s.1).2)

/-- If the call is a write, it leaves fewer than 2^32 references to any one block. -/
def Op.HasRoom (ctx : Context) : Op → Prop
  | .write req _ => RoomFor ctx req
  | _ => True

/-- If the call is a write, its blocks are among `W`. -/
def Op.BlocksIn (W : List UInt8 → Prop) : Op → Prop
  | .write req _ => req.BlocksIn W
  | _ => True

omit [Sha512] in
theorem Op.blocksIn_true (op : Op) : op.BlocksIn fun _ => True := by
  cases op with
  | write req io => exact fun _ _ => trivial
  | _ => trivial

variable {W : List UInt8 → Prop} {ctx : Context} {f : Files} {op : Op} {qs : Qsort}

/-- Every call keeps the state quiet. -/
theorem Quiet.exec (hq : Quiet W ctx) (hroom : op.HasRoom ctx) (hblocks : op.BlocksIn W) :
    Quiet W (op.exec ctx).1 := by
  cases op with
  | write req io => exact (hq.writeDedup hroom hblocks io).1
  | unlink path res => exact (hq.xmpUnlink path res).1
  | truncate path size res => exact (hq.xmpTruncate path size res).1

/-- The states of sequential runs whose writes leave fewer than 2^32 references to any
    one block. -/
theorem Quiet.reachable {P : Context → Op → Context → Prop}
    (hP : ∀ ctx op ctx', P ctx op ctx' → op.HasRoom ctx ∧ op.BlocksIn W)
    (h : sequential.Reachable P ctx) : Quiet W ctx :=
  h.invariant .empty fun ctx op ctx' hq hstep hPs => by
    obtain ⟨hroom, hblocks⟩ := hP ctx op ctx' hPs
    exact Option.some.inj hstep ▸ hq.exec hroom hblocks

/-! ## The simulation -/

/-- The index and the master file stand for the files `f`. -/
structure Represents (W : List UInt8 → Prop) (ctx : Context) (f : Files) : Prop where
  quiet : Quiet W ctx
  contents : ∀ k, contents ctx k = (f k).map hash
  blocks : ∀ k b, f k = some b → W b

theorem Represents.empty : Represents W .empty .empty where
  quiet := .empty
  contents _ := rfl
  blocks k b hb := by cases hb

/-- Every call does to the store what it means for the files. -/
theorem Represents.exec (h : Represents W ctx f) (hroom : op.HasRoom ctx) (hblocks : op.BlocksIn W) :
    Represents W (op.exec ctx).1 (f.apply op (op.exec ctx).2) := by
  refine ⟨h.quiet.exec hroom hblocks, fun k => ?_, fun k b hb => ?_⟩
  · cases op with
    | write req io =>
      have hcontents := (h.quiet.writeDedup hroom hblocks io).2 k
      show DedupBlockFS.contents (writeDedup ctx req io).1 k =
        ((if req.size % blockSize = 0 ∧ (writeDedup ctx req io).2 = cInt req.size
          then f.write req else f) k).map hash
      rw [hcontents]
      by_cases hret : req.size % blockSize = 0 ∧ (writeDedup ctx req io).2 = cInt req.size
      · rw [if_pos hret]
        simp only [Files.write, hret, true_and]
        split
        · rfl
        · exact h.contents k
      · rw [if_neg hret, if_neg fun hk => hret ⟨hk.1, hk.2.1⟩]
        exact h.contents k
    | unlink path res =>
      simp only [Op.exec, Files.apply, Files.unlink]
      rw [(h.quiet.xmpUnlink path res).2.2 k]
      split
      · rfl
      · exact h.contents k
    | truncate path size res =>
      simp only [Op.exec, Files.apply]
      rw [(h.quiet.xmpTruncate path size res).2 k]
      by_cases hsize : 0 ≤ size ∧ size % blockSize = 0
      · rw [if_pos hsize]
        simp only [Files.truncate, hsize, true_and]
        split
        · rfl
        · exact h.contents k
      · rw [if_neg hsize, if_neg fun hk => hsize hk.1]
        exact h.contents k
  · cases op with
    | write req io =>
      simp only [Files.apply] at hb
      split at hb
      · simp only [Files.write] at hb
        split at hb
        · obtain rfl := Option.some.inj hb
          exact hblocks _ (by omega)
        · exact h.blocks k b hb
      · exact h.blocks k b hb
    | unlink path res =>
      simp only [Files.apply, Files.unlink] at hb
      split at hb
      · cases hb
      · exact h.blocks k b hb
    | truncate path size res =>
      simp only [Files.apply] at hb
      split at hb
      · simp only [Files.truncate] at hb
        split at hb
        · cases hb
        · exact h.blocks k b hb
      · exact h.blocks k b hb

/-- The runs in which every call has room and writes blocks among `W`. -/
def RoomyIn (W : List UInt8 → Prop) (s : Context × Files) (op : Op) (_ : Context × Files) : Prop :=
  op.HasRoom s.1 ∧ op.BlocksIn W

theorem Represents.reachable {s : Context × Files} (h : withReference.Reachable (RoomyIn W) s) :
    Represents W s.1 s.2 :=
  h.invariant (I := fun s => Represents W s.1 s.2) .empty fun _ _ _ hs hstep hP =>
    Option.some.inj hstep ▸ hs.exec hP.1 hP.2

/-! ## Reading -/

/-- The file block that a read finds at its `i`-th position. -/
def ReadRequest.key (req : ReadRequest) (i : Nat) : BlockIndice := ⟨req.path, req.startBlock + i⟩

omit [Sha512] in
/-- What the slot of a file block holds, if the block is mapped. -/
def blockContent (ctx : Context) (k : BlockIndice) : Option (List UInt8) :=
  (ctx.index.fileToMaster.lookup k).map fun m =>
    blockAt ctx.master (ctx.heap.cell m).masterBlockIndex

/-- A read returns the blocks up to the first unmapped one. -/
theorem Quiet.read (hq : Quiet W ctx) (qs : Qsort) {req : ReadRequest} (hpos : req.numBlocks ≠ 0)
    (haligned : req.size % blockSize = 0) :
    (readDedup qs ctx req).1 = cInt ((req.infos ctx.index).length * blockSize) ∧
      (∀ i < (req.infos ctx.index).length, blockContent ctx (req.key i) =
        some (pread (readDedup qs ctx req).2 (i * blockSize) blockSize)) ∧
      ((req.infos ctx.index).length < req.numBlocks →
        ctx.index.fileToMaster.lookup (req.key (req.infos ctx.index).length) = none) := by
  have hstored : ∀ m ∈ req.infos ctx.index, Stored ctx.master
      (ctx.heap.cell m).masterBlockIndex
      (blockAt ctx.master (ctx.heap.cell m).masterBlockIndex) := by
    intro m hm
    obtain ⟨i, hi⟩ := List.mem_iff_getElem?.mp hm
    obtain ⟨b, -, -, hb⟩ := hq.intact m
      (hq.mapped m (Table.mem_values_of_lookup (lookup_of_lookupInfos hi)))
    exact ⟨hb.1, rfl⟩
  obtain ⟨hret, -, hread⟩ := readDedup_eq qs hpos haligned hstored
  refine ⟨hret, fun i hi => ?_, fun hlt => lookup_length_lookupInfos hlt⟩
  have hget := List.getElem?_eq_getElem hi
  rw [hread i _ hget, blockContent, show ctx.index.fileToMaster.lookup (req.key i) = _ from
    lookup_of_lookupInfos hget, Option.map_some]

/-- Where different blocks have different hashes, the slots hold what the files hold. -/
theorem Represents.blockContent_eq (hr : Represents W ctx f)
    (hinj : ∀ a b, W a → W b → hash a = hash b → a = b) (k : BlockIndice) :
    blockContent ctx k = f k := by
  have hfile := hr.contents k
  rw [DedupBlockFS.contents] at hfile
  rw [blockContent]
  cases hm : ctx.index.fileToMaster.lookup k with
  | none =>
    rw [hm, Option.map_none] at hfile
    rw [Option.map_none, Option.map_eq_none_iff.mp hfile.symm]
  | some m =>
    rw [hm, Option.map_some] at hfile
    obtain ⟨b, hb, hbhash⟩ := Option.map_eq_some_iff.mp hfile.symm
    -- the slot holds a block with the same hash
    obtain ⟨b', hW, hb', -, hstore⟩ := hr.quiet.intact m
      (hr.quiet.mapped m (Table.mem_values_of_lookup hm))
    rw [Option.map_some, hb, hstore, hinj b b' (hr.blocks k b hb) hW (hbhash.trans hb'.symm)]

/-- A read returns the contents of the longest run of blocks, from its offset on, that the
    files have, and never `-EIO`. -/
theorem Represents.read (hr : Represents W ctx f)
    (hinj : ∀ a b, W a → W b → hash a = hash b → a = b) (qs : Qsort) (req : ReadRequest)
    (hpos : req.numBlocks ≠ 0) (haligned : req.size % blockSize = 0) :
    ∃ k ≤ req.numBlocks,
      (∀ i < k, f (req.key i) = some (pread (readDedup qs ctx req).2 (i * blockSize) blockSize)) ∧
      (k < req.numBlocks → f (req.key k) = none) ∧
      (readDedup qs ctx req).1 = cInt (k * blockSize) ∧
      (k * blockSize < 2 ^ 31 → (readDedup qs ctx req).1 = k * blockSize) ∧
      (readDedup qs ctx req).1 ≠ Errno.neg EIO := by
  obtain ⟨hret, hread, hend⟩ := hr.quiet.read qs hpos haligned
  refine ⟨(req.infos ctx.index).length, length_lookupInfos_le, fun i hi => ?_, fun hlt => ?_, hret,
    fun hsmall => ?_, fun herror => ?_⟩
  · rw [← hr.blockContent_eq hinj, hread i hi]
  · rw [← hr.blockContent_eq hinj, blockContent, hend hlt, Option.map_none]
  · rw [hret, cInt_of_lt hsmall, Nat.cast_mul]
  · rw [hret] at herror
    exact (isErrno_neg EIO).ne_cInt (Nat.mul_mod_left _ _) herror.symm

/-- In every state of a sequential run a read returns the contents of the longest run of
    blocks, from its offset on, that the files have, and never `-EIO`. -/
theorem read_returns_files (hinj : ∀ a b, W a → W b → hash a = hash b → a = b)
    (h : withReference.Reachable (RoomyIn W) (ctx, f)) (req : ReadRequest)
    (hpos : req.numBlocks ≠ 0) (haligned : req.size % blockSize = 0) :
    ∃ k ≤ req.numBlocks,
      (∀ i < k, f (req.key i) = some (pread (readDedup qs ctx req).2 (i * blockSize) blockSize)) ∧
      (k < req.numBlocks → f (req.key k) = none) ∧
      (readDedup qs ctx req).1 = cInt (k * blockSize) ∧
      (k * blockSize < 2 ^ 31 → (readDedup qs ctx req).1 = k * blockSize) ∧
      (readDedup qs ctx req).1 ≠ Errno.neg EIO :=
  (Represents.reachable h : Represents W ctx f).read hinj qs req hpos haligned

/-- A quiet state stands for what its slots hold. -/
theorem Quiet.represents (hq : Quiet W ctx) : Represents W ctx (blockContent ctx) := by
  have hblock : ∀ k b, blockContent ctx k = some b → W b ∧ contents ctx k = some (hash b) := by
    intro k b hb
    obtain ⟨m, hm, rfl⟩ := Option.map_eq_some_iff.mp hb
    obtain ⟨b, hW, hb, -, hstore⟩ := hq.intact m (hq.mapped m (Table.mem_values_of_lookup hm))
    rw [hstore, DedupBlockFS.contents, hm, Option.map_some, hb]
    exact ⟨hW, rfl⟩
  refine ⟨hq, fun k => ?_, fun k b hb => (hblock k b hb).1⟩
  cases hb : blockContent ctx k with
  | none =>
    rw [DedupBlockFS.contents, Option.map_eq_none_iff.mp hb]
    rfl
  | some b => exact (hblock k b hb).2

end

/-- A check that the write of a replayed step has room. -/
def Op.roomCheck (ctx : Context) : Op → Bool
  | .write req _ => (values ctx.index.fileToMaster).card + req.numBlocks < 2 ^ 32
  | _ => true

theorem Op.hasRoom_of_roomCheck [Sha512] {ctx : Context} {op : Op} (h : op.roomCheck ctx) :
    op.HasRoom ctx := by
  cases op with
  | write req io =>
    have hcard : (values ctx.index.fileToMaster).card + req.numBlocks < 2 ^ 32 := of_decide_eq_true h
    intro x
    refine lt_of_le_of_lt (Nat.add_le_add (Multiset.count_le_card _ _) (Multiset.count_le_card _ _)) ?_
    rwa [Multiset.card_map, Multiset.card_map, Multiset.card_range]
  | _ => trivial

/-- A write of zeros to `a` that fails and is repeated, a write of zeros to `b`, and the
    second block of `a` cut off. -/
def zeroOps : List Op :=
  [.write (.zeros pathA 0 2) fun _ => .error EIO,
    .write (.zeros pathA 0 2) fun _ => .complete,
    .write (.zeros pathB 1 1) fun _ => .complete,
    .truncate pathA 4096 (.ok ())]

theorem zeroOps_enabled : ((@withReference Sha512.zeroBlock).replay
    (fun s op _ => op.roomCheck s.1) (@withReference Sha512.zeroBlock).init zeroOps).isSome := by
  decide +kernel

def afterZeroOps : Context × Files :=
  ((@withReference Sha512.zeroBlock).replay
    (fun s op _ => op.roomCheck s.1) (@withReference Sha512.zeroBlock).init zeroOps).get zeroOps_enabled

theorem afterZeroOps_reachable :
    (@withReference Sha512.zeroBlock).Reachable (@RoomyIn Sha512.zeroBlock IsZeroBlock)
      afterZeroOps := by
  let _ := Sha512.zeroBlock
  have hblocks : ∀ op ∈ zeroOps, op.BlocksIn IsZeroBlock := by
    simp [zeroOps, Op.BlocksIn, blocksIn_zeros]
  exact .of_replay (fun _ op hop _ hc => ⟨op.hasRoom_of_roomCheck hc, hblocks op hop⟩)
    (Option.some_get zeroOps_enabled).symm

/-- A read of the first two blocks of `a`. -/
def readTwoBlocks : ReadRequest where
  path := pathA
  buf := List.replicate 8192 1
  size := 8192
  offset := 0
  size_eq := List.length_replicate

theorem read_returns_files_of_zeroOps :
    (readDedup .mergeSort afterZeroOps.1 readTwoBlocks).1 = 4096 ∧
      ∃ k ≤ readTwoBlocks.numBlocks,
        (∀ i < k, afterZeroOps.2 (readTwoBlocks.key i) = some
          (pread (readDedup .mergeSort afterZeroOps.1 readTwoBlocks).2 (i * blockSize) blockSize)) ∧
        (k < readTwoBlocks.numBlocks → afterZeroOps.2 (readTwoBlocks.key k) = none) ∧
        (readDedup .mergeSort afterZeroOps.1 readTwoBlocks).1 = cInt (k * blockSize) ∧
        (k * blockSize < 2 ^ 31 →
          (readDedup .mergeSort afterZeroOps.1 readTwoBlocks).1 = k * blockSize) ∧
        (readDedup .mergeSort afterZeroOps.1 readTwoBlocks).1 ≠ Errno.neg EIO := by
  let _ := Sha512.zeroBlock
  exact ⟨by decide +kernel, read_returns_files (fun a b ha hb _ => ha.trans hb.symm)
    afterZeroOps_reachable readTwoBlocks (by decide) (by decide)⟩

end DedupBlockFS
