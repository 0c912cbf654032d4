-- SUMMARY: What an open with `O_TRUNC` leaves of a file, and what is read after it is written again.
import DedupBlockFS.Namespace.LogicalSize

/-!
# Opening with truncation

The kernel passes `O_TRUNC` on in the flags of `xmp_open` and `xmp_create` and sends no
truncate of its own. The handlers pass the flags on to `open`, which cuts the file below off;
the blocks and the size in the index stay, unlike in `xmp_truncate`.
-/

namespace DedupBlockFS

open ByteFile

/-! ## Files written again -/

section
variable [Sha512] {W : List UInt8 → Prop} {w w' : World} {path : CString} {content : List UInt8}

/-- Successful aligned writes to `path`, none of which starts beyond the end of what was written
    since `w`, and the content of the file after them. -/
inductive Rewritten (W : List UInt8 → Prop) (path : CString) (w : World) :
    List UInt8 → World → Prop where
  | start : Rewritten W path w [] w
  | write {content : List UInt8} {w' : World} (req : WriteRequest) (io : Nat → PwriteResult)
      (h : Rewritten W path w content w') (hpath : req.path = path)
      (hoffset : req.offset % blockSize = 0) (haligned : req.size % blockSize = 0)
      (hnogap : req.offset ≤ content.length)
      (hroomy : (FsOp.write req io).RoomyIn W w' ((FsOp.write req io).exec w').1)
      (hret : ((FsOp.write req io).exec w').2 = cInt req.size) :
      Rewritten W path w (pwrite content req.offset req.buf) ((FsOp.write req io).exec w').1

/-- `xmp_getattr` reports the length of `content`, and every aligned read whose result fits an
    `int` returns the bytes of `content` up to its end. -/
structure ReadsBack (w : World) (path : CString) (content : List UInt8) : Prop where
  size : xmpGetattr w path = .ok content.length
  read : ∀ (qs : Qsort) (req : ReadRequest), req.path = path → req.numBlocks ≠ 0 →
    req.size % blockSize = 0 → req.offset % blockSize = 0 →
    min req.size (content.length - req.offset) < 2 ^ 31 →
      (readDedup qs w.ctx req).1 = (min req.size (content.length - req.offset) : Nat) ∧
      ∀ i, i * blockSize < min req.size (content.length - req.offset) →
        pread (readDedup qs w.ctx req).2 (i * blockSize) blockSize =
          pread content (req.offset + i * blockSize) blockSize

/-- The file is empty, nothing of it is left in the index, and what is written to it from now
    on is read back. -/
structure Emptied (w : World) (path : CString) : Prop where
  size : xmpGetattr w path = .ok 0
  read : ∀ (qs : Qsort) (req : ReadRequest), req.path = path → req.numBlocks ≠ 0 →
    req.size % blockSize = 0 → req.offset % blockSize = 0 → (readDedup qs w.ctx req).1 = 0
  released : ∀ b, ¬Mapped w.ctx.index path b
  rewritten : ∀ W, (∀ a b, W a → W b → hash a = hash b → a = b) →
    filesystem.Reachable (FsOp.RoomyIn W) w →
    ∀ content w', Rewritten W path w content w' → ReadsBack w' path content

/-! ## What the writes leave behind -/

/-- The index and the master file hold `content` for the file `path`, and the file below is
    empty. -/
structure Holds (W : List UInt8 → Prop) (w : World) (path : CString) (content : List UInt8) :
    Prop where
  quiet : Quiet W w.ctx
  aligned : content.length % blockSize = 0
  reported : Reports w path content.length
  hostSize : ∀ ino, w.host.file path = some ino → w.host.size ino = 0
  files : ∃ f : Files, Represents W w.ctx f ∧ ∀ b, f ⟨path, b⟩ =
    if b * blockSize < content.length then some (pread content (b * blockSize) blockSize) else none

omit [Sha512] in
/-- If the blocks before the `k`-th lie below the end of the file and the `k`-th does not, the
    `k` blocks are all there is of the request. -/
theorem length_of_blocks {size offset length k : Nat} (hk : k ≤ size / blockSize)
    (hsize : size % blockSize = 0) (hoffset : offset % blockSize = 0)
    (hlength : length % blockSize = 0) (hinside : ∀ i < k, offset + i * blockSize < length)
    (hbeyond : k < size / blockSize → length ≤ offset + k * blockSize) :
    k * blockSize = min size (length - offset) := by
  rw [show blockSize = 4096 from rfl] at hk hsize hoffset hlength hinside hbeyond ⊢
  cases k with
  | zero =>
    rw [Nat.zero_mul] at hbeyond ⊢
    omega
  | succ j =>
    have hlast := hinside j (Nat.lt_succ_self j)
    omega

/-- Reading what the files hold. -/
theorem Holds.readsBack (h : Holds W w path content)
    (hinj : ∀ a b, W a → W b → hash a = hash b → a = b) : ReadsBack w path content where
  size := h.reported.2
  read := by
    rintro qs req rfl hpos haligned hoffset hsmall
    obtain ⟨f, hr, hf⟩ := h.files
    obtain ⟨k, hk, hread, hend, hret, -⟩ := hr.read hinj qs req hpos haligned
    have hstart : req.startBlock * blockSize = req.offset :=
      Nat.div_mul_cancel (Nat.dvd_of_mod_eq_zero hoffset)
    have hkey : ∀ i, f (req.key i) = if req.offset + i * blockSize < content.length
        then some (pread content (req.offset + i * blockSize) blockSize) else none := by
      intro i
      rw [ReadRequest.key, hf, Nat.add_mul, hstart]
    have hinside : ∀ i < k, req.offset + i * blockSize < content.length := by
      intro i hi
      have hsome := (hkey i).symm.trans (hread i hi)
      split at hsome
      · assumption
      · cases hsome
    have hbeyond : k < req.numBlocks → content.length ≤ req.offset + k * blockSize := by
      intro hlt
      have hnone := (hkey k).symm.trans (hend hlt)
      split at hnone
      · cases hnone
      · exact Nat.le_of_not_lt ‹_›
    have heq := length_of_blocks hk haligned hoffset h.aligned hinside hbeyond
    constructor
    · rw [hret, heq, cInt_of_lt hsmall]
    · intro i hi
      rw [← heq] at hi
      have hik := Nat.lt_of_mul_lt_mul_right hi
      have hsome := (hkey i).symm.trans (hread i hik)
      rw [if_pos (hinside i hik)] at hsome
      exact (Option.some.inj hsome).symm

/-- An empty file of which the index has nothing. -/
theorem Holds.start (hq : Quiet W w.ctx) (hreported : Reports w path 0)
    (hempty : ∀ ino, w.host.file path = some ino → w.host.size ino = 0)
    (hunmapped : ∀ b, ¬Mapped w.ctx.index path b) : Holds W w path [] where
  quiet := hq
  aligned := rfl
  reported := hreported
  hostSize := hempty
  files := ⟨blockContent w.ctx, hq.represents, fun b => by
    have hnone : w.ctx.index.fileToMaster.lookup ⟨path, b⟩ = none := not_not.mp (hunmapped b)
    rw [List.length_nil, if_neg (Nat.not_lt_zero _), blockContent, hnone, Option.map_none]⟩

omit [Sha512] in
theorem WriteRequest.length_pwrite (req : WriteRequest) (content : List UInt8) :
    (pwrite content req.offset req.buf).length =
      if req.size = 0 then content.length else max content.length (req.offset + req.size) := by
  have hempty : req.buf = [] ↔ req.size = 0 := by rw [← List.length_eq_zero_iff, req.size_eq]
  simp only [ByteFile.length_pwrite, hempty, req.size_eq]

omit [Sha512] in
/-- The blocks of a content after a request that leaves no gap: those of the request, and
    around them those from before. -/
theorem WriteRequest.blocks_pwrite (req : WriteRequest) (hoffset : req.offset % blockSize = 0)
    (haligned : req.size % blockSize = 0) (hcontent : content.length % blockSize = 0)
    (hnogap : req.offset ≤ content.length) (b : Nat) :
    (if b * blockSize < (pwrite content req.offset req.buf).length
      then some (pread (pwrite content req.offset req.buf) (b * blockSize) blockSize) else none) =
    if req.startBlock ≤ b ∧ b < req.startBlock + req.numBlocks
      then some (req.block (b - req.startBlock))
      else if b * blockSize < content.length
        then some (pread content (b * blockSize) blockSize) else none := by
  have hstart : req.startBlock * blockSize = req.offset :=
    Nat.div_mul_cancel (Nat.dvd_of_mod_eq_zero hoffset)
  have hnum : req.numBlocks * blockSize = req.size :=
    Nat.div_mul_cancel (Nat.dvd_of_mod_eq_zero haligned)
  rw [req.length_pwrite]
  by_cases hin : req.startBlock ≤ b ∧ b < req.startBlock + req.numBlocks
  · obtain ⟨i, rfl⟩ := Nat.exists_eq_add_of_le hin.1
    have hi : i < req.numBlocks := Nat.lt_of_add_lt_add_left hin.2
    have hfits := Nat.mul_le_mul_right blockSize (Nat.succ_le_of_lt hi)
    rw [hnum, Nat.succ_mul] at hfits
    have hsize : 0 < req.size := lt_of_lt_of_le (by decide) ((Nat.le_add_left _ _).trans hfits)
    have hbelow : req.offset + i * blockSize < max content.length (req.offset + req.size) :=
      lt_max_of_lt_right (Nat.add_lt_add_left (lt_of_lt_of_le (Nat.lt_add_of_pos_right
        (by decide)) hfits) _)
    have hne : req.buf ≠ [] := List.ne_nil_of_length_pos (by rwa [req.size_eq])
    rw [if_pos hin, if_neg hsize.ne', Nat.add_mul, hstart, if_pos hbelow, Nat.add_sub_cancel_left,
      pread_pwrite_inside hne (by rwa [req.size_eq]), WriteRequest.block]
  · -- in front of the request the file goes on up to it, behind it only what was there counts
    have hout : b * blockSize + blockSize ≤ req.offset ∨
        req.offset + req.size ≤ b * blockSize := by
      rw [← hstart, ← hnum, ← Nat.add_mul, ← Nat.succ_mul]
      rcases not_and_or.mp hin with hlt | hge
      · exact .inl (Nat.mul_le_mul_right _ (Nat.lt_of_not_le hlt))
      · exact .inr (Nat.mul_le_mul_right _ (Nat.le_of_not_lt hge))
    have hsame : (b * blockSize < if req.size = 0 then content.length
        else max content.length (req.offset + req.size)) ↔ b * blockSize < content.length := by
      split
      · rfl
      · rw [lt_max_iff, or_iff_left_iff_imp]
        intro hbelow
        have hpos : 0 < blockSize := by decide
        omega
    rw [if_neg hin, if_congr hsame rfl rfl]
    split
    · rename_i hlt
      have hfile : b * blockSize + blockSize ≤ content.length := by
        have hdiv := Nat.div_mul_cancel (Nat.dvd_of_mod_eq_zero hcontent)
        rw [← hdiv] at hlt ⊢
        rw [← Nat.succ_mul]
        exact Nat.mul_le_mul_right _ (Nat.lt_of_mul_lt_mul_right hlt)
      rw [pread_pwrite_outside hfile (by rwa [req.size_eq])]
    · rfl

/-- A successful aligned write that leaves no gap does to what the files hold what `pwrite` does
    to the content. -/
theorem Holds.write (h : Holds W w path content) {req : WriteRequest} {io : Nat → PwriteResult}
    (hpath : req.path = path) (hoffset : req.offset % blockSize = 0)
    (haligned : req.size % blockSize = 0) (hnogap : req.offset ≤ content.length)
    (hroomy : (FsOp.write req io).RoomyIn W w w')
    (hret : ((FsOp.write req io).exec w).2 = cInt req.size) :
    Holds W ((FsOp.write req io).exec w).1 path (pwrite content req.offset req.buf) := by
  subst hpath
  obtain ⟨⟨ino, hfile⟩, -⟩ := h.reported
  obtain ⟨f, hr, hf⟩ := h.files
  obtain ⟨hroom, hblocks⟩ := hroomy (.write req io) (by rw [FsOp.onIndex, hfile]; rfl)
  have hreports := (reports_write_iff h.reported hoffset haligned hret).mpr fun _ _ ino hino => by
    rw [h.hostSize ino hino]
    exact Nat.zero_le _
  rw [← req.length_pwrite] at hreports
  have hexec : (FsOp.write req io).exec w =
      ({ w with ctx := (writeDedup w.ctx req io).1 }, (writeDedup w.ctx req io).2) := by
    simp only [FsOp.exec, hfile]
  rw [hexec] at hreports hret ⊢
  have happly : f.apply (.write req io) (writeDedup w.ctx req io).2 = f.write req :=
    if_pos ⟨haligned, hret⟩
  have hr' : Represents W (writeDedup w.ctx req io).1 (f.write req) :=
    happly ▸ hr.exec (show Op.HasRoom w.ctx (.write req io) from hroom) hblocks
  refine ⟨hr'.quiet, ?_, hreports, h.hostSize, f.write req, hr', fun b => ?_⟩
  · rw [req.length_pwrite]
    have hcontent := h.aligned
    rw [show blockSize = 4096 from rfl] at hoffset haligned hcontent ⊢
    split <;> omega
  · rw [req.blocks_pwrite hoffset haligned h.aligned hnogap, Files.write, hf]
    simp only [true_and]

/-- What was written again is what the files hold. -/
theorem Rewritten.holds (h : Rewritten W path w content w') (hstart : Holds W w path []) :
    Holds W w' path content := by
  induction h with
  | start => exact hstart
  | write req io _ hpath hoffset haligned hnogap hroomy hret ih =>
    exact ih.write hpath hoffset haligned hnogap hroomy hret

/-! ## Opening -/

omit [Sha512] in
/-- A successful open that cuts off leaves an empty file. -/
theorem Host.openFile_trunc {h h' : Host} {flags : OpenFlags} (htrunc : flags.trunc)
    (hok : h.openFile path flags = .ok h') : ∃ ino, h'.file path = some ino ∧ h'.size ino = 0 := by
  cases hnode : h.nodes path with
  | none => exact Host.openFile_new hnode hok
  | some node =>
    cases node with
    | dir =>
      simp only [Host.openFile, hnode, htrunc, or_true, if_true] at hok
      split at hok
      · cases hok
      · cases hok
    | file ino =>
      have hfile : h.file path = some ino := Host.file_eq_some.mpr hnode
      refine ⟨ino, ?_⟩
      rw [Host.openFile_file hfile hok, if_pos htrunc, Host.setSize_file, Host.setSize_size]
      exact ⟨hfile, rfl⟩

omit [Sha512] in
/-- A read of a file of which nothing is mapped returns 0. -/
theorem readDedup_of_unmapped {ctx : Context} (hunmapped : ∀ b, ¬Mapped ctx.index path b)
    (qs : Qsort) {req : ReadRequest} (hpath : req.path = path) (hpos : req.numBlocks ≠ 0)
    (haligned : req.size % blockSize = 0) : (readDedup qs ctx req).1 = 0 := by
  have hnone : req.infos ctx.index = [] := by
    rw [List.eq_nil_iff_length_eq_zero]
    by_contra hlen
    have hget := List.getElem?_eq_getElem (Nat.pos_of_ne_zero hlen)
    exact hunmapped _ (hpath ▸ mapped_of_lookup (lookup_of_lookupInfos hget))
  have hstored : ∀ m ∈ req.infos ctx.index,
      Stored ctx.master (ctx.heap.cell m).masterBlockIndex ((fun _ => []) m) := by
    simp [hnone]
  rw [(readDedup_eq qs hpos haligned hstored).1, hnone]
  rfl

/-- A successful open with `O_TRUNC` empties the file exactly if the index has no size for it. -/
theorem emptied_iff {P : World → FsOp → World → Prop} {flags : OpenFlags} {res : SyscallResult}
    (h : filesystem.Reachable P w) (htrunc : flags.trunc)
    (hret : (w.passthrough res (w.host.openFile path flags)).2 = 0) :
    Emptied (w.passthrough res (w.host.openFile path flags)).1 path ↔
      (w.ctx.index.fileToSizes.lookup path).getD 0 = 0 := by
  obtain ⟨h', heffect, hworld⟩ := World.passthrough_ok hret
  obtain ⟨ino, hfile, hsize⟩ := Host.openFile_trunc htrunc heffect
  rw [hworld]
  have hgetattr : xmpGetattr { w with host := h' } path =
      .ok ((w.ctx.index.fileToSizes.lookup path).getD 0) := by
    rw [xmpGetattr_file hfile, hsize]
  constructor
  · intro hempty
    exact Except.ok.inj (hgetattr.symm.trans hempty.size)
  · intro hrecorded
    rw [hrecorded] at hgetattr
    have hunmapped := (wellSized_filesystem h).sized.unmapped hrecorded
    refine ⟨hgetattr, fun qs req hpath hpos haligned _ =>
      readDedup_of_unmapped hunmapped qs hpath hpos haligned, hunmapped, ?_⟩
    intro W hinj hreach content w' hwritten
    refine (hwritten.holds (.start (quiet_filesystem hreach) ⟨⟨ino, hfile⟩, hgetattr⟩ ?_
      hunmapped)).readsBack hinj
    intro ino' hino'
    obtain rfl := Option.some.inj (hfile.symm.trans hino')
    exact hsize

/-- In every reachable state, a successful `xmp_open` or `xmp_create` with `O_TRUNC` empties the
    file exactly if the index has no size for it. -/
theorem open_trunc_empties_iff {P : World → FsOp → World → Prop} {flags : OpenFlags}
    (h : filesystem.Reachable P w) (htrunc : flags.trunc) (res : SyscallResult) :
    ((xmpOpen w path flags res).2 = 0 → (Emptied (xmpOpen w path flags res).1 path ↔
      (w.ctx.index.fileToSizes.lookup path).getD 0 = 0)) ∧
    ((xmpCreate w path flags res).2 = 0 → (Emptied (xmpCreate w path flags res).1 path ↔
      (w.ctx.index.fileToSizes.lookup path).getD 0 = 0)) :=
  ⟨emptied_iff h htrunc, emptied_iff h htrunc⟩

end

def truncFlags : OpenFlags where
  creat := true
  excl := false
  trunc := true

/-- The file `a` is created, and a block of zeros is written to it. -/
def createWrite : List FsOp :=
  [.create pathA createFlags (.ok ()), .write (.zeros pathA 0 1) fun _ => .complete]

theorem createWrite_enabled : ((@filesystem Sha512.zeroBlock).replay (fun _ _ _ => true)
    (@filesystem Sha512.zeroBlock).init createWrite).isSome := by
  decide +kernel

def afterCreateWrite : World :=
  ((@filesystem Sha512.zeroBlock).replay (fun _ _ _ => true)
    (@filesystem Sha512.zeroBlock).init createWrite).get createWrite_enabled

theorem afterCreateWrite_reachable :
    (@filesystem Sha512.zeroBlock).Reachable (fun _ _ _ => True) afterCreateWrite :=
  .of_replay (fun _ _ _ _ _ => trivial) (Option.some_get createWrite_enabled).symm

/-- The file below is cut off, but the size that is reported, and what is read, stays. -/
theorem not_open_trunc_empties :
    (@filesystem Sha512.zeroBlock).Reachable (fun _ _ _ => True) afterCreateWrite ∧
    (xmpOpen afterCreateWrite pathA truncFlags (.ok ())).2 = 0 ∧
    (xmpOpen afterCreateWrite pathA truncFlags (.ok ())).1.host.lstat pathA = .ok 0 ∧
    xmpGetattr (xmpOpen afterCreateWrite pathA truncFlags (.ok ())).1 pathA = .ok 4096 ∧
    (readDedup .mergeSort (xmpOpen afterCreateWrite pathA truncFlags (.ok ())).1.ctx
      readTwoBlocks).1 = 4096 ∧
    ¬@Emptied Sha512.zeroBlock (xmpOpen afterCreateWrite pathA truncFlags (.ok ())).1 pathA := by
  have hsize : xmpGetattr (xmpOpen afterCreateWrite pathA truncFlags (.ok ())).1 pathA =
      .ok 4096 := by decide +kernel
  refine ⟨afterCreateWrite_reachable, by decide +kernel, by decide +kernel, hsize,
    by decide +kernel, ?_⟩
  intro hempty
  have hzero := hsize.symm.trans (@Emptied.size Sha512.zeroBlock _ _ hempty)
  cases hzero

/-- The file `b` is not there in the same state, so that either call makes an empty one. -/
theorem open_trunc_empties_iff_of_createWrite :
    (@Emptied Sha512.zeroBlock (xmpOpen afterCreateWrite pathB truncFlags (.ok ())).1 pathB ↔
      (afterCreateWrite.ctx.index.fileToSizes.lookup pathB).getD 0 = 0) ∧
    (@Emptied Sha512.zeroBlock (xmpCreate afterCreateWrite pathB truncFlags (.ok ())).1 pathB ↔
      (afterCreateWrite.ctx.index.fileToSizes.lookup pathB).getD 0 = 0) := by
  have hboth := @open_trunc_empties_iff Sha512.zeroBlock afterCreateWrite pathB _ truncFlags
    afterCreateWrite_reachable rfl (.ok ())
  exact ⟨hboth.1 (by decide +kernel), hboth.2 (by decide +kernel)⟩

end DedupBlockFS
