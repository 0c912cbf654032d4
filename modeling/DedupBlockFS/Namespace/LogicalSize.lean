-- SUMMARY: When the size that `xmp_getattr` reports is the POSIX size, along every run of calls on one file.
import DedupBlockFS.Namespace.Handlers

/-!
# The size of a file

`xmp_getattr` reports the size of the index if it has one, and otherwise that of the file
below. A write records a size in the index and leaves the file below alone; a truncate that
grows the file changes the file below and leaves the index alone. Where both happen to one
file, the size that is reported is that of the index only.
-/

namespace DedupBlockFS

open ByteFile

/-- The size of a file by the rules of POSIX, after a successful call on it. -/
def posixSize (w : World) (size : Nat) : FsOp → Nat
  | .create path flags _ | .openFile path flags _ =>
    if w.host.nodes path = none ∨ flags.trunc then 0 else size
  | .write req _ => if req.size = 0 then size else max size (req.offset + req.size)
  | .truncate _ newSize _ => newSize.toNat
  | _ => size

/-- The call does not make the two sizes disagree: a file that is new or cut off by its flags
    has no size in the index, a write that records the first size reaches at least to the
    end of the file below, and a truncate does not go beyond a recorded size. -/
def FsOp.KeepsSizes (w : World) : FsOp → Prop
  | .create path flags _ | .openFile path flags _ =>
    w.host.nodes path = none ∨ flags.trunc →
      (w.ctx.index.fileToSizes.lookup path).getD 0 = 0
  | .write req _ => w.ctx.index.fileToSizes.lookup req.path = none → req.size ≠ 0 →
    ∀ ino, w.host.file req.path = some ino → w.host.size ino ≤ req.offset + req.size
  | .truncate path size _ =>
    ∀ old, w.ctx.index.fileToSizes.lookup path = some old → size.toNat ≤ old
  | _ => True

/-- The file exists, and `xmp_getattr` reports `size` for it. -/
def Reports (w : World) (path : CString) (size : Nat) : Prop :=
  (∃ ino, w.host.file path = some ino) ∧ xmpGetattr w path = .ok size

theorem reports_iff {w : World} {path : CString} {size : Nat} : Reports w path size ↔
    ∃ ino, w.host.file path = some ino ∧
      (w.ctx.index.fileToSizes.lookup path).getD (w.host.size ino) = size := by
  constructor
  · rintro ⟨⟨ino, hfile⟩, hsize⟩
    rw [xmpGetattr_file hfile] at hsize
    exact ⟨ino, hfile, Except.ok.inj hsize⟩
  · rintro ⟨ino, hfile, hsize⟩
    exact ⟨⟨ino, hfile⟩, by rw [xmpGetattr_file hfile, hsize]⟩

/-! ## Sizes below -/

section
variable {w : World} {path : CString} {size : Nat}

@[simp] theorem Host.setSize_file (h : Host) (ino : Inode) (size : Nat) (path : CString) :
    (h.setSize ino size).file path = h.file path := rfl

@[simp] theorem Host.setSize_size (h : Host) (ino : Inode) (size : Nat) :
    (h.setSize ino size).size ino = size := Function.update_self ..

/-- Opening a file that exists at most cuts it off. -/
theorem Host.openFile_file {h h' : Host} {flags : OpenFlags} {ino : Inode}
    (hfile : h.file path = some ino) (hok : h.openFile path flags = .ok h') :
    h' = if flags.trunc then h.setSize ino 0 else h := by
  rw [Host.file_eq_some] at hfile
  simp only [Host.openFile, hfile] at hok
  split at hok
  · cases hok
  · exact (Except.ok.inj hok).symm

/-- A path that named nothing names an empty file once it has been opened. -/
theorem Host.openFile_new {h h' : Host} {flags : OpenFlags} (habsent : h.nodes path = none)
    (hok : h.openFile path flags = .ok h') :
    ∃ ino, h'.file path = some ino ∧ h'.size ino = 0 := by
  simp only [Host.openFile, habsent] at hok
  split at hok
  · obtain rfl := Except.ok.inj hok
    exact ⟨h.next, Host.file_eq_some.mpr (Function.update_self ..), Function.update_self ..⟩
  · cases hok

/-- A creation of a file, or an open that cuts it off, reports 0 exactly if the index has no
    size for it; any other open changes nothing. -/
theorem reports_open_iff {flags : OpenFlags} {res : SyscallResult}
    (h : w.host.nodes path = none ∨ Reports w path size)
    (hret : (w.passthrough res (w.host.openFile path flags)).2 = 0) :
    Reports (w.passthrough res (w.host.openFile path flags)).1 path
        (if w.host.nodes path = none ∨ flags.trunc then 0 else size) ↔
      (w.host.nodes path = none ∨ flags.trunc →
        (w.ctx.index.fileToSizes.lookup path).getD 0 = 0) := by
  obtain ⟨h', heffect, hworld⟩ := World.passthrough_ok hret
  rw [hworld, reports_iff]
  rcases h with habsent | h
  · obtain ⟨ino, hfile, hempty⟩ := Host.openFile_new habsent heffect
    simp [habsent, hfile, hempty]
  · obtain ⟨ino, hfile, hsize⟩ := reports_iff.mp h
    have hnode : w.host.nodes path ≠ none := by
      rw [Host.file_eq_some.mp hfile]
      exact Option.some_ne_none _
    rw [Host.openFile_file hfile heffect]
    by_cases htrunc : flags.trunc
    · simp [htrunc, hfile]
    · simp [htrunc, hfile, hsize, hnode]

/-- A truncate reports the new size unless that is beyond a recorded one. -/
theorem reports_truncate_iff {n : Nat} {res : SyscallResult}
    (hfile : ∃ ino, w.host.file path = some ino) (haligned : n % blockSize = 0)
    (hsized : Sized w.ctx.index) :
    let call := w.host.call res (w.host.truncate path n)
    let r := xmpTruncate w.ctx path n call.2
    r.2 = 0 → (Reports { ctx := r.1, host := call.1 } path n ↔
      ∀ old, w.ctx.index.fileToSizes.lookup path = some old → n ≤ old) := by
  intro call r hret
  obtain ⟨ino, hfile⟩ := hfile
  have hret' : call.2.ret = 0 := by
    rw [← xmpTruncate_ret haligned call.2]
    exact hret
  obtain ⟨h', heffect, hcall⟩ := Host.call_ok hret'
  have hhost : call.1 = w.host.setSize ino n := by
    rw [Host.truncate, Host.file_eq_some.mp hfile] at heffect
    rw [show call = (h', .ok ()) from hcall]
    exact (Except.ok.inj heffect).symm
  have hsizes := (xmpTruncate_shape hsized path haligned call.2).1 path
  rw [if_pos rfl] at hsizes
  rw [reports_iff]
  simp only [hhost, Host.setSize_file, hfile, Option.some.injEq, exists_eq_left',
    Host.setSize_size]
  rw [hsizes]
  cases w.ctx.index.fileToSizes.lookup path with
  | none => simp
  | some old => simp

end

section
variable [Sha512] {w : World} {path : CString} {size : Nat}

/-- A successful aligned write raises the recorded size to its end, unless it is empty. -/
theorem writeDedup_sizes {ctx : Context} {req : WriteRequest} {io : Nat → PwriteResult}
    (hoffset : req.offset % blockSize = 0) (haligned : req.size % blockSize = 0)
    (hret : (writeDedup ctx req io).2 = cInt req.size) (q : CString) :
    (writeDedup ctx req io).1.index.fileToSizes.lookup q =
      if q = req.path ∧ req.size ≠ 0
      then some (max (req.offset + req.size) ((ctx.index.fileToSizes.lookup req.path).getD 0))
      else ctx.index.fileToSizes.lookup q := by
  have hend : (req.startBlock + req.numBlocks) * blockSize = req.offset + req.size := by
    rw [Nat.add_mul, show req.startBlock * blockSize = req.offset from
      Nat.div_mul_cancel (Nat.dvd_of_mod_eq_zero hoffset), show req.numBlocks * blockSize = req.size
      from Nat.div_mul_cancel (Nat.dvd_of_mod_eq_zero haligned)]
  rcases writeDedup_shape ctx req io with
    ⟨⟨hnum, -⟩, -, hwritten⟩ | ⟨⟨-, hzero⟩ | herrno, hsame⟩
  · have hpos : req.size ≠ 0 := by
      intro hzero
      exact hnum (by rw [WriteRequest.numBlocks, hzero, Nat.zero_div])
    rw [hwritten.sizes, hend]
    simp only [hpos, ne_eq, not_false_eq_true, and_true]
  · rw [hsame.sizes, if_neg (by simp [hzero])]
  · exact absurd hret (herrno.ne_cInt haligned)

/-- A write reports the new size unless it records a first size below that of the file. -/
theorem reports_write_iff {req : WriteRequest} {io : Nat → PwriteResult}
    (h : Reports w req.path size) (hoffset : req.offset % blockSize = 0)
    (haligned : req.size % blockSize = 0)
    (hret : ((FsOp.write req io).exec w).2 = cInt req.size) :
    Reports ((FsOp.write req io).exec w).1 req.path
        (if req.size = 0 then size else max size (req.offset + req.size)) ↔
      (w.ctx.index.fileToSizes.lookup req.path = none → req.size ≠ 0 →
        ∀ ino, w.host.file req.path = some ino → w.host.size ino ≤ req.offset + req.size) := by
  obtain ⟨ino, hfile, hsize⟩ := reports_iff.mp h
  simp only [FsOp.exec, hfile] at hret ⊢
  rw [reports_iff]
  simp only [hfile, Option.some.injEq, exists_eq_left', forall_eq',
    writeDedup_sizes hoffset haligned hret]
  by_cases hzero : req.size = 0
  · simp [hzero, hsize]
  · rw [if_pos ⟨trivial, hzero⟩, if_neg hzero, Option.getD_some]
    cases hold : w.ctx.index.fileToSizes.lookup req.path with
    | none =>
      rw [hold, Option.getD_none] at hsize
      simp only [Option.getD_none, Nat.max_zero, hzero, ne_eq, not_false_eq_true, forall_const]
      omega
    | some old =>
      rw [hold, Option.getD_some] at hsize
      simp only [Option.getD_some, reduceCtorEq, false_implies, iff_true]
      omega

/-! ## One call and runs -/

/-- A successful creation or open, aligned write or aligned truncate of `path`. -/
def FsOp.SucceedsOn (path : CString) (w : World) (op : FsOp) : Prop :=
  match op with
  | .create p _ _ | .openFile p _ _ => p = path ∧ (op.exec w).2 = 0
  | .write req _ => req.path = path ∧ req.offset % blockSize = 0 ∧ req.size % blockSize = 0 ∧
    (op.exec w).2 = cInt req.size
  | .truncate p size _ => p = path ∧ 0 ≤ size ∧ size % blockSize = 0 ∧ (op.exec w).2 = 0
  | _ => False

/-- Where the sizes agreed before a call, they agree after it exactly if it keeps them so. -/
theorem FsOp.SucceedsOn.reports_iff {op : FsOp} (hop : op.SucceedsOn path w)
    (hw : WellSized w.ctx.index) (h : w.host.nodes path = none ∨ Reports w path size) :
    Reports (op.exec w).1 path (posixSize w size op) ↔ op.KeepsSizes w := by
  cases op with
  | create p flags res =>
    obtain ⟨rfl, hret⟩ := hop
    exact reports_open_iff h hret
  | openFile p flags res =>
    obtain ⟨rfl, hret⟩ := hop
    exact reports_open_iff h hret
  | write req io =>
    obtain ⟨rfl, hoffset, haligned, hret⟩ := hop
    rcases h with habsent | h
    · simp only [FsOp.exec, Host.file, habsent] at hret
      exact absurd hret ((isErrno_neg ENOENT).ne_cInt haligned)
    · exact reports_write_iff h hoffset haligned hret
  | truncate p newSize res =>
    obtain ⟨rfl, hnonneg, haligned, hret⟩ := hop
    obtain ⟨n, rfl⟩ := Int.eq_ofNat_of_zero_le hnonneg
    have hn : n % blockSize = 0 := by exact_mod_cast haligned
    have hserved : ¬((n : Int) < 0 ∨ (n : Int) % blockSize ≠ 0) := by
      rintro (hneg | hmis)
      · exact absurd hneg (not_lt.mpr hnonneg)
      · exact hmis haligned
    simp only [FsOp.exec, if_neg hserved, Int.toNat_natCast] at hret ⊢
    rcases h with habsent | h
    · obtain ⟨h', heffect, -⟩ := Host.call_ok ((xmpTruncate_ret hn _).symm.trans hret)
      rw [Host.truncate, habsent] at heffect
      cases heffect
    · exact reports_truncate_iff h.1 hn hw.sized hret
  | mkdir p res => exact hop.elim
  | unlink p res => exact hop.elim
  | rename src dst flags res => exact hop.elim
  | link src dst res => exact hop.elim

/-- The calls, next to the size that one file should have. -/
def withPosixSize : TransitionSystem (World × Nat) FsOp where
  init := (.empty, 0)
  step s op := some ((op.exec s.1).1, posixSize s.1 s.2 op)

/-- A successful call on `path` that keeps the sizes in agreement. -/
def KeepsSizesOn (path : CString) (s : World × Nat) (op : FsOp) (_ : World × Nat) : Prop :=
  op.SucceedsOn path s.1 ∧ op.KeepsSizes s.1

/-- From a state without the file on, the size reported for it is the POSIX size after each
    call. -/
theorem reported_size_is_posix {P : World → FsOp → World → Prop} {w₀ : World}
    (h₀ : filesystem.Reachable P w₀) (habsent : w₀.host.nodes path = none)
    (hrun : withPosixSize.Run (KeepsSizesOn path) (w₀, 0) (w, size)) :
    (w, size) = (w₀, 0) ∨ Reports w path size := by
  have hboth := hrun.invariant
    (I := fun s => WellSized s.1.ctx.index ∧ (s = (w₀, 0) ∨ Reports s.1 path s.2)) ?_
    ⟨wellSized_filesystem h₀, .inl rfl⟩
  · exact hboth.2
  · rintro s op s' ⟨hw, hs⟩ hstep ⟨hop, hkeeps⟩
    obtain rfl := Option.some.inj hstep
    have habsent_or : s.1.host.nodes path = none ∨ Reports s.1 path s.2 := by
      rcases hs with rfl | hs
      · exact .inl habsent
      · exact .inr hs
    exact ⟨wellSized_exec hw op, .inr ((hop.reports_iff hw habsent_or).mpr hkeeps)⟩

end

instance [Sha512] (path : CString) (w : World) (op : FsOp) : Decidable (op.SucceedsOn path w) :=
  match op with
  | .create .. | .openFile .. | .write .. | .truncate .. => inferInstanceAs (Decidable (_ ∧ _))
  | .mkdir .. | .unlink .. | .rename .. | .link .. => .isFalse id

instance (w : World) (op : FsOp) : Decidable (op.KeepsSizes w) :=
  match op with
  | .create .. | .openFile .. => inferInstanceAs (Decidable (_ → _))
  | .write req _ => inferInstanceAs (Decidable (_ → _ → ∀ ino ∈ w.host.file req.path, _))
  | .truncate path .. =>
    inferInstanceAs (Decidable (∀ old ∈ w.ctx.index.fileToSizes.lookup path, _))
  | .mkdir .. | .unlink .. | .rename .. | .link .. => .isTrue trivial

instance [Sha512] (path : CString) (s : World × Nat) (op : FsOp) (s' : World × Nat) :
    Decidable (KeepsSizesOn path s op s') := inferInstanceAs (Decidable (_ ∧ _))

def createFlags : OpenFlags where
  creat := true
  excl := true
  trunc := false

/-- The file `a` is created, two blocks of zeros are written to it, and the second is cut off. -/
def createWriteShrink : List FsOp :=
  [.create pathA createFlags (.ok ()),
    .write (.zeros pathA 0 2) fun _ => .complete,
    .truncate pathA 4096 (.ok ())]

theorem createWriteShrink_enabled :
    ((@withPosixSize Sha512.zeroBlock).replay
      (fun s op s' => @decide (@KeepsSizesOn Sha512.zeroBlock pathA s op s') inferInstance)
      (.empty, 0) createWriteShrink).isSome := by
  decide +kernel

def afterShrink : World × Nat :=
  ((@withPosixSize Sha512.zeroBlock).replay
    (fun s op s' => @decide (@KeepsSizesOn Sha512.zeroBlock pathA s op s') inferInstance)
    (.empty, 0) createWriteShrink).get createWriteShrink_enabled

theorem reported_size_is_posix_of_afterShrink :
    (afterShrink.1, afterShrink.2) = (.empty, 0) ∨
      Reports afterShrink.1 pathA afterShrink.2 := by
  let _ := Sha512.zeroBlock
  exact reported_size_is_posix (P := fun _ _ _ => True) .refl rfl
    (.of_replay (fun _ _ _ _ hc => of_decide_eq_true hc)
      (Option.some_get createWriteShrink_enabled).symm)

/-- The file `a` is created, one block is written to it, and it is grown to two. -/
def createWriteGrow : List FsOp :=
  [.create pathA createFlags (.ok ()),
    .write (.zeros pathA 0 1) fun _ => .complete,
    .truncate pathA 8192 (.ok ())]

theorem createWriteGrow_enabled :
    ((@withPosixSize Sha512.zeroBlock).replay
      (fun s op _ => @decide (@FsOp.SucceedsOn Sha512.zeroBlock pathA s.1 op) inferInstance)
      (.empty, 0) createWriteGrow).isSome := by
  decide +kernel

def afterGrow : World × Nat :=
  ((@withPosixSize Sha512.zeroBlock).replay
    (fun s op _ => @decide (@FsOp.SucceedsOn Sha512.zeroBlock pathA s.1 op) inferInstance)
    (.empty, 0) createWriteGrow).get createWriteGrow_enabled

/-- After `xmp_truncate` to 8192 the file below has that size, but the index still has 4096. -/
theorem not_reported_size_is_posix :
    (@withPosixSize Sha512.zeroBlock).Run
      (fun s op _ => @FsOp.SucceedsOn Sha512.zeroBlock pathA s.1 op) (.empty, 0) afterGrow ∧
    afterGrow.2 = 8192 ∧ afterGrow.1.host.lstat pathA = .ok 8192 ∧
    xmpGetattr afterGrow.1 pathA = .ok 4096 ∧ ¬Reports afterGrow.1 pathA afterGrow.2 := by
  have hposix : afterGrow.2 = 8192 := by decide +kernel
  have hreported : xmpGetattr afterGrow.1 pathA = .ok 4096 := by decide +kernel
  refine ⟨.of_replay (fun _ _ _ _ hc => of_decide_eq_true hc)
    (Option.some_get createWriteGrow_enabled).symm, hposix, by decide +kernel, hreported, ?_⟩
  rintro ⟨-, hsize⟩
  rw [hreported, hposix] at hsize
  cases hsize

end DedupBlockFS
