-- SUMMARY: The FUSE handlers over both the index and the underlying file system, and sequential runs of them.
import DedupBlockFS.Namespace.Host
import DedupBlockFS.Sequential.Refinement
import DedupBlockFS.Sequential.Shape

/-!
# Handlers and names

Of the handlers of `passthrough.c` that create, move or size files, only the three that were
modelled before look at the index; `xmp_create`, `xmp_open`, `xmp_mkdir`, `xmp_rename` and
`xmp_link` make their system call and nothing else. The index is keyed by path.
-/

namespace DedupBlockFS

open ByteFile

/-- The mounted file system: its context, and the file system it is mounted over. -/
structure World where
  ctx : Context
  host : Host

def World.empty : World where
  ctx := .empty
  host := .empty

/-- A system call that fails with `res`, or else does what the names and sizes say. -/
def Host.call (h : Host) (res : SyscallResult) (effect : Except Errno Host) :
    Host × SyscallResult :=
  match res, effect with
  | .error e, _ => (h, .error e)
  | .ok _, .error e => (h, .error e)
  | .ok _, .ok h' => (h', .ok ())

/-- A handler that only makes its system call. -/
def World.passthrough (w : World) (res : SyscallResult) (effect : Except Errno Host) :
    World × Int :=
  let r := w.host.call res effect
  ({ w with host := r.1 }, r.2.ret)

/-- `xmp_getattr`: the size it reports, or its error. -/
def xmpGetattr (w : World) (path : CString) : Except Errno Nat :=
  match w.host.lstat path with
  | .error e => .error e
  | .ok stSize => .ok ((w.ctx.index.fileToSizes.lookup path).getD stSize)

/-- `xmp_create`. -/
def xmpCreate (w : World) (path : CString) (flags : OpenFlags) (res : SyscallResult) :
    World × Int :=
  w.passthrough res (w.host.openFile path flags)

/-- `xmp_open`. -/
def xmpOpen (w : World) (path : CString) (flags : OpenFlags) (res : SyscallResult) : World × Int :=
  w.passthrough res (w.host.openFile path flags)

/-- `xmp_mkdir`. -/
def xmpMkdir (w : World) (path : CString) (res : SyscallResult) : World × Int :=
  w.passthrough res (w.host.mkdir path)

/-- `xmp_rename`; the path `from` is `src` and `to` is `dst`. -/
def xmpRename (w : World) (src dst : CString) (flags : Nat) (res : SyscallResult) : World × Int :=
  if flags ≠ 0 then (w, Errno.neg EINVAL) else
  w.passthrough res (w.host.rename src dst)

/-- `xmp_link`. -/
def xmpLink (w : World) (src dst : CString) (res : SyscallResult) : World × Int :=
  w.passthrough res (w.host.link src dst)

/-- A call of the file system, with what the environment answers to its system calls. -/
inductive FsOp where
  | create (path : CString) (flags : OpenFlags) (res : SyscallResult)
  | openFile (path : CString) (flags : OpenFlags) (res : SyscallResult)
  | mkdir (path : CString) (res : SyscallResult)
  | write (req : WriteRequest) (io : Nat → PwriteResult)
  | truncate (path : CString) (size : Int) (res : SyscallResult)
  | unlink (path : CString) (res : SyscallResult)
  | rename (src dst : CString) (flags : Nat) (res : SyscallResult)
  | link (src dst : CString) (res : SyscallResult)

variable [Sha512]

/-- Execute one call, as libfuse sends it. It sends no write for a directory nor for a file
    that has lost its name, so the write of a path without a file stands for a failing
    lookup before it; `xmp_write` itself, which is given the open file, never looks at the
    path. `xmp_truncate` makes no system call when it refuses the size. -/
def FsOp.exec (w : World) : FsOp → World × Int
  | .create path flags res => xmpCreate w path flags res
  | .openFile path flags res => xmpOpen w path flags res
  | .mkdir path res => xmpMkdir w path res
  | .write req io =>
    match w.host.file req.path with
    | none => (w, Errno.neg ENOENT)
    | some _ =>
      let r := writeDedup w.ctx req io
      ({ w with ctx := r.1 }, r.2)
  | .truncate path size res =>
    let call := if size < 0 ∨ size % blockSize ≠ 0 then (w.host, res)
      else w.host.call res (w.host.truncate path size.toNat)
    let r := xmpTruncate w.ctx path size call.2
    ({ ctx := r.1, host := call.1 }, r.2)
  | .unlink path res =>
    let call := w.host.call res (w.host.unlink path)
    let r := xmpUnlink w.ctx path call.2
    ({ ctx := r.1, host := call.1 }, r.2)
  | .rename src dst flags res => xmpRename w src dst flags res
  | .link src dst res => xmpLink w src dst res

/-- One call after the other, from the empty file system. -/
def filesystem : TransitionSystem World FsOp where
  init := .empty
  step w op := some (op.exec w).1

/-! ## System calls -/

section
omit [Sha512]
variable {w : World} {h : Host} {res : SyscallResult} {effect : Except Errno Host}

/-- A call that returns 0 has had its effect. -/
theorem Host.call_ok (hret : (h.call res effect).2.ret = 0) :
    ∃ h', effect = .ok h' ∧ h.call res effect = (h', .ok ()) := by
  unfold Host.call at hret ⊢
  split at hret
  · rename_i e
    exact absurd hret (isErrno_neg e).2.ne
  · rename_i e
    exact absurd hret (isErrno_neg e).2.ne
  · rename_i h'
    exact ⟨h', rfl, rfl⟩

theorem World.passthrough_ok (hret : (w.passthrough res effect).2 = 0) :
    ∃ h', effect = .ok h' ∧ (w.passthrough res effect).1 = { w with host := h' } := by
  obtain ⟨h', heffect, hcall⟩ := Host.call_ok hret
  refine ⟨h', heffect, ?_⟩
  simp only [World.passthrough, hcall]

@[simp] theorem World.passthrough_ctx : (w.passthrough res effect).1.ctx = w.ctx := rfl

theorem Host.file_eq_some {path : CString} {ino : Inode} :
    h.file path = some ino ↔ h.nodes path = some (.file ino) := by
  unfold Host.file
  split
  · rename_i ino' hnode
    rw [hnode, Option.some.injEq, Option.some.injEq, Node.file.injEq]
  · rename_i hnot
    simp only [reduceCtorEq, false_iff]
    exact hnot ino

/-- For a file `xmp_getattr` reports the recorded size, or else that of the file below. -/
theorem xmpGetattr_file {path : CString} {ino : Inode} (hfile : w.host.file path = some ino) :
    xmpGetattr w path = .ok ((w.ctx.index.fileToSizes.lookup path).getD (w.host.size ino)) := by
  rw [Host.file_eq_some] at hfile
  simp only [xmpGetattr, Host.lstat, hfile]

end

/-! ## What the index sees -/

/-- The call that the index sees of one of the file system, if any. -/
def FsOp.onIndex (w : World) : FsOp → Option Op
  | .write req io => (w.host.file req.path).map fun _ => .write req io
  | .truncate path size res =>
    some (.truncate path size (if size < 0 ∨ size % blockSize ≠ 0 then res
      else (w.host.call res (w.host.truncate path size.toNat)).2))
  | .unlink path res => some (.unlink path (w.host.call res (w.host.unlink path)).2)
  | _ => none

theorem FsOp.exec_ctx (w : World) (op : FsOp) :
    (op.exec w).1.ctx = (op.onIndex w).elim w.ctx fun o => (o.exec w.ctx).1 := by
  cases op with
  | create path flags res => rfl
  | openFile path flags res => rfl
  | mkdir path res => rfl
  | write req io =>
    simp only [FsOp.exec, FsOp.onIndex]
    cases w.host.file req.path with
    | none => rfl
    | some ino => rfl
  | truncate path size res =>
    simp only [FsOp.exec, FsOp.onIndex]
    split
    · rfl
    · rfl
  | unlink path res => rfl
  | rename src dst flags res =>
    simp only [FsOp.exec, FsOp.onIndex, xmpRename]
    split
    · rfl
    · rfl
  | link src dst res => rfl

variable {W : List UInt8 → Prop} {P : World → FsOp → World → Prop} {w w' : World} {op : FsOp}

/-- What every call that the index sees preserves is preserved by every call. -/
theorem FsOp.exec_preserves {I : Context → Prop} (hI : I w.ctx)
    (hstep : ∀ o, op.onIndex w = some o → I (o.exec w.ctx).1) : I (op.exec w).1.ctx := by
  rw [FsOp.exec_ctx]
  cases hseen : op.onIndex w with
  | none => exact hI
  | some o => exact hstep o hseen

/-- Whatever the calls are, mapped blocks stay below the recorded sizes. -/
theorem wellSized_exec (hw : WellSized w.ctx.index) (op : FsOp) :
    WellSized (op.exec w).1.ctx.index :=
  FsOp.exec_preserves (I := fun ctx => WellSized ctx.index) hw fun o _ => hw.exec o

theorem wellSized_filesystem (h : filesystem.Reachable P w) : WellSized w.ctx.index :=
  h.invariant (I := fun w => WellSized w.ctx.index) .empty fun _ op _ hw hstep _ =>
    Option.some.inj hstep ▸ wellSized_exec hw op

/-- If the index sees a write, it leaves fewer than 2^32 references to any one block and its
    blocks are among `W`. -/
def FsOp.RoomyIn (W : List UInt8 → Prop) (w : World) (op : FsOp) (_ : World) : Prop :=
  ∀ o, op.onIndex w = some o → o.HasRoom w.ctx ∧ o.BlocksIn W

theorem FsOp.RoomyIn.quiet (h : op.RoomyIn W w w') (hq : Quiet W w.ctx) :
    Quiet W (op.exec w).1.ctx :=
  FsOp.exec_preserves hq fun o hseen => hq.exec (h o hseen).1 (h o hseen).2

theorem quiet_filesystem (h : filesystem.Reachable (FsOp.RoomyIn W) w) : Quiet W w.ctx :=
  h.invariant (I := fun w => Quiet W w.ctx) .empty fun _ _ _ hq hstep hroomy =>
    Option.some.inj hstep ▸ hroomy.quiet hq

end DedupBlockFS
