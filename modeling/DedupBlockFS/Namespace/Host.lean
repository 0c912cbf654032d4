-- SUMMARY: The file system below the handlers: names, inodes and their sizes, and the system calls on them.
import DedupBlockFS.Metaindex

/-!
# The underlying file system

The handlers pass most of what they do on to the file system they are mounted over. As far
as the index is concerned that is a map from paths to files and directories, where several
paths may name one file, and the size of each file. Its content is never used.

A call may fail for reasons that are not modelled, such as permissions, a missing parent or a
directory that is not empty. Whether it does is up to the environment, so the calls below
say what happens when nothing of this kind stands in the way.
-/

namespace DedupBlockFS

open ByteFile

def EPERM : Errno := ⟨1, by decide, by decide⟩
def ENOENT : Errno := ⟨2, by decide, by decide⟩
def EEXIST : Errno := ⟨17, by decide, by decide⟩
def ENOTDIR : Errno := ⟨20, by decide, by decide⟩
def EISDIR : Errno := ⟨21, by decide, by decide⟩
def EINVAL : Errno := ⟨22, by decide, by decide⟩
def ENOTEMPTY : Errno := ⟨39, by decide, by decide⟩

abbrev Inode := Nat

/-- What a path names. -/
inductive Node where
  | dir
  | file (ino : Inode)
  deriving DecidableEq

/-- The flags of `open` that matter here. -/
structure OpenFlags where
  creat : Bool
  excl : Bool
  trunc : Bool
  deriving DecidableEq

/-- The names, the size of each file, and the first inode that has not been used. -/
structure Host where
  nodes : CString → Option Node
  size : Inode → Nat
  next : Inode

/-! ## Paths -/

namespace CString

/-- `q` is `p`, or lies in the directory `p`. -/
def Under (p q : CString) : Prop :=
  p.bytes <+: q.bytes ∧
    (q.bytes.drop p.bytes.length = [] ∨ (q.bytes.drop p.bytes.length).head? = some 47)

instance (p q : CString) : Decidable (p.Under q) := inferInstanceAs (Decidable (_ ∧ _))

theorem Under.refl (p : CString) : p.Under p :=
  ⟨List.prefix_rfl, .inl (List.drop_length)⟩

/-- `q` with `p'` in place of its first part `p`. -/
def rebase (p p' q : CString) : CString where
  bytes := p'.bytes ++ q.bytes.drop p.bytes.length
  noNul hmem := (List.mem_append.mp hmem).elim p'.noNul fun h => q.noNul (List.mem_of_mem_drop h)

theorem Under.rebase {p q : CString} (p' : CString) (h : p.Under q) : p'.Under (p.rebase p' q) := by
  simp only [Under, CString.rebase, List.prefix_append, List.drop_left, true_and]
  exact h.2

end CString

namespace Host

/-- No files and no directories. -/
def empty : Host where
  nodes := fun _ => none
  size := fun _ => 0
  next := 0

variable (h : Host)

/-- The inode of the file at `path`. -/
def file (path : CString) : Option Inode :=
  match h.nodes path with
  | some (.file ino) => some ino
  | _ => none

/-- The size of a directory, which means nothing. -/
def dirSize : Nat := 4096

/-- The `st_size` that `lstat` reports. -/
def lstat (path : CString) : Except Errno Nat :=
  match h.nodes path with
  | none => .error ENOENT
  | some .dir => .ok dirSize
  | some (.file ino) => .ok (h.size ino)

def setSize (ino : Inode) (size : Nat) : Host :=
  { h with size := Function.update h.size ino size }

/-- `open`: a new file gets a fresh inode, an old one is cut off if the flags say so. -/
def openFile (path : CString) (flags : OpenFlags) : Except Errno Host :=
  match h.nodes path with
  | none =>
    if flags.creat then
      .ok { nodes := Function.update h.nodes path (some (.file h.next))
            size := Function.update h.size h.next 0
            next := h.next + 1 }
    else .error ENOENT
  | some node =>
    if flags.creat ∧ flags.excl then .error EEXIST else
    match node with
    | .dir => if flags.creat ∨ flags.trunc then .error EISDIR else .ok h
    | .file ino => .ok (if flags.trunc then h.setSize ino 0 else h)

def mkdir (path : CString) : Except Errno Host :=
  match h.nodes path with
  | none => .ok { h with nodes := Function.update h.nodes path (some .dir) }
  | some _ => .error EEXIST

def truncate (path : CString) (size : Nat) : Except Errno Host :=
  match h.nodes path with
  | none => .error ENOENT
  | some .dir => .error EISDIR
  | some (.file ino) => .ok (h.setSize ino size)

def unlink (path : CString) : Except Errno Host :=
  match h.nodes path with
  | none => .error ENOENT
  | some .dir => .error EISDIR
  | some (.file _) => .ok { h with nodes := Function.update h.nodes path none }

/-- `link`: another name for the same file. -/
def link (src dst : CString) : Except Errno Host :=
  match h.nodes src, h.nodes dst with
  | none, _ => .error ENOENT
  | some _, some _ => .error EEXIST
  | some .dir, none => .error EPERM
  | some (.file ino), none => .ok { h with nodes := Function.update h.nodes dst (some (.file ino)) }

/-- The names after `src` has become `dst`: a directory takes along what lies in it, and
    what was at `dst` is gone. -/
def moved (src dst : CString) : CString → Option Node := fun q =>
  if dst.Under q then h.nodes (dst.rebase src q)
  else if src.Under q then none
  else h.nodes q

/-- `rename`. If both names are the same file nothing happens. -/
def rename (src dst : CString) : Except Errno Host :=
  match h.nodes src, h.nodes dst with
  | none, _ => .error ENOENT
  | some (.file ino), some (.file ino') =>
    if ino = ino' then .ok h else .ok { h with nodes := h.moved src dst }
  | some (.file _), some .dir => .error EISDIR
  | some .dir, some (.file _) => .error ENOTDIR
  | some .dir, _ =>
    if src = dst then .ok h
    else if src.Under dst then .error EINVAL
    else if dst.Under src then .error ENOTEMPTY
    else .ok { h with nodes := h.moved src dst }
  | some (.file _), none => .ok { h with nodes := h.moved src dst }

end Host

end DedupBlockFS
