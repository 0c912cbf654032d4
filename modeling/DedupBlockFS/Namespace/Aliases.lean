-- SUMMARY: Which runs of calls on names leave an index by path that agrees with the files by inode.
import DedupBlockFS.Namespace.LogicalSize

/-!
# Names and inodes

The file system below knows files by inode, and several paths may be names of one. The index
knows them by path, and `xmp_rename` and `xmp_link` do not tell it. `Follows` says that what
the index has under each name is what was last written to its inode; it is kept by every call
that moves or adds no name with something in the index, and by writes to files with one name.
-/

namespace DedupBlockFS

open ByteFile

/-- What was last written to each file, and how far. -/
structure Inodes where
  content : Inode → Nat → Option (List UInt8)
  size : Inode → Nat

namespace Inodes

def empty : Inodes where
  content := fun _ _ => none
  size := fun _ => 0

variable (F : Inodes)

/-- A new file at `ino`. -/
def create (ino : Inode) : Inodes where
  content := Function.update F.content ino fun _ => none
  size := Function.update F.size ino 0

def write (ino : Inode) (req : WriteRequest) : Inodes where
  content := Function.update F.content ino fun b =>
    if req.startBlock ≤ b ∧ b < req.startBlock + req.numBlocks
    then some (req.block (b - req.startBlock)) else F.content ino b
  size := Function.update F.size ino
    (if req.size = 0 then F.size ino else max (F.size ino) (req.offset + req.size))

variable {F}

@[simp] theorem create_content {ino i : Inode} {b : Nat} :
    (F.create ino).content i b = if i = ino then none else F.content i b := by
  simp only [create, Function.update_apply]
  split
  · rfl
  · rfl

@[simp] theorem create_size {ino i : Inode} :
    (F.create ino).size i = if i = ino then 0 else F.size i := Function.update_apply ..

@[simp] theorem write_content {ino i : Inode} {req : WriteRequest} {b : Nat} :
    (F.write ino req).content i b =
      if i = ino ∧ req.startBlock ≤ b ∧ b < req.startBlock + req.numBlocks
      then some (req.block (b - req.startBlock)) else F.content i b := by
  simp only [write, Function.update_apply]
  by_cases hi : i = ino
  · simp [hi]
  · simp [hi]

@[simp] theorem write_size {ino i : Inode} {req : WriteRequest} :
    (F.write ino req).size i = if i = ino ∧ req.size ≠ 0
      then max (F.size ino) (req.offset + req.size) else F.size i := by
  simp only [write, Function.update_apply]
  by_cases hi : i = ino
  · simp [hi]
  · simp [hi]

variable (F)

/-- What a successful call means for the files. -/
def apply (w : World) : FsOp → Inodes
  | .create .. => F.create w.host.next
  | .write req _ => (w.host.file req.path).elim F fun ino => F.write ino req
  | _ => F

/-- The files by path: each name has what its inode has. -/
def view (h : Host) : Files := fun k => (h.file k.path).bind fun ino => F.content ino k.offset

end Inodes

/-! ## Calls -/

section
variable [Sha512]

/-- A successful creation of a file or directory, aligned write, rename, link or unlink. -/
def FsOp.Succeeds (w : World) (op : FsOp) : Prop :=
  match op with
  | .create path _ _ => w.host.nodes path = none ∧ (op.exec w).2 = 0
  | .write req _ => req.offset % blockSize = 0 ∧ req.size % blockSize = 0 ∧
    (op.exec w).2 = cInt req.size
  | .mkdir .. | .rename .. | .link .. | .unlink .. => (op.exec w).2 = 0
  | .openFile .. | .truncate .. => False

/-- The call does not take names and index apart: what is written has one name, and neither
    what is moved, nor what it replaces, nor what gets a second name has a size in the index. -/
def FsOp.KeepsNames (w : World) : FsOp → Prop
  | .write req _ => req.size = 0 ∨ ∀ q, w.host.file q = w.host.file req.path → q = req.path
  | .rename src dst _ _ => src = dst ∨
    (w.host.file src = w.host.file dst ∧ w.host.file src ≠ none) ∨
    ∀ q, src.Under q ∨ dst.Under q → w.ctx.index.fileToSizes.lookup q = none
  | .link src _ _ => w.ctx.index.fileToSizes.lookup src = none
  | _ => True

/-- The calls, next to what they mean for the files. -/
def withInodes : TransitionSystem (World × Inodes) FsOp where
  init := (.empty, .empty)
  step s op := some ((op.exec s.1).1, s.2.apply s.1 op)

/-- The index follows the names: under each name of a file it has what was last written to the
    file, and nothing under any other path. -/
structure Follows (W : List UInt8 → Prop) (w : World) (F : Inodes) : Prop where
  represents : Represents W w.ctx (F.view w.host)
  wellSized : WellSized w.ctx.index
  absent : ∀ p, w.host.file p = none → w.ctx.index.fileToSizes.lookup p = none
  named : ∀ p ino, w.host.file p = some ino → ino < w.host.next ∧ w.host.size ino = 0 ∧
    (w.ctx.index.fileToSizes.lookup p).getD 0 = F.size ino

variable {W : List UInt8 → Prop} {w w' : World} {F : Inodes} {h h' : Host} {path : CString}

theorem Follows.empty : Follows W .empty .empty where
  represents := .empty
  wellSized := .empty
  absent _ _ := rfl
  named p ino hfile := by cases hfile

/-- A path without a size in the index names nothing or a file that was never written. -/
theorem Follows.view_of_unrecorded (hf : Follows W w F)
    (hsize : w.ctx.index.fileToSizes.lookup path = none) (b : Nat) :
    F.view w.host ⟨path, b⟩ = none := by
  have hunmapped : w.ctx.index.fileToMaster.lookup ⟨path, b⟩ = none :=
    not_not.mp (hf.wellSized.sized.unmapped (by rw [hsize, Option.getD_none]) b)
  have hcontents := hf.represents.contents ⟨path, b⟩
  rw [DedupBlockFS.contents, hunmapped, Option.map_none] at hcontents
  exact Option.map_eq_none_iff.mp hcontents.symm

/-- Names without a size in the index may come, go and move. -/
theorem Follows.names (hf : Follows W w F) (hsize : h.size = w.host.size)
    (hnext : h.next = w.host.next)
    (hnames : ∀ p, h.file p = w.host.file p ∨ w.ctx.index.fileToSizes.lookup p = none ∧
      ∀ ino, h.file p = some ino →
        ∃ q, w.host.file q = some ino ∧ w.ctx.index.fileToSizes.lookup q = none) :
    Follows W { w with host := h } F := by
  have hview : F.view h = F.view w.host := by
    funext k
    obtain ⟨p, b⟩ := k
    rcases hnames p with hsame | ⟨hnone, hmoved⟩
    · rw [Inodes.view, hsame, Inodes.view]
    · rw [hf.view_of_unrecorded hnone, Inodes.view]
      cases hfile : h.file p with
      | none => rfl
      | some ino =>
        obtain ⟨q, hq, hqnone⟩ := hmoved ino hfile
        have hqview := hf.view_of_unrecorded hqnone b
        rw [Inodes.view, hq] at hqview
        exact hqview
  refine ⟨?_, hf.wellSized, fun p hp => ?_, fun p ino hp => ?_⟩
  · show Represents W w.ctx (F.view h)
    rw [hview]
    exact hf.represents
  · rcases hnames p with hsame | ⟨hnone, -⟩
    · exact hf.absent p (hsame.symm.trans hp)
    · exact hnone
  · show ino < h.next ∧ h.size ino = 0 ∧ _
    rw [hsize, hnext]
    rcases hnames p with hsame | ⟨hnone, hmoved⟩
    · exact hf.named p ino (hsame.symm.trans hp)
    · obtain ⟨q, hq, hqnone⟩ := hmoved ino hp
      obtain ⟨hlt, hzero, hsame⟩ := hf.named q ino hq
      refine ⟨hlt, hzero, ?_⟩
      rw [← hsame, hqnone, hnone]

/-! ## The system calls -/

omit [Sha512] in
theorem Host.file_update (nodes : CString → Option Node) (size : Inode → Nat) (next : Inode)
    (node : Option Node) (p : CString) :
    (Host.mk (Function.update nodes path node) size next).file p =
      if p = path then (Host.mk (fun _ => node) size next).file p
      else (Host.mk nodes size next).file p := by
  by_cases hp : p = path
  · simp [Host.file, hp]
  · simp [Host.file, hp]

omit [Sha512] in
/-- A successful rename leaves the names as they are or moves them, and it leaves them if both
    name the same. -/
theorem Host.rename_ok {src dst : CString} (hok : h.rename src dst = .ok h') :
    h' = h ∨ h' = { h with nodes := h.moved src dst } ∧ src ≠ dst ∧
      (h.file src = h.file dst → h.file src = none) := by
  unfold Host.rename at hok
  split at hok
  · cases hok
  · rename_i ino ino' hsrc hdst
    split at hok
    · exact .inl (Except.ok.inj hok).symm
    · rename_i hne
      refine .inr ⟨(Except.ok.inj hok).symm, ?_, ?_⟩
      · rintro rfl
        exact hne (Node.file.inj (Option.some.inj (hsrc.symm.trans hdst)))
      · rw [Host.file_eq_some.mpr hsrc, Host.file_eq_some.mpr hdst]
        exact fun heq => absurd (Option.some.inj heq) hne
  · cases hok
  · cases hok
  · rename_i hsrc _
    have hnone : h.file src = none := by simp only [Host.file, hsrc]
    split at hok
    · exact .inl (Except.ok.inj hok).symm
    · rename_i hne
      split at hok
      · cases hok
      · split at hok
        · cases hok
        · exact .inr ⟨(Except.ok.inj hok).symm, hne, fun _ => hnone⟩
  · rename_i ino hsrc hdst
    refine .inr ⟨(Except.ok.inj hok).symm, ?_, ?_⟩
    · rintro rfl
      cases hsrc.symm.trans hdst
    · rw [Host.file_eq_some.mpr hsrc, show h.file dst = none by simp only [Host.file, hdst]]
      exact id

/-! ## What each call preserves -/

/-- A new file is empty and gets an inode of its own. -/
theorem Follows.create (hf : Follows W w F) {flags : OpenFlags} (habsent : w.host.nodes path = none)
    (hok : w.host.openFile path flags = .ok h') :
    Follows W { w with host := h' } (F.create w.host.next) := by
  have hnofile : w.host.file path = none := by simp only [Host.file, habsent]
  have hnew : h' = ⟨Function.update w.host.nodes path (some (.file w.host.next)),
      Function.update w.host.size w.host.next 0, w.host.next + 1⟩ := by
    simp only [Host.openFile, habsent] at hok
    split at hok
    · exact (Except.ok.inj hok).symm
    · cases hok
  have hfile : ∀ p, h'.file p = if p = path then some w.host.next else w.host.file p := by
    intro p
    rw [hnew, Host.file_update]
    rfl
  have hother : ∀ p ino, w.host.file p = some ino → ino ≠ w.host.next := fun p ino hp =>
    (hf.named p ino hp).1.ne
  have hview : (F.create w.host.next).view h' = F.view w.host := by
    funext k
    obtain ⟨p, b⟩ := k
    simp only [Inodes.view, hfile]
    split
    · rename_i hp
      rw [hp, hnofile, Option.bind_some, Option.bind_none, Inodes.create_content, if_pos rfl]
    · cases hp : w.host.file p with
      | none => rfl
      | some ino =>
        rw [Option.bind_some, Option.bind_some, Inodes.create_content, if_neg (hother p ino hp)]
  refine ⟨?_, hf.wellSized, fun p hp => ?_, fun p ino hp => ?_⟩
  · show Represents W w.ctx ((F.create w.host.next).view h')
    rw [hview]
    exact hf.represents
  · replace hp : h'.file p = none := hp
    rw [hfile] at hp
    split at hp
    · cases hp
    · exact hf.absent p hp
  · replace hp : h'.file p = some ino := hp
    show ino < h'.next ∧ h'.size ino = 0 ∧ _
    rw [hfile] at hp
    rw [hnew]
    split at hp
    · rename_i hpath
      obtain rfl := Option.some.inj hp
      refine ⟨Nat.lt_succ_self _, Function.update_self .., ?_⟩
      rw [hpath, hf.absent path hnofile, Inodes.create_size, if_pos rfl, Option.getD_none]
    · obtain ⟨hlt, hzero, hsame⟩ := hf.named p ino hp
      refine ⟨hlt.trans (Nat.lt_succ_self _), ?_, ?_⟩
      · exact (Function.update_of_ne hlt.ne _ _).trans hzero
      · rw [Inodes.create_size, if_neg hlt.ne]
        exact hsame

/-- A write goes to the only name of its file. -/
theorem Follows.write (hf : Follows W w F) {req : WriteRequest} {io : Nat → PwriteResult}
    (hoffset : req.offset % blockSize = 0) (haligned : req.size % blockSize = 0)
    (hret : ((FsOp.write req io).exec w).2 = cInt req.size)
    (hname : req.size = 0 ∨ ∀ q, w.host.file q = w.host.file req.path → q = req.path)
    (hroomy : (FsOp.write req io).RoomyIn W w w') :
    Follows W ((FsOp.write req io).exec w).1 (F.apply w (.write req io)) := by
  cases hfile : w.host.file req.path with
  | none =>
    simp only [FsOp.exec, hfile] at hret
    exact absurd hret ((isErrno_neg ENOENT).ne_cInt haligned)
  | some ino =>
    obtain ⟨hroom, hblocks⟩ := hroomy (.write req io) (by rw [FsOp.onIndex, hfile]; rfl)
    simp only [FsOp.exec, hfile, Inodes.apply, Option.elim_some] at hret ⊢
    have honly : ∀ p, w.host.file p = some ino → req.size ≠ 0 → p = req.path := fun p hp hsize =>
      hname.resolve_left hsize p (hp.trans hfile.symm)
    have hview : (F.write ino req).view w.host = (F.view w.host).write req := by
      funext k
      obtain ⟨p, b⟩ := k
      simp only [Inodes.view, Files.write]
      by_cases hin : p = req.path ∧ req.startBlock ≤ b ∧ b < req.startBlock + req.numBlocks
      · rw [if_pos hin, hin.1, hfile, Option.bind_some, Inodes.write_content, if_pos ⟨rfl, hin.2⟩]
      · rw [if_neg hin]
        cases hp : w.host.file p with
        | none => rfl
        | some i =>
          rw [Option.bind_some, Option.bind_some, Inodes.write_content, if_neg]
          rintro ⟨rfl, hrange⟩
          refine hin ⟨honly p hp ?_, hrange⟩
          intro hzero
          simp only [WriteRequest.numBlocks, hzero, Nat.zero_div] at hrange
          omega
    have happly : (F.view w.host).apply (.write req io) (writeDedup w.ctx req io).2 =
        (F.write ino req).view w.host := by
      rw [hview]
      exact if_pos ⟨haligned, hret⟩
    have hr : Represents W (writeDedup w.ctx req io).1 ((F.write ino req).view w.host) :=
      happly ▸ hf.represents.exec (show Op.HasRoom w.ctx (.write req io) from hroom) hblocks
    refine ⟨hr, hf.wellSized.exec (.write req io), fun p hp => ?_, fun p i hp => ?_⟩
    · show (writeDedup w.ctx req io).1.index.fileToSizes.lookup p = none
      rw [writeDedup_sizes hoffset haligned hret, if_neg]
      · exact hf.absent p hp
      · rintro ⟨rfl, -⟩
        cases hp.symm.trans hfile
    · obtain ⟨hlt, hzero, hsame⟩ := hf.named p i hp
      refine ⟨hlt, hzero, ?_⟩
      show ((writeDedup w.ctx req io).1.index.fileToSizes.lookup p).getD 0 = _
      rw [writeDedup_sizes hoffset haligned hret, Inodes.write_size]
      by_cases hwritten : p = req.path ∧ req.size ≠ 0
      · obtain ⟨rfl, hsize⟩ := hwritten
        obtain rfl := Option.some.inj (hp.symm.trans hfile)
        rw [if_pos ⟨rfl, hsize⟩, if_pos ⟨rfl, hsize⟩, Option.getD_some, hsame, max_comm]
      · rw [if_neg hwritten, if_neg, hsame]
        rintro ⟨rfl, hsize⟩
        exact hwritten ⟨honly p hp hsize, hsize⟩

/-- An unlink removes a name and what the index has under it. -/
theorem Follows.unlink (hf : Follows W w F) {res : SyscallResult}
    (hret : ((FsOp.unlink path res).exec w).2 = 0) :
    Follows W ((FsOp.unlink path res).exec w).1 F := by
  have hcall : (w.host.call res (w.host.unlink path)).2.ret = 0 := by
    rw [← xmpUnlink_ret w.ctx path]
    exact hret
  obtain ⟨h', heffect, hcall⟩ := Host.call_ok hcall
  have hnew : h' = { w.host with nodes := Function.update w.host.nodes path none } := by
    unfold Host.unlink at heffect
    split at heffect
    · cases heffect
    · cases heffect
    · exact (Except.ok.inj heffect).symm
  have hfile : ∀ p, h'.file p = if p = path then none else w.host.file p := by
    intro p
    rw [hnew, Host.file_update]
    rfl
  have hview : F.view h' = (F.view w.host).unlink path := by
    funext k
    obtain ⟨p, b⟩ := k
    simp only [Inodes.view, Files.unlink, hfile]
    split
    · rfl
    · rfl
  have hexec : ((FsOp.unlink path res).exec w).1 = ⟨(xmpUnlink w.ctx path (.ok ())).1, h'⟩ := by
    simp only [FsOp.exec, hcall]
  rw [hexec]
  have hsizes := (xmpUnlink_shape hf.wellSized.sized path (.ok ())).1
  have hr : Represents W (xmpUnlink w.ctx path (.ok ())).1 ((F.view w.host).unlink path) :=
    hf.represents.exec (show Op.HasRoom w.ctx (.unlink path (.ok ())) from trivial) trivial
  refine ⟨hview ▸ hr, hf.wellSized.exec (.unlink path (.ok ())), fun p hp => ?_, fun p ino hp => ?_⟩
  · replace hp : h'.file p = none := hp
    show (xmpUnlink w.ctx path (.ok ())).1.index.fileToSizes.lookup p = none
    rw [hfile] at hp
    rw [hsizes]
    split
    · rfl
    · rename_i hne
      rw [if_neg hne] at hp
      exact hf.absent p hp
  · replace hp : h'.file p = some ino := hp
    show ino < h'.next ∧ h'.size ino = 0 ∧
      ((xmpUnlink w.ctx path (.ok ())).1.index.fileToSizes.lookup p).getD 0 = F.size ino
    rw [hfile] at hp
    split at hp
    · cases hp
    · rename_i hne
      rw [hsizes, if_neg hne, hnew]
      exact hf.named p ino hp

omit [Sha512] in
theorem Host.mkdir_ok (hok : h.mkdir path = .ok h') :
    h.file path = none ∧ h' = { h with nodes := Function.update h.nodes path (some .dir) } := by
  unfold Host.mkdir at hok
  split at hok
  · rename_i hnode
    exact ⟨by simp only [Host.file, hnode], (Except.ok.inj hok).symm⟩
  · cases hok

/-- A new directory takes the place of nothing. -/
theorem Follows.mkdir (hf : Follows W w F) (hok : w.host.mkdir path = .ok h') :
    Follows W { w with host := h' } F := by
  obtain ⟨hnofile, rfl⟩ := Host.mkdir_ok hok
  refine hf.names rfl rfl fun p => .inl ?_
  rw [Host.file_update]
  split
  · rename_i hp
    rw [hp, hnofile]
    rfl
  · rfl

/-- A rename moves names under which the index has nothing. -/
theorem Follows.rename (hf : Follows W w F) {src dst : CString}
    (hok : w.host.rename src dst = .ok h')
    (hkeeps : src = dst ∨ (w.host.file src = w.host.file dst ∧ w.host.file src ≠ none) ∨
      ∀ q, src.Under q ∨ dst.Under q → w.ctx.index.fileToSizes.lookup q = none) :
    Follows W { w with host := h' } F := by
  rcases Host.rename_ok hok with rfl | ⟨rfl, hne, hsame⟩
  · exact hf
  · rcases hkeeps with heq | ⟨heq, hsome⟩ | hnone
    · exact absurd heq hne
    · exact absurd (hsame heq) hsome
    · refine hf.names rfl rfl fun p => ?_
      by_cases hdst : dst.Under p
      · refine .inr ⟨hnone p (.inr hdst), fun ino hp => ?_⟩
        have hmoved : w.host.file (dst.rebase src p) = some ino := by
          rw [← hp]
          simp only [Host.file, Host.moved, if_pos hdst]
        exact ⟨_, hmoved, hnone _ (.inl (hdst.rebase src))⟩
      · by_cases hsrc : src.Under p
        · refine .inr ⟨hnone p (.inl hsrc), fun ino hp => ?_⟩
          simp only [Host.file, Host.moved, if_neg hdst, if_pos hsrc] at hp
          cases hp
        · exact .inl (by simp only [Host.file, Host.moved, if_neg hdst, if_neg hsrc])

/-- A link adds a name to a file that was never written. -/
theorem Follows.link (hf : Follows W w F) {src dst : CString} (hok : w.host.link src dst = .ok h')
    (hnone : w.ctx.index.fileToSizes.lookup src = none) : Follows W { w with host := h' } F := by
  unfold Host.link at hok
  split at hok
  · cases hok
  · cases hok
  · cases hok
  · rename_i ino hsrc hdst
    obtain rfl := (Except.ok.inj hok).symm
    refine hf.names rfl rfl fun p => ?_
    rw [Host.file_update]
    split
    · rename_i hp
      have habsent : w.host.file p = none := by simp only [Host.file, hp, hdst]
      refine .inr ⟨hf.absent p habsent, fun i hi => ⟨src, ?_, hnone⟩⟩
      rw [Host.file_eq_some.mpr hsrc]
      exact hi
    · exact .inl rfl

/-- Every successful call that keeps names and index together does so. -/
theorem Follows.exec (hf : Follows W w F) {op : FsOp} (hop : op.Succeeds w)
    (hkeeps : op.KeepsNames w) (hroomy : op.RoomyIn W w w') :
    Follows W (op.exec w).1 (F.apply w op) := by
  cases op with
  | create path flags res =>
    obtain ⟨h', heffect, hworld⟩ := World.passthrough_ok hop.2
    simp only [FsOp.exec, xmpCreate, hworld]
    exact hf.create hop.1 heffect
  | mkdir path res =>
    obtain ⟨h', heffect, hworld⟩ := World.passthrough_ok hop
    simp only [FsOp.exec, xmpMkdir, hworld]
    exact hf.mkdir heffect
  | write req io => exact hf.write hop.1 hop.2.1 hop.2.2 hkeeps hroomy
  | unlink path res => exact hf.unlink hop
  | rename src dst flags res =>
    simp only [FsOp.Succeeds, FsOp.exec, xmpRename] at hop ⊢
    split at hop
    · exact absurd hop (isErrno_neg EINVAL).2.ne
    · rename_i hflags
      obtain ⟨h', heffect, hworld⟩ := World.passthrough_ok hop
      rw [if_neg hflags, hworld]
      exact hf.rename heffect hkeeps
  | link src dst res =>
    obtain ⟨h', heffect, hworld⟩ := World.passthrough_ok hop
    simp only [FsOp.exec, xmpLink, hworld]
    exact hf.link heffect hkeeps
  | openFile path flags res => exact hop.elim
  | truncate path size res => exact hop.elim

/-! ## Runs -/

/-- A successful call that keeps names and index together, for which there is room. -/
def KeepsNamesIn (W : List UInt8 → Prop) (s : World × Inodes) (op : FsOp) (s' : World × Inodes) :
    Prop :=
  op.Succeeds s.1 ∧ op.KeepsNames s.1 ∧ op.RoomyIn W s.1 s'.1

theorem Follows.reachable {s : World × Inodes} (hs : withInodes.Reachable (KeepsNamesIn W) s) :
    Follows W s.1 s.2 :=
  hs.invariant (I := fun s => Follows W s.1 s.2) .empty fun _ _ _ hf hstep hkeeps =>
    Option.some.inj hstep ▸ hf.exec hkeeps.1 hkeeps.2.1 hkeeps.2.2

/-- After every run of successful calls that keep names and index together, each name of a file
    reports its size and reads what was last written to it, and the index has nothing under
    any other path. -/
theorem names_read_inodes (hinj : ∀ a b, W a → W b → hash a = hash b → a = b)
    (hs : withInodes.Reachable (KeepsNamesIn W) (w, F)) :
    (∀ path ino, w.host.file path = some ino → xmpGetattr w path = .ok (F.size ino) ∧
      ∀ (qs : Qsort) (req : ReadRequest), req.path = path → req.numBlocks ≠ 0 →
        req.size % blockSize = 0 →
        ∃ k ≤ req.numBlocks,
          (∀ i < k, F.content ino (req.startBlock + i) =
            some (pread (readDedup qs w.ctx req).2 (i * blockSize) blockSize)) ∧
          (k < req.numBlocks → F.content ino (req.startBlock + k) = none) ∧
          (readDedup qs w.ctx req).1 = cInt (k * blockSize)) ∧
    ∀ path, w.host.file path = none →
      w.ctx.index.fileToSizes.lookup path = none ∧ ∀ b, ¬Mapped w.ctx.index path b := by
  have hf : Follows W w F := Follows.reachable hs
  constructor
  · intro path ino hfile
    obtain ⟨-, hzero, hsize⟩ := hf.named path ino hfile
    constructor
    · rw [xmpGetattr_file hfile, hzero, hsize]
    · rintro qs req rfl hpos haligned
      have hview : ∀ i, F.view w.host (req.key i) = F.content ino (req.startBlock + i) :=
        fun i => by rw [Inodes.view, ReadRequest.key, hfile, Option.bind_some]
      obtain ⟨k, hk, hread, hend, hret, -⟩ := hf.represents.read hinj qs req hpos haligned
      simp only [hview] at hread hend
      exact ⟨k, hk, hread, hend, hret⟩
  · intro path hfile
    have hnone := hf.absent path hfile
    exact ⟨hnone, hf.wellSized.sized.unmapped (by rw [hnone, Option.getD_none])⟩

end

instance [Sha512] (w : World) (op : FsOp) : Decidable (op.Succeeds w) :=
  match op with
  | .create .. | .write .. => inferInstanceAs (Decidable (_ ∧ _))
  | .mkdir .. | .rename .. | .link .. | .unlink .. => inferInstanceAs (Decidable (_ = _))
  | .openFile .. | .truncate .. => .isFalse id

def createA : FsOp := .create pathA createFlags (.ok ())

def writeA : FsOp := .write (.zeros pathA 0 1) fun _ => .complete

/-- The file `a` was created. -/
def afterCreateA : World × Inodes :=
  ((@FsOp.exec Sha512.zeroBlock .empty createA).1, Inodes.empty.apply .empty createA)

/-- And a block of zeros was written to it. -/
def afterWriteA : World × Inodes :=
  ((@FsOp.exec Sha512.zeroBlock afterCreateA.1 writeA).1,
    afterCreateA.2.apply afterCreateA.1 writeA)

theorem afterWriteA_reachable :
    (@withInodes Sha512.zeroBlock).Reachable (@KeepsNamesIn Sha512.zeroBlock IsZeroBlock)
      afterWriteA := by
  let _ := Sha512.zeroBlock
  have hcreate : createA.Succeeds .empty := by decide +kernel
  have hwrite : writeA.Succeeds afterCreateA.1 := by decide +kernel
  refine .step rfl ⟨hcreate, trivial, fun o ho => by cases ho⟩
    (.single rfl ⟨hwrite, .inr fun q hq => ?_, fun o ho => ?_⟩)
  · by_contra hne
    replace hne : q ≠ pathA := hne
    replace hq : (Host.mk (Function.update (fun _ => none) pathA (some (.file 0)))
      (Function.update (fun _ => 0) 0 0) 1).file q = some 0 := hq
    rw [Host.file_update, if_neg hne] at hq
    cases hq
  · obtain rfl := Option.some.inj ho
    exact ⟨Op.hasRoom_of_roomCheck (by decide +kernel), blocksIn_zeros⟩

theorem names_read_inodes_of_afterWriteA :
    (∀ path ino, afterWriteA.1.host.file path = some ino →
      xmpGetattr afterWriteA.1 path = .ok (afterWriteA.2.size ino) ∧
      ∀ (qs : Qsort) (req : ReadRequest), req.path = path → req.numBlocks ≠ 0 →
        req.size % blockSize = 0 →
        ∃ k ≤ req.numBlocks,
          (∀ i < k, afterWriteA.2.content ino (req.startBlock + i) =
            some (pread (readDedup qs afterWriteA.1.ctx req).2 (i * blockSize) blockSize)) ∧
          (k < req.numBlocks → afterWriteA.2.content ino (req.startBlock + k) = none) ∧
          (readDedup qs afterWriteA.1.ctx req).1 = cInt (k * blockSize)) ∧
    ∀ path, afterWriteA.1.host.file path = none →
      afterWriteA.1.ctx.index.fileToSizes.lookup path = none ∧
        ∀ b, ¬Mapped afterWriteA.1.ctx.index path b := by
  let _ := Sha512.zeroBlock
  exact names_read_inodes (fun a b ha hb _ => ha.trans hb.symm) afterWriteA_reachable

/-- The file `a` is created, written and renamed to `b`. -/
def createWriteRename : List FsOp := [createA, writeA, .rename pathA pathB 0 (.ok ())]

theorem createWriteRename_enabled : ((@withInodes Sha512.zeroBlock).replay
    (fun s op _ => @decide (@FsOp.Succeeds Sha512.zeroBlock s.1 op) inferInstance)
    (@withInodes Sha512.zeroBlock).init createWriteRename).isSome := by
  decide +kernel

def afterRename : World × Inodes :=
  ((@withInodes Sha512.zeroBlock).replay
    (fun s op _ => @decide (@FsOp.Succeeds Sha512.zeroBlock s.1 op) inferInstance)
    (@withInodes Sha512.zeroBlock).init createWriteRename).get createWriteRename_enabled

/-- The file that `b` names now has 4096 bytes, but `b` is reported as empty and nothing is read
    from it; the index still has the file under `a`. -/
theorem not_names_read_inodes :
    (@withInodes Sha512.zeroBlock).Reachable
      (fun s op _ => @FsOp.Succeeds Sha512.zeroBlock s.1 op) afterRename ∧
    afterRename.1.host.file pathB = some 0 ∧ afterRename.2.size 0 = 4096 ∧
    xmpGetattr afterRename.1 pathB = .ok 0 ∧
    xmpGetattr afterRename.1 pathB ≠ .ok (afterRename.2.size 0) ∧
    (readDedup .mergeSort afterRename.1.ctx { readTwoBlocks with path := pathB }).1 = 0 ∧
    afterRename.1.host.file pathA = none ∧
    afterRename.1.ctx.index.fileToSizes.lookup pathA = some 4096 :=
  ⟨.of_replay (fun _ _ _ _ hc => of_decide_eq_true hc)
    (Option.some_get createWriteRename_enabled).symm, by decide +kernel, by decide +kernel,
    by decide +kernel, by decide +kernel, by decide +kernel, by decide +kernel, by decide +kernel⟩

end DedupBlockFS
