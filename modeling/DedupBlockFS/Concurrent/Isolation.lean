-- SUMMARY: Files share blocks and locks, and yet a file is what the calls on its own path make of it.
import DedupBlockFS.Concurrent.Linearization

/-!
# Files are isolated from one another

Calls on different paths share everything: the blocks, their counters, the free list and
the end of the master file. Whatever they do, a file is what the calls on its own path have
made of it, one after the other, if these do not overlap. `Call.Midway` says what a call
has done to its file by the time it is where it is.
-/

namespace DedupBlockFS

open ByteFile

/-! ## One file -/

/-- What a user believes a file to be: the blocks that have a content, and the size, if it
    has one. -/
structure File where
  blocks : Nat → Option (List UInt8)
  size : Option Nat

namespace File

def empty : File where
  blocks _ := none
  size := none

def write (g : File) (req : WriteRequest) : File where
  blocks b :=
    if req.startBlock ≤ b ∧ b < req.startBlock + req.numBlocks
    then some (req.block (b - req.startBlock)) else g.blocks b
  size := some (max ((req.startBlock + req.numBlocks) * blockSize) (g.size.getD 0))

/-- The blocks of the range are gone; the size stays. -/
def cut (g : File) (startBlock endBlock : Nat) : File where
  blocks b := if startBlock ≤ b ∧ b < endBlock then none else g.blocks b
  size := g.size

/-- A file that has a greater size shrinks. -/
def truncate (g : File) (size : Nat) : File :=
  match g.size with
  | none => g
  | some old =>
    if size < old then
      { blocks := fun b => if blocksOfSize size ≤ b then none else g.blocks b, size := some size }
    else g

/-- The blocks lie below the size. -/
def Sized (g : File) : Prop :=
  ∀ b, g.blocks b ≠ none → ∃ size, g.size = some size ∧ b < blocksOfSize size

variable {g : File}

theorem Sized.empty : File.empty.Sized := fun _ hb => absurd rfl hb

theorem Sized.write (h : g.Sized) (req : WriteRequest) : (g.write req).Sized := by
  intro b hb
  refine ⟨_, rfl, lt_blocksOfSize.mpr ?_⟩
  simp only [File.write] at hb
  split at hb
  · rename_i hin
    exact lt_max_of_lt_left (Nat.mul_lt_mul_of_pos_right hin.2 (by decide))
  · obtain ⟨size, hsize, hlt⟩ := h b hb
    rw [hsize]
    exact lt_max_of_lt_right (lt_blocksOfSize.mp hlt)

theorem Sized.cut (h : g.Sized) (startBlock endBlock : Nat) :
    (g.cut startBlock endBlock).Sized := by
  intro b hb
  simp only [File.cut] at hb
  split at hb
  · exact absurd rfl hb
  · exact h b hb

theorem Sized.truncate (h : g.Sized) (size : Nat) : (g.truncate size).Sized := by
  intro b hb
  unfold File.truncate at hb ⊢
  split at hb
  · exact h b hb
  · split at hb
    · rename_i hshrinks
      rw [if_pos hshrinks]
      simp only at hb
      split at hb
      · exact absurd rfl hb
      · rename_i hlt
        exact ⟨size, rfl, Nat.lt_of_not_le hlt⟩
    · rename_i hstays
      rw [if_neg hstays]
      exact h b hb

/-- A file is cut at its own end: all blocks go. -/
theorem Sized.cut_size (h : g.Sized) {size : Nat} (hsize : g.size = some size) :
    g.cut 0 (blocksOfSize size) = { g with blocks := fun _ => none } := by
  refine congrArg (fun blocks => { g with blocks := blocks }) (funext fun b => ?_)
  split
  · rfl
  · rename_i hout
    by_contra hb
    obtain ⟨size', hsize', hlt⟩ := h b hb
    rw [hsize] at hsize'
    exact hout ⟨Nat.zero_le b, Option.some.inj hsize' ▸ hlt⟩

/-- The same where something is left. -/
theorem Sized.cut_truncate (h : g.Sized) {size old : Nat} (hold : g.size = some old)
    (hshrinks : size < old) : g.truncate size =
      { g.cut (blocksOfSize size) (blocksOfSize old) with size := some size } := by
  have htruncate : g.truncate size =
      { blocks := fun b => if blocksOfSize size ≤ b then none else g.blocks b,
        size := some size } := by
    simp only [File.truncate, hold, if_pos hshrinks]
  rw [htruncate]
  refine congrArg (fun blocks => ({ blocks := blocks, size := some size } : File))
    (funext fun b => ?_)
  unfold File.cut
  dsimp only
  by_cases hlow : blocksOfSize size ≤ b
  · rw [if_pos hlow]
    split
    · rfl
    · rename_i hout
      by_contra hb
      obtain ⟨size', hsize', hlt⟩ := h b (Ne.symm hb)
      rw [hold] at hsize'
      exact hout ⟨hlow, Option.some.inj hsize' ▸ hlt⟩
  · rw [if_neg hlow, if_neg fun hin => hlow hin.1]

end File

/-! ## What a call does to its file -/

/-- The arguments that the call was dispatched with. -/
def Call.request : Call → Request
  | .write req _ => .write req
  | .remove path startBlock endBlock _ => .remove path startBlock endBlock
  | .unlink path res _ => .unlink path res
  | .truncate path size res _ => .truncate path size res
  | .read req _ => .read req

/-- The path of the file that is to be changed. -/
def Request.target : Request → Option CString
  | .write req => some req.path
  | .remove path _ _ | .unlink path _ | .truncate path _ _ => some path
  | .read _ => none

def Call.target (c : Call) : Option CString := c.request.target

/-- The file after a call that has returned `ret`: a write that does not return its length and
    a truncate to a size that is no number of blocks change nothing. -/
def Request.applyTo (g : File) (ret : Int) : Request → File
  | .write req =>
    if req.numBlocks ≠ 0 ∧ req.size % blockSize = 0 ∧ ret = cInt req.size then g.write req else g
  | .remove _ startBlock endBlock => g.cut startBlock endBlock
  | .unlink _ _ => .empty
  | .truncate _ size _ => if size % blockSize = 0 then g.truncate size else g
  | .read _ => g

/-- The file after a request that has returned a value, or not yet. -/
def File.next (g : File) : Request × Option Int → File
  | (_, none) => g
  | (rq, some ret) => rq.applyTo g ret

def Call.applyTo (g : File) (c : Call) : File := g.next (c.request, c.result)

/-- The file after the calls, one after the other. -/
def File.after (calls : List Call) : File := calls.foldl Call.applyTo .empty

theorem File.Sized.applyTo {g : File} (h : g.Sized) (c : Call) : (c.applyTo g).Sized := by
  unfold Call.applyTo File.next
  split
  · exact h
  · unfold Request.applyTo
    split
    · split
      · exact h.write _
      · exact h
    · exact h.cut _ _
    · exact .empty
    · split
      · exact h.truncate _
      · exact h
    · exact h

theorem File.sized_after (calls : List Call) : (File.after calls).Sized := by
  suffices h : ∀ g : File, g.Sized → (calls.foldl Call.applyTo g).Sized from h _ .empty
  induction calls with
  | nil => exact fun _ h => h
  | cons c calls ih => exact fun g h => ih _ (h.applyTo c)

/-- What the call has made of its file, which was `g` when the call was dispatched, by the
    time it is where it is. -/
def Call.Midway (g g' : File) : Call → Prop
  | .write req pc =>
    ((Call.write req pc).Committed [] ∧ g' = g) ∨
      ((Call.write req pc).Committed [.write req] ∧ g' = g.write req)
  | .remove _ _ _ .start => g' = g
  | .remove _ startBlock endBlock _ => g' = g.cut startBlock endBlock
  | .unlink _ _ .start => g' = g
  | .unlink _ _ (.remove numBlocks) => g' = g ∧ g.size.map blocksOfSize = some numBlocks
  | .unlink _ _ (.concat _) | .unlink _ _ .dropSize => g'.blocks = fun _ => none
  | .unlink _ _ (.done _) => g' = .empty
  | .truncate _ _ _ .start => g' = g
  | .truncate _ size _ (.remove newBlockCount oldBlockCount) =>
    g' = g ∧ size % blockSize = 0 ∧ newBlockCount = blocksOfSize size ∧
      ∃ old, g.size = some old ∧ size < old ∧ oldBlockCount = blocksOfSize old
  | .truncate _ size _ (.concat _) | .truncate _ size _ .setSize =>
    size % blockSize = 0 ∧ ∃ old, g.size = some old ∧ size < old ∧
      g' = g.cut (blocksOfSize size) (blocksOfSize old)
  | .truncate _ size _ (.done _) => g' = if size % blockSize = 0 then g.truncate size else g
  | .read _ _ => g' = g

theorem Call.midway_toCall (rq : Request) (g : File) : rq.toCall.Midway g g := by
  cases rq with
  | write req => exact .inl ⟨rfl, rfl⟩
  | _ => rfl

/-- A call that has returned has done what it is about. -/
theorem Call.Midway.returned {g g' : File} {c : Call} (h : c.Midway g g')
    (hreturned : c.result ≠ none) : g' = c.applyTo g := by
  unfold Call.result at hreturned
  split at hreturned
  · rename_i req ret
    rcases h with ⟨hcommitted, rfl⟩ | ⟨hcommitted, rfl⟩
    all_goals
      simp only [Call.Committed] at hcommitted
      simp only [Call.applyTo, File.next, Call.result, Call.request, Request.applyTo]
      split at hcommitted
    · cases hcommitted
    · rename_i hfailed
      exact (if_neg hfailed).symm
    · rename_i hsucceeded
      exact (if_pos hsucceeded).symm
    · cases hcommitted
  · exact h
  · exact h
  · exact h
  · exact h
  · exact absurd rfl hreturned

/-! ## One section -/

/-- The file at the path, where the store stands for `f`. -/
def fileOf (f : Files) (ctx : Context) (path : CString) : File where
  blocks b := f ⟨path, b⟩
  size := ctx.index.fileToSizes.lookup path

/-- The files after the next section of the call. -/
def Call.commitTo (f : Files) (c : Call) : Files := c.commit.elim f fun cm => cm.apply f

variable {f : Files} {ctx ctx' : Context} {path : CString} {g : File} {c c' : Call}

variable (f path) in
theorem fileOf_congr (hsizes : ctx'.index.fileToSizes = ctx.index.fileToSizes) :
    fileOf f ctx' path = fileOf f ctx path := by
  unfold fileOf
  rw [hsizes]

variable (f ctx path) in
theorem fileOf_remove (p : CString) (startBlock endBlock : Nat) :
    fileOf (f.remove p startBlock endBlock)
        (ctx.closeSection (removeBlocksSection ctx.openSection p startBlock endBlock)) path =
      if p = path then (fileOf f ctx path).cut startBlock endBlock else fileOf f ctx path := by
  have hsizes : (removeBlocksSection ctx.openSection p startBlock endBlock).index.fileToSizes =
      ctx.index.fileToSizes := removeBlocks_fileToSizes ctx.openSection _
  rw [fileOf_congr _ path (show _ = ctx.index.fileToSizes from hsizes)]
  split
  · rename_i hpath
    refine congrArg (fun blocks => { fileOf f ctx path with blocks := blocks })
      (funext fun b => ?_)
    simp only [Files.remove, hpath, true_and]
    rfl
  · rename_i hpath
    refine congrArg (fun blocks => { fileOf f ctx path with blocks := blocks })
      (funext fun b => ?_)
    exact if_neg fun hk => hpath hk.1.symm

theorem fileOf_unlinkDropSize (p : CString) :
    fileOf f (unlinkDropSize ctx p) path =
      if p = path then { fileOf f ctx path with size := none } else fileOf f ctx path := by
  unfold fileOf unlinkDropSize
  split
  · rename_i hpath
    simp only [hpath, AList.lookup_erase]
  · rename_i hpath
    simp only [AList.lookup_erase_ne (Ne.symm hpath)]

theorem fileOf_truncateSetSize_of_ne {p : CString} (hpath : p ≠ path) (size : Nat) :
    fileOf f (truncateSetSize ctx p size) path = fileOf f ctx path := by
  unfold fileOf truncateSetSize
  split
  · rfl
  · split
    · simp only [AList.lookup_insert_ne (Ne.symm hpath)]
    · rfl

theorem fileOf_truncateSetSize {size old : Nat} (hold : (fileOf f ctx path).size = some old)
    (hshrinks : size < old) :
    fileOf f (truncateSetSize ctx path size) path =
      { fileOf f ctx path with size := some size } := by
  have hlookup : ctx.index.fileToSizes.lookup path = some old := hold
  simp only [truncateSetSize, hlookup, if_pos hshrinks, fileOf, AList.lookup_insert]

section
variable [Sha512] {qs : Qsort} {io : PwriteResult}

omit [Sha512] in
theorem fileOf_write (req : WriteRequest) (plan : List PlanEntry) :
    fileOf (f.write req) (ctx.closeSection (pass3Section ctx.openSection req.path req.startBlock
        req.numBlocks plan)) path =
      if req.path = path then (fileOf f ctx path).write req else fileOf f ctx path := by
  have hsize : (ctx.closeSection (pass3Section ctx.openSection req.path req.startBlock
      req.numBlocks plan)).index.fileToSizes.lookup path = _ := pass3Section_sizes path
  unfold fileOf
  rw [hsize]
  split
  · rename_i hpath
    subst hpath
    simp only [Files.write, true_and, if_true]
    rfl
  · rename_i hpath
    rw [if_neg (Ne.symm hpath)]
    refine congrArg (fun blocks => ({ blocks := blocks, size := _ } : File)) (funext fun b => ?_)
    exact if_neg fun hk => hpath (show path = req.path from hk.1)

/-- Of the sections of a write, only pass 3 changes a file, and only its own. -/
theorem advanceWrite_file {req : WriteRequest} {pc pc' : WritePc}
    (hadv : advanceWrite ctx req io pc = some (ctx', pc')) :
    ((Call.write req pc).commit = none ∧
      fileOf ((Call.write req pc).commitTo f) ctx' path = fileOf f ctx path) ∨
    (∃ plan, pc = .consolidate plan ∧ fileOf ((Call.write req pc).commitTo f) ctx' path =
      if req.path = path then (fileOf f ctx path).write req else fileOf f ctx path) := by
  cases pc with
  | consolidate plan =>
    obtain ⟨rfl, -⟩ := Prod.ext_iff.mp (Option.some.inj hadv)
    exact .inr ⟨plan, rfl, fileOf_write req plan⟩
  | _ =>
    rcases advanceWrite_tables hadv with ⟨plan, hpc, -⟩ | ⟨-, hsizes, -⟩
    · cases hpc
    · exact .inl ⟨rfl, fileOf_congr f path hsizes⟩

/-- A section leaves the files of other paths alone. -/
theorem advance_elsewhere (hpath : c.target ≠ some path)
    (hstep : advance qs ctx io c = some (ctx', c')) :
    fileOf (c.commitTo f) ctx' path = fileOf f ctx path := by
  cases c with
  | write req pc =>
    obtain ⟨⟨ctx₁, pc'⟩, hadv, hres⟩ := Option.map_eq_some_iff.mp hstep
    obtain ⟨rfl, rfl⟩ := Prod.ext_iff.mp hres
    have hne : req.path ≠ path := fun h => hpath (congrArg some h)
    rcases advanceWrite_file hadv with ⟨-, hfile⟩ | ⟨plan, -, hfile⟩
    · exact hfile
    · exact hfile.trans (if_neg hne)
  | remove p startBlock endBlock pc =>
    obtain ⟨⟨ctx₁, pc'⟩, hadv, hres⟩ := Option.map_eq_some_iff.mp hstep
    obtain ⟨rfl, rfl⟩ := Prod.ext_iff.mp hres
    have hne : p ≠ path := fun h => hpath (congrArg some h)
    cases pc with
    | start =>
      obtain ⟨rfl, rfl⟩ := Prod.ext_iff.mp (Option.some.inj hadv)
      exact (fileOf_remove f ctx path p startBlock endBlock).trans (if_neg hne)
    | concat slots =>
      obtain ⟨rfl, rfl⟩ := Prod.ext_iff.mp (Option.some.inj hadv)
      rfl
    | done => cases hadv
  | unlink p res pc =>
    obtain ⟨⟨ctx₁, pc'⟩, hadv, hres⟩ := Option.map_eq_some_iff.mp hstep
    obtain ⟨rfl, rfl⟩ := Prod.ext_iff.mp hres
    have hne : p ≠ path := fun h => hpath (congrArg some h)
    cases pc with
    | start =>
      simp only [advanceUnlink] at hadv
      split at hadv <;>
      · obtain ⟨rfl, rfl⟩ := Prod.ext_iff.mp (Option.some.inj hadv)
        rfl
    | remove numBlocks =>
      obtain ⟨rfl, rfl⟩ := Prod.ext_iff.mp (Option.some.inj hadv)
      exact (fileOf_remove f ctx path p 0 numBlocks).trans (if_neg hne)
    | concat slots =>
      obtain ⟨rfl, rfl⟩ := Prod.ext_iff.mp (Option.some.inj hadv)
      rfl
    | dropSize =>
      obtain ⟨rfl, rfl⟩ := Prod.ext_iff.mp (Option.some.inj hadv)
      exact (fileOf_unlinkDropSize p).trans (if_neg hne)
    | done ret => cases hadv
  | truncate p size res pc =>
    obtain ⟨⟨ctx₁, pc'⟩, hadv, hres⟩ := Option.map_eq_some_iff.mp hstep
    obtain ⟨rfl, rfl⟩ := Prod.ext_iff.mp hres
    have hne : p ≠ path := fun h => hpath (congrArg some h)
    cases pc with
    | start =>
      simp only [advanceTruncate] at hadv
      split at hadv
      · obtain ⟨rfl, rfl⟩ := Prod.ext_iff.mp (Option.some.inj hadv)
        rfl
      · split at hadv <;>
        · obtain ⟨rfl, rfl⟩ := Prod.ext_iff.mp (Option.some.inj hadv)
          rfl
    | remove newBlockCount oldBlockCount =>
      obtain ⟨rfl, rfl⟩ := Prod.ext_iff.mp (Option.some.inj hadv)
      exact (fileOf_remove f ctx path p newBlockCount oldBlockCount).trans (if_neg hne)
    | concat slots =>
      obtain ⟨rfl, rfl⟩ := Prod.ext_iff.mp (Option.some.inj hadv)
      rfl
    | setSize =>
      obtain ⟨rfl, rfl⟩ := Prod.ext_iff.mp (Option.some.inj hadv)
      exact fileOf_truncateSetSize_of_ne hne size
    | done ret => cases hadv
  | read req pc =>
    obtain ⟨pc', -, hres⟩ := Option.map_eq_some_iff.mp hstep
    obtain ⟨rfl, rfl⟩ := Prod.ext_iff.mp hres
    rfl

theorem midway_write {req : WriteRequest} {pc pc' : WritePc} (hok : (Call.write req pc).Ok ctx)
    (hpath : req.path = path) (h : (Call.write req pc).Midway g (fileOf f ctx path))
    (hadv : advanceWrite ctx req io pc = some (ctx', pc')) :
    (Call.write req pc').Midway g (fileOf ((Call.write req pc).commitTo f) ctx' path) := by
  rcases advanceWrite_file hadv with ⟨hcommit, hfile⟩ | ⟨plan, rfl, hfile⟩
  · have hstays : ∀ cms, (Call.write req pc).Committed cms →
        (Call.write req pc').Committed cms := by
      intro cms hcms
      have hnext := committed_write hok hcms hadv
      rwa [hcommit, Option.toList_none, List.append_nil] at hnext
    rw [hfile]
    exact h.imp (And.imp_left (hstays _)) (And.imp_left (hstays _))
  · rw [hfile, if_pos hpath]
    rcases h with ⟨hcommitted, hg⟩ | ⟨hcommitted, -⟩
    · exact .inr ⟨committed_write hok hcommitted hadv, congrArg (File.write · req) hg⟩
    · cases hcommitted

omit [Sha512] in
theorem midway_remove {startBlock endBlock : Nat} {pc pc' : RemovePc}
    (h : (Call.remove path startBlock endBlock pc).Midway g (fileOf f ctx path))
    (hadv : advanceRemove ctx path startBlock endBlock pc = some (ctx', pc')) :
    (Call.remove path startBlock endBlock pc').Midway g
      (fileOf ((Call.remove path startBlock endBlock pc).commitTo f) ctx' path) := by
  cases pc with
  | start =>
    obtain ⟨rfl, rfl⟩ := Prod.ext_iff.mp (Option.some.inj hadv)
    have hg : fileOf f ctx path = g := h
    refine ((fileOf_remove f ctx path path startBlock endBlock).trans (if_pos rfl)).trans ?_
    rw [hg]
  | concat slots =>
    obtain ⟨rfl, rfl⟩ := Prod.ext_iff.mp (Option.some.inj hadv)
    exact h
  | done => cases hadv

omit [Sha512] in
theorem midway_unlink {res : SyscallResult} {pc pc' : UnlinkPc} (hg : g.Sized)
    (h : (Call.unlink path res pc).Midway g (fileOf f ctx path))
    (hadv : advanceUnlink ctx path res pc = some (ctx', pc')) :
    (Call.unlink path res pc').Midway g
      (fileOf ((Call.unlink path res pc).commitTo f) ctx' path) := by
  cases pc with
  | start =>
    obtain rfl : fileOf f ctx path = g := h
    simp only [advanceUnlink] at hadv
    split at hadv
    · rename_i hlookup
      obtain ⟨rfl, rfl⟩ := Prod.ext_iff.mp (Option.some.inj hadv)
      have hsize : (fileOf f ctx path).size = none := Option.map_eq_none_iff.mp hlookup
      -- without a size there are no blocks
      have hblocks : (fileOf f ctx path).blocks = fun _ => none := by
        funext b
        by_contra hb
        obtain ⟨size, hsome, -⟩ := hg b hb
        rw [hsize] at hsome
        cases hsome
      show File.mk (fileOf f ctx path).blocks (fileOf f ctx path).size = .empty
      rw [hblocks, hsize]
      rfl
    · rename_i numBlocks hlookup
      obtain ⟨rfl, rfl⟩ := Prod.ext_iff.mp (Option.some.inj hadv)
      exact ⟨rfl, hlookup⟩
  | remove numBlocks =>
    obtain ⟨rfl, hnum⟩ := h
    obtain ⟨rfl, rfl⟩ := Prod.ext_iff.mp (Option.some.inj hadv)
    obtain ⟨size, hsize, rfl⟩ := Option.map_eq_some_iff.mp hnum
    have hfile := (fileOf_remove f ctx path path 0 (blocksOfSize size)).trans
      (if_pos rfl)
    exact congrArg File.blocks (hfile.trans (hg.cut_size hsize))
  | concat slots =>
    obtain ⟨rfl, rfl⟩ := Prod.ext_iff.mp (Option.some.inj hadv)
    exact h
  | dropSize =>
    obtain ⟨rfl, rfl⟩ := Prod.ext_iff.mp (Option.some.inj hadv)
    have hblocks : (fileOf f ctx path).blocks = fun _ => none := h
    refine ((fileOf_unlinkDropSize path).trans (if_pos rfl)).trans ?_
    show File.mk (fileOf f ctx path).blocks none = .empty
    rw [hblocks]
    rfl
  | done ret => cases hadv

omit [Sha512] in
theorem midway_truncate {size : Nat} {res : SyscallResult} {pc pc' : TruncatePc} (hg : g.Sized)
    (h : (Call.truncate path size res pc).Midway g (fileOf f ctx path))
    (hadv : advanceTruncate ctx path size res pc = some (ctx', pc')) :
    (Call.truncate path size res pc').Midway g
      (fileOf ((Call.truncate path size res pc).commitTo f) ctx' path) := by
  cases pc with
  | start =>
    obtain rfl : fileOf f ctx path = g := h
    simp only [advanceTruncate] at hadv
    split at hadv
    · rename_i hunaligned
      obtain ⟨rfl, rfl⟩ := Prod.ext_iff.mp (Option.some.inj hadv)
      exact (if_neg hunaligned).symm
    rename_i haligned
    have hmod : size % blockSize = 0 := not_not.mp haligned
    split at hadv
    · rename_i hlookup
      obtain ⟨rfl, rfl⟩ := Prod.ext_iff.mp (Option.some.inj hadv)
      refine Eq.trans ?_ (if_pos hmod).symm
      simp only [truncateLookup] at hlookup
      unfold File.truncate
      split at hlookup
      · rename_i hnone
        rw [show (fileOf f ctx path).size = none from hnone]
        rfl
      · rename_i old hold
        rw [show (fileOf f ctx path).size = some old from hold]
        split at hlookup
        · cases hlookup
        · rename_i hstays
          exact (if_neg hstays).symm
    · rename_i newBlockCount oldBlockCount hlookup
      obtain ⟨rfl, rfl⟩ := Prod.ext_iff.mp (Option.some.inj hadv)
      simp only [truncateLookup] at hlookup
      split at hlookup
      · cases hlookup
      rename_i old hold
      split at hlookup
      · rename_i hshrinks
        obtain ⟨rfl, rfl⟩ := Prod.ext_iff.mp (Option.some.inj hlookup)
        exact ⟨rfl, hmod, rfl, old, hold, hshrinks, rfl⟩
      · cases hlookup
  | remove newBlockCount oldBlockCount =>
    obtain ⟨rfl, hmod, rfl, old, hold, hshrinks, rfl⟩ := h
    obtain ⟨rfl, rfl⟩ := Prod.ext_iff.mp (Option.some.inj hadv)
    exact ⟨hmod, old, hold, hshrinks, (fileOf_remove f ctx path path _ _).trans (if_pos rfl)⟩
  | concat slots =>
    obtain ⟨rfl, rfl⟩ := Prod.ext_iff.mp (Option.some.inj hadv)
    exact h
  | setSize =>
    obtain ⟨hmod, old, hold, hshrinks, hfile⟩ := h
    obtain ⟨rfl, rfl⟩ := Prod.ext_iff.mp (Option.some.inj hadv)
    have hsize : (fileOf f ctx path).size = some old := by
      rw [hfile]
      exact hold
    refine (fileOf_truncateSetSize hsize hshrinks).trans (Eq.trans ?_ (if_pos hmod).symm)
    rw [hfile, hg.cut_truncate hold hshrinks]
  | done ret => cases hadv

/-- A section of a call takes its file one step further. -/
theorem advance_midway (hok : c.Ok ctx) (hpath : c.target = some path) (hg : g.Sized)
    (h : c.Midway g (fileOf f ctx path)) (hstep : advance qs ctx io c = some (ctx', c')) :
    c'.Midway g (fileOf (c.commitTo f) ctx' path) := by
  cases c with
  | write req pc =>
    obtain ⟨⟨ctx₁, pc'⟩, hadv, hres⟩ := Option.map_eq_some_iff.mp hstep
    obtain ⟨rfl, rfl⟩ := Prod.ext_iff.mp hres
    exact midway_write hok (Option.some.inj hpath) h hadv
  | remove p startBlock endBlock pc =>
    obtain ⟨⟨ctx₁, pc'⟩, hadv, hres⟩ := Option.map_eq_some_iff.mp hstep
    obtain ⟨rfl, rfl⟩ := Prod.ext_iff.mp hres
    obtain rfl : p = path := Option.some.inj hpath
    exact midway_remove h hadv
  | unlink p res pc =>
    obtain ⟨⟨ctx₁, pc'⟩, hadv, hres⟩ := Option.map_eq_some_iff.mp hstep
    obtain ⟨rfl, rfl⟩ := Prod.ext_iff.mp hres
    obtain rfl : p = path := Option.some.inj hpath
    exact midway_unlink hg h hadv
  | truncate p size res pc =>
    obtain ⟨⟨ctx₁, pc'⟩, hadv, hres⟩ := Option.map_eq_some_iff.mp hstep
    obtain ⟨rfl, rfl⟩ := Prod.ext_iff.mp hres
    obtain rfl : p = path := Option.some.inj hpath
    exact midway_truncate hg h hadv
  | read req pc => cases hpath

/-! ## Runs -/

/-- The calls that change the file at the path, in the order of their dispatch. -/
def updatesOf (path : CString) (calls : List Call) : List Call :=
  calls.filter fun c => c.target = some path

omit [Sha512] in
theorem updatesOf_split (before after : List Call) :
    updatesOf path (before ++ c :: after) =
      updatesOf path before ++ (if c.target = some path then [c] else []) ++
        updatesOf path after := by
  unfold updatesOf
  rw [List.filter_append, List.filter_cons]
  by_cases hpath : c.target = some path
  · simp [hpath]
  · simp [hpath]

/-- The updates of the path do not overlap: all but the last one have returned, and the last
    one has taken the file as far as it is. -/
def InTurn (path : CString) (g : File) (calls : List Call) : Prop :=
  (updatesOf path calls = [] ∧ g = .empty) ∨
    ∃ earlier c, updatesOf path calls = earlier ++ [c] ∧ (∀ d ∈ earlier, d.result ≠ none) ∧
      c.Midway (.after earlier) g

omit [Sha512] in
/-- Once they have returned, the file is what they have made of it. -/
theorem InTurn.returned {calls : List Call} (h : InTurn path g calls)
    (hreturned : ∀ c ∈ calls, c.target = some path → c.result ≠ none) :
    g = .after (updatesOf path calls) := by
  rcases h with ⟨hnone, rfl⟩ | ⟨earlier, c, hupdates, -, hmid⟩
  · rw [hnone]
    rfl
  · have hmem : c ∈ updatesOf path calls := by
      rw [hupdates]
      simp
    obtain ⟨hcall, hpath⟩ := List.mem_filter.mp hmem
    rw [hupdates, hmid.returned (hreturned c hcall (of_decide_eq_true hpath))]
    exact (List.foldl_concat ..).symm

theorem advance_target (hstep : advance qs ctx io c = some (ctx', c')) :
    c'.target = c.target := by
  cases c <;>
  · obtain ⟨_, -, hres⟩ := Option.map_eq_some_iff.mp hstep
    obtain ⟨-, rfl⟩ := Prod.ext_iff.mp hres
    rfl

omit [Sha512] in
/-- Among calls of which all but the last have returned, a call in flight is the last. -/
theorem last_of_append_eq {xs ys earlier : List Call} {d : Call}
    (h : xs ++ c :: ys = earlier ++ [d]) (hc : c ∉ earlier) : ys = [] ∧ xs = earlier ∧ c = d := by
  rcases List.eq_nil_or_concat ys with rfl | ⟨zs, z, rfl⟩
  · obtain ⟨hxs, hcd⟩ := List.append_inj' h rfl
    exact ⟨rfl, hxs, List.singleton_inj.mp hcd⟩
  · rw [List.concat_eq_append, ← List.cons_append, ← List.append_assoc] at h
    obtain ⟨rfl, -⟩ := List.append_inj' h rfl
    exact absurd (by simp) hc

/-- The clean runs in which an update of a path is dispatched only when the ones before it
    have returned. Calls on different paths may overlap, and so may reads. -/
def Isolated (W : List UInt8 → Prop) (s : Machine) (e : Event) (s' : Machine) : Prop :=
  (s'.FewReferences ∧ ¬s.Discards e ∧ e.BlocksIn W) ∧
    ∀ rq path, e = .dispatch rq → rq.toCall.target = some path →
      ∀ c ∈ s.calls, c.target = some path → c.result ≠ none

variable {W : List UInt8 → Prop} {s s' : Machine × List (Nat × Commit)} {e : Event}

theorem InTurn.step (hlin : Linearized W s)
    (hturn : InTurn path (fileOf (filesOf s.2) s.1.ctx path) s.1.calls)
    (hstep : (withLog qs).step s e = some s') (hP : Isolated W s.1 e s'.1) :
    InTurn path (fileOf (filesOf s'.2) s'.1.ctx path) s'.1.calls := by
  obtain ⟨s₁, hmach, rfl⟩ := Option.map_eq_some_iff.mp hstep
  rcases Machine.step_cases hmach with ⟨rq, rfl, rfl⟩ |
    ⟨io, c, c', ctx', before, after, rfl, hcalls, hadv, rfl⟩
  · show InTurn path (fileOf (filesOf (s.2 ++ [])) s.1.ctx path) _
    rw [List.append_nil]
    unfold InTurn
    rw [updatesOf_split]
    by_cases hpath : rq.toCall.target = some path
    · have hreturned := hP.2 rq path rfl hpath
      rw [if_pos hpath]
      refine .inr ⟨updatesOf path s.1.calls, rq.toCall, List.append_nil _, fun d hd => ?_, ?_⟩
      · obtain ⟨hcall, hd⟩ := List.mem_filter.mp hd
        exact hreturned d hcall (of_decide_eq_true hd)
      · rw [hturn.returned hreturned]
        exact Call.midway_toCall rq _
    · rw [if_neg hpath]
      have hsame : updatesOf path s.1.calls ++ [] ++ updatesOf path [] =
          updatesOf path s.1.calls := by
        rw [List.append_nil]
        exact List.append_nil _
      rw [hsame]
      exact hturn
  · have hfiles : filesOf (s.2 ++ Event.commits s.1 (.run before.length io)) =
        c.commitTo (filesOf s.2) := by
      rw [Event.commits_run hcalls, filesOf_append]
      unfold Call.commitTo
      cases c.commit <;> rfl
    show InTurn path (fileOf (filesOf (s.2 ++ Event.commits s.1 (.run before.length io))) ctx' path)
      (before ++ c' :: after)
    rw [hfiles]
    unfold InTurn at hturn ⊢
    rw [hcalls, updatesOf_split] at hturn
    rw [updatesOf_split]
    by_cases hpath : c.target = some path
    · rw [if_pos hpath] at hturn
      rw [if_pos ((advance_target hadv).trans hpath)]
      rcases hturn with ⟨hnone, -⟩ | ⟨earlier, d, hupdates, hearlier, hmid⟩
      · simp at hnone
      · have hrunning : c.result = none := by
          by_contra hresult
          rw [advance_returned hresult] at hadv
          cases hadv
        rw [List.append_assoc, List.singleton_append] at hupdates
        obtain ⟨hlast, rfl, rfl⟩ := last_of_append_eq hupdates fun hc => hearlier c hc hrunning
        rw [hlast, List.append_nil]
        refine .inr ⟨updatesOf path before, c', rfl, hearlier, ?_⟩
        have hok : c.Ok s.1.ctx := hlin.consistent.ok c (by rw [hcalls]; simp)
        exact advance_midway hok hpath (File.sized_after _) hmid hadv
    · rw [if_neg hpath] at hturn
      rw [if_neg fun h => hpath ((advance_target hadv).symm.trans h), advance_elsewhere hpath hadv]
      exact hturn

/-- Every run of the machine has a log. -/
theorem exists_log {P : Machine → Event → Machine → Prop} {m : Machine}
    (h : (machine qs).Reachable P m) :
    ∃ log, (withLog qs).Reachable (fun s e s' => P s.1 e s'.1) (m, log) := by
  refine h.invariant (I := fun m => ∃ log,
    (withLog qs).Reachable (fun s e s' => P s.1 e s'.1) (m, log)) ⟨[], .refl⟩ ?_
  rintro m e m' ⟨log, hrun⟩ hstep hP
  have hlogged : (withLog qs).step (m, log) e = some (m', log ++ e.commits m) := by
    simp only [withLog, hstep, Option.map_some]
  exact ⟨_, TransitionSystem.Run.trans hrun (.single hlogged hP)⟩

/-- In every such run the updates of every path are in turn. -/
theorem inTurn_of_isolated {m : Machine} (h : (machine qs).Reachable (Isolated W) m) :
    ∃ log, Linearized W (m, log) ∧
      ∀ path, InTurn path (fileOf (filesOf log) m.ctx path) m.calls := by
  obtain ⟨log, hlogged⟩ := exists_log h
  refine ⟨log, hlogged.invariant (I := fun s : Machine × List (Nat × Commit) => Linearized W s ∧
    ∀ path, InTurn path (fileOf (filesOf s.2) s.1.ctx path) s.1.calls)
    ⟨.init, fun path => .inl ⟨rfl, rfl⟩⟩ ?_⟩
  intro s e s' hI hstep hP
  exact ⟨hI.1.step hstep hP.1, fun path => (hI.2 path).step hI.1 hstep hP⟩

/-- In every state of a run in which the updates of each path do not overlap with one another,
    and whatever calls on other paths are in flight, a path whose own updates have returned
    has the blocks and the size that these have made, one after the other. -/
theorem files_isolated {m : Machine} (hinj : ∀ a b, W a → W b → hash a = hash b → a = b)
    (h : (machine qs).Reachable (Isolated W) m) (path : CString)
    (hreturned : ∀ c ∈ m.calls, c.target = some path → c.result ≠ none) :
    fileOf (blockContent m.ctx) m.ctx path = .after (updatesOf path m.calls) := by
  obtain ⟨log, hlin, hturn⟩ := inTurn_of_isolated h
  rw [show blockContent m.ctx = filesOf log from funext (hlin.blockContent_eq hinj)]
  exact (hturn path).returned hreturned

end

/-! ## Two paths at a time -/

/-- A check that a replayed step is clean and overlaps no updates of one path. -/
def isolatedCheck (s : Machine) (e : Event) (s' : Machine) : Bool :=
  discardCheck s e s' && match e with
    | .dispatch rq => s.calls.all fun c => c.target ≠ rq.toCall.target ∨ c.result.isSome
    | .run _ _ => true

theorem isolated_of_check {W : List UInt8 → Prop} {s s' : Machine} {e : Event}
    (hblocks : e.BlocksIn W) (h : isolatedCheck s e s') : Isolated W s e s' := by
  simp only [isolatedCheck, Bool.and_eq_true] at h
  obtain ⟨hfew, hnot⟩ := noneDiscarded_of_discardCheck s e s' h.1
  refine ⟨⟨hfew, hnot, hblocks⟩, ?_⟩
  rintro rq path rfl hpath c hc htarget
  have hcheck := of_decide_eq_true (List.all_eq_true.mp h.2 c hc)
  rcases hcheck with hne | hreturned
  · exact absurd (htarget.trans hpath.symm) hne
  · exact Option.isSome_iff_ne_none.mp hreturned

/-- After two overlapping writes of the same block to `a` and `b`, an unlink of `a` overlaps
    with a truncate of `b`. -/
def overlappingRemovals : List Event :=
  overlappingWrites ++
    [.dispatch (.unlink pathA (.ok ())), .dispatch (.truncate pathB 4096 (.ok ())),
      .run 3 .complete, .run 2 .complete, .run 2 .complete, .run 3 .complete, .run 3 .complete,
      .run 2 .complete, .run 2 .complete, .run 3 .complete]

theorem overlappingRemovals_enabled : ((@machine Sha512.zeroBlock .mergeSort).replay
    isolatedCheck (@machine Sha512.zeroBlock .mergeSort).init overlappingRemovals).isSome := by
  decide +kernel

def afterOverlappingRemovals : Machine :=
  ((@machine Sha512.zeroBlock .mergeSort).replay isolatedCheck
    (@machine Sha512.zeroBlock .mergeSort).init overlappingRemovals).get overlappingRemovals_enabled

theorem files_isolated_of_overlappingRemovals :
    afterOverlappingRemovals.calls.map Call.result = [some 4096, some 8192, some 0, some 0] ∧
      (∀ path, fileOf (blockContent afterOverlappingRemovals.ctx) afterOverlappingRemovals.ctx
        path = .after (updatesOf path afterOverlappingRemovals.calls)) ∧
      (File.after (updatesOf pathA afterOverlappingRemovals.calls)).size = none ∧
      (File.after (updatesOf pathB afterOverlappingRemovals.calls)).size = some 4096 ∧
      ((File.after (updatesOf pathB afterOverlappingRemovals.calls)).blocks 0).isSome := by
  let _ := Sha512.zeroBlock
  have hblocks : ∀ e ∈ overlappingRemovals, e.BlocksIn IsZeroBlock := by
    simp [overlappingRemovals, overlappingWrites, sharedZeroWrites, Event.BlocksIn, blocksIn_zeros]
  have hreach : (machine .mergeSort).Reachable (Isolated IsZeroBlock) afterOverlappingRemovals :=
    .of_replay (fun s e he s' hc => isolated_of_check (hblocks e he) hc)
      (Option.some_get overlappingRemovals_enabled).symm
  have hreturned : ∀ c ∈ afterOverlappingRemovals.calls, c.result ≠ none := by
    have hall : afterOverlappingRemovals.calls.all (fun c => c.result.isSome) := by decide +kernel
    exact fun c hc => Option.isSome_iff_ne_none.mp (List.all_eq_true.mp hall c hc)
  exact ⟨by decide +kernel, fun path => files_isolated (fun a b ha hb _ => ha.trans hb.symm) hreach
    path (fun c hc _ => hreturned c hc), by decide +kernel, by decide +kernel, by decide +kernel⟩

end DedupBlockFS
