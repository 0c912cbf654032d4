-- SUMMARY: The machine behaves like files that change in one step per call: linearization points, and reads that overlap with other calls.
import DedupBlockFS.Concurrent.Dangling
import DedupBlockFS.Concurrent.Integrity
import DedupBlockFS.Sequential.Refinement

/-!
# Linearization

A write takes effect for its readers in one step, its pass 3, and a removal in the
section under the write lock. `withLog` records these steps, in their order, next to the
machine; the files that they produce one after the other are what the store stands for,
whatever the calls in flight have half done. A read takes effect at its phase 1.
-/

namespace DedupBlockFS

open ByteFile
open Table (values)

/-! ## Commits -/

/-- What a call does to the files, in one step. -/
inductive Commit where
  | write (req : WriteRequest)
  | remove (path : CString) (startBlock endBlock : Nat)

/-- The blocks of the range are gone. -/
def Files.remove (f : Files) (path : CString) (startBlock endBlock : Nat) : Files := fun k =>
  if k.path = path ∧ startBlock ≤ k.offset ∧ k.offset < endBlock then none else f k

def Commit.apply (f : Files) : Commit → Files
  | .write req => f.write req
  | .remove path startBlock endBlock => f.remove path startBlock endBlock

/-- What the next section of the call commits. -/
def Call.commit : Call → Option Commit
  | .write req (.consolidate _) => some (.write req)
  | .remove path startBlock endBlock .start => some (.remove path startBlock endBlock)
  | .unlink path _ (.remove numBlocks) => some (.remove path 0 numBlocks)
  | .truncate path _ _ (.remove newBlockCount oldBlockCount) =>
    some (.remove path newBlockCount oldBlockCount)
  | _ => none

/-- What the event commits, with the call that does. -/
def Event.commits (s : Machine) : Event → List (Nat × Commit)
  | .dispatch _ => []
  | .run tid _ => ((s.calls[tid]?.bind Call.commit).map fun cm => (tid, cm)).toList

/-- The files after the commits of a log, which is in the order of time. -/
def filesOf (log : List (Nat × Commit)) : Files :=
  log.foldl (fun f entry => entry.2.apply f) .empty

theorem filesOf_append (log log' : List (Nat × Commit)) :
    filesOf (log ++ log') = log'.foldl (fun f entry => entry.2.apply f) (filesOf log) :=
  List.foldl_append

section
variable [Sha512]

/-- The machine next to the log of its commits. -/
def withLog (qs : Qsort) : TransitionSystem (Machine × List (Nat × Commit)) Event where
  init := ((machine qs).init, [])
  step s e := ((machine qs).step s.1 e).map fun s' => (s', s.2 ++ e.commits s.1)

/-- The bounded runs over blocks among `W` in which no pass 3 discards a shared object. -/
def CleanIn (W : List UInt8 → Prop) (s : Machine × List (Nat × Commit)) (e : Event)
    (s' : Machine × List (Nat × Commit)) : Prop :=
  s'.1.FewReferences ∧ ¬s.1.Discards e ∧ e.BlocksIn W

/-! ## What a section does to the contents -/

variable {W : List UInt8 → Prop} {H Pd : Multiset Ptr} {O : Multiset Nat} {ctx ctx' : Context}
  {c c' : Call} {qs : Qsort} {io : PwriteResult} {f : Files} {k : BlockIndice}

omit [Sha512] in
/-- A section that commits nothing touches no mapping. -/
theorem Call.not_touches (h : c.commit = none) : ¬c.Touches k := by
  unfold Call.Touches
  split <;> first | exact id | cases h

/-- A section that leaves the mapping of a block leaves its content. -/
theorem contents_of_lookup (hl : Ledger W H Pd O ctx c) (hstep : CallStep W H Pd O ctx c ctx' c')
    (h : ctx'.index.fileToMaster.lookup k = ctx.index.fileToMaster.lookup k) :
    contents ctx' k = contents ctx k := by
  rw [contents, contents, h]
  refine Option.map_congr fun m hm => hstep.hash m (hl.accounts.refsLt m ?_)
  exact Multiset.mem_add.mpr (.inl (Table.mem_values_of_lookup hm))

/-- The section of a batch removal. -/
theorem contents_removeBlocks (path : CString) (startBlock endBlock : Nat)
    (hl : Ledger W H Pd O ctx c)
    (hstep : CallStep W H Pd O ctx c (ctx.closeSection (removeBlocksSection ctx.openSection path
      startBlock endBlock)) c')
    (hf : ∀ k, contents ctx k = (f k).map hash) :
    contents (ctx.closeSection (removeBlocksSection ctx.openSection path startBlock endBlock)) k =
      (f.remove path startBlock endBlock k).map hash := by
  have hlookup := removeBlocksSection_lookup ctx.openSection path startBlock endBlock k
  rw [Files.remove]
  by_cases hk : k.path = path ∧ startBlock ≤ k.offset ∧ k.offset < endBlock
  · rw [if_pos hk] at hlookup ⊢
    exact congrArg (Option.map _) hlookup
  · rw [if_neg hk] at hlookup ⊢
    rw [← hf k]
    exact contents_of_lookup hl hstep hlookup

/-- Pass 3, if it discards no shared object. -/
theorem contents_consolidate {req : WriteRequest} {plan : List PlanEntry}
    (hl : Ledger W H Pd O ctx (.write req (.consolidate plan)))
    (hshares : SharesSurvive ctx.index plan) (hf : ∀ k, contents ctx k = (f k).map hash) :
    contents (ctx.closeSection (pass3Section ctx.openSection req.path req.startBlock req.numBlocks
      plan)) k = (f.write req k).map hash := by
  have hc := hl.consolidated
  have hstep := callStep_consolidate hl
  obtain ⟨hflight, -⟩ := hl.ok
  rw [Files.write]
  by_cases hk : k.path = req.path ∧ req.startBlock ≤ k.offset ∧
      k.offset < req.startBlock + req.numBlocks
  · rw [if_pos hk]
    obtain ⟨hpath, hlow, hhigh⟩ := hk
    obtain ⟨m, hm, hpub⟩ := hc.lookup_published hflight.ok hl.accounts.keyed hshares
      (i := k.offset - req.startBlock) (by rw [hflight.length]; omega)
    have hkey : (⟨req.path, req.startBlock + (k.offset - req.startBlock)⟩ : BlockIndice) = k := by
      rw [Nat.add_sub_cancel' hlow, ← hpath]
    rw [hkey] at hm
    rw [contents, show (ctx.closeSection (pass3Section ctx.openSection req.path req.startBlock
      req.numBlocks plan)).index.fileToMaster.lookup k = some m from hm, Option.map_some]
    exact congrArg some (hstep.ledger.accounts.keyed hpub)
  · rw [if_neg hk, ← hf k]
    rw [← hflight.length] at hk
    exact contents_of_lookup hl hstep (hc.lookup_outside hflight.ok hk)

/-- Every section does to the contents what it commits. -/
theorem advance_contents (hl : Ledger W H Pd O ctx c) (hstep : CallStep W H Pd O ctx c ctx' c')
    (hadv : advance qs ctx io c = some (ctx', c'))
    (hshares : ∀ req plan, c = .write req (.consolidate plan) → SharesSurvive ctx.index plan)
    (hf : ∀ k, contents ctx k = (f k).map hash) :
    contents ctx' k = ((c.commit.elim f fun cm => cm.apply f) k).map hash := by
  cases hcm : c.commit with
  | none =>
    exact (contents_of_lookup hl hstep (advance_lookup hl hadv (Call.not_touches hcm))).trans (hf k)
  | some cm =>
    unfold Call.commit at hcm
    split at hcm
    · obtain rfl := Option.some.inj hcm
      simp only [advance, advanceWrite, Option.map_some, Option.some.injEq, Prod.mk.injEq] at hadv
      obtain ⟨rfl, rfl⟩ := hadv
      exact contents_consolidate hl (hshares _ _ rfl) hf
    · obtain rfl := Option.some.inj hcm
      simp only [advance, advanceRemove, Option.map_some, Option.some.injEq, Prod.mk.injEq] at hadv
      obtain ⟨rfl, rfl⟩ := hadv
      exact contents_removeBlocks _ _ _ hl hstep hf
    · obtain rfl := Option.some.inj hcm
      simp only [advance, advanceUnlink, Option.map_some, Option.some.injEq, Prod.mk.injEq] at hadv
      obtain ⟨rfl, rfl⟩ := hadv
      exact contents_removeBlocks _ _ _ hl hstep hf
    · obtain rfl := Option.some.inj hcm
      simp only [advance, advanceTruncate, Option.map_some, Option.some.injEq, Prod.mk.injEq] at hadv
      obtain ⟨rfl, rfl⟩ := hadv
      exact contents_removeBlocks _ _ _ hl hstep hf
    · cases hcm

/-! ## What the store stands for -/

/-- The mapped blocks of the machine are those that the committed updates produce, and
    their objects are live. -/
structure Linearized (W : List UInt8 → Prop) (s : Machine × List (Nat × Commit)) : Prop where
  consistent : s.1.Consistent W
  guarded : s.1.Guarded
  contents : ∀ k, contents s.1.ctx k = (filesOf s.2 k).map hash
  blocks : ∀ k b, filesOf s.2 k = some b → W b

variable {s s' : Machine × List (Nat × Commit)} {e : Event}

theorem Linearized.init : Linearized W (withLog qs).init where
  consistent := @Machine.Consistent.init _ W qs
  guarded := @Machine.Guarded.init _ qs
  contents _ := rfl
  blocks k b hb := by cases hb

omit [Sha512] in
theorem Commit.apply_blocks {cm : Commit} (hf : ∀ k b, f k = some b → W b)
    (hreq : ∀ req, cm = .write req → req.BlocksIn W) (k : BlockIndice) (b : List UInt8)
    (hb : cm.apply f k = some b) : W b := by
  cases cm with
  | write req =>
    simp only [Commit.apply, Files.write] at hb
    split at hb
    · obtain rfl := Option.some.inj hb
      exact hreq req rfl _ (by omega)
    · exact hf k b hb
  | remove path startBlock endBlock =>
    simp only [Commit.apply, Files.remove] at hb
    split at hb
    · cases hb
    · exact hf k b hb

omit [Sha512] in
/-- A write only commits its own request. -/
theorem Call.commit_write {req : WriteRequest} (h : c.commit = some (.write req)) :
    ∃ plan, c = .write req (.consolidate plan) := by
  unfold Call.commit at h
  split at h
  · simp only [Option.some.injEq, Commit.write.injEq] at h
    exact ⟨_, by rw [h]⟩
  all_goals cases h

omit [Sha512] in
/-- The step of a call in flight in the log. -/
theorem Event.commits_run {s : Machine} {before after : List Call}
    (hcalls : s.calls = before ++ c :: after) (io : PwriteResult) :
    Event.commits s (.run before.length io) =
      (c.commit.map fun cm => (before.length, cm)).toList := by
  have hcall : s.calls[before.length]? = some c := by
    rw [hcalls]
    simp
  rw [Event.commits, hcall, Option.bind_some]

/-- Every clean step keeps the machine linearized. -/
theorem Linearized.step (h : Linearized W s) (hstep : (withLog qs).step s e = some s')
    (hP : CleanIn W s e s') : Linearized W s' := by
  obtain ⟨s₁, hmach, rfl⟩ := Option.map_eq_some_iff.mp hstep
  obtain ⟨hfew, hnot, hblocks⟩ := hP
  refine ⟨h.consistent.step hmach ⟨hfew, hblocks⟩, h.guarded.step h.consistent hmach hfew hnot,
    ?_, ?_⟩
  all_goals
    rcases Machine.step_cases hmach with ⟨r, rfl, rfl⟩ |
      ⟨io, c, c', ctx', before, after, rfl, hcalls, hadv, rfl⟩
  · rw [Event.commits, List.append_nil]
    exact h.contents
  · intro k
    rw [Event.commits_run hcalls, filesOf_append]
    have hl := h.consistent.ledger hcalls
    have hcall := h.consistent.callStep hcalls hadv hfew
    have hk := advance_contents (k := k) hl hcall hadv (fun req plan hc => ?_) h.contents
    · rw [hk]
      cases c.commit <;> rfl
    · by_contra hshares
      refine hnot ⟨before.length, io, req, plan, rfl, ?_, hshares⟩
      rw [hcalls, hc]
      simp
  · rw [Event.commits, List.append_nil]
    exact h.blocks
  · rw [Event.commits_run hcalls, filesOf_append]
    cases hcm : c.commit with
    | none => exact h.blocks
    | some cm =>
      refine cm.apply_blocks h.blocks fun req hreq => ?_
      obtain ⟨plan, rfl⟩ := Call.commit_write (hreq ▸ hcm)
      exact h.consistent.blocks (.write req (.consolidate plan)) (by rw [hcalls]; simp)

theorem Linearized.reachable (h : (withLog qs).Reachable (CleanIn W) s) : Linearized W s :=
  h.invariant .init fun _ _ _ hs hstep hP => hs.step hstep hP

/-- Whatever is mapped is published. -/
theorem Linearized.published (h : Linearized W s) {m : Ptr}
    (hm : m ∈ values s.1.ctx.index.fileToMaster) : s.1.ctx.index.Published m := by
  rcases h.guarded.live m (Multiset.mem_add.mpr (.inl hm)) with hpub | hpend
  · exact hpub
  · obtain ⟨d, hd, hmd⟩ := mem_sum_map.mp hpend
    exact absurd hm (h.guarded.files d hd m hmd)

/-- Where different blocks have different hashes, the slots hold what the updates that are
    committed have written. -/
theorem Linearized.blockContent_eq (h : Linearized W s)
    (hinj : ∀ a b, W a → W b → hash a = hash b → a = b) (k : BlockIndice) :
    blockContent s.1.ctx k = filesOf s.2 k := by
  have hfile := h.contents k
  rw [DedupBlockFS.contents] at hfile
  rw [blockContent]
  cases hm : s.1.ctx.index.fileToMaster.lookup k with
  | none =>
    rw [hm, Option.map_none] at hfile
    rw [Option.map_none, Option.map_eq_none_iff.mp hfile.symm]
  | some m =>
    rw [hm, Option.map_some] at hfile
    obtain ⟨b, hb, hbhash⟩ := Option.map_eq_some_iff.mp hfile.symm
    obtain ⟨b', hW, hb', -, hstore⟩ := h.consistent.intact m
      (h.published (Table.mem_values_of_lookup hm))
    rw [Option.map_some, hb, hstore, hinj b b' (h.blocks k b hb) hW (hbhash.trans hb'.symm)]

/-! ## When a call commits -/

/-- What a call has committed by the time it is where it is. An unlink or a truncate that
    finds no blocks commits nothing, and so does a write that fails. -/
def Call.Committed (cms : List Commit) : Call → Prop
  | .write req (.concat _) => cms = [.write req] ∧ req.numBlocks ≠ 0 ∧ req.size % blockSize = 0
  | .write req (.done ret) =>
    cms = if req.numBlocks ≠ 0 ∧ req.size % blockSize = 0 ∧ ret = cInt req.size
      then [.write req] else []
  | .write _ (.rollbackHits _ rc) | .write _ (.rollbackConcat _ _ rc)
  | .write _ (.rollbackMisses _ rc) => cms = [] ∧ IsErrno rc
  | .write _ _ => cms = []
  | .remove _ _ _ .start => cms = []
  | .remove path startBlock endBlock _ => cms = [.remove path startBlock endBlock]
  | .unlink _ _ .start | .unlink _ _ (.remove _) => cms = []
  | .unlink path _ (.concat _) | .unlink path _ .dropSize =>
    ∃ numBlocks, cms = [.remove path 0 numBlocks]
  | .unlink path _ (.done _) => cms = [] ∨ ∃ numBlocks, cms = [.remove path 0 numBlocks]
  | .truncate _ _ _ .start => cms = []
  | .truncate _ size _ (.remove newBlockCount _) => cms = [] ∧ newBlockCount = blocksOfSize size
  | .truncate path size _ (.concat _) | .truncate path size _ .setSize =>
    ∃ oldBlockCount, cms = [.remove path (blocksOfSize size) oldBlockCount]
  | .truncate path size _ (.done _) =>
    cms = [] ∨ ∃ oldBlockCount, cms = [.remove path (blocksOfSize size) oldBlockCount]
  | .read _ _ => cms = []

omit [Sha512] in
theorem Call.committed_toCall (r : Request) : r.toCall.Committed [] := by
  cases r <;> rfl

variable {cms : List Commit} {req : WriteRequest} {pc pc' : WritePc}

theorem committed_write (hok : (Call.write req pc).Ok ctx) (h : (Call.write req pc).Committed cms)
    (hadv : advanceWrite ctx req io pc = some (ctx', pc')) :
    (Call.write req pc').Committed (cms ++ (Call.write req pc).commit.toList) := by
  cases pc with
  | start =>
    obtain rfl : cms = [] := h
    simp only [advanceWrite] at hadv
    split at hadv
    · rename_i hsize
      obtain ⟨rfl, rfl⟩ := Prod.ext_iff.mp (Option.some.inj hadv)
      have hnone : req.numBlocks = 0 := by rw [WriteRequest.numBlocks, hsize, Nat.zero_div]
      exact (if_neg fun hif => hif.1 hnone).symm
    · split at hadv
      · rename_i hbad
        obtain ⟨rfl, rfl⟩ := Prod.ext_iff.mp (Option.some.inj hadv)
        exact (if_neg fun hif => hbad.elim hif.1 fun h => h hif.2.1).symm
      · obtain ⟨rfl, rfl⟩ := Prod.ext_iff.mp (Option.some.inj hadv)
        dsimp only
        split <;> rfl
  | drain plan missCount =>
    obtain rfl : cms = [] := h
    simp only [advanceWrite] at hadv
    split at hadv <;>
    · obtain ⟨rfl, rfl⟩ := Prod.ext_iff.mp (Option.some.inj hadv)
      rfl
  | append plan taken remaining =>
    obtain rfl : cms = [] := h
    obtain ⟨rfl, rfl⟩ := Prod.ext_iff.mp (Option.some.inj hadv)
    rfl
  | flush plan todo =>
    obtain rfl : cms = [] := h
    simp only [advanceWrite] at hadv
    split at hadv
    · obtain ⟨rfl, rfl⟩ := Prod.ext_iff.mp (Option.some.inj hadv)
      rfl
    · obtain ⟨rfl, rfl⟩ := Prod.ext_iff.mp (Option.some.inj hadv)
      dsimp only
      split
      · rfl
      · exact ⟨rfl, isErrno_flushError io⟩
  | consolidate plan =>
    obtain rfl : cms = [] := h
    obtain ⟨rfl, rfl⟩ := Prod.ext_iff.mp (Option.some.inj hadv)
    obtain ⟨hflight, -⟩ := hok
    refine ⟨rfl, hflight.nonempty, ?_⟩
    rw [hflight.aligned]
    exact Nat.mul_mod_left _ _
  | concat slots =>
    obtain ⟨rfl, hpos, haligned⟩ := h
    obtain ⟨rfl, rfl⟩ := Prod.ext_iff.mp (Option.some.inj hadv)
    refine (if_pos ⟨hpos, haligned, ?_⟩).symm
    rw [WriteRequest.numBlocks, Nat.div_mul_cancel (Nat.dvd_of_mod_eq_zero haligned)]
  | rollbackHits plan rc =>
    obtain ⟨rfl, hrc⟩ := h
    obtain ⟨rfl, rfl⟩ := Prod.ext_iff.mp (Option.some.inj hadv)
    exact ⟨rfl, hrc⟩
  | rollbackConcat plan slots rc =>
    obtain ⟨rfl, hrc⟩ := h
    obtain ⟨rfl, rfl⟩ := Prod.ext_iff.mp (Option.some.inj hadv)
    exact ⟨rfl, hrc⟩
  | rollbackMisses plan rc =>
    obtain ⟨rfl, hrc⟩ := h
    obtain ⟨rfl, rfl⟩ := Prod.ext_iff.mp (Option.some.inj hadv)
    exact (if_neg fun hif => hrc.ne_cInt hif.2.1 hif.2.2).symm
  | done rc => cases hadv

/-- A section of a call adds its commit to what the call has committed. -/
theorem advance_committed (hok : c.Ok ctx) (h : c.Committed cms)
    (hstep : advance qs ctx io c = some (ctx', c')) : c'.Committed (cms ++ c.commit.toList) := by
  cases c with
  | write req pc =>
    obtain ⟨⟨ctx₁, pc'⟩, hadv, hres⟩ := Option.map_eq_some_iff.mp hstep
    obtain ⟨rfl, rfl⟩ := Prod.ext_iff.mp hres
    exact committed_write hok h hadv
  | remove path startBlock endBlock pc =>
    obtain ⟨⟨ctx₁, pc'⟩, hadv, hres⟩ := Option.map_eq_some_iff.mp hstep
    obtain ⟨rfl, rfl⟩ := Prod.ext_iff.mp hres
    cases pc with
    | start | concat slots =>
      obtain rfl := h
      obtain ⟨rfl, rfl⟩ := Prod.ext_iff.mp (Option.some.inj hadv)
      rfl
    | done => cases hadv
  | unlink path res pc =>
    obtain ⟨⟨ctx₁, pc'⟩, hadv, hres⟩ := Option.map_eq_some_iff.mp hstep
    obtain ⟨rfl, rfl⟩ := Prod.ext_iff.mp hres
    cases pc with
    | start =>
      obtain rfl : cms = [] := h
      simp only [advanceUnlink] at hadv
      split at hadv
      · obtain ⟨rfl, rfl⟩ := Prod.ext_iff.mp (Option.some.inj hadv)
        exact .inl rfl
      · obtain ⟨rfl, rfl⟩ := Prod.ext_iff.mp (Option.some.inj hadv)
        rfl
    | remove numBlocks =>
      obtain rfl : cms = [] := h
      obtain ⟨rfl, rfl⟩ := Prod.ext_iff.mp (Option.some.inj hadv)
      exact ⟨numBlocks, rfl⟩
    | concat slots =>
      obtain ⟨numBlocks, rfl⟩ := h
      obtain ⟨rfl, rfl⟩ := Prod.ext_iff.mp (Option.some.inj hadv)
      exact ⟨numBlocks, rfl⟩
    | dropSize =>
      obtain ⟨numBlocks, rfl⟩ := h
      obtain ⟨rfl, rfl⟩ := Prod.ext_iff.mp (Option.some.inj hadv)
      exact .inr ⟨numBlocks, rfl⟩
    | done ret => cases hadv
  | truncate path size res pc =>
    obtain ⟨⟨ctx₁, pc'⟩, hadv, hres⟩ := Option.map_eq_some_iff.mp hstep
    obtain ⟨rfl, rfl⟩ := Prod.ext_iff.mp hres
    cases pc with
    | start =>
      obtain rfl : cms = [] := h
      simp only [advanceTruncate] at hadv
      split at hadv
      · obtain ⟨rfl, rfl⟩ := Prod.ext_iff.mp (Option.some.inj hadv)
        exact .inl rfl
      · split at hadv
        · obtain ⟨rfl, rfl⟩ := Prod.ext_iff.mp (Option.some.inj hadv)
          exact .inl rfl
        · rename_i newBlockCount oldBlockCount hlookup
          obtain ⟨rfl, rfl⟩ := Prod.ext_iff.mp (Option.some.inj hadv)
          refine ⟨rfl, ?_⟩
          simp only [truncateLookup] at hlookup
          split at hlookup
          · cases hlookup
          · split at hlookup
            · exact (congrArg Prod.fst (Option.some.inj hlookup)).symm
            · cases hlookup
    | remove newBlockCount oldBlockCount =>
      obtain ⟨rfl, rfl⟩ := h
      obtain ⟨rfl, rfl⟩ := Prod.ext_iff.mp (Option.some.inj hadv)
      exact ⟨oldBlockCount, rfl⟩
    | concat slots =>
      obtain ⟨oldBlockCount, rfl⟩ := h
      obtain ⟨rfl, rfl⟩ := Prod.ext_iff.mp (Option.some.inj hadv)
      exact ⟨oldBlockCount, rfl⟩
    | setSize =>
      obtain ⟨oldBlockCount, rfl⟩ := h
      obtain ⟨rfl, rfl⟩ := Prod.ext_iff.mp (Option.some.inj hadv)
      exact .inr ⟨oldBlockCount, rfl⟩
    | done ret => cases hadv
  | read req pc =>
    obtain rfl : cms = [] := h
    obtain ⟨pc', hadv, hres⟩ := Option.map_eq_some_iff.mp hstep
    obtain ⟨rfl, rfl⟩ := Prod.ext_iff.mp hres
    rfl

/-! ## The log -/

omit [Sha512] in
/-- The commits of one call, in their order. -/
def commitsOf (tid : Nat) (log : List (Nat × Commit)) : List Commit :=
  log.filterMap fun entry => if entry.1 = tid then some entry.2 else none

omit [Sha512] in
theorem commitsOf_append (tid : Nat) (log log' : List (Nat × Commit)) :
    commitsOf tid (log ++ log') = commitsOf tid log ++ commitsOf tid log' :=
  List.filterMap_append

omit [Sha512] in
theorem commitsOf_of_ne (tid : Nat) {log : List (Nat × Commit)}
    (h : ∀ entry ∈ log, entry.1 ≠ tid) : commitsOf tid log = [] :=
  List.filterMap_eq_nil_iff.mpr fun entry hentry => if_neg (h entry hentry)

/-- The log has the commits of each call, and of dispatched calls only. -/
structure Logged (s : Machine × List (Nat × Commit)) : Prop where
  calls : ∀ tid (c : Call), s.1.calls[tid]? = some c → c.Committed (commitsOf tid s.2)
  known : ∀ entry ∈ s.2, entry.1 < s.1.calls.length

omit [Sha512] in
theorem mem_map_toList {tid : Nat} {o : Option Commit} {entry : Nat × Commit}
    (h : entry ∈ (o.map fun cm => (tid, cm)).toList) : entry.1 = tid ∧ o = some entry.2 := by
  cases o with
  | none => cases h
  | some cm =>
    obtain rfl := List.mem_singleton.mp h
    exact ⟨rfl, rfl⟩

/-- Every step of a consistent machine logs what it commits. -/
theorem Logged.step (hs : s.1.Consistent W) (h : Logged s)
    (hstep : (withLog qs).step s e = some s') : Logged s' := by
  obtain ⟨s₁, hmach, rfl⟩ := Option.map_eq_some_iff.mp hstep
  rcases Machine.step_cases hmach with ⟨r, rfl, rfl⟩ |
    ⟨io, c, c', ctx', before, after, rfl, hcalls, hadv, rfl⟩
  · rw [Event.commits, List.append_nil]
    refine ⟨fun tid d hd => ?_, fun entry hentry => ?_⟩
    · rcases Nat.lt_or_ge tid s.1.calls.length with hlt | hge
      · rw [List.getElem?_append_left hlt] at hd
        exact h.calls tid d hd
      · rw [List.getElem?_append_right hge, List.getElem?_singleton] at hd
        split at hd
        · obtain rfl := Option.some.inj hd
          rw [commitsOf_of_ne tid fun entry hentry =>
            Nat.ne_of_lt ((h.known entry hentry).trans_le hge)]
          exact Call.committed_toCall r
        · cases hd
    · exact (h.known entry hentry).trans_le (by simp)
  · rw [Event.commits_run hcalls]
    refine ⟨fun tid d hd => ?_, fun entry hentry => ?_⟩
    · rw [commitsOf_append]
      by_cases htid : tid = before.length
      · subst htid
        obtain rfl : c' = d := by simpa using hd
        have hcall := h.calls before.length c (by rw [hcalls]; simp)
        have hown : commitsOf before.length (c.commit.map fun cm => (before.length, cm)).toList =
            c.commit.toList := by
          cases c.commit with
          | none => rfl
          | some cm => simp [commitsOf]
        rw [hown]
        exact advance_committed (hs.ok c (by rw [hcalls]; simp)) hcall hadv
      · rw [commitsOf_of_ne tid fun entry hentry heq =>
          htid (heq.symm.trans (mem_map_toList hentry).1), List.append_nil]
        refine h.calls tid d ?_
        have hset : before ++ c' :: after = s.1.calls.set before.length c' := by
          rw [hcalls]
          simp
        rw [hset, List.getElem?_set_ne (Ne.symm htid)] at hd
        exact hd
    · have hlen : (before ++ c' :: after).length = s.1.calls.length := by
        rw [hcalls]
        simp
      rw [hlen]
      rcases List.mem_append.mp hentry with hold | hnew
      · exact h.known entry hold
      · rw [(mem_map_toList hnew).1, hcalls]
        simp

omit [Sha512] in
/-- Only a call in flight commits. -/
theorem Call.result_of_commit {cm : Commit} (h : c.commit = some cm) : c.result = none := by
  unfold Call.commit at h
  split at h <;> first | rfl | cases h

theorem advance_returned (h : c.result ≠ none) : advance qs ctx io c = none := by
  unfold Call.result at h
  split at h <;> first | rfl | exact absurd rfl h

/-- What a run adds to the log, the calls that had returned before have no part in. -/
theorem log_grows {P : Machine × List (Nat × Commit) → Event → Machine × List (Nat × Commit) → Prop}
    (hrun : (withLog qs).Run P s s') : ∃ new, s'.2 = s.2 ++ new ∧
      ∀ entry ∈ new, ∀ c : Call, s.1.calls[entry.1]? = some c → c.result = none := by
  refine (hrun.invariant (I := fun s' : Machine × List (Nat × Commit) => (∃ new, s'.2 = s.2 ++ new ∧
      ∀ entry ∈ new, ∀ c : Call, s.1.calls[entry.1]? = some c → c.result = none) ∧
    ∀ (tid : Nat) (c : Call), s.1.calls[tid]? = some c → c.result ≠ none → s'.1.calls[tid]? = some c)
    ?_ ⟨⟨[], (List.append_nil _).symm, fun _ h => by cases h⟩, fun _ _ hc _ => hc⟩).1
  rintro s₁ e s₂ ⟨⟨new, hlog, hnew⟩, hstay⟩ hstep -
  obtain ⟨m, hmach, rfl⟩ := Option.map_eq_some_iff.mp hstep
  refine ⟨⟨new ++ e.commits s₁.1, by rw [hlog, List.append_assoc], fun entry hentry c hc => ?_⟩,
    fun tid c hc hres => ?_⟩
  · rcases List.mem_append.mp hentry with hold | hlast
    · exact hnew entry hold c hc
    · by_contra hres
      have hcall := hstay entry.1 c hc hres
      cases e with
      | dispatch r => cases hlast
      | run tid io =>
        obtain ⟨rfl, hcommit⟩ := mem_map_toList hlast
        rw [hcall, Option.bind_some] at hcommit
        exact hres (Call.result_of_commit hcommit)
  · have hcall := hstay tid c hc hres
    refine Machine.step_other hmach hcall fun io he => ?_
    subst he
    obtain ⟨c', hadv, -⟩ := Machine.step_self hmach hcall
    rw [advance_returned hres] at hadv
    cases hadv

/-- In every state that a clean run reaches, the slots hold what the committed updates
    have written, one after the other in the order of their commits. Each call commits
    what it is about, once, if it returns success, and nothing if it fails; and a call
    that has returned commits nothing later, so the order of the commits is compatible
    with the order in which calls return and are dispatched. -/
theorem updates_linearize {log : List (Nat × Commit)} {m : Machine}
    (hinj : ∀ a b, W a → W b → hash a = hash b → a = b)
    (h : (withLog qs).Reachable (CleanIn W) (m, log)) :
    (∀ k, blockContent m.ctx k = filesOf log k) ∧
      (∀ tid (c : Call), m.calls[tid]? = some c → c.Committed (commitsOf tid log)) ∧
      (∀ entry ∈ log, entry.1 < m.calls.length) ∧
      ∀ m' log', (withLog qs).Run (CleanIn W) (m, log) (m', log') →
        ∃ new, log' = log ++ new ∧
          ∀ entry ∈ new, ∀ c : Call, m.calls[entry.1]? = some c → c.result = none := by
  have hlogged : Logged (m, log) := (h.invariant (I := fun s => Linearized W s ∧ Logged s)
    ⟨.init, ⟨fun _ _ hc => (by cases hc), fun _ hentry => (by cases hentry)⟩⟩
    fun s e s' hI hstep hP => ⟨hI.1.step hstep hP, hI.2.step hI.1.consistent hstep⟩).2
  exact ⟨(Linearized.reachable h).blockContent_eq hinj, hlogged.calls, hlogged.known,
    fun _ _ hrun => log_grows hrun⟩

end

/-! ## Two overlapping writes -/

/-- `sharedZeroWrites`, then the write to `b` consolidates before the one to `a`, and both
    return. -/
def overlappingWrites : List Event :=
  sharedZeroWrites ++ [.run 1 .complete, .run 0 .complete, .run 1 .complete, .run 0 .complete]

theorem cleanIn_of_discardCheck {W : List UInt8 → Prop} {s s' : Machine × List (Nat × Commit)}
    {e : Event} (hblocks : e.BlocksIn W) (h : discardCheck s.1 e s'.1) : CleanIn W s e s' :=
  have hnone := noneDiscarded_of_discardCheck s.1 e s'.1 h
  ⟨hnone.1, hnone.2, hblocks⟩

theorem overlappingWrites_enabled : ((@withLog Sha512.zeroBlock .mergeSort).replay
    (fun s e s' => discardCheck s.1 e s'.1) (@withLog Sha512.zeroBlock .mergeSort).init
    overlappingWrites).isSome := by
  decide +kernel

def afterOverlappingWrites : Machine × List (Nat × Commit) :=
  ((@withLog Sha512.zeroBlock .mergeSort).replay (fun s e s' => discardCheck s.1 e s'.1)
    (@withLog Sha512.zeroBlock .mergeSort).init overlappingWrites).get overlappingWrites_enabled

theorem afterOverlappingWrites_reachable : (@withLog Sha512.zeroBlock .mergeSort).Reachable
    (CleanIn IsZeroBlock) afterOverlappingWrites := by
  let _ := Sha512.zeroBlock
  have hblocks : ∀ e ∈ overlappingWrites, e.BlocksIn IsZeroBlock := by
    simp [overlappingWrites, sharedZeroWrites, Event.BlocksIn, blocksIn_zeros]
  exact .of_replay (fun s e he s' hc => cleanIn_of_discardCheck (hblocks e he) hc)
    (Option.some_get overlappingWrites_enabled).symm

theorem updates_linearize_of_overlappingWrites :
    afterOverlappingWrites.2.map Prod.fst = [1, 0] ∧
      (∀ k, blockContent afterOverlappingWrites.1.ctx k = filesOf afterOverlappingWrites.2 k) ∧
      ∀ tid (c : Call), afterOverlappingWrites.1.calls[tid]? = some c →
        c.Committed (commitsOf tid afterOverlappingWrites.2) := by
  let _ := Sha512.zeroBlock
  have hlin := updates_linearize (fun a b ha hb _ => ha.trans hb.symm)
    afterOverlappingWrites_reachable
  exact ⟨by decide +kernel, hlin.1, hlin.2.1⟩

end DedupBlockFS
