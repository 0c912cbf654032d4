-- SUMMARY: A read that overlaps with other calls returns the files as they are at its phase 1.
import DedupBlockFS.Concurrent.Linearization

/-!
# Snapshots

A read looks all its blocks up in one section and reads their slots afterwards, without a
lock. As long as the objects that it has looked up stay published until they are read, it
returns the blocks that the updates committed before its phase 1 have left, even if later
updates have overwritten or removed them by the time it returns.
-/

namespace DedupBlockFS

open ByteFile
open Table (values)

section
variable [Sha512]

/-! ## Reads whose objects stay published -/

variable {W : List UInt8 → Prop} {qs : Qsort} {s s' s₀ s₁ s₂ : Machine × List (Nat × Commit)}
  {e : Event} {tid : Nat} {io : PwriteResult} {hashOf : Ptr → Hash} {req : ReadRequest}
  {infos : List Ptr} {buf : List UInt8}

/-- The clean runs in which the objects `infos` stay published as long as the call `tid`
    has a `pread` ahead of it. -/
def CleanStay (W : List UInt8 → Prop) (tid : Nat) (infos : List Ptr)
    (s : Machine × List (Nat × Commit)) (e : Event) (s' : Machine × List (Nat × Commit)) : Prop :=
  CleanIn W s e s' ∧ (s.1.Reading tid → ∀ m ∈ infos, s.1.ctx.index.Published m)

/-- The log does not interfere. -/
theorem machine_step_of_withLog (hstep : (withLog qs).step s e = some s') :
    (machine qs).step s.1 e = some s'.1 := by
  obtain ⟨m, hmach, rfl⟩ := Option.map_eq_some_iff.mp hstep
  exact hmach

/-- A clean run keeps the read on its way. -/
theorem Machine.ReadInv.clean (h : s.1.ReadInv W tid req infos hashOf)
    (hsize : infos.length * blockSize ≤ req.size)
    (hrun : (withLog qs).Run (CleanStay W tid infos) s s') :
    s'.1.ReadInv W tid req infos hashOf := by
  refine hrun.invariant (I := fun s => s.1.ReadInv W tid req infos hashOf)
    (fun s e s' hinv hstep hP => ?_) h
  obtain ⟨⟨hfew, -, hblocks⟩, hstay⟩ := hP
  exact hinv.step hsize (machine_step_of_withLog hstep) hfew hblocks hstay

/-- A read of `req` returns from the files `f`: the longest run of blocks that they have,
    from its offset on. -/
def ReturnsFrom (f : Files) (req : ReadRequest) (ret : Int) (buf : List UInt8) : Prop :=
  ∃ k ≤ req.numBlocks, ret = cInt (k * blockSize) ∧
    (∀ i < k, f (req.key i) = some (pread buf (i * blockSize) blockSize)) ∧
    (k < req.numBlocks → f (req.key k) = none)

/-- A read that has returned, in a machine that still had its objects, returns from the
    files as they were at its phase 1. -/
theorem Machine.ReadInv.returns (hlin : Linearized W s₀)
    (hinj : ∀ a b, W a → W b → hash a = hash b → a = b)
    (h : s.1.ReadInv W tid req (req.infos s₀.1.ctx.index) fun m => (s₀.1.ctx.heap.cell m).hash)
    {ret : Int} (hdone : s.1.calls[tid]? = some (.read req (.done ret buf))) :
    ReturnsFrom (filesOf s₀.2) req ret buf := by
  obtain ⟨pc, hpc, hprogress⟩ := h.call
  obtain rfl : pc = .done ret buf := by simpa using hpc.symm.trans hdone
  have hnone : (req.infos s₀.1.ctx.index).length < req.numBlocks →
      s₀.1.ctx.index.fileToMaster.lookup (req.key (req.infos s₀.1.ctx.index).length) = none :=
    lookup_length_lookupInfos
  refine ⟨(req.infos s₀.1.ctx.index).length, length_lookupInfos_le, hprogress.1, fun i hi => ?_,
    fun hlt => ?_⟩
  · have hget := List.getElem?_eq_getElem hi
    obtain ⟨hW, hhash⟩ := (hprogress.2.blocks i _ hget).resolve_left List.not_mem_nil
    have hfile := hlin.contents (req.key i)
    rw [contents, show s₀.1.ctx.index.fileToMaster.lookup (req.key i) = _ from
      lookup_of_lookupInfos hget, Option.map_some] at hfile
    obtain ⟨b, hb, hbhash⟩ := Option.map_eq_some_iff.mp hfile.symm
    rw [hb, hinj b _ (hlin.blocks _ b hb) hW (hbhash.trans hhash.symm)]
  · have hfile := hlin.contents (req.key (req.infos s₀.1.ctx.index).length)
    rw [contents, hnone hlt, Option.map_none] at hfile
    exact Option.map_eq_none_iff.mp hfile.symm

/-! ## Reads whose blocks nobody touches -/

/-- The clean runs in which no call maps or unmaps a block of the read. -/
def LeavesBlocks (W : List UInt8 → Prop) (req : ReadRequest) (s : Machine × List (Nat × Commit))
    (e : Event) (s' : Machine × List (Nat × Commit)) : Prop :=
  CleanIn W s e s' ∧ ∀ tid io (c : Call), e = .run tid io → s.1.calls[tid]? = some c →
    ∀ i < req.numBlocks, ¬c.Touches (req.key i)

/-- In the machine the blocks of the read are mapped as in the index `ix`. -/
def MappedAs (ix : Index) (req : ReadRequest) (s : Machine × List (Nat × Commit)) : Prop :=
  ∀ i < req.numBlocks,
    s.1.ctx.index.fileToMaster.lookup (req.key i) = ix.fileToMaster.lookup (req.key i)

theorem MappedAs.step {ix : Index} (hlin : Linearized W s) (h : MappedAs ix req s)
    (hstep : (withLog qs).step s e = some s') (hP : LeavesBlocks W req s e s') :
    MappedAs ix req s' := by
  obtain ⟨m, hmach, rfl⟩ := Option.map_eq_some_iff.mp hstep
  intro i hi
  rw [← h i hi]
  rcases Machine.step_cases hmach with ⟨r, rfl, rfl⟩ |
    ⟨io, c, c', ctx', before, after, rfl, hcalls, hadv, rfl⟩
  · rfl
  · refine advance_lookup (hlin.consistent.ledger hcalls) hadv
      (hP.2 before.length io c rfl ?_ i hi)
    rw [hcalls]
    simp

/-- The objects of a read whose blocks stay mapped to them stay published. -/
theorem MappedAs.published {ix : Index} (hlin : Linearized W s) (h : MappedAs ix req s) {m : Ptr}
    (hm : m ∈ req.infos ix) : s.1.ctx.index.Published m := by
  obtain ⟨i, hi⟩ := List.mem_iff_getElem?.mp hm
  have hlt := (List.getElem?_eq_some_iff.mp hi).1.trans_le length_lookupInfos_le
  exact hlin.published (Table.mem_values_of_lookup ((h i hlt).trans (lookup_of_lookupInfos hi)))

/-- In a run that leaves its blocks alone, a read keeps its objects. -/
theorem cleanStay_of_leavesBlocks {ix : Index} (tid : Nat) (hlin : Linearized W s)
    (h : MappedAs ix req s) (hrun : (withLog qs).Run (LeavesBlocks W req) s s') :
    (withLog qs).Run (CleanStay W tid (req.infos ix)) s s' := by
  refine (hrun.strengthen (I := fun s => Linearized W s ∧ MappedAs ix req s)
    (fun s e s' hI hstep hP => ⟨hI.1.step hstep hP.1, hI.2.step hI.1 hstep hP⟩) ⟨hlin, h⟩).mono ?_
  rintro s e s' ⟨⟨hlin, h⟩, hP⟩
  exact ⟨hP.1, fun _ m hm => h.published hlin hm⟩

/-- A read that overlaps with any other calls returns from the files that the updates
    committed before its phase 1 have left, if the objects that it has looked up stay
    published until they are read; and they do if no other call touches its blocks. -/
theorem reads_see_snapshot (hinj : ∀ a b, W a → W b → hash a = hash b → a = b)
    (h : (withLog qs).Reachable (CleanIn W) s₀) (hcall : s₀.1.calls[tid]? = some (.read req .start))
    (hpos : req.numBlocks ≠ 0) (haligned : req.size % blockSize = 0)
    (hstep : (withLog qs).step s₀ (.run tid io) = some s₁) (hP : CleanIn W s₀ (.run tid io) s₁)
    (hrun : (withLog qs).Run (CleanStay W tid (req.infos s₀.1.ctx.index)) s₁ s₂ ∨
      (withLog qs).Run (LeavesBlocks W req) s₁ s₂) {ret : Int}
    (hdone : s₂.1.calls[tid]? = some (.read req (.done ret buf))) :
    ReturnsFrom (filesOf s₀.2) req ret buf := by
  have hlin := Linearized.reachable h
  have hstart := Machine.ReadInv.start hlin.consistent hcall hpos haligned
    (machine_step_of_withLog hstep) hP.1
  have hsize : (req.infos s₀.1.ctx.index).length * blockSize ≤ req.size :=
    (Nat.mul_le_mul_right _ length_lookupInfos_le).trans (Nat.div_mul_le_self _ _)
  have hclean : (withLog qs).Run (CleanStay W tid (req.infos s₀.1.ctx.index)) s₁ s₂ := by
    refine hrun.elim id (cleanStay_of_leavesBlocks tid (hlin.step hstep hP) ?_)
    have hleaves : LeavesBlocks W req s₀ (.run tid io) s₁ := by
      refine ⟨hP, fun tid' io' c he hc i hi htouch => ?_⟩
      obtain ⟨rfl, rfl⟩ := Event.run.inj he
      obtain rfl := Option.some.inj (hcall.symm.trans hc)
      exact htouch
    exact MappedAs.step hlin (fun _ _ => rfl) hstep hleaves
  exact (hstart.clean hsize hclean).returns hlin hinj hdone

end

/-! ## A read whose block is removed before it is read -/

/-- A block of zeros is written to `a` and to `b`; then a read of `a` is dispatched, and a
    removal of its block. -/
def beforeRemoval : List Event :=
  .dispatch (.write (.zeros pathA 0 1)) :: List.replicate 7 (.run 0 .complete) ++
    .dispatch (.write (.zeros pathB 0 1)) :: List.replicate 3 (.run 1 .complete) ++
    [.dispatch (.read readFirstBlock), .dispatch (.remove pathA 0 1)]

/-- The block is removed between phase 1 of the read and its `pread`. -/
def removal : List Event := [.run 3 .complete, .run 3 .complete, .run 2 .complete, .run 2 .complete]

theorem beforeRemoval_enabled : ((@withLog Sha512.zeroBlock .mergeSort).replay
    (fun s e s' => discardCheck s.1 e s'.1) (@withLog Sha512.zeroBlock .mergeSort).init
    beforeRemoval).isSome := by
  decide +kernel

def removalStart : Machine × List (Nat × Commit) :=
  ((@withLog Sha512.zeroBlock .mergeSort).replay (fun s e s' => discardCheck s.1 e s'.1)
    (@withLog Sha512.zeroBlock .mergeSort).init beforeRemoval).get beforeRemoval_enabled

theorem removalLookup_enabled :
    ((@withLog Sha512.zeroBlock .mergeSort).step removalStart (.run 2 .complete)).isSome := by
  decide +kernel

/-- The state after phase 1 of the read. -/
def removalLookup : Machine × List (Nat × Commit) :=
  ((@withLog Sha512.zeroBlock .mergeSort).step removalStart (.run 2 .complete)).get
    removalLookup_enabled

/-- The step is clean, and the objects are published before it. -/
def cleanStayCheck (infos : List Ptr) (s : Machine × List (Nat × Commit)) (e : Event)
    (s' : Machine × List (Nat × Commit)) : Bool :=
  discardCheck s.1 e s'.1 &&
    infos.all fun m => decide (m ∈ Table.values s.1.ctx.index.hashToMaster)

theorem removal_enabled : ((@withLog Sha512.zeroBlock .mergeSort).replay
    (cleanStayCheck (readFirstBlock.infos removalStart.1.ctx.index)) removalLookup
    removal).isSome := by
  decide +kernel

/-- The state after the read has returned. -/
def removalEnd : Machine × List (Nat × Commit) :=
  ((@withLog Sha512.zeroBlock .mergeSort).replay
    (cleanStayCheck (readFirstBlock.infos removalStart.1.ctx.index)) removalLookup removal).get
    removal_enabled

theorem reads_see_snapshot_of_removal :
    ∃ ret buf, removalEnd.1.calls[2]? = some (.read readFirstBlock (.done ret buf)) ∧ ret = 4096 ∧
      ReturnsFrom (filesOf removalStart.2) readFirstBlock ret buf ∧
      filesOf removalEnd.2 (readFirstBlock.key 0) = none := by
  let _ := Sha512.zeroBlock
  have hblocks : ∀ e ∈ beforeRemoval, e.BlocksIn IsZeroBlock := by
    simp [beforeRemoval, Event.BlocksIn, blocksIn_zeros]
  have hreach : (withLog .mergeSort).Reachable (CleanIn IsZeroBlock) removalStart :=
    .of_replay (fun s e he s' hc => cleanIn_of_discardCheck (hblocks e he) hc)
      (Option.some_get beforeRemoval_enabled).symm
  have hcall : removalStart.1.calls[2]? = some (.read readFirstBlock .start) := rfl
  have hlookup : (withLog .mergeSort).step removalStart (.run 2 .complete) = some removalLookup :=
    (Option.some_get removalLookup_enabled).symm
  have hclean : CleanIn IsZeroBlock removalStart (.run 2 .complete) removalLookup :=
    cleanIn_of_discardCheck trivial (by decide +kernel)
  have hblocks' : ∀ e ∈ removal, e.BlocksIn IsZeroBlock := by
    simp [removal, Event.BlocksIn]
  have hrun : (withLog .mergeSort).Run
      (CleanStay IsZeroBlock 2 (readFirstBlock.infos removalStart.1.ctx.index))
      removalLookup removalEnd := by
    refine .of_replay (fun s e he s' hc => ?_) (Option.some_get removal_enabled).symm
    simp only [cleanStayCheck, Bool.and_eq_true, List.all_eq_true, decide_eq_true_eq] at hc
    exact ⟨cleanIn_of_discardCheck (hblocks' e he) hc.1, fun _ => hc.2⟩
  have hlin : Linearized IsZeroBlock removalStart := .reachable hreach
  have hinv := (Machine.ReadInv.start hlin.consistent hcall (by decide) (by decide)
    (machine_step_of_withLog hlookup) hclean.1).clean (by decide +kernel) hrun
  obtain ⟨pc, hpc, -⟩ := hinv.call
  have hreturned : (removalEnd.1.calls[2]?.bind Call.result) = some 4096 := by decide +kernel
  rw [hpc] at hreturned
  cases pc with
  | done ret buf =>
    exact ⟨ret, buf, hpc, Option.some.inj hreturned,
      reads_see_snapshot (fun a b ha hb _ => ha.trans hb.symm) hreach hcall (by decide) (by decide)
        hlookup hclean (.inl hrun) hpc, by decide +kernel⟩
  | _ => cases hreturned

end DedupBlockFS
