-- SUMMARY: Calls on the same path: which consolidations leave no block behind when unlinks and truncates are in flight.
import DedupBlockFS.Concurrent.Mapping

/-!
# Calls on the same path

An unlink or a truncate looks at the size once and acts on it in later sections. From
its lookup on, it takes certain blocks for absent (`Call.Allows` says which may be
there). Pass 3 of a write that maps a block some call takes for absent leaves a block
nobody will remove; if no pass 3 does so, every mapped block stays below the size of
its file. Nothing here depends on counters, so no bound on references is needed.
-/

namespace DedupBlockFS

open ByteFile

/-- Which blocks may be mapped while the call is where it is. -/
def Call.Allows (path : CString) (b : Nat) : Call → Prop
  | .unlink p _ (.remove numBlocks) => path = p → b < numBlocks
  | .unlink p _ (.concat _) | .unlink p _ .dropSize => path ≠ p
  | .truncate p _ _ (.remove _ oldBlockCount) => path = p → b < oldBlockCount
  | .truncate p size _ (.concat _) | .truncate p size _ .setSize => path = p → b * blockSize < size
  | _ => True

/-- The plan of a write that is in flight. -/
def WritePc.plan : WritePc → List PlanEntry
  | .drain plan _ | .append plan _ _ | .flush plan _ | .consolidate plan | .rollbackHits plan _
  | .rollbackConcat plan _ _ | .rollbackMisses plan _ => plan
  | .start | .concat _ | .done _ => []

/-- The local variables of the call fit its arguments: a plan is about the blocks of its
    request, and a truncate removes from its own size on. -/
def Call.Aimed : Call → Prop
  | .write req pc => ∀ e ∈ pc.plan,
    req.startBlock ≤ e.logicalBlk ∧ e.logicalBlk < req.startBlock + req.numBlocks
  | .truncate _ size _ (.remove newBlockCount _) => newBlockCount = blocksOfSize size
  | _ => True

/-! ## One step -/

/-- What a step of a call does if it maps no block that the call itself takes for absent:
    sizes still cover the mapped blocks, and new blocks are mapped by pass 3 only. -/
structure TidyStep (ctx : Context) (c : Call) (ctx' : Context) (c' : Call) : Prop where
  sized : Sized ctx'.index
  allowed : ∀ q b, Mapped ctx'.index q b → c'.Allows q b
  aimed : c'.Aimed
  mapped : ∀ q b, Mapped ctx'.index q b → Mapped ctx.index q b ∨
    ∃ req plan, c = .write req (.consolidate plan) ∧ q = req.path ∧
      ∃ i < req.numBlocks, b = req.startBlock + i

variable {ctx ctx' : Context} {c c' : Call}

/-- A step that leaves mappings and sizes alone. -/
theorem TidyStep.of_same (hsized : Sized ctx.index)
    (hfiles : ctx'.index.fileToMaster = ctx.index.fileToMaster)
    (hsizes : ctx'.index.fileToSizes = ctx.index.fileToSizes)
    (hallowed : ∀ q b, Mapped ctx.index q b → c'.Allows q b) (haimed : c'.Aimed) :
    TidyStep ctx c ctx' c' := by
  have hmapped : ∀ q b, Mapped ctx'.index q b → Mapped ctx.index q b := fun q b =>
    (mapped_congr hfiles).mp
  refine ⟨hsized.mono (fun q => by rw [hsizes]) hmapped, fun q b h => ?_, haimed,
    fun q b h => .inl (hmapped q b h)⟩
  exact hallowed q b (hmapped q b h)

/-- A removal, after which the call takes no mapped block outside its range for absent. -/
theorem TidyStep.of_removed (hsized : Sized ctx.index) {path : CString} {startBlock endBlock : Nat}
    (hctx : ctx' = ctx.closeSection (removeBlocksSection ctx.openSection path startBlock endBlock))
    (hallowed : ∀ q b, Mapped ctx.index q b → ¬(q = path ∧ startBlock ≤ b ∧ b < endBlock) →
      c'.Allows q b) (haimed : c'.Aimed) : TidyStep ctx c ctx' c' := by
  subst hctx
  have hsizes : (removeBlocksSection ctx.openSection path startBlock endBlock).index.fileToSizes =
      ctx.index.fileToSizes := removeBlocks_fileToSizes ctx.openSection _
  refine ⟨hsized.mono (fun q => congrArg (AList.lookup q) hsizes) fun q b h => ?_,
    fun q b h => ?_, haimed, fun q b h => .inl (mapped_of_removeBlocks h).1⟩
  · exact (mapped_of_removeBlocks h).1
  · obtain ⟨hold, hout⟩ := mapped_of_removeBlocks h
    exact hallowed q b hold hout

/-- Sizes change, and the mapped blocks stay below them. -/
theorem TidyStep.of_sizes {sizes : Table CString Nat}
    (hctx : ctx' = { ctx with index := { ctx.index with fileToSizes := sizes } })
    (hsized : Sized ctx'.index) (hallowed : ∀ q b, Mapped ctx.index q b → c'.Allows q b)
    (haimed : c'.Aimed) : TidyStep ctx c ctx' c' := by
  subst hctx
  exact ⟨hsized, hallowed, haimed, fun q b h => .inl h⟩

section
variable [Sha512] {req : WriteRequest} {pc pc' : WritePc} {io : PwriteResult}

/-- Whatever the other calls do, a plan stays about the blocks of its request. -/
theorem advanceWrite_aimed {ctx ctx' : Context} (haimed : (Call.write req pc).Aimed)
    (h : advanceWrite ctx req io pc = some (ctx', pc')) : (Call.write req pc').Aimed := by
  have hstore : ∀ (ctx : Context) plan slots,
      (∀ e ∈ plan, req.startBlock ≤ e.logicalBlk ∧
        e.logicalBlk < req.startBlock + req.numBlocks) →
      (Call.write req (storeSlots ctx plan slots).2).Aimed := by
    intro ctx plan slots hplan e' he'
    obtain ⟨i, hi⟩ := List.mem_iff_getElem?.mp he'
    obtain ⟨e, he, slot, rfl⟩ := forall₂_getElem? (assignSlots_slotChanged ctx.heap plan slots) hi
    exact hplan e (List.mem_of_getElem? he)
  have hnil : ∀ e ∈ ([] : List PlanEntry), req.startBlock ≤ e.logicalBlk ∧
      e.logicalBlk < req.startBlock + req.numBlocks := fun e he => by cases he
  cases pc with
  | start =>
    simp only [advanceWrite] at h
    split at h
    · obtain ⟨-, rfl⟩ := Prod.ext_iff.mp (Option.some.inj h)
      exact hnil
    · split at h
      · obtain ⟨-, rfl⟩ := Prod.ext_iff.mp (Option.some.inj h)
        exact hnil
      · obtain ⟨-, rfl⟩ := Prod.ext_iff.mp (Option.some.inj h)
        have hplan : ∀ e ∈ (pass1 ctx.index ctx.heap req.buf req.startBlock req.numBlocks).plan,
            req.startBlock ≤ e.logicalBlk ∧ e.logicalBlk < req.startBlock + req.numBlocks := by
          intro e he
          have hmem := List.mem_map_of_mem (f := PlanEntry.logicalBlk) he
          rwa [pass1_logicalBlk, List.mem_range'_1] at hmem
        dsimp only
        split <;> exact hplan
  | drain plan missCount =>
    simp only [advanceWrite] at h
    split at h
    · obtain ⟨-, rfl⟩ := Prod.ext_iff.mp (Option.some.inj h)
      exact haimed
    · obtain ⟨-, rfl⟩ := Prod.ext_iff.mp (Option.some.inj h)
      exact hstore _ plan _ haimed
  | append plan taken remaining =>
    obtain ⟨-, rfl⟩ := Prod.ext_iff.mp (Option.some.inj h)
    exact hstore _ plan _ haimed
  | flush plan todo =>
    simp only [advanceWrite] at h
    split at h
    · obtain ⟨-, rfl⟩ := Prod.ext_iff.mp (Option.some.inj h)
      exact haimed
    · obtain ⟨-, rfl⟩ := Prod.ext_iff.mp (Option.some.inj h)
      dsimp only
      split <;> exact haimed
  | rollbackHits plan rc | rollbackConcat plan slots rc =>
    obtain ⟨-, rfl⟩ := Prod.ext_iff.mp (Option.some.inj h)
    exact haimed
  | consolidate plan | concat slots | rollbackMisses plan rc =>
    obtain ⟨-, rfl⟩ := Prod.ext_iff.mp (Option.some.inj h)
    exact hnil
  | done rc => cases h

theorem tidyStep_write (hsized : Sized ctx.index) (haimed : (Call.write req pc).Aimed)
    (h : advanceWrite ctx req io pc = some (ctx', pc')) :
    TidyStep ctx (.write req pc) ctx' (.write req pc') := by
  have haimed' := advanceWrite_aimed haimed h
  rcases advanceWrite_tables h with ⟨plan, rfl, rfl⟩ | ⟨hfiles, hsizes, -⟩
  · have hmapped : ∀ q b, Mapped (pass3Section ctx.openSection req.path req.startBlock req.numBlocks
        plan).index q b → Mapped ctx.index q b ∨ (q = req.path ∧
          ∃ i < req.numBlocks, b = req.startBlock + i) := by
      intro q b h
      refine (mapped_pass3Section.mp h).imp_right ?_
      rintro ⟨rfl, e, he, rfl⟩
      obtain ⟨hge, hlt⟩ := haimed e he
      exact ⟨rfl, e.logicalBlk - req.startBlock, by omega, by omega⟩
    refine ⟨hsized.grow pass3Section_sizes fun q b h => ?_, fun _ _ _ => trivial, haimed',
      fun q b h => ?_⟩
    · refine (hmapped q b h).imp_right ?_
      rintro ⟨hq, i, hi, rfl⟩
      exact ⟨hq, Nat.mul_lt_mul_of_pos_right (by omega) (by decide)⟩
    · exact (hmapped q b h).imp_right fun ⟨hq, i, hi, hb⟩ => ⟨req, plan, rfl, hq, i, hi, hb⟩
  · exact .of_same hsized hfiles hsizes (fun _ _ _ => trivial) haimed'

end

theorem tidyStep_unlink {path : CString} {res : SyscallResult} {pc pc' : UnlinkPc}
    (hsized : Sized ctx.index)
    (hallowed : ∀ q b, Mapped ctx.index q b → (Call.unlink path res pc).Allows q b)
    (h : advanceUnlink ctx path res pc = some (ctx', pc')) :
    TidyStep ctx (.unlink path res pc) ctx' (.unlink path res pc') := by
  cases pc with
  | start =>
    simp only [advanceUnlink] at h
    split at h
    · obtain ⟨rfl, rfl⟩ := Prod.ext_iff.mp (Option.some.inj h)
      exact .of_same hsized rfl rfl (fun _ _ _ => trivial) trivial
    · rename_i numBlocks hlookup
      obtain ⟨rfl, rfl⟩ := Prod.ext_iff.mp (Option.some.inj h)
      refine .of_same hsized rfl rfl (fun q b hb hq => ?_) trivial
      obtain ⟨size, hsize, hlt⟩ := hsized.of_mapped hb
      rw [unlinkLookup, ← hq, hsize] at hlookup
      exact Option.some.inj hlookup ▸ lt_blocksOfSize.mpr hlt
  | remove numBlocks =>
    obtain ⟨rfl, rfl⟩ := Prod.ext_iff.mp (Option.some.inj h)
    refine .of_removed hsized rfl (fun q b hb hout hq => ?_) trivial
    exact hout ⟨hq, Nat.zero_le b, hallowed q b hb hq⟩
  | concat slots =>
    obtain ⟨rfl, rfl⟩ := Prod.ext_iff.mp (Option.some.inj h)
    exact .of_same hsized rfl rfl hallowed trivial
  | dropSize =>
    obtain ⟨rfl, rfl⟩ := Prod.ext_iff.mp (Option.some.inj h)
    refine .of_sizes rfl (fun q b m hm => ?_) (fun _ _ _ => trivial) trivial
    obtain ⟨size, hsize, hlt⟩ := hsized q b m hm
    exact ⟨size, (AList.lookup_erase_ne (hallowed q b (mapped_of_lookup hm))).trans hsize, hlt⟩
  | done ret => cases h

theorem tidyStep_truncate {path : CString} {size : Nat} {res : SyscallResult} {pc pc' : TruncatePc}
    (hsized : Sized ctx.index) (haimed : (Call.truncate path size res pc).Aimed)
    (hallowed : ∀ q b, Mapped ctx.index q b → (Call.truncate path size res pc).Allows q b)
    (h : advanceTruncate ctx path size res pc = some (ctx', pc')) :
    TidyStep ctx (.truncate path size res pc) ctx' (.truncate path size res pc') := by
  cases pc with
  | start =>
    simp only [advanceTruncate] at h
    split at h
    · obtain ⟨rfl, rfl⟩ := Prod.ext_iff.mp (Option.some.inj h)
      exact .of_same hsized rfl rfl (fun _ _ _ => trivial) trivial
    split at h
    · obtain ⟨rfl, rfl⟩ := Prod.ext_iff.mp (Option.some.inj h)
      exact .of_same hsized rfl rfl (fun _ _ _ => trivial) trivial
    · rename_i newBlockCount oldBlockCount hlookup
      obtain ⟨rfl, rfl⟩ := Prod.ext_iff.mp (Option.some.inj h)
      simp only [truncateLookup] at hlookup
      split at hlookup
      · cases hlookup
      rename_i old hold
      split at hlookup
      · obtain ⟨rfl, rfl⟩ := Prod.ext_iff.mp (Option.some.inj hlookup)
        refine .of_same hsized rfl rfl (fun q b hb hq => ?_) rfl
        obtain ⟨size', hsize', hlt⟩ := hsized.of_mapped hb
        rw [hq, hold] at hsize'
        exact lt_blocksOfSize.mpr (Option.some.inj hsize' ▸ hlt)
      · cases hlookup
  | remove newBlockCount oldBlockCount =>
    obtain ⟨rfl, rfl⟩ := Prod.ext_iff.mp (Option.some.inj h)
    refine .of_removed hsized rfl (fun q b hb hout hq => ?_) trivial
    rw [← lt_blocksOfSize, ← show newBlockCount = blocksOfSize size from haimed]
    exact not_le.mp fun hge => hout ⟨hq, hge, hallowed q b hb hq⟩
  | concat slots =>
    obtain ⟨rfl, rfl⟩ := Prod.ext_iff.mp (Option.some.inj h)
    exact .of_same hsized rfl rfl hallowed trivial
  | setSize =>
    obtain ⟨rfl, rfl⟩ := Prod.ext_iff.mp (Option.some.inj h)
    refine .of_sizes (truncateSetSize_eq ctx path size) (fun q b m hm => ?_) (fun _ _ _ => trivial)
      trivial
    have hm' : ctx.index.lookupByFileBlock q b = some m := by rwa [truncateSetSize_eq] at hm
    obtain ⟨old, hold, hlt⟩ := hsized q b m hm'
    unfold truncateSetSize
    split
    · exact ⟨old, hold, hlt⟩
    split
    · by_cases hq : q = path
      · subst hq
        exact ⟨size, AList.lookup_insert _, hallowed q b (mapped_of_lookup hm') rfl⟩
      · exact ⟨old, (AList.lookup_insert_ne hq).trans hold, hlt⟩
    · exact ⟨old, hold, hlt⟩
  | done ret => cases h

theorem tidyStep_remove {path : CString} {startBlock endBlock : Nat} {pc pc' : RemovePc}
    (hsized : Sized ctx.index) (h : advanceRemove ctx path startBlock endBlock pc = some (ctx', pc')) :
    TidyStep ctx (.remove path startBlock endBlock pc) ctx' (.remove path startBlock endBlock pc') := by
  cases pc with
  | start =>
    obtain ⟨rfl, rfl⟩ := Prod.ext_iff.mp (Option.some.inj h)
    exact .of_removed hsized rfl (fun _ _ _ _ => trivial) trivial
  | concat slots =>
    obtain ⟨rfl, rfl⟩ := Prod.ext_iff.mp (Option.some.inj h)
    exact .of_same hsized rfl rfl (fun _ _ _ => trivial) trivial
  | done => cases h

/-! ## Runs -/

section
variable [Sha512] {qs : Qsort} {io : PwriteResult} {s s' : Machine} {e : Event}

theorem advance_tidyStep (hsized : Sized ctx.index) (haimed : c.Aimed)
    (hallowed : ∀ q b, Mapped ctx.index q b → c.Allows q b)
    (h : advance qs ctx io c = some (ctx', c')) : TidyStep ctx c ctx' c' := by
  cases c with
  | write req pc =>
    obtain ⟨⟨ctx₁, pc'⟩, hadv, hres⟩ := Option.map_eq_some_iff.mp h
    obtain ⟨rfl, rfl⟩ := Prod.ext_iff.mp hres
    exact tidyStep_write hsized haimed hadv
  | remove path startBlock endBlock pc =>
    obtain ⟨⟨ctx₁, pc'⟩, hadv, hres⟩ := Option.map_eq_some_iff.mp h
    obtain ⟨rfl, rfl⟩ := Prod.ext_iff.mp hres
    exact tidyStep_remove hsized hadv
  | unlink path res pc =>
    obtain ⟨⟨ctx₁, pc'⟩, hadv, hres⟩ := Option.map_eq_some_iff.mp h
    obtain ⟨rfl, rfl⟩ := Prod.ext_iff.mp hres
    exact tidyStep_unlink hsized hallowed hadv
  | truncate path size res pc =>
    obtain ⟨⟨ctx₁, pc'⟩, hadv, hres⟩ := Option.map_eq_some_iff.mp h
    obtain ⟨rfl, rfl⟩ := Prod.ext_iff.mp hres
    exact tidyStep_truncate hsized haimed hallowed hadv
  | read req pc =>
    obtain ⟨pc', -, hres⟩ := Option.map_eq_some_iff.mp h
    obtain ⟨rfl, rfl⟩ := Prod.ext_iff.mp hres
    exact .of_same hsized rfl rfl (fun _ _ _ => trivial) trivial

/-- The mapped blocks lie below the sizes of their files, and no call takes one of them
    for absent. -/
structure Machine.Tidy (s : Machine) : Prop where
  sized : Sized s.ctx.index
  allowed : ∀ c ∈ s.calls, ∀ q b, Mapped s.ctx.index q b → c.Allows q b
  aimed : ∀ c ∈ s.calls, c.Aimed

/-- The runs in which no pass 3 maps a block that a call in flight takes for absent. -/
def Undisturbed (s : Machine) (e : Event) (_ : Machine) : Prop :=
  ∀ tid io req plan, e = .run tid io → s.calls[tid]? = some (.write req (.consolidate plan)) →
    ∀ c ∈ s.calls, ∀ i < req.numBlocks, c.Allows req.path (req.startBlock + i)

theorem Machine.Tidy.init : (machine qs).init.Tidy where
  sized path b m hm := by cases hm
  allowed c hc := by cases hc
  aimed c hc := by cases hc

theorem Machine.Tidy.step (hs : s.Tidy) (hstep : (machine qs).step s e = some s')
    (hP : Undisturbed s e s') : s'.Tidy := by
  rcases Machine.step_cases hstep with ⟨r, rfl, rfl⟩ |
    ⟨io, c, c', ctx', before, after, rfl, hcalls, hadv, rfl⟩
  · refine ⟨hs.sized, fun c hc q b hb => ?_, fun c hc => ?_⟩
    · rcases List.mem_append.mp hc with hc | hc
      · exact hs.allowed c hc q b hb
      · obtain rfl := List.mem_singleton.mp hc
        cases r <;> trivial
    · rcases List.mem_append.mp hc with hc | hc
      · exact hs.aimed c hc
      · obtain rfl := List.mem_singleton.mp hc
        cases r with
        | write req => exact fun e he => by cases he
        | _ => trivial
  have hmem : c ∈ s.calls := by
    rw [hcalls]
    simp
  have htidy := advance_tidyStep hs.sized (hs.aimed c hmem) (hs.allowed c hmem) hadv
  have hcall : s.calls[before.length]? = some c := by
    rw [hcalls]
    simp
  -- the other calls admit the blocks that were mapped before and those mapped now
  have hothers : ∀ d ∈ s.calls, ∀ q b, Mapped ctx'.index q b → d.Allows q b := by
    intro d hd q b hb
    rcases htidy.mapped q b hb with hold | ⟨req, plan, rfl, rfl, i, hi, rfl⟩
    · exact hs.allowed d hd q b hold
    · exact hP before.length io req plan rfl hcall d hd i hi
  have hsplit : ∀ d ∈ before ++ c' :: after, d = c' ∨ d ∈ s.calls := by
    intro d hd
    rw [hcalls]
    simp only [List.mem_append, List.mem_cons] at hd ⊢
    tauto
  refine ⟨htidy.sized, fun d hd q b hb => ?_, fun d hd => ?_⟩
  · rcases hsplit d hd with rfl | hd
    · exact htidy.allowed q b hb
    · exact hothers d hd q b hb
  · rcases hsplit d hd with rfl | hd
    · exact htidy.aimed
    · exact hs.aimed d hd

theorem Machine.Tidy.reachable (h : (machine qs).Reachable Undisturbed s) : s.Tidy :=
  h.invariant .init fun _ _ _ hs hstep hP => hs.step hstep hP

/-- In every state of an undisturbed run every mapped block lies below the size of its
    file; a path without a size has no mapped block, and an unlink of the file leaves
    none. -/
theorem no_ghost_blocks (h : (machine qs).Reachable Undisturbed s) (path : CString) :
    (∀ b m, s.ctx.index.lookupByFileBlock path b = some m →
      ∃ size, s.ctx.index.fileToSizes.lookup path = some size ∧ b * blockSize < size) ∧
    (s.ctx.index.fileToSizes.lookup path = none → ∀ b, ¬Mapped s.ctx.index path b) ∧
    ∀ res b, ¬Mapped (xmpUnlink s.ctx path res).1.index path b := by
  have hsized := (Machine.Tidy.reachable h).sized
  have hnone : s.ctx.index.fileToSizes.lookup path = none → ∀ b, ¬Mapped s.ctx.index path b :=
    fun hnone b => hsized.unmapped (by rw [hnone, Option.getD_none]) b
  refine ⟨hsized path, hnone, fun res b hb => ?_⟩
  cases hsize : s.ctx.index.fileToSizes.lookup path with
  | none =>
    rw [xmpUnlink_of_none res hsize] at hb
    exact hnone hsize b hb
  | some size =>
    rw [xmpUnlink_of_some res hsize, Mapped] at hb
    refine hb ((removeBlocksDedupBatch_lookup ..).trans ?_)
    split
    · rfl
    · rename_i hout
      rw [Option.eq_none_iff_forall_ne_some]
      intro m hm
      obtain ⟨size', hsize', hlt⟩ := hsized path b m hm
      rw [hsize] at hsize'
      exact hout ⟨rfl, Nat.zero_le b, Option.some.inj hsize' ▸ lt_blocksOfSize.mpr hlt⟩

end

/-! ## Two runs -/

instance (path : CString) (b : Nat) : (c : Call) → Decidable (c.Allows path b)
  | .unlink p _ (.remove numBlocks) => inferInstanceAs (Decidable (path = p → b < numBlocks))
  | .unlink p _ (.concat _) | .unlink p _ .dropSize => inferInstanceAs (Decidable (path ≠ p))
  | .truncate p _ _ (.remove _ oldBlockCount) =>
    inferInstanceAs (Decidable (path = p → b < oldBlockCount))
  | .truncate p size _ (.concat _) | .truncate p size _ .setSize =>
    inferInstanceAs (Decidable (path = p → b * blockSize < size))
  | .unlink _ _ .start | .unlink _ _ (.done _) | .truncate _ _ _ .start
  | .truncate _ _ _ (.done _) | .write _ _ | .remove _ _ _ _ | .read _ _ => .isTrue trivial

/-- A check that a replayed step is undisturbed. -/
def undisturbedCheck (s : Machine) (e : Event) (_ : Machine) : Bool :=
  match e with
  | .dispatch _ => true
  | .run tid _ =>
    match s.calls[tid]? with
    | some (.write req (.consolidate _)) =>
      s.calls.all fun c => (List.range req.numBlocks).all fun i =>
        c.Allows req.path (req.startBlock + i)
    | _ => true

theorem undisturbed_of_check (s : Machine) (e : Event) (s' : Machine)
    (h : undisturbedCheck s e s') : Undisturbed s e s' := by
  rintro tid io req plan rfl hcall c hc i hi
  simp only [undisturbedCheck, hcall, List.all_eq_true, decide_eq_true_eq, List.mem_range] at h
  exact h c hc i hi

/-- `a` has one block when an unlink looks its size up; then the block is written again,
    and the unlink goes on. -/
def overwriteDuringUnlink : List Event :=
  .dispatch (.write (.zeros pathA 0 1)) :: List.replicate 7 (.run 0 .complete) ++
    [.dispatch (.unlink pathA (.ok ())), .run 1 .complete,
      .dispatch (.write (.zeros pathA 0 1)), .run 2 .complete, .run 2 .complete,
      .run 2 .complete, .run 1 .complete, .run 1 .complete, .run 1 .complete]

theorem overwriteDuringUnlink_enabled : ((@machine Sha512.zeroBlock .mergeSort).replay
    undisturbedCheck (@machine Sha512.zeroBlock .mergeSort).init overwriteDuringUnlink).isSome := by
  decide +kernel

def afterOverwriteDuringUnlink : Machine :=
  ((@machine Sha512.zeroBlock .mergeSort).replay undisturbedCheck
    (@machine Sha512.zeroBlock .mergeSort).init overwriteDuringUnlink).get
    overwriteDuringUnlink_enabled

theorem no_ghost_blocks_of_overwriteDuringUnlink :
    afterOverwriteDuringUnlink.calls.map Call.result = [some 4096, some 0, some 4096] ∧
      afterOverwriteDuringUnlink.ctx.index.fileToSizes.lookup pathA = none ∧
      ∀ b, ¬Mapped afterOverwriteDuringUnlink.ctx.index pathA b := by
  have hreach : (@machine Sha512.zeroBlock .mergeSort).Reachable Undisturbed
      afterOverwriteDuringUnlink :=
    .of_replay (fun s e _ s' hc => undisturbed_of_check s e s' hc)
      (Option.some_get overwriteDuringUnlink_enabled).symm
  have hnone : afterOverwriteDuringUnlink.ctx.index.fileToSizes.lookup pathA = none := by
    decide +kernel
  exact ⟨by decide +kernel, hnone, (@no_ghost_blocks Sha512.zeroBlock .mergeSort _ hreach _).2.1 hnone⟩

/-- The same, but the write adds a second block. -/
def appendDuringUnlink : List Event :=
  .dispatch (.write (.zeros pathA 0 1)) :: List.replicate 7 (.run 0 .complete) ++
    [.dispatch (.unlink pathA (.ok ())), .run 1 .complete,
      .dispatch (.write (.zeros pathA 1 1)), .run 2 .complete, .run 2 .complete,
      .run 2 .complete, .run 1 .complete, .run 1 .complete, .run 1 .complete]

theorem appendDuringUnlink_enabled : ((@machine Sha512.zeroBlock .mergeSort).replay
    (fun _ _ _ => true) (@machine Sha512.zeroBlock .mergeSort).init appendDuringUnlink).isSome := by
  decide +kernel

def afterAppendDuringUnlink : Machine :=
  ((@machine Sha512.zeroBlock .mergeSort).replay (fun _ _ _ => true)
    (@machine Sha512.zeroBlock .mergeSort).init appendDuringUnlink).get appendDuringUnlink_enabled

/-- All calls on `a` have returned, it has no size, and its second block is still mapped. -/
theorem not_no_ghost_blocks :
    (@machine Sha512.zeroBlock .mergeSort).Reachable (fun _ _ _ => True) afterAppendDuringUnlink ∧
      afterAppendDuringUnlink.calls.map Call.result = [some 4096, some 0, some 4096] ∧
      afterAppendDuringUnlink.ctx.index.fileToSizes.lookup pathA = none ∧
      afterAppendDuringUnlink.ctx.index.lookupByFileBlock pathA 1 = some 0 :=
  ⟨.of_replay (fun _ _ _ _ _ => trivial) (Option.some_get appendDuringUnlink_enabled).symm,
    by decide +kernel, by decide +kernel, by decide +kernel⟩

end DedupBlockFS
