-- SUMMARY: References to freed objects: no section makes one, except a pass 3 that discards a pending object its plan shares.
import DedupBlockFS.Concurrent.Memory

/-!
# Dangling references

A pending object is known to the call that has created it and to nobody else. So whoever
frees an object holds the last reference to it, with one exception: the double check of
pass 3 frees a pending object although HITs of the same plan may share it. Their blocks
are then mapped to freed memory.
-/

namespace DedupBlockFS

open ByteFile
open Table (values)

/-! ## How a section hands objects on -/

/-- Between the two states of a section nobody else learns of a pending object: what is
    referred to afterwards was referred to, is published, or is pending in the call. -/
structure Handover (ctx : Context) (c : Call) (ctx' : Context) (c' : Call) : Prop where
  fresh : ∀ m ∈ c'.pending, m ∈ c.pending ∨ ctx.heap.brk ≤ m
  holds : ∀ m ∈ c'.holds, m ∈ c.holds ∨ ctx.index.Published m ∨ m ∈ c'.pending
  files : ∀ m ∈ values ctx'.index.fileToMaster, m ∈ values ctx.index.fileToMaster ∨
    ctx.index.Published m ∨ (m ∈ c.holds ∧ c'.pending = 0)

/-- The pending objects of the call are referred to by nobody else. -/
def Private (H : Multiset Ptr) (ctx : Context) (c : Call) : Prop :=
  ∀ m ∈ c.pending, m ∉ values ctx.index.fileToMaster + H

/-- Every pending object of the call is still pending, or published, or no longer
    referred to. -/
def Settles (H : Multiset Ptr) (c : Call) (ctx' : Context) (c' : Call) : Prop :=
  ∀ m ∈ c.pending, m ∈ c'.pending ∨ ctx'.index.Published m ∨
    m ∉ values ctx'.index.fileToMaster + (c'.holds + H)

section
variable {H : Multiset Ptr} {ctx ctx' : Context} {c c' : Call}

/-- A section that keeps its pending objects and takes no references. -/
theorem Handover.of_le (hpending : c'.pending = c.pending) (hholds : c'.holds ≤ c.holds)
    (hfiles : ∀ m ∈ values ctx'.index.fileToMaster, m ∈ values ctx.index.fileToMaster) :
    Handover ctx c ctx' c' where
  fresh _ hm := .inl (hpending ▸ hm)
  holds _ hm := .inl (Multiset.mem_of_le hholds hm)
  files m hm := .inl (hfiles m hm)

theorem Settles.of_eq (hpending : c'.pending = c.pending) : Settles H c ctx' c' := fun _ hm =>
  .inl (hpending ▸ hm)

/-- A batch removal leaves a part of the mappings. -/
theorem mem_files_of_removeBlocks {path : CString} {startBlock endBlock : Nat} {m : Ptr}
    (hm : m ∈ values (ctx.closeSection (removeBlocksSection ctx.openSection path startBlock
      endBlock)).index.fileToMaster) : m ∈ values ctx.index.fileToMaster := by
  obtain ⟨k, hk⟩ := Table.mem_values.mp hm
  have hlookup := removeBlocksSection_lookup ctx.openSection path startBlock endBlock k
  rw [show (removeBlocksSection ctx.openSection path startBlock endBlock).index.fileToMaster.lookup k
    = some m from hk] at hlookup
  split at hlookup
  · cases hlookup
  · exact Table.mem_values_of_lookup hlookup.symm

end

/-! ## Sections of a write -/

section
variable [Sha512]
variable {W : List UInt8 → Prop} {H Pd : Multiset Ptr} {O : Multiset Nat} {ctx ctx' : Context}
  {c c' : Call} {qs : Qsort} {io : PwriteResult} {req : WriteRequest} {plan : List PlanEntry}

/-- The pending objects of pass 1 are new, and its HITs are on published ones or on its own. -/
theorem handover_pass1
    (hl' : Ledger W H Pd O { ctx with heap := (pass1 ctx.index ctx.heap req.buf req.startBlock
      req.numBlocks).heap } (afterPass1 req (pass1 ctx.index ctx.heap req.buf req.startBlock
        req.numBlocks))) :
    Handover ctx (.write req .start)
      { ctx with heap := (pass1 ctx.index ctx.heap req.buf req.startBlock req.numBlocks).heap }
      (afterPass1 req (pass1 ctx.index ctx.heap req.buf req.startBlock req.numBlocks)) := by
  have halloc := pass1_allocates ctx.index ctx.heap req.buf req.startBlock req.numBlocks
  set p := pass1 ctx.index ctx.heap req.buf req.startBlock req.numBlocks
  have hpending : (afterPass1 req p).pending = missInfos p.plan := by
    unfold afterPass1
    split <;> rfl
  have hholds : (afterPass1 req p).holds = infos p.plan := by
    unfold afterPass1
    split <;> exact Call.holds_of_plan rfl rfl
  have hplan : PlanOk ctx.index p.heap req p.plan := by
    have hok := hl'.ok
    unfold afterPass1 at hok
    split at hok
    · exact hok.1.ok
    · exact hok.1.ok
  refine ⟨fun m hm => .inr ?_, fun m hm => ?_, fun m hm => .inl hm⟩
  · rw [hpending] at hm
    have hnodup := Multiset.nodup_range p.heap.brk
    rw [halloc.2, Multiset.nodup_add] at hnodup
    by_contra hlt
    exact Multiset.disjoint_left.mp hnodup.2.2 (Multiset.mem_range.mpr (not_le.mp hlt)) hm
  · rw [hholds] at hm
    rw [hpending]
    obtain ⟨e, he, rfl⟩ := mem_infos.mp hm
    cases hk : e.kind with
    | hit => exact .inr (hplan.hits e he hk)
    | miss => exact .inr (.inr (mem_missInfos.mpr ⟨e, he, hk, rfl⟩))

omit [Sha512] in
/-- Storing the slots, whichever place they came from. -/
theorem handover_storeSlots {pc : WritePc} {slots : List Nat} (hpending : pc.pending = missInfos plan)
    (hhits : pc.hits = hitInfos plan) {ctx₁ : Context}
    (hfiles : ctx₁.index.fileToMaster = ctx.index.fileToMaster) :
    Handover ctx (.write req pc) (storeSlots ctx₁ plan slots).1
      (.write req (storeSlots ctx₁ plan slots).2) := by
  have hentries := assignSlots_slotChanged ctx₁.heap plan slots
  have hholds : (Call.write req pc).holds = infos plan := Call.holds_of_plan hpending hhits
  refine .of_le ((slotChanged_missInfos hentries).trans hpending.symm) (le_of_eq ?_) fun m hm => ?_
  · rw [hholds]
    exact (Call.holds_of_plan rfl rfl).trans (slotChanged_infos hentries)
  · rw [← hfiles]
    exact hm

/-- Where a mapping of the state after pass 3 comes from: it was there before, or an entry
    of the plan between the two loops has made it. -/
theorem Consolidated.lookup_cases {next : Nat} {held pending : Multiset Ptr} {out : Multiset Nat}
    {st st' : WriteSection} {endBlock : Nat} {ix : Index} {hp : Heap} {k : BlockIndice} {m : Ptr}
    (h : Consolidated next held pending out st req.path endBlock plan st')
    (hplan : PlanOk ix hp req plan) (hk : st'.index.fileToMaster.lookup k = some m) :
    st.index.fileToMaster.lookup k = some m ∨
      ∃ i < plan.length, k = ⟨req.path, req.startBlock + i⟩ := by
  by_cases hin : k.path = req.path ∧ req.startBlock ≤ k.offset ∧
      k.offset < req.startBlock + plan.length
  · obtain ⟨hpath, hlow, hhigh⟩ := hin
    refine .inr ⟨k.offset - req.startBlock, by omega, ?_⟩
    rw [← hpath, Nat.add_sub_cancel' hlow]
  · rw [h.lookup_outside hplan hin] at hk
    exact .inl hk

/-- Pass 3 maps blocks to objects of its plan and to published ones. -/
theorem handover_consolidate (hl : Ledger W H Pd O ctx (.write req (.consolidate plan))) :
    Handover ctx (.write req (.consolidate plan))
      (ctx.closeSection (pass3Section ctx.openSection req.path req.startBlock req.numBlocks plan))
      (.write req (.concat (pass3Section ctx.openSection req.path req.startBlock req.numBlocks
        plan).toRelease)) := by
  have hc := hl.consolidated
  obtain ⟨hflight, -⟩ := hl.ok
  have hholds : (Call.write req (.consolidate plan)).holds = infos plan := Call.holds_of_plan rfl rfl
  refine ⟨fun m hm => absurd hm (Multiset.notMem_zero m),
    fun m hm => absurd hm (Multiset.notMem_zero m), fun m hm => ?_⟩
  obtain ⟨k, hk⟩ := Table.mem_values.mp hm
  rcases hc.lookup_cases hflight.ok hk with hold | ⟨i, hi, rfl⟩
  · exact .inl (Table.mem_values_of_lookup hold)
  obtain ⟨t, plan', hmap⟩ := hc.remapped
  have hget := List.getElem?_eq_getElem (hmap.entries.length_eq ▸ hi : i < plan'.length)
  have hm' := Option.some.inj ((hmap.lookup hflight.ok hget).symm.trans hk)
  obtain ⟨e, he, info, heq, hhit, hmiss⟩ := forall₂_getElem? hmap.entries hget
  have hinfo : info = m := by rw [← hm', heq]
  subst hinfo
  have hmem := List.mem_of_getElem? he
  cases hkind : e.kind with
  | hit => exact .inr (.inr ⟨hholds ▸ mem_infos.mpr ⟨e, hmem, (hhit hkind).symm⟩, rfl⟩)
  | miss =>
    rcases (hmap.lookupOf (hmiss hkind)).2 with hpub | ⟨a, ha, -, rfl⟩
    · exact .inr (.inl (Table.mem_values_of_lookup hpub))
    · exact .inr (.inr ⟨hholds ▸ mem_infos.mpr ⟨a, ha, rfl⟩, rfl⟩)

/-- If no shared object is discarded, the pending objects that end up mapped are published. -/
theorem settles_consolidate (hl : Ledger W H Pd O ctx (.write req (.consolidate plan)))
    (hprivate : Private H ctx (.write req (.consolidate plan)))
    (hshares : SharesSurvive ctx.index plan) :
    Settles H (.write req (.consolidate plan))
      (ctx.closeSection (pass3Section ctx.openSection req.path req.startBlock req.numBlocks plan))
      (.write req (.concat (pass3Section ctx.openSection req.path req.startBlock req.numBlocks
        plan).toRelease)) := by
  have hc := hl.consolidated
  obtain ⟨hflight, -⟩ := hl.ok
  intro m hm
  right
  by_contra hnot
  rw [not_or, not_not] at hnot
  obtain ⟨hunpub, hmem⟩ := hnot
  have hout := hprivate m hm
  rw [Multiset.mem_add, not_or] at hout
  rw [show (Call.write req (.concat (pass3Section ctx.openSection req.path req.startBlock
    req.numBlocks plan).toRelease)).holds = 0 from rfl, zero_add, Multiset.mem_add] at hmem
  obtain ⟨k, hk⟩ := Table.mem_values.mp (hmem.resolve_right hout.2)
  rcases hc.lookup_cases hflight.ok hk with hold | ⟨i, hi, rfl⟩
  · exact hout.1 (Table.mem_values_of_lookup hold)
  obtain ⟨m', hm', hpub⟩ := hc.lookup_published hflight.ok hl.accounts.keyed hshares hi
  obtain rfl := Option.some.inj (hm'.symm.trans hk)
  exact hunpub (Table.mem_values_of_lookup hpub)

/-- All sections of a write. -/
theorem handover_write {pc pc' : WritePc} (hl : Ledger W H Pd O ctx (.write req pc))
    (hl' : Ledger W H Pd O ctx' (.write req pc'))
    (hadv : advanceWrite ctx req io pc = some (ctx', pc')) :
    Handover ctx (.write req pc) ctx' (.write req pc') := by
  cases pc with
  | start =>
    simp only [advanceWrite] at hadv
    split at hadv
    · obtain ⟨rfl, rfl⟩ := Prod.ext_iff.mp (Option.some.inj hadv)
      exact .of_le rfl (le_refl _) fun _ h => h
    · split at hadv
      · obtain ⟨rfl, rfl⟩ := Prod.ext_iff.mp (Option.some.inj hadv)
        exact .of_le rfl (le_refl _) fun _ h => h
      · obtain ⟨rfl, rfl⟩ := Prod.ext_iff.mp (Option.some.inj hadv)
        exact handover_pass1 hl'
  | drain plan missCount =>
    simp only [advanceWrite] at hadv
    split at hadv
    · obtain ⟨rfl, rfl⟩ := Prod.ext_iff.mp (Option.some.inj hadv)
      exact .of_le rfl (le_refl _) fun _ h => h
    · obtain ⟨rfl, rfl⟩ := Prod.ext_iff.mp (Option.some.inj hadv)
      exact handover_storeSlots rfl rfl rfl
  | append plan taken remaining =>
    obtain ⟨rfl, rfl⟩ := Prod.ext_iff.mp (Option.some.inj hadv)
    exact handover_storeSlots rfl rfl rfl
  | flush plan todo =>
    simp only [advanceWrite] at hadv
    split at hadv
    · obtain ⟨rfl, rfl⟩ := Prod.ext_iff.mp (Option.some.inj hadv)
      exact .of_le rfl (le_refl _) fun _ h => h
    · obtain ⟨rfl, rfl⟩ := Prod.ext_iff.mp (Option.some.inj hadv)
      refine .of_le ?_ (le_of_eq ?_) fun _ h => h <;> split <;> rfl
  | consolidate plan =>
    obtain ⟨rfl, rfl⟩ := Prod.ext_iff.mp (Option.some.inj hadv)
    exact handover_consolidate hl
  | concat slots =>
    obtain ⟨rfl, rfl⟩ := Prod.ext_iff.mp (Option.some.inj hadv)
    exact .of_le rfl (le_refl _) fun _ h => h
  | rollbackHits plan rc =>
    obtain ⟨rfl, rfl⟩ := Prod.ext_iff.mp (Option.some.inj hadv)
    refine .of_le rfl (add_le_add_right (Multiset.zero_le _) _) fun m hm => ?_
    rwa [show (ctx.closeSection (rollbackHits ctx.openSection plan)).index.fileToMaster =
      ctx.index.fileToMaster from rollbackHits_fileToMaster plan] at hm
  | rollbackConcat plan slots rc =>
    obtain ⟨rfl, rfl⟩ := Prod.ext_iff.mp (Option.some.inj hadv)
    exact .of_le rfl (le_refl _) fun _ h => h
  | rollbackMisses plan rc =>
    obtain ⟨rfl, rfl⟩ := Prod.ext_iff.mp (Option.some.inj hadv)
    refine ⟨fun m hm => absurd hm (Multiset.notMem_zero m),
      fun m hm => absurd hm (Multiset.notMem_zero m), fun m hm => .inl ?_⟩
    rwa [(rollbackMisses_released ctx plan).fileToMaster] at hm
  | done rc => cases hadv

/-- A write settles its pending objects, unless its pass 3 discards a shared one. -/
theorem settles_write {pc pc' : WritePc} (hl : Ledger W H Pd O ctx (.write req pc))
    (hprivate : Private H ctx (.write req pc))
    (hshares : ∀ plan, pc = .consolidate plan → SharesSurvive ctx.index plan)
    (hadv : advanceWrite ctx req io pc = some (ctx', pc')) :
    Settles H (.write req pc) ctx' (.write req pc') := by
  cases pc with
  | start => exact fun m hm => absurd hm (Multiset.notMem_zero m)
  | drain plan missCount =>
    simp only [advanceWrite] at hadv
    split at hadv
    · obtain ⟨rfl, rfl⟩ := Prod.ext_iff.mp (Option.some.inj hadv)
      exact .of_eq rfl
    · obtain ⟨rfl, rfl⟩ := Prod.ext_iff.mp (Option.some.inj hadv)
      exact .of_eq (slotChanged_missInfos (assignSlots_slotChanged _ plan _))
  | append plan taken remaining =>
    obtain ⟨rfl, rfl⟩ := Prod.ext_iff.mp (Option.some.inj hadv)
    exact .of_eq (slotChanged_missInfos (assignSlots_slotChanged _ plan _))
  | flush plan todo =>
    simp only [advanceWrite] at hadv
    split at hadv
    · obtain ⟨rfl, rfl⟩ := Prod.ext_iff.mp (Option.some.inj hadv)
      exact .of_eq rfl
    · obtain ⟨rfl, rfl⟩ := Prod.ext_iff.mp (Option.some.inj hadv)
      refine .of_eq ?_
      split <;> rfl
  | consolidate plan =>
    obtain ⟨rfl, rfl⟩ := Prod.ext_iff.mp (Option.some.inj hadv)
    exact settles_consolidate hl hprivate (hshares plan rfl)
  | concat slots =>
    obtain ⟨rfl, rfl⟩ := Prod.ext_iff.mp (Option.some.inj hadv)
    exact .of_eq rfl
  | rollbackHits plan rc =>
    obtain ⟨rfl, rfl⟩ := Prod.ext_iff.mp (Option.some.inj hadv)
    exact .of_eq rfl
  | rollbackConcat plan slots rc =>
    obtain ⟨rfl, rfl⟩ := Prod.ext_iff.mp (Option.some.inj hadv)
    exact .of_eq rfl
  | rollbackMisses plan rc =>
    -- the objects are freed, and nobody else has ever known them
    obtain ⟨rfl, rfl⟩ := Prod.ext_iff.mp (Option.some.inj hadv)
    intro m hm
    have hout := hprivate m hm
    rw [show (Call.write req (.done rc)).holds = 0 from rfl, zero_add,
      (rollbackMisses_released ctx plan).fileToMaster]
    exact .inr (.inr hout)
  | done rc => cases hadv

/-! ## Sections of any call -/

omit [Sha512] in
/-- A call that is no write owns nothing. -/
theorem Call.owns_nothing (h : ∀ req pc, c ≠ .write req pc) : c.pending = 0 ∧ c.holds = 0 := by
  cases c with
  | write req pc => exact absurd rfl (h req pc)
  | _ => exact ⟨rfl, rfl⟩

/-- A call that is no write only takes mappings away. -/
theorem handover_other (hno : ∀ req pc, c ≠ .write req pc)
    (h : advance qs ctx io c = some (ctx', c')) :
    (∀ req pc, c' ≠ .write req pc) ∧
      ∀ m ∈ values ctx'.index.fileToMaster, m ∈ values ctx.index.fileToMaster := by
  cases c with
  | write req pc => exact absurd rfl (hno req pc)
  | remove path startBlock endBlock pc =>
    obtain ⟨⟨ctx₁, pc'⟩, hadv, hres⟩ := Option.map_eq_some_iff.mp h
    obtain ⟨rfl, rfl⟩ := Prod.ext_iff.mp hres
    refine ⟨fun _ _ heq => Call.noConfusion heq, ?_⟩
    cases pc with
    | start =>
      obtain ⟨rfl, -⟩ := Prod.ext_iff.mp (Option.some.inj hadv)
      exact fun _ => mem_files_of_removeBlocks
    | concat slots =>
      obtain ⟨rfl, -⟩ := Prod.ext_iff.mp (Option.some.inj hadv)
      exact fun _ h => h
    | done => cases hadv
  | unlink path res pc =>
    obtain ⟨⟨ctx₁, pc'⟩, hadv, hres⟩ := Option.map_eq_some_iff.mp h
    obtain ⟨rfl, rfl⟩ := Prod.ext_iff.mp hres
    refine ⟨fun _ _ heq => Call.noConfusion heq, ?_⟩
    cases pc with
    | start =>
      simp only [advanceUnlink] at hadv
      split at hadv <;>
      · obtain ⟨rfl, -⟩ := Prod.ext_iff.mp (Option.some.inj hadv)
        exact fun _ h => h
    | remove numBlocks =>
      obtain ⟨rfl, -⟩ := Prod.ext_iff.mp (Option.some.inj hadv)
      exact fun _ => mem_files_of_removeBlocks
    | concat slots | dropSize =>
      obtain ⟨rfl, -⟩ := Prod.ext_iff.mp (Option.some.inj hadv)
      exact fun _ h => h
    | done ret => cases hadv
  | truncate path size res pc =>
    obtain ⟨⟨ctx₁, pc'⟩, hadv, hres⟩ := Option.map_eq_some_iff.mp h
    obtain ⟨rfl, rfl⟩ := Prod.ext_iff.mp hres
    refine ⟨fun _ _ heq => Call.noConfusion heq, ?_⟩
    cases pc with
    | start =>
      simp only [advanceTruncate] at hadv
      split at hadv
      · obtain ⟨rfl, -⟩ := Prod.ext_iff.mp (Option.some.inj hadv)
        exact fun _ h => h
      · split at hadv <;>
        · obtain ⟨rfl, -⟩ := Prod.ext_iff.mp (Option.some.inj hadv)
          exact fun _ h => h
    | remove newBlockCount oldBlockCount =>
      obtain ⟨rfl, -⟩ := Prod.ext_iff.mp (Option.some.inj hadv)
      exact fun _ => mem_files_of_removeBlocks
    | concat slots =>
      obtain ⟨rfl, -⟩ := Prod.ext_iff.mp (Option.some.inj hadv)
      exact fun _ h => h
    | setSize =>
      obtain ⟨rfl, -⟩ := Prod.ext_iff.mp (Option.some.inj hadv)
      rw [truncateSetSize_eq]
      exact fun _ h => h
    | done ret => cases hadv
  | read req pc =>
    obtain ⟨pc', -, hres⟩ := Option.map_eq_some_iff.mp h
    obtain ⟨rfl, rfl⟩ := Prod.ext_iff.mp hres
    exact ⟨fun _ _ heq => Call.noConfusion heq, fun _ h => h⟩

theorem advance_handover (hl : Ledger W H Pd O ctx c) (hl' : Ledger W H Pd O ctx' c')
    (h : advance qs ctx io c = some (ctx', c')) : Handover ctx c ctx' c' := by
  by_cases hw : ∃ req pc, c = .write req pc
  · obtain ⟨req, pc, rfl⟩ := hw
    obtain ⟨⟨ctx₁, pc'⟩, hadv, hres⟩ := Option.map_eq_some_iff.mp h
    obtain ⟨rfl, rfl⟩ := Prod.ext_iff.mp hres
    exact handover_write hl hl' hadv
  · have hno : ∀ req pc, c ≠ .write req pc := fun req pc heq => hw ⟨req, pc, heq⟩
    obtain ⟨hno', hfiles⟩ := handover_other hno h
    obtain ⟨hpending, hholds⟩ := Call.owns_nothing hno
    obtain ⟨hpending', hholds'⟩ := Call.owns_nothing hno'
    exact .of_le (hpending'.trans hpending.symm) (hholds'.trans hholds.symm).le hfiles

theorem advance_settles (hl : Ledger W H Pd O ctx c) (hprivate : Private H ctx c)
    (hshares : ∀ req plan, c = .write req (.consolidate plan) → SharesSurvive ctx.index plan)
    (h : advance qs ctx io c = some (ctx', c')) : Settles H c ctx' c' := by
  by_cases hw : ∃ req pc, c = .write req pc
  · obtain ⟨req, pc, rfl⟩ := hw
    obtain ⟨⟨ctx₁, pc'⟩, hadv, hres⟩ := Option.map_eq_some_iff.mp h
    obtain ⟨rfl, rfl⟩ := Prod.ext_iff.mp hres
    exact settles_write hl hprivate (fun plan heq => hshares req plan (by rw [heq])) hadv
  · intro m hm
    rw [(Call.owns_nothing fun req pc heq => hw ⟨req, pc, heq⟩).1] at hm
    exact absurd hm (Multiset.notMem_zero m)

end

/-! ## The machine -/

section
variable [Sha512] {W : List UInt8 → Prop} {qs : Qsort} {s s' : Machine} {e : Event}

/-- Neither of two calls refers to what is pending in the other. -/
def Apart (c d : Call) : Prop := (∀ m ∈ c.pending, m ∉ d.holds) ∧ ∀ m ∈ d.pending, m ∉ c.holds

/-- Pending objects are known to their calls only, and no reference is lost. -/
structure Machine.Guarded (s : Machine) : Prop where
  files : ∀ c ∈ s.calls, ∀ m ∈ c.pending, m ∉ values s.ctx.index.fileToMaster
  apart : s.calls.Pairwise Apart
  live : ∀ m ∈ values s.ctx.index.fileToMaster + s.holds, s.ctx.index.Published m ∨ m ∈ s.pending

/-- The event is a pass 3 that discards a pending object which its plan shares. -/
def Machine.Discards (s : Machine) (e : Event) : Prop :=
  ∃ tid io req plan, e = .run tid io ∧ s.calls[tid]? = some (.write req (.consolidate plan)) ∧
    ¬SharesSurvive s.ctx.index plan

/-- Some reference of `file_to_master` or of a plan in flight is to a freed object. -/
def Machine.Dangling (s : Machine) : Prop :=
  ∃ m ∈ values s.ctx.index.fileToMaster + s.holds, m ∈ s.ctx.heap.freed

omit [Sha512] in
theorem mem_sum_map {f : Call → Multiset Ptr} {cs : List Call} {m : Ptr} :
    m ∈ (cs.map f).sum ↔ ∃ c ∈ cs, m ∈ f c := by
  induction cs with
  | nil => simp
  | cons c cs ih => simp [ih]

namespace Machine

/-- The step of a call in flight, with the calls in front of it and behind it. -/
theorem step_run {tid : Nat} {io : PwriteResult} {c : Call} (hcall : s.calls[tid]? = some c)
    (hstep : s.step qs (.run tid io) = some s') :
    ∃ c' ctx' before after, before.length = tid ∧ s.calls = before ++ c :: after ∧
      advance qs s.ctx io c = some (ctx', c') ∧
      s' = { ctx := ctx', calls := before ++ c' :: after } := by
  rcases Machine.step_cases hstep with ⟨r, he, -⟩ |
    ⟨io', d, c', ctx', before, after, he, hcalls, hadv, rfl⟩
  · cases he
  obtain ⟨rfl, rfl⟩ := Event.run.inj he
  rw [hcalls, List.getElem?_append_right (Nat.le_refl _), Nat.sub_self] at hcall
  obtain rfl := Option.some.inj hcall
  exact ⟨c', ctx', before, after, rfl, hcalls, hadv, rfl⟩

theorem Guarded.init : (machine qs).init.Guarded where
  files _ hc := absurd hc List.not_mem_nil
  apart := .nil
  live m hm := absurd hm (Multiset.notMem_zero m)

omit [Sha512] in
/-- What is pending in one call of a guarded machine is private to it. -/
theorem Guarded.private (hg : s.Guarded) {before after : List Call} {c : Call}
    (hcalls : s.calls = before ++ c :: after) :
    Private ((before ++ after).map Call.holds).sum s.ctx c := by
  intro m hm hin
  rcases Multiset.mem_add.mp hin with hfile | hheld
  · exact hg.files c (by rw [hcalls]; simp) m hm hfile
  · obtain ⟨d, hd, hmd⟩ := mem_sum_map.mp hheld
    have hapart := hg.apart
    rw [hcalls, List.pairwise_middle fun h => ⟨h.2, h.1⟩, List.pairwise_cons] at hapart
    exact (hapart.1 d hd).1 m hm hmd

/-- A step of one call that hands no pending object on and settles its own. -/
theorem Guarded.of_callStep (hs : s.Consistent W) (hg : s.Guarded)
    {before after : List Call} {c c' : Call} {ctx' : Context}
    (hcalls : s.calls = before ++ c :: after)
    (hstep : CallStep W ((before ++ after).map Call.holds).sum
      ((before ++ after).map Call.pending).sum ((before ++ after).map Call.slots).sum s.ctx c ctx' c')
    (hhand : Handover s.ctx c ctx' c')
    (hsettles : Settles ((before ++ after).map Call.holds).sum c ctx' c') :
    Machine.Guarded { ctx := ctx', calls := before ++ c' :: after } := by
  have hapart := hg.apart
  rw [hcalls, List.pairwise_middle fun h => ⟨h.2, h.1⟩, List.pairwise_cons] at hapart
  have hcall : c ∈ s.calls := by rw [hcalls]; simp
  have hrest : ∀ d ∈ before ++ after, d ∈ s.calls := by
    intro d hd
    rw [hcalls]
    rcases List.mem_append.mp hd with h | h <;> simp [h]
  have hallocated : ∀ m ∈ values s.ctx.index.fileToMaster + s.holds, m < s.ctx.heap.brk :=
    hs.accounts.refsLt
  have hheld : ∀ d ∈ s.calls, ∀ m ∈ d.holds, m < s.ctx.heap.brk := fun d hd m hm =>
    hallocated m (Multiset.mem_add.mpr (.inr (mem_sum_map.mpr ⟨d, hd, hm⟩)))
  have hunpub : ∀ d ∈ s.calls, ∀ m ∈ d.pending, ¬s.ctx.index.Published m := fun d hd m hm =>
    hs.accounts.balanced.notPublished m (mem_sum_map.mpr ⟨d, hd, hm⟩)
  have hpublt : ∀ m, s.ctx.index.Published m → m < s.ctx.heap.brk := fun m hm =>
    hallocated m (hs.accounts.published_mem_refs hm)
  have hsub : ∀ d : Call, d.pending ≤ d.holds := fun d => Multiset.le_add_right _ _
  refine ⟨fun d hd m hm hfile => ?_, ?_, fun m hm => ?_⟩
  · -- a pending object is still not mapped
    have hcases : d = c' ∨ d ∈ before ++ after := by
      simpa [or_left_comm] using hd
    rcases hcases with rfl | hd
    · rcases hhand.fresh m hm with hold | hnew
      · rcases hhand.files m hfile with h | h | h
        · exact hg.files c hcall m hold h
        · exact hunpub c hcall m hold h
        · exact Multiset.notMem_zero m (h.2 ▸ hm)
      · rcases hhand.files m hfile with h | h | h
        · exact absurd (hallocated m (Multiset.mem_add.mpr (.inl h))) (not_lt.mpr hnew)
        · exact absurd (hpublt m h) (not_lt.mpr hnew)
        · exact Multiset.notMem_zero m (h.2 ▸ hm)
    · rcases hhand.files m hfile with h | h | h
      · exact hg.files d (hrest d hd) m hm h
      · exact hunpub d (hrest d hd) m hm h
      · exact (hapart.1 d hd).2 m hm h.1
  · rw [List.pairwise_middle fun h => ⟨h.2, h.1⟩, List.pairwise_cons]
    refine ⟨fun d hd => ⟨fun m hm hmd => ?_, fun m hm hmc => ?_⟩, hapart.2⟩
    · rcases hhand.fresh m hm with hold | hnew
      · exact (hapart.1 d hd).1 m hold hmd
      · exact absurd (hheld d (hrest d hd) m hmd) (not_lt.mpr hnew)
    · rcases hhand.holds m hmc with h | h | h
      · exact (hapart.1 d hd).2 m hm h
      · exact hunpub d (hrest d hd) m hm h
      · rcases hhand.fresh m h with hold | hnew
        · exact (hapart.1 d hd).2 m hm (Multiset.mem_of_le (hsub c) hold)
        · exact absurd (hheld d (hrest d hd) m (Multiset.mem_of_le (hsub d) hm)) (not_lt.mpr hnew)
  · -- a reference is to an object that is published or pending
    simp only [holds, sum_split] at hm
    have hkept := hstep.kept m hm
    have hsplit : s.pending = c.pending + ((before ++ after).map Call.pending).sum := by
      rw [pending, hcalls, sum_split]
    simp only [pending, sum_split]
    have hold : m ∈ values s.ctx.index.fileToMaster + s.holds ∨ s.ctx.index.Published m ∨
        m ∈ c'.pending := by
      rw [holds, hcalls, sum_split]
      rcases Multiset.mem_add.mp hm with h | h
      · rcases hhand.files m h with h | h | h
        · exact .inl (Multiset.mem_add.mpr (.inl h))
        · exact .inr (.inl h)
        · exact .inl (Multiset.mem_add.mpr (.inr (Multiset.mem_add.mpr (.inl h.1))))
      · rcases Multiset.mem_add.mp h with h | h
        · rcases hhand.holds m h with h | h | h
          · exact .inl (Multiset.mem_add.mpr (.inr (Multiset.mem_add.mpr (.inl h))))
          · exact .inr (.inl h)
          · exact .inr (.inr h)
        · exact .inl (Multiset.mem_add.mpr (.inr (Multiset.mem_add.mpr (.inr h))))
    rcases hold with hold | hold | hold
    · rcases hg.live m hold with h | h
      · exact .inl (hkept h)
      · rw [hsplit] at h
        rcases Multiset.mem_add.mp h with h | h
        · rcases hsettles m h with h | h | h
          · exact .inr (Multiset.mem_add.mpr (.inl h))
          · exact .inl h
          · exact absurd hm h
        · exact .inr (Multiset.mem_add.mpr (.inr h))
    · exact .inl (hkept hold)
    · exact .inr (Multiset.mem_add.mpr (.inl hold))

/-- The step of one call, if its pass 3 discards no shared object. -/
theorem Guarded.advance (hs : s.Consistent W) (hg : s.Guarded) {before after : List Call}
    {c c' : Call} {ctx' : Context} {io : PwriteResult} (hcalls : s.calls = before ++ c :: after)
    (hadv : advance qs s.ctx io c = some (ctx', c'))
    (hfew : Machine.FewReferences { ctx := ctx', calls := before ++ c' :: after })
    (hshares : ∀ req plan, c = .write req (.consolidate plan) → SharesSurvive s.ctx.index plan) :
    Machine.Guarded { ctx := ctx', calls := before ++ c' :: after } := by
  have hl := hs.ledger hcalls
  have hstep := hs.callStep hcalls hadv hfew
  exact hg.of_callStep hs hcalls hstep (advance_handover hl hstep.ledger hadv)
    (advance_settles hl (hg.private hcalls) hshares hadv)

/-- Every step that discards no shared object keeps the machine guarded. -/
theorem Guarded.step (hs : s.Consistent W) (hg : s.Guarded)
    (hstep : (machine qs).step s e = some s') (hfew : s'.FewReferences)
    (hnot : ¬s.Discards e) : s'.Guarded := by
  rcases Machine.step_cases hstep with ⟨r, rfl, rfl⟩ |
    ⟨io, c, c', ctx', before, after, rfl, hcalls, hadv, rfl⟩
  · -- a call that is only dispatched owns nothing
    have hnone : r.toCall.pending = 0 ∧ r.toCall.holds = 0 := by
      cases r <;> exact ⟨rfl, rfl⟩
    refine ⟨fun c hc m hm => ?_, ?_, ?_⟩
    · rcases List.mem_append.mp hc with hc | hc
      · exact hg.files c hc m hm
      · obtain rfl := List.mem_singleton.mp hc
        rw [hnone.1] at hm
        exact absurd hm (Multiset.notMem_zero m)
    · refine List.pairwise_append.mpr ⟨hg.apart, List.pairwise_singleton _ _, fun c _ d hd => ?_⟩
      obtain rfl := List.mem_singleton.mp hd
      rw [Apart, hnone.1, hnone.2]
      exact ⟨fun m _ => Multiset.notMem_zero m, fun m hm => absurd hm (Multiset.notMem_zero m)⟩
    · simpa only [holds, pending, List.map_append, List.sum_append, List.map_cons, List.map_nil,
        List.sum_cons, List.sum_nil, hnone, add_zero] using hg.live
  · refine hg.advance hs hcalls hadv hfew fun req plan hc => ?_
    by_contra hshares
    refine hnot ⟨before.length, io, req, plan, rfl, ?_, hshares⟩
    rw [hcalls, hc]
    simp

omit [Sha512] in
/-- In a guarded machine nothing that is referred to has been freed. -/
theorem Guarded.not_dangling (hown : Owned s.ctx s.pending) (hg : s.Guarded) : ¬s.Dangling := by
  rintro ⟨m, hm, hfreed⟩
  have hnodup := Multiset.nodup_range s.ctx.heap.brk
  rw [← hown, settled, Multiset.nodup_add, Multiset.nodup_add] at hnodup
  rcases hg.live m hm with hpub | hpend
  · exact Multiset.disjoint_left.mp hnodup.1.2.2 hfreed hpub
  · exact Multiset.disjoint_left.mp hnodup.2.2 (Multiset.mem_add.mpr (.inl hfreed)) hpend

/-- A pass 3 that discards a shared object leaves a block mapped to it, and frees it. -/
theorem Guarded.dangling_of_discards (hs : s.Consistent W) (hown : Owned s.ctx s.pending)
    (hg : s.Guarded) (hstep : (machine qs).step s e = some s') (hdis : s.Discards e) :
    s'.Dangling := by
  obtain ⟨tid, io, req, plan, rfl, hcall, hshares⟩ := hdis
  have hown' := owned_step hs hown hstep
  obtain ⟨c', ctx', before, after, -, hcalls, hadv, rfl⟩ := Machine.step_run hcall hstep
  simp only [DedupBlockFS.advance, advanceWrite, Option.map_some, Option.some.injEq,
    Prod.mk.injEq] at hadv
  obtain ⟨rfl, rfl⟩ := hadv
  have hl := hs.ledger hcalls
  obtain ⟨hflight, -⟩ := hl.ok
  have hc := hl.consolidated
  obtain ⟨i, hi, m, hm, hunpub⟩ := hc.lookup_discarded hflight.ok
    (fun m hm => hl.accounts.balanced.notPublished m (Multiset.mem_add.mpr (.inl hm))) hshares
  have hfile := Table.mem_values_of_lookup hm
  refine ⟨m, Multiset.mem_add.mpr (.inl hfile), ?_⟩
  -- it is allocated, not published, and pending in no other call
  have hothers : m ∉ ((before ++ after).map Call.pending).sum := by
    intro hpend
    obtain ⟨d, hd, hmd⟩ := mem_sum_map.mp hpend
    have hd' : d ∈ s.calls := by
      rw [hcalls]
      rcases List.mem_append.mp hd with h | h <;> simp [h]
    have hapart := hg.apart
    rw [hcalls, List.pairwise_middle fun h => ⟨h.2, h.1⟩, List.pairwise_cons] at hapart
    rcases (handover_consolidate hl).files m hfile with h | h | h
    · exact hg.files d hd' m hmd h
    · exact hs.accounts.balanced.notPublished m (mem_sum_map.mpr ⟨d, hd', hmd⟩) h
    · exact (hapart.1 d hd).2 m hmd h.1
  refine hown'.mem_freed (hc.accounts.refsLt m (Multiset.mem_add.mpr (.inl hfile))) hunpub ?_
  rw [pending, sum_split]
  exact fun h => (Multiset.mem_add.mp h).elim (Multiset.notMem_zero m) hothers

/-- The bounded runs in which no pass 3 discards a shared object. -/
def NoneDiscarded (s : Machine) (e : Event) (s' : Machine) : Prop :=
  s'.FewReferences ∧ ¬s.Discards e

end Machine

/-- As long as no pass 3 discards a pending object that its plan shares, no reference of
    `file_to_master` or of a call in flight is to a freed object; and the first step that
    does is exactly the first one that makes such a reference. -/
theorem dangling_iff_discards (h : (machine qs).Reachable Machine.NoneDiscarded s) :
    ¬s.Dangling ∧ ∀ e s', (machine qs).step s e = some s' → s'.FewReferences →
      (s'.Dangling ↔ s.Discards e) := by
  obtain ⟨hs, hown, hg⟩ := h.invariant
    (I := fun s => (s.Consistent fun _ => True) ∧ Owned s.ctx s.pending ∧ s.Guarded)
    ⟨.init, Machine.owned_init, .init⟩ fun s e s' hI hstep hP =>
      ⟨hI.1.step hstep ⟨hP.1, e.blocksIn_true⟩, Machine.owned_step hI.1 hI.2.1 hstep,
        hI.2.2.step hI.1 hstep hP.1 hP.2⟩
  refine ⟨hg.not_dangling hown, fun e s' hstep hfew => ⟨fun hdang => ?_, fun hdis => ?_⟩⟩
  · by_contra hnot
    exact (hg.step hs hstep hfew hnot).not_dangling (Machine.owned_step hs hown hstep) hdang
  · exact hg.dangling_of_discards hs hown hstep hdis

end

/-! ## A run that loses the race -/

instance (ix : Index) (plan : List PlanEntry) : Decidable (SharesSurvive ix plan) :=
  inferInstanceAs (Decidable (∀ a ∈ plan, a.kind = .miss → ∀ b ∈ plan, b.kind = .hit →
    b.info = a.info → ix.lookupByHash a.hash = none))

/-- Few references after the step, and no shared object discarded by it. -/
def discardCheck (s : Machine) (e : Event) (s' : Machine) : Bool :=
  Machine.fewCheck s e s' && match e with
    | .dispatch _ => true
    | .run tid _ =>
      match s.calls[tid]? with
      | some (.write _ (.consolidate plan)) => decide (SharesSurvive s.ctx.index plan)
      | _ => true

theorem noneDiscarded_of_discardCheck (s : Machine) (e : Event) (s' : Machine)
    (h : discardCheck s e s') : Machine.NoneDiscarded s e s' := by
  simp only [discardCheck, Bool.and_eq_true] at h
  refine ⟨Machine.bounded_of_fewCheck s e s' h.1, ?_⟩
  rintro ⟨tid, io, req, plan, rfl, hcall, hshares⟩
  have hcheck := h.2
  simp only [hcall, decide_eq_true_eq] at hcheck
  exact hshares hcheck

theorem firstConsolidated_enabled : ((@machine Sha512.zeroBlock .mergeSort).replay discardCheck
    (@machine Sha512.zeroBlock .mergeSort).init
    (sharedZeroWrites ++ [.run 0 .complete])).isSome := by
  decide +kernel

/-- The write to `a` has published its block before the one to `b` consolidates. -/
def firstConsolidated : Machine :=
  ((@machine Sha512.zeroBlock .mergeSort).replay discardCheck
    (@machine Sha512.zeroBlock .mergeSort).init
    (sharedZeroWrites ++ [.run 0 .complete])).get firstConsolidated_enabled

theorem raceLost_enabled : ((@machine Sha512.zeroBlock .mergeSort).step firstConsolidated
    (.run 1 .complete)).isSome := by
  decide +kernel

/-- The state after the second write has lost the race. -/
def raceLost : Machine :=
  ((@machine Sha512.zeroBlock .mergeSort).step firstConsolidated (.run 1 .complete)).get
    raceLost_enabled

theorem dangling_iff_discards_of_raceLost :
    ¬firstConsolidated.Dangling ∧ firstConsolidated.Discards (.run 1 .complete) ∧
      raceLost.Dangling := by
  let _ := Sha512.zeroBlock
  have hreach : (machine .mergeSort).Reachable Machine.NoneDiscarded firstConsolidated :=
    .of_replay (fun s e _ s' hc => noneDiscarded_of_discardCheck s e s' hc)
      (Option.some_get firstConsolidated_enabled).symm
  obtain ⟨hno, hiff⟩ := dangling_iff_discards hreach
  have hcall : ∃ plan, firstConsolidated.calls[1]? =
      some (.write twoZeroBlocks (.consolidate plan)) ∧
        ¬SharesSurvive firstConsolidated.ctx.index plan := by
    refine ⟨_, rfl, ?_⟩
    decide +kernel
  obtain ⟨plan, hcall, hshares⟩ := hcall
  have hdis : firstConsolidated.Discards (.run 1 .complete) :=
    ⟨1, .complete, twoZeroBlocks, plan, rfl, hcall, hshares⟩
  refine ⟨hno, hdis, (hiff _ _ (Option.some_get raceLost_enabled).symm ?_).mpr hdis⟩
  exact Machine.bounded_of_fewCheck firstConsolidated (.run 1 .complete) raceLost (by decide +kernel)

end DedupBlockFS
