-- SUMMARY: The memory of the MasterInfo objects over all interleavings: none is lost or freed twice, and when a freed one is still referred to.
import DedupBlockFS.Concurrent.Conservation
import DedupBlockFS.Concurrent.RoundTrip

/-!
# Memory

Pass 1 allocates a `MasterInfo` for every MISS. It is freed by whoever takes its counter
to zero, by the double check of pass 3, by a rollback, or at last by `index_destroy`.
Objects are owned by the call that has created them until they are *settled*: published
in `hash_to_master`, or freed. Every section moves objects between these places without
losing or duplicating any.
-/

namespace DedupBlockFS

open ByteFile
open Table (values)

/-! ## Settled objects -/

/-- The objects that have been freed and those that are published. -/
def settled (ix : Index) (hp : Heap) : Multiset Ptr :=
  (hp.freed : Multiset Ptr) + values ix.hashToMaster

section
variable {next : Nat} {refs held pending : Multiset Ptr} {out : Multiset Nat} {st : WriteSection}
  {m : Ptr} {path : CString} {plan : List PlanEntry}

theorem one_lt_count_add {refs held : Multiset Ptr} (h : m ∈ refs) (h' : m ∈ held) :
    1 < (refs + held).count m := by
  rw [Multiset.count_add]
  have := Multiset.count_pos.mpr h
  have := Multiset.count_pos.mpr h'
  omega

/-- An object whose counter goes to zero is published. -/
theorem Accounts.published_of_last
    (ha : Accounts st.index st.heap next refs pending out) (hm : m ∈ refs)
    (hpend : m ∈ pending → 1 < refs.count m) (hone : (st.heap.cell m).refcount = 1) :
    m ∈ values st.index.hashToMaster := by
  by_contra hpub
  by_cases hp : m ∈ pending
  · have hcount : (st.heap.cell m).refcount = refs.count m := ha.balanced.pendingCount m hp
    have := hpend hp
    omega
  · have hlost : refs.count m < (st.heap.cell m).refcount := ha.balanced.lostCount m hm hpub hp
    have := Multiset.count_pos.mpr hm
    omega

/-- The cleanup of the last reference frees what it unpublishes. -/
theorem Accounts.settled_dropReference
    (ha : Accounts st.index st.heap next refs pending out) (hm : m ∈ refs)
    (hpend : m ∈ pending → 1 < refs.count m) :
    settled (st.dropReference m).index (st.dropReference m).heap = settled st.index st.heap := by
  by_cases hone : (st.heap.cell m).refcount = 1
  · have hkey := ha.lookup_hash (ha.published_of_last hm hpend hone)
    rw [WriteSection.dropReference_last hone, settled, settled, ← Table.values_erase hkey]
    show (((m :: st.heap.freed : List Ptr) : Multiset Ptr)) +
      values (st.index.hashToMaster.erase (st.heap.cell m).hash) = _
    rw [← Multiset.cons_coe, Multiset.cons_add, Multiset.add_cons]
  · rw [WriteSection.dropReference_more hone]
    rfl

theorem Accounts.settled_removeBlocks
    (ha : Accounts st.index st.heap next (values st.index.fileToMaster + held) pending
      (st.toRelease + out)) (hle : pending ≤ held) (is : List Nat) :
    settled (is.foldl (WriteSection.removeBlock path) st).index
      (is.foldl (WriteSection.removeBlock path) st).heap = settled st.index st.heap := by
  induction is generalizing st with
  | nil => rfl
  | cons i is ih =>
    rw [List.foldl_cons, ih (ha.removeBlock path hle i).accounts]
    unfold WriteSection.removeBlock
    split
    · rfl
    · rename_i info hinfo
      let st₁ : WriteSection := { st with index := st.index.removeFileBlock path i }
      have ha₁ : Accounts st₁.index st₁.heap next _ pending (st₁.toRelease + out) :=
        ha.congr_index rfl rfl
      have hmem : info ∈ values st.index.fileToMaster := Table.mem_values_of_lookup hinfo
      exact ha₁.settled_dropReference (Multiset.mem_add.mpr (.inl hmem)) fun hp =>
        one_lt_count_add hmem (Multiset.mem_of_le hle hp)

theorem Accounts.settled_mapBlocks
    (ha : Accounts st.index st.heap next (values st.index.fileToMaster + (infos plan + held)) pending
      (st.toRelease + out)) (hle : pending ≤ held) :
    settled (plan.foldl (DedupBlockFS.mapBlock path) st).index
      (plan.foldl (DedupBlockFS.mapBlock path) st).heap = settled st.index st.heap := by
  induction plan generalizing st with
  | nil => rfl
  | cons e es ih =>
    rw [infos_cons, Multiset.cons_add] at ha
    have hle' : pending ≤ infos es + held := hle.trans (Multiset.le_add_left _ _)
    rw [List.foldl_cons, ih (ha.mapBlock path hle').accounts]
    simp only [DedupBlockFS.mapBlock]
    split
    · rfl
    · rename_i old hold
      have hmem : old ∈ values st.index.fileToMaster := Table.mem_values_of_lookup hold
      exact ha.settled_dropReference (Multiset.mem_add.mpr (.inl hmem)) fun hp =>
        one_lt_count_add hmem (Multiset.mem_cons_of_mem (Multiset.mem_of_le hle' hp))

theorem Accounts.settled_rollbackHits {base : Multiset Ptr}
    (ha : Accounts st.index st.heap next (hitInfos plan + base) pending (st.toRelease + out))
    (hbase : ∀ m ∈ pending, m ∈ base) :
    settled (DedupBlockFS.rollbackHits st plan).index (DedupBlockFS.rollbackHits st plan).heap =
      settled st.index st.heap := by
  induction plan generalizing st with
  | nil => rfl
  | cons e es ih =>
    have hcons : DedupBlockFS.rollbackHits st (e :: es) =
        DedupBlockFS.rollbackHits (if e.kind ≠ .hit then st else st.dropReference e.info) es := rfl
    rw [hcons]
    cases hk : e.kind with
    | miss =>
      rw [hitInfos_cons_miss hk] at ha
      exact ih ha
    | hit =>
      rw [hitInfos_cons_hit hk, Multiset.cons_add] at ha
      have hlast : e.info ∈ pending → 1 < (e.info ::ₘ (hitInfos es + base)).count e.info :=
        fun hp => one_lt_count_cons_self (Multiset.mem_add.mpr (.inr (hbase _ hp)))
      have hdrop := ha.dropReference (Multiset.mem_cons_self _ _) hlast
      rw [Multiset.erase_cons_head] at hdrop
      exact (ih hdrop.accounts).trans (ha.settled_dropReference (Multiset.mem_cons_self _ _) hlast)

/-- The first loop of pass 3 settles the pending objects of the plan: it publishes them,
    or frees those that have lost the race. -/
theorem settled_publishPlan (st : WriteSection) (plan : List PlanEntry) :
    settled (publishPlan st plan).1.index (publishPlan st plan).1.heap =
      settled st.index st.heap + missInfos plan := by
  induction plan generalizing st with
  | nil => exact (add_zero _).symm
  | cons e es ih =>
    cases hk : e.kind with
    | hit =>
      simp only [publishPlan, hk, missInfos_cons_hit hk]
      exact ih st
    | miss =>
      cases hl : st.index.lookupByHash (st.heap.cell e.info).hash with
      | some winner =>
        simp only [publishPlan, hk, hl, missInfos_cons_miss hk]
        rw [ih]
        show ((e.info :: st.heap.freed : List Ptr) : Multiset Ptr) + _ + _ = _
        rw [settled, ← Multiset.cons_coe, Multiset.cons_add, Multiset.cons_add, Multiset.add_cons]
      | none =>
        simp only [publishPlan, hk, hl, missInfos_cons_miss hk]
        rw [ih]
        show _ + values (st.index.hashToMaster.insert (st.heap.cell e.info).hash e.info) + _ = _
        rw [Table.values_insert, Table.erase_of_lookup_none hl, settled, Multiset.add_cons,
          Multiset.cons_add, Multiset.add_cons]

theorem settled_rollbackMisses (ctx : Context) (plan : List PlanEntry) :
    settled (rollbackMisses ctx plan).index (rollbackMisses ctx plan).heap =
      settled ctx.index ctx.heap + missInfos plan := by
  induction plan generalizing ctx with
  | nil => exact (add_zero _).symm
  | cons e es ih =>
    cases hk : e.kind with
    | hit => rw [rollbackMisses_cons_hit hk, missInfos_cons_hit hk, ih]
    | miss =>
      rw [rollbackMisses_cons_miss hk, missInfos_cons_miss hk, ih]
      show ((e.info :: ctx.heap.freed : List Ptr) : Multiset Ptr) + values ctx.index.hashToMaster +
        _ = _
      rw [settled, ← Multiset.cons_coe, Multiset.cons_add, Multiset.cons_add, Multiset.add_cons]

end

/-- The section of pass 3 settles the pending objects of its plan. -/
theorem Accounts.settled_pass3Section {next : Nat} {held pending : Multiset Ptr}
    {out : Multiset Nat} (st : WriteSection) {plan : List PlanEntry} (path : CString)
    (startBlock numBlocks : Nat)
    (ha : Accounts st.index st.heap next (values st.index.fileToMaster + (infos plan + held))
      (missInfos plan + pending) (st.toRelease + (missSlots plan + out)))
    (hplaced : ∀ e ∈ plan, e.kind = .miss → (st.heap.cell e.info).masterBlockIndex = e.masterBlk)
    (hfew : FewReferences st.heap (values st.index.fileToMaster + (infos plan + held)))
    (hle : pending ≤ held) :
    settled (pass3Section st path startBlock numBlocks plan).index
        (pass3Section st path startBlock numBlocks plan).heap =
      settled st.index st.heap + missInfos plan := by
  have hpublish := (ha.congr (add_left_comm _ _ _) rfl rfl).publishPlan hplaced
    (by rw [← add_left_comm]; exact hfew)
  rw [pass3Section_eq, growSize_eq, ← settled_publishPlan st plan]
  set r := DedupBlockFS.publishPlan st plan
  have hpublished : Accounts r.1.index r.1.heap next
      (values r.1.index.fileToMaster + (infos r.2 + held)) pending (r.1.toRelease + out) := by
    rw [hpublish.filesEq]
    exact hpublish.accounts.congr (add_left_comm _ _ _) rfl rfl
  exact hpublished.settled_mapBlocks hle

/-! ## Allocation -/

/-- Pass 1 frees nothing, and what it allocates are the pending objects of its plan. -/
theorem pass1_allocates [Sha512] (ix : Index) (hp : Heap) (buf : List UInt8)
    (startBlock n : Nat) :
    (pass1 ix hp buf startBlock n).heap.freed = hp.freed ∧
      Multiset.range (pass1 ix hp buf startBlock n).heap.brk =
        Multiset.range hp.brk + missInfos (pass1 ix hp buf startBlock n).plan := by
  induction n with
  | zero => exact ⟨rfl, (add_zero _).symm⟩
  | succ n ih =>
    have hsucc : pass1 ix hp buf startBlock (n + 1) =
        pass1Block ix buf startBlock (pass1 ix hp buf startBlock n) n := by
      simp [pass1, List.range_succ]
    rw [hsucc]
    simp only [pass1Block]
    split
    · refine ⟨ih.1, ?_⟩
      rw [missInfos_append, missInfos_cons_hit rfl, missInfos_nil, add_zero]
      exact ih.2
    · refine ⟨ih.1, ?_⟩
      rw [missInfos_append, missInfos_cons_miss rfl, missInfos_nil, Heap.alloc_brk,
        Multiset.range_succ, ih.2, Heap.alloc_snd, Multiset.add_cons, Multiset.add_cons, add_zero]

theorem assignSlots_freed (hp : Heap) (plan : List PlanEntry) (slots : List Nat) :
    (assignSlots hp plan slots).1.freed = hp.freed ∧ (assignSlots hp plan slots).1.brk = hp.brk := by
  induction plan generalizing hp slots with
  | nil => exact ⟨rfl, rfl⟩
  | cons e es ih =>
    simp only [assignSlots]
    split
    · exact ih (hp.setMasterBlockIndex e.info _) _
    · exact ih hp _

/-! ## One section of one call -/

/-- All objects that have been allocated are settled or owned by a call. -/
def Owned (ctx : Context) (pending : Multiset Ptr) : Prop :=
  settled ctx.index ctx.heap + pending = Multiset.range ctx.heap.brk

section
variable [Sha512] {W : List UInt8 → Prop} {H Pd : Multiset Ptr} {O : Multiset Nat}
  {ctx ctx' : Context} {c c' : Call} {qs : Qsort} {io : PwriteResult}

omit [Sha512] in
theorem Owned.of_eq {pending pending' : Multiset Ptr} (h : Owned ctx pending)
    (hbrk : ctx'.heap.brk = ctx.heap.brk)
    (hsettled : settled ctx'.index ctx'.heap + pending' = settled ctx.index ctx.heap + pending) :
    Owned ctx' pending' := by
  rw [Owned, hbrk, hsettled]
  exact h

omit [Sha512] in
/-- An object that is neither published nor pending has been freed. -/
theorem Owned.mem_freed {pending : Multiset Ptr} {m : Ptr} (h : Owned ctx pending)
    (hlt : m < ctx.heap.brk) (hpub : ¬ctx.index.Published m) (hpend : m ∉ pending) :
    m ∈ ctx.heap.freed := by
  have hall := Multiset.mem_range.mpr hlt
  rw [← h] at hall
  have hsettled := (Multiset.mem_add.mp hall).resolve_right hpend
  exact (Multiset.mem_add.mp hsettled).resolve_right hpub

/-- The section of a batch removal. -/
theorem Owned.remove (hl : Ledger W H Pd O ctx c) (h : Owned ctx (c.pending + Pd))
    (path : CString) (startBlock endBlock : Nat) :
    Owned (ctx.closeSection (removeBlocksSection ctx.openSection path startBlock endBlock))
      (c.pending + Pd) := by
  have hopen : Accounts ctx.openSection.index ctx.openSection.heap ctx.nextBlockIndex
      (values ctx.openSection.index.fileToMaster + (c.holds + H)) (c.pending + Pd)
      (ctx.openSection.toRelease + (c.slots + O)) :=
    hl.accounts.congr rfl rfl (zero_add _).symm
  refine h.of_eq (hopen.removeBlocks path hl.pending_le _).brkEq (congrArg (· + (c.pending + Pd)) ?_)
  exact hopen.settled_removeBlocks hl.pending_le _

omit [Sha512] in
/-- Storing the slots, whichever place they came from. -/
theorem Owned.assigned {plan : List PlanEntry} {slots : List Nat}
    (h : Owned ctx (missInfos plan + Pd)) (hheap : ctx'.heap = ctx.heap)
    (htable : ctx'.index.hashToMaster = ctx.index.hashToMaster) :
    Owned (storeSlots ctx' plan slots).1 ((storeSlots ctx' plan slots).2.pending + Pd) := by
  obtain ⟨hfreed, hbrk⟩ := assignSlots_freed ctx'.heap plan slots
  have hpending : (storeSlots ctx' plan slots).2.pending = missInfos plan :=
    slotChanged_missInfos (assignSlots_slotChanged ctx'.heap plan slots)
  refine h.of_eq (hbrk.trans (congrArg Heap.brk hheap)) ?_
  show ((assignSlots ctx'.heap plan slots).1.freed : Multiset Ptr) +
    values ctx'.index.hashToMaster + _ = _
  rw [hpending, hfreed, hheap, htable, settled]

/-- The sections of a write. -/
theorem Owned.advanceWrite {req : WriteRequest} {pc pc' : WritePc}
    (hl : Ledger W H Pd O ctx (.write req pc)) (h : Owned ctx (pc.pending + Pd))
    (hadv : advanceWrite ctx req io pc = some (ctx', pc')) : Owned ctx' (pc'.pending + Pd) := by
  cases pc with
  | start =>
    simp only [DedupBlockFS.advanceWrite] at hadv
    split at hadv
    · obtain ⟨rfl, rfl⟩ := Prod.ext_iff.mp (Option.some.inj hadv)
      exact h
    · split at hadv
      · obtain ⟨rfl, rfl⟩ := Prod.ext_iff.mp (Option.some.inj hadv)
        exact h
      · obtain ⟨rfl, rfl⟩ := Prod.ext_iff.mp (Option.some.inj hadv)
        obtain ⟨hfreed, hrange⟩ :=
          pass1_allocates ctx.index ctx.heap req.buf req.startBlock req.numBlocks
        set p := pass1 ctx.index ctx.heap req.buf req.startBlock req.numBlocks
        have hpending : WritePc.pending
            (if 0 < p.missCount then .drain p.plan p.missCount else .consolidate p.plan) =
              missInfos p.plan := by
          split <;> rfl
        have hsettled : settled ctx.index p.heap = settled ctx.index ctx.heap := by
          rw [settled, hfreed, settled]
        show settled ctx.index p.heap + _ = Multiset.range p.heap.brk
        rw [hpending, hsettled, hrange, ← h, show WritePc.start.pending = 0 from rfl]
        abel
  | drain plan missCount =>
    simp only [DedupBlockFS.advanceWrite] at hadv
    split at hadv
    · obtain ⟨rfl, rfl⟩ := Prod.ext_iff.mp (Option.some.inj hadv)
      exact h
    · obtain ⟨rfl, rfl⟩ := Prod.ext_iff.mp (Option.some.inj hadv)
      exact h.assigned rfl rfl
  | append plan taken remaining =>
    obtain ⟨rfl, rfl⟩ := Prod.ext_iff.mp (Option.some.inj hadv)
    exact h.assigned rfl rfl
  | flush plan todo =>
    simp only [DedupBlockFS.advanceWrite] at hadv
    split at hadv
    · obtain ⟨rfl, rfl⟩ := Prod.ext_iff.mp (Option.some.inj hadv)
      exact h
    · obtain ⟨rfl, rfl⟩ := Prod.ext_iff.mp (Option.some.inj hadv)
      refine h.of_eq rfl (congrArg (fun p => _ + (p + Pd)) ?_)
      split <;> rfl
  | consolidate plan =>
    obtain ⟨rfl, rfl⟩ := Prod.ext_iff.mp (Option.some.inj hadv)
    obtain ⟨-, hplaced, -⟩ := hl.ok
    have hholds : (Call.write req (.consolidate plan)).holds = infos plan := Call.holds_of_plan rfl rfl
    have hslots : (Call.write req (.consolidate plan)).slots = missSlots plan := add_zero _
    have haccounts := hl.accounts
    have hfew := hl.few
    rw [hholds] at hfew
    rw [hholds, hslots] at haccounts
    have hsettled := Accounts.settled_pass3Section ctx.openSection req.path req.startBlock
      req.numBlocks (haccounts.congr rfl rfl (zero_add _).symm) hplaced hfew hl.others
    refine h.of_eq hl.consolidated.brkEq ?_
    show settled _ _ + (0 + Pd) = settled ctx.index ctx.heap + (missInfos plan + Pd)
    rw [zero_add, ← add_assoc]
    exact congrArg (· + Pd) hsettled
  | concat slots =>
    obtain ⟨rfl, rfl⟩ := Prod.ext_iff.mp (Option.some.inj hadv)
    exact h
  | rollbackHits plan rc =>
    obtain ⟨rfl, rfl⟩ := Prod.ext_iff.mp (Option.some.inj hadv)
    have hbase : ∀ m ∈ missInfos plan + Pd,
        m ∈ values ctx.index.fileToMaster + (missInfos plan + H) := fun m hm =>
      Multiset.mem_of_le ((add_le_add_right hl.others _).trans (Multiset.le_add_left _ _)) hm
    have hopen : Accounts ctx.openSection.index ctx.openSection.heap ctx.nextBlockIndex
        (hitInfos plan + (values ctx.index.fileToMaster + (missInfos plan + H)))
        (missInfos plan + Pd) (ctx.openSection.toRelease +
          ((Call.write req (.rollbackHits plan rc)).slots + O)) := by
      refine hl.accounts.congr ?_ rfl (zero_add _).symm
      show values ctx.index.fileToMaster + (missInfos plan + hitInfos plan + H) = _
      abel
    exact h.of_eq (hopen.rollbackHits hbase).brkEq
      (congrArg (· + (missInfos plan + Pd)) (hopen.settled_rollbackHits hbase))
  | rollbackConcat plan slots rc =>
    obtain ⟨rfl, rfl⟩ := Prod.ext_iff.mp (Option.some.inj hadv)
    exact h
  | rollbackMisses plan rc =>
    obtain ⟨rfl, rfl⟩ := Prod.ext_iff.mp (Option.some.inj hadv)
    refine h.of_eq (rollbackMisses_released ctx plan).brk ?_
    rw [settled_rollbackMisses]
    show _ + missInfos plan + (0 + Pd) = _ + (missInfos plan + Pd)
    rw [zero_add, add_assoc]
  | done rc => cases hadv

/-- Every section of every call. -/
theorem advance_owned (hl : Ledger W H Pd O ctx c) (hown : Owned ctx (c.pending + Pd))
    (h : advance qs ctx io c = some (ctx', c')) : Owned ctx' (c'.pending + Pd) := by
  cases c with
  | write req pc =>
    obtain ⟨⟨ctx₁, pc'⟩, hadv, hres⟩ := Option.map_eq_some_iff.mp h
    obtain ⟨rfl, rfl⟩ := Prod.ext_iff.mp hres
    exact hown.advanceWrite hl hadv
  | remove path startBlock endBlock pc =>
    obtain ⟨⟨ctx₁, pc'⟩, hadv, hres⟩ := Option.map_eq_some_iff.mp h
    obtain ⟨rfl, rfl⟩ := Prod.ext_iff.mp hres
    cases pc with
    | start =>
      obtain ⟨rfl, rfl⟩ := Prod.ext_iff.mp (Option.some.inj hadv)
      exact hown.remove hl path startBlock endBlock
    | concat slots =>
      obtain ⟨rfl, rfl⟩ := Prod.ext_iff.mp (Option.some.inj hadv)
      exact hown
    | done => cases hadv
  | unlink path res pc =>
    obtain ⟨⟨ctx₁, pc'⟩, hadv, hres⟩ := Option.map_eq_some_iff.mp h
    obtain ⟨rfl, rfl⟩ := Prod.ext_iff.mp hres
    cases pc with
    | start =>
      simp only [advanceUnlink] at hadv
      split at hadv <;>
      · obtain ⟨rfl, rfl⟩ := Prod.ext_iff.mp (Option.some.inj hadv)
        exact hown
    | remove numBlocks =>
      obtain ⟨rfl, rfl⟩ := Prod.ext_iff.mp (Option.some.inj hadv)
      exact hown.remove hl path 0 numBlocks
    | concat slots =>
      obtain ⟨rfl, rfl⟩ := Prod.ext_iff.mp (Option.some.inj hadv)
      exact hown
    | dropSize =>
      obtain ⟨rfl, rfl⟩ := Prod.ext_iff.mp (Option.some.inj hadv)
      exact hown
    | done ret => cases hadv
  | truncate path size res pc =>
    obtain ⟨⟨ctx₁, pc'⟩, hadv, hres⟩ := Option.map_eq_some_iff.mp h
    obtain ⟨rfl, rfl⟩ := Prod.ext_iff.mp hres
    cases pc with
    | start =>
      simp only [advanceTruncate] at hadv
      split at hadv
      · obtain ⟨rfl, rfl⟩ := Prod.ext_iff.mp (Option.some.inj hadv)
        exact hown
      · split at hadv <;>
        · obtain ⟨rfl, rfl⟩ := Prod.ext_iff.mp (Option.some.inj hadv)
          exact hown
    | remove newBlockCount oldBlockCount =>
      obtain ⟨rfl, rfl⟩ := Prod.ext_iff.mp (Option.some.inj hadv)
      exact hown.remove hl path newBlockCount oldBlockCount
    | concat slots =>
      obtain ⟨rfl, rfl⟩ := Prod.ext_iff.mp (Option.some.inj hadv)
      exact hown
    | setSize =>
      obtain ⟨rfl, rfl⟩ := Prod.ext_iff.mp (Option.some.inj hadv)
      rw [truncateSetSize_eq]
      exact hown
    | done ret => cases hadv
  | read req pc =>
    obtain ⟨pc', hadv, hres⟩ := Option.map_eq_some_iff.mp h
    obtain ⟨rfl, rfl⟩ := Prod.ext_iff.mp hres
    exact hown

end

/-! ## The machine -/

section
variable [Sha512] {qs : Qsort} {s s' : Machine} {e : Event}

theorem Machine.owned_init : Owned (machine qs).init.ctx (machine qs).init.pending := rfl

theorem Machine.owned_step {W : List UInt8 → Prop} (hs : s.Consistent W)
    (hown : Owned s.ctx s.pending) (hstep : (machine qs).step s e = some s') :
    Owned s'.ctx s'.pending := by
  rcases Machine.step_cases hstep with ⟨r, rfl, rfl⟩ |
    ⟨io, c, c', ctx', before, after, rfl, hcalls, hadv, rfl⟩
  · have hnone : r.toCall.pending = 0 := by
      cases r <;> rfl
    simpa only [pending, List.map_append, List.sum_append, List.map_cons, List.map_nil,
      List.sum_cons, List.sum_nil, hnone, add_zero] using hown
  · simp only [pending, hcalls, sum_split] at hown ⊢
    exact advance_owned (hs.ledger hcalls) hown hadv

end

end DedupBlockFS
