-- SUMMARY: What the write-locked sections do: removal of a range, rollback of HITs, and the two loops of pass 3.
import DedupBlockFS.Plan

/-!
# Write-locked sections

Every section under the write lock is a sequence of primitive steps on the index
and the heap. `Dropped` is what a sequence of steps that only give references back
leaves behind; it composes, so each loop needs the specification of one iteration
and an induction. The first loop of pass 3 publishes objects and has a
specification of its own.
-/

namespace DedupBlockFS

open Table (values)

/-- Between `st` and `st'` references were dropped, from `refs` to `refs'`, and the
    accounts with `pending` objects and further slots `out` still hold: an object
    somebody refers to stays published, and no object changes its hash or slot. -/
structure Dropped (next : Nat) (pending : Multiset Ptr) (out : Multiset Nat)
    (st : WriteSection) (refs : Multiset Ptr) (st' : WriteSection) (refs' : Multiset Ptr) :
    Prop where
  accounts : Accounts st'.index st'.heap next refs' pending (st'.toRelease + out)
  refsLe : refs' ≤ refs
  kept : ∀ m ∈ refs', m ∈ values st.index.hashToMaster → m ∈ values st'.index.hashToMaster
  lookupOf : ∀ {h m}, st'.index.hashToMaster.lookup h = some m →
    st.index.hashToMaster.lookup h = some m
  hashEq : ∀ m, (st'.heap.cell m).hash = (st.heap.cell m).hash
  slotEq : ∀ m, (st'.heap.cell m).masterBlockIndex = (st.heap.cell m).masterBlockIndex
  brkEq : st'.heap.brk = st.heap.brk
  freeEq : st'.index.freeBlockList = st.index.freeBlockList
  sizesEq : st'.index.fileToSizes = st.index.fileToSizes

namespace Dropped

variable {next : Nat} {pending : Multiset Ptr} {out : Multiset Nat}
  {st st' st'' : WriteSection} {refs refs' refs'' : Multiset Ptr}

theorem refl (ha : Accounts st.index st.heap next refs pending (st.toRelease + out)) :
    Dropped next pending out st refs st refs where
  accounts := ha
  refsLe := le_refl _
  kept _ _ h := h
  lookupOf h := h
  hashEq _ := rfl
  slotEq _ := rfl
  brkEq := rfl
  freeEq := rfl
  sizesEq := rfl

theorem trans (h : Dropped next pending out st refs st' refs')
    (h' : Dropped next pending out st' refs' st'' refs'') :
    Dropped next pending out st refs st'' refs'' where
  accounts := h'.accounts
  refsLe := h'.refsLe.trans h.refsLe
  kept m hm hpub := h'.kept m hm (h.kept m (Multiset.mem_of_le h'.refsLe hm) hpub)
  lookupOf hl := h.lookupOf (h'.lookupOf hl)
  hashEq m := (h'.hashEq m).trans (h.hashEq m)
  slotEq m := (h'.slotEq m).trans (h.slotEq m)
  brkEq := h'.brkEq.trans h.brkEq
  freeEq := h'.freeEq.trans h.freeEq
  sizesEq := h'.sizesEq.trans h.sizesEq

/-- The section may also change `file_to_master`, which the accounts do not look at. -/
theorem withFileToMaster (h : Dropped next pending out st refs st' refs')
    (f : Table BlockIndice Ptr) :
    Dropped next pending out st refs
      { st' with index := { st'.index with fileToMaster := f } } refs' :=
  { h with accounts := h.accounts.congr_index rfl rfl }

end Dropped

variable {next : Nat} {held pending : Multiset Ptr} {out : Multiset Nat} {st : WriteSection}
  {m : Ptr} {path : CString}

/-! ## One reference -/

/-- Two references are there if one of them is not the only one. -/
theorem one_lt_count_cons_self {refs : Multiset Ptr} (h : m ∈ refs) :
    1 < (m ::ₘ refs).count m := by
  rw [Multiset.count_cons_self]
  have := Multiset.count_pos.mpr h
  omega

/-- `fetch_sub` with its cleanup gives one reference back. -/
theorem Accounts.dropReference {refs : Multiset Ptr}
    (ha : Accounts st.index st.heap next refs pending (st.toRelease + out)) (hm : m ∈ refs)
    (hpend : m ∈ pending → 1 < refs.count m) :
    Dropped next pending out st refs (st.dropReference m) (refs.erase m) := by
  have hpos : 0 < (st.heap.cell m).refcount := ha.balanced.count_pos hm
  have hlt : (st.heap.cell m).refcount < 2 ^ 32 := ha.counterLt m
  have hcount := Heap.refcount_fetchSub hpos hlt
  have hdrop := ha.balanced.drop hm hpend
  have hkept : ∀ m', m' ∈ values st.index.hashToMaster → m' ∈ refs.erase m →
      m' ∈ ((poolOf st.index st.heap refs pending (st.toRelease + out)).drop m).published :=
    fun _ hpub hm' => RefPool.mem_published_drop ha.balanced hpub hm'
  have hcounter : ∀ m', ((st.heap.fetchSub m).2.cell m').refcount < 2 ^ 32 := by
    intro m'
    rw [Heap.fetchSub_refcount]
    split
    · exact Nat.mod_lt _ (by decide)
    · exact ha.counterLt m'
  have hrefs : ∀ m' ∈ refs.erase m, m' < st.heap.brk :=
    fun m' hm' => ha.refsLt m' (Multiset.mem_of_mem_erase hm')
  by_cases hone : (st.heap.cell m).refcount = 1
  · -- the last reference: `m` is published, and its key is the one that is removed
    have hnotpend : m ∉ pending := by
      intro hp
      have hc : (st.heap.cell m).refcount = refs.count m := ha.balanced.pendingCount m hp
      have := hpend hp
      omega
    have hpub : m ∈ values st.index.hashToMaster := by
      by_contra hnot
      have hlost : refs.count m < (st.heap.cell m).refcount :=
        ha.balanced.lostCount m hm hnot hnotpend
      have := Multiset.count_pos.mpr hm
      omega
    have hkey : st.index.hashToMaster.lookup (st.heap.cell m).hash = some m := ha.lookup_hash hpub
    have hvalues : values (st.index.hashToMaster.erase (st.heap.cell m).hash) =
        (values st.index.hashToMaster).erase m := by
      rw [← Table.values_erase hkey, Multiset.erase_cons_head]
    have hst := WriteSection.dropReference_last hone
    have hpool : poolOf (st.dropReference m).index (st.dropReference m).heap (refs.erase m) pending
        ((st.dropReference m).toRelease + out) =
        (poolOf st.index st.heap refs pending (st.toRelease + out)).drop m := by
      have hcond : (poolOf st.index st.heap refs pending (st.toRelease + out)).count m = 1 := hone
      rw [RefPool.drop, if_pos hcond, hst]
      simp only [poolOf, Index.removeHash, hvalues, Heap.free_cell,
        Heap.fetchSub_masterBlockIndex, hcount, hone, Nat.sub_self, ← Multiset.cons_coe,
        Multiset.cons_add]
    have hlookup : ∀ {h m'}, (st.dropReference m).index.hashToMaster.lookup h = some m' →
        st.index.hashToMaster.lookup h = some m' := by
      intro h m' hl
      rw [hst] at hl
      by_cases heq : h = (st.heap.cell m).hash
      · rw [heq, Index.removeHash, AList.lookup_erase] at hl
        cases hl
      · rwa [Index.removeHash, AList.lookup_erase_ne heq] at hl
    exact
      { accounts :=
          { balanced := hpool ▸ hdrop
            keyed := by
              intro x m' hl
              rw [hst, Heap.free_cell, Heap.fetchSub_hash]
              exact ha.keyed (hlookup hl)
            refsLt := by rw [hst]; exact hrefs
            counterLt := by rw [hst]; exact hcounter }
        refsLe := Multiset.erase_le _ _
        kept := by
          intro m' hm' hp
          have hk := hkept m' hp hm'
          rw [← hpool] at hk
          exact hk
        lookupOf := hlookup
        hashEq := fun m' => by rw [hst, Heap.free_cell, Heap.fetchSub_hash]
        slotEq := fun m' => by rw [hst, Heap.free_cell, Heap.fetchSub_masterBlockIndex]
        brkEq := by rw [hst]; rfl
        freeEq := by rw [hst]; rfl
        sizesEq := by rw [hst]; rfl }
  · have hst := WriteSection.dropReference_more hone
    have hpool : poolOf (st.dropReference m).index (st.dropReference m).heap (refs.erase m) pending
        ((st.dropReference m).toRelease + out) =
        (poolOf st.index st.heap refs pending (st.toRelease + out)).drop m := by
      have hcond : (poolOf st.index st.heap refs pending (st.toRelease + out)).count m ≠ 1 := hone
      rw [RefPool.drop, if_neg hcond, hst]
      simp only [poolOf, Heap.fetchSub_masterBlockIndex, hcount]
    exact
      { accounts :=
          { balanced := hpool ▸ hdrop
            keyed := by
              intro x m' hl
              rw [hst, Heap.fetchSub_hash]
              exact ha.keyed (by rwa [hst] at hl)
            refsLt := by rw [hst]; exact hrefs
            counterLt := by rw [hst]; exact hcounter }
        refsLe := Multiset.erase_le _ _
        kept := fun m' _ hp => by rw [hst]; exact hp
        lookupOf := fun hl => by rwa [hst] at hl
        hashEq := fun m' => by rw [hst, Heap.fetchSub_hash]
        slotEq := fun m' => by rw [hst, Heap.fetchSub_masterBlockIndex]
        brkEq := by rw [hst]; rfl
        freeEq := by rw [hst]
        sizesEq := by rw [hst] }

/-! ## Removal -/

theorem removeBlock_fileToMaster (i : Nat) :
    (st.removeBlock path i).index.fileToMaster = st.index.fileToMaster.erase ⟨path, i⟩ := by
  unfold WriteSection.removeBlock
  split
  · rename_i hnone
    exact (Table.erase_of_lookup_none hnone).symm
  · rw [WriteSection.dropReference_fileToMaster]
    rfl

/-- One iteration of the batch removal gives back the reference of the mapping, if
    the block is mapped. -/
theorem Accounts.removeBlock (path : CString)
    (ha : Accounts st.index st.heap next (values st.index.fileToMaster + held) pending
      (st.toRelease + out)) (hle : pending ≤ held) (i : Nat) :
    Dropped next pending out st (values st.index.fileToMaster + held) (st.removeBlock path i)
      (values (st.removeBlock path i).index.fileToMaster + held) := by
  rw [removeBlock_fileToMaster]
  unfold WriteSection.removeBlock
  split
  · rename_i hnone
    rw [Table.erase_of_lookup_none hnone]
    exact Dropped.refl ha
  · rename_i info hinfo
    have hrefs : values st.index.fileToMaster + held =
        info ::ₘ (values (st.index.fileToMaster.erase ⟨path, i⟩) + held) := by
      rw [← Table.values_erase hinfo, Multiset.cons_add]
    rw [hrefs] at ha ⊢
    let st₁ : WriteSection := { st with index := st.index.removeFileBlock path i }
    have ha₁ : Accounts st₁.index st₁.heap next _ pending (st₁.toRelease + out) :=
      ha.congr_index rfl rfl
    have hdrop := ha₁.dropReference (Multiset.mem_cons_self info _) fun hp =>
      one_lt_count_cons_self (Multiset.mem_add.mpr (.inr (Multiset.mem_of_le hle hp)))
    rw [Multiset.erase_cons_head] at hdrop
    exact { hdrop with }

theorem removeBlocks_lookup (is : List Nat) (k : BlockIndice) :
    (is.foldl (WriteSection.removeBlock path) st).index.fileToMaster.lookup k =
      if k.path = path ∧ k.offset ∈ is then none else st.index.fileToMaster.lookup k := by
  induction is generalizing st with
  | nil => simp
  | cons i is ih =>
    rw [List.foldl_cons, ih, removeBlock_fileToMaster]
    by_cases hk : k = ⟨path, i⟩
    · subst hk
      simp [AList.lookup_erase]
    · have hne : ¬(k.path = path ∧ k.offset = i) := by
        rintro ⟨hpath, hoff⟩
        exact hk (by rw [← hpath, ← hoff])
      rw [AList.lookup_erase_ne hk]
      by_cases hin : k.path = path ∧ k.offset ∈ is
      · rw [if_pos hin, if_pos ⟨hin.1, List.mem_cons_of_mem _ hin.2⟩]
      · rw [if_neg hin, if_neg]
        rintro ⟨hpath, hmem⟩
        rcases List.mem_cons.mp hmem with hoff | hmem
        · exact hne ⟨hpath, hoff⟩
        · exact hin ⟨hpath, hmem⟩

theorem removeBlocks_fileToSizes (st : WriteSection) (is : List Nat) :
    (is.foldl (WriteSection.removeBlock path) st).index.fileToSizes = st.index.fileToSizes := by
  induction is generalizing st with
  | nil => rfl
  | cons i is ih =>
    rw [List.foldl_cons, ih]
    unfold WriteSection.removeBlock
    split
    · rfl
    · exact WriteSection.dropReference_fileToSizes _ _

theorem removeBlocksDedupBatch_fileToSizes (ctx : Context) (path : CString)
    (startBlock endBlock : Nat) :
    (removeBlocksDedupBatch ctx path startBlock endBlock).index.fileToSizes =
      ctx.index.fileToSizes := by
  unfold removeBlocksDedupBatch
  split
  · rfl
  · exact removeBlocks_fileToSizes ctx.openSection _

theorem Accounts.removeBlocks (path : CString)
    (ha : Accounts st.index st.heap next (values st.index.fileToMaster + held) pending
      (st.toRelease + out)) (hle : pending ≤ held) (is : List Nat) :
    Dropped next pending out st (values st.index.fileToMaster + held)
      (is.foldl (WriteSection.removeBlock path) st)
      (values (is.foldl (WriteSection.removeBlock path) st).index.fileToMaster + held) := by
  induction is generalizing st with
  | nil => exact Dropped.refl ha
  | cons i is ih =>
    have hone := ha.removeBlock path hle i
    exact hone.trans (ih hone.accounts)

/-! ## Rollback of HITs -/

@[simp] theorem rollbackHits_fileToMaster (plan : List PlanEntry) :
    (rollbackHits st plan).index.fileToMaster = st.index.fileToMaster := by
  induction plan generalizing st with
  | nil => rfl
  | cons e es ih =>
    have hcons : rollbackHits st (e :: es) =
        rollbackHits (if e.kind ≠ .hit then st else st.dropReference e.info) es := rfl
    rw [hcons, ih]
    split
    · rfl
    · exact WriteSection.dropReference_fileToMaster _ _

/-- The rollback gives back the references of all HITs. The references `base` that
    remain include one for each pending object, so none of those is released. -/
theorem Accounts.rollbackHits {base : Multiset Ptr} {plan : List PlanEntry}
    (ha : Accounts st.index st.heap next (hitInfos plan + base) pending (st.toRelease + out))
    (hbase : ∀ m ∈ pending, m ∈ base) :
    Dropped next pending out st (hitInfos plan + base) (rollbackHits st plan) base := by
  induction plan generalizing st with
  | nil =>
    rw [hitInfos_nil, zero_add] at ha ⊢
    exact Dropped.refl ha
  | cons e es ih =>
    have hcons : DedupBlockFS.rollbackHits st (e :: es) =
        DedupBlockFS.rollbackHits (if e.kind ≠ .hit then st else st.dropReference e.info) es := rfl
    rw [hcons]
    cases hk : e.kind with
    | miss =>
      rw [hitInfos_cons_miss hk] at ha ⊢
      exact ih ha
    | hit =>
      rw [hitInfos_cons_hit hk, Multiset.cons_add] at ha ⊢
      have hdrop := ha.dropReference (Multiset.mem_cons_self _ _) fun hp =>
        one_lt_count_cons_self (Multiset.mem_add.mpr (.inr (hbase _ hp)))
      rw [Multiset.erase_cons_head] at hdrop
      exact hdrop.trans (ih hdrop.accounts)

/-! ## Rollback of MISSes -/

/-- What the MISS loop of the rollback leaves alone. -/
structure Released (ctx ctx' : Context) : Prop where
  hashToMaster : ctx'.index.hashToMaster = ctx.index.hashToMaster
  fileToMaster : ctx'.index.fileToMaster = ctx.index.fileToMaster
  fileToSizes : ctx'.index.fileToSizes = ctx.index.fileToSizes
  cell : ctx'.heap.cell = ctx.heap.cell
  brk : ctx'.heap.brk = ctx.heap.brk
  next : ctx'.nextBlockIndex = ctx.nextBlockIndex
  master : ctx'.master = ctx.master

theorem rollbackMisses_cons_hit {ctx : Context} {e : PlanEntry} {es : List PlanEntry}
    (hk : e.kind = .hit) : rollbackMisses ctx (e :: es) = rollbackMisses ctx es := by
  simp [rollbackMisses, hk]

theorem rollbackMisses_cons_miss {ctx : Context} {e : PlanEntry} {es : List PlanEntry}
    (hk : e.kind = .miss) : rollbackMisses ctx (e :: es) =
      rollbackMisses { ctx.concatFreeList [e.masterBlk] with heap := ctx.heap.free e.info } es := by
  simp [rollbackMisses, hk]

theorem rollbackMisses_released (ctx : Context) (plan : List PlanEntry) :
    Released ctx (rollbackMisses ctx plan) := by
  induction plan generalizing ctx with
  | nil => exact ⟨rfl, rfl, rfl, rfl, rfl, rfl, rfl⟩
  | cons e es ih =>
    cases hk : e.kind with
    | hit =>
      rw [rollbackMisses_cons_hit hk]
      exact ih ctx
    | miss =>
      rw [rollbackMisses_cons_miss hk]
      obtain ⟨h1, h2, h3, h4, h5, h6, h7⟩ :=
        ih { ctx.concatFreeList [e.masterBlk] with heap := ctx.heap.free e.info }
      exact ⟨h1, h2, h3, h4, h5, h6, h7⟩

/-- The pending objects of the plan are freed and its slots go to the free list. -/
theorem Accounts.rollbackMisses {ctx : Context} {base : Multiset Ptr} {plan : List PlanEntry}
    (ha : Accounts ctx.index ctx.heap next (missInfos plan + base) (missInfos plan + pending)
      (missSlots plan + out)) :
    Accounts (rollbackMisses ctx plan).index (rollbackMisses ctx plan).heap next base pending out := by
  induction plan generalizing ctx with
  | nil => exact ha.congr (zero_add _) (zero_add _) (zero_add _)
  | cons e es ih =>
    cases hk : e.kind with
    | hit =>
      rw [missInfos_cons_hit hk, missSlots_cons_hit hk] at ha
      rw [rollbackMisses_cons_hit hk]
      exact ih ha
    | miss =>
      rw [missInfos_cons_miss hk, missSlots_cons_miss hk, Multiset.cons_add, Multiset.cons_add,
        Multiset.cons_add] at ha
      rw [rollbackMisses_cons_miss hk]
      refine ih (((ha.abandon (Multiset.mem_cons_self _ _)).congr (Multiset.erase_cons_head _ _)
        (Multiset.erase_cons_head _ _) rfl).moveSlots ?_)
      rw [← Multiset.coe_add, Multiset.coe_singleton, ← Multiset.singleton_add]
      abel

/-! ## Second loop of pass 3 -/

theorem mapBlock_fileToMaster (e : PlanEntry) :
    (mapBlock path st e).index.fileToMaster =
      st.index.fileToMaster.insert ⟨path, e.logicalBlk⟩ e.info := by
  simp only [mapBlock, Index.insertFileBlock]
  split
  · rfl
  · rw [WriteSection.dropReference_fileToMaster]

/-- One iteration of the second loop: the reference of the plan entry becomes that of
    the new mapping, and the mapping it replaces gives its own back. -/
theorem Accounts.mapBlock (path : CString) {e : PlanEntry}
    (ha : Accounts st.index st.heap next (values st.index.fileToMaster + (e.info ::ₘ held)) pending
      (st.toRelease + out)) (hle : pending ≤ held) :
    Dropped next pending out st (values st.index.fileToMaster + (e.info ::ₘ held))
      (mapBlock path st e) (values (mapBlock path st e).index.fileToMaster + held) := by
  have hrefs' : values (DedupBlockFS.mapBlock path st e).index.fileToMaster + held =
      values (st.index.fileToMaster.erase ⟨path, e.logicalBlk⟩) + (e.info ::ₘ held) := by
    rw [mapBlock_fileToMaster, Table.values_insert, Multiset.cons_add, Multiset.add_cons]
  rw [hrefs']
  simp only [DedupBlockFS.mapBlock]
  split
  · rename_i hnone
    rw [Table.erase_of_lookup_none hnone]
    exact (Dropped.refl ha).withFileToMaster _
  · rename_i old hold
    have hrefs : values st.index.fileToMaster + (e.info ::ₘ held) =
        old ::ₘ (values (st.index.fileToMaster.erase ⟨path, e.logicalBlk⟩) + (e.info ::ₘ held)) := by
      rw [← Table.values_erase hold, Multiset.cons_add]
    rw [hrefs] at ha ⊢
    have hdrop := ha.dropReference (Multiset.mem_cons_self old _) fun hp =>
      one_lt_count_cons_self (Multiset.mem_add.mpr
        (.inr (Multiset.mem_cons_of_mem (Multiset.mem_of_le hle hp))))
    rw [Multiset.erase_cons_head] at hdrop
    exact hdrop.withFileToMaster _

theorem Accounts.mapBlocks (path : CString) {plan : List PlanEntry}
    (ha : Accounts st.index st.heap next (values st.index.fileToMaster + (infos plan + held)) pending
      (st.toRelease + out)) (hle : pending ≤ held) :
    Dropped next pending out st (values st.index.fileToMaster + (infos plan + held))
      (plan.foldl (DedupBlockFS.mapBlock path) st)
      (values (plan.foldl (DedupBlockFS.mapBlock path) st).index.fileToMaster + held) := by
  induction plan generalizing st with
  | nil =>
    rw [infos_nil, zero_add] at ha ⊢
    exact Dropped.refl ha
  | cons e es ih =>
    rw [infos_cons, Multiset.cons_add] at ha ⊢
    have hone := ha.mapBlock path (hle.trans (Multiset.le_add_left _ _))
    exact hone.trans (ih hone.accounts)

/-! ## First loop of pass 3 -/

/-- What the first loop of pass 3 makes of a plan entry: a HIT keeps its object, a
    MISS ends up with the object published under its hash in `t`. -/
def Consolidates (t : Table Hash Ptr) (hp : Heap) (e e' : PlanEntry) : Prop :=
  ∃ info, e' = { e with info := info } ∧ (e.kind = .hit → info = e.info) ∧
    (e.kind = .miss → t.lookup (hp.cell e.info).hash = some info)

/-- What the first loop of pass 3 does to the section state and to the plan. -/
structure PublishResult (next : Nat) (pending : Multiset Ptr) (out : Multiset Nat)
    (base : Multiset Ptr) (st : WriteSection) (plan : List PlanEntry)
    (r : WriteSection × List PlanEntry) : Prop where
  accounts : Accounts r.1.index r.1.heap next (infos r.2 + base) pending (r.1.toRelease + out)
  entries : List.Forall₂ (Consolidates r.1.index.hashToMaster st.heap) plan r.2
  lookupKept : ∀ {h m}, st.index.hashToMaster.lookup h = some m →
    r.1.index.hashToMaster.lookup h = some m
  lookupNew : ∀ {h m}, r.1.index.hashToMaster.lookup h = some m →
    st.index.hashToMaster.lookup h = some m ∨ ∃ e ∈ plan, e.kind = .miss ∧ e.info = m
  hashEq : ∀ m, (r.1.heap.cell m).hash = (st.heap.cell m).hash
  slotEq : ∀ m, (r.1.heap.cell m).masterBlockIndex = (st.heap.cell m).masterBlockIndex
  brkEq : r.1.heap.brk = st.heap.brk
  freeEq : r.1.index.freeBlockList = st.index.freeBlockList
  sizesEq : r.1.index.fileToSizes = st.index.fileToSizes
  filesEq : r.1.index.fileToMaster = st.index.fileToMaster

/-- Consolidation exchanges objects for objects with the same hash. -/
theorem consolidates_hashes {t : Table Hash Ptr} {hp : Heap} {plan plan' : List PlanEntry}
    (h : List.Forall₂ (Consolidates t hp) plan plan')
    (hkeyed : ∀ {x m}, t.lookup x = some m → (hp.cell m).hash = x) :
    (infos plan').map (fun m => (hp.cell m).hash) = (infos plan).map fun m => (hp.cell m).hash := by
  induction h with
  | nil => rfl
  | @cons e _ _ _ he _ ih =>
    obtain ⟨info, rfl, hhit, hmiss⟩ := he
    rw [infos_cons, infos_cons, Multiset.map_cons, Multiset.map_cons, ih]
    congr 1
    cases hk : e.kind with
    | hit => rw [hhit hk]
    | miss => exact hkeyed (hmiss hk)

/-- Put a first entry in front of what the loop does with the rest of the plan. -/
theorem PublishResult.cons {base : Multiset Ptr} {es : List PlanEntry} (st₁ : WriteSection)
    (e e' : PlanEntry) {r : WriteSection × List PlanEntry}
    (hr : PublishResult next pending out (e'.info ::ₘ base) st₁ es r)
    (he : Consolidates st₁.index.hashToMaster st.heap e e')
    (hkept : ∀ {h m}, st.index.hashToMaster.lookup h = some m →
      st₁.index.hashToMaster.lookup h = some m)
    (hnew : ∀ {h m}, st₁.index.hashToMaster.lookup h = some m →
      st.index.hashToMaster.lookup h = some m ∨ e.kind = .miss ∧ e.info = m)
    (hhash : ∀ m, (st₁.heap.cell m).hash = (st.heap.cell m).hash)
    (hslot : ∀ m, (st₁.heap.cell m).masterBlockIndex = (st.heap.cell m).masterBlockIndex)
    (hbrk : st₁.heap.brk = st.heap.brk)
    (hfree : st₁.index.freeBlockList = st.index.freeBlockList)
    (hsizes : st₁.index.fileToSizes = st.index.fileToSizes)
    (hfiles : st₁.index.fileToMaster = st.index.fileToMaster) :
    PublishResult next pending out base st (e :: es) (r.1, e' :: r.2) where
  accounts := by
    rw [infos_cons, Multiset.cons_add, ← Multiset.add_cons]
    exact hr.accounts
  entries := by
    refine .cons ?_ (hr.entries.imp fun a b hab => ?_)
    · obtain ⟨info, heq, hhit, hmiss⟩ := he
      exact ⟨info, heq, hhit, fun hk => hr.lookupKept (hmiss hk)⟩
    · obtain ⟨info, heq, hhit, hmiss⟩ := hab
      exact ⟨info, heq, hhit, fun hk => hhash a.info ▸ hmiss hk⟩
  lookupKept h := hr.lookupKept (hkept h)
  lookupNew h := by
    rcases hr.lookupNew h with h | ⟨a, ha, hk, hm⟩
    · rcases hnew h with h | ⟨hk, hm⟩
      · exact .inl h
      · exact .inr ⟨e, List.mem_cons_self, hk, hm⟩
    · exact .inr ⟨a, List.mem_cons_of_mem _ ha, hk, hm⟩
  hashEq m := (hr.hashEq m).trans (hhash m)
  slotEq m := (hr.slotEq m).trans (hslot m)
  brkEq := hr.brkEq.trans hbrk
  freeEq := hr.freeEq.trans hfree
  sizesEq := hr.sizesEq.trans hsizes
  filesEq := hr.filesEq.trans hfiles

/-- The first loop of pass 3. It turns the pending objects of the plan into published
    ones, or gives them up for an object with the same hash that somebody else has
    published. -/
theorem Accounts.publishPlan {base : Multiset Ptr} {plan : List PlanEntry}
    (ha : Accounts st.index st.heap next (infos plan + base) (missInfos plan + pending)
      (st.toRelease + (missSlots plan + out)))
    (hslots : ∀ e ∈ plan, e.kind = .miss → (st.heap.cell e.info).masterBlockIndex = e.masterBlk)
    (hbound : ∀ h, ((infos plan + base).map fun m => (st.heap.cell m).hash).count h < 2 ^ 32) :
    PublishResult next pending out base st plan (publishPlan st plan) := by
  induction plan generalizing st base with
  | nil =>
    exact
      { accounts := show Accounts st.index st.heap next (infos [] + base) pending _ from
          ha.congr rfl (zero_add _) (congrArg _ (zero_add _))
        entries := .nil
        lookupKept := fun h => h
        lookupNew := fun h => .inl h
        hashEq := fun _ => rfl
        slotEq := fun _ => rfl
        brkEq := rfl
        freeEq := rfl
        sizesEq := rfl
        filesEq := rfl }
  | cons e es ih =>
    have hslots' := fun a ha' => hslots a (List.mem_cons_of_mem e ha')
    rw [infos_cons, Multiset.cons_add, ← Multiset.add_cons] at ha hbound
    cases hk : e.kind with
    | hit =>
      rw [missInfos_cons_hit hk, missSlots_cons_hit hk] at ha
      simp only [DedupBlockFS.publishPlan, hk]
      exact PublishResult.cons st e e (ih ha hslots' hbound) ⟨e.info, rfl, fun _ => rfl, fun h => by
          rw [hk] at h; cases h⟩
        (fun h => h) (fun h => .inl h) (fun _ => rfl) (fun _ => rfl) rfl rfl rfl rfl
    | miss =>
      rw [missInfos_cons_miss hk, missSlots_cons_miss hk, Multiset.cons_add,
        Multiset.cons_add] at ha
      have hpend : e.info ∈ e.info ::ₘ (missInfos es + pending) := Multiset.mem_cons_self _ _
      have hslot := hslots e List.mem_cons_self hk
      have hunpub := ha.balanced.notPublished _ hpend
      cases hl : st.index.lookupByHash (st.heap.cell e.info).hash with
      | some winner =>
        -- the double check: `winner` is published under the hash of the pending object
        have hwin : winner ∈ values st.index.hashToMaster := Table.mem_values_of_lookup hl
        have hne : winner ≠ e.info := fun heq => hunpub (heq ▸ hwin)
        have hsame : (st.heap.cell winner).hash = (st.heap.cell e.info).hash := ha.keyed hl
        have hroom : (infos es + base).count winner + 1 < 2 ^ 32 := by
          have hle := Multiset.count_add_count_le_count_map (fun m => (st.heap.cell m).hash)
            (infos es + (e.info ::ₘ base)) hne hsame
          have hlt := hbound (st.heap.cell winner).hash
          rw [Multiset.add_cons, Multiset.count_cons_self, Multiset.count_cons_of_ne hne] at hle
          rw [Multiset.add_cons] at hlt
          omega
        have hrest : (infos es + (e.info ::ₘ base)).erase e.info = infos es + base := by
          rw [Multiset.add_cons, Multiset.erase_cons_head]
        have hstep := (ha.abandon hpend).fetchAdd (m := winner) (.inl hwin) (hrest ▸ hroom)
        simp only [DedupBlockFS.publishPlan, hk, hl]
        rw [← hk]
        refine PublishResult.cons
          { st with
            toRelease := e.masterBlk :: st.toRelease
            heap := (st.heap.free e.info).fetchAdd winner } e { e with info := winner }
          (ih (hstep.congr ?_ (Multiset.erase_cons_head _ _) ?_) ?_ ?_)
          ⟨winner, rfl, fun h => (by rw [hk] at h; cases h), fun _ => hl⟩
          (fun h => h) (fun h => .inl h) (by simp) (by simp) rfl rfl rfl rfl
        · rw [hrest, Multiset.add_cons]
        · rw [Multiset.add_cons, ← Multiset.cons_add, Multiset.cons_coe]
        · intro a ha' hka
          simpa using hslots' a ha' hka
        · intro h
          have hlt := hbound h
          simp only [Multiset.map_add, Multiset.map_cons, Heap.fetchAdd_hash, Heap.free_cell,
            hsame] at hlt ⊢
          exact hlt
      | none =>
        have hmem : (st.heap.cell e.info).masterBlockIndex ∈
            (st.toRelease : Multiset Nat) + (e.masterBlk ::ₘ (missSlots es + out)) := by
          rw [hslot]
          exact Multiset.mem_add.mpr (.inr (Multiset.mem_cons_self _ _))
        have hout : ((st.toRelease : Multiset Nat) + (e.masterBlk ::ₘ (missSlots es + out))).erase
            (st.heap.cell e.info).masterBlockIndex = st.toRelease + (missSlots es + out) := by
          rw [hslot, Multiset.add_cons, Multiset.erase_cons_head]
        have hstep := (ha.insertHash hpend hl hmem).congr rfl (Multiset.erase_cons_head _ _) hout
        simp only [DedupBlockFS.publishPlan, hk, hl]
        have hne : ∀ {h m}, st.index.hashToMaster.lookup h = some m →
            h ≠ (st.heap.cell e.info).hash := by
          rintro h m hlook rfl
          rw [show st.index.hashToMaster.lookup (st.heap.cell e.info).hash = none from hl] at hlook
          cases hlook
        refine PublishResult.cons
          { st with index := st.index.insertHash (st.heap.cell e.info).hash e.info } e e
          (ih hstep hslots' hbound) ⟨e.info, rfl, fun _ => rfl, fun _ => AList.lookup_insert _⟩
          (fun h => ?_) (fun {h m} hlook => ?_) (fun _ => rfl) (fun _ => rfl) rfl rfl rfl rfl
        · rw [Index.insertHash, AList.lookup_insert_ne (hne h)]
          exact h
        · by_cases heq : h = (st.heap.cell e.info).hash
          · subst heq
            rw [Index.insertHash, AList.lookup_insert] at hlook
            exact .inr ⟨hk, Option.some.inj hlook⟩
          · rw [Index.insertHash, AList.lookup_insert_ne heq] at hlook
            exact .inl hlook

end DedupBlockFS
