-- SUMMARY: Pass 3 as a whole: the accounts after it, what it publishes, and where the blocks of the request are mapped.
import DedupBlockFS.Flush
import DedupBlockFS.Sections

/-!
# Consolidation

Pass 3 runs both of its loops and the size update under one acquisition of the write
lock. Afterwards every block of the request is mapped. It is mapped to an object
published under its hash, unless the double check has discarded a pending object
that another entry of the same plan shares: such an entry keeps a pointer to the
discarded object.
-/

namespace DedupBlockFS

open Table (values)

variable {next : Nat} {pending held : Multiset Ptr} {out : Multiset Nat} {st : WriteSection}
  {path : CString} {startBlock numBlocks : Nat} {plan : List PlanEntry}

/-- How pass 3 maps the blocks of the plan: `t` is `hash_to_master` and `plan'` the
    plan between its two loops. -/
structure Remapped (st : WriteSection) (path : CString) (held : Multiset Ptr)
    (plan : List PlanEntry) (st' : WriteSection) (t : Table Hash Ptr) (plan' : List PlanEntry) :
    Prop where
  entries : List.Forall₂ (Consolidates t st.heap) plan plan'
  lookupKept : ∀ {x m}, st.index.hashToMaster.lookup x = some m → t.lookup x = some m
  lookupOf : ∀ {x m}, t.lookup x = some m → (st.heap.cell m).hash = x ∧
    (st.index.hashToMaster.lookup x = some m ∨ ∃ e ∈ plan, e.kind = .miss ∧ e.info = m)
  files : st'.index.fileToMaster =
    plan'.foldl (fun t e => t.insert ⟨path, e.logicalBlk⟩ e.info) st.index.fileToMaster
  kept : ∀ m ∈ values st'.index.fileToMaster + held, m ∈ values t →
    m ∈ values st'.index.hashToMaster
  lookupFinal : ∀ {x m}, st'.index.hashToMaster.lookup x = some m → t.lookup x = some m

/-- What pass 3 does, where `held` are references that are neither in `file_to_master`
    nor in the plan. -/
structure Consolidated (next : Nat) (held pending : Multiset Ptr) (out : Multiset Nat)
    (st : WriteSection) (path : CString) (endBlock : Nat) (plan : List PlanEntry)
    (st' : WriteSection) : Prop where
  accounts : Accounts st'.index st'.heap next (values st'.index.fileToMaster + held) pending
    (st'.toRelease + out)
  few : FewReferences st'.heap (values st'.index.fileToMaster + held)
  kept : ∀ m ∈ values st'.index.fileToMaster + held,
    m ∈ values st.index.hashToMaster → m ∈ values st'.index.hashToMaster
  published : ∀ m ∈ values st'.index.hashToMaster,
    m ∈ values st.index.hashToMaster ∨ ∃ e ∈ plan, e.kind = .miss ∧ e.info = m
  hashEq : ∀ m, (st'.heap.cell m).hash = (st.heap.cell m).hash
  slotEq : ∀ m, (st'.heap.cell m).masterBlockIndex = (st.heap.cell m).masterBlockIndex
  brkEq : st'.heap.brk = st.heap.brk
  freeEq : st'.index.freeBlockList = st.index.freeBlockList
  sizes : ∀ q, st'.index.fileToSizes.lookup q =
    if q = path then some (max (endBlock * blockSize) ((st.index.fileToSizes.lookup path).getD 0))
    else st.index.fileToSizes.lookup q
  remapped : ∃ t plan', Remapped st path held plan st' t plan'

/-! ## The size -/

theorem growSize_eq (ix : Index) (newEnd : Nat) :
    growSize ix path newEnd = { ix with fileToSizes := (growSize ix path newEnd).fileToSizes } := by
  unfold growSize
  split
  · rfl
  · split <;> rfl

/-- A write raises the size of its file to its own end, and no other size. -/
theorem growSize_lookup (ix : Index) (newEnd : Nat) (q : CString) :
    (growSize ix path newEnd).fileToSizes.lookup q =
      if q = path then some (max newEnd ((ix.fileToSizes.lookup path).getD 0))
      else ix.fileToSizes.lookup q := by
  unfold growSize
  by_cases hq : q = path
  · subst hq
    rw [if_pos rfl]
    cases hl : ix.fileToSizes.lookup q with
    | none => simp
    | some size =>
      simp only [Option.getD_some]
      split
      · rw [AList.lookup_insert, max_eq_left (by omega)]
      · rw [hl, max_eq_right (by omega)]
  · rw [if_neg hq]
    split
    · exact AList.lookup_insert_ne hq
    · split
      · exact AList.lookup_insert_ne hq
      · rfl

/-! ## The whole section -/

theorem mapBlocks_fileToMaster (plan : List PlanEntry) (st : WriteSection) :
    (plan.foldl (mapBlock path) st).index.fileToMaster =
      plan.foldl (fun t e => t.insert ⟨path, e.logicalBlk⟩ e.info) st.index.fileToMaster := by
  induction plan generalizing st with
  | nil => rfl
  | cons e es ih => rw [List.foldl_cons, List.foldl_cons, ih, mapBlock_fileToMaster]

/-- The section as the composition of its parts. -/
theorem pass3Section_eq (st : WriteSection) (plan : List PlanEntry) :
    pass3Section st path startBlock numBlocks plan =
      { (publishPlan st plan).2.foldl (mapBlock path) (publishPlan st plan).1 with
        index := growSize ((publishPlan st plan).2.foldl (mapBlock path) (publishPlan st plan).1).index
          path ((startBlock + numBlocks) * blockSize) } := rfl

theorem pass3Section_consolidated
    (ha : Accounts st.index st.heap next (values st.index.fileToMaster + (infos plan + held))
      (missInfos plan + pending) (st.toRelease + (missSlots plan + out)))
    (hplaced : ∀ e ∈ plan, e.kind = .miss → (st.heap.cell e.info).masterBlockIndex = e.masterBlk)
    (hfew : FewReferences st.heap (values st.index.fileToMaster + (infos plan + held)))
    (hle : pending ≤ held) :
    Consolidated next held pending out st path (startBlock + numBlocks) plan
      (pass3Section st path startBlock numBlocks plan) := by
  have hpublish := (ha.congr (add_left_comm _ _ _) rfl rfl).publishPlan hplaced
    (by rw [← add_left_comm]; exact hfew)
  rw [pass3Section_eq]
  set r := publishPlan st plan with hr
  have hpublished : Accounts r.1.index r.1.heap next
      (values r.1.index.fileToMaster + (infos r.2 + held)) pending (r.1.toRelease + out) := by
    rw [hpublish.filesEq]
    exact hpublish.accounts.congr (add_left_comm _ _ _) rfl rfl
  have hmap := hpublished.mapBlocks path hle
  set st' := r.2.foldl (mapBlock path) r.1 with hst'
  rw [growSize_eq]
  have hhash := fun m => (hmap.hashEq m).trans (hpublish.hashEq m)
  exact
    { accounts := hmap.accounts.congr_index rfl rfl
      few := by
        have hrefs : values st.index.fileToMaster + (infos r.2 + held) ≥
            values st'.index.fileToMaster + held := hpublish.filesEq ▸ hmap.refsLe
        have hsame : (values st.index.fileToMaster + (infos r.2 + held)).map
            (fun m => (st.heap.cell m).hash) = (values st.index.fileToMaster +
              (infos plan + held)).map fun m => (st.heap.cell m).hash := by
          simp only [Multiset.map_add, consolidates_hashes hpublish.entries fun hx =>
            (hpublish.hashEq _).symm.trans (hpublish.accounts.keyed hx)]
        have hfew' : FewReferences st.heap (values st.index.fileToMaster + (infos r.2 + held)) :=
          fun x => by rw [hsame]; exact hfew x
        exact hfew'.mono hrefs fun m _ => hhash m
      kept := by
        intro m hm hpub
        obtain ⟨x, hx⟩ := Table.mem_values.mp hpub
        exact hmap.kept m hm (Table.mem_values_of_lookup (hpublish.lookupKept hx))
      published := by
        intro m hm
        obtain ⟨x, hx⟩ := Table.mem_values.mp hm
        exact (hpublish.lookupNew (hmap.lookupOf hx)).imp_left Table.mem_values_of_lookup
      hashEq := hhash
      slotEq := fun m => (hmap.slotEq m).trans (hpublish.slotEq m)
      brkEq := hmap.brkEq.trans hpublish.brkEq
      freeEq := hmap.freeEq.trans hpublish.freeEq
      sizes := by
        intro q
        show (growSize st'.index path _).fileToSizes.lookup q = _
        rw [growSize_lookup, hmap.sizesEq, hpublish.sizesEq]
      remapped := ⟨r.1.index.hashToMaster, r.2,
        { entries := hpublish.entries
          lookupKept := hpublish.lookupKept
          lookupOf := fun hx => ⟨(hpublish.hashEq _).symm.trans (hpublish.accounts.keyed hx),
            hpublish.lookupNew hx⟩
          files := by
            show st'.index.fileToMaster = _
            rw [hst', mapBlocks_fileToMaster, hpublish.filesEq]
          kept := hmap.kept
          lookupFinal := hmap.lookupOf }⟩ }

/-! ## Where the blocks are mapped -/

section
variable [Sha512]
variable {req : WriteRequest}

/-- The logical blocks of a plan, in order. -/
theorem PlanOk.logicalBlks {ix : Index} {hp : Heap} (hplan : PlanOk ix hp req plan) :
    plan.map PlanEntry.logicalBlk = List.range' req.startBlock plan.length := by
  refine List.ext_getElem (by simp) fun i hi hi' => ?_
  rw [List.length_map] at hi
  rw [List.getElem_map, List.getElem_range', Nat.one_mul]
  exact (hplan.entries i _ (List.getElem?_eq_getElem hi)).logicalBlk

omit [Sha512] in
/-- Consolidation leaves the logical blocks of the entries alone. -/
theorem consolidates_logicalBlks {t : Table Hash Ptr} {hp : Heap} {plan' : List PlanEntry}
    (h : List.Forall₂ (Consolidates t hp) plan plan') :
    plan'.map PlanEntry.logicalBlk = plan.map PlanEntry.logicalBlk := by
  induction h with
  | nil => rfl
  | cons he _ ih =>
    obtain ⟨info, rfl, -, -⟩ := he
    rw [List.map_cons, List.map_cons, ih]

variable {ix : Index} {hp : Heap} {st' : WriteSection} {endBlock : Nat}

/-- Blocks outside the request keep their mapping. -/
theorem Consolidated.lookup_outside
    (h : Consolidated next held pending out st req.path endBlock plan st')
    (hplan : PlanOk ix hp req plan) {k : BlockIndice}
    (hk : ¬(k.path = req.path ∧ req.startBlock ≤ k.offset ∧
      k.offset < req.startBlock + plan.length)) :
    st'.index.fileToMaster.lookup k = st.index.fileToMaster.lookup k := by
  obtain ⟨t, plan', hmap⟩ := h.remapped
  rw [hmap.files]
  refine Table.lookup_foldl_insert_of_ne _ _ _ ?_
  rintro e he rfl
  refine hk ⟨rfl, ?_⟩
  have hmem : e.logicalBlk ∈ plan'.map PlanEntry.logicalBlk := List.mem_map_of_mem he
  rwa [consolidates_logicalBlks hmap.entries, hplan.logicalBlks, List.mem_range'_1] at hmem

/-- The mapping of a block of the request is that of its entry between the loops. -/
theorem Remapped.lookup {t : Table Hash Ptr} {plan' : List PlanEntry}
    (hmap : Remapped st req.path held plan st' t plan') (hplan : PlanOk ix hp req plan) {i : Nat}
    {e' : PlanEntry} (he' : plan'[i]? = some e') :
    st'.index.fileToMaster.lookup ⟨req.path, req.startBlock + i⟩ = some e'.info := by
  have hlogical : e'.logicalBlk = req.startBlock + i := by
    obtain ⟨e, he, info, rfl, -, -⟩ := forall₂_getElem? hmap.entries he'
    exact (hplan.entries i e he).logicalBlk
  have hnodup : (plan'.map fun e : PlanEntry => (⟨req.path, e.logicalBlk⟩ : BlockIndice)).Nodup := by
    have hblks : (plan'.map PlanEntry.logicalBlk).Nodup := by
      rw [consolidates_logicalBlks hmap.entries, hplan.logicalBlks]
      exact List.nodup_range' 1
    have hkeys := hblks.map (f := fun b => (⟨req.path, b⟩ : BlockIndice))
      fun a b hab => congrArg BlockIndice.offset hab
    rwa [List.map_map] at hkeys
  rw [hmap.files, ← hlogical]
  exact Table.lookup_foldl_insert _ _ _ hnodup (List.mem_of_getElem? he')

/-- The double check is not going to discard a shared object: where a HIT of the plan
    shares the pending object of a MISS, its hash is still unpublished. -/
def SharesSurvive (ix : Index) (plan : List PlanEntry) : Prop :=
  ∀ a ∈ plan, a.kind = .miss → ∀ b ∈ plan, b.kind = .hit → b.info = a.info →
    ix.lookupByHash a.hash = none

/-- If no shared object is discarded, every block of the request is mapped to the object
    published under its hash. -/
theorem Consolidated.lookup_published
    (h : Consolidated next held pending out st req.path endBlock plan st')
    (hplan : PlanOk st.index st.heap req plan)
    (hkeyed : ∀ {x m}, st.index.hashToMaster.lookup x = some m → (st.heap.cell m).hash = x)
    (hshares : SharesSurvive st.index plan) {i : Nat} (hi : i < plan.length) :
    ∃ m, st'.index.fileToMaster.lookup ⟨req.path, req.startBlock + i⟩ = some m ∧
      st'.index.hashToMaster.lookup (hash (req.block i)) = some m := by
  obtain ⟨t, plan', hmap⟩ := h.remapped
  have hi' : i < plan'.length := hmap.entries.length_eq ▸ hi
  have he' := List.getElem?_eq_getElem hi'
  obtain ⟨e, he, info, heq, hhit, hmiss⟩ := forall₂_getElem? hmap.entries he'
  have hlookup := hmap.lookup hplan he'
  rw [heq] at hlookup
  have hmem := List.mem_of_getElem? he
  have hhash := hplan.hashed e hmem
  -- the hash leads to the same object between the two loops
  have ht : t.lookup e.hash = some info := by
    cases hk : e.kind with
    | miss => exact hhash ▸ hmiss hk
    | hit =>
      rw [hhit hk]
      rcases hplan.hits e hmem hk with hpub | hown
      · obtain ⟨x, hx⟩ := Table.mem_values.mp hpub
        rw [← hhash, hkeyed hx]
        exact hmap.lookupKept hx
      · obtain ⟨a, ha, hka, hinfo⟩ := mem_missInfos.mp hown
        have hsame : a.hash = e.hash := by rw [← hplan.hashed a ha, hinfo, hhash]
        have hnone := hshares a ha hka e hmem hk hinfo.symm
        obtain ⟨j, hj⟩ := List.mem_iff_getElem?.mp ha
        obtain ⟨x, hx⟩ : ∃ x, t.lookup a.hash = some x := by
          have hj' : j < plan'.length := by
            rw [← hmap.entries.length_eq]
            exact (List.getElem?_eq_some_iff.mp hj).1
          obtain ⟨a', ha', x, -, -, hx⟩ :=
            forall₂_getElem? hmap.entries (List.getElem?_eq_getElem hj')
          obtain rfl : a' = a := Option.some.inj (ha'.symm.trans hj)
          exact ⟨x, hplan.hashed a' ha ▸ hx hka⟩
        obtain ⟨hxhash, hold | ⟨b, hb, hkb, rfl⟩⟩ := hmap.lookupOf hx
        · rw [Index.lookupByHash, hold] at hnone
          cases hnone
        · have hba : b = a := hplan.miss_inj hb hkb ha hka ((hplan.hashed b hb).symm.trans hxhash)
          rw [← hsame, hx, hba, hinfo]
  have hpub : info ∈ values st'.index.hashToMaster :=
    hmap.kept info (Multiset.mem_add.mpr (.inl (Table.mem_values_of_lookup hlookup)))
      (Table.mem_values_of_lookup ht)
  refine ⟨info, hlookup, ?_⟩
  have hinfo : (st'.heap.cell info).hash = hash (req.block i) := by
    rw [h.hashEq, (hmap.lookupOf ht).1]
    exact (hplan.entries i e he).hash
  exact hinfo ▸ h.accounts.lookup_hash hpub

/-- If a shared object is discarded, the block of the HIT that shares it is left with an
    object that is not published. -/
theorem Consolidated.lookup_discarded
    (h : Consolidated next held pending out st req.path endBlock plan st')
    (hplan : PlanOk st.index st.heap req plan)
    (hunpublished : ∀ m ∈ missInfos plan, m ∉ values st.index.hashToMaster)
    (hshares : ¬SharesSurvive st.index plan) :
    ∃ i < plan.length, ∃ m,
      st'.index.fileToMaster.lookup ⟨req.path, req.startBlock + i⟩ = some m ∧
        m ∉ values st'.index.hashToMaster := by
  obtain ⟨t, plan', hmap⟩ := h.remapped
  simp only [SharesSurvive, not_forall] at hshares
  obtain ⟨a, ha, hka, b, hb, hkb, hinfo, hpub⟩ := hshares
  obtain ⟨winner, hwinner⟩ := Option.ne_none_iff_exists'.mp hpub
  have hmiss : b.info ∈ missInfos plan := mem_missInfos.mpr ⟨a, ha, hka, hinfo.symm⟩
  obtain ⟨i, hi⟩ := List.mem_iff_getElem?.mp hb
  have hlt := (List.getElem?_eq_some_iff.mp hi).1
  have hlt' : i < plan'.length := hmap.entries.length_eq ▸ hlt
  obtain ⟨b', hb', info, heq, hhit, -⟩ :=
    forall₂_getElem? hmap.entries (List.getElem?_eq_getElem hlt')
  obtain rfl : b' = b := Option.some.inj (hb'.symm.trans hi)
  have hlookup := hmap.lookup hplan (List.getElem?_eq_getElem hlt')
  rw [heq, hhit hkb] at hlookup
  refine ⟨i, hlt, b'.info, hlookup, fun hin => hunpublished _ hmiss ?_⟩
  -- its hash leads to the winner, which was published before
  have hkey := h.accounts.lookup_hash hin
  rw [h.hashEq, hplan.hashed b' hb, ← (show a.hash = b'.hash by
    rw [← hplan.hashed a ha, ← hplan.hashed b' hb, hinfo])] at hkey
  have hwinner' := hmap.lookupKept hwinner
  rw [Option.some.inj ((hmap.lookupFinal hkey).symm.trans hwinner')]
  exact Table.mem_values_of_lookup hwinner

end

end DedupBlockFS
