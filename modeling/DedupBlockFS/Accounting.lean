-- SUMMARY: Index and heap as a reference-counted pool, and what taking, dropping, publishing and giving up references does to it.
import Mathlib.Data.Multiset.Range
import Mathlib.Tactic.Abel
import DedupBlockFS.Lib.RefPool
import DedupBlockFS.Dedup.Write

/-!
# Accounting

The faithful index and heap seen as a `RefPool`: `refs` collects every reference
to a `MasterInfo`, from `file_to_master` and from the plans of calls in flight,
`pending` the objects not yet published, and `out` the slots that are neither
free nor owned by a published object. Each primitive of the code is the pool
operation of the same meaning, as long as the 32-bit counter does not wrap.
-/

namespace DedupBlockFS

/-- The pool an index and a heap stand for. -/
def poolOf (ix : Index) (hp : Heap) (refs pending : Multiset Ptr) (out : Multiset Nat) :
    RefPool Ptr Nat where
  published := Table.values ix.hashToMaster
  pending := pending
  refs := refs
  count := fun m => (hp.cell m).refcount
  slot := fun m => (hp.cell m).masterBlockIndex
  free := ix.freeBlockList
  out := out

/-- The accounts of the index: the pool is balanced over the slots handed out so far,
    `hash_to_master` is keyed by the hashes of its objects, references point to
    allocated objects, and the counters are 32-bit numbers. -/
structure Accounts (ix : Index) (hp : Heap) (next : Nat) (refs pending : Multiset Ptr)
    (out : Multiset Nat) : Prop where
  balanced : (poolOf ix hp refs pending out).Balanced (Multiset.range next)
  keyed : ∀ {h m}, ix.hashToMaster.lookup h = some m → (hp.cell m).hash = h
  refsLt : ∀ m ∈ refs, m < hp.brk
  counterLt : ∀ m, (hp.cell m).refcount < 2 ^ 32

/-- There are fewer than 2^32 references to any one block, among `refs`. -/
def FewReferences (hp : Heap) (refs : Multiset Ptr) : Prop :=
  ∀ h, (refs.map fun m => (hp.cell m).hash).count h < 2 ^ 32

theorem FewReferences.count_lt {hp : Heap} {refs : Multiset Ptr} (h : FewReferences hp refs)
    (m : Ptr) : refs.count m < 2 ^ 32 :=
  (Multiset.count_le_count_map (fun m => (hp.cell m).hash) refs m).trans_lt (h _)

theorem FewReferences.of_card {hp : Heap} {refs : Multiset Ptr} (h : refs.card < 2 ^ 32) :
    FewReferences hp refs := fun x =>
  (Multiset.count_le_card x _).trans_lt (by rwa [Multiset.card_map])

/-- Fewer references to objects that keep their hashes are still few. -/
theorem FewReferences.mono {hp hp' : Heap} {refs refs' : Multiset Ptr} (h : FewReferences hp refs)
    (hle : refs' ≤ refs) (hhash : ∀ m ∈ refs', (hp'.cell m).hash = (hp.cell m).hash) :
    FewReferences hp' refs' := by
  intro x
  rw [Multiset.map_congr rfl hhash]
  exact (Multiset.count_le_of_le x (Multiset.map_le_map hle)).trans_lt (h x)

namespace Accounts

variable {ix ix' : Index} {hp : Heap} {next : Nat} {refs pending : Multiset Ptr}
  {out : Multiset Nat} {m : Ptr}

theorem empty : Accounts .empty .empty 0 0 0 0 where
  balanced :=
    { publishedNodup := Multiset.nodup_zero
      pendingNodup := Multiset.nodup_zero
      notPublished := by simp [poolOf]
      publishedHeld := by simp [poolOf, Index.empty]
      pendingHeld := by simp [poolOf]
      publishedCount := by simp [poolOf, Index.empty]
      pendingCount := by simp [poolOf]
      lostCount := by simp [poolOf]
      slots := by simp [poolOf, Index.empty] }
  keyed h := by simp [Index.empty] at h
  refsLt := by simp
  counterLt := by simp [Heap.empty]

/-- The accounts depend on `hash_to_master` and the free list only. -/
theorem congr_index (ha : Accounts ix hp next refs pending out)
    (htable : ix'.hashToMaster = ix.hashToMaster)
    (hfree : ix'.freeBlockList = ix.freeBlockList) : Accounts ix' hp next refs pending out where
  balanced := by
    have hpool : poolOf ix' hp refs pending out = poolOf ix hp refs pending out := by
      simp only [poolOf, htable, hfree]
    exact hpool ▸ ha.balanced
  keyed := by rw [htable]; exact ha.keyed
  refsLt := ha.refsLt
  counterLt := ha.counterLt

/-- The same accounts with the multisets written differently. -/
theorem congr {refs' pending' : Multiset Ptr} {out' : Multiset Nat}
    (ha : Accounts ix hp next refs pending out) (hrefs : refs = refs')
    (hpending : pending = pending') (hout : out = out') :
    Accounts ix hp next refs' pending' out' := by
  subst hrefs hpending hout
  exact ha

theorem free (ha : Accounts ix hp next refs pending out) :
    Accounts ix (hp.free m) next refs pending out :=
  ⟨ha.balanced, ha.keyed, ha.refsLt, ha.counterLt⟩

theorem published_mem_refs (ha : Accounts ix hp next refs pending out)
    (hm : m ∈ Table.values ix.hashToMaster) : m ∈ refs :=
  ha.balanced.publishedHeld m hm

theorem pending_mem_refs (ha : Accounts ix hp next refs pending out) (hm : m ∈ pending) :
    m ∈ refs :=
  ha.balanced.pendingHeld m hm

/-- A published object is found under its own hash. -/
theorem lookup_hash (ha : Accounts ix hp next refs pending out)
    (hm : m ∈ Table.values ix.hashToMaster) :
    ix.hashToMaster.lookup (hp.cell m).hash = some m := by
  obtain ⟨h, hlookup⟩ := Table.mem_values.mp hm
  rw [ha.keyed hlookup]
  exact hlookup

/-- No slot is in two places. -/
theorem slots_nodup (ha : Accounts ix hp next refs pending out) :
    ((ix.freeBlockList : Multiset Nat) +
      (Table.values ix.hashToMaster).map (fun m => (hp.cell m).masterBlockIndex) + out).Nodup := by
  have hslots := ha.balanced.slots
  simp only [poolOf] at hslots
  rw [hslots]
  exact Multiset.nodup_range next

theorem out_nodup (ha : Accounts ix hp next refs pending out) : out.Nodup :=
  Multiset.nodup_of_le (Multiset.le_add_left _ _) ha.slots_nodup

theorem slot_not_out (ha : Accounts ix hp next refs pending out)
    (hm : m ∈ Table.values ix.hashToMaster) : (hp.cell m).masterBlockIndex ∉ out := by
  intro hout
  have hdisj := (Multiset.nodup_add.mp ha.slots_nodup).2.2
  exact Multiset.disjoint_left.mp hdisj
    (Multiset.mem_add.mpr (.inr (Multiset.mem_map_of_mem _ hm))) hout

/-! ## Taking references -/

/-- `fetch_add` on a published or pending object takes a reference. -/
theorem fetchAdd (ha : Accounts ix hp next refs pending out)
    (hm : m ∈ Table.values ix.hashToMaster ∨ m ∈ pending) (hlt : refs.count m + 1 < 2 ^ 32) :
    Accounts ix (hp.fetchAdd m) next (m ::ₘ refs) pending out where
  balanced := by
    have hcount : (hp.cell m).refcount = refs.count m :=
      hm.elim (ha.balanced.publishedCount m) (ha.balanced.pendingCount m)
    have hpool : poolOf ix (hp.fetchAdd m) (m ::ₘ refs) pending out =
        (poolOf ix hp refs pending out).take m := by
      simp only [poolOf, RefPool.take, Heap.fetchAdd_masterBlockIndex,
        Heap.refcount_fetchAdd (hcount ▸ hlt)]
    exact hpool ▸ ha.balanced.take hm
  keyed h := by rw [Heap.fetchAdd_hash]; exact ha.keyed h
  refsLt m' hm' := by
    rcases Multiset.mem_cons.mp hm' with rfl | hm'
    · exact ha.refsLt m' (hm.elim ha.published_mem_refs ha.pending_mem_refs)
    · exact ha.refsLt m' hm'
  counterLt m' := by
    rw [Heap.fetchAdd_refcount]
    split
    · exact Nat.mod_lt _ (by decide)
    · exact ha.counterLt m'

/-- A new object is pending and has the reference of its creator. -/
theorem alloc {info : MasterInfo} (ha : Accounts ix hp next refs pending out)
    (hinfo : info.refcount = 1) :
    Accounts ix (hp.alloc info).1 next (hp.brk ::ₘ refs) (hp.brk ::ₘ pending) out := by
  have hfresh : hp.brk ∉ refs := fun hm => Nat.lt_irrefl _ (ha.refsLt _ hm)
  have hpub : hp.brk ∉ Table.values ix.hashToMaster := fun hm => hfresh (ha.published_mem_refs hm)
  have hcell : ∀ {h m}, ix.hashToMaster.lookup h = some m →
      (hp.alloc info).1.cell m = hp.cell m := fun hlookup =>
    Heap.alloc_cell_of_lt
      (ha.refsLt _ (ha.published_mem_refs (Table.mem_values_of_lookup hlookup)))
  refine ⟨?_, fun h => ?_, fun m' hm' => ?_, fun m' => ?_⟩
  · have hpool : poolOf ix (hp.alloc info).1 (hp.brk ::ₘ refs) (hp.brk ::ₘ pending) out =
        (poolOf ix hp refs pending out).create hp.brk info.masterBlockIndex := by
      simp only [poolOf, RefPool.create, Heap.alloc]
      congr 1 <;>
      · funext m'
        by_cases heq : m' = hp.brk <;> simp [heq, hinfo]
    exact hpool ▸ ha.balanced.create hpub hfresh
  · rw [hcell h]
    exact ha.keyed h
  · rcases Multiset.mem_cons.mp hm' with rfl | hm'
    · exact Nat.lt_succ_self _
    · exact Nat.lt_succ_of_lt (ha.refsLt m' hm')
  · simp only [Heap.alloc, Function.update_apply]
    split
    · rw [hinfo]
      decide
    · exact ha.counterLt m'

/-- Storing a slot in an unpublished object. -/
theorem setMasterBlockIndex (ha : Accounts ix hp next refs pending out) (hm : m ∈ pending)
    (slot : Nat) : Accounts ix (hp.setMasterBlockIndex m slot) next refs pending out where
  balanced := by
    have hpool : poolOf ix (hp.setMasterBlockIndex m slot) refs pending out =
        (poolOf ix hp refs pending out).place m slot := by
      simp only [poolOf, RefPool.place, Heap.setMasterBlockIndex_refcount]
      congr 1
      funext m'
      rw [Heap.setMasterBlockIndex_masterBlockIndex, Function.update_apply]
    exact hpool ▸ ha.balanced.place (ha.balanced.notPublished m hm)
  keyed h := by rw [Heap.setMasterBlockIndex_hash]; exact ha.keyed h
  refsLt := ha.refsLt
  counterLt m' := by rw [Heap.setMasterBlockIndex_refcount]; exact ha.counterLt m'

/-! ## Publishing and giving up -/

/-- `insert_hash` of a pending object whose hash is not in the table. -/
theorem insertHash (ha : Accounts ix hp next refs pending out) (hm : m ∈ pending)
    (hnone : ix.hashToMaster.lookup (hp.cell m).hash = none)
    (hslot : (hp.cell m).masterBlockIndex ∈ out) :
    Accounts (ix.insertHash (hp.cell m).hash m) hp next refs (pending.erase m)
      (out.erase (hp.cell m).masterBlockIndex) where
  balanced := by
    have hpool : poolOf (ix.insertHash (hp.cell m).hash m) hp refs (pending.erase m)
        (out.erase (hp.cell m).masterBlockIndex) = (poolOf ix hp refs pending out).publish m := by
      simp only [poolOf, RefPool.publish, Index.insertHash, Table.values_insert,
        Table.erase_of_lookup_none hnone]
    exact hpool ▸ ha.balanced.publish hm hslot
  keyed {h m'} hlookup := by
    by_cases heq : h = (hp.cell m).hash
    · subst heq
      have hself : (ix.hashToMaster.insert (hp.cell m).hash m).lookup (hp.cell m).hash = some m :=
        AList.lookup_insert _
      rw [Index.insertHash, hself] at hlookup
      rw [Option.some.inj hlookup]
    · rw [Index.insertHash, AList.lookup_insert_ne heq] at hlookup
      exact ha.keyed hlookup
  refsLt := ha.refsLt
  counterLt := ha.counterLt

/-- Freeing a pending object without touching its counter. -/
theorem abandon (ha : Accounts ix hp next refs pending out) (hm : m ∈ pending) :
    Accounts ix (hp.free m) next (refs.erase m) (pending.erase m) out :=
  ⟨ha.balanced.abandon hm, ha.keyed, fun m' hm' => ha.refsLt m' (Multiset.mem_of_mem_erase hm'),
    ha.counterLt⟩

/-- Slots move between the free list, the calls in flight and the end of the file. -/
theorem moveSlots {free : List Nat} {out' : Multiset Nat} {next' : Nat}
    (ha : Accounts ix hp next refs pending out)
    (hmove : (free : Multiset Nat) + out' + Multiset.range next =
      (ix.freeBlockList : Multiset Nat) + out + Multiset.range next') :
    Accounts { ix with freeBlockList := free } hp next' refs pending out' where
  balanced := by
    refine ha.balanced.moveSlots (free : Multiset Nat) out' ?_
    have hslots := ha.balanced.slots
    simp only [poolOf] at hslots ⊢
    have hcancel : (free : Multiset Nat) + (Table.values ix.hashToMaster).map
        (fun m => (hp.cell m).masterBlockIndex) + out' + ((ix.freeBlockList : Multiset Nat) + out) =
        Multiset.range next' + ((ix.freeBlockList : Multiset Nat) + out) := by
      rw [add_comm (Multiset.range next'), ← hmove, ← hslots]
      abel
    exact add_right_cancel hcancel
  keyed := ha.keyed
  refsLt := ha.refsLt
  counterLt := ha.counterLt

end Accounts

end DedupBlockFS
