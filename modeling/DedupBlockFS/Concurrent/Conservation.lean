-- SUMMARY: Conservation laws over all interleavings: every slot has one owner, every counter is the number of holders.
import DedupBlockFS.Concurrent.Invariant

/-!
# Conservation

Two consequences of the invariant that do not mention plans or sections: slots are
neither duplicated nor lost, and the reference counters are exact.
-/

namespace DedupBlockFS

open ByteFile
open Table (values)

/-! ## Slots -/

section
variable [Sha512] {qs : Qsort} {s : Machine}

/-- Every slot below `nextBlockIndex`, and no other, is in exactly one place: in the free
    list, owned by a published object, allocated to a MISS in flight, or in a local
    release list. -/
theorem slots_conserved (h : (machine qs).Reachable Bounded s) :
    (s.ctx.index.freeBlockList : Multiset Nat) +
        (values s.ctx.index.hashToMaster).map (fun m => (s.ctx.heap.cell m).masterBlockIndex) +
        s.allocated + s.released =
      Multiset.range s.ctx.nextBlockIndex := by
  have hslots := (Machine.Consistent.reachable_any h).accounts.balanced.slots
  rw [← hslots, add_assoc _ s.allocated, ← Machine.slots_eq]
  rfl

end

/-- Two writes of zeros to different files; the first has published its block, and the
    second, which has started before that, is about to consolidate. -/
def twoZeroWrites : List Event :=
  [.dispatch (.write (.zeros pathA 0 1)),
    .dispatch (.write (.zeros pathB 0 1)),
    .run 0 .complete, .run 1 .complete, .run 0 .complete, .run 1 .complete, .run 0 .complete,
    .run 1 .complete, .run 0 .complete, .run 1 .complete, .run 0 .complete, .run 1 .complete,
    .run 0 .complete]

theorem twoZeroWrites_enabled : ((@machine Sha512.zeroBlock .mergeSort).replay Machine.fewCheck
    (@machine Sha512.zeroBlock .mergeSort).init twoZeroWrites).isSome := by
  decide +kernel

/-- The state after these events. -/
def afterTwoZeroWrites : Machine :=
  ((@machine Sha512.zeroBlock .mergeSort).replay Machine.fewCheck
    (@machine Sha512.zeroBlock .mergeSort).init twoZeroWrites).get twoZeroWrites_enabled

theorem afterTwoZeroWrites_reachable :
    (@machine Sha512.zeroBlock .mergeSort).Reachable Bounded afterTwoZeroWrites :=
  @Machine.reachable_of_replay Sha512.zeroBlock .mergeSort _ twoZeroWrites_enabled

theorem slots_conserved_of_twoZeroWrites :
    afterTwoZeroWrites.ctx.nextBlockIndex = 2 ∧ afterTwoZeroWrites.allocated = {1} ∧
      (afterTwoZeroWrites.ctx.index.freeBlockList : Multiset Nat) +
          (values afterTwoZeroWrites.ctx.index.hashToMaster).map
            (fun m => (afterTwoZeroWrites.ctx.heap.cell m).masterBlockIndex) +
          afterTwoZeroWrites.allocated + afterTwoZeroWrites.released =
        Multiset.range afterTwoZeroWrites.ctx.nextBlockIndex :=
  ⟨by decide +kernel, by decide +kernel,
    @slots_conserved Sha512.zeroBlock .mergeSort _ afterTwoZeroWrites_reachable⟩

/-! ## Counters -/

/-- The holders of `m`: entries of `file_to_master` and HITs of plans in flight. -/
def Machine.holders (s : Machine) (m : Ptr) : Nat :=
  (values s.ctx.index.fileToMaster).count m + s.hits.count m

section
variable [Sha512] {qs : Qsort} {s : Machine}

/-- The holders of a published object are all the references to it. -/
theorem Machine.Consistent.holders_eq {W : List UInt8 → Prop} (hs : s.Consistent W) {m : Ptr}
    (hm : s.ctx.index.Published m) :
    s.holders m = (values s.ctx.index.fileToMaster + s.holds).count m := by
  have hpending : m ∉ s.pending := fun hp => hs.accounts.balanced.notPublished m hp hm
  rw [Machine.holders, Multiset.count_add, Machine.holds_eq, Multiset.count_add,
    Multiset.count_eq_zero_of_notMem hpending, Nat.zero_add]

theorem Machine.Consistent.holders_pos {W : List UInt8 → Prop} (hs : s.Consistent W) {m : Ptr}
    (hm : s.ctx.index.Published m) : 1 ≤ s.holders m := by
  rw [hs.holders_eq hm]
  exact Multiset.count_pos.mpr (hs.accounts.published_mem_refs hm)

/-- The counter of a published object is the number of its holders, of which there is
    at least one, and the object is unpublished by exactly the step that leaves it
    without any. -/
theorem refcount_conserved (h : (machine qs).Reachable Bounded s) {m : Ptr}
    (hm : s.ctx.index.Published m) :
    (s.ctx.heap.cell m).refcount = s.holders m ∧ 1 ≤ s.holders m ∧
      ∀ e s', (machine qs).step s e = some s' → s'.FewReferences →
        (¬s'.ctx.index.Published m ↔ s'.holders m = 0) := by
  have hs := Machine.Consistent.reachable_any h
  refine ⟨?_, hs.holders_pos hm, fun e s' hstep hfew => ⟨fun hgone => ?_, fun hzero hpub => ?_⟩⟩
  · rw [hs.holders_eq hm]
    exact hs.accounts.balanced.publishedCount m hm
  · -- whoever held it after the step would have kept it published
    have hnone : m ∉ values s'.ctx.index.fileToMaster + s'.holds :=
      fun hmem => hgone (hs.kept hstep hfew hmem hm)
    rw [Multiset.mem_add, not_or, Machine.holds_eq, Multiset.mem_add, not_or] at hnone
    rw [Machine.holders, Multiset.count_eq_zero_of_notMem hnone.1,
      Multiset.count_eq_zero_of_notMem hnone.2.2]
  · have hs' := Machine.Consistent.reachable_any (h.trans (.single hstep hfew))
    have := hs'.holders_pos hpub
    omega

end

theorem refcount_conserved_of_twoZeroWrites :
    (afterTwoZeroWrites.ctx.heap.cell 0).refcount = afterTwoZeroWrites.holders 0 ∧
      1 ≤ afterTwoZeroWrites.holders 0 ∧
        ∀ e s', (@machine Sha512.zeroBlock .mergeSort).step afterTwoZeroWrites e = some s' →
          s'.FewReferences → (¬s'.ctx.index.Published 0 ↔ s'.holders 0 = 0) := by
  have hpub : afterTwoZeroWrites.ctx.index.Published 0 := by
    unfold Index.Published
    decide +kernel
  exact @refcount_conserved Sha512.zeroBlock .mergeSort _ afterTwoZeroWrites_reachable 0 hpub

end DedupBlockFS
