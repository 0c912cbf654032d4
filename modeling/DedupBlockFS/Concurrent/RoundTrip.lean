-- SUMMARY: What a concurrent write leaves behind: when its blocks are found again, and why a discarded shared object loses one.
import DedupBlockFS.Concurrent.Mapping
import DedupBlockFS.Reading

/-!
# Concurrent round trips

Right after its pass 3 a write has mapped every block to the object published under
its hash, exactly if the double check has not discarded a pending object that another
block of the same request shares (`SharesSurvive`). From then on the mapping stays, and
a read returns what was written, as long as no other call touches the range.
-/

namespace DedupBlockFS

open ByteFile
open Table (values)

section
variable [Sha512] {W : List UInt8 → Prop} {qs : Qsort} {s s' : Machine} {e : Event} {tid : Nat}
  {req : WriteRequest}

/-- Every block of the request is mapped to the object published under its hash. -/
def Findable (ix : Index) (req : WriteRequest) : Prop :=
  ∀ i < req.numBlocks, ∃ m, ix.lookupByFileBlock req.path (req.startBlock + i) = some m ∧
    ix.lookupByHash (hash (req.block i)) = some m

/-- The bounded runs over blocks among `W` in which no call maps or unmaps a block of
    the request: it is not overwritten, truncated or unlinked. -/
def LeftAlone (W : List UInt8 → Prop) (req : WriteRequest) (s : Machine) (e : Event)
    (s' : Machine) : Prop :=
  BoundedIn W s e s' ∧ ∀ tid io c, e = .run tid io → s.calls[tid]? = some c →
    ∀ i < req.numBlocks, ¬c.Touches ⟨req.path, req.startBlock + i⟩

/-- Steps that leave the range alone keep it findable. -/
theorem Findable.step (hs : s.Consistent W) (h : Findable s.ctx.index req)
    (hstep : (machine qs).step s e = some s') (hP : LeftAlone W req s e s') :
    Findable s'.ctx.index req := by
  intro i hi
  obtain ⟨m, hfile, hhash⟩ := h i hi
  have hs' := hs.step hstep hP.1
  have hfile' : s'.ctx.index.lookupByFileBlock req.path (req.startBlock + i) = some m := by
    rw [← hfile]
    rcases Machine.step_cases hstep with ⟨r, rfl, rfl⟩ |
      ⟨io, c, c', ctx', before, after, rfl, hcalls, hadv, rfl⟩
    · rfl
    · refine advance_lookup (hs.ledger hcalls) hadv (hP.2 before.length io c rfl ?_ i hi)
      rw [hcalls]
      simp
  have hheld : m ∈ values s'.ctx.index.fileToMaster + s'.holds :=
    Multiset.mem_add.mpr (.inl (Table.mem_values_of_lookup hfile'))
  have hpub := Table.mem_values_of_lookup hhash
  have hpub' := hs.kept hstep hP.1.1 hheld hpub
  refine ⟨m, hfile', ?_⟩
  have hlt := hs.accounts.refsLt m (hs.accounts.published_mem_refs hpub)
  rw [← hs.accounts.keyed hhash, ← (hs.frame hstep hP.1.1).2.1 m hlt]
  exact hs'.accounts.lookup_hash hpub'

/-- What is findable is read back as it was written. -/
theorem Findable.readDedup_eq (hs : s.Consistent W)
    (hinj : ∀ a b, W a → W b → hash a = hash b → a = b) (hblocks : req.BlocksIn W)
    (hpos : req.numBlocks ≠ 0) (haligned : req.size % blockSize = 0)
    (h : Findable s.ctx.index req) (rreq : ReadRequest) (hpath : rreq.path = req.path)
    (hstart : rreq.startBlock = req.startBlock) (hsize : rreq.size = req.size) :
    readDedup qs s.ctx rreq = (cInt req.size, req.buf) := by
  have hnum : rreq.numBlocks = req.numBlocks := by
    rw [ReadRequest.numBlocks, WriteRequest.numBlocks, hsize]
  have hlength : (rreq.infos s.ctx.index).length = req.numBlocks := by
    rw [← hnum]
    refine ReadRequest.length_infos fun i hi => ?_
    obtain ⟨m, hm, -⟩ := h i (hnum ▸ hi)
    rw [hpath, hstart, hm]
    exact Option.some_ne_none m
  have hstored : ∀ m ∈ rreq.infos s.ctx.index, Stored s.ctx.master
      (s.ctx.heap.cell m).masterBlockIndex
      (blockAt s.ctx.master (s.ctx.heap.cell m).masterBlockIndex) := by
    intro m hm
    obtain ⟨i, hi⟩ := List.mem_iff_getElem?.mp hm
    obtain ⟨m', hm', hpub⟩ := h i (hlength ▸ (List.getElem?_eq_some_iff.mp hi).1)
    have hlookup := lookup_of_lookupInfos hi
    rw [hpath, hstart, hm'] at hlookup
    obtain rfl := Option.some.inj hlookup
    obtain ⟨b, -, -, hb⟩ := hs.intact m' (Table.mem_values_of_lookup hpub)
    exact ⟨hb.1, rfl⟩
  obtain ⟨hret, hlen, hread⟩ := DedupBlockFS.readDedup_eq qs (by rw [hnum]; exact hpos)
    (by rw [hsize]; exact haligned) hstored
  have hmul : req.numBlocks * blockSize = req.size :=
    Nat.div_mul_cancel (Nat.dvd_of_mod_eq_zero haligned)
  refine Prod.ext (by rw [hret, hlength, hmul]) (eq_of_blocks (n := req.numBlocks)
    (by rw [hlen, hsize, hmul]) (by rw [req.size_eq, hmul]) fun i hi => ?_)
  have hget := List.getElem?_eq_getElem (hlength.symm ▸ hi : i < (rreq.infos s.ctx.index).length)
  rw [hread i _ hget]
  -- the object published under the hash of the block holds this very block
  obtain ⟨m, hm, hpub⟩ := h i hi
  have hlookup := lookup_of_lookupInfos hget
  rw [hpath, hstart, hm] at hlookup
  rw [← Option.some.inj hlookup]
  obtain ⟨b, hW, hb, -, hstore⟩ := hs.intact m (Table.mem_values_of_lookup hpub)
  rw [hstore]
  exact hinj b _ hW (hblocks i hi) (hb.trans (hs.accounts.keyed hpub))

/-- Right after its pass 3 a write is findable exactly if its shared objects survive. -/
theorem findable_iff {plan : List PlanEntry} {io : PwriteResult} (hs : s.Consistent W)
    (hcall : s.calls[tid]? = some (.write req (.consolidate plan)))
    (hstep : (machine qs).step s (.run tid io) = some s') :
    Findable s'.ctx.index req ↔ SharesSurvive s.ctx.index plan := by
  have hstep' : s.step qs (.run tid io) = some s' := hstep
  rcases Machine.step_cases hstep' with ⟨r, he, -⟩ |
    ⟨io', c, c', ctx', before, after, he, hcalls, hadv, rfl⟩
  · cases he
  obtain ⟨rfl, rfl⟩ := Event.run.inj he
  have hc : c = .write req (.consolidate plan) := by
    rw [hcalls, List.getElem?_append_right (Nat.le_refl _), Nat.sub_self] at hcall
    exact Option.some.inj hcall
  subst hc
  simp only [advance, advanceWrite, Option.map_some, Option.some.injEq, Prod.mk.injEq] at hadv
  obtain ⟨rfl, -⟩ := hadv
  have hl := hs.ledger hcalls
  obtain ⟨hflight, -⟩ := hl.ok
  have hc := hl.consolidated
  constructor
  · intro hfind
    by_contra hshares
    obtain ⟨i, hi, m, hm, hnot⟩ := hc.lookup_discarded hflight.ok
      (fun m hm => hl.accounts.balanced.notPublished m (Multiset.mem_add.mpr (.inl hm))) hshares
    obtain ⟨m', hm', hpub⟩ := hfind i (hflight.length ▸ hi)
    obtain rfl : m' = m := Option.some.inj (hm'.symm.trans hm)
    exact hnot (Table.mem_values_of_lookup hpub)
  · intro hshares i hi
    exact hc.lookup_published hflight.ok hl.accounts.keyed hshares (hflight.length.symm ▸ hi)

/-- A concurrent write that is about to consolidate, among any other calls. Its blocks
    can be found right afterwards exactly if no shared object is discarded; then, in
    every later state of a run that leaves its range alone, they still can, and reading
    the range returns what was written. -/
theorem concurrent_round_trip {s₀ s₁ : Machine} {plan : List PlanEntry} {io : PwriteResult}
    (hinj : ∀ a b, W a → W b → hash a = hash b → a = b)
    (h : (machine qs).Reachable (BoundedIn W) s₀)
    (hcall : s₀.calls[tid]? = some (.write req (.consolidate plan)))
    (hstep : (machine qs).step s₀ (.run tid io) = some s₁) (hfew : s₁.FewReferences) :
    (Findable s₁.ctx.index req ↔ SharesSurvive s₀.ctx.index plan) ∧
    (SharesSurvive s₀.ctx.index plan → ∀ s₂, (machine qs).Run (LeftAlone W req) s₁ s₂ →
      Findable s₂.ctx.index req ∧
      ∀ rreq : ReadRequest, rreq.path = req.path → rreq.startBlock = req.startBlock →
        rreq.size = req.size → readDedup qs s₂.ctx rreq = (cInt req.size, req.buf)) := by
  have hs₀ := Machine.Consistent.reachable h
  have hiff := findable_iff hs₀ hcall hstep
  refine ⟨hiff, fun hshares s₂ hrun => ?_⟩
  have hs₁ : s₁.Consistent W := hs₀.step hstep ⟨hfew, trivial⟩
  obtain ⟨hs₂, hfind⟩ := hrun.invariant
    (I := fun s => s.Consistent W ∧ Findable s.ctx.index req)
    (fun s e s' hI hse hP => ⟨hI.1.step hse hP.1, hI.2.step hI.1 hse hP⟩)
    ⟨hs₁, hiff.mpr hshares⟩
  have hmem := List.mem_of_getElem? hcall
  obtain ⟨hflight, -⟩ := hs₀.ok _ hmem
  have haligned : req.size % blockSize = 0 := by
    rw [hflight.aligned]
    exact Nat.mul_mod_left _ _
  exact ⟨hfind, hfind.readDedup_eq hs₂ hinj (hs₀.blocks _ hmem) hflight.nonempty haligned⟩

end

/-- The file `b` gets two blocks of zeros. -/
abbrev twoZeroBlocks : WriteRequest := .zeros pathB 0 2

/-- One block of zeros is written to `a` and two to `b`; each write has looked its blocks
    up before the other publishes them, and both are about to consolidate. -/
def sharedZeroWrites : List Event :=
  [.dispatch (.write (.zeros pathA 0 1)),
    .dispatch (.write twoZeroBlocks),
    .run 0 .complete, .run 1 .complete, .run 0 .complete, .run 1 .complete, .run 0 .complete,
    .run 1 .complete, .run 0 .complete, .run 1 .complete, .run 0 .complete, .run 1 .complete]

theorem sharedZeroWrites_enabled : ((@machine Sha512.zeroBlock .mergeSort).replay Machine.fewCheck
    (@machine Sha512.zeroBlock .mergeSort).init sharedZeroWrites).isSome := by
  decide +kernel

def beforeConsolidations : Machine :=
  ((@machine Sha512.zeroBlock .mergeSort).replay Machine.fewCheck
    (@machine Sha512.zeroBlock .mergeSort).init sharedZeroWrites).get sharedZeroWrites_enabled

theorem beforeConsolidations_reachable :
    (@machine Sha512.zeroBlock .mergeSort).Reachable (BoundedIn IsZeroBlock)
      beforeConsolidations := by
  refine @Machine.reachableIn_of_replay Sha512.zeroBlock IsZeroBlock .mergeSort _ ?_
    sharedZeroWrites_enabled
  simp [sharedZeroWrites, Event.BlocksIn, blocksIn_zeros]

/-- The write to `b` has a plan; its second block shares the pending object of the first. -/
theorem beforeConsolidations_call : ∃ plan, beforeConsolidations.calls[1]? =
    some (.write twoZeroBlocks (.consolidate plan)) :=
  ⟨_, rfl⟩

theorem secondFirst_enabled : ((@machine Sha512.zeroBlock .mergeSort).step
    beforeConsolidations (.run 1 .complete)).isSome := by
  decide +kernel

/-- The write to `b` consolidates first. -/
def secondFirst : Machine :=
  ((@machine Sha512.zeroBlock .mergeSort).step beforeConsolidations (.run 1 .complete)).get
    secondFirst_enabled

theorem bothConsolidated_enabled : ((@machine Sha512.zeroBlock .mergeSort).step
    secondFirst (.run 0 .complete)).isSome := by
  decide +kernel

/-- Then the write to `a` finds that its block has been published in the meantime. -/
def bothConsolidated : Machine :=
  ((@machine Sha512.zeroBlock .mergeSort).step secondFirst (.run 0 .complete)).get
    bothConsolidated_enabled

theorem secondFirst_leftAlone :
    LeftAlone IsZeroBlock twoZeroBlocks secondFirst (.run 0 .complete) bothConsolidated := by
  refine ⟨⟨Machine.bounded_of_fewCheck secondFirst (.run 0 .complete) bothConsolidated
    (by decide +kernel), trivial⟩, fun tid io c he hc i _ => ?_⟩
  obtain ⟨rfl, rfl⟩ := Event.run.inj he
  have hcall : ∃ plan, secondFirst.calls[0]? =
    some (.write (.zeros pathA 0 1) (.consolidate plan)) := ⟨_, rfl⟩
  obtain ⟨plan, hcall⟩ := hcall
  obtain rfl := Option.some.inj (hcall.symm.trans hc)
  have hne : twoZeroBlocks.path ≠ pathA := by decide
  exact fun htouch => hne htouch.1

theorem concurrent_round_trip_of_bothConsolidated :
    @Findable Sha512.zeroBlock bothConsolidated.ctx.index twoZeroBlocks ∧
      ∀ rreq : ReadRequest, rreq.path = twoZeroBlocks.path →
        rreq.startBlock = twoZeroBlocks.startBlock → rreq.size = twoZeroBlocks.size →
        readDedup .mergeSort bothConsolidated.ctx rreq =
          (cInt twoZeroBlocks.size, twoZeroBlocks.buf) := by
  let _ := Sha512.zeroBlock
  obtain ⟨plan, hcall⟩ := beforeConsolidations_call
  have hshares : SharesSurvive beforeConsolidations.ctx.index plan := by
    intro a _ _ _ _ _ _
    show beforeConsolidations.ctx.index.hashToMaster.lookup a.hash = none
    rw [show beforeConsolidations.ctx.index.hashToMaster = ∅ from rfl]
    rfl
  have hfew : secondFirst.FewReferences :=
    Machine.bounded_of_fewCheck beforeConsolidations (.run 1 .complete) secondFirst
      (by decide +kernel)
  exact (concurrent_round_trip (fun a b ha hb _ => ha.trans hb.symm)
    beforeConsolidations_reachable hcall (Option.some_get secondFirst_enabled).symm hfew).2 hshares
    bothConsolidated (.single (Option.some_get bothConsolidated_enabled).symm secondFirst_leftAlone)

theorem secondLast_enabled : ((@machine Sha512.zeroBlock .mergeSort).replay Machine.fewCheck
    (@machine Sha512.zeroBlock .mergeSort).init (sharedZeroWrites ++
      [.run 0 .complete, .run 0 .complete, .run 1 .complete, .run 1 .complete])).isSome := by
  decide +kernel

/-- The write to `a` consolidates first, then the one to `b`; both return. -/
def secondLast : Machine :=
  ((@machine Sha512.zeroBlock .mergeSort).replay Machine.fewCheck
    (@machine Sha512.zeroBlock .mergeSort).init (sharedZeroWrites ++
      [.run 0 .complete, .run 0 .complete, .run 1 .complete, .run 1 .complete])).get
    secondLast_enabled

/-- Two writes to different files have succeeded, nothing else has happened, and the
    second block of `b` is mapped to an object that is not published. -/
theorem not_concurrent_round_trip :
    (@machine Sha512.zeroBlock .mergeSort).Reachable (BoundedIn IsZeroBlock)
      secondLast ∧
    secondLast.calls.map Call.result = [some 4096, some 8192] ∧
    ∃ m, secondLast.ctx.index.lookupByFileBlock pathB 1 = some m ∧
      ¬secondLast.ctx.index.Published m ∧
      (secondLast.ctx.heap.cell m).masterBlockIndex ∈ secondLast.ctx.index.freeBlockList := by
  refine ⟨?_, by decide +kernel, 1, by decide +kernel, ?_, by decide +kernel⟩
  · refine @Machine.reachableIn_of_replay Sha512.zeroBlock IsZeroBlock .mergeSort _ ?_
      secondLast_enabled
    simp [sharedZeroWrites, Event.BlocksIn, blocksIn_zeros]
  · unfold Index.Published
    decide +kernel

end DedupBlockFS
