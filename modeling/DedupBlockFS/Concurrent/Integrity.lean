-- SUMMARY: Published blocks are intact in every reachable state, and reads that overlap with other calls return them.
import DedupBlockFS.Concurrent.Invariant
import DedupBlockFS.Reading

/-!
# Integrity of published blocks

`pwrite` and `pread` run without a lock. A published object is nevertheless intact at
all times: its slot was written completely before it was published, and nobody writes
to it while it stays published. A read that overlaps with other calls returns blocks
with the hashes it looked up, provided that the objects stay published until they
have been read.
-/

namespace DedupBlockFS

open ByteFile

/-! ## The progress of a read -/

/-- How far a read of the objects `infos` has got: each block is still among the pairs
    `todo`, or what the buffer holds for it is in the relation `P` with its object. -/
structure ReadProgress (P : Ptr → List UInt8 → Prop) (req : ReadRequest) (infos : List Ptr)
    (hp : Heap) (todo : List BlockPair) (buf : List UInt8) : Prop where
  length : buf.length = req.size
  nodup : (todo.map BlockPair.logicalIdx).Nodup
  pairs : ∀ p ∈ todo, ∃ m, infos[p.logicalIdx]? = some m ∧
    p.masterBlockIndex = (hp.cell m).masterBlockIndex
  blocks : ∀ i m, infos[i]? = some m →
    i ∈ todo.map BlockPair.logicalIdx ∨ P m (pread buf (i * blockSize) blockSize)

/-- The state of a read after phase 1. -/
def ReadPc.Progress (P : Ptr → List UInt8 → Prop) (req : ReadRequest) (infos : List Ptr)
    (hp : Heap) : ReadPc → Prop
  | .start => False
  | .groups validBlocks todo buf => validBlocks = infos.length ∧ ReadProgress P req infos hp todo buf
  | .done ret buf => ret = cInt (infos.length * blockSize) ∧ ReadProgress P req infos hp [] buf

section
variable {P : Ptr → List UInt8 → Prop} {req : ReadRequest} {infos : List Ptr} {hp hp' : Heap}
  {todo : List BlockPair} {buf : List UInt8} {qs : Qsort} {ctx : Context} {pc pc' : ReadPc}

/-- Progress survives as long as the objects still to be read keep their slots. -/
theorem ReadProgress.frame (h : ReadProgress P req infos hp todo buf)
    (hslot : todo ≠ [] → ∀ m ∈ infos,
      (hp'.cell m).masterBlockIndex = (hp.cell m).masterBlockIndex) :
    ReadProgress P req infos hp' todo buf where
  length := h.length
  nodup := h.nodup
  pairs p hp := by
    obtain ⟨m, hm, hpm⟩ := h.pairs p hp
    exact ⟨m, hm, hpm.trans (hslot (List.ne_nil_of_mem hp) m (List.mem_of_getElem? hm)).symm⟩
  blocks := h.blocks

/-- Reading one group, while the slots of the objects hold what they should. -/
theorem ReadProgress.group (master : List UInt8) {first : BlockPair} {rest : List BlockPair}
    (h : ReadProgress P req infos hp (first :: rest) buf)
    (hsize : infos.length * blockSize ≤ req.size)
    (hstored : ∀ m ∈ infos, ∃ b, P m b ∧ Stored master (hp.cell m).masterBlockIndex b) :
    ∃ buf', readGroup master buf first rest = (buf', true) ∧
      ReadProgress P req infos hp (rest.drop (groupLength first rest - 1)) buf' := by
  have hread : Readable master buf (first :: rest) := by
    intro p hp
    obtain ⟨m, hm, hslot⟩ := h.pairs p hp
    obtain ⟨b, -, hb⟩ := hstored m (List.mem_of_getElem? hm)
    refine ⟨hslot ▸ hb.1, ?_⟩
    rw [h.length]
    have hlt := (List.getElem?_eq_some_iff.mp hm).1
    exact (Nat.mul_le_mul_right _ (Nat.succ_le_of_lt hlt)).trans hsize
  obtain ⟨buf', hgroup, hfilled⟩ := readGroup_filled hread h.nodup
  have hdrop : rest.drop (groupLength first rest - 1) =
    (first :: rest).drop (groupLength first rest) := rfl
  refine ⟨buf', hgroup, ?_⟩
  rw [hdrop]
  refine
    { length := hfilled.length.trans h.length
      nodup := h.nodup.sublist ((List.drop_sublist _ _).map _)
      pairs := fun p hp => h.pairs p (List.mem_of_mem_drop hp)
      blocks := fun i m hm => ?_ }
  by_cases htake : i ∈ ((first :: rest).take (groupLength first rest)).map BlockPair.logicalIdx
  · right
    obtain ⟨p, hp, rfl⟩ := List.mem_map.mp htake
    obtain ⟨m', hm', hslot⟩ := h.pairs p (List.mem_of_mem_take hp)
    obtain rfl : m' = m := Option.some.inj (hm'.symm.trans hm)
    obtain ⟨b, hb, hstore⟩ := hstored m' (List.mem_of_getElem? hm)
    rwa [hfilled.inside p hp, hslot, hstore.2]
  · rw [hfilled.outside i htake]
    refine (h.blocks i m hm).imp_left fun hmem => ?_
    rw [← List.take_append_drop (groupLength first rest) (first :: rest), List.map_append,
      List.mem_append] at hmem
    exact hmem.resolve_left htake

/-- A read that does not run keeps its progress as long as the objects keep their slots,
    which matters only while it has a `pread` ahead of it. -/
theorem ReadPc.Progress.frame (h : pc.Progress P req infos hp)
    (hslot : ∀ validBlocks first rest buf, pc = .groups validBlocks (first :: rest) buf →
      ∀ m ∈ infos, (hp'.cell m).masterBlockIndex = (hp.cell m).masterBlockIndex) :
    pc.Progress P req infos hp' := by
  cases pc with
  | start => exact h
  | done ret buf => exact ⟨h.1, h.2.frame fun hnil => absurd rfl hnil⟩
  | groups validBlocks todo buf =>
    refine ⟨h.1, h.2.frame fun hne => ?_⟩
    obtain ⟨first, rest, rfl⟩ := List.exists_cons_of_ne_nil hne
    exact hslot validBlocks first rest buf rfl

/-- The next step of a read, if the slots of its objects hold what they should whenever it
    has a `pread` ahead of it. -/
theorem ReadPc.Progress.advance (h : pc.Progress P req infos ctx.heap)
    (hsize : infos.length * blockSize ≤ req.size)
    (hstored : ∀ validBlocks first rest buf, pc = .groups validBlocks (first :: rest) buf →
      ∀ m ∈ infos, ∃ b, P m b ∧ Stored ctx.master (ctx.heap.cell m).masterBlockIndex b)
    (hread : advanceRead qs ctx req pc = some pc') : pc'.Progress P req infos ctx.heap := by
  cases pc with
  | start => exact h.elim
  | done ret buf => cases hread
  | groups validBlocks todo buf =>
    obtain ⟨rfl, hprogress⟩ := h
    cases todo with
    | nil =>
      obtain rfl := Option.some.inj hread
      exact ⟨rfl, hprogress⟩
    | cons first rest =>
      obtain ⟨buf', hgroup, hprogress'⟩ := hprogress.group ctx.master hsize
        (hstored _ first rest buf rfl)
      simp only [advanceRead, hgroup, Option.some.injEq] at hread
      subst hread
      exact ⟨rfl, hprogress'⟩

/-- Phase 1 of an aligned read: nothing is in the buffer yet. -/
theorem ReadPc.Progress.start (hpos : req.numBlocks ≠ 0) (haligned : req.size % blockSize = 0)
    (hread : advanceRead qs ctx req .start = some pc') :
    pc'.Progress P req (req.infos ctx.index) ctx.heap := by
  have hprogress : ReadProgress P req (req.infos ctx.index) ctx.heap (sortPairs qs
      (lookupPairs ctx.index ctx.heap req.path req.startBlock req.numBlocks 0)) req.buf :=
    { length := req.size_eq
      nodup := (logicalIdx_sortPairs qs _ _).nodup_iff.mpr List.nodup_range
      pairs := fun p hp => mem_sortPairs.mp hp
      blocks := fun i m hm => .inl ((logicalIdx_sortPairs qs _ _).mem_iff.mpr
        (List.mem_range.mpr (List.getElem?_eq_some_iff.mp hm).1)) }
  have hlength : (lookupPairs ctx.index ctx.heap req.path req.startBlock req.numBlocks 0).length =
    (req.infos ctx.index).length := length_lookupPairs _ _
  simp only [advanceRead, if_neg (not_or.mpr ⟨hpos, not_not.mpr haligned⟩)] at hread
  split at hread
  · rename_i hnone
    obtain rfl := Option.some.inj hread
    rw [hlength, List.length_eq_zero_iff] at hnone
    rw [hnone] at hprogress ⊢
    exact ⟨rfl, hprogress.length, List.nodup_nil, fun p hp => (List.not_mem_nil hp).elim,
      fun i m hm => by cases hm⟩
  · obtain rfl := Option.some.inj hread
    exact ⟨hlength, hprogress⟩

end

/-! ## The machine around the read -/

section
variable [Sha512] {qs : Qsort} {s s' : Machine} {e : Event} {tid : Nat} {req : ReadRequest}

/-- The call `tid` still has a `pread` ahead of it. -/
def Machine.Reading (s : Machine) (tid : Nat) : Prop :=
  ∃ req validBlocks first rest buf,
    s.calls[tid]? = some (.read req (.groups validBlocks (first :: rest) buf))

/-- The bounded runs in which the objects `infos` stay published as long as the call
    `tid` has a `pread` ahead of it. -/
def StayPublished (tid : Nat) (infos : List Ptr) (s : Machine) (_ : Event) (s' : Machine) : Prop :=
  s'.FewReferences ∧ (s.Reading tid → ∀ m ∈ infos, s.ctx.index.Published m)

/-- The call `tid` is a read of the objects `infos`, in a machine that still has them. What
    it has read are blocks among `W` with the hashes `hashOf`. -/
structure Machine.ReadInv (W : List UInt8 → Prop) (tid : Nat) (req : ReadRequest)
    (infos : List Ptr) (hashOf : Ptr → Hash) (s : Machine) : Prop where
  consistent : s.Consistent W
  allocated : ∀ m ∈ infos, m < s.ctx.heap.brk ∧ (s.ctx.heap.cell m).hash = hashOf m
  call : ∃ pc, s.calls[tid]? = some (.read req pc) ∧
    pc.Progress (fun m b => W b ∧ hash b = hashOf m) req infos s.ctx.heap

variable {W : List UInt8 → Prop} {infos : List Ptr} {hashOf : Ptr → Hash}

/-- A step of the read itself. -/
theorem Machine.ReadInv.self {io : PwriteResult} (h : s.ReadInv W tid req infos hashOf)
    (hsize : infos.length * blockSize ≤ req.size)
    (hstep : (machine qs).step s (.run tid io) = some s') (hfew : s'.FewReferences)
    (hstay : s.Reading tid → ∀ m ∈ infos, s.ctx.index.Published m) :
    s'.ReadInv W tid req infos hashOf := by
  have hs' := h.consistent.step hstep ⟨hfew, trivial⟩
  obtain ⟨pc, hcall, hprogress⟩ := h.call
  obtain ⟨c', hadv, hcall'⟩ := Machine.step_self hstep hcall
  obtain ⟨pc', hread, hres⟩ := Option.map_eq_some_iff.mp hadv
  obtain ⟨hctx, rfl⟩ := Prod.ext_iff.mp hres
  have hctx : s'.ctx = s.ctx := hctx.symm
  refine ⟨hs', by rw [hctx]; exact h.allocated, pc', hcall', ?_⟩
  rw [hctx]
  refine hprogress.advance hsize (fun validBlocks first rest buf hpc m hm => ?_) hread
  have hpub := hstay ⟨req, validBlocks, first, rest, buf, hpc ▸ hcall⟩
  obtain ⟨b, hW, hb, hstored⟩ := h.consistent.intact m (hpub m hm)
  exact ⟨b, ⟨hW, hb.trans (h.allocated m hm).2⟩, hstored⟩

/-- A step of any other call. -/
theorem Machine.ReadInv.other (h : s.ReadInv W tid req infos hashOf)
    (hstep : (machine qs).step s e = some s') (hfew : s'.FewReferences) (hblocks : e.BlocksIn W)
    (hstay : s.Reading tid → ∀ m ∈ infos, s.ctx.index.Published m)
    (hne : ∀ io, e ≠ .run tid io) : s'.ReadInv W tid req infos hashOf := by
  have hs' := h.consistent.step hstep ⟨hfew, hblocks⟩
  obtain ⟨hbrk, hhash, hslot⟩ := h.consistent.frame hstep hfew
  obtain ⟨pc, hcall, hprogress⟩ := h.call
  refine ⟨hs', fun m hm => ?_, pc, Machine.step_other hstep hcall hne, ?_⟩
  · obtain ⟨hlt, heq⟩ := h.allocated m hm
    exact ⟨hlt.trans_le hbrk, (hhash m hlt).trans heq⟩
  · refine hprogress.frame fun validBlocks first rest buf hpc m hm => hslot m ?_
    exact hstay ⟨req, validBlocks, first, rest, buf, hpc ▸ hcall⟩ m hm

/-- Any step while the objects stay published. -/
theorem Machine.ReadInv.step (h : s.ReadInv W tid req infos hashOf)
    (hsize : infos.length * blockSize ≤ req.size) (hstep : (machine qs).step s e = some s')
    (hfew : s'.FewReferences) (hblocks : e.BlocksIn W)
    (hstay : s.Reading tid → ∀ m ∈ infos, s.ctx.index.Published m) :
    s'.ReadInv W tid req infos hashOf := by
  by_cases hself : ∃ io, e = .run tid io
  · obtain ⟨io, rfl⟩ := hself
    exact h.self hsize hstep hfew hstay
  · exact h.other hstep hfew hblocks hstay fun io heq => hself ⟨io, heq⟩

theorem Machine.ReadInv.run (h : s.ReadInv (fun _ => True) tid req infos hashOf)
    (hsize : infos.length * blockSize ≤ req.size)
    (hrun : (machine qs).Run (StayPublished tid infos) s s') :
    s'.ReadInv (fun _ => True) tid req infos hashOf :=
  hrun.invariant (fun _ e _ hinv hstep hP => hinv.step hsize hstep hP.1 e.blocksIn_true hP.2) h

/-- Phase 1 of an aligned read. -/
theorem Machine.ReadInv.start {io : PwriteResult} (hs : s.Consistent W)
    (hcall : s.calls[tid]? = some (.read req .start)) (hpos : req.numBlocks ≠ 0)
    (haligned : req.size % blockSize = 0) (hstep : (machine qs).step s (.run tid io) = some s')
    (hfew : s'.FewReferences) :
    s'.ReadInv W tid req (req.infos s.ctx.index) fun m => (s.ctx.heap.cell m).hash := by
  have hs' := hs.step hstep ⟨hfew, trivial⟩
  obtain ⟨c', hadv, hcall'⟩ := Machine.step_self hstep hcall
  obtain ⟨pc', hread, hres⟩ := Option.map_eq_some_iff.mp hadv
  obtain ⟨hctx, rfl⟩ := Prod.ext_iff.mp hres
  have hctx : s'.ctx = s.ctx := hctx.symm
  refine ⟨hs', fun m hm => ?_, pc', hcall', ?_⟩
  · rw [hctx]
    obtain ⟨i, hi⟩ := List.mem_iff_getElem?.mp hm
    exact ⟨hs.accounts.refsLt m (Multiset.mem_add.mpr
      (.inl (Table.mem_values_of_lookup (lookup_of_lookupInfos hi)))), rfl⟩
  · rw [hctx]
    exact .start hpos haligned hread

/-- In every reachable state, the 4096 bytes in the slot of a published object hash to
    its hash; and a read that overlaps with other calls returns blocks with the hashes
    of the objects it has looked up, if these stay published until they are read. -/
theorem published_blocks_intact (h : (machine qs).Reachable Bounded s) :
    (∀ m, s.ctx.index.Published m →
      ((s.ctx.heap.cell m).masterBlockIndex + 1) * blockSize ≤ s.ctx.master.length ∧
        hash (blockAt s.ctx.master (s.ctx.heap.cell m).masterBlockIndex) =
          (s.ctx.heap.cell m).hash) ∧
    ∀ tid req io s₁ s₂ ret buf, s.calls[tid]? = some (.read req .start) →
      req.numBlocks ≠ 0 → req.size % blockSize = 0 →
      (machine qs).step s (.run tid io) = some s₁ → s₁.FewReferences →
      (machine qs).Run (StayPublished tid (req.infos s.ctx.index)) s₁ s₂ →
      s₂.calls[tid]? = some (.read req (.done ret buf)) →
      ret = cInt ((req.infos s.ctx.index).length * blockSize) ∧
        ∀ i m, (req.infos s.ctx.index)[i]? = some m →
          hash (pread buf (i * blockSize) blockSize) = (s.ctx.heap.cell m).hash := by
  have hs := Machine.Consistent.reachable_any h
  refine ⟨fun m hm => ?_, fun tid req io s₁ s₂ ret buf hcall hpos haligned hstep hfew hrun hdone => ?_⟩
  · obtain ⟨b, -, hb, hfile, hblock⟩ := hs.intact m hm
    exact ⟨hfile, by rw [hblock, hb]⟩
  · have hsize : (req.infos s.ctx.index).length * blockSize ≤ req.size :=
      (Nat.mul_le_mul_right _ length_lookupInfos_le).trans (Nat.div_mul_le_self _ _)
    have hinv := (Machine.ReadInv.start hs hcall hpos haligned hstep hfew).run hsize hrun
    obtain ⟨pc, hpc, hprogress⟩ := hinv.call
    obtain rfl : pc = .done ret buf := by simpa using hpc.symm.trans hdone
    refine ⟨hprogress.1, fun i m hm => ?_⟩
    exact ((hprogress.2.blocks i m hm).resolve_left List.not_mem_nil).2

end

/-! ## A read that overlaps with a write -/

/-- The read of the first block of the file `a`. -/
def readFirstBlock : ReadRequest where
  path := pathA
  buf := List.replicate blockSize 1
  size := blockSize
  offset := 0
  size_eq := List.length_replicate

/-- A block of zeros is written to `a`; then the read and a write to `b` are dispatched. -/
def beforeOverlap : List Event :=
  .dispatch (.write (.zeros pathA 0 1)) :: List.replicate 7 (.run 0 .complete) ++
    [.dispatch (.read readFirstBlock), .dispatch (.write (.zeros pathB 0 1))]

/-- The write runs between the steps of the read that follow its phase 1. -/
def overlap : List Event :=
  [.run 2 .complete, .run 1 .complete, .run 2 .complete, .run 1 .complete]

theorem beforeOverlap_enabled : ((@machine Sha512.zeroBlock .mergeSort).replay Machine.fewCheck
    (@machine Sha512.zeroBlock .mergeSort).init beforeOverlap).isSome := by
  decide +kernel

def overlapStart : Machine :=
  ((@machine Sha512.zeroBlock .mergeSort).replay Machine.fewCheck
    (@machine Sha512.zeroBlock .mergeSort).init beforeOverlap).get beforeOverlap_enabled

theorem overlapStart_reachable :
    (@machine Sha512.zeroBlock .mergeSort).Reachable Bounded overlapStart :=
  @Machine.reachable_of_replay Sha512.zeroBlock .mergeSort _ beforeOverlap_enabled

theorem overlapLookup_enabled :
    ((@machine Sha512.zeroBlock .mergeSort).step overlapStart (.run 1 .complete)).isSome := by
  decide +kernel

/-- The state after phase 1 of the read. -/
def overlapLookup : Machine :=
  ((@machine Sha512.zeroBlock .mergeSort).step overlapStart (.run 1 .complete)).get
    overlapLookup_enabled

/-- Few references after the step, and the objects published before it. -/
def stayCheck (infos : List Ptr) (s : Machine) (e : Event) (s' : Machine) : Bool :=
  Machine.fewCheck s e s' && infos.all fun m => decide (m ∈ Table.values s.ctx.index.hashToMaster)

theorem stayPublished_of_stayCheck {tid : Nat} {infos : List Ptr} (s : Machine) (e : Event)
    (s' : Machine) (h : stayCheck infos s e s') : StayPublished tid infos s e s' := by
  simp only [stayCheck, Bool.and_eq_true, List.all_eq_true, decide_eq_true_eq] at h
  exact ⟨Machine.bounded_of_fewCheck s e s' h.1, fun _ => h.2⟩

theorem overlap_enabled : ((@machine Sha512.zeroBlock .mergeSort).replay
    (stayCheck (readFirstBlock.infos overlapStart.ctx.index)) overlapLookup overlap).isSome := by
  decide +kernel

/-- The state after the read has returned. -/
def overlapEnd : Machine :=
  ((@machine Sha512.zeroBlock .mergeSort).replay
    (stayCheck (readFirstBlock.infos overlapStart.ctx.index)) overlapLookup overlap).get
      overlap_enabled

theorem published_blocks_intact_of_overlap :
    readFirstBlock.infos overlapStart.ctx.index = [0] ∧
      ∃ ret buf, overlapEnd.calls[1]? = some (.read readFirstBlock (.done ret buf)) ∧
        ret = cInt ((readFirstBlock.infos overlapStart.ctx.index).length * blockSize) ∧
          ∀ i m, (readFirstBlock.infos overlapStart.ctx.index)[i]? = some m →
            @hash Sha512.zeroBlock (pread buf (i * blockSize) blockSize) =
              (overlapStart.ctx.heap.cell m).hash := by
  let _ := Sha512.zeroBlock
  have hs := Machine.Consistent.reachable_any overlapStart_reachable
  have hcall : overlapStart.calls[1]? = some (.read readFirstBlock .start) := rfl
  have hstep := (Option.some_get overlapLookup_enabled).symm
  have hfew : overlapLookup.FewReferences :=
    Machine.bounded_of_fewCheck overlapStart (.run 1 .complete) overlapLookup (by decide +kernel)
  have hrun : (machine .mergeSort).Run
      (StayPublished 1 (readFirstBlock.infos overlapStart.ctx.index)) overlapLookup overlapEnd :=
    .of_replay (fun s e _ s' hc => stayPublished_of_stayCheck s e s' hc)
      (Option.some_get overlap_enabled).symm
  have hinv := (Machine.ReadInv.start hs hcall (by decide) (by decide) hstep hfew).run
    (by decide +kernel) hrun
  obtain ⟨pc, hpc, -⟩ := hinv.call
  have hreturned : (overlapEnd.calls[1]?.bind Call.result) = some 4096 := by decide +kernel
  rw [hpc] at hreturned
  cases pc with
  | done ret buf =>
    exact ⟨by decide +kernel, ret, buf, hpc,
      (published_blocks_intact overlapStart_reachable).2 1 readFirstBlock .complete overlapLookup
        overlapEnd ret buf hcall (by decide) (by decide) hstep hfew hrun hpc⟩
  | _ => cases hreturned

end DedupBlockFS
