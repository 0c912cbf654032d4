-- SUMMARY: Any number of mounts with any interleaving of calls in each: what the committed updates have written is kept, and read back.
import DedupBlockFS.Concurrent.HighWater
import DedupBlockFS.Concurrent.Snapshots
import DedupBlockFS.Persistence.Remount

/-!
# Durability

The machine over several mounts: when all calls have returned, the file system may be
unmounted and mounted again. Nothing that the machine relies on depends on the addresses
of its objects, so what the updates of all mounts have written, one after the other in the
order of their commits, is what the store stands for in the next one.
-/

namespace DedupBlockFS

open ByteFile
open Table (values)

section
variable [Sha512] {W : List UInt8 → Prop} {ctx : Context} {c : Call} {qs : Qsort}

/-! ## Between two mounts -/

/-- All calls have returned, and what is mapped is published. -/
structure Settled (W : List UInt8 → Prop) (ctx : Context) : Prop where
  accounts : Accounts ctx.index ctx.heap ctx.nextBlockIndex (values ctx.index.fileToMaster) 0 0
  few : FewReferences ctx.heap (values ctx.index.fileToMaster)
  intact : Intact W ctx
  mapped : ∀ m ∈ values ctx.index.fileToMaster, ctx.index.Published m

variable {f : Ptr → Ptr} {ix' : Index} {hp' : Heap}

/-- Nothing of this depends on the addresses of the objects. -/
theorem Settled.renamed (hs : Settled W ctx) (h : Renamed ctx.index ctx.heap f ix' hp') :
    Settled W { ctx with index := ix', heap := hp' } := by
  have hpublished : values ix'.hashToMaster = (values ctx.index.hashToMaster).map f :=
    Table.values_of_lookup_map h.hashes
  have hmapped : values ix'.fileToMaster = (values ctx.index.fileToMaster).map f :=
    Table.values_of_lookup_map fun k => h.blocks k.path k.offset
  refine ⟨⟨?_, fun {x m'} hm' => ?_, fun m' hm' => ?_, fun m' => ?_⟩, fun x => ?_, fun m' hm' => ?_,
    fun m' hm' => ?_⟩
  · exact hs.accounts.balanced.rename (fun m hm m' hm' => h.inj m m' hm hm') hs.mapped hpublished
      rfl hmapped (fun m hm => congrArg MasterInfo.refcount (h.cells m hm).1)
      (fun m hm => congrArg MasterInfo.masterBlockIndex (h.cells m hm).1)
      (congrArg Multiset.ofList h.free) rfl
  · rw [show ix'.hashToMaster.lookup x = (ctx.index.hashToMaster.lookup x).map f from
      h.hashes x] at hm'
    obtain ⟨m, hm, rfl⟩ := Option.map_eq_some_iff.mp hm'
    exact (congrArg MasterInfo.hash (h.cells m (Table.mem_values_of_lookup hm)).1).trans
      (hs.accounts.keyed hm)
  · rw [hmapped] at hm'
    obtain ⟨m, hm, rfl⟩ := Multiset.mem_map.mp hm'
    exact (h.cells m (hs.mapped m hm)).2
  · rcases h.noOther m' with hempty | ⟨m, hm⟩
    · exact (congrArg MasterInfo.refcount hempty).trans_lt (Nat.two_pow_pos 32)
    · exact (congrArg MasterInfo.refcount hm).trans_lt (hs.accounts.counterLt m)
  · rw [hmapped, Multiset.map_map]
    have hhash : (values ctx.index.fileToMaster).map ((fun m => (hp'.cell m).hash) ∘ f) =
        (values ctx.index.fileToMaster).map fun m => (ctx.heap.cell m).hash :=
      Multiset.map_congr rfl fun m hm =>
        congrArg MasterInfo.hash (h.cells m (hs.mapped m hm)).1
    exact hhash ▸ hs.few x
  · rw [Index.Published, hpublished] at hm'
    obtain ⟨m, hm, rfl⟩ := Multiset.mem_map.mp hm'
    obtain ⟨b, hW, hb, hstored⟩ := hs.intact m hm
    have hcell := (h.cells m hm).1
    exact ⟨b, hW, hb.trans (congrArg MasterInfo.hash hcell).symm,
      (congrArg MasterInfo.masterBlockIndex hcell) ▸ hstored⟩
  · rw [hmapped] at hm'
    obtain ⟨m, hm, rfl⟩ := Multiset.mem_map.mp hm'
    rw [Index.Published, hpublished]
    exact Multiset.mem_map_of_mem f (hs.mapped m hm)

/-- Every block has the content that it had. -/
theorem Settled.renamed_contents (hs : Settled W ctx) (h : Renamed ctx.index ctx.heap f ix' hp')
    (k : BlockIndice) :
    contents { ctx with index := ix', heap := hp' } k = contents ctx k := by
  have hlookup : ix'.fileToMaster.lookup k = (ctx.index.fileToMaster.lookup k).map f :=
    h.blocks k.path k.offset
  rw [contents, contents, hlookup, Option.map_map]
  exact Option.map_congr fun m hm => congrArg MasterInfo.hash
    (h.cells m (hs.mapped m (Table.mem_values_of_lookup hm))).1

variable {s s' : Machine × List (Nat × Commit)}

omit [Sha512] in
/-- A call that has returned holds and owns nothing. -/
theorem Call.nothing_of_result (h : c.result ≠ none) :
    c.pending = 0 ∧ c.holds = 0 ∧ c.slots = 0 := by
  cases c with
  | write req pc => cases pc <;> first | exact ⟨rfl, rfl, rfl⟩ | exact absurd rfl h
  | remove path startBlock endBlock pc =>
    cases pc <;> first | exact ⟨rfl, rfl, rfl⟩ | exact absurd rfl h
  | unlink path res pc => cases pc <;> first | exact ⟨rfl, rfl, rfl⟩ | exact absurd rfl h
  | truncate path size res pc => cases pc <;> first | exact ⟨rfl, rfl, rfl⟩ | exact absurd rfl h
  | read req pc => exact ⟨rfl, rfl, rfl⟩

omit [Sha512] in
theorem Machine.nothing_of_returned {s : Machine} (h : ∀ c ∈ s.calls, c.result ≠ none) :
    s.pending = 0 ∧ s.holds = 0 ∧ s.slots = 0 := by
  have hsum : ∀ {α : Type} (f : Call → Multiset α), (∀ c ∈ s.calls, f c = 0) →
      (s.calls.map f).sum = 0 := by
    intro α f hf
    refine List.sum_eq_zero fun p hp => ?_
    obtain ⟨c, hc, rfl⟩ := List.mem_map.mp hp
    exact hf c hc
  exact ⟨hsum _ fun c hc => (Call.nothing_of_result (h c hc)).1,
    hsum _ fun c hc => (Call.nothing_of_result (h c hc)).2.1,
    hsum _ fun c hc => (Call.nothing_of_result (h c hc)).2.2⟩

theorem Linearized.settled (h : Linearized W s) (hreturned : ∀ c ∈ s.1.calls, c.result ≠ none) :
    Settled W s.1.ctx := by
  obtain ⟨hpending, hholds, hslots⟩ := Machine.nothing_of_returned hreturned
  have haccounts := h.consistent.accounts
  have hfew := h.consistent.few
  rw [hpending, hholds, hslots, add_zero] at haccounts
  rw [Machine.FewReferences, hholds, add_zero] at hfew
  exact ⟨haccounts, hfew, h.consistent.intact, fun m hm => h.published hm⟩

/-- The same calls go on with another shared state, if all have returned. -/
theorem Linearized.of_settled (h : Linearized W s) (hreturned : ∀ c ∈ s.1.calls, c.result ≠ none)
    (hs : Settled W ctx) (hcontents : ∀ k, DedupBlockFS.contents ctx k = DedupBlockFS.contents s.1.ctx k) :
    Linearized W ({ s.1 with ctx := ctx }, s.2) := by
  obtain ⟨hpending, hholds, hslots⟩ := Machine.nothing_of_returned hreturned
  have hpending' : Machine.pending { s.1 with ctx := ctx } = 0 := hpending
  have hholds' : Machine.holds { s.1 with ctx := ctx } = 0 := hholds
  have hslots' : Machine.slots { s.1 with ctx := ctx } = 0 := hslots
  refine ⟨⟨?_, ?_, hs.intact, fun c hc => ?_, h.consistent.blocks⟩, ⟨fun c hc m hm => ?_, ?_,
    fun m hm => ?_⟩, fun k => (hcontents k).trans (h.contents k), h.blocks⟩
  · rw [hpending', hholds', hslots', add_zero]
    exact hs.accounts
  · rw [Machine.FewReferences, hholds', add_zero]
    exact hs.few
  · have hres := hreturned c hc
    cases c with
    | write req pc => cases pc <;> trivial
    | _ => trivial
  · rw [(Call.nothing_of_result (hreturned c hc)).1] at hm
    exact absurd hm (Multiset.notMem_zero m)
  · refine List.pairwise_of_forall_mem_list fun c hc d hd => ?_
    rw [Apart, (Call.nothing_of_result (hreturned c hc)).1,
      (Call.nothing_of_result (hreturned d hd)).1]
    exact ⟨fun m hm => absurd hm (Multiset.notMem_zero m),
      fun m hm => absurd hm (Multiset.notMem_zero m)⟩
  · rw [hholds', add_zero] at hm
    exact .inl (hs.mapped m hm)

/-! ## Any number of mounts -/

/-- What happens to the file system. -/
inductive ServiceEvent where
  | call (e : Event)
  /-- The file system is unmounted and mounted again, after all calls have returned. -/
  | remount (save : SaveEnv) (load : LoadEnv)

/-- The calls of all mounts, next to the log of their commits. -/
def service (qs : Qsort) : TransitionSystem (Machine × List (Nat × Commit)) ServiceEvent where
  init := (withLog qs).init
  step s e :=
    match e with
    | .call e => (withLog qs).step s e
    | .remount save load =>
      if ∀ c ∈ s.1.calls, c.result ≠ none then
        ((xmpDestroy save s.1.ctx).bind (xmpInit load)).map fun ctx =>
          ({ s.1 with ctx := ctx }, s.2)
      else none

/-- The metadata are written completely, and read, and every slot ever used is in the
    master file. -/
def RemountOk (ctx : Context) (save : SaveEnv) (load : LoadEnv) : Prop :=
  FitsWords ctx.index ctx.heap ∧ (∀ file k, save.answers file k = .complete) ∧
    (∀ file k, 0 < load.answers file k) ∧ ctx.nextBlockIndex ≤ ctx.master.length / blockSize

/-- The clean runs over blocks among `W` with such remounts. -/
def CleanService (W : List UInt8 → Prop) (s : Machine × List (Nat × Commit)) (e : ServiceEvent)
    (s' : Machine × List (Nat × Commit)) : Prop :=
  match e with
  | .call e => CleanIn W s e s'
  | .remount save load => RemountOk s.1.ctx save load

/-- Linearized, with the master file no longer than the slots. -/
structure Served (W : List UInt8 → Prop) (s : Machine × List (Nat × Commit)) : Prop where
  linearized : Linearized W s
  length : s.1.ctx.master.length ≤ s.1.ctx.nextBlockIndex * blockSize

theorem Served.call {e : Event} (h : Served W s) (hstep : (withLog qs).step s e = some s')
    (hP : CleanIn W s e s') : Served W s' := by
  refine ⟨h.linearized.step hstep hP, ?_⟩
  obtain ⟨m, hmach, rfl⟩ := Option.map_eq_some_iff.mp hstep
  have hext := h.linearized.consistent.storage_extends hmach
  exact hext.inside.trans (Nat.max_le.mpr
    ⟨h.length.trans (Nat.mul_le_mul_right _ hext.next), Nat.le_refl _⟩)

/-- What the next mount finds: the same state, with other addresses. -/
theorem Settled.remount (hs : Settled W ctx) (hend : ctx.master.length ≤ ctx.nextBlockIndex * blockSize)
    {save : SaveEnv} {load : LoadEnv} (hok : RemountOk ctx save load) :
    ∃ f ix' hp', Renamed ctx.index ctx.heap f ix' hp' ∧
      (xmpDestroy save ctx).bind (xmpInit load) = some { ctx with index := ix', heap := hp' } := by
  obtain ⟨hfits, hwrite, hread, hkeeps⟩ := hok
  obtain ⟨files, ix', hp', hsave, hload, hrenamed⟩ :=
    renamed_of_destroy_init save load hs.mapped hfits hwrite hread
  refine ⟨_, ix', hp', hrenamed, ?_⟩
  have hnext : ctx.master.length / blockSize = ctx.nextBlockIndex :=
    Nat.le_antisymm (Nat.div_le_of_le_mul (by rwa [Nat.mul_comm])) hkeeps
  simp only [xmpDestroy, hsave, Option.bind_eq_bind, Option.bind_some, Option.pure_def, xmpInit,
    hload, hnext]

theorem Served.step {e : ServiceEvent} (h : Served W s) (hstep : (service qs).step s e = some s')
    (hP : CleanService W s e s') : Served W s' := by
  cases e with
  | call e => exact h.call hstep hP
  | remount save load =>
    simp only [service] at hstep
    split at hstep
    · rename_i hreturned
      have hsettled := h.linearized.settled hreturned
      obtain ⟨f, ix', hp', hrenamed, heq⟩ := hsettled.remount h.length hP
      rw [heq, Option.map_some] at hstep
      obtain rfl := Option.some.inj hstep
      exact ⟨h.linearized.of_settled hreturned (hsettled.renamed hrenamed)
        (hsettled.renamed_contents hrenamed), h.length⟩
    · cases hstep

theorem Served.reachable (h : (service qs).Reachable (CleanService W) s) : Served W s :=
  h.invariant ⟨.init, Nat.zero_le _⟩ fun _ _ _ hs hstep hP => hs.step hstep hP

/-! ## Reading -/

/-- A read that runs on its own returns from the files of the committed updates. -/
theorem Linearized.read (h : Linearized W s) (hinj : ∀ a b, W a → W b → hash a = hash b → a = b)
    (qs : Qsort) (rreq : ReadRequest) (hpos : rreq.numBlocks ≠ 0)
    (haligned : rreq.size % blockSize = 0) :
    ReturnsFrom (filesOf s.2) rreq (readDedup qs s.1.ctx rreq).1 (readDedup qs s.1.ctx rreq).2 := by
  have hstored : ∀ m ∈ rreq.infos s.1.ctx.index, Stored s.1.ctx.master
      (s.1.ctx.heap.cell m).masterBlockIndex
      (blockAt s.1.ctx.master (s.1.ctx.heap.cell m).masterBlockIndex) := by
    intro m hm
    obtain ⟨i, hi⟩ := List.mem_iff_getElem?.mp hm
    obtain ⟨b, -, -, hb⟩ := h.consistent.intact m
      (h.published (Table.mem_values_of_lookup (lookup_of_lookupInfos hi)))
    exact ⟨hb.1, rfl⟩
  obtain ⟨hret, -, hread⟩ := readDedup_eq qs hpos haligned hstored
  refine ⟨(rreq.infos s.1.ctx.index).length, length_lookupInfos_le, hret, fun i hi => ?_,
    fun hlt => ?_⟩
  · have hget := List.getElem?_eq_getElem hi
    rw [← h.blockContent_eq hinj, hread i _ hget, blockContent,
      show s.1.ctx.index.fileToMaster.lookup (rreq.key i) = _ from lookup_of_lookupInfos hget,
      Option.map_some]
  · rw [← h.blockContent_eq hinj, blockContent,
      show s.1.ctx.index.fileToMaster.lookup (rreq.key (rreq.infos s.1.ctx.index).length) = none from
      lookup_length_lookupInfos hlt, Option.map_none]

/-- In every state of a run of any number of mounts, whatever the interleaving of the calls
    in each of them, the slots hold what the updates committed so far have written, in this
    mount or an earlier one, and an aligned read returns it. -/
theorem updates_survive_mounts {m : Machine} {log : List (Nat × Commit)}
    (hinj : ∀ a b, W a → W b → hash a = hash b → a = b)
    (h : (service qs).Reachable (CleanService W) (m, log)) :
    (∀ k, blockContent m.ctx k = filesOf log k) ∧
      ∀ rreq : ReadRequest, rreq.numBlocks ≠ 0 → rreq.size % blockSize = 0 →
        ReturnsFrom (filesOf log) rreq (readDedup qs m.ctx rreq).1 (readDedup qs m.ctx rreq).2 :=
  have hlin := (Served.reachable h).linearized
  ⟨hlin.blockContent_eq hinj, fun rreq hpos haligned => hlin.read hinj qs rreq hpos haligned⟩

/-- The first mount. -/
theorem service_of_withLog (h : (withLog qs).Reachable (CleanIn W) s) :
    (service qs).Reachable (CleanService W) s :=
  Relation.ReflTransGen.mono (fun _ _ ⟨e, hstep, hP⟩ => ⟨.call e, hstep, hP⟩) _ _ h

end

/-! ## A remount after overlapping writes -/

theorem overlappingWrites_remountOk :
    RemountOk afterOverlappingWrites.1.ctx bytewiseSave bytewiseLoad :=
  ⟨fitsWords_of_fitsCheck (by decide +kernel), fun _ _ => rfl, fun _ _ => Nat.one_pos,
    by decide +kernel⟩

theorem overlappingWrites_served :
    @Served Sha512.zeroBlock IsZeroBlock afterOverlappingWrites := by
  let _ := Sha512.zeroBlock
  exact .reachable (service_of_withLog afterOverlappingWrites_reachable)

theorem mountAgain_enabled : ((@service Sha512.zeroBlock .mergeSort).step afterOverlappingWrites
    (.remount bytewiseSave bytewiseLoad)).isSome := by
  let _ := Sha512.zeroBlock
  have hreturned : ∀ c ∈ afterOverlappingWrites.1.calls, c.result ≠ none := by decide +kernel
  obtain ⟨_, _, _, -, heq⟩ := (overlappingWrites_served.linearized.settled hreturned).remount
    overlappingWrites_served.length overlappingWrites_remountOk
  simp only [service, if_pos hreturned, heq]
  rfl

/-- Both writes have returned, and the file system has been mounted again. -/
def mountedAgain : Machine × List (Nat × Commit) :=
  ((@service Sha512.zeroBlock .mergeSort).step afterOverlappingWrites
    (.remount bytewiseSave bytewiseLoad)).get mountAgain_enabled

theorem updates_survive_mounts_of_mountedAgain :
    (∀ k, blockContent mountedAgain.1.ctx k = filesOf mountedAgain.2 k) ∧
      ∀ rreq : ReadRequest, rreq.numBlocks ≠ 0 → rreq.size % blockSize = 0 →
        ReturnsFrom (filesOf mountedAgain.2) rreq (readDedup .mergeSort mountedAgain.1.ctx rreq).1
          (readDedup .mergeSort mountedAgain.1.ctx rreq).2 := by
  let _ := Sha512.zeroBlock
  have hmounted : (service .mergeSort).step afterOverlappingWrites
      (.remount bytewiseSave bytewiseLoad) = some mountedAgain :=
    (Option.some_get mountAgain_enabled).symm
  have hreach : (service .mergeSort).Reachable (CleanService IsZeroBlock) mountedAgain :=
    (service_of_withLog afterOverlappingWrites_reachable).trans
      (.single hmounted overlappingWrites_remountOk)
  exact updates_survive_mounts (fun a b ha hb _ => ha.trans hb.symm) hreach

end DedupBlockFS
