-- SUMMARY: The outcome of concurrent calls does not depend on how they were interleaved.
import DedupBlockFS.Concurrent.Isolation
import DedupBlockFS.Persistence.Space

/-!
# Schedules

Which write publishes a block first, which one finds it as a HIT, who takes which free slot
and who discards an object that somebody else has published: all this depends on the
schedule. What the calls leave behind does not.
-/

namespace DedupBlockFS

open ByteFile

/-! ## What a run has done -/

/-- What the calls that change the file at the path were asked for, in the order of their
    dispatch, and what they have returned. -/
def historyOf (path : CString) (calls : List Call) : List (Request × Option Int) :=
  (updatesOf path calls).map fun c => (c.request, c.result)

/-- A file depends on these only. -/
theorem after_congr {path : CString} {calls calls' : List Call}
    (h : historyOf path calls = historyOf path calls') :
    File.after (updatesOf path calls) = File.after (updatesOf path calls') := by
  have hfold : ∀ calls, File.after (updatesOf path calls) =
      (historyOf path calls).foldl File.next .empty := by
    intro calls
    unfold historyOf
    rw [List.foldl_map]
    rfl
  rw [hfold, hfold, h]

section
variable [Sha512] {W : List UInt8 → Prop} {ctx ctx' : Context} {f : Files} {x : Hash}

/-- What the index says about a hash: the content that has it, and how often it is used. -/
def published (ctx : Context) (x : Hash) : Option (List UInt8 × Nat) :=
  (ctx.index.lookupByHash x).map fun m =>
    (blockAt ctx.master (ctx.heap.cell m).masterBlockIndex, (ctx.heap.cell m).refcount)

/-- If two states stand for the same files, what one of them publishes the other one does. -/
theorem Settled.published_of_files (hs : Settled W ctx) (hs' : Settled W ctx')
    (hf : ∀ k, blockContent ctx k = f k) (hf' : ∀ k, blockContent ctx' k = f k)
    {entry : List UInt8 × Nat} (h : published ctx x = some entry) :
    published ctx' x = some entry := by
  obtain ⟨m, hm, rfl⟩ := Option.map_eq_some_iff.mp h
  have hpub := Table.mem_values_of_lookup hm
  have hmem : blockAt ctx.master (ctx.heap.cell m).masterBlockIndex ∈ f.contents := by
    rw [hs.contents_eq hf]
    exact ⟨m, hpub, rfl⟩
  rw [hs'.contents_eq hf'] at hmem
  obtain ⟨m', hpub', hblock⟩ := hmem
  have hblock' : blockAt ctx'.master (ctx'.heap.cell m').masterBlockIndex =
      blockAt ctx.master (ctx.heap.cell m).masterBlockIndex := hblock
  have hhash : (ctx'.heap.cell m').hash = x := by
    rw [← hs'.hash_blockAt hpub', hblock', hs.hash_blockAt hpub]
    exact hs.accounts.keyed hm
  have hcount : (ctx'.heap.cell m').refcount = (ctx.heap.cell m).refcount := by
    have huses := hs'.refcount_eq hf' hpub'
    rw [hblock', ← hs.refcount_eq hf hpub] at huses
    exact Nat.cast_inj.mp huses
  rw [published, show ctx'.index.lookupByHash x = some m' from
    hhash ▸ hs'.accounts.lookup_hash hpub', Option.map_some, hblock', hcount]

/-- So they publish the same. -/
theorem Settled.published_eq (hs : Settled W ctx) (hs' : Settled W ctx')
    (hf : ∀ k, blockContent ctx k = f k) (hf' : ∀ k, blockContent ctx' k = f k) :
    published ctx x = published ctx' x :=
  Option.ext fun _ => ⟨hs.published_of_files hs' hf hf', hs'.published_of_files hs hf' hf⟩

/-- And they have as many slots in use. -/
theorem Settled.slots_congr (hs : Settled W ctx) (hs' : Settled W ctx')
    (hf : ∀ k, blockContent ctx k = f k) (hf' : ∀ k, blockContent ctx' k = f k) :
    ctx.nextBlockIndex + ctx'.index.freeBlockList.length =
      ctx'.nextBlockIndex + ctx.index.freeBlockList.length := by
  have hslots := hs.slots_eq hf
  have hslots' := hs'.slots_eq hf'
  rw [← Nat.cast_inj (R := ℕ∞), Nat.cast_add, Nat.cast_add, ← hslots, ← hslots']
  abel

variable {qs qs' : Qsort}

/-- Two runs in which the updates of each path do not overlap, however the calls on different
    paths are interleaved in either of them: once the same calls have returned the same values
    in both, path by path, all files have the same blocks and sizes, the same contents are
    published with the same counters, and as many slots are in use. -/
theorem outcome_of_schedule {m m' : Machine} (hinj : ∀ a b, W a → W b → hash a = hash b → a = b)
    (h : (machine qs).Reachable (Isolated W) m) (h' : (machine qs').Reachable (Isolated W) m')
    (hreturned : ∀ c ∈ m.calls, c.result ≠ none) (hreturned' : ∀ c ∈ m'.calls, c.result ≠ none)
    (hsame : ∀ path, historyOf path m.calls = historyOf path m'.calls) :
    (∀ path, fileOf (blockContent m.ctx) m.ctx path = fileOf (blockContent m'.ctx) m'.ctx path) ∧
      (∀ x, published m.ctx x = published m'.ctx x) ∧
      m.ctx.nextBlockIndex + m'.ctx.index.freeBlockList.length =
        m'.ctx.nextBlockIndex + m.ctx.index.freeBlockList.length := by
  obtain ⟨log, hlin, hturn⟩ := inTurn_of_isolated h
  obtain ⟨log', hlin', hturn'⟩ := inTurn_of_isolated h'
  have hf := hlin.blockContent_eq hinj
  have hf' := hlin'.blockContent_eq hinj
  have hfiles : ∀ path, fileOf (filesOf log) m.ctx path = fileOf (filesOf log') m'.ctx path := by
    intro path
    rw [(hturn path).returned fun c hc _ => hreturned c hc,
      (hturn' path).returned fun c hc _ => hreturned' c hc, after_congr (hsame path)]
  have hblocks : filesOf log' = filesOf log := by
    funext k
    exact (congrFun (congrArg File.blocks (hfiles k.path)) k.offset).symm
  have hs := hlin.settled hreturned
  have hs' := hlin'.settled hreturned'
  rw [hblocks] at hf' hfiles
  refine ⟨fun path => ?_, fun x => hs.published_eq hs' hf hf', hs.slots_congr hs' hf hf'⟩
  rw [show blockContent m.ctx = filesOf log from funext hf,
    show blockContent m'.ctx = filesOf log from funext hf']
  exact hfiles path

/-! ## Histories of replayed runs -/

/-- The request of an event. -/
def Event.request : Event → Option Request
  | .dispatch rq => some rq
  | .run _ _ => none

theorem advance_request {c c' : Call} {io : PwriteResult}
    (hstep : advance qs ctx io c = some (ctx', c')) : c'.request = c.request := by
  cases c <;>
  · obtain ⟨_, -, hres⟩ := Option.map_eq_some_iff.mp hstep
    obtain ⟨-, rfl⟩ := Prod.ext_iff.mp hres
    rfl

/-- The calls of a replayed run are those that were dispatched. -/
theorem requests_of_replay {check : Machine → Event → Machine → Bool} {es : List Event}
    {s s' : Machine} (h : (machine qs).replay check s es = some s') :
    s'.calls.map Call.request = s.calls.map Call.request ++ es.filterMap Event.request := by
  induction es generalizing s with
  | nil =>
    obtain rfl := Option.some.inj h
    exact (List.append_nil _).symm
  | cons e es ih =>
    simp only [TransitionSystem.replay] at h
    split at h
    · cases h
    rename_i s₁ hstep
    split at h
    · rw [ih h]
      rcases Machine.step_cases hstep with ⟨rq, rfl, rfl⟩ |
        ⟨io, c, c', ctx', before, after, rfl, hcalls, hadv, rfl⟩
      · have hrequest : rq.toCall.request = rq := by cases rq <;> rfl
        simp only [List.map_append, List.map_cons, List.map_nil, hrequest, List.append_assoc]
        rfl
      · rw [hcalls]
        simp only [List.map_append, List.map_cons, advance_request hadv]
        rfl
    · cases h

end

theorem historyOf_eq (path : CString) (calls : List Call) : historyOf path calls =
    ((calls.map Call.request).zip (calls.map Call.result)).filter
      fun r => r.1.target = some path := by
  rw [List.zip_map', List.filter_map]
  rfl

/-- The calls of `overlappingRemovals`, those on `b` first, and one at a time. -/
def removalsInTurn : List Event :=
  .dispatch (.write twoZeroBlocks) :: List.replicate 7 (.run 0 .complete) ++
    .dispatch (.truncate pathB 4096 (.ok ())) :: List.replicate 4 (.run 1 .complete) ++
    .dispatch (.write (.zeros pathA 0 1)) :: List.replicate 3 (.run 2 .complete) ++
    .dispatch (.unlink pathA (.ok ())) :: List.replicate 4 (.run 3 .complete)

theorem removalsInTurn_enabled : ((@machine Sha512.zeroBlock .mergeSort).replay
    isolatedCheck (@machine Sha512.zeroBlock .mergeSort).init removalsInTurn).isSome := by
  decide +kernel

def afterRemovalsInTurn : Machine :=
  ((@machine Sha512.zeroBlock .mergeSort).replay isolatedCheck
    (@machine Sha512.zeroBlock .mergeSort).init removalsInTurn).get removalsInTurn_enabled

theorem outcome_of_schedule_of_removalsInTurn :
    afterOverlappingRemovals.ctx.nextBlockIndex = 2 ∧ afterRemovalsInTurn.ctx.nextBlockIndex = 1 ∧
      (∀ path, fileOf (blockContent afterOverlappingRemovals.ctx) afterOverlappingRemovals.ctx
        path = fileOf (blockContent afterRemovalsInTurn.ctx) afterRemovalsInTurn.ctx path) ∧
      ∀ x, published afterOverlappingRemovals.ctx x = published afterRemovalsInTurn.ctx x := by
  let _ := Sha512.zeroBlock
  have hblocks : ∀ e ∈ overlappingRemovals, e.BlocksIn IsZeroBlock := by
    simp [overlappingRemovals, overlappingWrites, sharedZeroWrites, Event.BlocksIn, blocksIn_zeros]
  have hblocks' : ∀ e ∈ removalsInTurn, e.BlocksIn IsZeroBlock := by
    simp [removalsInTurn, Event.BlocksIn, blocksIn_zeros]
  have hreach : (machine .mergeSort).Reachable (Isolated IsZeroBlock) afterOverlappingRemovals :=
    .of_replay (fun s e he s' hc => isolated_of_check (hblocks e he) hc)
      (Option.some_get overlappingRemovals_enabled).symm
  have hreach' : (machine .mergeSort).Reachable (Isolated IsZeroBlock) afterRemovalsInTurn :=
    .of_replay (fun s e he s' hc => isolated_of_check (hblocks' e he) hc)
      (Option.some_get removalsInTurn_enabled).symm
  have hrequests : afterOverlappingRemovals.calls.map Call.request =
      [.write (.zeros pathA 0 1), .write twoZeroBlocks, .unlink pathA (.ok ()),
        .truncate pathB 4096 (.ok ())] :=
    requests_of_replay (Option.some_get overlappingRemovals_enabled).symm
  have hrequests' : afterRemovalsInTurn.calls.map Call.request =
      [.write twoZeroBlocks, .truncate pathB 4096 (.ok ()), .write (.zeros pathA 0 1),
        .unlink pathA (.ok ())] :=
    requests_of_replay (Option.some_get removalsInTurn_enabled).symm
  have hresults : afterOverlappingRemovals.calls.map Call.result =
      [some 4096, some 8192, some 0, some 0] := by decide +kernel
  have hresults' : afterRemovalsInTurn.calls.map Call.result =
      [some 8192, some 0, some 4096, some 0] := by decide +kernel
  have hreturned : ∀ m : Machine, none ∉ m.calls.map Call.result → ∀ c ∈ m.calls,
      c.result ≠ none := fun m h c hc hnone => h (List.mem_map.mpr ⟨c, hc, hnone⟩)
  have hsame : ∀ path, historyOf path afterOverlappingRemovals.calls =
      historyOf path afterRemovalsInTurn.calls := by
    intro path
    rw [historyOf_eq, historyOf_eq, hrequests, hrequests', hresults, hresults']
    by_cases hpath : path = pathA
    · subst hpath
      rfl
    by_cases hpath' : path = pathB
    · subst hpath'
      rfl
    simp [Request.target, WriteRequest.fill, Ne.symm hpath, Ne.symm hpath']
  have houtcome := outcome_of_schedule (fun a b ha hb _ => ha.trans hb.symm) hreach hreach'
    (hreturned _ (by rw [hresults]; decide)) (hreturned _ (by rw [hresults']; decide)) hsame
  exact ⟨by decide +kernel, by decide +kernel, houtcome.1, houtcome.2.1⟩

end DedupBlockFS
