-- SUMMARY: The machine with the read lock held over many steps: pass 1 and phase 1 block by block, lookup and increment apart.
import DedupBlockFS.Concurrent.Conservation

/-!
# Under the read lock

The read lock of `metadata_rwlock` admits any number of threads, so the sections under it
are not atomic: pass 1 of several writes and phase 1 of several reads go on at the same
time, block by block, and in pass 1 the lookup of a hash and the `fetch_add` that relies
on it are two steps. Here a call can be inside the read lock between two steps. A section
under the write lock is still one step, which is enabled only while nobody is inside.
-/

namespace DedupBlockFS

open ByteFile
open Table (values)

/-! ## Pass 1, step by step -/

/-- The local variables of the loop of pass 1; the heap is shared. -/
structure Pass1Local where
  plan : List PlanEntry
  pendingHashes : Table Hash Ptr
  missCount : Nat

def Pass1Local.empty : Pass1Local where
  plan := []
  pendingHashes := ∅
  missCount := 0

/-- The state of the loop, with the heap as it is now. -/
def Pass1Local.over (st : Pass1Local) (hp : Heap) : Pass1 where
  heap := hp
  plan := st.plan
  pendingHashes := st.pendingHashes
  missCount := st.missCount

section
variable [Sha512]

/-- The two lookups for the block `i`. -/
def lookupBlock (ix : Index) (buf : List UInt8) (st : Pass1Local) (i : Nat) : Option Ptr :=
  let h := hash (buf.drop (i * blockSize))
  (ix.lookupByHash h).or (st.pendingHashes.lookup h)

/-- What follows the lookups: a HIT takes a reference, a MISS creates an object. -/
def takeBlock (hp : Heap) (buf : List UInt8) (startBlock : Nat) (st : Pass1Local) (i : Nat) :
    Option Ptr → Heap × Pass1Local
  | some existing =>
    (hp.fetchAdd existing,
      { st with
        plan := st.plan ++
          [{ kind := .hit, logicalBlk := startBlock + i, masterBlk := 0, payload := i * blockSize,
             hash := hash (buf.drop (i * blockSize)), info := existing }] })
  | none =>
    let h := hash (buf.drop (i * blockSize))
    let (heap, info) := hp.alloc { hash := h, masterBlockIndex := 0, refcount := 1 }
    (heap,
      { plan := st.plan ++
          [{ kind := .miss, logicalBlk := startBlock + i, masterBlk := 0,
             payload := i * blockSize, hash := h, info }]
        pendingHashes := st.pendingHashes.insert h info
        missCount := st.missCount + 1 })

/-- The two steps one right after the other are one iteration of pass 1. -/
theorem takeBlock_lookupBlock (ix : Index) (hp : Heap) (buf : List UInt8) (startBlock : Nat)
    (st : Pass1Local) (i : Nat) :
    (takeBlock hp buf startBlock st i (lookupBlock ix buf st i)).2.over
        (takeBlock hp buf startBlock st i (lookupBlock ix buf st i)).1 =
      pass1Block ix buf startBlock (st.over hp) i := by
  simp only [lookupBlock, pass1Block, Pass1Local.over]
  cases (ix.lookupByHash (hash (buf.drop (i * blockSize)))).or
    (st.pendingHashes.lookup (hash (buf.drop (i * blockSize)))) <;> rfl

end

/-- One lookup of phase 1, which also copies the slot. -/
def lookupPair (ix : Index) (hp : Heap) (path : CString) (startBlock i : Nat) : Option BlockPair :=
  (ix.lookupByFileBlock path (startBlock + i)).map fun info =>
    { logicalIdx := i, masterBlockIndex := (hp.cell info).masterBlockIndex }

/-! ## Calls -/

/-- A call that may hold the read lock. -/
inductive FineCall where
  /-- outside the read lock, before the next section of `c` -/
  | outside (c : Call)
  /-- in pass 1, before the lookups for the block `i` -/
  | lookup (req : WriteRequest) (st : Pass1Local) (i : Nat)
  /-- in pass 1, between the lookups for the block `i` and what follows them -/
  | take (req : WriteRequest) (st : Pass1Local) (i : Nat) (found : Option Ptr)
  /-- in phase 1 of a read, before the next lookup -/
  | phase1 (req : ReadRequest) (pairs : List BlockPair)

/-- The call holds the read lock. -/
def FineCall.inside : FineCall → Bool
  | .outside _ => false
  | .lookup _ _ _ | .take _ _ _ _ | .phase1 _ _ => true

/-- The next section of the call runs under the write lock. -/
def Call.exclusive : Call → Bool
  | .write _ (.consolidate _) | .write _ (.rollbackHits _ _) | .remove _ _ _ .start
  | .unlink _ _ (.remove _) | .unlink _ _ .dropSize | .truncate _ _ _ (.remove _ _)
  | .truncate _ _ _ .setSize => true
  | _ => false

def FineCall.exclusive : FineCall → Bool
  | .outside c => c.exclusive
  | _ => false

/-- Leave the read lock at the end of pass 1. -/
def Pass1Local.leave (st : Pass1Local) : WritePc :=
  if 0 < st.missCount then .drain st.plan st.missCount else .consolidate st.plan

/-- Leave the read lock at the end of phase 1. -/
def leavePhase1 (qs : Qsort) (req : ReadRequest) (pairs : List BlockPair) : ReadPc :=
  if pairs.length = 0 then .done 0 req.buf
  else .groups pairs.length (sortPairs qs pairs) req.buf

/-- The arguments with which `write_dedup` gets to its pass 1. -/
def WriteRequest.Accepted (req : WriteRequest) : Prop :=
  req.size ≠ 0 ∧ ¬(req.numBlocks = 0 ∨ req.size % blockSize ≠ 0)

/-- The arguments with which `read_dedup` gets to its phase 1. -/
def ReadRequest.Accepted (req : ReadRequest) : Prop :=
  ¬(req.numBlocks = 0 ∨ req.size % blockSize ≠ 0)

instance (req : WriteRequest) : Decidable req.Accepted :=
  inferInstanceAs (Decidable (req.size ≠ 0 ∧ ¬(req.numBlocks = 0 ∨ req.size % blockSize ≠ 0)))

instance (req : ReadRequest) : Decidable req.Accepted :=
  inferInstanceAs (Decidable ¬(req.numBlocks = 0 ∨ req.size % blockSize ≠ 0))

section
variable [Sha512]

/-- The next step of a call that is not inside: it enters the read lock, or runs its next
    section. -/
def enter (qs : Qsort) (ctx : Context) (io : PwriteResult) (c : Call) :
    Option (Context × FineCall) :=
  match c with
  | .write req .start =>
    if req.Accepted then some (ctx, .lookup req .empty 0)
    else (advance qs ctx io c).map fun r => (r.1, .outside r.2)
  | .read req .start =>
    if req.Accepted then some (ctx, .phase1 req [])
    else (advance qs ctx io c).map fun r => (r.1, .outside r.2)
  | c => (advance qs ctx io c).map fun r => (r.1, .outside r.2)

/-- The next step of a call. -/
def advanceFine (qs : Qsort) (ctx : Context) (io : PwriteResult) :
    FineCall → Option (Context × FineCall)
  | .outside c => enter qs ctx io c
  | .lookup req st i =>
    if i < req.numBlocks then some (ctx, .take req st i (lookupBlock ctx.index req.buf st i))
    else some (ctx, .outside (.write req st.leave))
  | .take req st i found =>
    let r := takeBlock ctx.heap req.buf req.startBlock st i found
    some ({ ctx with heap := r.1 }, .lookup req r.2 (i + 1))
  | .phase1 req pairs =>
    match (if pairs.length < req.numBlocks
      then lookupPair ctx.index ctx.heap req.path req.startBlock pairs.length else none) with
    | some p => some (ctx, .phase1 req (pairs ++ [p]))
    | none => some (ctx, .outside (.read req (leavePhase1 qs req pairs)))

end

/-! ## The machine -/

/-- The shared state and all calls dispatched so far, in this order. -/
structure FineMachine where
  ctx : Context
  calls : List FineCall

variable [Sha512]

/-- A section under the write lock waits until nobody is inside the read lock. -/
def FineMachine.step (qs : Qsort) (s : FineMachine) : Event → Option FineMachine
  | .dispatch r => some { s with calls := s.calls ++ [.outside r.toCall] }
  | .run tid io =>
    match s.calls[tid]? with
    | none => none
    | some c =>
      if c.exclusive && s.calls.any FineCall.inside then none
      else (advanceFine qs s.ctx io c).map fun r => { ctx := r.1, calls := s.calls.set tid r.2 }

/-- All interleavings at this grain, from the empty index over an empty master file. -/
def fineMachine (qs : Qsort) : TransitionSystem FineMachine Event where
  init := { ctx := .empty, calls := [] }
  step := FineMachine.step qs

/-- A step either dispatches a call or advances one, which nobody inside the read lock
    keeps from running. -/
theorem FineMachine.step_cases {qs : Qsort} {s s' : FineMachine} {e : Event}
    (h : s.step qs e = some s') :
    (∃ r, e = .dispatch r ∧ s' = { s with calls := s.calls ++ [.outside r.toCall] }) ∨
    (∃ io c c' ctx' before after, e = .run before.length io ∧ s.calls = before ++ c :: after ∧
      (c.exclusive → ∀ d ∈ s.calls, d.inside = false) ∧ advanceFine qs s.ctx io c = some (ctx', c') ∧
      s' = { ctx := ctx', calls := before ++ c' :: after }) := by
  cases e with
  | dispatch r =>
    simp only [FineMachine.step, Option.some.injEq] at h
    exact .inl ⟨r, rfl, h.symm⟩
  | run tid io =>
    simp only [FineMachine.step] at h
    split at h
    · cases h
    · rename_i c hc
      split at h
      · cases h
      · rename_i hfree
        rw [Option.map_eq_some_iff] at h
        obtain ⟨⟨ctx', c'⟩, hadv, rfl⟩ := h
        obtain ⟨hlt, hget⟩ := List.getElem?_eq_some_iff.mp hc
        have hlen : (s.calls.take tid).length = tid := List.length_take_of_le (Nat.le_of_lt hlt)
        refine .inr ⟨io, c, c', ctx', s.calls.take tid, s.calls.drop (tid + 1), ?_, ?_,
          fun hex d hd => ?_, hadv, ?_⟩
        · rw [hlen]
        · rw [← hget, ← List.drop_eq_getElem_cons hlt, List.take_append_drop]
        · rw [hex, Bool.true_and, Bool.not_eq_true, List.any_eq_false] at hfree
          exact Bool.eq_false_iff.mpr (hfree d hd)
        · rw [List.set_eq_take_append_cons_drop, if_pos hlt]

end DedupBlockFS
