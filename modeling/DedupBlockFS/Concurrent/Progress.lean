-- SUMMARY: No deadlock and no livelock: calls never wait in a circle, and each one returns after a bounded number of steps.
import DedupBlockFS.Concurrent.Readers

/-!
# Progress

Only a section under the write lock ever waits, and only for threads inside the read
lock; these never wait for anything. Every step of a call brings it closer to its return,
so that the calls in flight all return, however they are scheduled.
-/

namespace DedupBlockFS

open ByteFile

/-! ## How many steps are left -/

/-- A bound on the steps a `write_dedup` still has to take. -/
def WritePc.stepsLeft (numBlocks : Nat) : WritePc → Nat
  | .start => 3 * numBlocks + 9
  | .drain plan _ => plan.length + 6
  | .append plan _ _ => plan.length + 5
  | .flush _ todo => todo.length + 4
  | .rollbackHits _ _ => 3
  | .consolidate _ | .rollbackConcat _ _ _ => 2
  | .concat _ | .rollbackMisses _ _ => 1
  | .done _ => 0

def RemovePc.stepsLeft : RemovePc → Nat
  | .start => 2
  | .concat _ => 1
  | .done => 0

def UnlinkPc.stepsLeft : UnlinkPc → Nat
  | .start => 4
  | .remove _ => 3
  | .concat _ => 2
  | .dropSize => 1
  | .done _ => 0

def TruncatePc.stepsLeft : TruncatePc → Nat
  | .start => 4
  | .remove _ _ => 3
  | .concat _ => 2
  | .setSize => 1
  | .done _ => 0

def ReadPc.stepsLeft (numBlocks : Nat) : ReadPc → Nat
  | .start => 2 * numBlocks + 3
  | .groups _ todo _ => todo.length + 1
  | .done _ _ => 0

def Call.stepsLeft : Call → Nat
  | .write req pc => pc.stepsLeft req.numBlocks
  | .remove _ _ _ pc => pc.stepsLeft
  | .unlink _ _ pc => pc.stepsLeft
  | .truncate _ _ _ pc => pc.stepsLeft
  | .read req pc => pc.stepsLeft req.numBlocks

def FineCall.stepsLeft : FineCall → Nat
  | .outside c => c.stepsLeft
  | .lookup req st i => 3 * (req.numBlocks - i) + st.plan.length + 8
  | .take req st i _ => 3 * (req.numBlocks - (i + 1)) + st.plan.length + 10
  | .phase1 req pairs => 2 * (req.numBlocks - pairs.length) + pairs.length + 2

/-- The value a call has returned. -/
def FineCall.result : FineCall → Option Int
  | .outside c => c.result
  | _ => none

def FineMachine.stepsLeft (s : FineMachine) : Nat := (s.calls.map FineCall.stepsLeft).sum

/-! ## Every step is progress -/

section
variable [Sha512] {ctx ctx' : Context} {qs : Qsort} {io : PwriteResult}

omit [Sha512] in
theorem storeSlots_stepsLeft (ctx : Context) (plan : List PlanEntry) (slots : List Nat) (n : Nat) :
    (storeSlots ctx plan slots).2.stepsLeft n = plan.length + 4 :=
  congrArg (· + 4) (assignSlots_slotChanged ctx.heap plan slots).length_eq.symm

theorem advanceWrite_stepsLeft {req : WriteRequest} {pc pc' : WritePc}
    (h : advanceWrite ctx req io pc = some (ctx', pc')) (hstart : ¬(pc = .start ∧ req.Accepted)) :
    pc'.stepsLeft req.numBlocks < pc.stepsLeft req.numBlocks := by
  cases pc with
  | start =>
    simp only [advanceWrite] at h
    split at h
    · obtain ⟨-, rfl⟩ := Prod.ext_iff.mp (Option.some.inj h)
      exact Nat.succ_pos _
    · split at h
      · obtain ⟨-, rfl⟩ := Prod.ext_iff.mp (Option.some.inj h)
        exact Nat.succ_pos _
      · rename_i hsize hargs
        exact absurd ⟨rfl, hsize, hargs⟩ hstart
  | drain plan missCount =>
    simp only [advanceWrite] at h
    split at h
    · obtain ⟨-, rfl⟩ := Prod.ext_iff.mp (Option.some.inj h)
      exact Nat.lt_succ_self _
    · obtain ⟨-, rfl⟩ := Prod.ext_iff.mp (Option.some.inj h)
      rw [storeSlots_stepsLeft]
      exact Nat.add_lt_add_left (by decide) _
  | append plan taken remaining =>
    obtain ⟨-, rfl⟩ := Prod.ext_iff.mp (Option.some.inj h)
    rw [storeSlots_stepsLeft]
    exact Nat.lt_succ_self _
  | flush plan todo =>
    simp only [advanceWrite] at h
    split at h
    · obtain ⟨-, rfl⟩ := Prod.ext_iff.mp (Option.some.inj h)
      simp only [WritePc.stepsLeft]
      omega
    · rename_i hrun
      obtain ⟨-, rfl⟩ := Prod.ext_iff.mp (Option.some.inj h)
      have hrest := nextRun_length hrun
      dsimp only
      split <;> simp only [WritePc.stepsLeft] <;> omega
  | consolidate plan | concat slots | rollbackHits plan rc | rollbackConcat plan slots rc
  | rollbackMisses plan rc =>
    obtain ⟨-, rfl⟩ := Prod.ext_iff.mp (Option.some.inj h)
    exact Nat.lt_succ_self _
  | done rc => cases h

/-- A section of a call outside the read lock. -/
theorem advance_stepsLeft {c c' : Call} (h : advance qs ctx io c = some (ctx', c'))
    (hwrite : ∀ req, c = .write req .start → ¬req.Accepted)
    (hread : ∀ req, c = .read req .start → ¬req.Accepted) : c'.stepsLeft < c.stepsLeft := by
  cases c with
  | write req pc =>
    obtain ⟨⟨ctx₁, pc'⟩, hadv, hres⟩ := Option.map_eq_some_iff.mp h
    obtain ⟨rfl, rfl⟩ := Prod.ext_iff.mp hres
    exact advanceWrite_stepsLeft hadv fun hs => hwrite req (by rw [hs.1]) hs.2
  | remove path startBlock endBlock pc =>
    obtain ⟨⟨ctx₁, pc'⟩, hadv, hres⟩ := Option.map_eq_some_iff.mp h
    obtain ⟨rfl, rfl⟩ := Prod.ext_iff.mp hres
    cases pc with
    | start | concat slots =>
      obtain ⟨-, rfl⟩ := Prod.ext_iff.mp (Option.some.inj hadv)
      exact Nat.lt_succ_self _
    | done => cases hadv
  | unlink path res pc =>
    obtain ⟨⟨ctx₁, pc'⟩, hadv, hres⟩ := Option.map_eq_some_iff.mp h
    obtain ⟨rfl, rfl⟩ := Prod.ext_iff.mp hres
    cases pc with
    | start =>
      simp only [advanceUnlink] at hadv
      split at hadv <;>
      · obtain ⟨-, rfl⟩ := Prod.ext_iff.mp (Option.some.inj hadv)
        simp [Call.stepsLeft, UnlinkPc.stepsLeft]
    | remove numBlocks | concat slots | dropSize =>
      obtain ⟨-, rfl⟩ := Prod.ext_iff.mp (Option.some.inj hadv)
      exact Nat.lt_succ_self _
    | done ret => cases hadv
  | truncate path size res pc =>
    obtain ⟨⟨ctx₁, pc'⟩, hadv, hres⟩ := Option.map_eq_some_iff.mp h
    obtain ⟨rfl, rfl⟩ := Prod.ext_iff.mp hres
    cases pc with
    | start =>
      simp only [advanceTruncate] at hadv
      split at hadv
      · obtain ⟨-, rfl⟩ := Prod.ext_iff.mp (Option.some.inj hadv)
        exact Nat.succ_pos _
      · split at hadv <;>
        · obtain ⟨-, rfl⟩ := Prod.ext_iff.mp (Option.some.inj hadv)
          simp [Call.stepsLeft, TruncatePc.stepsLeft]
    | remove newBlockCount oldBlockCount | concat slots | setSize =>
      obtain ⟨-, rfl⟩ := Prod.ext_iff.mp (Option.some.inj hadv)
      exact Nat.lt_succ_self _
    | done ret => cases hadv
  | read req pc =>
    obtain ⟨pc', hadv, hres⟩ := Option.map_eq_some_iff.mp h
    obtain ⟨rfl, rfl⟩ := Prod.ext_iff.mp hres
    cases pc with
    | start =>
      simp only [advanceRead] at hadv
      split at hadv
      · obtain rfl := Option.some.inj hadv
        exact Nat.succ_pos _
      · rename_i hargs
        exact absurd hargs (hread req rfl)
    | groups validBlocks todo buf =>
      cases todo with
      | nil =>
        obtain rfl := Option.some.inj hadv
        exact Nat.succ_pos _
      | cons first rest =>
        simp only [advanceRead] at hadv
        split at hadv
        · obtain rfl := Option.some.inj hadv
          exact Nat.succ_pos _
        · obtain rfl := Option.some.inj hadv
          simp only [Call.stepsLeft, ReadPc.stepsLeft, List.length_drop, List.length_cons]
          omega
    | done ret buf => cases hadv

omit [Sha512] in
theorem Pass1Local.leave_stepsLeft (st : Pass1Local) (n : Nat) :
    st.leave.stepsLeft n < st.plan.length + 8 := by
  unfold Pass1Local.leave
  split <;> simp only [WritePc.stepsLeft] <;> omega

omit [Sha512] in
theorem leavePhase1_stepsLeft (qs : Qsort) (req : ReadRequest) (pairs : List BlockPair) (n : Nat) :
    (leavePhase1 qs req pairs).stepsLeft n < pairs.length + 2 := by
  unfold leavePhase1
  split
  · exact Nat.succ_pos _
  · simp only [ReadPc.stepsLeft, (sortPairs_perm qs pairs).length_eq]
    omega

theorem length_takeBlock (hp : Heap) (buf : List UInt8) (startBlock : Nat) (st : Pass1Local)
    (i : Nat) (found : Option Ptr) :
    (takeBlock hp buf startBlock st i found).2.plan.length = st.plan.length + 1 := by
  cases found <;> simp [takeBlock]

/-- Every step of a call brings it closer to its return. -/
theorem advanceFine_stepsLeft {c c' : FineCall} (h : advanceFine qs ctx io c = some (ctx', c')) :
    c'.stepsLeft < c.stepsLeft := by
  have houtside : ∀ d : Call, (∀ req, d = .write req .start → ¬req.Accepted) →
      (∀ req, d = .read req .start → ¬req.Accepted) →
      (advance qs ctx io d).map (fun r => (r.1, FineCall.outside r.2)) = some (ctx', c') →
      c'.stepsLeft < d.stepsLeft := by
    intro d hwrite hread hmap
    obtain ⟨⟨ctx₁, d'⟩, hadv, hres⟩ := Option.map_eq_some_iff.mp hmap
    obtain ⟨rfl, rfl⟩ := Prod.ext_iff.mp hres
    exact advance_stepsLeft hadv hwrite hread
  cases c with
  | outside d =>
    simp only [advanceFine] at h
    unfold enter at h
    split at h
    · split at h
      · obtain ⟨-, rfl⟩ := Prod.ext_iff.mp (Option.some.inj h)
        exact Nat.lt_succ_self _
      · rename_i req hargs
        refine houtside _ (fun req' heq => ?_) (fun req' heq => by cases heq) h
        cases heq
        exact hargs
    · split at h
      · obtain ⟨-, rfl⟩ := Prod.ext_iff.mp (Option.some.inj h)
        exact Nat.lt_succ_self _
      · rename_i req hargs
        refine houtside _ (fun req' heq => by cases heq) (fun req' heq => ?_) h
        cases heq
        exact hargs
    · rename_i hwrite hread
      exact houtside d (fun req heq => absurd heq (hwrite req))
        (fun req heq => absurd heq (hread req)) h
  | lookup req st i =>
    simp only [advanceFine] at h
    split at h
    · obtain ⟨-, rfl⟩ := Prod.ext_iff.mp (Option.some.inj h)
      simp only [FineCall.stepsLeft]
      omega
    · obtain ⟨-, rfl⟩ := Prod.ext_iff.mp (Option.some.inj h)
      have hleave := st.leave_stepsLeft req.numBlocks
      simp only [FineCall.stepsLeft, Call.stepsLeft]
      omega
  | take req st i found =>
    obtain ⟨-, rfl⟩ := Prod.ext_iff.mp (Option.some.inj h)
    simp only [FineCall.stepsLeft, length_takeBlock]
    omega
  | phase1 req pairs =>
    simp only [advanceFine] at h
    split at h
    · rename_i p hp
      obtain ⟨-, rfl⟩ := Prod.ext_iff.mp (Option.some.inj h)
      split at hp
      · simp only [FineCall.stepsLeft, List.length_append, List.length_singleton]
        omega
      · cases hp
    · obtain ⟨-, rfl⟩ := Prod.ext_iff.mp (Option.some.inj h)
      have hleave := leavePhase1_stepsLeft qs req pairs req.numBlocks
      simp only [FineCall.stepsLeft, Call.stepsLeft]
      omega

/-! ## Some step is possible -/

/-- A call that has not returned has a next section. -/
theorem advance_isSome {c : Call} (h : c.result = none) : (advance qs ctx io c).isSome := by
  cases c with
  | write req pc =>
    simp only [advance, Option.isSome_map]
    cases pc with
    | start =>
      simp only [advanceWrite]
      split
      · rfl
      · split <;> rfl
    | drain plan missCount =>
      simp only [advanceWrite]
      split <;> rfl
    | flush plan todo =>
      simp only [advanceWrite]
      split <;> rfl
    | done rc => cases h
    | _ => rfl
  | remove path startBlock endBlock pc =>
    cases pc with
    | done => cases h
    | _ => rfl
  | unlink path res pc =>
    simp only [advance, Option.isSome_map]
    cases pc with
    | start =>
      simp only [advanceUnlink]
      split <;> rfl
    | done ret => cases h
    | _ => rfl
  | truncate path size res pc =>
    simp only [advance, Option.isSome_map]
    cases pc with
    | start =>
      simp only [advanceTruncate]
      split
      · rfl
      · split <;> rfl
    | done ret => cases h
    | _ => rfl
  | read req pc =>
    simp only [advance, Option.isSome_map]
    cases pc with
    | start =>
      simp only [advanceRead]
      split
      · rfl
      · split <;> rfl
    | groups validBlocks todo buf =>
      cases todo with
      | nil => rfl
      | cons first rest =>
        simp only [advanceRead]
        split <;> rfl
    | done ret buf => cases h

theorem advanceFine_isSome {c : FineCall} (h : c.result = none) :
    (advanceFine qs ctx io c).isSome := by
  cases c with
  | outside d =>
    have hd : (advance qs ctx io d).isSome := advance_isSome h
    simp only [advanceFine]
    unfold enter
    split
    · split
      · rfl
      · rwa [Option.isSome_map]
    · split
      · rfl
      · rwa [Option.isSome_map]
    · rwa [Option.isSome_map]
  | lookup req st i =>
    simp only [advanceFine]
    split <;> rfl
  | take req st i found => rfl
  | phase1 req pairs =>
    simp only [advanceFine]
    split <;> rfl

end

/-! ## The machine -/

section
variable [Sha512] {qs : Qsort} {s s' : FineMachine}

theorem FineMachine.step_stepsLeft {tid : Nat} {io : PwriteResult}
    (h : s.step qs (.run tid io) = some s') : s'.stepsLeft < s.stepsLeft := by
  rcases FineMachine.step_cases h with ⟨r, he, -⟩ |
    ⟨io', c, c', ctx', before, after, -, hcalls, -, hadv, rfl⟩
  · cases he
  have hlower := advanceFine_stepsLeft hadv
  simp only [FineMachine.stepsLeft, hcalls, List.map_append, List.map_cons, List.sum_append,
    List.sum_cons]
  omega

variable (qs) in
/-- If a call has not returned, some call can take a step: a thread inside the read lock,
    or, if nobody is, this one. -/
theorem FineMachine.exists_step {c : FineCall} (hc : c ∈ s.calls) (hresult : c.result = none) :
    ∃ tid, ∀ io, (s.step qs (.run tid io)).isSome := by
  by_cases hinside : ∃ d ∈ s.calls, d.inside
  · obtain ⟨d, hd, hin⟩ := hinside
    obtain ⟨tid, hget⟩ := List.mem_iff_getElem?.mp hd
    refine ⟨tid, fun io => ?_⟩
    have hshared : d.exclusive = false ∧ d.result = none := by
      cases d with
      | outside d => cases hin
      | _ => exact ⟨rfl, rfl⟩
    simp only [FineMachine.step, hget, hshared.1, Bool.false_and, Bool.false_eq_true, if_false,
      Option.isSome_map]
    exact advanceFine_isSome hshared.2
  · obtain ⟨tid, hget⟩ := List.mem_iff_getElem?.mp hc
    refine ⟨tid, fun io => ?_⟩
    have hnobody : s.calls.any FineCall.inside = false :=
      List.any_eq_false.mpr fun d hd hin => hinside ⟨d, hd, hin⟩
    simp only [FineMachine.step, hget, hnobody, Bool.and_false, Bool.false_eq_true, if_false,
      Option.isSome_map]
    exact advanceFine_isSome hresult

/-- The events of a run in which no further call is dispatched. -/
def Event.IsRun : Event → Prop
  | .dispatch _ => False
  | .run _ _ => True

/-- However the calls in flight are scheduled, they take no more steps than `stepsLeft`
    says, and when none of them can take another one, all have returned: there is neither
    a deadlock nor a livelock. -/
theorem calls_return {es : List Event} (hrun : ∀ e ∈ es, e.IsRun)
    (h : (fineMachine qs).replay (fun _ _ _ => true) s es = some s') :
    es.length ≤ s.stepsLeft ∧
      ((∀ tid io, (fineMachine qs).step s' (.run tid io) = none) →
        ∀ c ∈ s'.calls, c.result ≠ none) := by
  refine ⟨?_, fun hstuck c hc hresult => ?_⟩
  · have hlength := TransitionSystem.length_le_of_replay (μ := FineMachine.stepsLeft)
      (fun s e he s' hstep => by
        cases e with
        | dispatch r => exact (hrun _ he).elim
        | run tid io => exact FineMachine.step_stepsLeft hstep) h
    omega
  · obtain ⟨tid, hsome⟩ := FineMachine.exists_step qs hc hresult
    have hstep := hsome .complete
    rw [show s'.step qs (.run tid .complete) = none from hstuck tid .complete] at hstep
    cases hstep

end

/-- The two writes leave pass 1; the first one to leave has to wait for the other before
    it consolidates. -/
def twoReturn : List Event :=
  [.run 1 .complete, .run 2 .complete, .run 2 .complete, .run 1 .complete, .run 2 .complete,
    .run 1 .complete, .run 2 .complete]

theorem twoReturn_enabled : ((@fineMachine Sha512.zeroBlock .mergeSort).replay
    (fun _ _ _ => true) afterTwoInside twoReturn).isSome := by
  decide +kernel

/-- The state in which both have returned. -/
def afterTwoReturn : FineMachine :=
  ((@fineMachine Sha512.zeroBlock .mergeSort).replay (fun _ _ _ => true) afterTwoInside
    twoReturn).get twoReturn_enabled

theorem calls_return_of_twoReturn :
    afterTwoReturn.calls.map FineCall.result = [some 4096, some 4096, some 4096] ∧
      twoReturn.length ≤ afterTwoInside.stepsLeft :=
  ⟨by decide +kernel, (@calls_return Sha512.zeroBlock .mergeSort _ _ twoReturn
    (by simp [twoReturn, Event.IsRun]) (Option.some_get twoReturn_enabled).symm).1⟩

end DedupBlockFS
