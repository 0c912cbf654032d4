-- SUMMARY: `flush_plan` issues as few `pwrite`s as a plan can be stored with, and no more than its HITs and recycled slots force.
import DedupBlockFS.Concurrent.Machine
import DedupBlockFS.GroupedFlush

/-!
# Batching

`flush_plan` promises to make one system call of many. A `pwrite` takes its blocks from one
stretch of the buffer to one stretch of the master file, so what it stores is a piece of the plan
without HITs whose slots are consecutive. `flush_plan` issues as few of these as there can be.
How few depends on where the slots come from: those at the end of the master file are
consecutive, those of the free list need not be.
-/

namespace DedupBlockFS

open ByteFile

/-! ## The fewest system calls -/

/-- A plan cut into pieces: HITs, and MISSes that one `pwrite` can store. -/
structure Pieces (plan : List PlanEntry) where
  pieces : List (List PlanEntry)
  whole : pieces.flatten = plan
  piece : ∀ es ∈ pieces, (∀ e ∈ es, e.kind = .hit) ∨ Runs.IsRun PlanEntry.missSlot es

/-- The `pwrite`s that these pieces take: none for HITs. -/
def Pieces.pwrites {plan : List PlanEntry} (p : Pieces plan) : Nat :=
  p.pieces.countP fun es => es.any fun e => e.missSlot.isSome

/-- The `pwrite`s of these runs, one after the other up to the first that is not complete. -/
def storeRuns (master buf : List UInt8) (io : Nat → PwriteResult) (k : Nat) :
    List (PlanEntry × Nat) → List UInt8 × Int
  | [] => (master, 0)
  | (first, runLen) :: runs =>
    let (master, written) := writeRun master buf first runLen (io k)
    if written = (runLen * blockSize : Nat) then storeRuns master buf io (k + 1) runs
    else (master, flushError (io k))

section
variable {plan es todo rest : List PlanEntry} {e first : PlanEntry} {runLen : Nat}

theorem missSlot_of_hit (h : e.kind = .hit) : e.missSlot = none := by
  unfold PlanEntry.missSlot
  rw [h]

theorem missSlot_of_miss (h : e.kind = .miss) : e.missSlot = some e.masterBlk := by
  unfold PlanEntry.missSlot
  rw [h]

theorem flushPlan_eq_storeRuns (master buf : List UInt8) (io : Nat → PwriteResult) (k : Nat)
    (plan : List PlanEntry) :
    flushPlan master buf io k plan = storeRuns master buf io k (planRuns plan) := by
  fun_induction flushPlan master buf io k plan with
  | case1 =>
    rename_i hnone
    rw [planRuns_of_none hnone, storeRuns]
  | case2 =>
    rename_i hsome _ hwrite ih
    rw [planRuns_of_some hsome, storeRuns, hwrite]
    exact ih.trans (if_pos rfl).symm
  | case3 =>
    rename_i hsome _ _ hwrite hshort
    rw [planRuns_of_some hsome, storeRuns, hwrite]
    exact (if_neg hshort).symm

/-- One run, and the runs of what follows it. -/
theorem count_nextRun (h : nextRun todo = some (first, runLen, rest)) :
    Runs.count PlanEntry.missSlot none todo = Runs.count PlanEntry.missSlot none rest + 1 := by
  induction todo with
  | nil => cases h
  | cons e es ih =>
    rw [nextRun] at h
    cases hk : e.kind with
    | hit =>
      rw [hk] at h
      rw [Runs.count_cons_of_none (missSlot_of_hit hk)]
      exact ih h
    | miss =>
      rw [hk] at h
      obtain ⟨-, -, rfl⟩ := by simpa using h
      rw [Runs.count_cons_of_some (missSlot_of_miss hk), Runs.count_runLength]

theorem length_planRuns (plan : List PlanEntry) :
    (planRuns plan).length = Runs.count PlanEntry.missSlot none plan := by
  induction plan using planRuns.induct with
  | case1 plan hnone =>
    have hhits := nextRun_eq_none hnone
    rw [planRuns_of_none hnone,
      Runs.count_eq_zero fun e he => missSlot_of_hit (hhits e he), List.length_nil]
  | case2 plan first runLen rest hsome ih =>
    rw [planRuns_of_some hsome, count_nextRun hsome, List.length_cons, ih]

/-- The run that `flush_plan` takes next is one piece. -/
theorem isRun_of_slots {s : Nat}
    (h : ∀ j e, es[j]? = some e → e.kind = .miss ∧ e.masterBlk = s + j) :
    Runs.IsRun PlanEntry.missSlot es where
  placed e he := by
    obtain ⟨j, hj⟩ := List.mem_iff_getElem?.mp he
    rw [missSlot_of_miss (h j e hj).1]
    exact Option.some_ne_none _
  next := by
    refine List.isChain_iff_getElem.mpr fun j hj => ?_
    obtain ⟨hk, hslot⟩ := h j _ (List.getElem?_eq_getElem (by omega))
    obtain ⟨hk', hslot'⟩ := h (j + 1) _ (List.getElem?_eq_getElem hj)
    rw [missSlot_of_miss hk, missSlot_of_miss hk', hslot, hslot']
    rfl

/-- The pieces of `flush_plan`: as many with MISSes as it has runs. -/
theorem exists_pieces (plan : List PlanEntry) :
    ∃ p : Pieces plan, p.pwrites = (planRuns plan).length := by
  induction plan using planRuns.induct with
  | case1 plan hnone =>
    have hhits := nextRun_eq_none hnone
    refine ⟨⟨[plan], List.flatten_singleton, fun es hes => ?_⟩, ?_⟩
    · rw [List.mem_singleton.mp hes]
      exact .inl hhits
    · rw [planRuns_of_none hnone, Pieces.pwrites, List.countP_singleton, if_neg]
      · rfl
      · simpa using fun e he => missSlot_of_hit (hhits e he)
  | case2 plan first runLen rest hsome ih =>
    obtain ⟨p, hp⟩ := ih
    obtain ⟨hits, run, htodo, hhits, hlen, hhead, hrun⟩ := nextRun_split hsome
    have hfirst : first ∈ run := List.mem_of_head? hhead
    refine ⟨⟨hits :: run :: p.pieces, ?_, ?_⟩, ?_⟩
    · rw [List.flatten_cons, List.flatten_cons, p.whole, htodo]
    · refine List.forall_mem_cons.mpr ⟨.inl hhits, List.forall_mem_cons.mpr ⟨?_, p.piece⟩⟩
      exact .inr (isRun_of_slots hrun)
    · have hhas : (run.any fun e => e.missSlot.isSome) = true := by
        obtain ⟨j, hj⟩ := List.mem_iff_getElem?.mp hfirst
        refine List.any_eq_true.mpr ⟨first, hfirst, ?_⟩
        rw [missSlot_of_miss (hrun j first hj).1]
        rfl
      have hnot : ¬(hits.any fun e => e.missSlot.isSome) = true := by
        simpa using fun e he => missSlot_of_hit (hhits e he)
      rw [planRuns_of_some hsome, List.length_cons, ← hp, Pieces.pwrites, List.countP_cons,
        List.countP_cons, if_neg hnot, if_pos hhas]
      rfl

end

/-- For every plan, whatever its slots are: `flush_plan` issues the `pwrite`s of its runs up to
    the first that is not complete, and there are no fewer `pwrite`s that store its MISSes. -/
theorem fewest_pwrites (master buf : List UInt8) (io : Nat → PwriteResult)
    (plan : List PlanEntry) :
    flushPlan master buf io 0 plan = storeRuns master buf io 0 (planRuns plan) ∧
      IsLeast (Set.range fun p : Pieces plan => p.pwrites) (planRuns plan).length := by
  refine ⟨flushPlan_eq_storeRuns master buf io 0 plan, exists_pieces plan, ?_⟩
  rintro _ ⟨p, rfl⟩
  have hcount := Runs.count_flatten_le fun es hes =>
    (p.piece es hes).imp_left fun hhits e he => missSlot_of_hit (hhits e he)
  rw [p.whole, ← length_planRuns] at hcount
  exact hcount

/-! ## How few they are -/

def numHits (plan : List PlanEntry) : Nat := plan.countP (·.kind = .hit)
def numMisses (plan : List PlanEntry) : Nat := plan.countP (·.kind = .miss)

section
variable {hp : Heap} {e : PlanEntry} {es : List PlanEntry} {slot : Nat} {slots : List Nat}

theorem numHits_cons_hit (h : e.kind = .hit) : numHits (e :: es) = numHits es + 1 := by
  simp [numHits, h]

theorem numHits_cons_miss (h : e.kind = .miss) : numHits (e :: es) = numHits es := by
  simp [numHits, h]

theorem numMisses_cons_hit (h : e.kind = .hit) : numMisses (e :: es) = numMisses es := by
  simp [numMisses, h]

theorem numMisses_cons_miss (h : e.kind = .miss) : numMisses (e :: es) = numMisses es + 1 := by
  simp [numMisses, h]

theorem assignSlots_hit (h : e.kind = .hit) :
    (assignSlots hp (e :: es) slots).2 = e :: (assignSlots hp es slots).2 := by
  simp only [assignSlots, h]

theorem assignSlots_miss (h : e.kind = .miss) :
    (assignSlots hp (e :: es) (slot :: slots)).2 = { e with masterBlk := slot } ::
      (assignSlots (hp.setMasterBlockIndex e.info slot) es slots).2 := by
  simp only [assignSlots, h]

/-- With slots from the end of the master file alone, only a HIT ends a run. -/
theorem count_appended (hp : Heap) {es : List PlanEntry} (base : Nat) {n : Nat}
    (hn : numMisses es ≤ n) :
    Runs.count PlanEntry.missSlot (some base) (assignSlots hp es (List.range' (base + 1) n)).2 ≤
        numHits es ∧
      Runs.count PlanEntry.missSlot none (assignSlots hp es (List.range' base n)).2 ≤
        numHits es + 1 := by
  induction es generalizing hp base n with
  | nil => exact ⟨Nat.le_refl 0, Nat.zero_le 1⟩
  | cons e es ih =>
    cases hk : e.kind with
    | hit =>
      rw [numMisses_cons_hit hk] at hn
      rw [assignSlots_hit hk, assignSlots_hit hk, numHits_cons_hit hk,
        Runs.count_cons_of_none (missSlot_of_hit hk), Runs.count_cons_of_none (missSlot_of_hit hk)]
      exact ⟨(ih hp (base + 1) hn).2, (ih hp base hn).2.trans (Nat.le_succ _)⟩
    | miss =>
      rw [numMisses_cons_miss hk] at hn
      obtain ⟨n, rfl⟩ : ∃ m, n = m + 1 := ⟨n - 1, by omega⟩
      have hslot : ∀ slot, ({ e with masterBlk := slot } : PlanEntry).missSlot = some slot :=
        fun slot => missSlot_of_miss hk
      rw [List.range'_succ, List.range'_succ, assignSlots_miss hk, assignSlots_miss hk,
        numHits_cons_miss hk, Runs.count_cons_of_next (hslot _), Runs.count_cons_of_some (hslot _)]
      exact ⟨(ih _ (base + 1) (by omega)).1, Nat.succ_le_succ (ih _ base (by omega)).1⟩

/-- Behind each slot of the free list a run may end, too. -/
theorem count_allocated (hp : Heap) {es : List PlanEntry} (taken : List Nat) (base : Nat) {n : Nat}
    (hn : numMisses es ≤ taken.length + n) :
    Runs.count PlanEntry.missSlot none (assignSlots hp es (taken ++ List.range' base n)).2 ≤
      1 + numHits es + taken.length := by
  induction es generalizing hp taken with
  | nil => exact Nat.zero_le _
  | cons e es ih =>
    cases hk : e.kind with
    | hit =>
      rw [numMisses_cons_hit hk] at hn
      have hrest := ih hp taken hn
      rw [assignSlots_hit hk, numHits_cons_hit hk, Runs.count_cons_of_none (missSlot_of_hit hk)]
      omega
    | miss =>
      cases taken with
      | nil =>
        -- from here on all slots are at the end of the master file
        rw [List.length_nil, Nat.zero_add] at hn
        have happended := (count_appended hp base hn).2
        rw [List.nil_append, List.length_nil]
        omega
      | cons slot taken =>
        rw [numMisses_cons_miss hk, List.length_cons] at hn
        have hslot : ({ e with masterBlk := slot } : PlanEntry).missSlot = some slot :=
          missSlot_of_miss hk
        have hrest := ih (hp.setMasterBlockIndex e.info slot) taken (by omega)
        have hle : Runs.count PlanEntry.missSlot (some slot) (assignSlots
            (hp.setMasterBlockIndex e.info slot) es (taken ++ List.range' base n)).2 ≤ _ :=
          Runs.count_le _ _
        rw [List.cons_append, assignSlots_miss hk, Runs.count_cons_of_some hslot,
          numHits_cons_miss hk, List.length_cons]
        omega

end

/-- Pass 1 counts its MISSes. -/
theorem pass1_missCount [Sha512] (ix : Index) (hp : Heap) (buf : List UInt8) (startBlock n : Nat) :
    (pass1 ix hp buf startBlock n).missCount = numMisses (pass1 ix hp buf startBlock n).plan := by
  have hstep : ∀ (st : Pass1) (i : Nat), st.missCount = numMisses st.plan →
      (pass1Block ix buf startBlock st i).missCount =
        numMisses (pass1Block ix buf startBlock st i).plan := by
    intro st i h
    simp only [pass1Block]
    split
    · rw [h]
      simp [numMisses]
    · rw [h]
      simp [numMisses]
  unfold pass1
  -- the induction is over the loop, from any state in which the count is right
  generalize List.range n = blocks
  suffices h : ∀ st : Pass1, st.missCount = numMisses st.plan →
      (blocks.foldl (pass1Block ix buf startBlock) st).missCount =
        numMisses (blocks.foldl (pass1Block ix buf startBlock) st).plan from h _ rfl
  induction blocks with
  | nil => exact fun st h => h
  | cons i blocks ih => exact fun st h => ih _ (hstep st i h)

/-! ## Counted over runs -/

/-- What has been counted of one `write_dedup`: the HITs that its pass 1 has found, the slots that
    it has taken off the free list, and its `pwrite`s. -/
structure Tally where
  hits : Nat
  recycled : Nat
  pwrites : Nat

/-- The section from `pc` to `pc'` is counted. -/
def Tally.count (ctx : Context) (pc pc' : WritePc) (t : Tally) : Tally :=
  match pc, pc' with
  | .start, .drain plan _ | .start, .consolidate plan => { t with hits := t.hits + numHits plan }
  | .drain _ missCount, _ =>
    { t with recycled := t.recycled + (ctx.drainFreeList missCount).2.length }
  | .flush _ todo, _ => if (nextRun todo).isSome then { t with pwrites := t.pwrites + 1 } else t
  | _, _ => t

/-- A step of the machine, as far as it is one of the call `tid`. -/
def Tally.next (tid : Nat) (s s' : Machine) : Event → Tally → Tally
  | .dispatch _, t => t
  | .run tid' _, t =>
    if tid' = tid then
      match s.calls[tid]?, s'.calls[tid]? with
      | some (.write _ pc), some (.write _ pc') => t.count s.ctx pc pc'
      | _, _ => t
    else t

/-- The machine, with the call `tid` counted. -/
def tallied [Sha512] (qs : Qsort) (tid : Nat) : TransitionSystem (Machine × Tally) Event where
  init := ((machine qs).init, ⟨0, 0, 0⟩)
  step s e := ((machine qs).step s.1 e).map fun s' => (s', s.2.next tid s.1 s' e)

section
variable [Sha512] {qs : Qsort} {tid : Nat} {s s' : Machine} {t : Tally} {ctx ctx' : Context}
  {req : WriteRequest} {pc pc' : WritePc} {io : PwriteResult} {e : Event}

/-- Counting does not get in the way of any run. -/
theorem reachable_iff_tallied : (machine qs).Reachable (fun _ _ _ => True) s ↔
    ∃ t, (tallied qs tid).Reachable (fun _ _ _ => True) (s, t) := by
  constructor
  · intro h
    induction h with
    | refl => exact ⟨_, .refl⟩
    | tail _ hlast ih =>
      obtain ⟨t, hrun⟩ := ih
      obtain ⟨e, hstep, -⟩ := hlast
      exact ⟨_, hrun.trans (.single (congrArg (Option.map _) hstep) trivial)⟩
  · rintro ⟨t, h⟩
    refine TransitionSystem.Reachable.invariant
      (I := fun st => (machine qs).Reachable (fun _ _ _ => True) st.1) h ?_ ?_
    · exact .refl
    rintro st e st' hreach hstep -
    obtain ⟨s', hmachine, rfl⟩ := Option.map_eq_some_iff.mp hstep
    exact hreach.trans (.single hmachine trivial)

/-- What has been counted of a call before its next section, together with the `pwrite`s that it
    has still to issue. -/
def Tally.Ok (t : Tally) : WritePc → Prop
  | .start => t.pwrites = 0
  | .drain plan missCount =>
    t.pwrites = 0 ∧ numHits plan ≤ t.hits ∧ numMisses plan ≤ missCount
  | .append plan taken remaining =>
    t.pwrites = 0 ∧ numHits plan ≤ t.hits ∧ taken.length ≤ t.recycled ∧
      numMisses plan ≤ taken.length + remaining
  | .flush _ todo => t.pwrites + (planRuns todo).length ≤ 1 + t.hits + t.recycled
  | _ => t.pwrites ≤ 1 + t.hits + t.recycled

omit [Sha512] in
/-- The slots are stored: what the flush will issue is settled. -/
theorem Tally.Ok.storeSlots {plan : List PlanEntry} (taken : List Nat) {base n : Nat}
    (hzero : t.pwrites = 0) (hhits : numHits plan ≤ t.hits) (htaken : taken.length ≤ t.recycled)
    (hmisses : numMisses plan ≤ taken.length + n) :
    t.Ok (DedupBlockFS.storeSlots ctx plan (taken ++ List.range' base n)).2 := by
  have hcount := count_allocated ctx.heap taken base hmisses
  unfold DedupBlockFS.storeSlots Tally.Ok
  dsimp only
  rw [length_planRuns, hzero]
  omega

/-- One section of the call. -/
theorem Tally.Ok.advance (h : t.Ok pc) (hadv : advanceWrite ctx req io pc = some (ctx', pc')) :
    (t.count ctx pc pc').Ok pc' := by
  cases pc with
  | start =>
    have hzero : t.pwrites = 0 := h
    have hnone : ∀ n, t.pwrites ≤ n := fun n => hzero.trans_le (Nat.zero_le n)
    simp only [advanceWrite] at hadv
    split at hadv
    · obtain ⟨-, rfl⟩ := Prod.ext_iff.mp (Option.some.inj hadv)
      exact hnone _
    split at hadv
    · obtain ⟨-, rfl⟩ := Prod.ext_iff.mp (Option.some.inj hadv)
      exact hnone _
    obtain ⟨-, rfl⟩ := Prod.ext_iff.mp (Option.some.inj hadv)
    dsimp only
    split
    · exact ⟨hzero, Nat.le_add_left _ _, Nat.le_of_eq (pass1_missCount _ _ _ _ _).symm⟩
    · exact hnone _
  | drain plan missCount =>
    obtain ⟨hzero, hhits, hmisses⟩ := h
    have htaken : (ctx.drainFreeList missCount).2.length ≤
        t.recycled + (ctx.drainFreeList missCount).2.length := Nat.le_add_left _ _
    simp only [advanceWrite] at hadv
    split at hadv
    · obtain ⟨-, rfl⟩ := Prod.ext_iff.mp (Option.some.inj hadv)
      exact ⟨hzero, hhits, htaken, by omega⟩
    · -- the free list has been long enough: nothing is appended
      obtain ⟨-, rfl⟩ := Prod.ext_iff.mp (Option.some.inj hadv)
      have hstore : (t.count ctx (.drain plan missCount) (.done 0)).Ok
          (DedupBlockFS.storeSlots (ctx.drainFreeList missCount).1 plan
            ((ctx.drainFreeList missCount).2 ++ List.range' 0 0)).2 :=
        .storeSlots _ hzero hhits htaken (by omega)
      rw [List.range'_zero, List.append_nil] at hstore
      exact hstore
  | append plan taken remaining =>
    obtain ⟨hzero, hhits, htaken, hmisses⟩ := h
    obtain ⟨-, rfl⟩ := Prod.ext_iff.mp (Option.some.inj hadv)
    exact .storeSlots taken hzero hhits htaken hmisses
  | flush plan todo =>
    have hleft : t.pwrites + (planRuns todo).length ≤ 1 + t.hits + t.recycled := h
    simp only [advanceWrite] at hadv
    split at hadv
    · rename_i hnone
      obtain ⟨-, rfl⟩ := Prod.ext_iff.mp (Option.some.inj hadv)
      simp only [Tally.count, hnone, Option.isSome_none, Bool.false_eq_true, if_false]
      exact (Nat.le_add_right _ _).trans hleft
    · rename_i hsome
      obtain ⟨-, rfl⟩ := Prod.ext_iff.mp (Option.some.inj hadv)
      simp only [Tally.count, hsome, Option.isSome_some, if_true]
      rw [planRuns_of_some hsome, List.length_cons] at hleft
      -- a `pwrite` that is not complete is the last one
      split
      · show t.pwrites + 1 + _ ≤ 1 + t.hits + t.recycled
        omega
      · show t.pwrites + 1 ≤ 1 + t.hits + t.recycled
        omega
  | consolidate plan =>
    obtain ⟨-, rfl⟩ := Prod.ext_iff.mp (Option.some.inj hadv)
    exact h
  | concat slots =>
    obtain ⟨-, rfl⟩ := Prod.ext_iff.mp (Option.some.inj hadv)
    exact h
  | rollbackHits plan rc =>
    obtain ⟨-, rfl⟩ := Prod.ext_iff.mp (Option.some.inj hadv)
    exact h
  | rollbackConcat plan slots rc =>
    obtain ⟨-, rfl⟩ := Prod.ext_iff.mp (Option.some.inj hadv)
    exact h
  | rollbackMisses plan rc =>
    obtain ⟨-, rfl⟩ := Prod.ext_iff.mp (Option.some.inj hadv)
    exact h
  | done ret => cases hadv

/-- The same of the call `tid`, if it is a write; the others issue no `pwrite`s. -/
def Tally.OkAt (t : Tally) : Option Call → Prop
  | some (.write _ pc) => t.Ok pc
  | _ => t.pwrites = 0

omit [Sha512] in
theorem Tally.OkAt.dispatch {c : Option Call} (h : t.OkAt c) (r : Request) (hnone : c = none) :
    t.OkAt (some r.toCall) := by
  subst hnone
  cases r <;> exact h

theorem Tally.OkAt.next (h : t.OkAt s.calls[tid]?) (hstep : s.step qs e = some s') :
    (t.next tid s s' e).OkAt s'.calls[tid]? := by
  cases e with
  | dispatch r =>
    obtain rfl := Option.some.inj hstep
    show t.OkAt (s.calls ++ [r.toCall])[tid]?
    rw [List.getElem?_append]
    split
    · exact h
    · rename_i hlen
      have hnone : s.calls[tid]? = none := List.getElem?_eq_none (Nat.le_of_not_lt hlen)
      -- the new call is `tid` itself, or another one
      rcases hzero : tid - s.calls.length with _ | n
      · exact h.dispatch r hnone
      · rw [hnone] at h
        exact h
  | run tid' io =>
    by_cases htid : tid' = tid
    · subst htid
      rcases hc : s.calls[tid']? with _ | c
      · simp only [Machine.step, hc] at hstep
        cases hstep
      obtain ⟨c', hadv, hc'⟩ := Machine.step_self hstep hc
      rw [hc] at h
      simp only [Tally.next, if_true, hc, hc']
      cases c with
      | write req pc =>
        obtain ⟨⟨ctx₁, pc'⟩, hsection, hres⟩ := Option.map_eq_some_iff.mp hadv
        obtain ⟨-, rfl⟩ := Prod.ext_iff.mp hres
        exact Tally.Ok.advance h hsection
      | remove path startBlock endBlock pc =>
        obtain ⟨r, -, hres⟩ := Option.map_eq_some_iff.mp hadv
        obtain ⟨-, rfl⟩ := Prod.ext_iff.mp hres
        exact h
      | unlink path res pc =>
        obtain ⟨r, -, hres⟩ := Option.map_eq_some_iff.mp hadv
        obtain ⟨-, rfl⟩ := Prod.ext_iff.mp hres
        exact h
      | truncate path size res pc =>
        obtain ⟨r, -, hres⟩ := Option.map_eq_some_iff.mp hadv
        obtain ⟨-, rfl⟩ := Prod.ext_iff.mp hres
        exact h
      | read req pc =>
        obtain ⟨r, -, hres⟩ := Option.map_eq_some_iff.mp hadv
        obtain ⟨-, rfl⟩ := Prod.ext_iff.mp hres
        exact h
    · -- a step of another call
      have hsame : s'.calls[tid]? = s.calls[tid]? := by
        simp only [Machine.step] at hstep
        split at hstep
        · cases hstep
        · obtain ⟨r, -, rfl⟩ := Option.map_eq_some_iff.mp hstep
          exact List.getElem?_set_ne htid
      simp only [Tally.next, if_neg htid]
      rw [hsame]
      exact h

omit [Sha512] in
theorem Tally.OkAt.bound {c : Option Call} (h : t.OkAt c) :
    t.pwrites ≤ 1 + t.hits + t.recycled := by
  unfold Tally.OkAt at h
  split at h
  · rename_i pc
    cases pc with
    | start => exact (show t.pwrites = 0 from h) ▸ Nat.zero_le _
    | drain plan missCount => exact h.1 ▸ Nat.zero_le _
    | append plan taken remaining => exact h.1 ▸ Nat.zero_le _
    | flush plan todo => exact (Nat.le_add_right _ _).trans h
    | _ => exact h
  · exact h ▸ Nat.zero_le _

end

/-- Over every interleaving, a `write_dedup` issues at most one `pwrite` more than it has found
    HITs and taken slots off the free list: where there are neither duplicates nor free slots, one
    `pwrite` for the whole request. -/
theorem pwrites_bounded [Sha512] (qs : Qsort) (tid : Nat) (s : Machine) :
    ((machine qs).Reachable (fun _ _ _ => True) s ↔
      ∃ t, (tallied qs tid).Reachable (fun _ _ _ => True) (s, t)) ∧
    ∀ t, (tallied qs tid).Reachable (fun _ _ _ => True) (s, t) →
      t.pwrites ≤ 1 + t.hits + t.recycled := by
  refine ⟨reachable_iff_tallied, fun t htally => ?_⟩
  have hok : t.OkAt s.calls[tid]? := by
    refine htally.invariant (I := fun st => st.2.OkAt st.1.calls[tid]?) rfl ?_
    rintro ⟨s, t⟩ e ⟨s', t'⟩ hok hstep -
    obtain ⟨s₁, hmachine, hst⟩ := Option.map_eq_some_iff.mp hstep
    obtain ⟨rfl, rfl⟩ := Prod.ext_iff.mp hst
    exact Tally.OkAt.next hok hmachine
  exact hok.bound

/-- Two blocks of zeros on `a`, which is removed while the same two blocks are written on `b`. -/
def rewritten : List Event :=
  [.dispatch (.write (.zeros pathA 0 2)), .dispatch (.unlink pathA (.ok ())),
    .dispatch (.write (.zeros pathB 0 2))] ++
  List.replicate 7 (.run 0 .complete) ++ List.replicate 3 (.run 1 .complete) ++
  List.replicate 5 (.run 2 .complete)

theorem rewritten_enabled : ((@tallied Sha512.zeroBlock .mergeSort 2).replay (fun _ _ _ => true)
    (@tallied Sha512.zeroBlock .mergeSort 2).init rewritten).isSome := by
  decide +kernel

def afterRewritten : Machine × Tally :=
  ((@tallied Sha512.zeroBlock .mergeSort 2).replay (fun _ _ _ => true)
    (@tallied Sha512.zeroBlock .mergeSort 2).init rewritten).get rewritten_enabled

theorem pwrites_bounded_of_rewritten :
    (afterRewritten.2.hits = 1 ∧ afterRewritten.2.recycled = 1 ∧ afterRewritten.2.pwrites = 1) ∧
      afterRewritten.2.pwrites ≤ 1 + afterRewritten.2.hits + afterRewritten.2.recycled := by
  have hreach : (@tallied Sha512.zeroBlock .mergeSort 2).Reachable (fun _ _ _ => True)
      afterRewritten :=
    .of_replay (fun _ _ _ _ _ => trivial) (Option.some_get rewritten_enabled).symm
  rw [← Prod.eta afterRewritten] at hreach
  exact ⟨by decide +kernel, (@pwrites_bounded Sha512.zeroBlock .mergeSort 2 _).2 _ hreach⟩

end DedupBlockFS
