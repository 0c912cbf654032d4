-- SUMMARY: What the pwrites of a flush store: one run at a time, inside the slots of the plan and nowhere else.
import DedupBlockFS.Plan

/-!
# Flushing a plan

A run is a stretch of MISSes whose slots are consecutive numbers. Its `pwrite`
takes the payloads of all of them from the buffer at once. A complete one stores
every block of the run in its slot; a short or failed one may store anything there,
but no `pwrite` reaches a slot outside its run.
-/

namespace DedupBlockFS

open ByteFile

/-- The slot holds the block `b`, all of it. -/
def Stored (master : List UInt8) (slot : Nat) (b : List UInt8) : Prop :=
  (slot + 1) * blockSize ≤ master.length ∧ blockAt master slot = b

/-- The first `k` entries of the plan are flushed. -/
def Flushed (master : List UInt8) (req : WriteRequest) (plan : List PlanEntry) (k : Nat) : Prop :=
  ∀ i e, i < k → plan[i]? = some e → e.kind = .miss → Stored master e.masterBlk (req.block i)

/-! ## Runs -/

/-- A plan without a next run has HITs only. -/
theorem nextRun_eq_none {todo : List PlanEntry} (h : nextRun todo = none) :
    ∀ e ∈ todo, e.kind = .hit := by
  induction todo with
  | nil => simp
  | cons e es ih =>
    simp only [nextRun] at h
    cases hk : e.kind with
    | hit =>
      simp only [hk] at h
      intro a ha
      rcases List.mem_cons.mp ha with rfl | ha
      · exact hk
      · exact ih h a ha
    | miss =>
      simp only [hk] at h
      cases h

theorem nextRun_of_hits {todo : List PlanEntry} (h : ∀ e ∈ todo, e.kind = .hit) :
    nextRun todo = none := by
  induction todo with
  | nil => rfl
  | cons e es ih =>
    simp only [nextRun, h e List.mem_cons_self]
    exact ih fun a ha => h a (List.mem_cons_of_mem e ha)

/-- The next run: `skip` HITs are passed over, then `runLen` MISSes follow whose slots
    are consecutive from that of `first` on. -/
theorem nextRun_eq_some {todo rest : List PlanEntry} {first : PlanEntry} {runLen : Nat}
    (h : nextRun todo = some (first, runLen, rest)) :
    0 < runLen ∧ ∃ skip, todo[skip]? = some first ∧ rest = todo.drop (skip + runLen) ∧
      skip + runLen ≤ todo.length ∧ (∀ i e, i < skip → todo[i]? = some e → e.kind = .hit) ∧
      ∀ j e, j < runLen → todo[skip + j]? = some e →
        e.kind = .miss ∧ e.masterBlk = first.masterBlk + j := by
  induction todo with
  | nil => cases h
  | cons e es ih =>
    simp only [nextRun] at h
    cases hk : e.kind with
    | hit =>
      simp only [hk] at h
      obtain ⟨hpos, skip, hfirst, hrest, hle, hskip, hrun⟩ := ih h
      refine ⟨hpos, skip + 1, ?_, ?_, ?_, fun i a hi ha => ?_, fun j a hj ha => ?_⟩
      · simpa using hfirst
      · rw [hrest, show skip + 1 + runLen = (skip + runLen) + 1 by omega, List.drop_succ_cons]
      · simp only [List.length_cons]
        omega
      · cases i with
        | zero => exact Option.some.inj ha ▸ hk
        | succ i => exact hskip i a (by omega) (by simpa using ha)
      · rw [show skip + 1 + j = (skip + j) + 1 by omega, List.getElem?_cons_succ] at ha
        exact hrun j a hj ha
    | miss =>
      simp only [hk, Option.some.injEq, Prod.mk.injEq] at h
      obtain ⟨rfl, rfl, rfl⟩ := h
      have hle : Runs.runLength PlanEntry.missSlot e.masterBlk es ≤ es.length :=
        Runs.runLength_le _ _
      refine ⟨Nat.succ_pos _, 0, rfl, ?_, ?_, fun i a hi => absurd hi (Nat.not_lt_zero i),
        fun j a hj ha => ?_⟩
      · simp
      · simp only [List.length_cons]
        omega
      · cases j with
        | zero =>
          obtain rfl : e = a := by simpa using ha
          exact ⟨hk, rfl⟩
        | succ j =>
          have hlt : j < Runs.runLength PlanEntry.missSlot e.masterBlk es := by omega
          have hpos := Runs.pos_of_lt_runLength hlt (by simpa using ha)
          unfold PlanEntry.missSlot at hpos
          split at hpos
          · cases hpos
          · rename_i hmiss
            refine ⟨hmiss, ?_⟩
            rw [Option.some.inj hpos]
            omega

/-! ## One pwrite -/

section
variable {master buf : List UInt8} {first : PlanEntry} {runLen s : Nat} {r : PwriteResult}
  {b : List UInt8}

theorem length_le_writeRun : master.length ≤ (writeRun master buf first runLen r).1.length :=
  length_le_length_pwrite _ _ _

/-- A `pwrite` leaves the slots outside its run alone, whatever its result. -/
theorem writeRun_outside (h : Stored master s b)
    (hs : s < first.masterBlk ∨ first.masterBlk + runLen ≤ s) :
    Stored (writeRun master buf first runLen r).1 s b := by
  obtain ⟨hfile, hblock⟩ := h
  refine ⟨hfile.trans length_le_writeRun, ?_⟩
  have hcount := r.count_le (runLen * blockSize)
  rw [← hblock]
  refine pread_pwrite_outside (by rw [Nat.succ_mul] at hfile; exact hfile) ?_
  have hlen : ((pread buf first.payload (runLen * blockSize)).take
      (r.count (runLen * blockSize))).length ≤ runLen * blockSize := by
    rw [List.length_take]
    omega
  rcases hs with hs | hs
  · left
    rw [← Nat.succ_mul]
    exact Nat.mul_le_mul_right _ hs
  · right
    have := Nat.mul_le_mul_right blockSize hs
    rw [Nat.add_mul] at this
    omega

/-- A complete `pwrite` stores each block of its run. -/
theorem writeRun_inside (hret : (writeRun master buf first runLen r).2 = (runLen * blockSize : Nat))
    (hbuf : first.payload + runLen * blockSize ≤ buf.length) {j : Nat} (hj : j < runLen) :
    Stored (writeRun master buf first runLen r).1 (first.masterBlk + j)
      (pread buf (first.payload + j * blockSize) blockSize) := by
  have hlen : (pread buf first.payload (runLen * blockSize)).length = runLen * blockSize :=
    length_pread_of_le hbuf
  have hdata : (pread buf first.payload (runLen * blockSize)).take
      (r.count (runLen * blockSize)) = pread buf first.payload (runLen * blockSize) := by
    rw [PwriteResult.count_of_ret hret, List.take_of_length_le hlen.le]
  have hfit : (j + 1) * blockSize ≤ runLen * blockSize := Nat.mul_le_mul_right _ hj
  have hpos : 0 < blockSize := by decide
  rw [Nat.succ_mul] at hfit
  have hne : pread buf first.payload (runLen * blockSize) ≠ [] := by
    intro hnil
    rw [hnil, List.length_nil] at hlen
    omega
  simp only [writeRun, hdata]
  constructor
  · rw [length_pwrite, if_neg hne, hlen, Nat.add_right_comm, Nat.add_mul, Nat.add_mul]
    omega
  · rw [blockAt, Nat.add_mul, pread_pwrite_inside hne (by omega), pread_pread hfit]

end

/-! ## Steps of the flush -/

section
variable [Sha512]
variable {ix : Index} {hp : Heap} {req : WriteRequest} {plan rest : List PlanEntry}
  {master : List UInt8} {k : Nat} {first : PlanEntry} {runLen : Nat} {r : PwriteResult}

/-- Two MISSes in one slot are the same entry. -/
theorem PlanOk.slot_inj (hplan : PlanOk ix hp req plan) (hnodup : (missSlots plan).Nodup)
    {i i' : Nat} {e e' : PlanEntry} (he : plan[i]? = some e) (hk : e.kind = .miss)
    (he' : plan[i']? = some e') (hk' : e'.kind = .miss) (hslot : e.masterBlk = e'.masterBlk) :
    i = i' := by
  have hmem := List.mem_of_getElem? he
  have hmem' := List.mem_of_getElem? he'
  have heq : e = e' := List.inj_on_of_nodup_map (Multiset.coe_nodup.mp hnodup)
    (by simp [hmem, hk]) (by simp [hmem', hk']) hslot
  have hi := (hplan.entries i e he).logicalBlk
  have hi' := (hplan.entries i' e' he').logicalBlk
  rw [heq] at hi
  omega

omit [Sha512] in
/-- The slots of the next run belong to the plan. -/
theorem nextRun_slots (h : nextRun (plan.drop k) = some (first, runLen, rest)) {j : Nat}
    (hj : j < runLen) :
    ∃ i e, k ≤ i ∧ plan[i]? = some e ∧ e.kind = .miss ∧ e.masterBlk = first.masterBlk + j := by
  obtain ⟨-, skip, -, -, hle, -, hrun⟩ := nextRun_eq_some h
  rw [List.length_drop] at hle
  have hi : k + (skip + j) < plan.length := by omega
  refine ⟨k + (skip + j), plan[k + (skip + j)], by omega, List.getElem?_eq_getElem hi, ?_⟩
  exact hrun j _ hj (by rw [List.getElem?_drop, List.getElem?_eq_getElem hi])

omit [Sha512] in
/-- A slot of nobody in this plan keeps its block over a `pwrite` of the plan. -/
theorem writeRun_frame (h : nextRun (plan.drop k) = some (first, runLen, rest)) {s : Nat}
    {b : List UInt8} (hs : s ∉ missSlots plan) (hstored : Stored master s b) :
    Stored (writeRun master req.buf first runLen r).1 s b := by
  refine writeRun_outside hstored ?_
  by_contra hnot
  rw [not_or, not_lt, not_le] at hnot
  obtain ⟨i, e, -, he, hk, hslot⟩ := nextRun_slots h (show s - first.masterBlk < runLen by omega)
  exact hs (mem_missSlots.mpr ⟨e, List.mem_of_getElem? he, hk, by omega⟩)

/-- A complete `pwrite` of the next run flushes all entries up to its end. -/
theorem Flushed.writeRun (hplan : PlanOk ix hp req plan) (hlen : plan.length = req.numBlocks)
    (hsize : req.size = req.numBlocks * blockSize) (hnodup : (missSlots plan).Nodup)
    (hflushed : Flushed master req plan k)
    (h : nextRun (plan.drop k) = some (first, runLen, rest))
    (hret : (writeRun master req.buf first runLen r).2 = (runLen * blockSize : Nat)) :
    ∃ k', rest = plan.drop k' ∧ Flushed (writeRun master req.buf first runLen r).1 req plan k' := by
  obtain ⟨-, skip, hfirst, hrest, hle, hskip, hrun⟩ := nextRun_eq_some h
  rw [List.length_drop] at hle
  rw [List.getElem?_drop] at hfirst
  refine ⟨k + (skip + runLen), by rw [hrest, List.drop_drop], fun i e hi he hk => ?_⟩
  by_cases hold : i < k
  · -- flushed before: its slot is not one of this run
    refine writeRun_outside (hflushed i e hold he hk) ?_
    by_contra hnot
    rw [not_or, not_lt, not_le] at hnot
    obtain ⟨i', e', hge, he', hk', hslot⟩ :=
      nextRun_slots h (show e.masterBlk - first.masterBlk < runLen by omega)
    have := hplan.slot_inj hnodup he hk he' hk' (by omega)
    omega
  · by_cases hinrun : i < k + skip
    · have hhit := hskip (i - k) e (by omega)
        (by rw [List.getElem?_drop, show k + (i - k) = i by omega]; exact he)
      rw [hk] at hhit
      cases hhit
    · obtain ⟨j, rfl⟩ : ∃ j, i = k + skip + j := ⟨i - (k + skip), by omega⟩
      obtain ⟨-, hslot⟩ := hrun j e (by omega)
        (by rw [List.getElem?_drop, ← Nat.add_assoc]; exact he)
      have hpayload := (hplan.entries _ _ hfirst).payload
      have hend : (k + skip + runLen) * blockSize ≤ req.size := by
        rw [hsize]
        exact Nat.mul_le_mul_right _ (by omega)
      have hstored := writeRun_inside hret
        (by rw [hpayload, ← Nat.add_mul, req.size_eq]; exact hend) (show j < runLen by omega)
      rwa [← hslot, hpayload, ← Nat.add_mul] at hstored

omit [Sha512] in
/-- When no run is left, everything is flushed. -/
theorem Flushed.complete (hflushed : Flushed master req plan k)
    (h : nextRun (plan.drop k) = none) : Flushed master req plan plan.length := by
  intro i e _ he hk
  by_cases hi : i < k
  · exact hflushed i e hi he hk
  · have hmem : e ∈ plan.drop k := by
      refine List.mem_of_getElem? (i := i - k) ?_
      rw [List.getElem?_drop, show k + (i - k) = i by omega]
      exact he
    rw [nextRun_eq_none h e hmem] at hk
    cases hk

end

/-! ## The system calls of a flush -/

/-- The runs of a plan, first entry and length, in the order of their `pwrite`s. -/
def planRuns (plan : List PlanEntry) : List (PlanEntry × Nat) :=
  match _h : nextRun plan with
  | none => []
  | some (first, runLen, rest) => (first, runLen) :: planRuns rest
termination_by plan.length
decreasing_by exact nextRun_length ‹_›

theorem planRuns_of_none {plan : List PlanEntry} (h : nextRun plan = none) : planRuns plan = [] := by
  rw [planRuns]
  split
  · rfl
  · rename_i hrun
    rw [h] at hrun
    cases hrun

theorem planRuns_of_some {plan rest : List PlanEntry} {first : PlanEntry} {runLen : Nat}
    (h : nextRun plan = some (first, runLen, rest)) :
    planRuns plan = (first, runLen) :: planRuns rest := by
  rw [planRuns]
  split
  · rename_i hrun
    rw [h] at hrun
    cases hrun
  · rename_i hrun
    rw [h] at hrun
    obtain ⟨rfl, rfl, rfl⟩ := by simpa using hrun
    rfl

/-- The conversion to `int` keeps the remainder of a division into blocks. -/
theorem cInt_emod (n : Nat) : cInt n % 4096 = (n : Int) % 4096 := by
  have hdvd : (4096 : Int) ∣ ((4294967296 : Nat) : Int) := by omega
  have hcInt : cInt n = Int.bmod n 4294967296 := rfl
  rw [hcInt, ← Int.emod_emod_of_dvd _ hdvd, Int.bmod_emod, Int.emod_emod_of_dvd _ hdvd]

/-- What fits an `int` is not changed. -/
theorem cInt_of_lt {n : Nat} (h : n < 2 ^ 31) : cInt n = n := by
  have hcInt : cInt n = Int.bmod n 4294967296 := rfl
  have h31 : n < 2147483648 := h
  rw [hcInt]
  clear hcInt h
  exact Int.bmod_eq_of_le (by omega) (by omega)

/-- A return value that is the negative of an error number. -/
def IsErrno (ret : Int) : Prop := -4096 < ret ∧ ret < 0

theorem isErrno_neg (e : Errno) : IsErrno (Errno.neg e) := by
  have := e.pos
  have := e.lt
  simp only [IsErrno, Errno.neg]
  omega

theorem isErrno_flushError (r : PwriteResult) : IsErrno (flushError r) := by
  cases r <;> exact isErrno_neg _

/-- No error is taken for a number of whole blocks, not even for one that does not fit
    an `int`. -/
theorem IsErrno.ne_cInt {ret : Int} (h : IsErrno ret) {size : Nat} (hsize : size % blockSize = 0) :
    ret ≠ cInt size := by
  intro heq
  obtain ⟨hgt, hlt⟩ := h
  have hmod : ret % 4096 = (size : Int) % 4096 := heq ▸ cInt_emod size
  have hblocks : size % 4096 = 0 := hsize
  clear hsize heq
  omega

/-- `flush_plan` returns 0 if all its `pwrite`s are complete, and a negative error
    otherwise. -/
theorem flushPlan_ret (master buf : List UInt8) (io : Nat → PwriteResult) (k : Nat)
    (plan : List PlanEntry) :
    ((flushPlan master buf io k plan).2 = 0 ∧
      ∀ j run, (planRuns plan)[j]? = some run →
        (io (k + j)).ret (run.2 * blockSize) = (run.2 * blockSize : Nat)) ∨
    (IsErrno (flushPlan master buf io k plan).2 ∧
      ∃ j run, (planRuns plan)[j]? = some run ∧
        (io (k + j)).ret (run.2 * blockSize) ≠ (run.2 * blockSize : Nat)) := by
  fun_induction flushPlan master buf io k plan with
  | case1 =>
    rename_i hnone
    exact .inl ⟨rfl, fun j run hj => by rw [planRuns_of_none hnone] at hj; cases hj⟩
  | case2 =>
    rename_i k _ _ runLen _ hsome _ hwrite ih
    have hret : (io k).ret (runLen * blockSize) = (runLen * blockSize : Nat) :=
      congrArg Prod.snd hwrite
    rw [planRuns_of_some hsome]
    rcases ih with ⟨hzero, hall⟩ | ⟨hneg, j, run, hj, hfail⟩
    · refine .inl ⟨hzero, fun j run hj => ?_⟩
      cases j with
      | zero => exact Option.some.inj hj ▸ hret
      | succ j => simpa only [Nat.add_assoc, Nat.add_comm 1] using hall j run hj
    · exact .inr ⟨hneg, j + 1, run, hj, by simpa only [Nat.add_assoc, Nat.add_comm 1] using hfail⟩
  | case3 =>
    rename_i k _ first runLen _ hsome _ written hwrite hret
    have hwritten : (io k).ret (runLen * blockSize) = written := congrArg Prod.snd hwrite
    rw [planRuns_of_some hsome]
    exact .inr ⟨isErrno_flushError _, 0, (first, runLen), rfl, hwritten ▸ hret⟩

end DedupBlockFS
