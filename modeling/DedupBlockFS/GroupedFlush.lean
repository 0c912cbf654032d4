-- SUMMARY: Flushing run by run has the effect of flushing block by block, for every plan and all results of the system calls.
import DedupBlockFS.Flush
import Mathlib.Data.List.Induction

/-!
# Grouped flushing

`flush_plan` writes a whole run of MISSes with one `pwrite`. That is the same as one
`pwrite` for each MISS, because the payloads of a plan follow one another in the buffer
(`LaidOut`). Nothing is assumed about the slots: they may repeat, recycled slots may
happen to follow one another, and HITs carry any slot at all.
-/

namespace DedupBlockFS

open ByteFile

/-! ## One block at a time -/

/-- The `pwrite` of a single MISS. -/
def writeMiss (buf master : List UInt8) (e : PlanEntry) : List UInt8 :=
  match e.kind with
  | .hit => master
  | .miss => pwrite master (e.masterBlk * blockSize) (pread buf e.payload blockSize)

/-- The MISSes of the plan, one after the other. -/
def writeMisses (buf master : List UInt8) (plan : List PlanEntry) : List UInt8 :=
  plan.foldl (writeMiss buf) master

/-- The payloads of the plan are the blocks of the buffer from the `i`-th on. -/
structure LaidOut (buf : List UInt8) (i : Nat) (plan : List PlanEntry) : Prop where
  payload : ∀ j e, plan[j]? = some e → e.payload = (i + j) * blockSize
  room : (i + plan.length) * blockSize ≤ buf.length

section
variable {buf master : List UInt8} {i k n : Nat} {e first : PlanEntry}
  {plan es todo rest : List PlanEntry} {runLen : Nat} {r : PwriteResult}

theorem LaidOut.drop (h : LaidOut buf i plan) (hn : n ≤ plan.length) :
    LaidOut buf (i + n) (plan.drop n) where
  payload j e he := by
    rw [List.getElem?_drop] at he
    rw [h.payload _ e he, Nat.add_assoc]
  room := by
    rw [List.length_drop, show i + n + (plan.length - n) = i + plan.length by omega]
    exact h.room

theorem LaidOut.of_isPrefix (h : LaidOut buf i plan) (hes : es <+: plan) : LaidOut buf i es := by
  obtain ⟨more, rfl⟩ := hes
  have hroom := h.room
  rw [List.length_append] at hroom
  refine ⟨fun j e he => h.payload j e ?_, (Nat.mul_le_mul_right _ (by omega)).trans hroom⟩
  rw [List.getElem?_append_left (List.getElem?_eq_some_iff.mp he).1]
  exact he

/-- Every payload lies inside the buffer. -/
theorem LaidOut.inside (h : LaidOut buf i plan) (he : e ∈ plan) :
    e.payload + blockSize ≤ buf.length := by
  obtain ⟨j, hj⟩ := List.mem_iff_getElem?.mp he
  have hlt := (List.getElem?_eq_some_iff.mp hj).1
  have hfit := Nat.mul_le_mul_right blockSize (show i + j + 1 ≤ i + plan.length by omega)
  rw [h.payload j e hj, ← Nat.succ_mul]
  exact hfit.trans h.room

theorem writeMisses_append (es es' : List PlanEntry) :
    writeMisses buf master (es ++ es') = writeMisses buf (writeMisses buf master es) es' :=
  List.foldl_append

theorem writeMisses_of_hits (h : ∀ e ∈ es, e.kind = .hit) : writeMisses buf master es = master := by
  induction es with
  | nil => rfl
  | cons e es ih =>
    have he : writeMiss buf master e = master := by
      simp only [writeMiss, h e List.mem_cons_self]
    show writeMisses buf (writeMiss buf master e) es = master
    rw [he]
    exact ih fun a ha => h a (List.mem_cons_of_mem e ha)

/-- MISSes with consecutive payloads and consecutive slots, one after the other. -/
theorem writeMisses_of_run {s : Nat} (hlaid : LaidOut buf i es)
    (hrun : ∀ j e, es[j]? = some e → e.kind = .miss ∧ e.masterBlk = s + j) :
    writeMisses buf master es =
      pwrite master (s * blockSize) (pread buf (i * blockSize) (es.length * blockSize)) := by
  induction es using List.reverseRecOn with
  | nil =>
    rw [List.length_nil, Nat.zero_mul, pread, List.take_zero, pwrite, if_pos rfl]
    rfl
  | append_singleton es e ih =>
    have hlast : (es ++ [e])[es.length]? = some e := by simp
    obtain ⟨hmiss, hslot⟩ := hrun _ e hlast
    have hpayload := hlaid.payload _ e hlast
    have hroom := hlaid.room
    rw [List.length_append, List.length_singleton] at hroom
    have hbody := ih (hlaid.of_isPrefix (List.prefix_append es [e]))
      fun j a ha => hrun j a ((List.getElem?_append_left
        (List.getElem?_eq_some_iff.mp ha).1).trans ha)
    have hlen : (pread buf (i * blockSize) (es.length * blockSize)).length =
        es.length * blockSize := by
      apply length_pread_of_le
      rw [← Nat.add_mul]
      exact (Nat.mul_le_mul_right _ (by omega)).trans hroom
    have hone : writeMiss buf (writeMisses buf master es) e = pwrite (writeMisses buf master es)
        (e.masterBlk * blockSize) (pread buf e.payload blockSize) := by
      simp only [writeMiss, hmiss]
    rw [writeMisses_append]
    show writeMiss buf (writeMisses buf master es) e = _
    rw [hone, hbody, hslot, hpayload, List.length_append, List.length_singleton, Nat.add_mul,
      Nat.add_mul, Nat.add_mul, Nat.one_mul, pread_add, pwrite_append, hlen]

/-! ## Runs -/

/-- The next run cut out of the plan: HITs, then MISSes in consecutive slots. -/
theorem nextRun_split (h : nextRun todo = some (first, runLen, rest)) :
    ∃ hits run, todo = hits ++ (run ++ rest) ∧ (∀ e ∈ hits, e.kind = .hit) ∧
      run.length = runLen ∧ run.head? = some first ∧
      ∀ j e, run[j]? = some e → e.kind = .miss ∧ e.masterBlk = first.masterBlk + j := by
  obtain ⟨hpos, skip, hfirst, hrest, hle, hskip, hrun⟩ := nextRun_eq_some h
  refine ⟨todo.take skip, (todo.drop skip).take runLen, ?_, ?_, ?_, ?_, ?_⟩
  · rw [hrest, ← List.drop_drop, List.take_append_drop, List.take_append_drop]
  · intro e he
    obtain ⟨j, hj⟩ := List.mem_iff_getElem?.mp he
    rw [List.getElem?_take] at hj
    split at hj
    · exact hskip j e ‹_› hj
    · cases hj
  · rw [List.length_take, List.length_drop]
    omega
  · rw [List.head?_take, if_neg (by omega), List.head?_drop]
    exact hfirst
  · intro j e he
    rw [List.getElem?_take] at he
    split at he
    · rw [List.getElem?_drop] at he
      exact hrun j e ‹_› he
    · cases he

/-- Writing the next run is writing its MISSes one after the other. -/
theorem writeRun_eq_writeMisses (hlaid : LaidOut buf i todo)
    (h : nextRun todo = some (first, runLen, rest))
    (hret : (writeRun master buf first runLen r).2 = (runLen * blockSize : Nat)) :
    ∃ n ≤ todo.length, rest = todo.drop n ∧
      (writeRun master buf first runLen r).1 = writeMisses buf master (todo.take n) := by
  obtain ⟨hits, run, htodo, hhits, hlen, hhead, hrun⟩ := nextRun_split h
  have hdrop : todo.drop hits.length = run ++ rest := by rw [htodo, List.drop_left]
  have hlaid' := hlaid.drop (n := hits.length) (by rw [htodo, List.length_append]; omega)
  rw [hdrop] at hlaid'
  have hlaidRun : LaidOut buf (i + hits.length) run :=
    hlaid'.of_isPrefix (List.prefix_append run rest)
  have hpayload : first.payload = (i + hits.length) * blockSize := by
    have hfirst : run[0]? = some first := by rw [← List.head?_eq_getElem?]; exact hhead
    exact hlaidRun.payload 0 first hfirst
  refine ⟨(hits ++ run).length, ?_, ?_, ?_⟩
  · rw [htodo, ← List.append_assoc]
    exact (List.sublist_append_left _ _).length_le
  · rw [htodo, ← List.append_assoc, List.drop_left]
  · rw [htodo, ← List.append_assoc, List.take_left, writeMisses_append, writeMisses_of_hits hhits,
      writeMisses_of_run hlaidRun hrun, hlen, ← hpayload]
    have hcount := PwriteResult.count_of_ret hret
    simp only [writeRun, hcount]
    rw [List.take_of_length_le]
    rw [length_pread]
    exact Nat.min_le_left _ _

variable (master k) in
/-- What a flush has done when it returns: all MISSes, or all in front of some run and a
    part of that run. -/
theorem flushPlan_cases (io : Nat → PwriteResult) (hlaid : LaidOut buf i plan) :
    ((flushPlan master buf io k plan).2 = 0 ∧
      (flushPlan master buf io k plan).1 = writeMisses buf master plan) ∨
    ∃ n ≤ plan.length, ∃ j first runLen rest,
      nextRun (plan.drop n) = some (first, runLen, rest) ∧
      (planRuns plan)[j]? = some (first, runLen) ∧
      (io (k + j)).ret (runLen * blockSize) ≠ (runLen * blockSize : Nat) ∧
      (flushPlan master buf io k plan).2 = flushError (io (k + j)) ∧
      (flushPlan master buf io k plan).1 =
        (writeRun (writeMisses buf master (plan.take n)) buf first runLen (io (k + j))).1 := by
  fun_induction flushPlan master buf io k plan generalizing i with
  | case1 =>
    rename_i hnone
    exact .inl ⟨rfl, (writeMisses_of_hits (nextRun_eq_none hnone)).symm⟩
  | case2 =>
    rename_i master k plan first runLen rest hsome master' hwrite ih
    have hret : (writeRun master buf first runLen (io k)).2 = (runLen * blockSize : Nat) :=
      congrArg Prod.snd hwrite
    obtain ⟨n, hn, rfl, heq⟩ := writeRun_eq_writeMisses hlaid hsome hret
    obtain rfl : master' = writeMisses buf master (plan.take n) :=
      (congrArg Prod.fst hwrite).symm.trans heq
    rcases ih (hlaid.drop hn) with ⟨hzero, hall⟩ |
      ⟨n', hn', j, first', runLen', rest', hnext, hrunAt, hshort, hret', hmaster⟩
    · left
      refine ⟨hzero, hall.trans ?_⟩
      rw [← writeMisses_append, List.take_append_drop]
    · right
      rw [List.length_drop] at hn'
      refine ⟨n + n', by omega, j + 1, first', runLen', rest', ?_, ?_, ?_, ?_, ?_⟩
      · rwa [← List.drop_drop]
      · rw [planRuns_of_some hsome]
        exact hrunAt
      · rwa [show k + (j + 1) = k + 1 + j by omega]
      · rw [hret', show k + (j + 1) = k + 1 + j by omega]
      · rw [hmaster, ← writeMisses_append, ← List.take_add, show k + (j + 1) = k + 1 + j by omega]
  | case3 =>
    rename_i master k plan first runLen rest hsome master' written hwrite hret
    right
    have hwritten : (io k).ret (runLen * blockSize) = written := congrArg Prod.snd hwrite
    refine ⟨0, Nat.zero_le _, 0, first, runLen, rest, hsome, ?_, ?_, rfl, ?_⟩
    · rw [planRuns_of_some hsome]
      rfl
    · rw [Nat.add_zero, hwritten]
      exact hret
    · exact (congrArg Prod.fst hwrite).symm

/-! ## What stays outside the slots of the plan -/

theorem div_blockSize_of_mem {p s : Nat} (hge : s * blockSize ≤ p)
    (hlt : p < s * blockSize + blockSize) : p / blockSize = s :=
  Nat.div_eq_of_lt_le hge (by rwa [Nat.succ_mul])

/-- No byte outside the slots of the MISSes changes. -/
theorem byteAt_writeMisses {p : Nat} (hp : p / blockSize ∉ missSlots plan) :
    byteAt (writeMisses buf master plan) p = byteAt master p := by
  induction plan generalizing master with
  | nil => rfl
  | cons e es ih =>
    show byteAt (writeMisses buf (writeMiss buf master e) es) p = _
    cases hk : e.kind with
    | hit =>
      rw [missSlots_cons_hit hk] at hp
      rw [ih hp]
      simp only [writeMiss, hk]
    | miss =>
      rw [missSlots_cons_miss hk, Multiset.mem_cons, not_or] at hp
      rw [ih hp.2]
      simp only [writeMiss, hk]
      rw [byteAt_pwrite, if_neg]
      rintro ⟨hge, hlt⟩
      have hle : (pread buf e.payload blockSize).length ≤ blockSize := by
        rw [length_pread]
        exact Nat.min_le_left _ _
      exact hp.1 (div_blockSize_of_mem hge (by omega))

/-- A run writes into the slots of its MISSes only, whatever its result. -/
theorem byteAt_writeRun {p : Nat} (h : nextRun (plan.drop n) = some (first, runLen, rest))
    (hp : p / blockSize ∉ missSlots plan) :
    byteAt (writeRun master buf first runLen r).1 p = byteAt master p := by
  simp only [writeRun]
  rw [byteAt_pwrite, if_neg]
  rintro ⟨hge, hlt⟩
  have hle : ((pread buf first.payload (runLen * blockSize)).take
      (r.count (runLen * blockSize))).length ≤ runLen * blockSize := by
    rw [List.length_take, length_pread]
    omega
  have hslot : first.masterBlk ≤ p / blockSize := (Nat.le_div_iff_mul_le (by decide)).mpr hge
  have hend : p / blockSize < first.masterBlk + runLen := by
    rw [Nat.div_lt_iff_lt_mul (by decide), Nat.add_mul]
    omega
  have hinside : p / blockSize - first.masterBlk < runLen := by omega
  obtain ⟨i, e, -, he, hk, hslot'⟩ := nextRun_slots h hinside
  exact hp (mem_missSlots.mpr ⟨e, List.mem_of_getElem? he, hk, by omega⟩)

variable (master) in
/-- If no slot occurs twice, every MISS has its block in its slot. -/
theorem stored_writeMisses (hlaid : LaidOut buf i plan) (hnodup : (missSlots plan).Nodup)
    (he : e ∈ plan) (hk : e.kind = .miss) :
    Stored (writeMisses buf master plan) e.masterBlk (pread buf e.payload blockSize) := by
  induction plan using List.reverseRecOn with
  | nil => cases he
  | append_singleton es a ih =>
    have hroom := hlaid.room
    rw [List.length_append, List.length_singleton] at hroom
    have hlaidBody : LaidOut buf i es := hlaid.of_isPrefix (List.prefix_append es [a])
    rw [missSlots_append, Multiset.nodup_add] at hnodup
    rw [writeMisses_append]
    show Stored (writeMiss buf (writeMisses buf master es) a) _ _
    cases hka : a.kind with
    | hit =>
      simp only [writeMiss, hka]
      refine ih hlaidBody hnodup.1 ?_
      rcases List.mem_append.mp he with he | he
      · exact he
      · rw [List.mem_singleton.mp he, hka] at hk
        cases hk
    | miss =>
      have hpayload := hlaid.payload es.length a (by simp)
      have hfit : a.payload + 1 * blockSize ≤ buf.length := by
        rw [hpayload, ← Nat.add_mul]
        exact hroom
      have hone : writeMiss buf (writeMisses buf master es) a =
          (writeRun (writeMisses buf master es) buf a 1 .complete).1 := by
        simp only [writeMiss, hka, writeRun, PwriteResult.count, Nat.one_mul]
        rw [List.take_of_length_le]
        rw [length_pread]
        exact Nat.min_le_left _ _
      rw [hone]
      rcases List.mem_append.mp he with he | he
      · apply writeRun_outside (ih hlaidBody hnodup.1 he)
        have hne : e.masterBlk ≠ a.masterBlk := by
          intro heq
          exact Multiset.disjoint_left.mp hnodup.2.2 (mem_missSlots.mpr ⟨e, he, hk, rfl⟩)
            (mem_missSlots.mpr ⟨a, List.mem_singleton_self a, hka, heq.symm⟩)
        omega
      · rw [List.mem_singleton.mp he]
        have hstored : Stored (writeRun (writeMisses buf master es) buf a 1 .complete).1
            (a.masterBlk + 0) (pread buf (a.payload + 0 * blockSize) blockSize) :=
          writeRun_inside rfl hfit Nat.zero_lt_one
        rwa [Nat.add_zero, Nat.zero_mul, Nat.add_zero] at hstored

variable (master r) in
/-- They keep it when the next run is written, whatever its result. -/
theorem stored_in_front (hlaid : LaidOut buf i plan) (hnodup : (missSlots plan).Nodup)
    (hnext : nextRun (plan.drop n) = some (first, runLen, rest)) (he : e ∈ plan.take n)
    (hk : e.kind = .miss) :
    Stored (writeRun (writeMisses buf master (plan.take n)) buf first runLen r).1 e.masterBlk
      (pread buf e.payload blockSize) := by
  rw [← List.take_append_drop n plan, missSlots_append, Multiset.nodup_add] at hnodup
  have hstored := stored_writeMisses master (hlaid.of_isPrefix (List.take_prefix n plan)) hnodup.1
    he hk
  apply writeRun_outside hstored
  by_contra hnot
  rw [not_or, not_lt, not_le] at hnot
  have hinside : e.masterBlk - first.masterBlk < runLen := by omega
  have hnext₀ : nextRun ((plan.drop n).drop 0) = some (first, runLen, rest) := by
    rwa [List.drop_zero]
  obtain ⟨j, a, -, ha, hka, hslot⟩ := nextRun_slots hnext₀ hinside
  exact Multiset.disjoint_left.mp hnodup.2.2 (mem_missSlots.mpr ⟨e, he, hk, rfl⟩)
    (mem_missSlots.mpr ⟨a, List.mem_of_getElem? ha, hka, by omega⟩)

/-! ## HITs are not looked at -/

/-- The entry without the slot it should not have. -/
def PlanEntry.withoutHitSlot (e : PlanEntry) : PlanEntry :=
  match e.kind with
  | .hit => { e with masterBlk := 0 }
  | .miss => e

theorem missSlot_withoutHitSlot (e : PlanEntry) : e.withoutHitSlot.missSlot = e.missSlot := by
  obtain ⟨kind, _, _, _, _, _⟩ := e
  cases kind <;> rfl

theorem nextRun_withoutHitSlots (plan : List PlanEntry) :
    nextRun (plan.map PlanEntry.withoutHitSlot) =
      (nextRun plan).map fun r => (r.1, r.2.1, r.2.2.map PlanEntry.withoutHitSlot) := by
  induction plan with
  | nil => rfl
  | cons e es ih =>
    obtain ⟨kind, logicalBlk, masterBlk, payload, hash, info⟩ := e
    cases kind with
    | hit => exact ih
    | miss =>
      simp only [List.map_cons, nextRun, PlanEntry.withoutHitSlot, Option.map_some]
      rw [Runs.runLength_map, funext missSlot_withoutHitSlot, List.map_drop]

/-- `flush_plan` does not depend on `master_blk` of a HIT. -/
theorem flushPlan_withoutHitSlots (io : Nat → PwriteResult) :
    flushPlan master buf io k (plan.map PlanEntry.withoutHitSlot) =
      flushPlan master buf io k plan := by
  fun_induction flushPlan master buf io k plan with
  | case1 =>
    rename_i hnone
    rw [flushPlan]
    split
    · rfl
    · rename_i hsome
      rw [nextRun_withoutHitSlots, hnone] at hsome
      cases hsome
  | case2 =>
    rename_i hsome _ hwrite ih
    rw [flushPlan]
    split
    · rename_i hnone
      rw [nextRun_withoutHitSlots, hsome] at hnone
      cases hnone
    · rename_i hsome'
      rw [nextRun_withoutHitSlots, hsome] at hsome'
      cases hsome'
      simp only [hwrite, if_pos]
      exact ih
  | case3 =>
    rename_i hsome _ _ hwrite hret
    rw [flushPlan]
    split
    · rename_i hnone
      rw [nextRun_withoutHitSlots, hsome] at hnone
      cases hnone
    · rename_i hsome'
      rw [nextRun_withoutHitSlots, hsome] at hsome'
      cases hsome'
      simp only [hwrite, if_neg hret]

/-! ## The buffer of the request -/

/-- Every `pwrite` reads inside the buffer. -/
theorem planRuns_inside (hlaid : LaidOut buf i plan) :
    ∀ run ∈ planRuns plan, run.1.payload + run.2 * blockSize ≤ buf.length := by
  induction hn : plan.length using Nat.strong_induction_on generalizing plan i with
  | _ m ih =>
    intro run hmem
    cases hnext : nextRun plan with
    | none =>
      rw [planRuns_of_none hnext] at hmem
      cases hmem
    | some r =>
      obtain ⟨first, runLen, rest⟩ := r
      obtain ⟨-, skip, hfirst, hrest, hle, -, -⟩ := nextRun_eq_some hnext
      rw [planRuns_of_some hnext] at hmem
      rcases List.mem_cons.mp hmem with rfl | hmem
      · dsimp only
        rw [hlaid.payload skip first hfirst, ← Nat.add_mul]
        exact (Nat.mul_le_mul_right _ (by omega)).trans hlaid.room
      · have hlaid' := hlaid.drop hle
        rw [← hrest] at hlaid'
        exact ih rest.length (hn ▸ nextRun_length hnext) hlaid' rfl run hmem

end

section
variable [Sha512]

theorem pass1_payload (ix : Index) (hp : Heap) (buf : List UInt8) (startBlock n : Nat) :
    (pass1 ix hp buf startBlock n).plan.map PlanEntry.payload =
      (List.range n).map (· * blockSize) := by
  induction n with
  | zero => rfl
  | succ n ih =>
    have hsucc : pass1 ix hp buf startBlock (n + 1) =
        pass1Block ix buf startBlock (pass1 ix hp buf startBlock n) n := by
      simp [pass1, List.range_succ]
    rw [hsucc, List.range_succ, List.map_append, ← ih]
    simp only [pass1Block]
    split <;> simp

/-- The plan of pass 1, its MISSes with the slots `slots`. -/
def planWithSlots (ctx : Context) (req : WriteRequest) (slots : List Nat) : List PlanEntry :=
  let p := pass1 ctx.index ctx.heap req.buf req.startBlock req.numBlocks
  (assignSlots p.heap p.plan slots).2

omit [Sha512] in
theorem allocateBatchStorageFirst_heap (ctx : Context) (missCount : Nat) :
    (allocateBatchStorageFirst ctx missCount).1.heap = ctx.heap := by
  simp only [allocateBatchStorageFirst]
  split <;> rfl

/-- The plan that `write_dedup` flushes is one of these. -/
theorem prepareWrite_plan (ctx : Context) (req : WriteRequest)
    (h : 0 < (prepareWrite ctx req).2.2) :
    ∃ slots, (prepareWrite ctx req).2.1 = planWithSlots ctx req slots := by
  simp only [prepareWrite] at h ⊢
  split
  · dsimp only
    rw [allocateBatchStorageFirst_heap]
    exact ⟨_, rfl⟩
  · rename_i hmiss
    rw [if_neg hmiss] at h
    exact absurd h hmiss

theorem laidOut_planWithSlots (ctx : Context) (req : WriteRequest) (slots : List Nat) :
    LaidOut req.buf 0 (planWithSlots ctx req slots) := by
  set p := pass1 ctx.index ctx.heap req.buf req.startBlock req.numBlocks with hp
  have hpayload : p.plan.map PlanEntry.payload = (List.range req.numBlocks).map (· * blockSize) :=
    pass1_payload ..
  have hlen : p.plan.length = req.numBlocks := by
    have hboth := congrArg List.length hpayload
    rwa [List.length_map, List.length_map, List.length_range] at hboth
  have hchanged : List.Forall₂ SlotChanged p.plan (planWithSlots ctx req slots) :=
    assignSlots_slotChanged _ _ _
  constructor
  · intro j e' he'
    obtain ⟨e, he, slot, rfl⟩ := forall₂_getElem? hchanged he'
    have hj := (List.getElem?_eq_some_iff.mp he).1
    have hboth := congrArg (fun l => l[j]?) hpayload
    simp only [List.getElem?_map, he, Option.map_some] at hboth
    rw [List.getElem?_range (hlen ▸ hj), Option.map_some] at hboth
    rw [Nat.zero_add]
    exact Option.some.inj hboth
  · rw [Nat.zero_add, ← hchanged.length_eq, hlen, req.size_eq]
    exact Nat.div_mul_le_self _ _

/-- Whatever the slots of the MISSes and the results of the `pwrite`s are: a flush that
    returns 0 has written all MISSes, as if one after the other; one that returns an error
    has written those in front of some run completely and that run in part. It changes no
    byte outside the slots of the MISSes, reads inside the buffer of the request, and does
    not look at the slot of a HIT. -/
theorem flush_block_by_block (ctx : Context) (req : WriteRequest) (slots : List Nat)
    (master : List UInt8) (io : Nat → PwriteResult) :
    let plan := planWithSlots ctx req slots
    let flushed := flushPlan master req.buf io 0 plan
    (flushed.2 = 0 → flushed.1 = writeMisses req.buf master plan) ∧
    (flushed.2 ≠ 0 → ∃ n j first runLen rest,
      nextRun (plan.drop n) = some (first, runLen, rest) ∧
      (planRuns plan)[j]? = some (first, runLen) ∧
      (io j).ret (runLen * blockSize) ≠ (runLen * blockSize : Nat) ∧
      flushed.2 = flushError (io j) ∧
      flushed.1 =
        (writeRun (writeMisses req.buf master (plan.take n)) req.buf first runLen (io j)).1 ∧
      ((missSlots plan).Nodup → ∀ e ∈ plan.take n, e.kind = .miss →
        Stored flushed.1 e.masterBlk (pread req.buf e.payload blockSize))) ∧
    (∀ p, p / blockSize ∉ missSlots plan → byteAt flushed.1 p = byteAt master p) ∧
    (∀ run ∈ planRuns plan, run.1.payload + run.2 * blockSize ≤ req.buf.length) ∧
    ∀ plan', plan'.map PlanEntry.withoutHitSlot = plan.map PlanEntry.withoutHitSlot →
      flushPlan master req.buf io 0 plan' = flushed := by
  intro plan flushed
  have hlaid : LaidOut req.buf 0 plan := laidOut_planWithSlots ctx req slots
  refine ⟨?_, ?_, ?_, planRuns_inside hlaid, ?_⟩
  · intro hzero
    rcases flushPlan_cases master 0 io hlaid with
      ⟨-, hall⟩ | ⟨n, -, j, first, runLen, rest, -, -, -, hret, -⟩
    · exact hall
    · have herrno := (isErrno_flushError (io (0 + j))).2
      rw [← hret] at herrno
      exact absurd hzero herrno.ne
  · intro hne
    rcases flushPlan_cases master 0 io hlaid with
      ⟨hzero, -⟩ | ⟨n, hn, j, first, runLen, rest, hnext, hrun, hshort, hret, hmaster⟩
    · exact absurd hzero hne
    · rw [Nat.zero_add] at hshort hret hmaster
      refine ⟨n, j, first, runLen, rest, hnext, hrun, hshort, hret, hmaster, ?_⟩
      intro hnodup e he hk
      show Stored flushed.1 _ _
      rw [hmaster]
      exact stored_in_front master (io j) hlaid hnodup hnext he hk
  · intro p hp
    rcases flushPlan_cases master 0 io hlaid with
      ⟨-, hall⟩ | ⟨n, -, j, first, runLen, rest, hnext, -, -, -, hmaster⟩
    · show byteAt flushed.1 p = _
      rw [hall]
      exact byteAt_writeMisses hp
    · show byteAt flushed.1 p = _
      rw [hmaster, byteAt_writeRun hnext hp]
      apply byteAt_writeMisses
      intro hmem
      obtain ⟨e, he, hk, hslot⟩ := mem_missSlots.mp hmem
      exact hp (mem_missSlots.mpr ⟨e, List.mem_of_mem_take he, hk, hslot⟩)
  · intro plan' hplan'
    rw [← flushPlan_withoutHitSlots, hplan', flushPlan_withoutHitSlots]

end

end DedupBlockFS
