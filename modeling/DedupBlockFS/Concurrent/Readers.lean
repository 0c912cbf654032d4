-- SUMMARY: With any number of threads inside the read lock at once: slots and counters are conserved, and what was looked up stays true.
import DedupBlockFS.Concurrent.FineGrained

/-!
# Readers in parallel

A call in the middle of pass 1 owns what its plan so far owns: it looks like a call that
has finished pass 1 for the shorter request made of those blocks (`FineCall.view`). So
the machine of whole sections and this one have the same accounts, and every step of a
reader is a `CallStep` like any section. What a reader has looked up stays true as long
as it is inside, because only sections under the write lock change the tables.
-/

namespace DedupBlockFS

open ByteFile
open Table (values)

/-! ## The request so far -/

/-- The request that consists of the first `k` blocks. -/
def WriteRequest.first (req : WriteRequest) (k : Nat) : WriteRequest where
  path := req.path
  buf := req.buf.take (k * blockSize)
  size := (req.buf.take (k * blockSize)).length
  offset := req.offset
  size_eq := rfl

section
variable {req : WriteRequest} {k : Nat}

theorem WriteRequest.size_first (hk : k ≤ req.numBlocks) : (req.first k).size = k * blockSize := by
  have hle : k * blockSize ≤ req.size :=
    (Nat.mul_le_mul_right _ hk).trans (Nat.div_mul_le_self _ _)
  show (req.buf.take (k * blockSize)).length = _
  rw [List.length_take, req.size_eq, Nat.min_eq_left hle]

theorem WriteRequest.numBlocks_first (hk : k ≤ req.numBlocks) : (req.first k).numBlocks = k := by
  rw [WriteRequest.numBlocks, size_first hk]
  exact Nat.mul_div_cancel k (by decide)

theorem WriteRequest.block_first {i : Nat} (hi : i < k) : (req.first k).block i = req.block i := by
  have hfit := Nat.mul_le_mul_right blockSize (Nat.succ_le_of_lt hi)
  rw [Nat.succ_mul] at hfit
  simp only [block, first, pread, List.drop_take, List.take_take]
  rw [Nat.min_eq_left (by omega)]

theorem WriteRequest.blocksIn_first {W : List UInt8 → Prop} (h : req.BlocksIn W)
    (hk : k ≤ req.numBlocks) : (req.first k).BlocksIn W := by
  intro i hi
  rw [numBlocks_first hk] at hi
  rw [block_first hi]
  exact h i (hi.trans_le hk)

variable [Sha512]

/-- The plan of the first blocks is a plan for the request of these blocks. -/
theorem PlanOk.first {ix : Index} {hp : Heap} {plan : List PlanEntry} (h : PlanOk ix hp req plan)
    (hlen : plan.length = k) : PlanOk ix hp (req.first k) plan where
  entries i e he := by
    obtain ⟨hlogical, hpayload, hhash⟩ := h.entries i e he
    refine ⟨hlogical, hpayload, ?_⟩
    rw [WriteRequest.block_first (hlen ▸ (List.getElem?_eq_some_iff.mp he).1)]
    exact hhash
  hashed := h.hashed
  hits := h.hits
  missDistinct := h.missDistinct

end

/-! ## What a reader relies on -/

section
variable [Sha512]

/-- A write in pass 1 that has planned its first `k` blocks. -/
structure InPass1 (ctx : Context) (req : WriteRequest) (st : Pass1Local) (k : Nat) : Prop where
  accepted : req.Accepted
  plan : PlanOk ctx.index ctx.heap req st.plan
  length : st.plan.length = k
  le : k ≤ req.numBlocks
  missFresh : ∀ e ∈ st.plan, e.kind = .miss → ctx.index.lookupByHash e.hash = none
  pendingHashes : ∀ h m, st.pendingHashes.lookup h = some m ↔
    ∃ e ∈ st.plan, e.kind = .miss ∧ e.hash = h ∧ e.info = m
  missCount : st.missCount = (missInfos st.plan).card

/-- What a call relies on inside the read lock. A published block that phase 1 has looked
    up is still in the slot it has copied. -/
def FineCall.Ok (ctx : Context) : FineCall → Prop
  | .outside _ => True
  | .lookup req st i => InPass1 ctx req st i
  | .take req st i found =>
    InPass1 ctx req st i ∧ i < req.numBlocks ∧ found = lookupBlock ctx.index req.buf st i
  | .phase1 req pairs =>
    ∀ i p, pairs[i]? = some p → ∃ m,
      ctx.index.lookupByFileBlock req.path (req.startBlock + i) = some m ∧ p.logicalIdx = i ∧
        (ctx.index.Published m → p.masterBlockIndex = (ctx.heap.cell m).masterBlockIndex)

end

/-- A call inside pass 1 owns what a call would own that has finished pass 1 for the
    blocks planned so far. -/
def FineCall.view : FineCall → Call
  | .outside c => c
  | .lookup req st i | .take req st i _ =>
    if i = 0 then .write req .start else .write (req.first i) (.drain st.plan st.missCount)
  | .phase1 req _ => .read req .start

def FineMachine.view (s : FineMachine) : Machine where
  ctx := s.ctx
  calls := s.calls.map FineCall.view

section
variable [Sha512] {ctx : Context} {req : WriteRequest} {st : Pass1Local} {i : Nat}

theorem InPass1.plan_nil (h : InPass1 ctx req st 0) : st.plan = [] :=
  List.eq_nil_of_length_eq_zero h.length

/-- A call in pass 1 refers to the objects of its plan and has no slots. -/
theorem InPass1.view_owns (h : InPass1 ctx req st i) :
    (FineCall.lookup req st i).view.pending = missInfos st.plan ∧
      (FineCall.lookup req st i).view.holds = infos st.plan ∧
      (FineCall.lookup req st i).view.slots = 0 := by
  by_cases hi : i = 0
  · subst hi
    rw [h.plan_nil]
    exact ⟨rfl, rfl, rfl⟩
  · simp only [FineCall.view, if_neg hi]
    exact ⟨rfl, Call.holds_of_plan rfl rfl, rfl⟩

/-- The loop of pass 1, seen from a state in which it stands at block `i`. -/
theorem InPass1.pass1Ok (h : InPass1 ctx req st i) {next : Nat} {base pending : Multiset Ptr}
    {out : Multiset Nat}
    (ha : Accounts ctx.index ctx.heap next (infos st.plan + base) (missInfos st.plan + pending) out) :
    Pass1Ok ctx.index ctx.heap req next base pending out i (st.over ctx.heap) where
  accounts := ha
  plan := h.plan
  length := h.length
  missFresh := h.missFresh
  pendingHashes := h.pendingHashes
  missCount := h.missCount
  grown := .refl

theorem InPass1.zero (h : req.Accepted) : InPass1 ctx req .empty 0 where
  accepted := h
  plan := ⟨by simp [Pass1Local.empty], by simp [Pass1Local.empty], by simp [Pass1Local.empty],
    by simp [Pass1Local.empty]⟩
  length := rfl
  le := Nat.zero_le _
  missFresh := by simp [Pass1Local.empty]
  pendingHashes := by simp [Pass1Local.empty]
  missCount := rfl

/-! ## One step of a reader -/

variable {W : List UInt8 → Prop} {H Pd : Multiset Ptr} {O : Multiset Nat} {ctx' : Context}
  {c c' : FineCall} {qs : Qsort} {io : PwriteResult} {found : Option Ptr}

/-- What follows the lookups is an iteration of pass 1, if the object that was found can
    take another reference. -/
theorem InPass1.take (h : InPass1 ctx req st i) (hi : i < req.numBlocks) {next : Nat}
    {base pending : Multiset Ptr} {out : Multiset Nat}
    (ha : Accounts ctx.index ctx.heap next (infos st.plan + base) (missInfos st.plan + pending) out)
    {r : Heap × Pass1Local}
    (hr : r = takeBlock ctx.heap req.buf req.startBlock st i (lookupBlock ctx.index req.buf st i))
    (hbound : ∀ m, (infos r.2.plan + base).count m < 2 ^ 32) :
    InPass1 { ctx with heap := r.1 } req r.2 (i + 1) ∧ HeapExtends ctx.heap r.1 ∧
      Accounts ctx.index r.1 next (infos r.2.plan + base) (missInfos r.2.plan + pending) out := by
  have hblock := takeBlock_lookupBlock ctx.index ctx.heap req.buf req.startBlock st i
  rw [← hr] at hblock
  have hok := (h.pass1Ok ha).block fun m hl => by
    have hb := hbound m
    have hplan : r.2.plan = (pass1Block ctx.index req.buf req.startBlock (st.over ctx.heap) i).plan :=
      congrArg Pass1.plan hblock
    rw [hplan, pass1Block_hit hl] at hb
    simp only [infos_append, infos_cons, infos_nil, Multiset.count_add, Multiset.count_cons_self,
      Multiset.count_zero] at hb ⊢
    omega
  rw [← hblock] at hok
  exact ⟨⟨h.accepted, hok.plan, hok.length, hi, hok.missFresh, hok.pendingHashes, hok.missCount⟩,
    hok.grown, hok.accounts⟩

/-- A plan without MISSes has no slots. -/
theorem InPass1.no_miss (h : InPass1 ctx req st i) (hzero : ¬0 < st.missCount) :
    ∀ e ∈ st.plan, e.kind ≠ .miss := by
  intro e he hk
  have hmem := mem_missInfos.mpr ⟨e, he, hk, rfl⟩
  rw [h.missCount, Multiset.card_pos, not_not] at hzero
  rw [hzero] at hmem
  exact Multiset.notMem_zero _ hmem

/-- The call that leaves pass 1 owns what its plan owns. -/
theorem InPass1.leave_owns (h : InPass1 ctx req st i) :
    (Call.write req st.leave).pending = missInfos st.plan ∧
      (Call.write req st.leave).holds = infos st.plan ∧ (Call.write req st.leave).slots = 0 := by
  unfold Pass1Local.leave
  split
  · exact ⟨rfl, Call.holds_of_plan rfl rfl, rfl⟩
  · rename_i hzero
    refine ⟨rfl, Call.holds_of_plan rfl rfl, (add_zero _).trans ?_⟩
    show missSlots st.plan = 0
    rw [Multiset.eq_zero_iff_forall_notMem]
    intro s hs
    obtain ⟨e, he, hk, -⟩ := mem_missSlots.mp hs
    exact h.no_miss hzero e he hk

theorem InPass1.leave_ok (h : InPass1 ctx req st req.numBlocks) :
    (Call.write req st.leave).Ok ctx := by
  obtain ⟨-, hargs⟩ := h.accepted
  rw [not_or, not_not] at hargs
  have hflight : InFlight ctx req st.plan :=
    ⟨h.plan, h.length, (Nat.div_mul_cancel (Nat.dvd_of_mod_eq_zero hargs.2)).symm, hargs.1⟩
  unfold Pass1Local.leave
  split
  · exact ⟨hflight, h.missCount⟩
  · rename_i hzero
    exact ⟨hflight, fun e he hk => absurd hk (h.no_miss hzero e he),
      fun i e _ he hk => absurd hk (h.no_miss hzero e (List.mem_of_getElem? he))⟩

/-- The step that follows the lookups, as a step of the call it looks like. -/
theorem callStep_take (hl : Ledger W H Pd O ctx (FineCall.take req st i found).view)
    (h : InPass1 ctx req st i) (hi : i < req.numBlocks)
    (hfound : found = lookupBlock ctx.index req.buf st i) (hW : req.BlocksIn W)
    {r : Heap × Pass1Local} (hr : r = takeBlock ctx.heap req.buf req.startBlock st i found)
    (hfew : FewReferences r.1 (values ctx.index.fileToMaster +
      ((FineCall.lookup req r.2 (i + 1)).view.holds + H))) :
    CallStep W H Pd O ctx (FineCall.take req st i found).view { ctx with heap := r.1 }
        (FineCall.lookup req r.2 (i + 1)).view ∧
      InPass1 { ctx with heap := r.1 } req r.2 (i + 1) := by
  obtain ⟨hpending, hholds, hslots⟩ := h.view_owns
  have hview : (FineCall.take req st i found).view = (FineCall.lookup req st i).view := rfl
  rw [hview] at hl ⊢
  have hplan : infos r.2.plan ≤ (FineCall.lookup req r.2 (i + 1)).view.holds := by
    simp only [FineCall.view, if_neg (Nat.succ_ne_zero i)]
    exact (Call.holds_of_plan rfl rfl).ge
  have haccounts : Accounts ctx.index ctx.heap ctx.nextBlockIndex
      (infos st.plan + (values ctx.index.fileToMaster + H)) (missInfos st.plan + Pd) (0 + O) := by
    have ha := hl.accounts
    rw [hpending, hholds, hslots] at ha
    exact ha.congr (add_left_comm _ _ _) rfl rfl
  obtain ⟨h', hgrown, haccounts'⟩ := h.take hi haccounts (hfound ▸ hr) fun m => by
    refine lt_of_le_of_lt (Multiset.count_le_of_le m ?_) (hfew.count_lt m)
    rw [add_left_comm]
    exact add_le_add_right (add_le_add_left hplan H) _
  obtain ⟨hpending', hholds', hslots'⟩ := h'.view_owns
  refine ⟨.of_frame hl ?_ hfew ?_ ?_ hgrown.brk hgrown.hash (fun m hm _ => hgrown.slot m hm)
    (fun _ _ _ h => h) (fun _ _ h => h) (fun _ h => h), h'⟩
  · rw [hpending', hholds', hslots']
    exact haccounts'.congr (add_left_comm _ _ _) rfl rfl
  · simp only [FineCall.view, if_neg (Nat.succ_ne_zero i)]
    have hsize := WriteRequest.size_first h'.le
    have hnum := WriteRequest.numBlocks_first h'.le
    exact ⟨⟨h'.plan.first h'.length, by rw [h'.length, hnum], by rw [hsize, hnum],
      by rw [hnum]; exact Nat.succ_ne_zero i⟩, h'.missCount⟩
  · simp only [FineCall.view, if_neg (Nat.succ_ne_zero i)]
    exact WriteRequest.blocksIn_first hW h'.le

/-- If the call is a write, its blocks are among `W`. -/
def FineCall.BlocksIn (W : List UInt8 → Prop) : FineCall → Prop
  | .outside c => c.BlocksIn W
  | .lookup req _ _ | .take req _ _ _ => req.BlocksIn W
  | .phase1 _ _ => True

/-- A section of a call outside the read lock. -/
theorem callStep_outside {d : Call} (hl : Ledger W H Pd O ctx d)
    (h : (advance qs ctx io d).map (fun r => (r.1, FineCall.outside r.2)) = some (ctx', c'))
    (hfew : FewReferences ctx'.heap (values ctx'.index.fileToMaster + (c'.view.holds + H))) :
    CallStep W H Pd O ctx d ctx' c'.view ∧ c'.Ok ctx' ∧ c'.BlocksIn W := by
  obtain ⟨⟨ctx₁, d'⟩, hadv, hres⟩ := Option.map_eq_some_iff.mp h
  obtain ⟨rfl, rfl⟩ := Prod.ext_iff.mp hres
  have hstep := advance_callStep hl hadv fun _ => hfew
  exact ⟨hstep, trivial, hstep.ledger.blocks⟩

/-- A step of phase 1. -/
theorem callStep_phase1 {req : ReadRequest} {pairs : List BlockPair}
    (hl : Ledger W H Pd O ctx (.read req .start)) (hok : (FineCall.phase1 req pairs).Ok ctx)
    (h : advanceFine qs ctx io (.phase1 req pairs) = some (ctx', c')) :
    CallStep W H Pd O ctx (.read req .start) ctx' c'.view ∧ c'.Ok ctx' ∧ c'.BlocksIn W := by
  simp only [advanceFine] at h
  split at h
  · rename_i p hp
    obtain ⟨rfl, rfl⟩ := Prod.ext_iff.mp (Option.some.inj h)
    refine ⟨.of_same hl rfl rfl rfl trivial trivial, fun i q hq => ?_, trivial⟩
    by_cases hi : i < pairs.length
    · rw [List.getElem?_append_left hi] at hq
      exact hok i q hq
    · rw [List.getElem?_append_right (by omega), List.getElem?_singleton] at hq
      obtain ⟨hzero, rfl⟩ := by simpa using hq
      obtain rfl : i = pairs.length := by omega
      split at hp
      · obtain ⟨m, hm, rfl⟩ := Option.map_eq_some_iff.mp hp
        exact ⟨m, hm, rfl, fun _ => rfl⟩
      · cases hp
  · obtain ⟨rfl, rfl⟩ := Prod.ext_iff.mp (Option.some.inj h)
    exact ⟨.of_same hl rfl rfl rfl trivial trivial, trivial, trivial⟩

/-- Every step of every call is a step of the call it looks like, and leaves what the call
    relies on. -/
theorem advanceFine_callStep (hl : Ledger W H Pd O ctx c.view) (hok : c.Ok ctx)
    (hW : c.BlocksIn W) (h : advanceFine qs ctx io c = some (ctx', c'))
    (hfew : FewReferences ctx'.heap (values ctx'.index.fileToMaster + (c'.view.holds + H))) :
    CallStep W H Pd O ctx c.view ctx' c'.view ∧ c'.Ok ctx' ∧ c'.BlocksIn W := by
  cases c with
  | outside d =>
    simp only [advanceFine] at h
    unfold enter at h
    split at h
    · split at h
      · rename_i haccepted
        obtain ⟨rfl, rfl⟩ := Prod.ext_iff.mp (Option.some.inj h)
        exact ⟨.of_same hl rfl rfl rfl trivial hl.blocks, .zero haccepted, hW⟩
      · exact callStep_outside hl h hfew
    · split at h
      · obtain ⟨rfl, rfl⟩ := Prod.ext_iff.mp (Option.some.inj h)
        exact ⟨.of_same hl rfl rfl rfl trivial trivial, by simp [FineCall.Ok], trivial⟩
      · exact callStep_outside hl h hfew
    · exact callStep_outside hl h hfew
  | lookup req st i =>
    simp only [advanceFine] at h
    split at h
    · rename_i hi
      obtain ⟨rfl, rfl⟩ := Prod.ext_iff.mp (Option.some.inj h)
      exact ⟨.of_same hl rfl rfl rfl hl.ok hl.blocks, ⟨hok, hi, rfl⟩, hW⟩
    · rename_i hi
      obtain ⟨rfl, rfl⟩ := Prod.ext_iff.mp (Option.some.inj h)
      have hin : InPass1 ctx req st i := hok
      obtain rfl : i = req.numBlocks := Nat.le_antisymm hin.le (not_lt.mp hi)
      obtain ⟨hpending, hholds, hslots⟩ := hin.view_owns
      obtain ⟨hpending', hholds', hslots'⟩ := hin.leave_owns
      exact ⟨.of_same hl (hpending'.trans hpending.symm) (hholds'.trans hholds.symm)
        (hslots'.trans hslots.symm) hin.leave_ok hW, trivial, hW⟩
  | take req st i found =>
    obtain ⟨rfl, rfl⟩ := Prod.ext_iff.mp (Option.some.inj h)
    obtain ⟨hin, hi, hfound⟩ := hok
    obtain ⟨hstep, hin'⟩ := callStep_take hl hin hi hfound hW rfl hfew
    exact ⟨hstep, hin', hW⟩
  | phase1 req pairs => exact callStep_phase1 hl hok h

end

/-! ## What the steps of others leave alone -/

section
variable [Sha512] {ctx ctx' : Context} {qs : Qsort} {io : PwriteResult}

/-- Only sections under the write lock change the tables that readers look at. -/
theorem advance_tables {c c' : Call} (h : advance qs ctx io c = some (ctx', c'))
    (hshared : c.exclusive = false) :
    ctx'.index.hashToMaster = ctx.index.hashToMaster ∧
      ctx'.index.fileToMaster = ctx.index.fileToMaster := by
  cases c with
  | write req pc =>
    obtain ⟨⟨ctx₁, pc'⟩, hadv, hres⟩ := Option.map_eq_some_iff.mp h
    obtain ⟨rfl, rfl⟩ := Prod.ext_iff.mp hres
    cases pc with
    | start =>
      simp only [advanceWrite] at hadv
      split at hadv
      · obtain ⟨rfl, -⟩ := Prod.ext_iff.mp (Option.some.inj hadv)
        exact ⟨rfl, rfl⟩
      · split at hadv <;>
        · obtain ⟨rfl, -⟩ := Prod.ext_iff.mp (Option.some.inj hadv)
          exact ⟨rfl, rfl⟩
    | drain plan missCount =>
      simp only [advanceWrite] at hadv
      split at hadv <;>
      · obtain ⟨rfl, -⟩ := Prod.ext_iff.mp (Option.some.inj hadv)
        exact ⟨rfl, rfl⟩
    | flush plan todo =>
      simp only [advanceWrite] at hadv
      split at hadv <;>
      · obtain ⟨rfl, -⟩ := Prod.ext_iff.mp (Option.some.inj hadv)
        exact ⟨rfl, rfl⟩
    | rollbackMisses plan rc =>
      obtain ⟨rfl, -⟩ := Prod.ext_iff.mp (Option.some.inj hadv)
      have hreleased := rollbackMisses_released ctx plan
      exact ⟨hreleased.hashToMaster, hreleased.fileToMaster⟩
    | append plan taken remaining | concat slots | rollbackConcat plan slots rc =>
      obtain ⟨rfl, -⟩ := Prod.ext_iff.mp (Option.some.inj hadv)
      exact ⟨rfl, rfl⟩
    | consolidate plan | rollbackHits plan rc => cases hshared
    | done rc => cases hadv
  | remove path startBlock endBlock pc =>
    obtain ⟨⟨ctx₁, pc'⟩, hadv, hres⟩ := Option.map_eq_some_iff.mp h
    obtain ⟨rfl, rfl⟩ := Prod.ext_iff.mp hres
    cases pc with
    | start => cases hshared
    | concat slots =>
      obtain ⟨rfl, -⟩ := Prod.ext_iff.mp (Option.some.inj hadv)
      exact ⟨rfl, rfl⟩
    | done => cases hadv
  | unlink path res pc =>
    obtain ⟨⟨ctx₁, pc'⟩, hadv, hres⟩ := Option.map_eq_some_iff.mp h
    obtain ⟨rfl, rfl⟩ := Prod.ext_iff.mp hres
    cases pc with
    | start =>
      simp only [advanceUnlink] at hadv
      split at hadv <;>
      · obtain ⟨rfl, -⟩ := Prod.ext_iff.mp (Option.some.inj hadv)
        exact ⟨rfl, rfl⟩
    | concat slots =>
      obtain ⟨rfl, -⟩ := Prod.ext_iff.mp (Option.some.inj hadv)
      exact ⟨rfl, rfl⟩
    | remove numBlocks | dropSize => cases hshared
    | done ret => cases hadv
  | truncate path size res pc =>
    obtain ⟨⟨ctx₁, pc'⟩, hadv, hres⟩ := Option.map_eq_some_iff.mp h
    obtain ⟨rfl, rfl⟩ := Prod.ext_iff.mp hres
    cases pc with
    | start =>
      simp only [advanceTruncate] at hadv
      split at hadv
      · obtain ⟨rfl, -⟩ := Prod.ext_iff.mp (Option.some.inj hadv)
        exact ⟨rfl, rfl⟩
      · split at hadv <;>
        · obtain ⟨rfl, -⟩ := Prod.ext_iff.mp (Option.some.inj hadv)
          exact ⟨rfl, rfl⟩
    | concat slots =>
      obtain ⟨rfl, -⟩ := Prod.ext_iff.mp (Option.some.inj hadv)
      exact ⟨rfl, rfl⟩
    | remove newBlockCount oldBlockCount | setSize => cases hshared
    | done ret => cases hadv
  | read req pc =>
    obtain ⟨pc', -, hres⟩ := Option.map_eq_some_iff.mp h
    obtain ⟨rfl, -⟩ := Prod.ext_iff.mp hres
    exact ⟨rfl, rfl⟩

theorem advanceFine_tables {c c' : FineCall} (h : advanceFine qs ctx io c = some (ctx', c'))
    (hshared : c.exclusive = false) :
    ctx'.index.hashToMaster = ctx.index.hashToMaster ∧
      ctx'.index.fileToMaster = ctx.index.fileToMaster := by
  have houtside : ∀ d : Call, d.exclusive = false →
      (advance qs ctx io d).map (fun r => (r.1, FineCall.outside r.2)) = some (ctx', c') →
      ctx'.index.hashToMaster = ctx.index.hashToMaster ∧
        ctx'.index.fileToMaster = ctx.index.fileToMaster := by
    intro d hd hmap
    obtain ⟨⟨ctx₁, d'⟩, hadv, hres⟩ := Option.map_eq_some_iff.mp hmap
    obtain ⟨rfl, -⟩ := Prod.ext_iff.mp hres
    exact advance_tables hadv hd
  cases c with
  | outside d =>
    simp only [advanceFine] at h
    unfold enter at h
    split at h
    · split at h
      · obtain ⟨rfl, -⟩ := Prod.ext_iff.mp (Option.some.inj h)
        exact ⟨rfl, rfl⟩
      · exact houtside _ rfl h
    · split at h
      · obtain ⟨rfl, -⟩ := Prod.ext_iff.mp (Option.some.inj h)
        exact ⟨rfl, rfl⟩
      · exact houtside _ rfl h
    · exact houtside _ hshared h
  | lookup req st i =>
    simp only [advanceFine] at h
    split at h <;>
    · obtain ⟨rfl, -⟩ := Prod.ext_iff.mp (Option.some.inj h)
      exact ⟨rfl, rfl⟩
  | take req st i found =>
    obtain ⟨rfl, -⟩ := Prod.ext_iff.mp (Option.some.inj h)
    exact ⟨rfl, rfl⟩
  | phase1 req pairs =>
    simp only [advanceFine] at h
    split at h <;>
    · obtain ⟨rfl, -⟩ := Prod.ext_iff.mp (Option.some.inj h)
      exact ⟨rfl, rfl⟩

/-- What a call in pass 1 relies on depends on the hashes of its objects and on the
    table. -/
theorem InPass1.frame {req : WriteRequest} {st : Pass1Local} {i : Nat} (h : InPass1 ctx req st i)
    (hhash : ∀ m ∈ infos st.plan, (ctx'.heap.cell m).hash = (ctx.heap.cell m).hash)
    (htable : ctx'.index.hashToMaster = ctx.index.hashToMaster) : InPass1 ctx' req st i where
  accepted := h.accepted
  plan := h.plan.frame (fun e he => hhash _ (mem_infos.mpr ⟨e, he, rfl⟩)) fun m _ hm => by
    rwa [Index.Published, htable]
  length := h.length
  le := h.le
  missFresh e he hk := by
    rw [Index.lookupByHash, htable]
    exact h.missFresh e he hk
  pendingHashes := h.pendingHashes
  missCount := h.missCount

/-- What a call relies on inside the read lock is still true after a step of another call
    that leaves the tables alone. -/
theorem FineCall.Ok.frame {d : FineCall} (hok : d.Ok ctx)
    (hhash : ∀ m ∈ d.view.holds, (ctx'.heap.cell m).hash = (ctx.heap.cell m).hash)
    (hslot : ∀ m, ctx.index.Published m →
      (ctx'.heap.cell m).masterBlockIndex = (ctx.heap.cell m).masterBlockIndex)
    (htables : d.inside → ctx'.index.hashToMaster = ctx.index.hashToMaster ∧
      ctx'.index.fileToMaster = ctx.index.fileToMaster) : d.Ok ctx' := by
  cases d with
  | outside c => trivial
  | lookup req st i =>
    have hin : InPass1 ctx req st i := hok
    exact hin.frame (fun m hm => hhash m (hin.view_owns.2.1 ▸ hm)) (htables rfl).1
  | take req st i found =>
    obtain ⟨hin, hi, hfound⟩ := hok
    refine ⟨hin.frame (fun m hm => hhash m (hin.view_owns.2.1 ▸ hm)) (htables rfl).1, hi, ?_⟩
    rw [hfound]
    simp only [lookupBlock, Index.lookupByHash, (htables rfl).1]
  | phase1 req pairs =>
    obtain ⟨hhashes, hfiles⟩ := htables rfl
    intro i p hp
    obtain ⟨m, hm, hidx, hcopied⟩ := hok i p hp
    refine ⟨m, by rwa [Index.lookupByFileBlock, hfiles], hidx, fun hpub => ?_⟩
    have hpub' : ctx.index.Published m := by rwa [Index.Published, ← hhashes]
    exact (hcopied hpub').trans (hslot m hpub').symm

end

/-! ## The machine -/

section
variable [Sha512] {W : List UInt8 → Prop} {qs : Qsort} {e : Event}

/-- A machine stays consistent when one of its calls takes a `CallStep`. -/
theorem Machine.Consistent.of_callStep {s : Machine} (hs : s.Consistent W)
    {before after : List Call} {c c' : Call} {ctx' : Context} (hcalls : s.calls = before ++ c :: after)
    (hstep : CallStep W ((before ++ after).map Call.holds).sum
      ((before ++ after).map Call.pending).sum ((before ++ after).map Call.slots).sum
      s.ctx c ctx' c') :
    Machine.Consistent W { ctx := ctx', calls := before ++ c' :: after } := by
  have hl' := hstep.ledger
  have hmem : ∀ d ∈ before ++ c' :: after, d = c' ∨ d ∈ before ++ after := by
    intro d hd
    simpa [or_left_comm] using hd
  refine
    { accounts := ?_
      few := ?_
      intact := hl'.intact
      ok := fun d hd => ?_
      blocks := fun d hd => ?_ }
  · simpa only [Machine.holds, Machine.pending, Machine.slots, Machine.sum_split] using hl'.accounts
  · simpa only [Machine.FewReferences, Machine.holds, Machine.sum_split] using hl'.few
  · rcases hmem d hd with rfl | hd
    · exact hl'.ok
    · exact hs.others_ok hcalls hstep hd
  · rcases hmem d hd with rfl | hd
    · exact hl'.blocks
    · refine hs.blocks d ?_
      rw [hcalls]
      rcases List.mem_append.mp hd with hd | hd <;> simp [hd]

variable {s s' : FineMachine}

/-- The runs without a block that has too many references. -/
def FineBounded (_ : FineMachine) (_ : Event) (s' : FineMachine) : Prop := s'.view.FewReferences

/-- The invariant: the machine it looks like is consistent, and every call finds what it
    relies on. -/
structure FineMachine.Consistent (W : List UInt8 → Prop) (s : FineMachine) : Prop where
  view : s.view.Consistent W
  ok : ∀ c ∈ s.calls, c.Ok s.ctx
  blocks : ∀ c ∈ s.calls, c.BlocksIn W

namespace FineMachine

omit [Sha512] in
theorem view_calls {before after : List FineCall} {c : FineCall}
    (hcalls : s.calls = before ++ c :: after) :
    s.view.calls = before.map FineCall.view ++ c.view :: after.map FineCall.view := by
  show s.calls.map FineCall.view = _
  rw [hcalls, List.map_append, List.map_cons]

theorem Consistent.init : (fineMachine qs).init.Consistent W where
  view := @Machine.Consistent.init _ W qs
  ok _ hc := absurd hc List.not_mem_nil
  blocks _ hc := absurd hc List.not_mem_nil

/-- A dispatched call owns nothing and relies on nothing. -/
theorem Consistent.dispatch (hs : s.Consistent W) {r : Request}
    (hfew : Machine.FewReferences { s.view with calls := s.view.calls ++ [r.toCall] })
    (hblocks : (Event.dispatch r).BlocksIn W) :
    FineMachine.Consistent W { s with calls := s.calls ++ [.outside r.toCall] } := by
  have hview : (FineMachine.view { s with calls := s.calls ++ [.outside r.toCall] }) =
      { s.view with calls := s.view.calls ++ [r.toCall] } := by
    simp only [FineMachine.view, List.map_append, List.map_cons, List.map_nil, FineCall.view]
  refine ⟨?_, fun c hc => ?_, fun c hc => ?_⟩
  · rw [hview]
    have hstep : (machine .mergeSort).step s.view (.dispatch r) =
      some { s.view with calls := s.view.calls ++ [r.toCall] } := rfl
    exact hs.view.step hstep ⟨hfew, hblocks⟩
  · rcases List.mem_append.mp hc with hc | hc
    · exact hs.ok c hc
    · obtain rfl := List.mem_singleton.mp hc
      trivial
  · rcases List.mem_append.mp hc with hc | hc
    · exact hs.blocks c hc
    · obtain rfl := List.mem_singleton.mp hc
      cases r with
      | write req => exact hblocks
      | _ => trivial

/-- Every step keeps the machine consistent. -/
theorem Consistent.step (hs : s.Consistent W) (hstep : (fineMachine qs).step s e = some s')
    (hfew : s'.view.FewReferences) (hblocks : e.BlocksIn W) : s'.Consistent W := by
  rcases FineMachine.step_cases hstep with ⟨r, rfl, rfl⟩ |
    ⟨io, c, c', ctx', before, after, rfl, hcalls, hfree, hadv, rfl⟩
  · refine hs.dispatch ?_ hblocks
    simpa only [FineMachine.view, List.map_append, List.map_cons, List.map_nil, FineCall.view]
      using hfew
  · have hmem : c ∈ s.calls := by rw [hcalls]; simp
    have hview := view_calls hcalls
    have hview' := view_calls (s := { ctx := ctx', calls := before ++ c' :: after }) rfl
    have hl := hs.view.ledger hview
    have hfew' := hfew
    simp only [Machine.FewReferences, Machine.holds, hview', Machine.sum_split] at hfew'
    obtain ⟨hcall, hok', hblocks'⟩ := advanceFine_callStep hl (hs.ok c hmem) (hs.blocks c hmem) hadv hfew'
    have hcases : ∀ d ∈ before ++ c' :: after, d = c' ∨ d ∈ before ++ after := by
      intro d hd
      simpa [or_left_comm] using hd
    have hothers : ∀ d ∈ before ++ after, d ∈ s.calls := by
      intro d hd
      rw [hcalls]
      rcases List.mem_append.mp hd with hd | hd <;> simp [hd]
    refine ⟨?_, fun d hd => ?_, fun d hd => ?_⟩
    · have := hs.view.of_callStep hview hcall
      rwa [← hview'] at this
    · rcases hcases d hd with rfl | hd
      · exact hok'
      · have hd' := hothers d hd
        refine (hs.ok d hd').frame (fun m hm => hcall.hash m ?_) (fun m hm => ?_) fun hin => ?_
        · refine hs.view.accounts.refsLt m (Multiset.mem_add.mpr (.inr ?_))
          exact Multiset.mem_of_le (List.le_sum_of_mem
            (List.mem_map_of_mem (List.mem_map_of_mem hd'))) hm
        · exact hcall.slot m (hl.published_lt hm) (hl.not_pending hm)
        · refine advanceFine_tables hadv (Bool.eq_false_iff.mpr fun hex => ?_)
          rw [hfree hex d hd'] at hin
          cases hin
    · rcases hcases d hd with rfl | hd
      · exact hblocks'
      · exact hs.blocks d (hothers d hd)

theorem Consistent.reachable (h : (fineMachine qs).Reachable FineBounded s) :
    s.Consistent fun _ => True :=
  h.invariant .init fun _ e _ hs hstep hP => hs.step hstep hP e.blocksIn_true

end FineMachine

end

/-! ## Two writes inside pass 1 -/

/-- A block of zeros is written to `a`; then two more writes of zeros enter pass 1, both
    look the hash up, and the first of them takes its reference. -/
def twoInside : List Event :=
  .dispatch (.write (.zeros pathA 0 1)) :: List.replicate 10 (.run 0 .complete) ++
    [.dispatch (.write (.zeros pathB 0 1)), .dispatch (.write (.zeros pathB 1 1)),
      .run 1 .complete, .run 2 .complete, .run 1 .complete, .run 2 .complete, .run 1 .complete]

/-- A check that a replayed step leaves few references. -/
def fineFewCheck (_ : FineMachine) (_ : Event) (s' : FineMachine) : Bool :=
  (values s'.view.ctx.index.fileToMaster + s'.view.holds).card < 2 ^ 32

theorem twoInside_enabled : ((@fineMachine Sha512.zeroBlock .mergeSort).replay fineFewCheck
    (@fineMachine Sha512.zeroBlock .mergeSort).init twoInside).isSome := by
  decide +kernel

def afterTwoInside : FineMachine :=
  ((@fineMachine Sha512.zeroBlock .mergeSort).replay fineFewCheck
    (@fineMachine Sha512.zeroBlock .mergeSort).init twoInside).get twoInside_enabled

end DedupBlockFS
