-- SUMMARY: The invariant of the machine, over every interleaving of any number of calls.
import DedupBlockFS.Concurrent.WriteSteps

/-!
# The invariant

Each section of each call is a `CallStep` against the sum of all other calls. Summing
up gives the invariant of the machine: the shared state is balanced against all
calls together, every published object is intact, and each call finds what it relies
on. What one call relies on is not disturbed by the steps of the others, because
they neither touch its pending objects nor write to its slots.
-/

namespace DedupBlockFS

open ByteFile
open Table (values)

variable [Sha512]
variable {W : List UInt8 → Prop} {H Pd : Multiset Ptr} {O : Multiset Nat} {ctx ctx' : Context}
  {c c' d : Call} {qs : Qsort} {s s' : Machine} {e : Event}

/-! ## One call -/

/-- Every section of every call is a `CallStep`, if pass 1 ends with few references. -/
theorem advance_callStep (hl : Ledger W H Pd O ctx c) {io : PwriteResult}
    (h : advance qs ctx io c = some (ctx', c'))
    (hfew : (∃ req, c = .write req .start) →
      FewReferences ctx'.heap (values ctx'.index.fileToMaster + (c'.holds + H))) :
    CallStep W H Pd O ctx c ctx' c' := by
  cases c with
  | write req pc =>
    obtain ⟨⟨ctx₁, pc'⟩, hadv, hres⟩ := Option.map_eq_some_iff.mp h
    obtain ⟨rfl, rfl⟩ := Prod.ext_iff.mp hres
    have hblocks : ∀ pc, (Call.write req pc).BlocksIn W := fun _ => hl.blocks
    cases pc with
    | start =>
      simp only [advanceWrite] at hadv
      split at hadv
      · simp only [Option.some.injEq, Prod.mk.injEq] at hadv
        obtain ⟨rfl, rfl⟩ := hadv
        exact .of_same hl rfl rfl rfl trivial (hblocks _)
      · split at hadv
        · simp only [Option.some.injEq, Prod.mk.injEq] at hadv
          obtain ⟨rfl, rfl⟩ := hadv
          exact .of_same hl rfl rfl rfl trivial (hblocks _)
        · rename_i haligned
          simp only [Option.some.injEq, Prod.mk.injEq] at hadv
          obtain ⟨rfl, rfl⟩ := hadv
          rw [not_or, not_not] at haligned
          exact callStep_pass1 hl (Nat.div_mul_cancel (Nat.dvd_of_mod_eq_zero haligned.2)).symm
            haligned.1 (hfew ⟨req, rfl⟩)
    | drain plan missCount => exact callStep_drain hl io hadv
    | append plan taken remaining =>
      simp only [advanceWrite, Option.some.injEq] at hadv
      obtain ⟨rfl, rfl⟩ := Prod.ext_iff.mp hadv
      exact callStep_append hl
    | flush plan todo =>
      simp only [advanceWrite] at hadv
      split at hadv
      · rename_i hrun
        simp only [Option.some.injEq, Prod.mk.injEq] at hadv
        obtain ⟨rfl, rfl⟩ := hadv
        obtain ⟨hflight, hplaced, k, rfl, hflushed⟩ := hl.ok
        exact .of_same hl rfl rfl rfl ⟨hflight, hplaced, hflushed.complete hrun⟩ (hblocks _)
      · rename_i hrun
        simp only [Option.some.injEq, Prod.mk.injEq] at hadv
        obtain ⟨rfl, rfl⟩ := hadv
        exact callStep_flush hl hrun io
    | consolidate plan =>
      simp only [advanceWrite, Option.some.injEq, Prod.mk.injEq] at hadv
      obtain ⟨rfl, rfl⟩ := hadv
      exact callStep_consolidate hl
    | concat slots =>
      simp only [advanceWrite, Option.some.injEq, Prod.mk.injEq] at hadv
      obtain ⟨rfl, rfl⟩ := hadv
      exact callStep_concat hl rfl rfl rfl rfl trivial (hblocks _)
    | rollbackHits plan rc =>
      simp only [advanceWrite, Option.some.injEq, Prod.mk.injEq] at hadv
      obtain ⟨rfl, rfl⟩ := hadv
      exact callStep_rollbackHits hl
    | rollbackConcat plan slots rc =>
      simp only [advanceWrite, Option.some.injEq, Prod.mk.injEq] at hadv
      obtain ⟨rfl, rfl⟩ := hadv
      refine callStep_concat hl rfl rfl rfl ?_ trivial (hblocks _)
      show missSlots plan + 0 + (slots : Multiset Nat) = missSlots plan + slots
      rw [add_zero]
    | rollbackMisses plan rc =>
      simp only [advanceWrite, Option.some.injEq, Prod.mk.injEq] at hadv
      obtain ⟨rfl, rfl⟩ := hadv
      exact callStep_rollbackMisses hl
    | done rc => cases hadv
  | remove path startBlock endBlock pc =>
    obtain ⟨⟨ctx₁, pc'⟩, hadv, hres⟩ := Option.map_eq_some_iff.mp h
    obtain ⟨rfl, rfl⟩ := Prod.ext_iff.mp hres
    cases pc with
    | start =>
      simp only [advanceRemove, Option.some.injEq, Prod.mk.injEq] at hadv
      obtain ⟨rfl, rfl⟩ := hadv
      exact callStep_remove hl path startBlock endBlock rfl rfl (add_comm _ _) trivial trivial
    | concat slots =>
      simp only [advanceRemove, Option.some.injEq, Prod.mk.injEq] at hadv
      obtain ⟨rfl, rfl⟩ := hadv
      exact callStep_concat hl rfl rfl rfl rfl trivial trivial
    | done => cases hadv
  | unlink path res pc =>
    obtain ⟨⟨ctx₁, pc'⟩, hadv, hres⟩ := Option.map_eq_some_iff.mp h
    obtain ⟨rfl, rfl⟩ := Prod.ext_iff.mp hres
    cases pc with
    | start =>
      simp only [advanceUnlink] at hadv
      split at hadv <;>
      · simp only [Option.some.injEq, Prod.mk.injEq] at hadv
        obtain ⟨rfl, rfl⟩ := hadv
        exact .of_same hl rfl rfl rfl trivial trivial
    | remove numBlocks =>
      simp only [advanceUnlink, Option.some.injEq, Prod.mk.injEq] at hadv
      obtain ⟨rfl, rfl⟩ := hadv
      exact callStep_remove hl path 0 numBlocks rfl rfl (add_comm _ _) trivial trivial
    | concat slots =>
      simp only [advanceUnlink, Option.some.injEq, Prod.mk.injEq] at hadv
      obtain ⟨rfl, rfl⟩ := hadv
      exact callStep_concat hl rfl rfl rfl rfl trivial trivial
    | dropSize =>
      simp only [advanceUnlink, Option.some.injEq, Prod.mk.injEq] at hadv
      obtain ⟨rfl, rfl⟩ := hadv
      exact .of_sizes hl rfl rfl rfl rfl trivial trivial
    | done ret => cases hadv
  | truncate path size res pc =>
    obtain ⟨⟨ctx₁, pc'⟩, hadv, hres⟩ := Option.map_eq_some_iff.mp h
    obtain ⟨rfl, rfl⟩ := Prod.ext_iff.mp hres
    cases pc with
    | start =>
      simp only [advanceTruncate] at hadv
      split at hadv
      · simp only [Option.some.injEq, Prod.mk.injEq] at hadv
        obtain ⟨rfl, rfl⟩ := hadv
        exact .of_same hl rfl rfl rfl trivial trivial
      · split at hadv <;>
        · simp only [Option.some.injEq, Prod.mk.injEq] at hadv
          obtain ⟨rfl, rfl⟩ := hadv
          exact .of_same hl rfl rfl rfl trivial trivial
    | remove newBlockCount oldBlockCount =>
      simp only [advanceTruncate, Option.some.injEq, Prod.mk.injEq] at hadv
      obtain ⟨rfl, rfl⟩ := hadv
      exact callStep_remove hl path newBlockCount oldBlockCount rfl rfl (add_comm _ _) trivial trivial
    | concat slots =>
      simp only [advanceTruncate, Option.some.injEq, Prod.mk.injEq] at hadv
      obtain ⟨rfl, rfl⟩ := hadv
      exact callStep_concat hl rfl rfl rfl rfl trivial trivial
    | setSize =>
      simp only [advanceTruncate, Option.some.injEq, Prod.mk.injEq] at hadv
      obtain ⟨rfl, rfl⟩ := hadv
      exact .of_sizes hl (truncateSetSize_eq ctx path size) rfl rfl rfl trivial trivial
    | done ret => cases hadv
  | read req pc =>
    obtain ⟨pc', hadv, hres⟩ := Option.map_eq_some_iff.mp h
    obtain ⟨rfl, rfl⟩ := Prod.ext_iff.mp hres
    exact .of_same hl rfl rfl rfl trivial trivial

/-! ## The other calls -/

/-- What a call relies on depends on the hashes of the objects it refers to, on the
    slots of those it has created, on the published ones staying published, and on the
    blocks in the slots it has out. -/
theorem Call.Ok.frame (hok : d.Ok ctx)
    (hhash : ∀ m ∈ d.holds, (ctx'.heap.cell m).hash = (ctx.heap.cell m).hash)
    (hslot : ∀ m ∈ d.pending,
      (ctx'.heap.cell m).masterBlockIndex = (ctx.heap.cell m).masterBlockIndex)
    (hpub : ∀ m ∈ d.holds, ctx.index.Published m → ctx'.index.Published m)
    (hstored : ∀ s ∈ d.slots, ∀ b, Stored ctx.master s b → Stored ctx'.master s b) :
    d.Ok ctx' := by
  cases d with
  | write req pc =>
    have hflight : ∀ plan, pc.pending = missInfos plan → pc.hits = hitInfos plan →
        InFlight ctx req plan → InFlight ctx' req plan := by
      intro plan hp hh hf
      have hholds : (Call.write req pc).holds = infos plan := Call.holds_of_plan hp hh
      rw [hholds] at hhash hpub
      exact ⟨hf.ok.frame (fun e he => hhash _ (mem_infos.mpr ⟨e, he, rfl⟩)) hpub, hf.length,
        hf.aligned, hf.nonempty⟩
    have hplaced : ∀ plan, pc.pending = missInfos plan → Placed ctx.heap plan →
        Placed ctx'.heap plan := by
      intro plan hp hpl e he hk
      have hpend : e.info ∈ pc.pending := hp ▸ mem_missInfos.mpr ⟨e, he, hk, rfl⟩
      exact (hslot _ hpend).trans (hpl e he hk)
    have hflushed : ∀ plan k, pc.allocated = missSlots plan → Flushed ctx.master req plan k →
        Flushed ctx'.master req plan k := by
      intro plan k ha hfl i e hi he hk
      have hout : e.masterBlk ∈ pc.allocated :=
        ha ▸ mem_missSlots.mpr ⟨e, List.mem_of_getElem? he, hk, rfl⟩
      exact hstored _ (Multiset.mem_add.mpr (.inl hout)) _ (hfl i e hi he hk)
    cases pc with
    | drain plan missCount => exact ⟨hflight plan rfl rfl hok.1, hok.2⟩
    | append plan taken remaining => exact ⟨hflight plan rfl rfl hok.1, hok.2⟩
    | flush plan todo =>
      obtain ⟨hf, hpl, k, rfl, hfl⟩ := hok
      exact ⟨hflight plan rfl rfl hf, hplaced plan rfl hpl, k, rfl, hflushed plan k rfl hfl⟩
    | consolidate plan =>
      obtain ⟨hf, hpl, hfl⟩ := hok
      exact ⟨hflight plan rfl rfl hf, hplaced plan rfl hpl, hflushed plan _ rfl hfl⟩
    | _ => trivial
  | _ => trivial

/-! ## The machine -/

/-- Fewer than 2^32 references to any one block, counting `file_to_master` and all
    plans in flight. -/
def Machine.FewReferences (s : Machine) : Prop :=
  DedupBlockFS.FewReferences s.ctx.heap (values s.ctx.index.fileToMaster + s.holds)

/-- If the event dispatches a write, its blocks are among `W`. -/
def Event.BlocksIn (W : List UInt8 → Prop) : Event → Prop
  | .dispatch (.write req) => req.BlocksIn W
  | _ => True

omit [Sha512] in
theorem Event.blocksIn_true (e : Event) : e.BlocksIn fun _ => True := by
  cases e with
  | dispatch r =>
    cases r with
    | write req => exact fun _ _ => trivial
    | _ => trivial
  | run tid io => trivial

/-- The runs without a block that has too many references. -/
def Bounded (_ : Machine) (_ : Event) (s' : Machine) : Prop := s'.FewReferences

/-- The bounded runs that write blocks among `W` only. -/
def BoundedIn (W : List UInt8 → Prop) (_ : Machine) (e : Event) (s' : Machine) : Prop :=
  s'.FewReferences ∧ e.BlocksIn W

/-- The invariant of the machine. -/
structure Machine.Consistent (W : List UInt8 → Prop) (s : Machine) : Prop where
  accounts : Accounts s.ctx.index s.ctx.heap s.ctx.nextBlockIndex
    (values s.ctx.index.fileToMaster + s.holds) s.pending s.slots
  few : s.FewReferences
  intact : Intact W s.ctx
  ok : ∀ c ∈ s.calls, c.Ok s.ctx
  blocks : ∀ c ∈ s.calls, c.BlocksIn W

namespace Machine

theorem Consistent.init : (machine qs).init.Consistent W where
  accounts := .empty
  few _ := by simp [machine, Context.empty, Index.empty, holds]
  intact m hm := by simp [machine, Context.empty, Index.empty, Index.Published] at hm
  ok c hc := by cases hc
  blocks c hc := by cases hc

variable {before after : List Call}

omit [Sha512] in
/-- The sum over all calls, one of them set apart. -/
theorem sum_split {α : Type} (f : Call → Multiset α) (before after : List Call) (c : Call) :
    ((before ++ c :: after).map f).sum = f c + ((before ++ after).map f).sum := by
  simp only [List.map_append, List.map_cons, List.sum_append, List.sum_cons]
  abel

/-- The ledger of one call against all the others. -/
theorem Consistent.ledger (hs : s.Consistent W) (hcalls : s.calls = before ++ c :: after) :
    Ledger W ((before ++ after).map Call.holds).sum ((before ++ after).map Call.pending).sum
      ((before ++ after).map Call.slots).sum s.ctx c := by
  have hmem : c ∈ s.calls := by rw [hcalls]; simp
  have haccounts := hs.accounts
  have hfew := hs.few
  simp only [FewReferences, holds, pending, slots, hcalls, sum_split] at haccounts hfew
  exact
    { accounts := haccounts
      few := hfew
      intact := hs.intact
      ok := hs.ok c hmem
      blocks := hs.blocks c hmem
      others := List.sum_le_sum fun d _ => Multiset.le_add_right _ _ }

/-- A step of one call, in a consistent machine, is a `CallStep`. -/
theorem Consistent.callStep (hs : s.Consistent W) (hcalls : s.calls = before ++ c :: after)
    {io : PwriteResult} (hadv : advance qs s.ctx io c = some (ctx', c'))
    (hfew : Machine.FewReferences { ctx := ctx', calls := before ++ c' :: after }) :
    CallStep W ((before ++ after).map Call.holds).sum ((before ++ after).map Call.pending).sum
      ((before ++ after).map Call.slots).sum s.ctx c ctx' c' := by
  refine advance_callStep (hs.ledger hcalls) hadv fun _ => ?_
  simpa only [FewReferences, holds, sum_split] using hfew

/-- The other calls still find what they rely on. -/
theorem Consistent.others_ok (hs : s.Consistent W) (hcalls : s.calls = before ++ c :: after)
    (hstep : CallStep W ((before ++ after).map Call.holds).sum
      ((before ++ after).map Call.pending).sum ((before ++ after).map Call.slots).sum
      s.ctx c ctx' c') (hd : d ∈ before ++ after) : d.Ok ctx' := by
  have hin : d ∈ s.calls := by
    rw [hcalls]
    rcases List.mem_append.mp hd with h | h <;> simp [h]
  have hle : ∀ {α : Type} (f : Call → Multiset α), f d ≤ ((before ++ after).map f).sum :=
    fun f => List.le_sum_of_mem (List.mem_map_of_mem hd)
  have hl := hs.ledger hcalls
  have hpending : ∀ m ∈ d.pending, m ∉ c.pending := fun m hm hc =>
    Multiset.disjoint_left.mp (Multiset.nodup_add.mp hl.accounts.balanced.pendingNodup).2.2 hc
      (Multiset.mem_of_le (hle Call.pending) hm)
  have hslots : ∀ m ∈ d.slots, m ∉ c.slots := fun m hm hc =>
    Multiset.disjoint_left.mp (Multiset.nodup_add.mp hl.accounts.out_nodup).2.2 hc
      (Multiset.mem_of_le (hle Call.slots) hm)
  have hlt : ∀ m ∈ d.holds, m < s.ctx.heap.brk := fun m hm =>
    hl.accounts.refsLt m (Multiset.mem_add.mpr (.inr (Multiset.mem_add.mpr
      (.inr (Multiset.mem_of_le (hle Call.holds) hm)))))
  refine (hs.ok d hin).frame (fun m hm => hstep.hash m (hlt m hm)) (fun m hm => ?_)
    (fun m hm hpub => ?_) fun s hs => hstep.stored s (hslots s hs)
  · exact hstep.slot m (hlt m (Multiset.mem_add.mpr (.inl hm))) (hpending m hm)
  · refine hstep.kept m (Multiset.mem_add.mpr (.inr (Multiset.mem_add.mpr (.inr ?_)))) hpub
    exact Multiset.mem_of_le (hle Call.holds) hm

/-- Every step keeps the machine consistent. -/
theorem Consistent.step (hs : s.Consistent W) (hstep : (machine qs).step s e = some s')
    (hP : BoundedIn W s e s') : s'.Consistent W := by
  obtain ⟨hfew, hblocks⟩ := hP
  rcases Machine.step_cases hstep with ⟨r, rfl, rfl⟩ |
    ⟨io, c, c', ctx', before, after, rfl, hcalls, hadv, rfl⟩
  · -- a call that is only dispatched owns nothing
    have hnone : r.toCall.holds = 0 ∧ r.toCall.pending = 0 ∧ r.toCall.slots = 0 := by
      cases r <;> exact ⟨rfl, rfl, rfl⟩
    refine
      { accounts := ?_
        few := hfew
        intact := hs.intact
        ok := fun d hd => ?_
        blocks := fun d hd => ?_ }
    · simpa only [holds, pending, slots, List.map_append, List.sum_append, List.map_cons,
        List.map_nil, List.sum_cons, List.sum_nil, hnone, add_zero] using hs.accounts
    · rcases List.mem_append.mp hd with hd | hd
      · exact hs.ok d hd
      · obtain rfl := List.mem_singleton.mp hd
        cases r <;> trivial
    · rcases List.mem_append.mp hd with hd | hd
      · exact hs.blocks d hd
      · obtain rfl := List.mem_singleton.mp hd
        cases r with
        | write req => exact hblocks
        | _ => trivial
  · have hcall := hs.callStep hcalls hadv hfew
    have hl' := hcall.ledger
    refine
      { accounts := ?_
        few := hfew
        intact := hl'.intact
        ok := fun d hd => ?_
        blocks := fun d hd => ?_ }
    · simpa only [holds, pending, slots, sum_split] using hl'.accounts
    · rcases List.mem_append.mp hd with hd | hd
      · exact hs.others_ok hcalls hcall (List.mem_append_left _ hd)
      · rcases List.mem_cons.mp hd with rfl | hd
        · exact hl'.ok
        · exact hs.others_ok hcalls hcall (List.mem_append_right _ hd)
    · rcases List.mem_append.mp hd with hd | hd
      · exact hs.blocks d (by rw [hcalls]; exact List.mem_append_left _ hd)
      · rcases List.mem_cons.mp hd with rfl | hd
        · exact hl'.blocks
        · exact hs.blocks d (by rw [hcalls]; exact List.mem_append_right _ (List.mem_cons_of_mem _ hd))

/-- Every state that a bounded run reaches is consistent. -/
theorem Consistent.reachable (h : (machine qs).Reachable (BoundedIn W) s) : s.Consistent W :=
  h.invariant .init fun _ _ _ hs hstep hP => hs.step hstep hP

/-- Without a condition on the blocks that are written. -/
theorem Consistent.reachable_any (h : (machine qs).Reachable Bounded s) :
    s.Consistent fun _ => True :=
  .reachable (h.mono fun _ e _ hP => ⟨hP, e.blocksIn_true⟩)

/-- In the state after a step an object somebody refers to is published if it was. -/
theorem Consistent.kept (hs : s.Consistent W) (hstep : (machine qs).step s e = some s')
    (hfew : s'.FewReferences) {m : Ptr}
    (hm : m ∈ values s'.ctx.index.fileToMaster + s'.holds) (hpub : s.ctx.index.Published m) :
    s'.ctx.index.Published m := by
  rcases Machine.step_cases hstep with ⟨r, rfl, rfl⟩ |
    ⟨io, c, c', ctx', before, after, rfl, hcalls, hadv, rfl⟩
  · exact hpub
  · refine (hs.callStep hcalls hadv hfew).kept m ?_ hpub
    simpa only [holds, sum_split] using hm

/-- Allocated objects keep their hash, and published ones their slot. -/
theorem Consistent.frame (hs : s.Consistent W) (hstep : (machine qs).step s e = some s')
    (hfew : s'.FewReferences) : s.ctx.heap.brk ≤ s'.ctx.heap.brk ∧
      (∀ m < s.ctx.heap.brk, (s'.ctx.heap.cell m).hash = (s.ctx.heap.cell m).hash) ∧
      ∀ m, s.ctx.index.Published m →
        (s'.ctx.heap.cell m).masterBlockIndex = (s.ctx.heap.cell m).masterBlockIndex := by
  rcases Machine.step_cases hstep with ⟨r, rfl, rfl⟩ |
    ⟨io, c, c', ctx', before, after, rfl, hcalls, hadv, rfl⟩
  · exact ⟨Nat.le_refl _, fun _ _ => rfl, fun _ _ => rfl⟩
  · have hcall := hs.callStep hcalls hadv hfew
    have hl := hs.ledger hcalls
    exact ⟨hcall.brk, hcall.hash, fun m hm =>
      hcall.slot m (hl.published_lt hm) (hl.not_pending hm)⟩

/-! ## Replayed runs -/

/-- A check that a replayed step leaves few references. -/
def fewCheck (_ : Machine) (_ : Event) (s' : Machine) : Bool :=
  (values s'.ctx.index.fileToMaster + s'.holds).card < 2 ^ 32

omit [Sha512] in
theorem bounded_of_fewCheck (s : Machine) (e : Event) (s' : Machine) (h : fewCheck s e s') :
    Bounded s e s' :=
  .of_card (of_decide_eq_true h)

/-- Replaying events from the initial state reaches a state of a bounded run. -/
theorem reachable_of_replay {es : List Event}
    (h : ((machine qs).replay fewCheck (machine qs).init es).isSome) :
    (machine qs).Reachable Bounded
      (((machine qs).replay fewCheck (machine qs).init es).get h) :=
  .of_replay (fun s e _ s' hc => bounded_of_fewCheck s e s' hc) (Option.some_get h).symm

/-- The same over blocks among `W`, if the dispatched writes have no others. -/
theorem reachableIn_of_replay {es : List Event} (hblocks : ∀ e ∈ es, e.BlocksIn W)
    (h : ((machine qs).replay fewCheck (machine qs).init es).isSome) :
    (machine qs).Reachable (BoundedIn W)
      (((machine qs).replay fewCheck (machine qs).init es).get h) :=
  .of_replay (fun s e he s' hc => ⟨bounded_of_fewCheck s e s' hc, hblocks e he⟩)
    (Option.some_get h).symm

end Machine

end DedupBlockFS
