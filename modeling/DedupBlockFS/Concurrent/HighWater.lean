-- SUMMARY: The end of the slots is the largest number that has ever been needed at once, over all interleavings.
import DedupBlockFS.Concurrent.Conservation
import DedupBlockFS.Sequential.StorageFirst

/-!
# The high-water mark

`allocate_batch_storage_first` drains the free list in one section and appends in another;
in between, other calls may free slots that this one has just missed. The end of the slots
is nevertheless exactly the peak of the demand: the slots of published blocks, those that
calls in flight have out, and those that they are about to append.
-/

namespace DedupBlockFS

open ByteFile
open Table (values)

/-- How many slots the call is about to append. -/
def Call.remaining : Call → Nat
  | .write _ (.append _ _ remaining) => remaining
  | _ => 0

namespace Machine

def remaining (s : Machine) : Nat := (s.calls.map Call.remaining).sum

/-- The slots in use: of published blocks, of calls in flight, and about to be appended. -/
def demand (s : Machine) : Nat :=
  (values s.ctx.index.hashToMaster).card + s.slots.card + s.remaining

/-- The slots up to the end, and those about to be appended. -/
def reserved (s : Machine) : Nat := s.ctx.nextBlockIndex + s.remaining

end Machine

section
variable [Sha512] {W : List UInt8 → Prop} {H Pd : Multiset Ptr} {O : Multiset Nat}
  {ctx ctx' : Context} {c c' : Call} {qs : Qsort} {io : PwriteResult} {req : WriteRequest}
  {pc pc' : WritePc} {s s' : Machine} {e : Event}

/-- A section moves the end of the slots up only, and lengthens the master file up to the
    end at most. -/
structure Extends (ctx ctx' : Context) : Prop where
  next : ctx.nextBlockIndex ≤ ctx'.nextBlockIndex
  grows : ctx.master.length ≤ ctx'.master.length
  inside : ctx'.master.length ≤ max ctx.master.length (ctx'.nextBlockIndex * blockSize)

/-- What a section does to the end, to the master file and to the slots that the call is
    about to append: it reserves more only if it leaves the free list empty. -/
structure Reserves (ctx : Context) (c : Call) (ctx' : Context) (c' : Call) : Prop where
  storage : Extends ctx ctx'
  reserved : ctx'.nextBlockIndex + c'.remaining = ctx.nextBlockIndex + c.remaining ∨
    (ctx.nextBlockIndex + c.remaining ≤ ctx'.nextBlockIndex + c'.remaining ∧
      ctx'.index.freeBlockList = [])

omit [Sha512] in
theorem Extends.of_master_eq (hmaster : ctx'.master = ctx.master)
    (hnext : ctx.nextBlockIndex ≤ ctx'.nextBlockIndex) : Extends ctx ctx' where
  next := hnext
  grows := Nat.le_of_eq (congrArg List.length hmaster).symm
  inside := (Nat.le_of_eq (congrArg List.length hmaster)).trans (Nat.le_max_left _ _)

omit [Sha512] in
/-- Most sections leave the end and the master file alone. -/
theorem Reserves.of_eq (hmaster : ctx'.master = ctx.master)
    (hnext : ctx'.nextBlockIndex = ctx.nextBlockIndex) (hremaining : c'.remaining = c.remaining) :
    Reserves ctx c ctx' c' where
  storage := .of_master_eq hmaster (Nat.le_of_eq hnext.symm)
  reserved := .inl (by rw [hnext, hremaining])

/-- The slots of a call in flight lie before the end. -/
theorem Ledger.slot_lt (hl : Ledger W H Pd O ctx c) {slot : Nat} (hslot : slot ∈ c.slots) :
    slot < ctx.nextBlockIndex := by
  have hslots := hl.accounts.balanced.slots
  simp only [poolOf] at hslots
  rw [← Multiset.mem_range, ← hslots]
  simp [hslot]

theorem reserves_write (hl : Ledger W H Pd O ctx (.write req pc))
    (hadv : advanceWrite ctx req io pc = some (ctx', pc')) :
    Reserves ctx (.write req pc) ctx' (.write req pc') := by
  cases pc with
  | start =>
    simp only [advanceWrite] at hadv
    split at hadv
    · obtain ⟨rfl, rfl⟩ := Prod.ext_iff.mp (Option.some.inj hadv)
      exact .of_eq rfl rfl rfl
    · split at hadv
      · obtain ⟨rfl, rfl⟩ := Prod.ext_iff.mp (Option.some.inj hadv)
        exact .of_eq rfl rfl rfl
      · obtain ⟨rfl, rfl⟩ := Prod.ext_iff.mp (Option.some.inj hadv)
        refine .of_eq rfl rfl ?_
        dsimp only
        split <;> rfl
  | drain plan missCount =>
    simp only [advanceWrite] at hadv
    split at hadv
    · -- slots are missing, so all free ones have been taken
      rename_i hremaining
      obtain ⟨rfl, rfl⟩ := Prod.ext_iff.mp (Option.some.inj hadv)
      refine ⟨.of_master_eq rfl (Nat.le_refl _), .inr ⟨Nat.le_add_right _ _,
        List.drop_eq_nil_iff.mpr ?_⟩⟩
      simp only [Context.drainFreeList, List.length_take] at hremaining
      omega
    · obtain ⟨rfl, rfl⟩ := Prod.ext_iff.mp (Option.some.inj hadv)
      exact .of_eq rfl rfl rfl
  | append plan taken remaining =>
    obtain ⟨rfl, rfl⟩ := Prod.ext_iff.mp (Option.some.inj hadv)
    exact ⟨.of_master_eq rfl (Nat.le_add_right _ _), .inl rfl⟩
  | flush plan todo =>
    simp only [advanceWrite] at hadv
    split at hadv
    · obtain ⟨rfl, rfl⟩ := Prod.ext_iff.mp (Option.some.inj hadv)
      exact .of_eq rfl rfl rfl
    · rename_i first runLen rest hrun
      obtain ⟨rfl, rfl⟩ := Prod.ext_iff.mp (Option.some.inj hadv)
      obtain ⟨-, -, k, rfl, -⟩ := hl.ok
      refine ⟨⟨Nat.le_refl _, ?_, length_writeRun_le _ _ _ (fun slot hslot =>
        Nat.mul_le_mul_right _ (hl.slot_lt ?_)) hrun⟩, .inl ?_⟩
      · rw [writeRun, length_pwrite]
        split <;> omega
      · obtain ⟨e, he, hk, rfl⟩ := mem_missSlots.mp hslot
        exact Multiset.mem_add.mpr (.inl (mem_missSlots.mpr ⟨e, List.mem_of_mem_drop he, hk, rfl⟩))
      · dsimp only
        split <;> rfl
  | rollbackMisses plan rc =>
    obtain ⟨rfl, rfl⟩ := Prod.ext_iff.mp (Option.some.inj hadv)
    have hreleased := rollbackMisses_released ctx plan
    exact .of_eq hreleased.master hreleased.next rfl
  | done rc => cases hadv
  | consolidate plan | concat slots | rollbackHits plan rc | rollbackConcat plan slots rc =>
    obtain ⟨rfl, rfl⟩ := Prod.ext_iff.mp (Option.some.inj hadv)
    exact .of_eq rfl rfl rfl

/-- Every section of every call. -/
theorem advance_reserves (hl : Ledger W H Pd O ctx c) (hstep : advance qs ctx io c = some (ctx', c')) :
    Reserves ctx c ctx' c' := by
  cases c with
  | write req pc =>
    obtain ⟨⟨ctx₁, pc'⟩, hadv, hres⟩ := Option.map_eq_some_iff.mp hstep
    obtain ⟨rfl, rfl⟩ := Prod.ext_iff.mp hres
    exact reserves_write hl hadv
  | remove path startBlock endBlock pc =>
    obtain ⟨⟨ctx₁, pc'⟩, hadv, hres⟩ := Option.map_eq_some_iff.mp hstep
    obtain ⟨rfl, rfl⟩ := Prod.ext_iff.mp hres
    cases pc with
    | start | concat slots =>
      obtain ⟨rfl, -⟩ := Prod.ext_iff.mp (Option.some.inj hadv)
      exact .of_eq rfl rfl rfl
    | done => cases hadv
  | unlink path res pc =>
    obtain ⟨⟨ctx₁, pc'⟩, hadv, hres⟩ := Option.map_eq_some_iff.mp hstep
    obtain ⟨rfl, rfl⟩ := Prod.ext_iff.mp hres
    cases pc with
    | start =>
      simp only [advanceUnlink] at hadv
      split at hadv <;>
      · obtain ⟨rfl, -⟩ := Prod.ext_iff.mp (Option.some.inj hadv)
        exact .of_eq rfl rfl rfl
    | remove numBlocks | concat slots | dropSize =>
      obtain ⟨rfl, -⟩ := Prod.ext_iff.mp (Option.some.inj hadv)
      exact .of_eq rfl rfl rfl
    | done ret => cases hadv
  | truncate path size res pc =>
    obtain ⟨⟨ctx₁, pc'⟩, hadv, hres⟩ := Option.map_eq_some_iff.mp hstep
    obtain ⟨rfl, rfl⟩ := Prod.ext_iff.mp hres
    cases pc with
    | start =>
      simp only [advanceTruncate] at hadv
      split at hadv
      · obtain ⟨rfl, -⟩ := Prod.ext_iff.mp (Option.some.inj hadv)
        exact .of_eq rfl rfl rfl
      · split at hadv <;>
        · obtain ⟨rfl, -⟩ := Prod.ext_iff.mp (Option.some.inj hadv)
          exact .of_eq rfl rfl rfl
    | setSize =>
      obtain ⟨rfl, -⟩ := Prod.ext_iff.mp (Option.some.inj hadv)
      rw [truncateSetSize_eq]
      exact .of_eq rfl rfl rfl
    | remove newBlockCount oldBlockCount | concat slots =>
      obtain ⟨rfl, -⟩ := Prod.ext_iff.mp (Option.some.inj hadv)
      exact .of_eq rfl rfl rfl
    | done ret => cases hadv
  | read req pc =>
    obtain ⟨pc', hadv, hres⟩ := Option.map_eq_some_iff.mp hstep
    obtain ⟨rfl, rfl⟩ := Prod.ext_iff.mp hres
    exact .of_eq rfl rfl rfl

theorem Machine.Consistent.storage_extends (hs : s.Consistent W) (hstep : (machine qs).step s e = some s') :
    Extends s.ctx s'.ctx := by
  rcases Machine.step_cases hstep with ⟨r, rfl, rfl⟩ |
    ⟨io, c, c', ctx', before, after, rfl, hcalls, hadv, rfl⟩
  · exact .of_master_eq rfl (Nat.le_refl _)
  · exact (advance_reserves (hs.ledger hcalls) hadv).storage

/-! ## The peak -/

end

end DedupBlockFS
