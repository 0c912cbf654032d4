-- SUMMARY: A crash leaves the index of the last unmount and the master file of the moment: which blocks are still read right, and that no slot is in two places.
import DedupBlockFS.Persistence.Durability

/-!
# Crashes

The index is saved by `xmp_destroy` only. After a crash the next mount finds the index of
the last unmount, but the master file as the calls of the crashed mount have left it: slots
that have become free since then may hold other blocks. A block whose object has stayed
published is read as it was.
-/

namespace DedupBlockFS

open ByteFile
open Table (values)

section
variable [Sha512] {W : List UInt8 → Prop} {qs : Qsort} {ctx : Context} {f : Ptr → Ptr} {ix' : Index}
  {hp' : Heap} {s s' : Machine × List (Nat × Commit)} {save : SaveEnv} {load load' : LoadEnv}
  {disk : Disk} {m₀ m₂ : Machine} {log₀ log₂ : List (Nat × Commit)} {ctx₁ ctx₃ : Context}

theorem Settled.slotsOnce (hs : Settled W ctx) : SlotsOnce ctx where
  nodup := by
    have hnodup := hs.accounts.slots_nodup
    rwa [add_zero] at hnodup
  lt slot hslot := by
    have hslots := hs.accounts.balanced.slots
    simp only [poolOf, add_zero] at hslots
    rw [← Multiset.mem_range, ← hslots]
    exact hslot

omit [Sha512] in
/-- Slots before an end lie before every greater one. -/
theorem SlotsOnce.mono (h : SlotsOnce ctx) {master : List UInt8} {next : Nat}
    (hnext : ctx.nextBlockIndex ≤ next) :
    SlotsOnce { ctx with nextBlockIndex := next, master := master } where
  nodup := h.nodup
  lt slot hslot := (h.lt slot hslot).trans_le hnext

/-- The master file never gets shorter. -/
theorem Linearized.length_run (h : Linearized W s) (hrun : (withLog qs).Run (CleanIn W) s s') :
    Linearized W s' ∧ s.1.ctx.master.length ≤ s'.1.ctx.master.length := by
  refine hrun.invariant (I := fun s' : Machine × List (Nat × Commit) =>
    Linearized W s' ∧ s.1.ctx.master.length ≤ s'.1.ctx.master.length) ?_ ⟨h, Nat.le_refl _⟩
  rintro s₁ e s₂ ⟨hlin, hlen⟩ hstep hP
  refine ⟨hlin.step hstep hP, hlen.trans ?_⟩
  obtain ⟨m, hmach, rfl⟩ := Option.map_eq_some_iff.mp hstep
  exact (hlin.consistent.storage_extends hmach).grows

/-- The clean runs in which an object stays published. -/
def CleanKeeping (W : List UInt8 → Prop) (o : Ptr) (s : Machine × List (Nat × Commit)) (e : Event)
    (s' : Machine × List (Nat × Commit)) : Prop :=
  CleanIn W s e s' ∧ s'.1.ctx.index.Published o

/-- An object that stays published keeps its hash and its slot. -/
theorem Linearized.cell_run {o : Ptr} (h : Linearized W s) (ho : s.1.ctx.index.Published o)
    (hrun : (withLog qs).Run (CleanKeeping W o) s s') :
    Linearized W s' ∧ s'.1.ctx.index.Published o ∧
      (s'.1.ctx.heap.cell o).hash = (s.1.ctx.heap.cell o).hash ∧
      (s'.1.ctx.heap.cell o).masterBlockIndex = (s.1.ctx.heap.cell o).masterBlockIndex := by
  refine hrun.invariant (I := fun s' : Machine × List (Nat × Commit) => Linearized W s' ∧
    s'.1.ctx.index.Published o ∧ (s'.1.ctx.heap.cell o).hash = (s.1.ctx.heap.cell o).hash ∧
      (s'.1.ctx.heap.cell o).masterBlockIndex = (s.1.ctx.heap.cell o).masterBlockIndex)
    ?_ ⟨h, ho, rfl, rfl⟩
  rintro s₁ e s₂ ⟨hlin, hpub, hhash, hslot⟩ hstep ⟨hP, hpub'⟩
  refine ⟨hlin.step hstep hP, hpub', ?_⟩
  obtain ⟨m, hmach, rfl⟩ := Option.map_eq_some_iff.mp hstep
  obtain ⟨-, hhash', hslot'⟩ := hlin.consistent.frame hmach hP.1
  have hlt := hlin.consistent.accounts.refsLt o (hlin.consistent.accounts.published_mem_refs hpub)
  exact ⟨(hhash' o hlt).trans hhash, (hslot' o hpub).trans hslot⟩

/-- What a mount of the saved files over any master file finds. -/
theorem Settled.mount (hs : Settled W ctx) (hfits : FitsWords ctx.index ctx.heap)
    (hwrite : ∀ file k, save.answers file k = .complete) (load : LoadEnv)
    (hread : ∀ file k, 0 < load.answers file k) (hsave : xmpDestroy save ctx = some disk)
    (master : List UInt8) :
    ∃ f ix' hp', Renamed ctx.index ctx.heap f ix' hp' ∧
      xmpInit load { files := disk.files, master := master } = some
        { index := ix', heap := hp', nextBlockIndex := master.length / blockSize, master := master } := by
  obtain ⟨files, ix', hp', hdestroy, hinit, hrenamed⟩ :=
    renamed_of_destroy_init save load hs.mapped hfits hwrite hread
  simp only [xmpDestroy, hdestroy, Option.bind_eq_bind, Option.bind_some, Option.pure_def] at hsave
  obtain rfl := Option.some.inj hsave
  refine ⟨_, ix', hp', hrenamed, ?_⟩
  simp only [xmpInit, hinit, Option.bind_eq_bind, Option.bind_some, Option.pure_def]

/-- The file system is unmounted and mounted again, and the next mount crashes in any
    state, with calls in flight. The mount after the crash finds no slot in two places,
    no block that the one before it did not find, and every block as it was at the last
    unmount whose object has stayed published since then. -/
theorem crash_keeps_published (hinj : ∀ a b, W a → W b → hash a = hash b → a = b)
    (h : (service qs).Reachable (CleanService W) (m₀, log₀))
    (hreturned : ∀ c ∈ m₀.calls, c.result ≠ none) (hok : RemountOk m₀.ctx save load)
    (hread : ∀ file k, 0 < load'.answers file k) (hsave : xmpDestroy save m₀.ctx = some disk)
    (hmount : xmpInit load disk = some ctx₁)
    (hrun : (withLog qs).Run (CleanIn W) ({ m₀ with ctx := ctx₁ }, log₀) (m₂, log₂))
    (hcrash : xmpInit load' { files := disk.files, master := m₂.ctx.master } = some ctx₃) :
    SlotsOnce ctx₃ ∧
      (∀ k, ctx₁.index.fileToMaster.lookup k = none → blockContent ctx₃ k = none) ∧
      ∀ k o, ctx₁.index.fileToMaster.lookup k = some o →
        (withLog qs).Run (CleanKeeping W o) ({ m₀ with ctx := ctx₁ }, log₀) (m₂, log₂) →
          blockContent ctx₃ k = filesOf log₀ k := by
  have hserved := Served.reachable h
  have hsettled : Settled W m₀.ctx := hserved.linearized.settled hreturned
  obtain ⟨f₁, ix₁, hp₁, hrenamed₁, heq₁⟩ := hsettled.remount hserved.length hok
  rw [hsave, Option.bind_some, hmount] at heq₁
  obtain rfl := Option.some.inj heq₁
  obtain ⟨f₃, ix₃, hp₃, hrenamed₃, heq₃⟩ :=
    hsettled.mount hok.1 hok.2.1 load' hread hsave m₂.ctx.master
  obtain rfl := Option.some.inj (hcrash.symm.trans heq₃)
  have hlin₁ : Linearized W ({ m₀ with ctx := { m₀.ctx with index := ix₁, heap := hp₁ } }, log₀) :=
    hserved.linearized.of_settled hreturned (hsettled.renamed hrenamed₁)
      (hsettled.renamed_contents hrenamed₁)
  obtain ⟨-, hlen⟩ := hlin₁.length_run hrun
  have hlookup₁ : ∀ k, ix₁.fileToMaster.lookup k = (m₀.ctx.index.fileToMaster.lookup k).map f₁ :=
    fun k => hrenamed₁.blocks k.path k.offset
  have hlookup₃ : ∀ k, ix₃.fileToMaster.lookup k = (m₀.ctx.index.fileToMaster.lookup k).map f₃ :=
    fun k => hrenamed₃.blocks k.path k.offset
  refine ⟨?_, fun k hk => ?_, fun k o hk hkeep => ?_⟩
  · exact (hsettled.renamed hrenamed₃).slotsOnce.mono (hok.2.2.2.trans (Nat.div_le_div_right hlen))
  · rw [show ix₁.fileToMaster.lookup k = _ from hlookup₁ k, Option.map_eq_none_iff] at hk
    rw [blockContent, show ix₃.fileToMaster.lookup k = _ from hlookup₃ k, hk]
    rfl
  · have hpub := hlin₁.published (Table.mem_values_of_lookup hk)
    obtain ⟨hlin₂, hpub₂, hhash, hslot⟩ := hlin₁.cell_run hpub hkeep
    obtain ⟨b₂, hW₂, hb₂, -, hstore⟩ := hlin₂.consistent.intact o hpub₂
    -- what the committed updates have written has the hash of the object
    have hfile := hlin₁.contents k
    rw [contents, hk, Option.map_some] at hfile
    obtain ⟨b, hb, hbhash⟩ := Option.map_eq_some_iff.mp hfile.symm
    have hsame := hinj b b₂ (hlin₁.blocks k b hb) hW₂ (hbhash.trans (hb₂.trans hhash).symm)
    -- the mount after the crash finds it in the same slot
    obtain ⟨o₀, ho₀, rfl⟩ := Option.map_eq_some_iff.mp ((hlookup₁ k).symm.trans hk)
    have hpub₀ := hsettled.mapped o₀ (Table.mem_values_of_lookup ho₀)
    have hslot₃ : (hp₃.cell (f₃ o₀)).masterBlockIndex =
        (m₂.ctx.heap.cell (f₁ o₀)).masterBlockIndex := by
      rw [(hrenamed₃.cells o₀ hpub₀).1, hslot, ← (hrenamed₁.cells o₀ hpub₀).1]
    rw [hb, hsame, ← hstore, blockContent, show ix₃.fileToMaster.lookup k = _ from hlookup₃ k, ho₀]
    exact congrArg (fun slot => some (blockAt m₂.ctx.master slot)) hslot₃

end

/-- The mount after `overlappingWrites` crashes as soon as a read has been dispatched. -/
theorem crash_keeps_published_of_overlappingWrites :
    ∃ disk ctx₁ ctx₃, xmpDestroy bytewiseSave afterOverlappingWrites.1.ctx = some disk ∧
      xmpInit bytewiseLoad disk = some ctx₁ ∧
      xmpInit bytewiseLoad { files := disk.files, master := ctx₁.master } = some ctx₃ ∧
      SlotsOnce ctx₃ ∧
      blockContent ctx₃ (readFirstBlock.key 0) =
        filesOf afterOverlappingWrites.2 (readFirstBlock.key 0) := by
  let _ := Sha512.zeroBlock
  set m₀ := afterOverlappingWrites.1 with hm₀
  have hreturned : ∀ c ∈ m₀.calls, c.result ≠ none := by decide +kernel
  have hok := overlappingWrites_remountOk
  have hsettled := overlappingWrites_served.linearized.settled hreturned
  obtain ⟨f₁, ix₁, hp₁, hrenamed, heq⟩ :=
    hsettled.remount overlappingWrites_served.length hok
  obtain ⟨disk, hsave, hmount⟩ := Option.bind_eq_some_iff.mp heq
  set ctx₁ : Context := { m₀.ctx with index := ix₁, heap := hp₁ } with hctx₁
  have hlin : Linearized IsZeroBlock ({ m₀ with ctx := ctx₁ }, afterOverlappingWrites.2) :=
    overlappingWrites_served.linearized.of_settled hreturned (hsettled.renamed hrenamed)
      (hsettled.renamed_contents hrenamed)
  -- the read is dispatched
  set m₂ : Machine := { ctx := ctx₁, calls := m₀.calls ++ [.read readFirstBlock .start] } with hm₂
  have hstep : (withLog .mergeSort).step ({ m₀ with ctx := ctx₁ }, afterOverlappingWrites.2)
      (.dispatch (.read readFirstBlock)) = some (m₂, afterOverlappingWrites.2) := by
    simp only [withLog, Event.commits, List.append_nil]
    rfl
  have hholds : m₂.holds = Machine.holds { m₀ with ctx := ctx₁ } := by
    rw [hm₂, Machine.holds, Machine.holds, List.map_append, List.sum_append]
    exact add_zero _
  have hclean : CleanIn IsZeroBlock ({ m₀ with ctx := ctx₁ }, afterOverlappingWrites.2)
      (.dispatch (.read readFirstBlock)) (m₂, afterOverlappingWrites.2) := by
    refine ⟨?_, ?_, trivial⟩
    · rw [Machine.FewReferences, hholds]
      exact hlin.consistent.few
    · rintro ⟨_, _, _, _, he, -⟩
      cases he
  obtain ⟨f₃, ix₃, hp₃, -, hcrash⟩ := hsettled.mount hok.1 hok.2.1 bytewiseLoad
    (fun _ _ => Nat.one_pos) hsave m₂.ctx.master
  obtain ⟨o, ho⟩ : ∃ o, ctx₁.index.fileToMaster.lookup (readFirstBlock.key 0) = some o := by
    have hlookup : ix₁.fileToMaster.lookup (readFirstBlock.key 0) = _ :=
      hrenamed.blocks pathA 0
    rw [show m₀.ctx.index.lookupByFileBlock pathA 0 = some 1 by decide +kernel] at hlookup
    exact ⟨_, hlookup⟩
  have hpub := hlin.published (Table.mem_values_of_lookup ho)
  obtain ⟨honce, -, hread⟩ := crash_keeps_published (fun a b ha hb _ => ha.trans hb.symm)
    (service_of_withLog afterOverlappingWrites_reachable) hreturned hok (fun _ _ => Nat.one_pos)
    hsave hmount (.single hstep hclean) hcrash
  exact ⟨disk, ctx₁, _, hsave, hmount, hcrash, honce,
    hread _ o ho (.single hstep ⟨hclean, hpub⟩)⟩

end DedupBlockFS
