-- SUMMARY: The files still change in one step per call when pass 1 and phase 1 are interleaved lookup by lookup.
import DedupBlockFS.Concurrent.Linearization
import DedupBlockFS.Concurrent.Progress

/-!
# Linearization under the read lock

Inside the read lock a call changes nothing that the files consist of, so at this grain,
too, a write takes effect in its pass 3. A step inside the lock is a section of the call
that it looks like (`FineCall.view`), or the call looks the same before and after it, or
it takes references in pass 1; in none of these cases it commits anything. Phase 1 of a
read finds what it would find if it ran as a whole at its end.
-/

namespace DedupBlockFS

open ByteFile
open Table (values)

section
variable [Sha512] {W : List UInt8 → Prop} {H Pd : Multiset Ptr} {O : Multiset Nat}
  {ctx ctx' : Context} {qs : Qsort} {io : PwriteResult}

/-! ## Steps that commit nothing -/

/-- A step that keeps its objects to itself and leaves the mappings alone. -/
structure Silent (ctx : Context) (c : Call) (ctx' : Context) (c' : Call) : Prop where
  pending : ∀ m ∈ c.pending, m ∈ c'.pending
  handover : Handover ctx c ctx' c'
  files : ctx'.index.fileToMaster = ctx.index.fileToMaster
  commit : c.commit = none
  committed : ∀ cms, c.Committed cms → c'.Committed cms

variable {s : Machine × List (Nat × Commit)} {before after : List Call} {c c' : Call}

theorem Linearized.silent (h : Linearized W s) (hcalls : s.1.calls = before ++ c :: after)
    (hstep : CallStep W ((before ++ after).map Call.holds).sum
      ((before ++ after).map Call.pending).sum ((before ++ after).map Call.slots).sum
      s.1.ctx c ctx' c') (hsilent : Silent s.1.ctx c ctx' c') :
    Linearized W ({ ctx := ctx', calls := before ++ c' :: after }, s.2) where
  consistent := h.consistent.of_callStep hcalls hstep
  guarded := h.guarded.of_callStep h.consistent hcalls hstep hsilent.handover fun m hm =>
    .inl (hsilent.pending m hm)
  contents k := by
    rw [← h.contents k]
    exact contents_of_lookup (h.consistent.ledger hcalls) hstep (by rw [hsilent.files])
  blocks := h.blocks

omit [Sha512] in
theorem Logged.silent (h : Logged s) (hcalls : s.1.calls = before ++ c :: after)
    (hsilent : Silent s.1.ctx c ctx' c') :
    Logged ({ ctx := ctx', calls := before ++ c' :: after }, s.2) := by
  refine ⟨fun tid d hd => ?_, fun entry hentry => ?_⟩
  · by_cases htid : tid = before.length
    · subst htid
      obtain rfl : c' = d := by simpa using hd
      exact hsilent.committed _ (h.calls before.length c (by rw [hcalls]; simp))
    · have hset : before ++ c' :: after = s.1.calls.set before.length c' := by
        rw [hcalls]
        simp
      dsimp only at hd
      rw [hset, List.getElem?_set_ne (Ne.symm htid)] at hd
      exact h.calls tid d hd
  · have hlen : (before ++ c' :: after).length = s.1.calls.length := by
      rw [hcalls]
      simp
    exact hlen ▸ h.known entry hentry

/-! ## Steps inside the read lock -/

variable {req : WriteRequest} {st : Pass1Local} {i : Nat} {found : Option Ptr}

/-- A call that leaves pass 1 keeps what its plan owns. -/
theorem silent_leave (h : InPass1 ctx req st req.numBlocks) :
    Silent ctx (FineCall.lookup req st req.numBlocks).view ctx (.write req st.leave) := by
  obtain ⟨hpending, hholds, -⟩ := h.view_owns
  obtain ⟨hpending', hholds', -⟩ := h.leave_owns
  have heq : (Call.write req st.leave).pending =
      (FineCall.lookup req st req.numBlocks).view.pending := hpending'.trans hpending.symm
  refine ⟨fun m hm => heq ▸ hm, .of_le heq (hholds'.trans hholds.symm).le fun _ hm => hm, rfl, ?_,
    fun cms hcms => ?_⟩
  · simp only [FineCall.view]
    split <;> rfl
  · have hnone : cms = [] := by
      simp only [FineCall.view] at hcms
      split at hcms <;> exact hcms
    unfold Pass1Local.leave
    split <;> exact hnone

/-- What the plan owns once the block `i` is planned. -/
theorem InPass1.take_owns (h : InPass1 ctx req st i)
    (hfound : found = lookupBlock ctx.index req.buf st i) {r : Heap × Pass1Local}
    (hr : r = takeBlock ctx.heap req.buf req.startBlock st i found) :
    (∀ m ∈ missInfos st.plan, m ∈ missInfos r.2.plan) ∧
      (∀ m ∈ missInfos r.2.plan, m ∈ missInfos st.plan ∨ ctx.heap.brk ≤ m) ∧
      ∀ m ∈ infos r.2.plan, m ∈ infos st.plan ∨ ctx.index.Published m ∨ m ∈ missInfos r.2.plan := by
  subst hr
  cases found with
  | some existing =>
    have hplan : missInfos (takeBlock ctx.heap req.buf req.startBlock st i (some existing)).2.plan =
        missInfos st.plan :=
      (missInfos_append _ _).trans (by rw [missInfos_cons_hit rfl, missInfos_nil, add_zero])
    rw [hplan]
    refine ⟨fun _ hm => hm, fun _ hm => .inl hm, fun m hm => ?_⟩
    simp only [takeBlock, infos_append, infos_cons, infos_nil, Multiset.mem_add,
      Multiset.mem_cons, Multiset.notMem_zero, or_false] at hm
    rcases hm with hm | rfl
    · exact .inl hm
    · right
      rcases Option.or_eq_some_iff.mp hfound.symm with hpub | ⟨-, hpend⟩
      · exact .inl (Table.mem_values_of_lookup hpub)
      · obtain ⟨e, he, hk, -, rfl⟩ := (h.pendingHashes _ _).mp hpend
        exact .inr (mem_missInfos.mpr ⟨e, he, hk, rfl⟩)
  | none =>
    have hplan : missInfos (takeBlock ctx.heap req.buf req.startBlock st i none).2.plan =
        missInfos st.plan + {ctx.heap.brk} :=
      (missInfos_append _ _).trans (by rw [missInfos_cons_miss rfl, missInfos_nil]; rfl)
    rw [hplan]
    refine ⟨fun _ hm => Multiset.mem_add.mpr (.inl hm), fun m hm => ?_, fun m hm => ?_⟩
    · rcases Multiset.mem_add.mp hm with hm | hm
      · exact .inl hm
      · exact .inr (Multiset.mem_singleton.mp hm).ge
    · simp only [takeBlock, infos_append, infos_cons, infos_nil, Multiset.mem_add,
        Multiset.mem_cons, Multiset.notMem_zero, or_false] at hm
      rcases hm with hm | rfl
      · exact .inl hm
      · exact .inr (.inr (Multiset.mem_add.mpr (.inr (Multiset.mem_singleton_self _))))

/-- A call that takes a reference in pass 1 takes it to a published object or to one of its
    own, and its new objects are new. -/
theorem silent_take (h : InPass1 ctx req st i)
    (hfound : found = lookupBlock ctx.index req.buf st i) {r : Heap × Pass1Local}
    (hr : r = takeBlock ctx.heap req.buf req.startBlock st i found)
    (h' : InPass1 { ctx with heap := r.1 } req r.2 (i + 1)) :
    Silent ctx (FineCall.take req st i found).view { ctx with heap := r.1 }
      (FineCall.lookup req r.2 (i + 1)).view := by
  obtain ⟨hpending, hholds, -⟩ := h.view_owns
  obtain ⟨hpending', hholds', -⟩ := h'.view_owns
  rw [show (FineCall.take req st i found).view = (FineCall.lookup req st i).view from rfl]
  have hcommit : ∀ (k : Nat) (st : Pass1Local), (FineCall.lookup req st k).view.commit = none := by
    intro k st
    simp only [FineCall.view]
    split <;> rfl
  have hcommitted : ∀ (k : Nat) (st : Pass1Local) (cms : List Commit),
      (FineCall.lookup req st k).view.Committed cms ↔ cms = [] := by
    intro k st cms
    simp only [FineCall.view]
    split <;> exact Iff.rfl
  have htaken := h.take_owns hfound hr
  refine ⟨fun m hm => ?_, ⟨fun m hm => ?_, fun m hm => ?_, fun m hm => .inl hm⟩, rfl, hcommit i st,
    fun cms hcms => (hcommitted _ _ _).mpr ((hcommitted _ _ _).mp hcms)⟩
  · rw [hpending] at hm
    exact hpending' ▸ htaken.1 m hm
  · rw [hpending'] at hm
    exact hpending ▸ htaken.2.1 m hm
  · rw [hholds'] at hm
    rw [hholds, hpending']
    exact htaken.2.2 m hm

/-- A step of a call at this grain does not show, or is a section of the call that it looks
    like, or commits nothing. -/
theorem advanceFine_view {c c' : FineCall} (hok : c.Ok ctx) (hok' : c'.Ok ctx')
    (h : advanceFine qs ctx io c = some (ctx', c')) :
    (ctx' = ctx ∧ c'.view = c.view ∧ c.view.commit = none) ∨
      advance qs ctx io c.view = some (ctx', c'.view) ∨ Silent ctx c.view ctx' c'.view := by
  have houtside : ∀ d : Call,
      (advance qs ctx io d).map (fun r => (r.1, FineCall.outside r.2)) = some (ctx', c') →
      advance qs ctx io d = some (ctx', c'.view) := by
    intro d hmap
    obtain ⟨⟨ctx₁, d'⟩, hadv, hres⟩ := Option.map_eq_some_iff.mp hmap
    obtain ⟨rfl, rfl⟩ := Prod.ext_iff.mp hres
    exact hadv
  cases c with
  | outside d =>
    simp only [advanceFine] at h
    unfold enter at h
    split at h
    · split at h
      · obtain ⟨rfl, rfl⟩ := Prod.ext_iff.mp (Option.some.inj h)
        exact .inl ⟨rfl, rfl, rfl⟩
      · exact .inr (.inl (houtside _ h))
    · split at h
      · obtain ⟨rfl, rfl⟩ := Prod.ext_iff.mp (Option.some.inj h)
        exact .inl ⟨rfl, rfl, rfl⟩
      · exact .inr (.inl (houtside _ h))
    · exact .inr (.inl (houtside _ h))
  | lookup req st i =>
    have hin : InPass1 ctx req st i := hok
    simp only [advanceFine] at h
    split at h
    · obtain ⟨rfl, rfl⟩ := Prod.ext_iff.mp (Option.some.inj h)
      refine .inl ⟨rfl, rfl, ?_⟩
      simp only [FineCall.view]
      split <;> rfl
    · rename_i hi
      obtain ⟨rfl, rfl⟩ := Prod.ext_iff.mp (Option.some.inj h)
      obtain rfl : i = req.numBlocks := Nat.le_antisymm hin.le (not_lt.mp hi)
      exact .inr (.inr (silent_leave hin))
  | take req st i found =>
    obtain ⟨hin, -, hfound⟩ := hok
    obtain ⟨rfl, rfl⟩ := Prod.ext_iff.mp (Option.some.inj h)
    exact .inr (.inr (silent_take hin hfound rfl hok'))
  | phase1 req pairs =>
    simp only [advanceFine] at h
    split at h
    · obtain ⟨rfl, rfl⟩ := Prod.ext_iff.mp (Option.some.inj h)
      exact .inl ⟨rfl, rfl, rfl⟩
    · obtain ⟨rfl, rfl⟩ := Prod.ext_iff.mp (Option.some.inj h)
      exact .inr (.inr ⟨fun _ hm => hm, .of_le rfl (le_refl _) fun _ hm => hm, rfl, rfl,
        fun _ hcms => hcms⟩)

end

/-! ## The machine -/

section
variable [Sha512] {W : List UInt8 → Prop} {qs : Qsort} {e : Event}

/-- The machine with the read lock next to the log of its commits. -/
def fineWithLog (qs : Qsort) : TransitionSystem (FineMachine × List (Nat × Commit)) Event where
  init := ((fineMachine qs).init, [])
  step s e := ((fineMachine qs).step s.1 e).map fun s' => (s', s.2 ++ e.commits s.1.view)

/-- The bounded runs over blocks among `W` in which no pass 3 discards a shared object. -/
def CleanFine (W : List UInt8 → Prop) (s : FineMachine × List (Nat × Commit)) (e : Event)
    (s' : FineMachine × List (Nat × Commit)) : Prop :=
  s'.1.view.FewReferences ∧ ¬s.1.view.Discards e ∧ e.BlocksIn W

/-- The machine that it looks like is linearized, and logs what it commits. -/
structure FineLinearized (W : List UInt8 → Prop) (s : FineMachine × List (Nat × Commit)) :
    Prop where
  consistent : s.1.Consistent W
  linearized : Linearized W (s.1.view, s.2)
  logged : Logged (s.1.view, s.2)

variable {s s' : FineMachine × List (Nat × Commit)}

theorem FineLinearized.init : FineLinearized W (fineWithLog qs).init where
  consistent := @FineMachine.Consistent.init _ W qs
  linearized := @Linearized.init _ W qs
  logged := ⟨fun _ _ hc => (by cases hc), fun _ hentry => (by cases hentry)⟩

variable (qs) in
/-- A step that is one of the machine of whole sections. -/
theorem FineLinearized.of_withLog (h : FineLinearized W s) (hP : CleanFine W s e s')
    (hconsistent : s'.1.Consistent W)
    (hstep : (withLog qs).step (s.1.view, s.2) e = some (s'.1.view, s'.2)) :
    FineLinearized W s' where
  consistent := hconsistent
  linearized := h.linearized.step hstep hP
  logged := h.logged.step h.linearized.consistent hstep

/-- Every clean step keeps the machine linearized. -/
theorem FineLinearized.step (h : FineLinearized W s) (hstep : (fineWithLog qs).step s e = some s')
    (hP : CleanFine W s e s') : FineLinearized W s' := by
  obtain ⟨m, hmach, rfl⟩ := Option.map_eq_some_iff.mp hstep
  have hconsistent := h.consistent.step hmach hP.1 hP.2.2
  rcases FineMachine.step_cases hmach with ⟨r, rfl, rfl⟩ |
    ⟨io, c, c', ctx', before, after, rfl, hcalls, -, hadv, rfl⟩
  · refine h.of_withLog qs hP hconsistent ?_
    simp only [withLog, machine, Machine.step, FineMachine.view, List.map_append, List.map_cons,
      List.map_nil, FineCall.view, Option.map_some, Event.commits]
  have hmem : c ∈ s.1.calls := by rw [hcalls]; simp
  have hview := FineMachine.view_calls hcalls
  have hview' : (FineMachine.view { ctx := ctx', calls := before ++ c' :: after }).calls =
      before.map FineCall.view ++ c'.view :: after.map FineCall.view := FineMachine.view_calls rfl
  have hlen : before.length = (before.map FineCall.view).length := (List.length_map _).symm
  have hok' := hconsistent.ok c' (by simp)
  have hcommits : Event.commits s.1.view (.run before.length io) =
      (c.view.commit.map fun cm => (before.length, cm)).toList := by
    rw [hlen]
    exact Event.commits_run hview io
  rcases advanceFine_view (h.consistent.ok c hmem) hok' hadv with ⟨rfl, hsame, hnone⟩ | hsection |
    hsilent
  · have hstate : FineMachine.view { ctx := s.1.ctx, calls := before ++ c' :: after } =
        s.1.view := by
      simp only [FineMachine.view, hcalls, List.map_append, List.map_cons, hsame]
    rw [hcommits, hnone, Option.map_none, Option.toList_none, List.append_nil]
    exact ⟨hconsistent, hstate ▸ h.linearized, hstate ▸ h.logged⟩
  · refine h.of_withLog qs hP hconsistent ?_
    have hget : s.1.view.calls[before.length]? = some c.view := by
      rw [hview, hlen, List.getElem?_append_right (Nat.le_refl _), Nat.sub_self]
      rfl
    have hset : s.1.view.calls.set before.length c'.view =
        (FineMachine.view { ctx := ctx', calls := before ++ c' :: after }).calls := by
      rw [hview, hview', hlen, List.set_append_right _ _ (Nat.le_refl _), Nat.sub_self,
        List.set_cons_zero]
    simp only [withLog, machine, Machine.step, hget]
    rw [show advance qs s.1.view.ctx io c.view = some (ctx', c'.view) from hsection]
    simp only [Option.map_some, hset]
    rfl
  · have hfew := hP.1
    simp only [Machine.FewReferences, Machine.holds, hview', Machine.sum_split] at hfew
    obtain ⟨hcall, -, -⟩ := advanceFine_callStep (h.linearized.consistent.ledger hview)
      (h.consistent.ok c hmem) (h.consistent.blocks c hmem) hadv hfew
    have hlinearized := h.linearized.silent hview hcall hsilent
    have hlogged := h.logged.silent hview hsilent
    rw [hcommits, hsilent.commit, Option.map_none, Option.toList_none, List.append_nil]
    rw [← hview'] at hlinearized hlogged
    exact ⟨hconsistent, hlinearized, hlogged⟩

theorem FineLinearized.reachable (h : (fineWithLog qs).Reachable (CleanFine W) s) :
    FineLinearized W s :=
  h.invariant .init fun _ _ _ hs hstep hP => hs.step hstep hP

theorem advanceFine_returned {ctx : Context} {io : PwriteResult} {c : FineCall}
    (h : c.result ≠ none) : advanceFine qs ctx io c = none := by
  cases c with
  | outside d =>
    have hnone : advance qs ctx io d = none := advance_returned h
    simp only [advanceFine]
    unfold enter
    split
    · exact absurd rfl h
    · exact absurd rfl h
    · rw [hnone, Option.map_none]
  | _ => exact absurd rfl h

omit [Sha512] in
/-- Only a call in flight commits. -/
theorem FineCall.result_of_commit {c : FineCall} {cm : Commit} (h : c.view.commit = some cm) :
    c.result = none := by
  cases c with
  | outside d => exact Call.result_of_commit h
  | _ => rfl

/-- A call that has returned stays as it is. -/
theorem FineMachine.step_returned {m m' : FineMachine} (hstep : (fineMachine qs).step m e = some m')
    {tid : Nat} {c : FineCall} (hc : m.calls[tid]? = some c) (hresult : c.result ≠ none) :
    m'.calls[tid]? = some c := by
  rcases FineMachine.step_cases hstep with ⟨r, -, rfl⟩ |
    ⟨io, d, d', ctx', before, after, -, hcalls, -, hadv, rfl⟩
  · rw [List.getElem?_append_left (List.getElem?_eq_some_iff.mp hc).1]
    exact hc
  · have hset : before ++ d' :: after = m.calls.set before.length d' := by
      rw [hcalls]
      simp
    have hne : before.length ≠ tid := by
      rintro rfl
      rw [hcalls, List.getElem?_append_right (Nat.le_refl _), Nat.sub_self] at hc
      obtain rfl : d = c := Option.some.inj hc
      rw [advanceFine_returned hresult] at hadv
      cases hadv
    dsimp only
    rw [hset, List.getElem?_set_ne hne]
    exact hc

/-- What a run adds to the log, the calls that had returned before have no part in. -/
theorem fineLog_grows {P : FineMachine × List (Nat × Commit) → Event →
      FineMachine × List (Nat × Commit) → Prop} (hrun : (fineWithLog qs).Run P s s') :
    ∃ new, s'.2 = s.2 ++ new ∧
      ∀ entry ∈ new, ∀ c : FineCall, s.1.calls[entry.1]? = some c → c.result = none := by
  refine (hrun.invariant (I := fun s' : FineMachine × List (Nat × Commit) =>
    (∃ new, s'.2 = s.2 ++ new ∧
      ∀ entry ∈ new, ∀ c : FineCall, s.1.calls[entry.1]? = some c → c.result = none) ∧
    ∀ (tid : Nat) (c : FineCall), s.1.calls[tid]? = some c → c.result ≠ none →
      s'.1.calls[tid]? = some c)
    ?_ ⟨⟨[], (List.append_nil _).symm, fun _ h => by cases h⟩, fun _ _ hc _ => hc⟩).1
  rintro s₁ e s₂ ⟨⟨new, hlog, hnew⟩, hstay⟩ hstep -
  obtain ⟨m, hmach, rfl⟩ := Option.map_eq_some_iff.mp hstep
  refine ⟨⟨new ++ e.commits s₁.1.view, by rw [hlog, List.append_assoc],
      fun entry hentry c hc => ?_⟩,
    fun tid c hc hres => FineMachine.step_returned hmach (hstay tid c hc hres) hres⟩
  rcases List.mem_append.mp hentry with hold | hlast
  · exact hnew entry hold c hc
  · by_contra hres
    have hcall := hstay entry.1 c hc hres
    cases e with
    | dispatch r => cases hlast
    | run tid io =>
      obtain ⟨rfl, hcommit⟩ := mem_map_toList hlast
      have hview : s₁.1.view.calls[entry.1]? = some c.view := by
        show (s₁.1.calls.map FineCall.view)[entry.1]? = _
        rw [List.getElem?_map, hcall, Option.map_some]
      rw [hview, Option.bind_some] at hcommit
      exact hres (FineCall.result_of_commit hcommit)

/-- In every state that a clean run reaches at this grain, with any number of threads inside
    the read lock, the slots hold what the committed updates have written, one after the
    other in the order of their commits. Each call has committed what it is about, once,
    from its pass 3 on, and a call that has returned commits nothing later. -/
theorem readers_linearize {log : List (Nat × Commit)} {m : FineMachine}
    (hinj : ∀ a b, W a → W b → hash a = hash b → a = b)
    (h : (fineWithLog qs).Reachable (CleanFine W) (m, log)) :
    (∀ k, blockContent m.ctx k = filesOf log k) ∧
      (∀ tid (c : FineCall), m.calls[tid]? = some c → c.view.Committed (commitsOf tid log)) ∧
      (∀ entry ∈ log, entry.1 < m.calls.length) ∧
      ∀ m' log', (fineWithLog qs).Run (CleanFine W) (m, log) (m', log') →
        ∃ new, log' = log ++ new ∧
          ∀ entry ∈ new, ∀ c : FineCall, m.calls[entry.1]? = some c → c.result = none := by
  have hs := FineLinearized.reachable h
  refine ⟨hs.linearized.blockContent_eq hinj, fun tid c hc => ?_, fun entry hentry => ?_,
    fun _ _ hrun => fineLog_grows hrun⟩
  · refine hs.logged.calls tid c.view ?_
    show (m.calls.map FineCall.view)[tid]? = _
    rw [List.getElem?_map, hc, Option.map_some]
  · exact (hs.logged.known entry hentry).trans_eq (List.length_map _)

end

/-! ## What the lookups come to -/

section
variable [Sha512] {ctx ctx' : Context} {req : WriteRequest} {st : Pass1Local} {i : Nat}
  {found : Option Ptr} {qs : Qsort} {io : PwriteResult}

/-- The first block with a content that is not published is a MISS, every other block a HIT. -/
def Decided (ix : Index) (req : WriteRequest) (plan : List PlanEntry) : Prop :=
  ∀ i e, plan[i]? = some e → (e.kind = .miss ↔
    ix.lookupByHash (hash (req.block i)) = none ∧ ∀ j < i, hash (req.block j) ≠ hash (req.block i))

/-- How far a call inside the read lock has got. -/
def FineCall.Exact (ctx : Context) : FineCall → Prop
  | .outside _ => True
  | .lookup req st _ | .take req st _ _ => Decided ctx.index req st.plan
  | .phase1 req pairs => req.Accepted ∧ pairs.length ≤ req.numBlocks

/-- The lookups for a block find nothing exactly if its content is not published and has not
    occurred in the request. -/
theorem InPass1.lookupBlock_eq_none (h : InPass1 ctx req st i)
    (hkeyed : ∀ m, ctx.index.Published m →
      ctx.index.lookupByHash (ctx.heap.cell m).hash = some m) :
    lookupBlock ctx.index req.buf st i = none ↔
      ctx.index.lookupByHash (hash (req.block i)) = none ∧
        ∀ j < i, hash (req.block j) ≠ hash (req.block i) := by
  rw [lookupBlock, hash_payload, Option.or_eq_none_iff]
  refine and_congr_right fun hnew => ⟨fun hnone j hj heq => ?_, fun hfirst => ?_⟩
  · have hpending : ∀ e ∈ st.plan, e.kind = .miss → e.hash ≠ hash (req.block i) := by
      intro e he hk hhash
      have hsome := (h.pendingHashes (hash (req.block i)) e.info).mpr ⟨e, he, hk, hhash, rfl⟩
      rw [hnone] at hsome
      cases hsome
    obtain ⟨d, hget⟩ : ∃ d, st.plan[j]? = some d :=
      ⟨_, List.getElem?_eq_getElem (h.length ▸ hj : j < st.plan.length)⟩
    have hmem := List.mem_of_getElem? hget
    have hhash := (h.plan.entries j d hget).hash.trans heq
    -- a MISS is in `pendingHashes` itself, a HIT leads to a published object or to a MISS
    cases hk : d.kind with
    | miss => exact hpending _ hmem hk hhash
    | hit =>
      rcases h.plan.hits _ hmem hk with hpub | hown
      · have hsome := hkeyed _ hpub
        rw [h.plan.hashed _ hmem, hhash, hnew] at hsome
        cases hsome
      · obtain ⟨e, he, hke, hinfo⟩ := mem_missInfos.mp hown
        refine hpending e he hke ?_
        rw [← h.plan.hashed e he, hinfo, h.plan.hashed _ hmem, hhash]
  · rw [Option.eq_none_iff_forall_ne_some]
    intro m hm
    obtain ⟨e, he, -, hhash, -⟩ := (h.pendingHashes _ _).mp hm
    obtain ⟨j, hget⟩ := List.mem_iff_getElem?.mp he
    have hj : j < i := h.length ▸ (List.getElem?_eq_some_iff.mp hget).1
    exact hfirst j hj ((h.plan.entries j e hget).hash.symm.trans hhash)

theorem Decided.take (h : InPass1 ctx req st i) (hplan : Decided ctx.index req st.plan)
    (hkeyed : ∀ m, ctx.index.Published m →
      ctx.index.lookupByHash (ctx.heap.cell m).hash = some m)
    (hfound : found = lookupBlock ctx.index req.buf st i) :
    Decided ctx.index req (takeBlock ctx.heap req.buf req.startBlock st i found).2.plan := by
  have hiff := h.lookupBlock_eq_none hkeyed
  rw [← hfound] at hiff
  have hentry : ∃ e : PlanEntry, (e.kind = .miss ↔ found = none) ∧
      (takeBlock ctx.heap req.buf req.startBlock st i found).2.plan = st.plan ++ [e] := by
    cases found with
    | some existing => exact ⟨_, ⟨fun hk => (by cases hk), fun hn => (by cases hn)⟩, rfl⟩
    | none => exact ⟨_, ⟨fun _ => rfl, fun _ => rfl⟩, rfl⟩
  obtain ⟨e, hkind, heq⟩ := hentry
  rw [heq]
  intro j d hd
  rcases Nat.lt_or_ge j st.plan.length with hlt | hge
  · rw [List.getElem?_append_left hlt] at hd
    exact hplan j d hd
  · rw [List.getElem?_append_right hge, List.getElem?_singleton] at hd
    split at hd
    · obtain rfl := Option.some.inj hd
      obtain rfl : j = i := by
        have hlength := h.length
        omega
      exact hkind.trans hiff
    · cases hd

/-- What a call has found out does not change while it is inside. -/
theorem FineCall.Exact.frame {c : FineCall} (h : c.Exact ctx)
    (htable : c.inside → ctx'.index.hashToMaster = ctx.index.hashToMaster) : c.Exact ctx' := by
  cases c with
  | outside d => trivial
  | lookup req st i | take req st i found =>
    intro j e he
    rw [Index.lookupByHash, htable rfl]
    exact h j e he
  | phase1 req pairs => exact h

theorem advanceFine_exact {c c' : FineCall} (hok : c.Ok ctx) (h : c.Exact ctx)
    (hkeyed : ∀ m, ctx.index.Published m →
      ctx.index.lookupByHash (ctx.heap.cell m).hash = some m)
    (hadv : advanceFine qs ctx io c = some (ctx', c')) : c'.Exact ctx' := by
  have houtside : ∀ d : Call,
      (advance qs ctx io d).map (fun r => (r.1, FineCall.outside r.2)) = some (ctx', c') →
      c'.Exact ctx' := by
    intro d hmap
    obtain ⟨⟨ctx₁, d'⟩, -, hres⟩ := Option.map_eq_some_iff.mp hmap
    obtain ⟨rfl, rfl⟩ := Prod.ext_iff.mp hres
    trivial
  cases c with
  | outside d =>
    simp only [advanceFine] at hadv
    unfold enter at hadv
    split at hadv
    · split at hadv
      · obtain ⟨rfl, rfl⟩ := Prod.ext_iff.mp (Option.some.inj hadv)
        exact fun i e he => by cases he
      · exact houtside _ hadv
    · split at hadv
      · rename_i haccepted
        obtain ⟨rfl, rfl⟩ := Prod.ext_iff.mp (Option.some.inj hadv)
        exact ⟨haccepted, Nat.zero_le _⟩
      · exact houtside _ hadv
    · exact houtside _ hadv
  | lookup req st i =>
    simp only [advanceFine] at hadv
    split at hadv
    · obtain ⟨rfl, rfl⟩ := Prod.ext_iff.mp (Option.some.inj hadv)
      exact h
    · obtain ⟨rfl, rfl⟩ := Prod.ext_iff.mp (Option.some.inj hadv)
      trivial
  | take req st i found =>
    obtain ⟨hin, -, hfound⟩ := hok
    obtain ⟨rfl, rfl⟩ := Prod.ext_iff.mp (Option.some.inj hadv)
    exact Decided.take hin h hkeyed hfound
  | phase1 req pairs =>
    obtain ⟨haccepted, -⟩ := h
    simp only [advanceFine] at hadv
    split at hadv
    · rename_i hp
      obtain ⟨rfl, rfl⟩ := Prod.ext_iff.mp (Option.some.inj hadv)
      split at hp
      · rename_i hlt
        exact ⟨haccepted, by rw [List.length_append]; exact hlt⟩
      · cases hp
    · obtain ⟨rfl, rfl⟩ := Prod.ext_iff.mp (Option.some.inj hadv)
      trivial

omit [Sha512] in
/-- Phase 1 that has found these pairs, one after the other, and no further one. -/
theorem lookupPairs_eq_of_steps {ix : Index} {hp : Heap} {path : CString} {startBlock : Nat}
    {pairs : List BlockPair} {n k : Nat}
    (hpairs : ∀ i p, pairs[i]? = some p →
      lookupPair ix hp path startBlock (k + i) = some p)
    (hle : pairs.length ≤ n)
    (hend : pairs.length < n → lookupPair ix hp path startBlock (k + pairs.length) = none) :
    lookupPairs ix hp path startBlock n k = pairs := by
  induction pairs generalizing n k with
  | nil =>
    cases n with
    | zero => rfl
    | succ n =>
      have hnone := Option.map_eq_none_iff.mp (hend (Nat.succ_pos n))
      simp only [lookupPairs, List.length_nil, Nat.add_zero] at hnone ⊢
      rw [hnone]
  | cons p pairs ih =>
    cases n with
    | zero => cases hle
    | succ n =>
      obtain ⟨m, hm, rfl⟩ := Option.map_eq_some_iff.mp (hpairs 0 p rfl)
      have hrest := ih (n := n) (k := k + 1)
        (fun i q hq => by rw [Nat.add_assoc, Nat.add_comm 1]; exact hpairs (i + 1) q hq)
        (Nat.le_of_succ_le_succ hle) fun hlt => by
          rw [Nat.add_assoc, Nat.add_comm 1]
          exact hend (Nat.succ_lt_succ hlt)
      rw [Nat.add_zero] at hm
      simp only [lookupPairs, hm, hrest]
      rfl

variable {W : List UInt8 → Prop} {log : List (Nat × Commit)} {m : FineMachine}

theorem exact_reachable (h : (fineWithLog qs).Reachable (CleanFine W) (m, log)) :
    ∀ c ∈ m.calls, c.Exact m.ctx := by
  refine (h.invariant (I := fun s : FineMachine × List (Nat × Commit) =>
    FineLinearized W s ∧ ∀ c ∈ s.1.calls, c.Exact s.1.ctx)
    ⟨.init, fun c hc => absurd hc List.not_mem_nil⟩ ?_).2
  rintro s e s' ⟨hs, hexact⟩ hstep hP
  refine ⟨hs.step hstep hP, fun d hd => ?_⟩
  obtain ⟨m', hmach, rfl⟩ := Option.map_eq_some_iff.mp hstep
  rcases FineMachine.step_cases hmach with ⟨r, rfl, rfl⟩ |
    ⟨io, c, c', ctx', before, after, rfl, hcalls, hfree, hadv, rfl⟩
  · rcases List.mem_append.mp hd with hd | hd
    · exact hexact d hd
    · obtain rfl := List.mem_singleton.mp hd
      trivial
  · have hmem : c ∈ s.1.calls := by rw [hcalls]; simp
    have hcases : d = c' ∨ d ∈ before ++ after := by simpa [or_left_comm] using hd
    rcases hcases with rfl | hd
    · exact advanceFine_exact (hs.consistent.ok c hmem) (hexact c hmem)
        (fun p hp => hs.consistent.view.accounts.lookup_hash hp) hadv
    · have hd' : d ∈ s.1.calls := by
        rw [hcalls]
        rcases List.mem_append.mp hd with hd | hd <;> simp [hd]
      refine (hexact d hd').frame fun hin => ?_
      refine (advanceFine_tables hadv (Bool.eq_false_iff.mpr fun hex => ?_)).1
      rw [hfree hex d hd'] at hin
      cases hin

/-- Interleaved with any other threads inside the read lock, pass 1 and phase 1 come to what
    they would come to at once. A block of a write is a MISS exactly if its content is not
    published and has not occurred in the request, a HIT shares the published object or one
    of the request's own; and a read leaves phase 1 with all that it would find then. -/
theorem read_lock_atomic (h : (fineWithLog qs).Reachable (CleanFine W) (m, log)) :
    (∀ req st i, .lookup req st i ∈ m.calls → st.plan.length = i ∧
      ∀ j e, st.plan[j]? = some e →
        (e.kind = .miss ↔ m.ctx.index.lookupByHash (hash (req.block j)) = none ∧
          ∀ k < j, hash (req.block k) ≠ hash (req.block j)) ∧
        (e.kind = .hit → m.ctx.index.lookupByHash (hash (req.block j)) = some e.info ∨
          e.info ∈ missInfos st.plan)) ∧
    ∀ req pairs io ctx' c, .phase1 req pairs ∈ m.calls →
      advanceFine qs m.ctx io (.phase1 req pairs) = some (ctx', .outside c) →
      advance qs m.ctx io (.read req .start) = some (ctx', c) := by
  have hs := FineLinearized.reachable h
  have hexact := exact_reachable h
  constructor
  · intro req st i hmem
    have hin : InPass1 m.ctx req st i := hs.consistent.ok _ hmem
    refine ⟨hin.length, fun j e he => ⟨hexact _ hmem j e he, fun hk => ?_⟩⟩
    have hplan := List.mem_of_getElem? he
    refine (hin.plan.hits e hplan hk).imp_left fun hpub => ?_
    have hfound := hs.consistent.view.accounts.lookup_hash hpub
    rwa [show m.view.ctx = m.ctx from rfl, hin.plan.hashed e hplan,
      (hin.plan.entries j e he).hash] at hfound
  · intro req pairs io ctx' c hmem hadv
    obtain ⟨haccepted, hle⟩ := hexact _ hmem
    have hok : (FineCall.phase1 req pairs).Ok m.ctx := hs.consistent.ok _ hmem
    simp only [advanceFine] at hadv
    split at hadv
    · cases hadv
    · rename_i hlast
      simp only [Option.some.injEq, Prod.mk.injEq, FineCall.outside.injEq] at hadv
      obtain ⟨rfl, rfl⟩ := hadv
      have hpairs : lookupPairs m.ctx.index m.ctx.heap req.path req.startBlock req.numBlocks 0 =
          pairs := by
        refine lookupPairs_eq_of_steps (fun i p hp => ?_) hle fun hlt => ?_
        · obtain ⟨info, hinfo, hidx, hslot⟩ := hok i p hp
          have hpub := hs.linearized.published (Table.mem_values_of_lookup hinfo)
          rw [Nat.zero_add]
          refine Option.map_eq_some_iff.mpr ⟨info, hinfo, ?_⟩
          rw [← hidx, ← hslot hpub]
        · rw [if_pos hlt] at hlast
          rwa [Nat.zero_add]
      have hargs : ¬(req.numBlocks = 0 ∨ req.size % blockSize ≠ 0) := haccepted
      simp only [advance, advanceRead, if_neg hargs, hpairs, leavePhase1]
      split <;> rfl

end

/-! ## Two writes inside pass 1 -/

/-- Few references after the step, and no shared object discarded by it. -/
def fineDiscardCheck (s : FineMachine × List (Nat × Commit)) (e : Event)
    (s' : FineMachine × List (Nat × Commit)) : Bool :=
  discardCheck s.1.view e s'.1.view

theorem insideTogether_enabled : ((@fineWithLog Sha512.zeroBlock .mergeSort).replay
    fineDiscardCheck (@fineWithLog Sha512.zeroBlock .mergeSort).init twoInside).isSome := by
  decide +kernel

/-- The state after `twoInside`, with its log. -/
def insideTogether : FineMachine × List (Nat × Commit) :=
  ((@fineWithLog Sha512.zeroBlock .mergeSort).replay fineDiscardCheck
    (@fineWithLog Sha512.zeroBlock .mergeSort).init twoInside).get insideTogether_enabled

theorem insideTogether_reachable : (@fineWithLog Sha512.zeroBlock .mergeSort).Reachable
    (CleanFine IsZeroBlock) (insideTogether.1, insideTogether.2) := by
  let _ := Sha512.zeroBlock
  have hblocks : ∀ e ∈ twoInside, e.BlocksIn IsZeroBlock := by
    simp [twoInside, Event.BlocksIn, blocksIn_zeros]
  refine .of_replay (fun s e he s' hc => ?_) (Option.some_get insideTogether_enabled).symm
  have hnone := noneDiscarded_of_discardCheck s.1.view e s'.1.view hc
  exact ⟨hnone.1, hnone.2, hblocks e he⟩

/-- The write that has returned has committed, the two inside have not. -/
theorem readers_linearize_of_insideTogether :
    insideTogether.2.map Prod.fst = [0] ∧
      ∀ k, blockContent insideTogether.1.ctx k = filesOf insideTogether.2 k :=
  ⟨by decide +kernel, (@readers_linearize Sha512.zeroBlock _ .mergeSort _ _
    (fun _ _ (ha : _ = _) hb _ => ha.trans hb.symm) insideTogether_reachable).1⟩

/-- The first of the two has planned a HIT, on the object that is published. -/
theorem read_lock_atomic_of_insideTogether :
    ∃ req st e, .lookup req st 1 ∈ insideTogether.1.calls ∧ st.plan[0]? = some e ∧
      e.kind = .hit ∧
      ¬(insideTogether.1.ctx.index.lookupByHash (@hash Sha512.zeroBlock (req.block 0)) = none ∧
        ∀ k < 0, @hash Sha512.zeroBlock (req.block k) ≠ @hash Sha512.zeroBlock (req.block 0)) := by
  have hcall : ∃ req st e, insideTogether.1.calls[1]? = some (.lookup req st 1) ∧
      st.plan[0]? = some e ∧ e.kind = .hit := ⟨_, _, _, rfl, rfl, rfl⟩
  obtain ⟨req, st, e, hget, he, hk⟩ := hcall
  have hmem := List.mem_of_getElem? hget
  refine ⟨req, st, e, hmem, he, hk, fun hmiss => ?_⟩
  have hkind := (((@read_lock_atomic Sha512.zeroBlock .mergeSort _ _ _
    insideTogether_reachable).1 req st 1 hmem).2 0 e he).1.mpr hmiss
  rw [hk] at hkind
  cases hkind

end DedupBlockFS
