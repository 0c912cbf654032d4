-- SUMMARY: Plans: the references and slots they hold, what pass 1 decides, and what storing the allocated slots changes.
import DedupBlockFS.Accounting
import DedupBlockFS.Passthrough

/-!
# Plans

The plan of a request is the local state of `write_dedup` between its sections.
It holds one reference for each entry, and its MISSes own the pending objects and
the slots they were given. `PlanOk` is what pass 1 establishes and what stays true
of a plan until pass 3, whatever other calls do in between.
-/

namespace DedupBlockFS

open Table (values)

/-! ## Plans as multisets -/

/-- The references a plan holds, one for each entry. -/
def infos (plan : List PlanEntry) : Multiset Ptr := (plan.map PlanEntry.info : List Ptr)

/-- The pending objects of a plan. -/
def missInfos (plan : List PlanEntry) : Multiset Ptr :=
  ((plan.filter (·.kind = .miss)).map PlanEntry.info : List Ptr)

/-- The references the HITs of a plan hold. -/
def hitInfos (plan : List PlanEntry) : Multiset Ptr :=
  ((plan.filter (·.kind = .hit)).map PlanEntry.info : List Ptr)

/-- The slots of the MISSes of a plan. -/
def missSlots (plan : List PlanEntry) : Multiset Nat :=
  ((plan.filter (·.kind = .miss)).map PlanEntry.masterBlk : List Nat)

section
variable {e : PlanEntry} {es plan : List PlanEntry} {m : Ptr}

@[simp] theorem infos_nil : infos [] = 0 := rfl
@[simp] theorem missInfos_nil : missInfos [] = 0 := rfl
@[simp] theorem hitInfos_nil : hitInfos [] = 0 := rfl
@[simp] theorem missSlots_nil : missSlots [] = 0 := rfl

@[simp] theorem infos_cons : infos (e :: es) = e.info ::ₘ infos es := rfl

theorem infos_append (es es' : List PlanEntry) : infos (es ++ es') = infos es + infos es' := by
  simp [infos]

theorem missInfos_append (es es' : List PlanEntry) :
    missInfos (es ++ es') = missInfos es + missInfos es' := by
  simp [missInfos]

theorem missSlots_append (es es' : List PlanEntry) :
    missSlots (es ++ es') = missSlots es + missSlots es' := by
  simp [missSlots]

theorem missInfos_cons_hit (h : e.kind = .hit) : missInfos (e :: es) = missInfos es := by
  simp [missInfos, h]

theorem missInfos_cons_miss (h : e.kind = .miss) :
    missInfos (e :: es) = e.info ::ₘ missInfos es := by
  simp [missInfos, h]

theorem missSlots_cons_hit (h : e.kind = .hit) : missSlots (e :: es) = missSlots es := by
  simp [missSlots, h]

theorem missSlots_cons_miss (h : e.kind = .miss) :
    missSlots (e :: es) = e.masterBlk ::ₘ missSlots es := by
  simp [missSlots, h]

theorem hitInfos_cons_hit (h : e.kind = .hit) : hitInfos (e :: es) = e.info ::ₘ hitInfos es := by
  simp [hitInfos, h]

theorem hitInfos_cons_miss (h : e.kind = .miss) : hitInfos (e :: es) = hitInfos es := by
  simp [hitInfos, h]

theorem infos_eq (plan : List PlanEntry) : infos plan = missInfos plan + hitInfos plan := by
  induction plan with
  | nil => rfl
  | cons e es ih =>
    cases hk : e.kind with
    | hit => rw [infos_cons, missInfos_cons_hit hk, hitInfos_cons_hit hk, ih, Multiset.add_cons]
    | miss => rw [infos_cons, missInfos_cons_miss hk, hitInfos_cons_miss hk, ih, Multiset.cons_add]

theorem mem_infos : m ∈ infos plan ↔ ∃ e ∈ plan, e.info = m := by
  simp [infos]

theorem mem_missInfos : m ∈ missInfos plan ↔ ∃ e ∈ plan, e.kind = .miss ∧ e.info = m := by
  simp [missInfos, and_assoc]

theorem mem_missSlots {s : Nat} :
    s ∈ missSlots plan ↔ ∃ e ∈ plan, e.kind = .miss ∧ e.masterBlk = s := by
  simp [missSlots, and_assoc]

end

/-! ## What a plan says about its request -/

/-- The heap has grown: old objects keep their hash and their slot. -/
structure HeapExtends (hp hp' : Heap) : Prop where
  brk : hp.brk ≤ hp'.brk
  hash : ∀ m < hp.brk, (hp'.cell m).hash = (hp.cell m).hash
  slot : ∀ m < hp.brk, (hp'.cell m).masterBlockIndex = (hp.cell m).masterBlockIndex

namespace HeapExtends

variable {hp hp' hp'' : Heap} {m : Ptr} {info : MasterInfo}

theorem refl : HeapExtends hp hp := ⟨Nat.le_refl _, fun _ _ => rfl, fun _ _ => rfl⟩

theorem trans (h : HeapExtends hp hp') (h' : HeapExtends hp' hp'') : HeapExtends hp hp'' where
  brk := h.brk.trans h'.brk
  hash m hm := (h'.hash m (hm.trans_le h.brk)).trans (h.hash m hm)
  slot m hm := (h'.slot m (hm.trans_le h.brk)).trans (h.slot m hm)

theorem fetchAdd : HeapExtends hp (hp.fetchAdd m) :=
  ⟨Nat.le_refl _, fun _ _ => Heap.fetchAdd_hash, fun _ _ => Heap.fetchAdd_masterBlockIndex⟩

theorem alloc : HeapExtends hp (hp.alloc info).1 where
  brk := Nat.le_succ _
  hash _ hm := by rw [Heap.alloc_cell_of_lt hm]
  slot _ hm := by rw [Heap.alloc_cell_of_lt hm]

end HeapExtends

section
variable [Sha512]

/-- The hash that pass 1 computes for the `i`-th block. -/
theorem hash_payload (req : WriteRequest) (i : Nat) :
    hash (req.buf.drop (i * blockSize)) = hash (req.block i) := by
  simp [hash, WriteRequest.block, ByteFile.pread, List.take_take]

/-- `e` is the entry of the `i`-th block of the request. -/
structure EntryOf (req : WriteRequest) (i : Nat) (e : PlanEntry) : Prop where
  logicalBlk : e.logicalBlk = req.startBlock + i
  payload : e.payload = i * blockSize
  hash : e.hash = hash (req.block i)

/-- The plan describes the request block by block, the objects carry the hashes of
    their entries, a HIT shares a published object or one that a MISS of the same plan
    has created, and the MISSes are about different contents. -/
structure PlanOk (ix : Index) (hp : Heap) (req : WriteRequest) (plan : List PlanEntry) : Prop where
  entries : ∀ i e, plan[i]? = some e → EntryOf req i e
  hashed : ∀ e ∈ plan, (hp.cell e.info).hash = e.hash
  hits : ∀ e ∈ plan, e.kind = .hit → ix.Published e.info ∨ e.info ∈ missInfos plan
  missDistinct : ((plan.filter (·.kind = .miss)).map PlanEntry.hash).Nodup

variable {ix ix' : Index} {hp hp' : Heap} {req : WriteRequest} {plan : List PlanEntry}

/-- A plan stays valid as long as its objects keep their hashes and the published ones
    it refers to stay published. -/
theorem PlanOk.frame (h : PlanOk ix hp req plan)
    (hhash : ∀ e ∈ plan, (hp'.cell e.info).hash = (hp.cell e.info).hash)
    (hpub : ∀ m ∈ infos plan, ix.Published m → ix'.Published m) : PlanOk ix' hp' req plan where
  entries := h.entries
  hashed e he := (hhash e he).trans (h.hashed e he)
  hits e he hk := (h.hits e he hk).imp_left (hpub _ (mem_infos.mpr ⟨e, he, rfl⟩))
  missDistinct := h.missDistinct

/-- Two MISSes with one hash are the same entry. -/
theorem PlanOk.miss_inj (h : PlanOk ix hp req plan) {a b : PlanEntry} (ha : a ∈ plan)
    (hka : a.kind = .miss) (hb : b ∈ plan) (hkb : b.kind = .miss) (heq : a.hash = b.hash) : a = b :=
  List.inj_on_of_nodup_map h.missDistinct (by simp [ha, hka]) (by simp [hb, hkb]) heq

/-- Append the entry of the next block. -/
theorem PlanOk.snoc (h : PlanOk ix hp req plan) {e : PlanEntry} (hentry : EntryOf req plan.length e)
    (hhash : ∀ a ∈ plan, (hp'.cell a.info).hash = (hp.cell a.info).hash)
    (hinfo : (hp'.cell e.info).hash = e.hash)
    (hhit : e.kind = .hit → ix.Published e.info ∨ e.info ∈ missInfos plan)
    (hmiss : e.kind = .miss → ∀ a ∈ plan, a.kind = .miss → a.hash ≠ e.hash) :
    PlanOk ix hp' req (plan ++ [e]) where
  entries i a ha := by
    by_cases hi : i < plan.length
    · rw [List.getElem?_append_left hi] at ha
      exact h.entries i a ha
    · rw [List.getElem?_append_right (by omega), List.getElem?_singleton] at ha
      obtain ⟨hzero, rfl⟩ := by simpa using ha
      have hlen : i = plan.length := by omega
      exact hlen ▸ hentry
  hashed a ha := by
    rcases List.mem_append.mp ha with ha | ha
    · exact (hhash a ha).trans (h.hashed a ha)
    · rw [List.mem_singleton.mp ha]
      exact hinfo
  hits a ha hk := by
    rw [missInfos_append, Multiset.mem_add]
    rcases List.mem_append.mp ha with ha | ha
    · exact (h.hits a ha hk).imp_right .inl
    · obtain rfl := List.mem_singleton.mp ha
      exact (hhit hk).imp_right .inl
  missDistinct := by
    cases hk : e.kind with
    | hit => simpa [hk] using h.missDistinct
    | miss =>
      rw [List.filter_append, List.map_append, List.nodup_append]
      refine ⟨h.missDistinct, by simp [hk], fun x hx y hy heq => ?_⟩
      simp only [List.mem_map, List.mem_filter, decide_eq_true_eq] at hx
      obtain ⟨a, ⟨ha, hka⟩, rfl⟩ := hx
      simp [hk] at hy
      exact hmiss hk a ha hka (heq.trans hy)

/-! ## Pass 1 -/

/-- The state of pass 1 after its first `k` blocks, begun with the accounts
    `base`, `pending` and `out` over `hp`. -/
structure Pass1Ok (ix : Index) (hp : Heap) (req : WriteRequest) (next : Nat)
    (base pending : Multiset Ptr) (out : Multiset Nat) (k : Nat) (st : Pass1) : Prop where
  accounts : Accounts ix st.heap next (infos st.plan + base) (missInfos st.plan + pending) out
  plan : PlanOk ix st.heap req st.plan
  length : st.plan.length = k
  missFresh : ∀ e ∈ st.plan, e.kind = .miss → ix.lookupByHash e.hash = none
  pendingHashes : ∀ h m, st.pendingHashes.lookup h = some m ↔
    ∃ e ∈ st.plan, e.kind = .miss ∧ e.hash = h ∧ e.info = m
  missCount : st.missCount = (missInfos st.plan).card
  grown : HeapExtends hp st.heap

/-- The loop of pass 1, one iteration at a time. -/
theorem pass1_succ (k : Nat) :
    pass1 ix hp req.buf req.startBlock (k + 1) =
      pass1Block ix req.buf req.startBlock (pass1 ix hp req.buf req.startBlock k) k := by
  simp [pass1, List.range_succ]

section
variable {next k : Nat} {base pending : Multiset Ptr} {out : Multiset Nat} {st : Pass1} {m : Ptr}

/-- A block whose content is known takes a reference. -/
theorem pass1Block_hit
    (hl : (ix.lookupByHash (hash (req.block k))).or
      (st.pendingHashes.lookup (hash (req.block k))) = some m) :
    pass1Block ix req.buf req.startBlock st k =
      { st with
        heap := st.heap.fetchAdd m
        plan := st.plan ++
          [{ kind := .hit, logicalBlk := req.startBlock + k, masterBlk := 0,
             payload := k * blockSize, hash := hash (req.block k), info := m }] } := by
  rw [← hash_payload] at hl ⊢
  simp only [pass1Block, hl]

/-- A block with new content gets a pending object. -/
theorem pass1Block_miss
    (hl : (ix.lookupByHash (hash (req.block k))).or
      (st.pendingHashes.lookup (hash (req.block k))) = none) :
    pass1Block ix req.buf req.startBlock st k =
      { heap := (st.heap.alloc
          { hash := hash (req.block k), masterBlockIndex := 0, refcount := 1 }).1
        plan := st.plan ++
          [{ kind := .miss, logicalBlk := req.startBlock + k, masterBlk := 0,
             payload := k * blockSize, hash := hash (req.block k), info := st.heap.brk }]
        pendingHashes := st.pendingHashes.insert (hash (req.block k)) st.heap.brk
        missCount := st.missCount + 1 } := by
  rw [← hash_payload] at hl ⊢
  simp only [pass1Block, hl, Heap.alloc_snd]

/-- An object that is found for a block is published or pending, and has its hash. -/
theorem Pass1Ok.found (h : Pass1Ok ix hp req next base pending out k st)
    (hl : (ix.lookupByHash (hash (req.block k))).or
      (st.pendingHashes.lookup (hash (req.block k))) = some m) :
    (ix.Published m ∨ m ∈ missInfos st.plan) ∧ (st.heap.cell m).hash = hash (req.block k) := by
  rcases Option.or_eq_some_iff.mp hl with hpub | ⟨-, hpend⟩
  · exact ⟨.inl (Table.mem_values_of_lookup hpub), h.accounts.keyed hpub⟩
  · obtain ⟨e, he, hk, hh, rfl⟩ := (h.pendingHashes _ _).mp hpend
    exact ⟨.inr (mem_missInfos.mpr ⟨e, he, hk, rfl⟩), (h.plan.hashed e he).trans hh⟩

/-- One iteration of pass 1, if the object it finds can take another reference. -/
theorem Pass1Ok.block (h : Pass1Ok ix hp req next base pending out k st)
    (hroom : ∀ m, (ix.lookupByHash (hash (req.block k))).or
      (st.pendingHashes.lookup (hash (req.block k))) = some m →
        (infos st.plan + base).count m + 1 < 2 ^ 32) :
    Pass1Ok ix hp req next base pending out (k + 1)
      (pass1Block ix req.buf req.startBlock st k) := by
  have hlt : ∀ a ∈ st.plan, a.info < st.heap.brk := fun a ha =>
    h.accounts.refsLt _ (Multiset.mem_add.mpr (.inl (mem_infos.mpr ⟨a, ha, rfl⟩)))
  cases hl : (ix.lookupByHash (hash (req.block k))).or
      (st.pendingHashes.lookup (hash (req.block k))) with
  | some m =>
    rw [pass1Block_hit hl]
    obtain ⟨hknown, hhash⟩ := h.found hl
    refine
      { accounts := ?_
        plan := h.plan.snoc ⟨by rw [h.length], by rw [h.length], by rw [h.length]⟩
          (fun a _ => Heap.fetchAdd_hash) (Heap.fetchAdd_hash.trans hhash) (fun _ => hknown)
          (fun hk => by cases hk)
        length := by simp [h.length]
        missFresh := fun e he hk => ?_
        pendingHashes := fun hh m' => ?_
        missCount := ?_
        grown := h.grown.trans .fetchAdd }
    · have hknown' : m ∈ values ix.hashToMaster ∨ m ∈ missInfos st.plan + pending :=
        hknown.imp_right fun hm => Multiset.mem_add.mpr (.inl hm)
      refine (h.accounts.fetchAdd hknown' (hroom m hl)).congr ?_ ?_ rfl
      · rw [infos_append, infos_cons, infos_nil, add_right_comm, Multiset.add_cons, add_zero]
      · rw [missInfos_append, missInfos_cons_hit rfl, missInfos_nil, add_zero]
    · rcases List.mem_append.mp he with he | he
      · exact h.missFresh e he hk
      · obtain rfl := List.mem_singleton.mp he
        cases hk
    · rw [h.pendingHashes hh m']
      simp
    · rw [h.missCount, missInfos_append, missInfos_cons_hit rfl, missInfos_nil, add_zero]
  | none =>
    rw [pass1Block_miss hl]
    obtain ⟨hpub, hpend⟩ := Option.or_eq_none_iff.mp hl
    have hdistinct : ∀ a ∈ st.plan, a.kind = .miss → a.hash ≠ hash (req.block k) := by
        intro a ha hk heq
        rw [(h.pendingHashes _ a.info).mpr ⟨a, ha, hk, heq, rfl⟩] at hpend
        cases hpend
    refine
      { accounts := ?_
        plan := h.plan.snoc ⟨by rw [h.length], by rw [h.length], by rw [h.length]⟩
          (fun a ha => by rw [Heap.alloc_cell_of_lt (hlt a ha)]) (by rw [Heap.alloc_cell_self])
          (fun hk => by cases hk) (fun _ => hdistinct)
        length := by simp [h.length]
        missFresh := fun e he hk => ?_
        pendingHashes := fun hh m' => ?_
        missCount := ?_
        grown := h.grown.trans .alloc }
    · refine (h.accounts.alloc rfl).congr ?_ ?_ rfl
      · rw [infos_append, infos_cons, infos_nil, add_right_comm, Multiset.add_cons, add_zero]
      · rw [missInfos_append, missInfos_cons_miss rfl, missInfos_nil, add_right_comm,
          Multiset.add_cons, add_zero]
    · rcases List.mem_append.mp he with he | he
      · exact h.missFresh e he hk
      · obtain rfl := List.mem_singleton.mp he
        exact hpub
    · by_cases heq : hh = hash (req.block k)
      · subst heq
        rw [AList.lookup_insert]
        constructor
        · intro hm
          exact ⟨_, List.mem_append_right _ (List.mem_singleton_self _), rfl, rfl,
            Option.some.inj hm⟩
        · rintro ⟨e, he, hk, hhash, rfl⟩
          rcases List.mem_append.mp he with he | he
          · exact absurd hhash (hdistinct e he hk)
          · rw [List.mem_singleton.mp he]
      · rw [AList.lookup_insert_ne heq, h.pendingHashes hh m']
        simp [Ne.symm heq]
    · rw [h.missCount, missInfos_append, missInfos_cons_miss rfl, missInfos_nil]
      simp

theorem Pass1Ok.zero (ha : Accounts ix hp next base pending out) :
    Pass1Ok ix hp req next base pending out 0 (pass1 ix hp req.buf req.startBlock 0) where
  accounts := ha.congr (zero_add _).symm (zero_add _).symm rfl
  plan := ⟨by simp [pass1], by simp [pass1], by simp [pass1], by simp [pass1]⟩
  length := rfl
  missFresh := by simp [pass1]
  pendingHashes := by simp [pass1]
  missCount := rfl
  grown := .refl

/-- Pass 1, when the references it ends up with are few enough. -/
theorem Accounts.pass1 (ha : Accounts ix hp next base pending out) (n : Nat)
    (hbound : ∀ m,
      (infos (DedupBlockFS.pass1 ix hp req.buf req.startBlock n).plan + base).count m < 2 ^ 32) :
    Pass1Ok ix hp req next base pending out n (DedupBlockFS.pass1 ix hp req.buf req.startBlock n) := by
  induction n with
  | zero => exact .zero ha
  | succ k ih =>
    rw [pass1_succ] at hbound ⊢
    refine (ih fun m => lt_of_le_of_lt ?_ (hbound m)).block fun m hl => ?_
    · -- an iteration only appends to the plan
      refine Multiset.count_le_of_le m (add_le_add_left ?_ base)
      simp only [pass1Block]
      split <;>
      · rw [infos_append]
        exact Multiset.le_add_right _ _
    · have hb := hbound m
      rw [pass1Block_hit hl] at hb
      simp only [infos_append, infos_cons, infos_nil, Multiset.count_add, Multiset.count_cons_self,
        Multiset.count_zero] at hb ⊢
      omega

/-- The hashes of the objects of a plan are those of the blocks of its request. -/
theorem PlanOk.map_hash (h : PlanOk ix hp req plan) :
    (infos plan).map (fun m => (hp.cell m).hash) =
      (Multiset.range plan.length).map fun i => hash (req.block i) := by
  rw [infos, Multiset.map_coe, List.map_map, ← Multiset.coe_range, Multiset.map_coe]
  congr 1
  refine List.ext_getElem (by simp) fun i hi _ => ?_
  rw [List.length_map] at hi
  have hget := List.getElem?_eq_getElem hi
  rw [List.getElem_map, List.getElem_map, List.getElem_range, Function.comp_apply,
    h.hashed _ (List.getElem_mem hi), (h.entries i _ hget).hash]

/-- Pass 1, when the blocks of the request and the references that are there already
    have no hash too often. -/
theorem Accounts.pass1_of_few (req : WriteRequest) (ha : Accounts ix hp next base pending out) (n : Nat)
    (hfew : ∀ x, (base.map fun m => (hp.cell m).hash).count x +
      ((Multiset.range n).map fun i => hash (req.block i)).count x < 2 ^ 32) :
    Pass1Ok ix hp req next base pending out n (DedupBlockFS.pass1 ix hp req.buf req.startBlock n) := by
  induction n with
  | zero => exact .zero ha
  | succ k ih =>
    have hk := ih fun x => by
      have := hfew x
      rw [Multiset.range_succ, Multiset.map_cons] at this
      have := Multiset.count_le_count_cons x (hash (req.block k))
        ((Multiset.range k).map fun i => hash (req.block i))
      omega
    rw [pass1_succ]
    refine hk.block fun m hl => ?_
    obtain ⟨-, hhash⟩ := hk.found hl
    have hbase : base.count m ≤ (base.map fun m => (hp.cell m).hash).count (hash (req.block k)) := by
      by_cases hm : m ∈ base
      · rw [← hhash, hk.grown.hash m (ha.refsLt m hm)]
        exact Multiset.count_le_count_map (fun m => (hp.cell m).hash) base m
      · rw [Multiset.count_eq_zero_of_notMem hm]
        exact Nat.zero_le _
    have hplan := Multiset.count_le_count_map
      (fun m => (((DedupBlockFS.pass1 ix hp req.buf req.startBlock k).heap).cell m).hash)
      (infos (DedupBlockFS.pass1 ix hp req.buf req.startBlock k).plan) m
    rw [hk.plan.map_hash, hhash, hk.length] at hplan
    have := hfew (hash (req.block k))
    rw [Multiset.range_succ, Multiset.map_cons, Multiset.count_cons_self] at this
    rw [Multiset.count_add]
    omega

end

end

/-! ## Storing the slots -/

/-- The second list of a `Forall₂` says what the first one holds at the same place. -/
theorem forall₂_getElem? {α β : Type} {R : α → β → Prop} {as : List α} {bs : List β}
    (h : List.Forall₂ R as bs) {i : Nat} {b : β} (hb : bs[i]? = some b) :
    ∃ a, as[i]? = some a ∧ R a b := by
  induction h generalizing i with
  | nil => cases hb
  | cons hab _ ih =>
    cases i with
    | zero => exact ⟨_, rfl, Option.some.inj hb ▸ hab⟩
    | succ i => exact ih hb

/-- `e'` is `e` with another slot. -/
def SlotChanged (e e' : PlanEntry) : Prop := ∃ slot, e' = { e with masterBlk := slot }

section
variable {plan plan' : List PlanEntry}

theorem slotChanged_infos (h : List.Forall₂ SlotChanged plan plan') : infos plan' = infos plan := by
  induction h with
  | nil => rfl
  | cons he _ ih =>
    obtain ⟨slot, rfl⟩ := he
    rw [infos_cons, infos_cons, ih]

/-- Whatever does not depend on the slots is the same for all MISSes. -/
theorem slotChanged_misses {α : Type} (f : PlanEntry → α)
    (hf : ∀ e slot, f { e with masterBlk := slot } = f e)
    (h : List.Forall₂ SlotChanged plan plan') :
    (plan'.filter (·.kind = .miss)).map f = (plan.filter (·.kind = .miss)).map f := by
  induction h with
  | nil => rfl
  | @cons e _ _ _ he _ ih =>
    obtain ⟨slot, rfl⟩ := he
    have hhead := hf e slot
    cases hk : e.kind with
    | hit => simpa [hk] using ih
    | miss =>
      rw [hk] at hhead
      simpa [hk, hhead] using ih

theorem slotChanged_missInfos (h : List.Forall₂ SlotChanged plan plan') :
    missInfos plan' = missInfos plan := by
  rw [missInfos, slotChanged_misses PlanEntry.info (fun _ _ => rfl) h]
  rfl

theorem PlanOk.slotChanged [Sha512] {ix : Index} {hp : Heap} {req : WriteRequest}
    (hplan : PlanOk ix hp req plan) (h : List.Forall₂ SlotChanged plan plan') :
    PlanOk ix hp req plan' where
  entries i e' he' := by
    obtain ⟨e, he, slot, rfl⟩ := forall₂_getElem? h he'
    obtain ⟨hlogical, hpayload, hhash⟩ := hplan.entries i e he
    exact ⟨hlogical, hpayload, hhash⟩
  hashed e' he' := by
    obtain ⟨i, hi⟩ := List.mem_iff_getElem?.mp he'
    obtain ⟨e, he, slot, rfl⟩ := forall₂_getElem? h hi
    exact hplan.hashed e (List.mem_of_getElem? he)
  hits e' he' hk := by
    obtain ⟨i, hi⟩ := List.mem_iff_getElem?.mp he'
    obtain ⟨e, he, slot, rfl⟩ := forall₂_getElem? h hi
    rw [slotChanged_missInfos h]
    exact hplan.hits e (List.mem_of_getElem? he) hk
  missDistinct := by
    rw [slotChanged_misses PlanEntry.hash (fun _ _ => rfl) h]
    exact hplan.missDistinct

end

theorem assignSlots_slotChanged (hp : Heap) (plan : List PlanEntry) (slots : List Nat) :
    List.Forall₂ SlotChanged plan (assignSlots hp plan slots).2 := by
  induction plan generalizing hp slots with
  | nil => exact .nil
  | cons e es ih =>
    simp only [assignSlots]
    split
    · exact .cons ⟨_, rfl⟩ (ih _ _)
    · exact .cons ⟨e.masterBlk, rfl⟩ (ih _ _)

/-- What `assignSlots` does to the heap and to the plan. -/
structure Assigned (ix : Index) (hp : Heap) (next : Nat) (refs pending : Multiset Ptr)
    (out : Multiset Nat) (plan : List PlanEntry) (slots : List Nat) (r : Heap × List PlanEntry) :
    Prop where
  accounts : Accounts ix r.1 next refs pending out
  missSlots : missSlots r.2 = slots
  placed : ∀ e ∈ r.2, e.kind = .miss → (r.1.cell e.info).masterBlockIndex = e.masterBlk
  hashEq : ∀ m, (r.1.cell m).hash = (hp.cell m).hash
  slotEq : ∀ m ∉ missInfos plan, (r.1.cell m).masterBlockIndex = (hp.cell m).masterBlockIndex
  brkEq : r.1.brk = hp.brk

/-- Every pending object of the plan gets its own slot, in the order of the plan. -/
theorem Accounts.assignSlots {ix : Index} {hp : Heap} {next : Nat} {refs pending : Multiset Ptr}
    {out : Multiset Nat} (plan : List PlanEntry) (slots : List Nat)
    (ha : Accounts ix hp next refs pending out) (hpend : ∀ m ∈ missInfos plan, m ∈ pending)
    (hnodup : (missInfos plan).Nodup) (hlen : slots.length = (missInfos plan).card) :
    Assigned ix hp next refs pending out plan slots (assignSlots hp plan slots) := by
  induction plan generalizing hp slots with
  | nil =>
    obtain rfl : slots = [] := List.eq_nil_of_length_eq_zero hlen
    exact
      { accounts := ha
        missSlots := rfl
        placed := by simp [DedupBlockFS.assignSlots]
        hashEq := fun _ => rfl
        slotEq := fun _ _ => rfl
        brkEq := rfl }
  | cons e es ih =>
    cases hk : e.kind with
    | hit =>
      rw [missInfos_cons_hit hk] at hpend hnodup hlen
      have h := ih _ ha hpend hnodup hlen
      have hcons : DedupBlockFS.assignSlots hp (e :: es) slots =
          ((DedupBlockFS.assignSlots hp es slots).1,
            e :: (DedupBlockFS.assignSlots hp es slots).2) := by
        simp [DedupBlockFS.assignSlots, hk]
      rw [hcons]
      refine
        { accounts := h.accounts
          missSlots := by rw [missSlots_cons_hit hk, h.missSlots]
          placed := fun a ha hka => ?_
          hashEq := h.hashEq
          slotEq := by rw [missInfos_cons_hit hk]; exact h.slotEq
          brkEq := h.brkEq }
      rcases List.mem_cons.mp ha with rfl | ha
      · rw [hk] at hka
        cases hka
      · exact h.placed a ha hka
    | miss =>
      rw [missInfos_cons_miss hk] at hpend hnodup hlen
      rw [Multiset.card_cons] at hlen
      obtain ⟨slot, slots, rfl⟩ := List.exists_cons_of_length_eq_add_one hlen
      obtain ⟨hfresh, hnodup⟩ := Multiset.nodup_cons.mp hnodup
      have h := ih _ (ha.setMasterBlockIndex (hpend _ (Multiset.mem_cons_self _ _)) slot)
        (fun m hm => hpend m (Multiset.mem_cons_of_mem hm)) hnodup (by simpa using hlen)
      have hcons : DedupBlockFS.assignSlots hp (e :: es) (slot :: slots) =
          ((DedupBlockFS.assignSlots (hp.setMasterBlockIndex e.info slot) es slots).1,
            { e with masterBlk := slot } ::
              (DedupBlockFS.assignSlots (hp.setMasterBlockIndex e.info slot) es slots).2) := by
        simp [DedupBlockFS.assignSlots, hk]
      rw [hcons]
      refine
        { accounts := h.accounts
          missSlots := by
            rw [missSlots_cons_miss (e := { e with masterBlk := slot }) hk, h.missSlots]
            rfl
          placed := fun a ha hka => ?_
          hashEq := fun m => (h.hashEq m).trans Heap.setMasterBlockIndex_hash
          slotEq := fun m hm => ?_
          brkEq := h.brkEq }
      · rcases List.mem_cons.mp ha with rfl | ha
        · rw [h.slotEq _ hfresh, Heap.setMasterBlockIndex_masterBlockIndex, if_pos rfl]
        · exact h.placed a ha hka
      · rw [missInfos_cons_miss hk, Multiset.mem_cons, not_or] at hm
        rw [h.slotEq m hm.2, Heap.setMasterBlockIndex_masterBlockIndex, if_neg hm.1]

end DedupBlockFS
