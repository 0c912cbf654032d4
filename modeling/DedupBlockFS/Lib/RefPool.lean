-- SUMMARY: An abstract pool of reference-counted objects that own slots, and the rules that keep its accounts balanced.
import Mathlib.Algebra.Order.Group.Multiset
import Mathlib.Data.Multiset.Dedup
import Mathlib.Tactic.Common

/-!
# Reference-counted pools

The bookkeeping of a store whose objects are shared and own one slot each, in
terms of what exists rather than of how it is represented. `refs` is the multiset
of all references anybody holds. An object is *published* (others can find it),
*pending* (only its creator knows it), or *lost* (neither, although references to
it may still exist). `count` is the counter the implementation keeps.

The accounts are balanced when the counter of every published and pending object
is the number of its references, the counter of a lost one is too high for the
object ever to be released, and every slot of the store is in exactly one place:
free, owned by a published object, or `out` with somebody who is about to use or
to release it.
-/

/-- Elements are counted at least as often under their image. -/
theorem Multiset.count_le_count_map {α β : Type} [DecidableEq α] [DecidableEq β] (f : α → β)
    (s : Multiset α) (a : α) : s.count a ≤ (s.map f).count (f a) := by
  induction s using Multiset.induction with
  | empty => simp
  | cons x s ih =>
    rw [Multiset.map_cons, Multiset.count_cons, Multiset.count_cons]
    by_cases h : a = x
    · rw [if_pos h, if_pos (congrArg f h)]
      omega
    · rw [if_neg h]
      omega

/-- Two elements with one image are counted together under it. -/
theorem Multiset.count_add_count_le_count_map {α β : Type} [DecidableEq α] [DecidableEq β]
    (f : α → β) (s : Multiset α) {a b : α} (hne : a ≠ b) (hf : f a = f b) :
    s.count a + s.count b ≤ (s.map f).count (f a) := by
  induction s using Multiset.induction with
  | empty => simp
  | cons x s ih =>
    rw [Multiset.map_cons, Multiset.count_cons, Multiset.count_cons, Multiset.count_cons]
    by_cases ha : a = x
    · rw [if_pos ha, if_pos (congrArg f ha), if_neg fun hb => hne (ha.trans hb.symm)]
      omega
    · by_cases hb : b = x
      · rw [if_neg ha, if_pos hb, if_pos (hf.trans (congrArg f hb))]
        omega
      · rw [if_neg ha, if_neg hb]
        omega

structure RefPool (O S : Type) where
  published : Multiset O
  pending : Multiset O
  refs : Multiset O
  count : O → Nat
  slot : O → S
  free : Multiset S
  out : Multiset S

namespace RefPool

variable {O S : Type} [DecidableEq O]

structure Balanced (p : RefPool O S) (all : Multiset S) : Prop where
  publishedNodup : p.published.Nodup
  pendingNodup : p.pending.Nodup
  notPublished : ∀ m ∈ p.pending, m ∉ p.published
  publishedHeld : ∀ m ∈ p.published, m ∈ p.refs
  pendingHeld : ∀ m ∈ p.pending, m ∈ p.refs
  publishedCount : ∀ m ∈ p.published, p.count m = p.refs.count m
  pendingCount : ∀ m ∈ p.pending, p.count m = p.refs.count m
  lostCount : ∀ m ∈ p.refs, m ∉ p.published → m ∉ p.pending → p.refs.count m < p.count m
  slots : p.free + p.published.map p.slot + p.out = all

variable {p : RefPool O S} {all : Multiset S} {m : O} {s : S}

/-- A counter is never below the number of references, and positive while there are any. -/
theorem Balanced.count_refs_le (h : p.Balanced all) (hm : m ∈ p.refs) :
    p.refs.count m ≤ p.count m := by
  by_cases hpub : m ∈ p.published
  · exact (h.publishedCount m hpub).ge
  · by_cases hpend : m ∈ p.pending
    · exact (h.pendingCount m hpend).ge
    · exact (h.lostCount m hm hpub hpend).le

theorem Balanced.count_pos (h : p.Balanced all) (hm : m ∈ p.refs) : 0 < p.count m :=
  (Multiset.count_pos.mpr hm).trans_le (h.count_refs_le hm)

/-! ## References -/

/-- Take one more reference to `m`. -/
def take (p : RefPool O S) (m : O) : RefPool O S :=
  { p with refs := m ::ₘ p.refs, count := Function.update p.count m (p.count m + 1) }

theorem Balanced.take (h : p.Balanced all) (hm : m ∈ p.published ∨ m ∈ p.pending) :
    (p.take m).Balanced all where
  publishedNodup := h.publishedNodup
  pendingNodup := h.pendingNodup
  notPublished := h.notPublished
  publishedHeld m' hm' := Multiset.mem_cons_of_mem (h.publishedHeld m' hm')
  pendingHeld m' hm' := Multiset.mem_cons_of_mem (h.pendingHeld m' hm')
  publishedCount m' hm' := by
    by_cases heq : m' = m
    · subst heq
      simp [RefPool.take, h.publishedCount m' hm']
    · simp [RefPool.take, heq, h.publishedCount m' hm']
  pendingCount m' hm' := by
    by_cases heq : m' = m
    · subst heq
      simp [RefPool.take, h.pendingCount m' hm']
    · simp [RefPool.take, heq, h.pendingCount m' hm']
  lostCount m' hm' hpub hpend := by
    have hne : m' ≠ m := by
      rintro rfl
      exact hm.elim hpub hpend
    have hold := h.lostCount m' ((Multiset.mem_cons.mp hm').resolve_left hne) hpub hpend
    simpa [RefPool.take, hne] using hold
  slots := h.slots

/-- Drop one reference to `m`; the last one unpublishes it and takes its slot out. -/
def drop (p : RefPool O S) (m : O) : RefPool O S :=
  if p.count m = 1 then
    { p with
      published := p.published.erase m
      refs := p.refs.erase m
      count := Function.update p.count m 0
      out := p.slot m ::ₘ p.out }
  else
    { p with refs := p.refs.erase m, count := Function.update p.count m (p.count m - 1) }

/-- Dropping a reference keeps the accounts balanced, unless it is the only reference
    to a pending object. -/
theorem Balanced.drop (h : p.Balanced all) (hm : m ∈ p.refs)
    (hpend : m ∈ p.pending → 1 < p.refs.count m) : (p.drop m).Balanced all := by
  have hpos : 0 < p.refs.count m := Multiset.count_pos.mpr hm
  unfold RefPool.drop
  split
  · rename_i hone
    have hnot : m ∉ p.pending := by
      intro hp
      have := h.pendingCount m hp
      have := hpend hp
      omega
    have hpub : m ∈ p.published := by
      by_contra hpub
      have := h.lostCount m hm hpub hnot
      omega
    have hlast : m ∉ p.refs.erase m := by
      rw [← Multiset.count_eq_zero, Multiset.count_erase_self]
      have := h.publishedCount m hpub
      omega
    have hgone : m ∉ p.published.erase m := h.publishedNodup.notMem_erase
    have hkeep : ∀ m', m' ≠ m → m' ∈ p.refs → m' ∈ p.refs.erase m :=
      fun m' hne hm' => (Multiset.mem_erase_of_ne hne).mpr hm'
    refine
      { publishedNodup := h.publishedNodup.erase m
        pendingNodup := h.pendingNodup
        notPublished := fun m' hp hp' => h.notPublished m' hp (Multiset.mem_of_mem_erase hp')
        publishedHeld := fun m' hp => hkeep m' (ne_of_mem_of_not_mem hp hgone)
          (h.publishedHeld m' (Multiset.mem_of_mem_erase hp))
        pendingHeld := fun m' hp => hkeep m' (ne_of_mem_of_not_mem hp hnot) (h.pendingHeld m' hp)
        publishedCount := fun m' hp => ?_
        pendingCount := fun m' hp => ?_
        lostCount := fun m' hm' hpub' hpend' => ?_
        slots := ?_ }
    · have hne := ne_of_mem_of_not_mem hp hgone
      have := h.publishedCount m' (Multiset.mem_of_mem_erase hp)
      simpa [hne, Multiset.count_erase_of_ne hne] using this
    · have hne := ne_of_mem_of_not_mem hp hnot
      simpa [hne, Multiset.count_erase_of_ne hne] using h.pendingCount m' hp
    · have hne := ne_of_mem_of_not_mem hm' hlast
      have := h.lostCount m' (Multiset.mem_of_mem_erase hm')
        (fun hp => hpub' ((Multiset.mem_erase_of_ne hne).mpr hp)) hpend'
      simpa [hne, Multiset.count_erase_of_ne hne] using this
    · rw [← h.slots, ← Multiset.cons_erase hpub]
      simp [add_assoc]
  · rename_i hne1
    have hcount := h.count_pos hm
    have hstill : m ∈ p.published ∨ m ∈ p.pending → m ∈ p.refs.erase m := by
      intro hor
      have hc : p.count m = p.refs.count m := hor.elim (h.publishedCount m) (h.pendingCount m)
      rw [← Multiset.count_pos, Multiset.count_erase_self]
      omega
    have hkeep : ∀ m', (m' ∈ p.published ∨ m' ∈ p.pending) → m' ∈ p.refs →
        m' ∈ p.refs.erase m := by
      intro m' hor hm'
      by_cases heq : m' = m
      · exact heq ▸ hstill (heq ▸ hor)
      · exact (Multiset.mem_erase_of_ne heq).mpr hm'
    have hacc : ∀ m', p.count m' = p.refs.count m' →
        Function.update p.count m (p.count m - 1) m' = (p.refs.erase m).count m' := by
      intro m' hc
      by_cases heq : m' = m
      · subst heq
        simp [hc]
      · simpa [heq, Multiset.count_erase_of_ne heq] using hc
    refine
      { publishedNodup := h.publishedNodup
        pendingNodup := h.pendingNodup
        notPublished := h.notPublished
        publishedHeld := fun m' hp => hkeep m' (.inl hp) (h.publishedHeld m' hp)
        pendingHeld := fun m' hp => hkeep m' (.inr hp) (h.pendingHeld m' hp)
        publishedCount := fun m' hp => hacc m' (h.publishedCount m' hp)
        pendingCount := fun m' hp => hacc m' (h.pendingCount m' hp)
        lostCount := fun m' hm' hpub hpend' => ?_
        slots := h.slots }
    have hold := h.lostCount m' (Multiset.mem_of_mem_erase hm') hpub hpend'
    by_cases heq : m' = m
    · subst heq
      simp only [Multiset.count_erase_self, Function.update_self]
      omega
    · simpa [heq, Multiset.count_erase_of_ne heq] using hold

/-- An object that somebody still refers to after a drop stays published. -/
theorem mem_published_drop (h : p.Balanced all) {m' : O} (hpub : m' ∈ p.published)
    (hm' : m' ∈ p.refs.erase m) : m' ∈ (p.drop m).published := by
  unfold RefPool.drop
  split
  · rename_i hone
    by_cases heq : m' = m
    · subst heq
      have hc := h.publishedCount m' hpub
      rw [← Multiset.count_pos, Multiset.count_erase_self] at hm'
      omega
    · exact (Multiset.mem_erase_of_ne heq).mpr hpub
  · exact hpub

/-! ## Objects -/

/-- A new pending object `m` with one reference and slot `s`. -/
def create (p : RefPool O S) (m : O) (s : S) : RefPool O S :=
  { p with
    pending := m ::ₘ p.pending
    refs := m ::ₘ p.refs
    count := Function.update p.count m 1
    slot := Function.update p.slot m s }

theorem Balanced.create (h : p.Balanced all) (hpub : m ∉ p.published) (hrefs : m ∉ p.refs) :
    (p.create m s).Balanced all where
  publishedNodup := h.publishedNodup
  pendingNodup := Multiset.nodup_cons.mpr
    ⟨fun hp => hrefs (h.pendingHeld m hp), h.pendingNodup⟩
  notPublished m' hm' := by
    rcases Multiset.mem_cons.mp hm' with rfl | hm'
    · exact hpub
    · exact h.notPublished m' hm'
  publishedHeld m' hm' := Multiset.mem_cons_of_mem (h.publishedHeld m' hm')
  pendingHeld m' hm' := by
    rcases Multiset.mem_cons.mp hm' with rfl | hm'
    · exact Multiset.mem_cons_self _ _
    · exact Multiset.mem_cons_of_mem (h.pendingHeld m' hm')
  publishedCount m' hm' := by
    have hne : m' ≠ m := ne_of_mem_of_not_mem hm' hpub
    simp [RefPool.create, hne, h.publishedCount m' hm']
  pendingCount m' hm' := by
    by_cases heq : m' = m
    · subst heq
      simp [RefPool.create, hrefs]
    · have hold := h.pendingCount m' ((Multiset.mem_cons.mp hm').resolve_left heq)
      simp [RefPool.create, heq, hold]
  lostCount m' hm' hpub' hpend' := by
    have hne : m' ≠ m := by
      rintro rfl
      exact hpend' (Multiset.mem_cons_self _ _)
    have hold := h.lostCount m' ((Multiset.mem_cons.mp hm').resolve_left hne) hpub'
      fun hp => hpend' (Multiset.mem_cons_of_mem hp)
    simpa [RefPool.create, hne] using hold
  slots := by
    rw [← h.slots]
    simp only [RefPool.create]
    congr 2
    exact Multiset.map_congr rfl fun m' hm' =>
      Function.update_of_ne (ne_of_mem_of_not_mem hm' hpub) _ _

/-- Give the unpublished object `m` the slot `s`. -/
def place (p : RefPool O S) (m : O) (s : S) : RefPool O S :=
  { p with slot := Function.update p.slot m s }

theorem Balanced.place (h : p.Balanced all) (hpub : m ∉ p.published) :
    (p.place m s).Balanced all :=
  { h with
    slots := by
      rw [← h.slots]
      simp only [RefPool.place]
      congr 2
      exact Multiset.map_congr rfl fun m' hm' =>
        Function.update_of_ne (ne_of_mem_of_not_mem hm' hpub) _ _ }

/-- Publish the pending object `m`, which thereby owns its slot. -/
def publish [DecidableEq S] (p : RefPool O S) (m : O) : RefPool O S :=
  { p with
    published := m ::ₘ p.published
    pending := p.pending.erase m
    out := p.out.erase (p.slot m) }

theorem Balanced.publish [DecidableEq S] (h : p.Balanced all) (hm : m ∈ p.pending)
    (hslot : p.slot m ∈ p.out) :
    (p.publish m).Balanced all where
  publishedNodup := Multiset.nodup_cons.mpr ⟨h.notPublished m hm, h.publishedNodup⟩
  pendingNodup := h.pendingNodup.erase m
  notPublished m' hm' hpub := by
    rcases Multiset.mem_cons.mp hpub with rfl | hpub
    · exact h.pendingNodup.notMem_erase hm'
    · exact h.notPublished m' (Multiset.mem_of_mem_erase hm') hpub
  publishedHeld m' hm' := by
    rcases Multiset.mem_cons.mp hm' with rfl | hm'
    · exact h.pendingHeld m' hm
    · exact h.publishedHeld m' hm'
  pendingHeld m' hm' := h.pendingHeld m' (Multiset.mem_of_mem_erase hm')
  publishedCount m' hm' := by
    rcases Multiset.mem_cons.mp hm' with rfl | hm'
    · exact h.pendingCount m' hm
    · exact h.publishedCount m' hm'
  pendingCount m' hm' := h.pendingCount m' (Multiset.mem_of_mem_erase hm')
  lostCount m' hm' hpub hpend := by
    have hne : m' ≠ m := by
      rintro rfl
      exact hpub (Multiset.mem_cons_self _ _)
    exact h.lostCount m' hm' (fun hp => hpub (Multiset.mem_cons_of_mem hp))
      fun hp => hpend ((Multiset.mem_erase_of_ne hne).mpr hp)
  slots := by
    rw [← h.slots]
    simp only [RefPool.publish, Multiset.map_cons]
    conv_rhs => rw [← Multiset.cons_erase hslot]
    simp [add_assoc]

/-- Forget the pending object `m` and the reference of its creator, without touching
    its counter. -/
def abandon (p : RefPool O S) (m : O) : RefPool O S :=
  { p with pending := p.pending.erase m, refs := p.refs.erase m }

/-- References to an abandoned object that others still hold are lost, and its
    counter is one too high for them. -/
theorem Balanced.abandon (h : p.Balanced all) (hm : m ∈ p.pending) :
    (p.abandon m).Balanced all where
  publishedNodup := h.publishedNodup
  pendingNodup := h.pendingNodup.erase m
  notPublished m' hm' := h.notPublished m' (Multiset.mem_of_mem_erase hm')
  publishedHeld m' hm' := by
    have hne : m' ≠ m := fun heq => h.notPublished m hm (heq ▸ hm')
    exact (Multiset.mem_erase_of_ne hne).mpr (h.publishedHeld m' hm')
  pendingHeld m' hm' := by
    have hne : m' ≠ m := ne_of_mem_of_not_mem hm' h.pendingNodup.notMem_erase
    exact (Multiset.mem_erase_of_ne hne).mpr (h.pendingHeld m' (Multiset.mem_of_mem_erase hm'))
  publishedCount m' hm' := by
    have hne : m' ≠ m := fun heq => h.notPublished m hm (heq ▸ hm')
    simpa [RefPool.abandon, Multiset.count_erase_of_ne hne] using h.publishedCount m' hm'
  pendingCount m' hm' := by
    have hne : m' ≠ m := ne_of_mem_of_not_mem hm' h.pendingNodup.notMem_erase
    simpa [RefPool.abandon, Multiset.count_erase_of_ne hne] using
      h.pendingCount m' (Multiset.mem_of_mem_erase hm')
  lostCount m' hm' hpub hpend := by
    by_cases heq : m' = m
    · subst heq
      have hcount := h.pendingCount m' hm
      have hpos := Multiset.count_pos.mpr (h.pendingHeld m' hm)
      simp only [RefPool.abandon, Multiset.count_erase_self]
      omega
    · have hold := h.lostCount m' (Multiset.mem_of_mem_erase hm') hpub
        fun hp => hpend ((Multiset.mem_erase_of_ne heq).mpr hp)
      simpa [RefPool.abandon, Multiset.count_erase_of_ne heq] using hold
  slots := h.slots

/-! ## Slots -/

/-- Slots may move between the free ones, those that are out, and new ones. -/
theorem Balanced.moveSlots (h : p.Balanced all) (free out : Multiset S) {all' : Multiset S}
    (hmove : free + p.published.map p.slot + out = all') :
    ({ p with free := free, out := out } : RefPool O S).Balanced all' :=
  { h with slots := hmove }

/-! ## Renaming -/

/-- A pool whose references are all to published objects stays balanced when its objects are
    replaced by others that have the same counters and slots. -/
theorem Balanced.rename {O' : Type} [DecidableEq O'] {p' : RefPool O' S} {f : O → O'}
    (h : p.Balanced all) (hinj : ∀ m ∈ p.published, ∀ m' ∈ p.published, f m = f m' → m = m')
    (hheld : ∀ m ∈ p.refs, m ∈ p.published) (hpublished : p'.published = p.published.map f)
    (hpending : p'.pending = 0) (hrefs : p'.refs = p.refs.map f)
    (hcount : ∀ m ∈ p.published, p'.count (f m) = p.count m)
    (hslot : ∀ m ∈ p.published, p'.slot (f m) = p.slot m)
    (hfree : p'.free = p.free) (hout : p'.out = p.out) : p'.Balanced all where
  publishedNodup := by
    rw [hpublished]
    exact h.publishedNodup.map_on hinj
  pendingNodup := by
    rw [hpending]
    exact Multiset.nodup_zero
  notPublished m hm := by
    rw [hpending] at hm
    exact absurd hm (Multiset.notMem_zero m)
  publishedHeld m' hm' := by
    rw [hpublished] at hm'
    obtain ⟨m, hm, rfl⟩ := Multiset.mem_map.mp hm'
    rw [hrefs]
    exact Multiset.mem_map_of_mem f (h.publishedHeld m hm)
  pendingHeld m hm := by
    rw [hpending] at hm
    exact absurd hm (Multiset.notMem_zero m)
  publishedCount m' hm' := by
    rw [hpublished] at hm'
    obtain ⟨m, hm, rfl⟩ := Multiset.mem_map.mp hm'
    rw [hcount m hm, h.publishedCount m hm, hrefs]
    have hon : Set.InjOn f {m | m ∈ p.refs} := fun a ha b hb =>
      hinj a (hheld a ha) b (hheld b hb)
    exact (Multiset.count_map_eq_count f p.refs hon m (h.publishedHeld m hm)).symm
  pendingCount m hm := by
    rw [hpending] at hm
    exact absurd hm (Multiset.notMem_zero m)
  lostCount m' hm' hpub := by
    rw [hrefs] at hm'
    obtain ⟨m, hm, rfl⟩ := Multiset.mem_map.mp hm'
    rw [hpublished] at hpub
    exact absurd (Multiset.mem_map_of_mem f (hheld m hm)) hpub
  slots := by
    rw [hpublished, hfree, hout, Multiset.map_map, ← h.slots]
    congr 2
    exact Multiset.map_congr rfl hslot

end RefPool
