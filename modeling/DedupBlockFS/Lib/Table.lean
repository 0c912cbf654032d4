-- SUMMARY: Hash tables as association lists without duplicate keys, and the multiset of values they hold.
import Mathlib.Data.List.AList
import Mathlib.Data.Multiset.AddSub
import Mathlib.Data.Multiset.MapFold
import Mathlib.Data.Set.Card
import Mathlib.Tactic.Common

/-!
# Hash tables

A hash table is an association list whose keys do not repeat. The order of the
entries stands for the iteration order of the table, which nothing may rely on.
`values` forgets keys and order: it is the multiset of references a table holds,
so that counting references becomes counting in a multiset.
-/

abbrev Table (K V : Type) := AList (fun _ : K => V)

namespace Table

variable {K V : Type} [DecidableEq K]

/-- The values of a table, with repetitions. -/
def values (t : Table K V) : Multiset V := (t.entries.map Sigma.snd : List V)

omit [DecidableEq K] in
@[simp] theorem values_empty : values (∅ : Table K V) = 0 := rfl

theorem mem_entries_iff {t : Table K V} {k : K} {v : V} :
    (⟨k, v⟩ : (_ : K) × V) ∈ t.entries ↔ t.lookup k = some v := by
  rw [← Option.mem_def, AList.mem_lookup_iff]

theorem mem_values {t : Table K V} {v : V} : v ∈ values t ↔ ∃ k, t.lookup k = some v := by
  simp only [values, Multiset.mem_coe, List.mem_map]
  constructor
  · rintro ⟨⟨k, v⟩, hmem, rfl⟩
    exact ⟨k, mem_entries_iff.mp hmem⟩
  · rintro ⟨k, hk⟩
    exact ⟨⟨k, v⟩, mem_entries_iff.mpr hk, rfl⟩

theorem mem_values_of_lookup {t : Table K V} {k : K} {v : V} (h : t.lookup k = some v) :
    v ∈ values t := mem_values.mpr ⟨k, h⟩

/-- Inserting puts the new value in place of the one the key had. -/
theorem values_insert (t : Table K V) (k : K) (v : V) :
    values (t.insert k v) = v ::ₘ values (t.erase k) := by
  simp only [values, AList.entries_insert, List.map_cons]
  rfl

theorem erase_of_lookup_none {t : Table K V} {k : K} (h : t.lookup k = none) : t.erase k = t := by
  apply AList.ext
  exact List.kerase_of_notMem_keys (AList.lookup_eq_none.mp h)

theorem values_erase {t : Table K V} {k : K} {v : V} (h : t.lookup k = some v) :
    v ::ₘ values (t.erase k) = values t := by
  have hkey : k ∈ t.entries.keys := List.mem_keys_of_mem (mem_entries_iff.mpr h)
  obtain ⟨v', l₁, l₂, -, happ, herase⟩ := List.exists_of_kerase hkey
  have hv : v' = v := by
    have hmem : (⟨k, v'⟩ : (_ : K) × V) ∈ t.entries := by rw [happ]; simp
    exact Option.some.inj ((mem_entries_iff.mp hmem).symm.trans h)
  subst hv
  have hentries : (t.erase k).entries = l₁ ++ l₂ := herase
  simp only [values, hentries, happ, List.map_append, List.map_cons]
  exact Multiset.coe_eq_coe.mpr List.perm_middle.symm

theorem eq_empty_of_lookup {t : Table K V} (h : ∀ k, t.lookup k = none) : t = ∅ := by
  apply AList.ext
  rw [AList.empty_entries, List.eq_nil_iff_forall_not_mem]
  rintro ⟨k, v⟩ hmem
  have hk := mem_entries_iff.mp hmem
  rw [h k] at hk
  cases hk

/-- A table that finds the images of what another finds has the images of its values. -/
theorem values_of_lookup_map {V' : Type} {t : Table K V} {t' : Table K V'} {f : V → V'}
    (h : ∀ k, t'.lookup k = (t.lookup k).map f) : values t' = (values t).map f := by
  set image : (_ : K) × V → (_ : K) × V' := fun e => ⟨e.1, f e.2⟩ with himage
  have hkeys : (t.entries.map image).keys = t.entries.keys := by
    rw [List.keys, List.map_map]
    rfl
  have hnodup : (t.entries.map image).NodupKeys := by
    rw [List.NodupKeys, hkeys]
    exact t.nodupKeys
  have hperm : t'.entries.Perm (t.entries.map image) := by
    refine (List.perm_ext_iff_of_nodup t'.nodupKeys.nodup hnodup.nodup).mpr ?_
    rintro ⟨k, v'⟩
    rw [mem_entries_iff, h, Option.map_eq_some_iff, List.mem_map]
    constructor
    · rintro ⟨v, hv, rfl⟩
      exact ⟨⟨k, v⟩, mem_entries_iff.mpr hv, rfl⟩
    · rintro ⟨⟨k', v⟩, hmem, heq⟩
      cases heq
      exact ⟨v, mem_entries_iff.mp hmem, rfl⟩
  rw [values, values, Multiset.map_coe, List.map_map]
  refine Multiset.coe_eq_coe.mpr ((hperm.map Sigma.snd).trans ?_)
  rw [List.map_map]
  exact List.Perm.refl _

/-- Tables that find the same have the same values. -/
theorem values_eq_of_lookup {t t' : Table K V} (h : ∀ k, t.lookup k = t'.lookup k) :
    values t = values t' := by
  have himage := values_of_lookup_map fun k => (h k).trans (Option.map_id').symm
  rwa [Multiset.map_id'] at himage

/-- A value occurs once for each of its keys. -/
theorem encard_lookup [DecidableEq V] (t : Table K V) (v : V) :
    {k | t.lookup k = some v}.encard = (values t).count v := by
  set hits := t.entries.filter fun e => e.2 = v with hhits
  have hnodup : hits.keys.Nodup := (List.filter_sublist.map Sigma.fst).nodup t.nodupKeys
  have hset : {k | t.lookup k = some v} = (hits.keys.toFinset : Set K) := by
    ext k
    simp only [Set.mem_ofPred_eq, Finset.mem_coe, List.mem_toFinset, hhits, List.mem_keys,
      List.mem_filter, decide_eq_true_eq, mem_entries_iff]
    exact ⟨fun hk => ⟨v, hk, rfl⟩, fun ⟨_, hk, hv⟩ => hv ▸ hk⟩
  have hcount : (values t).count v = hits.length := by
    rw [values, Multiset.coe_count, List.count, List.countP_map, hhits,
      ← List.countP_eq_length_filter]
    exact List.countP_congr fun e _ => by simp
  rw [hset, Set.encard_coe_eq_coe_finsetCard, List.toFinset_card_of_nodup hnodup, hcount,
    List.keys, List.length_map]

/-! ## Inserting one after the other -/

section
variable {α : Type} (key : α → K) (value : α → V)

theorem lookup_foldl_insert_of_ne {xs : List α} (t : Table K V) {k : K} (h : ∀ x ∈ xs, key x ≠ k) :
    (xs.foldl (fun t x => t.insert (key x) (value x)) t).lookup k = t.lookup k := by
  induction xs generalizing t with
  | nil => rfl
  | cons x xs ih =>
    rw [List.foldl_cons, ih _ fun y hy => h y (List.mem_cons_of_mem _ hy),
      AList.lookup_insert_ne (h x List.mem_cons_self).symm]

theorem lookup_foldl_insert_eq_none {xs : List α} {t : Table K V} {k : K} :
    (xs.foldl (fun t x => t.insert (key x) (value x)) t).lookup k = none ↔
      (∀ x ∈ xs, key x ≠ k) ∧ t.lookup k = none := by
  induction xs generalizing t with
  | nil => simp
  | cons x xs ih =>
    rw [List.foldl_cons, ih, List.forall_mem_cons]
    by_cases hx : key x = k
    · simp [hx]
    · simp [AList.lookup_insert_ne (Ne.symm hx), hx]

/-- Of several insertions under different keys, each one is found. -/
theorem lookup_foldl_insert {xs : List α} (t : Table K V) (hnodup : (xs.map key).Nodup) {x : α}
    (hx : x ∈ xs) :
    (xs.foldl (fun t x => t.insert (key x) (value x)) t).lookup (key x) = some (value x) := by
  induction xs generalizing t with
  | nil => cases hx
  | cons y xs ih =>
    obtain ⟨hfresh, hnodup⟩ := List.nodup_cons.mp hnodup
    rw [List.foldl_cons]
    rcases List.mem_cons.mp hx with rfl | hx
    · rw [lookup_foldl_insert_of_ne key value _ fun z hz heq =>
        hfresh (List.mem_map.mpr ⟨z, hz, heq⟩), AList.lookup_insert]
    · exact ih _ hnodup hx

/-- Of insertions under different keys, these are found and nothing else. -/
theorem lookup_foldl_insert_eq_some {xs : List α} (hnodup : (xs.map key).Nodup) {k : K} {v : V} :
    (xs.foldl (fun t x => t.insert (key x) (value x)) (∅ : Table K V)).lookup k = some v ↔
      ∃ x ∈ xs, key x = k ∧ value x = v := by
  constructor
  · intro hfound
    by_contra hno
    push Not at hno
    have hnone : ∀ x ∈ xs, key x ≠ k := by
      intro x hx hk
      have hvalue := lookup_foldl_insert key value ∅ hnodup hx
      rw [hk, hfound] at hvalue
      exact hno x hx hk (Option.some.inj hvalue).symm
    rw [lookup_foldl_insert_of_ne key value ∅ hnone] at hfound
    cases hfound
  · rintro ⟨x, hx, rfl, rfl⟩
    exact lookup_foldl_insert key value ∅ hnodup hx

end

/-! ## Going through a table -/

section
variable {V' : Type}

/-- Insert what `f` makes of each entry, where it makes something. -/
def insertSome (f : (_ : K) × V → Option V') (t : Table K V') (e : (_ : K) × V) : Table K V' :=
  match f e with
  | none => t
  | some v => t.insert e.1 v

theorem lookup_foldl_insertSome_of_ne {f : (_ : K) × V → Option V'} {es : List ((_ : K) × V)}
    (t : Table K V') {k : K} (h : k ∉ es.keys) :
    (es.foldl (insertSome f) t).lookup k = t.lookup k := by
  induction es generalizing t with
  | nil => rfl
  | cons e es ih =>
    rw [List.keys_cons, List.mem_cons, not_or] at h
    rw [List.foldl_cons, ih _ h.2, insertSome]
    split
    · rfl
    · exact AList.lookup_insert_ne h.1

theorem lookup_foldl_insertSome {f : (_ : K) × V → Option V'} {es : List ((_ : K) × V)}
    {t : Table K V'} (hnodup : es.NodupKeys) {k : K} {v : V} (hmem : ⟨k, v⟩ ∈ es)
    (hnone : t.lookup k = none) : (es.foldl (insertSome f) t).lookup k = f ⟨k, v⟩ := by
  induction es generalizing t with
  | nil => cases hmem
  | cons e es ih =>
    rw [List.nodupKeys_cons] at hnodup
    rw [List.foldl_cons]
    rcases List.mem_cons.mp hmem with rfl | hmem
    · rw [lookup_foldl_insertSome_of_ne _ hnodup.1, insertSome]
      split
      · rename_i hf
        rw [hnone, hf]
      · rename_i hf
        rw [AList.lookup_insert, hf]
    · refine ih hnodup.2 hmem ?_
      have hne : k ≠ e.1 := fun hk => hnodup.1 (hk ▸ List.mem_keys_of_mem hmem)
      rw [insertSome]
      split
      · exact hnone
      · rw [AList.lookup_insert_ne hne, hnone]

/-- Going through a table in any order finds what `f` makes of its entries. -/
theorem lookup_foldl_insertSome_perm {t : Table K V} {es : List ((_ : K) × V)}
    (hperm : es.Perm t.entries) (f : (_ : K) × V → Option V') (k : K) :
    (es.foldl (insertSome f) ∅).lookup k = (t.lookup k).bind fun v => f ⟨k, v⟩ := by
  have hnodup : es.NodupKeys := (List.perm_nodupKeys hperm).mpr t.nodupKeys
  cases h : t.lookup k with
  | none =>
    rw [lookup_foldl_insertSome_of_ne]
    · rfl
    · intro hmem
      obtain ⟨v, hv⟩ := List.exists_of_mem_keys hmem
      rw [mem_entries_iff.mp (hperm.mem_iff.mp hv)] at h
      cases h
  | some v =>
    exact lookup_foldl_insertSome hnodup (hperm.mem_iff.mpr (mem_entries_iff.mpr h)) rfl

end

end Table
