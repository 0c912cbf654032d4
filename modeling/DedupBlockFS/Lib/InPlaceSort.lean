-- SUMMARY: Insertion sort in place: its loops stay inside the array and sort the first elements stably.
import Mathlib.Data.List.DropRight
import Mathlib.Order.Lattice
import Mathlib.Tactic.Common

/-!
# Insertion sort in place

The loops of an insertion sort over an array, which is a list here; an access outside of it
is `none`. What they leave is the stable sort by the key (`insertionSort_eq`): the first
elements in the order of their keys, equal keys in the order in which they were before, and
the other elements where they were.
-/

namespace InPlaceSort

variable {α κ : Type} [LinearOrder κ] (key : α → κ)

/-! ## The loops -/

/-- `arr[i] = x`. -/
def store (arr : List α) (i : Nat) (x : α) : Option (List α) :=
  if i < arr.length then some (arr.set i x) else none

/-- The inner loop: move the elements in front of `j` that are greater than `tmp` one place to
    the right. Returns the array and the place that is left for `tmp`. -/
def shift (tmp : α) : (arr : List α) → (j : Nat) → Option (List α × Nat)
  | arr, 0 => some (arr, 0)
  | arr, j + 1 => do
    let x ← arr[j]?
    if key tmp < key x then
      let arr ← store arr (j + 1) x
      shift tmp arr j
    else some (arr, j + 1)

/-- The body of the outer loop. -/
def insertNext (arr : List α) (i : Nat) : Option (List α) := do
  let prev ← arr[i - 1]?
  let tmp ← arr[i]?
  if key prev ≤ key tmp then some arr
  else
    let (arr, j) ← shift key tmp arr i
    store arr j tmp

/-- `for (i = 1; i < n; i++)`. -/
def insertionSort (arr : List α) (n : Nat) : Option (List α) :=
  (List.range' 1 (n - 1)).foldlM (insertNext key) arr

/-! ## What they compute -/

/-- The elements of a sorted array that stay in front of `tmp`, and those that move. -/
def kept (tmp : α) (sorted : List α) : List α := sorted.rdropWhile fun x => key tmp < key x
def moved (tmp : α) (sorted : List α) : List α := sorted.rtakeWhile fun x => key tmp < key x

/-- Put an element behind the last one that is not greater. -/
def insertRight (tmp : α) (sorted : List α) : List α :=
  kept key tmp sorted ++ tmp :: moved key tmp sorted

def sort (xs : List α) : List α := xs.foldl (fun sorted tmp => insertRight key tmp sorted) []

variable {key} {tmp : α} {sorted xs ys : List α}

theorem kept_append_moved : kept key tmp sorted ++ moved key tmp sorted = sorted :=
  List.rdropWhile_append_rtakeWhile

theorem kept_concat_of_lt {x : α} (h : key tmp < key x) :
    kept key tmp (sorted ++ [x]) = kept key tmp sorted := by
  rw [kept, List.rdropWhile_concat, if_pos (decide_eq_true h), kept]

theorem moved_concat_of_lt {x : α} (h : key tmp < key x) :
    moved key tmp (sorted ++ [x]) = moved key tmp sorted ++ [x] := by
  rw [moved, List.rtakeWhile_concat, if_pos (decide_eq_true h), moved]

theorem kept_concat_of_le {x : α} (h : key x ≤ key tmp) :
    kept key tmp (sorted ++ [x]) = sorted ++ [x] := by
  rw [kept, List.rdropWhile_concat, if_neg (by simpa using h)]

theorem moved_concat_of_le {x : α} (h : key x ≤ key tmp) : moved key tmp (sorted ++ [x]) = [] := by
  rw [moved, List.rtakeWhile_concat, if_neg (by simpa using h)]

theorem lt_of_mem_moved {x : α} (h : x ∈ moved key tmp sorted) : key tmp < key x := by
  unfold moved at h
  have hgreater := List.mem_rtakeWhile_imp h
  exact of_decide_eq_true hgreater

theorem getElem?_middle (front : List α) (x : α) (rest : List α) :
    (front ++ x :: rest)[front.length]? = some x := by
  rw [List.getElem?_append_right (Nat.le_refl _), Nat.sub_self, List.getElem?_cons_zero]

theorem store_middle (front : List α) (y x : α) (rest : List α) :
    store (front ++ y :: rest) front.length x = some (front ++ x :: rest) := by
  unfold store
  rw [if_pos (by simp), List.set_append_right _ _ (Nat.le_refl _), Nat.sub_self, List.set_cons_zero]

variable (key tmp sorted) in
/-- The inner loop moves the greater elements at the end of `sorted`; the place in front of them
    is free. -/
theorem shift_eq (hole : α) (rest : List α) :
    ∃ free, shift key tmp (sorted ++ hole :: rest) sorted.length =
      some (kept key tmp sorted ++ free :: (moved key tmp sorted ++ rest),
        (kept key tmp sorted).length) := by
  induction sorted using List.reverseRecOn generalizing hole rest with
  | nil => exact ⟨hole, rfl⟩
  | append_singleton sorted x ih =>
    have hget : (sorted ++ [x] ++ hole :: rest)[sorted.length]? = some x := by
      rw [List.append_assoc]
      exact getElem?_middle sorted x _
    rw [List.length_append, List.length_singleton, shift, hget, Option.bind_eq_bind,
      Option.bind_some]
    by_cases hgreater : key tmp < key x
    · -- `x` moves into the hole, and leaves one where it was
      obtain ⟨free, hfree⟩ := ih x (x :: rest)
      have hstore : store (sorted ++ [x] ++ hole :: rest) (sorted.length + 1) x =
          some (sorted ++ x :: x :: rest) := by
        have hmiddle := store_middle (sorted ++ [x]) hole x rest
        rw [List.length_append, List.length_singleton] at hmiddle
        rw [hmiddle, List.append_assoc]
        rfl
      refine ⟨free, ?_⟩
      rw [if_pos hgreater, hstore, Option.bind_eq_bind, Option.bind_some, hfree,
        kept_concat_of_lt hgreater, moved_concat_of_lt hgreater, List.append_assoc]
      rfl
    · have hle : key x ≤ key tmp := not_lt.mp hgreater
      refine ⟨hole, ?_⟩
      rw [if_neg hgreater, kept_concat_of_le hle, moved_concat_of_le hle, List.length_append,
        List.length_singleton]
      rfl

variable (key) in
/-- The body of the outer loop inserts the next element into those in front of it. -/
theorem insertNext_eq (hsorted : sorted ≠ []) (tmp : α) (rest : List α) :
    insertNext key (sorted ++ tmp :: rest) sorted.length =
      some (insertRight key tmp sorted ++ rest) := by
  obtain ⟨init, prev, rfl⟩ : ∃ init prev, sorted = init ++ [prev] :=
    ⟨_, _, (List.dropLast_append_getLast hsorted).symm⟩
  have hprev : (init ++ [prev] ++ tmp :: rest)[(init ++ [prev]).length - 1]? = some prev := by
    rw [List.length_append, List.length_singleton, Nat.add_sub_cancel, List.append_assoc]
    exact getElem?_middle init prev _
  rw [insertNext, hprev, getElem?_middle, Option.bind_eq_bind, Option.bind_some,
    Option.bind_eq_bind, Option.bind_some]
  by_cases hle : key prev ≤ key tmp
  · -- the element is in order already, and it would have stayed where it is
    rw [if_pos hle, insertRight, kept_concat_of_le hle, moved_concat_of_le hle, List.append_assoc,
      List.append_assoc, List.append_assoc]
    rfl
  · obtain ⟨free, hshift⟩ := shift_eq key tmp (init ++ [prev]) tmp rest
    rw [if_neg hle, hshift, Option.bind_some, insertRight]
    exact (store_middle ..).trans (by rw [List.append_assoc]; rfl)

theorem length_insertRight : (insertRight key tmp sorted).length = sorted.length + 1 := by
  rw [insertRight, List.length_append, List.length_cons, ← Nat.add_assoc, ← List.length_append,
    kept_append_moved]

theorem sort_concat (xs : List α) (tmp : α) :
    sort key (xs ++ [tmp]) = insertRight key tmp (sort key xs) := List.foldl_concat ..

theorem length_sort (xs : List α) : (sort key xs).length = xs.length := by
  induction xs using List.reverseRecOn with
  | nil => rfl
  | append_singleton xs tmp ih =>
    rw [sort_concat, length_insertRight, ih, List.length_append, List.length_singleton]

variable (key) in
/-- The loops stay inside the array, sort its first elements and leave the others alone. -/
theorem insertionSort_append (xs rest : List α) :
    insertionSort key (xs ++ rest) xs.length = some (sort key xs ++ rest) := by
  induction xs using List.reverseRecOn generalizing rest with
  | nil => rfl
  | append_singleton xs tmp ih =>
    by_cases hnil : xs = []
    · subst hnil
      rfl
    · have hpos : 0 < xs.length := List.length_pos_iff.mpr hnil
      have hrange : List.range' 1 (xs.length + 1 - 1) =
          List.range' 1 (xs.length - 1) ++ [xs.length] := by
        rw [show xs.length + 1 - 1 = (xs.length - 1) + 1 by omega, List.range'_concat,
          show 1 + 1 * (xs.length - 1) = xs.length by omega]
      have hfirst := ih (tmp :: rest)
      unfold insertionSort at hfirst ⊢
      rw [List.append_assoc, List.singleton_append, List.length_append, List.length_singleton,
        hrange, List.foldlM_append, hfirst, Option.bind_eq_bind, Option.bind_some]
      have hsorted : sort key xs ≠ [] := by
        rw [← List.length_pos_iff, length_sort]
        exact hpos
      have hnext := insertNext_eq key hsorted tmp rest
      rw [length_sort] at hnext
      rw [List.foldlM_cons, hnext, sort_concat]
      rfl

/-! ## The stable sort -/

/-- The elements in the order of their keys, equal keys in the order that they had. -/
structure SortsStably (key : α → κ) (xs ys : List α) : Prop where
  sorted : ys.Pairwise fun a b => key a ≤ key b
  stable : ∀ k, ys.filter (key · = k) = xs.filter (key · = k)

theorem SortsStably.insertRight (h : SortsStably key xs sorted) (tmp : α) :
    SortsStably key (xs ++ [tmp]) (insertRight key tmp sorted) := by
  have hsplit : kept key tmp sorted ++ moved key tmp sorted = sorted := kept_append_moved
  have hpairwise := h.sorted
  rw [← hsplit, List.pairwise_append] at hpairwise
  obtain ⟨hkept, hmoved, hacross⟩ := hpairwise
  -- the last element that stays is not greater than `tmp`, and so are those in front of it
  have hle : ∀ x ∈ kept key tmp sorted, key x ≤ key tmp := by
    intro x hx
    have hnil := List.ne_nil_of_mem hx
    have hlast : key ((kept key tmp sorted).getLast hnil) ≤ key tmp := by
      have hnot := List.rdropWhile_last_not (fun x => key tmp < key x) sorted hnil
      exact not_lt.mp fun hlt => hnot (decide_eq_true hlt)
    rw [← List.dropLast_append_getLast hnil] at hkept hx
    rcases List.mem_append.mp hx with hinit | hx
    · exact ((List.pairwise_append.mp hkept).2.2 x hinit _ List.mem_cons_self).trans hlast
    · rw [List.mem_singleton.mp hx]
      exact hlast
  constructor
  · unfold InPlaceSort.insertRight
    refine List.pairwise_append.mpr ⟨hkept, List.pairwise_cons.mpr ⟨fun x hx => ?_, hmoved⟩, ?_⟩
    · exact (lt_of_mem_moved hx).le
    · intro x hx y hy
      rcases List.mem_cons.mp hy with rfl | hy
      · exact hle x hx
      · exact hacross x hx y hy
  · intro k
    rw [InPlaceSort.insertRight, List.filter_append, List.filter_append, ← h.stable k,
      List.filter_cons, List.filter_cons]
    by_cases hk : key tmp = k
    · -- nothing that moves has the key of `tmp`
      have hnone : (moved key tmp sorted).filter (key · = k) = [] := by
        refine List.filter_eq_nil_iff.mpr fun x hx => ?_
        simpa [← hk] using (lt_of_mem_moved hx).ne'
      have hstays := congrArg (List.filter (key · = k)) hsplit
      rw [List.filter_append, hnone, List.append_nil] at hstays
      rw [if_pos (decide_eq_true hk), if_pos (decide_eq_true hk), hnone, hstays]
      rfl
    · rw [if_neg (by simpa using hk), if_neg (by simpa using hk), ← List.filter_append, hsplit]
      exact (List.append_nil _).symm

variable (key) in
/-- What the loops compute is the stable sort. -/
theorem sort_sortsStably (xs : List α) : SortsStably key xs (sort key xs) := by
  induction xs using List.reverseRecOn with
  | nil => exact ⟨.nil, fun _ => rfl⟩
  | append_singleton xs tmp ih =>
    rw [sort_concat]
    exact ih.insertRight tmp

theorem mem_of_filter_eq {ys' : List α}
    (h : ∀ k, ys.filter (key · = k) = ys'.filter (key · = k)) : ∀ x ∈ ys, x ∈ ys' := by
  intro x hx
  have hfound : x ∈ ys.filter (key · = key x) := List.mem_filter.mpr ⟨hx, by simp⟩
  rw [h] at hfound
  exact (List.mem_filter.mp hfound).1

/-- There is only one. -/
theorem SortsStably.unique {ys' : List α} (h : SortsStably key xs ys)
    (h' : SortsStably key xs ys') : ys = ys' := by
  have hsame : ∀ k, ys.filter (key · = k) = ys'.filter (key · = k) := fun k =>
    (h.stable k).trans (h'.stable k).symm
  obtain ⟨hsorted, -⟩ := h
  obtain ⟨hsorted', -⟩ := h'
  induction ys generalizing ys' with
  | nil =>
    cases ys' with
    | nil => rfl
    | cons y ys' => cases mem_of_filter_eq (fun k => (hsame k).symm) y List.mem_cons_self
  | cons y ys ih =>
    cases ys' with
    | nil => cases mem_of_filter_eq hsame y List.mem_cons_self
    | cons y' ys' =>
      obtain ⟨hfirst, hrest⟩ := List.pairwise_cons.mp hsorted
      obtain ⟨hfirst', hrest'⟩ := List.pairwise_cons.mp hsorted'
      have hle : key y ≤ key y' := by
        have hfound := mem_of_filter_eq (fun k => (hsame k).symm) y' List.mem_cons_self
        rcases List.mem_cons.mp hfound with rfl | hin
        · exact le_refl _
        · exact hfirst y' hin
      have hge : key y' ≤ key y := by
        rcases List.mem_cons.mp (mem_of_filter_eq hsame y List.mem_cons_self) with rfl | hin
        · exact le_refl _
        · exact hfirst' y hin
      have hkey : key y = key y' := le_antisymm hle hge
      have hhead := hsame (key y)
      rw [List.filter_cons_of_pos (by simp), List.filter_cons_of_pos (by simp [hkey])] at hhead
      obtain ⟨rfl, -⟩ := List.cons_eq_cons.mp hhead
      refine congrArg (y :: ·) (ih (fun k => ?_) hrest hrest')
      have hk := hsame k
      rw [List.filter_cons, List.filter_cons] at hk
      split at hk
      · exact (List.cons_eq_cons.mp hk).2
      · exact hk

end InPlaceSort
