-- SUMMARY: Maximal runs of consecutive numbers at the head of a list.
import Mathlib.Data.List.Basic
import Mathlib.Tactic.Common

/-!
# Runs

Batched input and output groups neighbouring items whose positions are
consecutive numbers. `runLength` counts how far such a run extends; an item
without a position ends it.
-/

namespace Runs

variable {α : Type} {pos : α → Option Nat}

/-- How many items at the head of the list continue a run that has reached `prev`. -/
def runLength (pos : α → Option Nat) (prev : Nat) : List α → Nat
  | [] => 0
  | x :: xs => if pos x = some (prev + 1) then runLength pos (prev + 1) xs + 1 else 0

theorem runLength_le (prev : Nat) (xs : List α) : runLength pos prev xs ≤ xs.length := by
  induction xs generalizing prev with
  | nil => simp [runLength]
  | cons x xs ih =>
    simp only [runLength]
    split
    · have := ih (prev + 1)
      simp only [List.length_cons]
      omega
    · omega

/-- The items of a run sit at the positions that follow `prev`, one after the other. -/
theorem pos_of_lt_runLength {prev j : Nat} {xs : List α} {x : α}
    (hj : j < runLength pos prev xs) (hx : xs[j]? = some x) : pos x = some (prev + 1 + j) := by
  induction xs generalizing prev j with
  | nil => cases hx
  | cons y ys ih =>
    simp only [runLength] at hj
    split at hj
    · rename_i hy
      cases j with
      | zero =>
        simp only [List.getElem?_cons_zero, Option.some.injEq] at hx
        rw [← hx, hy, Nat.add_zero]
      | succ j =>
        rw [List.getElem?_cons_succ] at hx
        rw [ih (show j < runLength pos (prev + 1) ys by omega) hx]
        congr 1
        omega
    · omega

theorem runLength_map {β : Type} (f : β → α) (prev : Nat) (ys : List β) :
    runLength pos prev (ys.map f) = runLength (fun y => pos (f y)) prev ys := by
  induction ys generalizing prev with
  | nil => rfl
  | cons y ys ih =>
    rw [List.map_cons, runLength, runLength, ih]

/-! ## Counting runs -/

/-- How many runs there are in the list; the item in front of it sits at `prev`. -/
def count (pos : α → Option Nat) (prev : Option Nat) : List α → Nat
  | [] => 0
  | x :: xs =>
    if pos x = none ∨ pos x = prev.map (· + 1) then count pos (pos x) xs
    else count pos (pos x) xs + 1

/-- Items that are one run: they all have positions, consecutive ones. -/
structure IsRun (pos : α → Option Nat) (xs : List α) : Prop where
  placed : ∀ x ∈ xs, pos x ≠ none
  next : xs.IsChain fun x y => pos y = (pos x).map (· + 1)

section
variable {prev : Option Nat} {x : α} {xs : List α}

theorem count_cons_of_none (h : pos x = none) : count pos prev (x :: xs) = count pos none xs := by
  rw [count, if_pos (.inl h), h]

theorem count_cons_of_next {p : Nat} (h : pos x = some (p + 1)) :
    count pos (some p) (x :: xs) = count pos (some (p + 1)) xs := by
  rw [count, if_pos (.inr h), h]

theorem count_cons_of_some {p : Nat} (h : pos x = some p) :
    count pos none (x :: xs) = count pos (some p) xs + 1 := by
  have hstart : ¬(pos x = none ∨ pos x = none) := by rw [h]; simp
  rw [count, Option.map_none, if_neg hstart, h]

/-- Items without positions are no runs. -/
theorem count_eq_zero (h : ∀ x ∈ xs, pos x = none) : count pos none xs = 0 := by
  induction xs with
  | nil => rfl
  | cons x xs ih =>
    obtain ⟨hx, hxs⟩ := List.forall_mem_cons.mp h
    rw [count_cons_of_none hx, ih hxs]

/-- What comes before can only continue the first run. -/
theorem count_le (prev : Option Nat) (xs : List α) : count pos prev xs ≤ count pos none xs := by
  cases xs with
  | nil => exact Nat.le_refl _
  | cons x xs =>
    cases h : pos x with
    | none => exact Nat.le_of_eq ((count_cons_of_none h).trans (count_cons_of_none h).symm)
    | some p =>
      rw [count_cons_of_some h, count, h]
      split
      · exact Nat.le_succ _
      · exact Nat.le_refl _

/-- At the end of a run a new one begins, or items without positions. -/
theorem count_runLength (prev : Nat) (xs : List α) :
    count pos (some prev) xs = count pos none (xs.drop (runLength pos prev xs)) := by
  induction xs generalizing prev with
  | nil => rfl
  | cons x xs ih =>
    rw [runLength]
    by_cases hnext : pos x = some (prev + 1)
    · rw [if_pos hnext, List.drop_succ_cons, count_cons_of_next hnext]
      exact ih (prev + 1)
    · rw [if_neg hnext, List.drop_zero, count, count]
      simp only [Option.map_some, Option.map_none, hnext, or_false, or_self]

theorem count_append (prev : Option Nat) (xs ys : List α) :
    count pos prev (xs ++ ys) ≤ count pos prev xs + count pos none ys := by
  induction xs generalizing prev with
  | nil =>
    rw [List.nil_append, count, Nat.zero_add]
    exact count_le prev ys
  | cons x xs ih =>
    have hrest := ih (pos x)
    rw [List.cons_append, count, count]
    split <;> omega

/-- Inside a run no other begins. -/
theorem IsRun.count_tail (h : IsRun pos (x :: xs)) : count pos (pos x) xs = 0 := by
  induction xs generalizing x with
  | nil => rfl
  | cons y ys ih =>
    obtain ⟨hx, hrest⟩ := List.forall_mem_cons.mp h.placed
    obtain ⟨hxy, hchain⟩ := List.isChain_cons_cons.mp h.next
    rw [count, if_pos (.inr hxy)]
    exact ih ⟨hrest, hchain⟩

theorem IsRun.count_le_one (h : IsRun pos xs) : count pos none xs ≤ 1 := by
  cases xs with
  | nil => exact Nat.zero_le 1
  | cons x xs =>
    have htail := h.count_tail
    rw [count]
    split <;> omega

end

/-- However the list is cut into runs and pieces without positions, there are no fewer of these
    runs than `count` says. -/
theorem count_flatten_le {pieces : List (List α)}
    (h : ∀ xs ∈ pieces, (∀ x ∈ xs, pos x = none) ∨ IsRun pos xs) :
    count pos none pieces.flatten ≤ pieces.countP fun xs => xs.any fun x => (pos x).isSome := by
  induction pieces with
  | nil => exact Nat.le_refl 0
  | cons xs pieces ih =>
    obtain ⟨hxs, hrest⟩ := List.forall_mem_cons.mp h
    have happend : count pos none (xs ++ pieces.flatten) ≤ _ := count_append none xs _
    have hpieces := ih hrest
    rw [List.flatten_cons, List.countP_cons]
    by_cases hany : ∀ x ∈ xs, pos x = none
    · rw [count_eq_zero hany] at happend
      omega
    · have hone := (hxs.resolve_left hany).count_le_one
      have hplaced : (xs.any fun x => (pos x).isSome) = true := by
        obtain ⟨x, hx, hpos⟩ : ∃ x ∈ xs, pos x ≠ none := by simpa using hany
        exact List.any_eq_true.mpr ⟨x, hx, Option.isSome_iff_ne_none.mpr hpos⟩
      rw [if_pos hplaced]
      omega

end Runs
