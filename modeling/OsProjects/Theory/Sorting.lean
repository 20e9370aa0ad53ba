import Mathlib.Data.List.Pairwise
import Mathlib.Data.List.Perm.Basic

/-!
Owns sorting by a comparison function that need not be an order, and the merge
of two lists.

A library sort only promises an order for a comparison that is consistent on the
elements it is given; otherwise it still permutes them. `Sorts` states this
promise, and `exists_sorts` says that it can always be kept. A merge keeps each
of its two lists as a sublist, so it never repairs one that is out of order.

Does not own how a program stores the lists.
-/

namespace OsProjects.Theory

variable {α : Type}

/-- On the elements of the list the comparison is a total preorder: it is
negative one way exactly when it is positive the other way, and transitive. -/
structure PreorderOn (cmp : α → α → Int) (elements : List α) : Prop where
  opposite : ∀ a ∈ elements, ∀ b ∈ elements, cmp a b < 0 ↔ 0 < cmp b a
  trans : ∀ a ∈ elements, ∀ b ∈ elements, ∀ c ∈ elements,
    cmp a b ≤ 0 → cmp b c ≤ 0 → cmp a c ≤ 0

/-- What a sort may do: permute the elements, and put them in the order of the
comparison when that is one. -/
structure Sorts (cmp : α → α → Int) (before after : List α) : Prop where
  perm : after.Perm before
  ordered : PreorderOn cmp before → after.Pairwise fun a b => cmp a b ≤ 0

/-- A consistent comparison can be sorted by. -/
theorem PreorderOn.exists_ordered {cmp : α → α → Int} {elements : List α}
    (preorder : PreorderOn cmp elements) :
    ∃ after : List α, after.Perm elements ∧ after.Pairwise fun a b => cmp a b ≤ 0 := by
  -- the comparison is an order on the type of the elements
  let le : {a // a ∈ elements} → {a // a ∈ elements} → Bool := fun a b => cmp a.1 b.1 ≤ 0
  have trans : ∀ a b c, le a b = true → le b c = true → le a c = true := by
    intro a b c first second
    simp only [le, decide_eq_true_eq] at first second ⊢
    exact preorder.trans a.1 a.2 b.1 b.2 c.1 c.2 first second
  have total : ∀ a b, (le a b || le b a) = true := by
    intro a b
    have opposite := preorder.opposite b.1 b.2 a.1 a.2
    simp only [le, Bool.or_eq_true, decide_eq_true_eq]
    omega
  refine ⟨(elements.attach.mergeSort le).map Subtype.val, ?_, ?_⟩
  · have perm := (List.mergeSort_perm elements.attach le).map Subtype.val
    rwa [List.attach_map_subtype_val] at perm
  · rw [List.pairwise_map]
    refine (List.pairwise_mergeSort trans total elements.attach).imp ?_
    intro a b ordered
    simpa [le] using ordered

/-- Whatever the comparison, some list keeps the promise. -/
theorem exists_sorts (cmp : α → α → Int) (before : List α) :
    ∃ after : List α, Sorts cmp before after := by
  by_cases preorder : PreorderOn cmp before
  · obtain ⟨after, perm, ordered⟩ := preorder.exists_ordered
    exact ⟨after, perm, fun _ => ordered⟩
  · exact ⟨before, .refl before, fun holds => absurd holds preorder⟩

/-- Of an inconsistent comparison no order is promised. -/
theorem sorts_of_perm {cmp : α → α → Int} {before after : List α}
    (inconsistent : ¬PreorderOn cmp before) (perm : after.Perm before) :
    Sorts cmp before after :=
  ⟨perm, fun holds => absurd holds inconsistent⟩

/-- Two elements of an ordered list stand in its order one way or the other. -/
theorem related_of_pairwise {relation : α → α → Prop} {elements : List α}
    (ordered : elements.Pairwise relation) {a b : α} (aMember : a ∈ elements)
    (bMember : b ∈ elements) (different : a ≠ b) : relation a b ∨ relation b a := by
  have symmetric : Std.Symm fun a b => relation a b ∨ relation b a := ⟨fun _ _ => Or.symm⟩
  have both : elements.Pairwise fun a b => relation a b ∨ relation b a := ordered.imp Or.inl
  exact both.forall aMember bMember different

section Merge

variable {le : α → α → Bool}

theorem merge_sublists (first second : List α) :
    first.Sublist (first.merge second le) ∧ second.Sublist (first.merge second le) := by
  induction first generalizing second with
  | nil => simp
  | cons x first firstHypothesis =>
      induction second with
      | nil => simp
      | cons y second secondHypothesis =>
          by_cases ordered : le x y = true
          · rw [List.cons_merge_cons_pos le first second ordered]
            have rest := firstHypothesis (y :: second)
            exact ⟨rest.1.cons_cons x, rest.2.cons x⟩
          · rw [List.cons_merge_cons_neg le first second ordered]
            exact ⟨secondHypothesis.1.cons y, secondHypothesis.2.cons_cons y⟩

/-- A merge is in order only if both lists are. -/
theorem pairwise_of_merge {relation : α → α → Prop} {first second : List α}
    (ordered : (first.merge second le).Pairwise relation) :
    first.Pairwise relation ∧ second.Pairwise relation :=
  ⟨ordered.sublist (merge_sublists first second).1,
    ordered.sublist (merge_sublists first second).2⟩

section Heads

variable {x y : Int} {xs ys taken total : List Int}

/-- A merge that prefers the second list takes the head of the first if that is smaller. -/
theorem merge_take_first (list : taken ++ (y :: ys).merge (x :: xs) = total) (smaller : x < y) :
    taken ++ [x] ++ (y :: ys).merge xs = total := by
  rw [List.cons_merge_cons_neg _ _ _ (by simpa using smaller)] at list
  rw [← list, List.append_assoc, List.singleton_append]

theorem merge_take_second (list : taken ++ (y :: ys).merge (x :: xs) = total)
    (notSmaller : ¬x < y) : taken ++ [y] ++ ys.merge (x :: xs) = total := by
  rw [List.cons_merge_cons_pos _ _ _ (by simpa using notSmaller)] at list
  rw [← list, List.append_assoc, List.singleton_append]

end Heads

/-- The merge of two ascending lists is ascending. -/
theorem merge_ascending {first second : List Int} (firstAscending : first.Pairwise (· ≤ ·))
    (secondAscending : second.Pairwise (· ≤ ·)) :
    (first.merge second).Pairwise (· ≤ ·) := by
  have trans : ∀ a b c : Int, decide (a ≤ b) = true → decide (b ≤ c) = true →
      decide (a ≤ c) = true := by
    intro a b c first second
    exact decide_eq_true (Int.le_trans (of_decide_eq_true first) (of_decide_eq_true second))
  have total : ∀ a b : Int, (decide (a ≤ b) || decide (b ≤ a)) = true := by
    intro a b
    simpa using Int.le_total a b
  have merged := List.pairwise_merge trans total first second
    (firstAscending.imp decide_eq_true) (secondAscending.imp decide_eq_true)
  exact merged.imp of_decide_eq_true

end Merge

end OsProjects.Theory
