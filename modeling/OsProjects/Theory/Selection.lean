import Mathlib.Data.List.Basic
import Mathlib.Data.List.Nodup

/-!
Owns selection from a list, item by item, where the item selected and the item removed
need not be the same: the last of the best items is selected, and the first item with
its key is removed.

Every item is selected once exactly when two items of one key are never in such an
order that the later one is selected first. When all keys are different, the selection
is a stable sort.

Does not own what the items are or what makes one better.
-/

namespace OsProjects.Theory

variable {α κ : Type} [DecidableEq κ] {key : α → κ} {better : α → α → Bool}
variable {items order rest : List α} {first : α}

/-- The best of the items so far, where a later one that is at least as good takes its
place. -/
def pickLast (better : α → α → Bool) : α → List α → α
  | best, [] => best
  | best, item :: rest => pickLast better (if better item best then item else best) rest

/-- Any two items compare, in a way that can be carried on. -/
structure Ranks (better : α → α → Bool) : Prop where
  total : ∀ a b, better a b = true ∨ better b a = true
  trans : ∀ a b c, better a b = true → better b c = true → better a c = true

/-- What is selected from a list, one after the other. -/
inductive Serves (key : α → κ) (better : α → α → Bool) : List α → List α → Prop where
  | nil : Serves key better [] []
  | cons {first : α} {rest order : List α}
      (later : Serves key better
        ((first :: rest).eraseP fun item => key item = key (pickLast better first rest)) order) :
      Serves key better (first :: rest) (pickLast better first rest :: order)

theorem Ranks.refl (ranks : Ranks better) (item : α) : better item item = true := by
  rcases ranks.total item item with same | same
  · exact same
  · exact same

theorem pickLast_over_first (ranks : Ranks better) (best : α) (rest : List α) :
    better (pickLast better best rest) best = true := by
  induction rest generalizing best with
  | nil => exact ranks.refl best
  | cons next rest inductionHypothesis =>
      by_cases replaced : better next best = true
      · simp only [pickLast, if_pos replaced]
        exact ranks.trans _ _ _ (inductionHypothesis next) replaced
      · simp only [pickLast, if_neg replaced]
        exact inductionHypothesis best

/-- The item selected is at least as good as those before it, and better than those
behind it. -/
theorem pickLast_split (ranks : Ranks better) (best : α) (rest : List α) :
    ∃ pre post, best :: rest = pre ++ pickLast better best rest :: post ∧
      (∀ item ∈ pre, better (pickLast better best rest) item = true) ∧
      ∀ item ∈ post, better item (pickLast better best rest) = false := by
  induction rest generalizing best with
  | nil =>
      exact ⟨[], [], rfl, fun _ member => absurd member List.not_mem_nil,
        fun _ member => absurd member List.not_mem_nil⟩
  | cons next rest inductionHypothesis =>
      by_cases replaced : better next best = true
      · simp only [pickLast, if_pos replaced]
        rcases inductionHypothesis next with ⟨pre, post, split, before, behind⟩
        refine ⟨best :: pre, post, by rw [List.cons_append, ← split], ?_, behind⟩
        intro item member
        rcases List.mem_cons.mp member with isBest | isBefore
        · rw [isBest]
          exact ranks.trans _ _ _ (pickLast_over_first ranks next rest) replaced
        · exact before item isBefore
      · simp only [pickLast, if_neg replaced]
        rcases inductionHypothesis best with ⟨pre, post, split, before, behind⟩
        cases pre with
        | nil =>
            rcases List.cons.inj split with ⟨isBest, isPost⟩
            refine ⟨[], next :: rest, by rw [← isBest]; rfl, before, ?_⟩
            intro item member
            rcases List.mem_cons.mp member with isNext | isBehind
            · rw [isNext, ← isBest]
              exact Bool.eq_false_iff.mpr replaced
            · exact behind item (isPost ▸ isBehind)
        | cons head pre =>
            rcases List.cons.inj split with ⟨isBest, isRest⟩
            subst isBest
            have overBest := pickLast_over_first ranks best rest
            refine ⟨best :: next :: pre, post, ?_, ?_, behind⟩
            · exact congrArg (fun rest => best :: next :: rest) isRest
            · intro item member
              rcases List.mem_cons.mp member with isBest | isLater
              · rw [isBest]
                exact overBest
              · rcases List.mem_cons.mp isLater with isNext | isBefore
                · rw [isNext]
                  exact ranks.trans _ _ _ overBest ((ranks.total best next).resolve_right replaced)
                · exact before item (List.mem_cons_of_mem _ isBefore)

theorem pickLast_mem (ranks : Ranks better) (best : α) (rest : List α) :
    pickLast better best rest ∈ best :: rest := by
  rcases pickLast_split ranks best rest with ⟨pre, post, split, _⟩
  rw [split]
  exact List.mem_append_right _ List.mem_cons_self

/-- The first item with the key of the one selected is removed: either that one, and no
item before it has its key, or another one before it. -/
theorem eraseP_pickLast (key : α → κ) (ranks : Ranks better) (nodup : (first :: rest).Nodup) :
    ∃ front removed back, first :: rest = front ++ removed :: back ∧
      (first :: rest).eraseP (fun item => key item = key (pickLast better first rest)) =
        front ++ back ∧
      key removed = key (pickLast better first rest) ∧
      (removed = pickLast better first rest ∧
          (∀ item ∈ front, key item ≠ key (pickLast better first rest)) ∧
          (∀ item ∈ back, better item (pickLast better first rest) = false) ∨
        removed ≠ pickLast better first rest ∧ pickLast better first rest ∈ back ∧
          better (pickLast better first rest) removed = true) := by
  rcases pickLast_split ranks first rest with ⟨pre, post, split, before, behind⟩
  have member := pickLast_mem ranks first rest
  let sameAs : α → Bool := fun item => key item = key (pickLast better first rest)
  have matching : sameAs (pickLast better first rest) = true := decide_eq_true rfl
  rcases List.exists_of_eraseP (p := sameAs) member matching with
    ⟨removed, front, back, others, sameKey, whole, erased⟩
  have sameKey : key removed = key (pickLast better first rest) := of_decide_eq_true sameKey
  have others : ∀ item ∈ front, key item ≠ key (pickLast better first rest) := by
    intro item inFront same
    exact others item inFront (decide_eq_true same)
  refine ⟨front, removed, back, whole, erased, sameKey, ?_⟩
  by_cases isPicked : removed = pickLast better first rest
  · left
    refine ⟨isPicked, others, ?_⟩
    have distinct := whole.symm.trans split
    rw [isPicked] at distinct whole
    rw [whole, List.nodup_middle, List.nodup_cons] at nodup
    have notFront : pickLast better first rest ∉ front :=
      fun inFront => nodup.1 (List.mem_append_left _ inFront)
    have notBack : pickLast better first rest ∉ back :=
      fun inBack => nodup.1 (List.mem_append_right _ inBack)
    rcases (List.append_cons_inj_of_notMem notFront notBack).mp distinct with ⟨_, _, isPost⟩
    rw [isPost]
    exact behind
  · right
    refine ⟨isPicked, ?_, ?_⟩
    · rw [whole] at member
      rcases List.mem_append.mp member with inFront | inRest
      · exact absurd rfl (others _ inFront)
      · rcases List.mem_cons.mp inRest with same | inBack
        · exact absurd same.symm isPicked
        · exact inBack
    · have inWhole : removed ∈ first :: rest := by
        rw [whole]
        exact List.mem_append_right _ List.mem_cons_self
      rw [split] at inWhole
      rcases List.mem_append.mp inWhole with inPre | inRest
      · exact before _ inPre
      · rcases List.mem_cons.mp inRest with same | inPost
        · exact absurd same isPicked
        · have less := behind _ inPost
          rcases ranks.total (pickLast better first rest) removed with atLeast | atLeast
          · exact atLeast
          · rw [atLeast] at less
            cases less

/-- Only items of the list are selected. -/
theorem Serves.subset (ranks : Ranks better) (serves : Serves key better items order) :
    order ⊆ items := by
  induction serves with
  | nil => exact fun _ member => member
  | cons _ inductionHypothesis =>
      intro item member
      rcases List.mem_cons.mp member with isPicked | isLater
      · rw [isPicked]
        exact pickLast_mem ranks _ _
      · exact List.eraseP_subset (inductionHypothesis isLater)

/-- Every item is selected once exactly when no item is at least as good as one of its
key that stands before it. -/
theorem Serves.perm_iff (ranks : Ranks better) (serves : Serves key better items order)
    (nodup : items.Nodup) :
    order.Perm items ↔
      items.Pairwise fun first second => key first = key second → better second first = false := by
  induction serves with
  | nil => simp
  | @cons first rest order later inductionHypothesis =>
      rcases eraseP_pickLast key ranks nodup with
        ⟨front, removed, back, whole, erased, sameKey, cases⟩
      rw [erased] at later inductionHypothesis
      rw [whole] at nodup ⊢
      rcases cases with ⟨isPicked, others, behind⟩ | ⟨notPicked, inBack, atLeast⟩
      · -- the item selected is the one removed
        rw [isPicked] at nodup ⊢
        rw [List.nodup_middle, List.nodup_cons] at nodup
        have permutes : (pickLast better first rest :: order).Perm
            (front ++ pickLast better first rest :: back) ↔ order.Perm (front ++ back) := by
          have drop : (pickLast better first rest :: order).Perm
              (pickLast better first rest :: (front ++ back)) ↔ order.Perm (front ++ back) :=
            List.perm_cons _
          rw [← drop]
          exact ⟨fun same => same.trans List.perm_middle,
            fun same => same.trans List.perm_middle.symm⟩
        rw [permutes, inductionHypothesis nodup.2]
        constructor
        · intro pairwise
          rcases List.pairwise_append.mp pairwise with ⟨inFront, inBack, across⟩
          refine List.pairwise_append.mpr ⟨inFront, List.pairwise_cons.mpr ⟨?_, inBack⟩, ?_⟩
          · intro item member _
            exact behind item member
          · intro item member other otherMember same
            rcases List.mem_cons.mp otherMember with isPicked | isBehind
            · exact absurd (isPicked ▸ same) (others item member)
            · exact across item member other isBehind same
        · intro pairwise
          exact pairwise.sublist ((List.sublist_cons_self _ _).append_left front)
      · -- an item before the one selected is removed in its place, and never selected
        rw [List.nodup_middle, List.nodup_cons] at nodup
        apply iff_of_false
        · intro permutation
          have member := permutation.mem_iff.mpr
            (List.mem_append_right front (List.mem_cons_self (a := removed) (l := back)))
          rcases List.mem_cons.mp member with same | isLater
          · exact notPicked same
          · exact nodup.1 (later.subset ranks isLater)
        · intro pairwise
          have pair := (List.pairwise_cons.mp (List.pairwise_append.mp pairwise).2.1).1 _ inBack
            sameKey
          rw [atLeast] at pair
          cases pair

/-! ## Selection is a stable sort -/

section StableSort

variable {earlier : α → α → Prop}

/-- In a stably sorted list `first` may stand before `second`: it is at least as good,
and if the other is as good as well, it was there earlier. -/
def Precedes (better : α → α → Bool) (earlier : α → α → Prop) (first second : α) : Prop :=
  better first second = true ∧ (better second first = true → earlier first second)

/-- Of different items at most one precedes the other. -/
theorem Precedes.asymm {second : α} (asymmetric : ∀ a b, earlier a b → ¬earlier b a)
    (precedes : Precedes better earlier first second) :
    ¬Precedes better earlier second first := by
  intro precedesToo
  exact asymmetric _ _ (precedes.2 precedesToo.1) (precedesToo.2 precedes.1)

/-- The item selected precedes all others when the items are in the order opposite to
the one in which they came. -/
theorem pickLast_precedes (ranks : Ranks better)
    (ordered : (first :: rest).Pairwise fun a b => earlier b a) :
    ∀ item ∈ first :: rest, item = pickLast better first rest ∨
      Precedes better earlier (pickLast better first rest) item := by
  obtain ⟨pre, post, split, before, behind⟩ := pickLast_split ranks first rest
  rw [split] at ordered ⊢
  intro item member
  obtain inPre | inRest := List.mem_append.mp member
  · right
    refine ⟨before item inPre, fun _ => ?_⟩
    exact (List.pairwise_append.mp ordered).2.2 item inPre _ List.mem_cons_self
  · obtain isPicked | inPost := List.mem_cons.mp inRest
    · exact .inl isPicked
    · right
      have less := behind item inPost
      constructor
      · obtain atLeast | atLeast := ranks.total (pickLast better first rest) item
        · exact atLeast
        · rw [atLeast] at less
          cases less
      · intro atLeast
        rw [atLeast] at less
        cases less

/-- With different keys, the items are selected in a stable order. -/
theorem Serves.precedes (ranks : Ranks better) (serves : Serves key better items order)
    (distinct : (items.map key).Nodup) (ordered : items.Pairwise fun a b => earlier b a) :
    order.Pairwise (Precedes better earlier) := by
  induction serves with
  | nil => exact .nil
  | @cons first rest order later inductionHypothesis =>
      have remaining : ((first :: rest).eraseP fun item =>
          key item = key (pickLast better first rest)).Sublist (first :: rest) :=
        List.eraseP_sublist
      have precedes := pickLast_precedes ranks ordered
      refine List.pairwise_cons.mpr ⟨?_, inductionHypothesis (distinct.sublist
        (remaining.map key)) (ordered.sublist remaining)⟩
      intro item member
      have left := later.subset ranks member
      obtain isPicked | precedesItem := precedes item (remaining.subset left)
      · -- the item selected has been removed
        obtain ⟨front, removed, back, whole, erased, sameKey, _⟩ :=
          eraseP_pickLast key ranks distinct.of_map
        rw [erased, isPicked] at left
        rw [whole, List.map_append, List.map_cons, List.nodup_middle, List.nodup_cons, sameKey,
          ← List.map_append] at distinct
        exact absurd (List.mem_map_of_mem left) distinct.1
      · exact precedesItem

/-- A merge sort is stable. -/
theorem mergeSort_precedes (ranks : Ranks better) (ordered : items.Pairwise earlier) :
    (items.mergeSort better).Pairwise (Precedes better earlier) := by
  have total : ∀ a b, (better a b || better b a) = true := by
    intro a b
    rw [Bool.or_eq_true]
    exact ranks.total a b
  induction items with
  | nil => simp
  | cons item rest inductionHypothesis =>
      obtain ⟨itemEarlier, restOrdered⟩ := List.pairwise_cons.mp ordered
      obtain ⟨front, back, whole, sorted, worse⟩ :=
        List.mergeSort_cons ranks.trans total item rest
      have atLeast := List.pairwise_mergeSort ranks.trans total (item :: rest)
      have stable := inductionHypothesis restOrdered
      have members : ∀ other ∈ front ++ back, other ∈ rest := by
        intro other member
        rw [← sorted] at member
        exact List.mem_mergeSort.mp member
      rw [sorted] at stable
      rw [whole] at atLeast ⊢
      obtain ⟨inFront, inBack, across⟩ := List.pairwise_append.mp stable
      obtain ⟨_, behindItem, frontFirst⟩ := List.pairwise_append.mp atLeast
      refine List.pairwise_append.mpr ⟨inFront, List.pairwise_cons.mpr ⟨?_, inBack⟩, ?_⟩
      · intro other member
        refine ⟨(List.pairwise_cons.mp behindItem).1 other member, fun _ => ?_⟩
        exact itemEarlier other (members other (List.mem_append_right _ member))
      · intro other member next nextMember
        obtain isItem | inBackToo := List.mem_cons.mp nextMember
        · -- the items before this one are better, so that ties do not arise
          subst isItem
          refine ⟨frontFirst other member _ List.mem_cons_self, fun asGood => ?_⟩
          have notAsGood := worse other member
          rw [asGood] at notAsGood
          cases notAsGood
        · exact across other member next inBackToo

/-- Selecting the last of the best items, over and over, is the stable sort of the items
in the opposite order, when their keys are different. -/
theorem Serves.eq_mergeSort (ranks : Ranks better)
    (serves : Serves key better items.reverse order) (distinct : (items.map key).Nodup)
    (asymmetric : ∀ a b, earlier a b → ¬earlier b a) (ordered : items.Pairwise earlier) :
    order = items.mergeSort better := by
  have distinctToo : (items.reverse.map key).Nodup := by
    rw [List.map_reverse, List.nodup_reverse]
    exact distinct
  have stable := serves.precedes ranks distinctToo (List.pairwise_reverse.mpr ordered)
  have sorted := mergeSort_precedes ranks ordered
  have permutes : order.Perm items.reverse := by
    apply (serves.perm_iff ranks distinctToo.of_map).mpr
    exact (List.pairwise_map.mp distinctToo).imp fun different same => absurd same different
  have permutesToo : order.Perm (items.mergeSort better) :=
    permutes.trans ((List.reverse_perm items).trans (List.mergeSort_perm items better).symm)
  apply permutesToo.eq_of_pairwise _ stable sorted
  intro a b _ _ precedes precedesToo
  exact absurd precedesToo (precedes.asymm asymmetric)

end StableSort

end OsProjects.Theory
