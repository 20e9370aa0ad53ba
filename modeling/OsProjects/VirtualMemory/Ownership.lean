import OsProjects.VirtualMemory.Translation

/-!
Owns the invariants of the page table: which frames have owners, that a frame has
one owner at most, that it holds the page of its owner, and what a page fault
does to all of this.

The step count of `next_available_frame` is the one thing that can break them: a
fault taken with the counter below 128 does not look for an owner of the frame.
Such a fault is fresh when the frame has none. In a run of fewer than 2^32
addresses every fault is.

Does not own the TLB.
-/

namespace OsProjects.VirtualMemory

open OsProjects.C

variable {s : State} {storage : BackingStorage} {page other : Fin numberOfPages}
variable {frame : UInt32} {pageValid : Fin numberOfPages → UInt8}

/-- The frame that a fault takes without looking for an owner has none. -/
def TakesFresh (s : State) : Prop :=
  s.nextAvailableFrame < 128 → ∀ page, ¬Owns s page s.nextAvailableFrame

/-- No two pages own the same frame. -/
def Distinct (s : State) : Prop :=
  ∀ ⦃page other frame⦄, Owns s page frame → Owns s other frame → page = other

/-- The frame holds the bytes of the page. -/
def Holds (storage : BackingStorage) (memory : Fin memorySize → Int8) (page : Fin numberOfPages)
    (frame : UInt32) : Prop :=
  ∀ (i : Fin memorySize) (offset : ℕ), offset < pageSize →
    i = frame.toNat * pageSize + offset →
      memory i = storage.byteAt (page * pageSize + offset)

/-- What the page table promises about the memory. -/
structure Resident (storage : BackingStorage) (s : State) : Prop where
  below : ∀ {page frame}, Owns s page frame → frame.toNat < numberOfFrames
  distinct : Distinct s
  holds : ∀ {page frame}, Owns s page frame → Holds storage s.memory page frame

/-! ## Initially -/

theorem initial_not_owns : ¬Owns State.initial page frame :=
  fun owner => owner.1 rfl

theorem initial_resident (storage : BackingStorage) : Resident storage State.initial := by
  constructor
  · intro page frame owner
    exact absurd owner initial_not_owns
  · intro page other frame owner
    exact absurd owner initial_not_owns
  · intro page frame owner
    exact absurd owner initial_not_owns

/-! ## The memory -/

theorem loadPage_holds (long : numberOfPages * pageSize ≤ storage.length)
    (memory : Fin memorySize → Int8) : Holds storage (loadPage storage page frame memory) page
      frame := by
  intro i offset inPage position
  have pageBelow := page.isLt
  simp only [numberOfPages, pageSize] at long inPage position pageBelow
  unfold loadPage
  simp only [position, pageSize, Nat.add_sub_cancel_left]
  rw [if_pos (by omega)]

theorem Holds.loadPage {memory : Fin memorySize → Int8} {loaded : UInt32}
    (holds : Holds storage memory other frame) (different : frame ≠ loaded) :
    Holds storage (loadPage storage page loaded memory) other frame := by
  intro i offset inPage position
  have frames : frame.toNat ≠ loaded.toNat := fun same => different (UInt32.toNat_inj.mp same)
  have outside : ¬(loaded.toNat * pageSize ≤ i ∧ i < loaded.toNat * pageSize + pageSize ∧
      page * pageSize + (i - loaded.toNat * pageSize) < storage.length) := by
    simp only [pageSize] at position inPage ⊢
    omega
  unfold VirtualMemory.loadPage
  rw [if_neg outside]
  exact holds i offset inPage position

/-- A read in a frame that holds a page yields the byte of the page. -/
theorem Holds.access (holds : Holds storage s.memory page frame)
    (below : frame.toNat < numberOfFrames) {offset : UInt32} (inPage : offset.toNat < pageSize) :
    accessMemory (getPhysicalAddress frame offset) s =
      .ok (storage.byteAt (page * pageSize + offset.toNat)) := by
  have position := getPhysicalAddress_toNat below inPage
  have inside : (getPhysicalAddress frame offset).toNat < memorySize := by
    rw [position]
    simp only [memorySize, pageSize, numberOfFrames] at below inPage ⊢
    omega
  unfold accessMemory
  rw [read_natCast s.memory inside]
  exact congrArg _ (holds ⟨_, inside⟩ offset.toNat inPage position)

/-! ## A page fault -/

/-- The valid bit that a fault clears is that of the owner of the victim frame, if there is
one. -/
theorem Released.owns_iff (released : Released s pageValid) (distinct : Distinct s)
    (fresh : TakesFresh s) :
    pageValid other ≠ 0 ∧ s.pageTable other = frame ↔
      Owns s other frame ∧ frame ≠ victimFrame s := by
  rcases released with ⟨unowned, same⟩ | ⟨_, owner, owns, cleared⟩
  · -- nothing was cleared: the victim frame had no owner
    have none : ∀ page, ¬Owns s page (victimFrame s) := by
      cases unowned with
      | inl unused =>
          have victim : victimFrame s = s.nextAvailableFrame := if_pos unused
          rw [victim]
          exact fresh unused
      | inr none => exact none
    rw [same]
    constructor
    · intro owns
      refine ⟨owns, ?_⟩
      intro isVictim
      exact none other (isVictim ▸ owns)
    · intro both
      exact both.1
  · rw [cleared]
    by_cases isOwner : other = owner
    · subst isOwner
      constructor
      · intro both
        exact absurd (Function.update_self _ _ _) both.1
      · intro both
        exact absurd (both.1.2.symm.trans owns.2) both.2
    · rw [Function.update_of_ne isOwner]
      constructor
      · intro stays
        refine ⟨stays, ?_⟩
        intro isVictim
        exact isOwner (distinct (isVictim ▸ stays) owns)
      · intro both
        exact both.1

/-- After a fault the page owns the victim frame, and every other page owns what it
owned before, unless it was that frame. -/
theorem owns_load_iff (distinct : Distinct s) (fresh : TakesFresh s)
    (released : Released s pageValid) :
    Owns (s.load storage page pageValid) other frame ↔
      other = page ∧ frame = victimFrame s ∨
        other ≠ page ∧ Owns s other frame ∧ frame ≠ victimFrame s := by
  by_cases self : other = page
  · subst self
    simp [Owns, eq_comm]
  · have loaded : Owns (s.load storage page pageValid) other frame ↔
        pageValid other ≠ 0 ∧ s.pageTable other = frame := by
      simp [Owns, self]
    rw [loaded, released.owns_iff distinct fresh]
    simp only [self, false_and, false_or, ne_eq, not_false_eq_true, true_and]

/-- A page owns nothing after a fault that it did not own before, but for the page
loaded. -/
theorem owns_of_owns_load (released : Released s pageValid)
    (owner : Owns (s.load storage page pageValid) other frame) :
    frame = victimFrame s ∨ Owns s other frame := by
  by_cases self : other = page
  · subst self
    left
    simpa [Owns] using owner.2.symm
  · right
    simp only [Owns, load_pageTable, load_pageValid, Function.update_of_ne self] at owner
    refine ⟨?_, owner.2⟩
    rcases released with ⟨_, same⟩ | ⟨_, cleared, _, same⟩
    · rw [← same]
      exact owner.1
    · by_cases isCleared : other = cleared
      · rw [same, isCleared, Function.update_self] at owner
        exact absurd rfl owner.1
      · rw [same, Function.update_of_ne isCleared] at owner
        exact owner.1

/-- A fresh fault keeps the promises of the page table. -/
theorem Resident.load (resident : Resident storage s)
    (long : numberOfPages * pageSize ≤ storage.length) (fresh : TakesFresh s)
    (released : Released s pageValid) :
    Resident storage (s.load storage page pageValid) := by
  have owned : ∀ {other : Fin numberOfPages} {frame : UInt32},
      Owns (s.load storage page pageValid) other frame ↔ _ :=
    owns_load_iff resident.distinct fresh released
  constructor
  · intro other frame owner
    cases owned.mp owner with
    | inl isLoaded =>
        rw [isLoaded.2]
        exact victimFrame_lt s
    | inr stays => exact resident.below stays.2.1
  · intro first second frame firstOwner secondOwner
    rcases owned.mp firstOwner with ⟨firstLoaded, isVictim⟩ | ⟨_, firstOwned, notVictim⟩
    · cases owned.mp secondOwner with
      | inl secondLoaded => exact firstLoaded.trans secondLoaded.1.symm
      | inr stays => exact absurd isVictim stays.2.2
    · cases owned.mp secondOwner with
      | inl secondLoaded => exact absurd secondLoaded.2 notVictim
      | inr stays => exact resident.distinct firstOwned stays.2.1
  · intro other frame owner
    cases owned.mp owner with
    | inl isLoaded =>
        rw [isLoaded.1, isLoaded.2]
        exact loadPage_holds long s.memory
    | inr stays => exact (resident.holds stays.2.1).loadPage stays.2.2

/-! ## The frame counter -/

/-- After at most `count` faults, the frames in use are those below the counter. -/
structure InOrder (count : ℕ) (s : State) : Prop where
  counted : s.nextAvailableFrame.toNat ≤ count
  below : s.nextAvailableFrame < 128 →
    ∀ {page frame}, Owns s page frame → frame < s.nextAvailableFrame

theorem initial_inOrder : InOrder 0 State.initial := by
  refine ⟨Nat.le_refl _, ?_⟩
  intro _ page frame owner
  exact absurd owner initial_not_owns

theorem InOrder.takesFresh {count : ℕ} (inOrder : InOrder count s) : TakesFresh s := by
  intro unused page owner
  exact absurd (inOrder.below unused owner) (UInt32.lt_irrefl _)

theorem InOrder.mono {count more : ℕ} (inOrder : InOrder count s) (le : count ≤ more) :
    InOrder more s :=
  ⟨inOrder.counted.trans le, inOrder.below⟩

/-- A fault keeps the order unless the counter wraps around. -/
theorem InOrder.load {count : ℕ} (inOrder : InOrder count s) (room : count + 1 < 2 ^ 32)
    (released : Released s pageValid) : InOrder (count + 1) (s.load storage page pageValid) := by
  have counted := inOrder.counted
  have next : (s.nextAvailableFrame + 1).toNat = s.nextAvailableFrame.toNat + 1 := by
    rw [UInt32.toNat_add, UInt32.toNat_one]
    exact Nat.mod_eq_of_lt (by omega)
  constructor
  · show (s.nextAvailableFrame + 1).toNat ≤ count + 1
    omega
  · intro unused other frame owner
    have unused := UInt32.lt_iff_toNat_lt.mp unused
    have small : (s.nextAvailableFrame + 1).toNat < 128 := unused
    have before : s.nextAvailableFrame < 128 :=
      UInt32.lt_iff_toNat_lt.mpr (show s.nextAvailableFrame.toNat < 128 by omega)
    apply UInt32.lt_iff_toNat_lt.mpr
    show frame.toNat < (s.nextAvailableFrame + 1).toNat
    cases owns_of_owns_load released owner with
    | inl isVictim =>
        have victim : victimFrame s = s.nextAvailableFrame := if_pos before
        rw [isVictim, victim]
        omega
    | inr stays =>
        have lower := UInt32.lt_iff_toNat_lt.mp (inOrder.below before stays)
        omega

end OsProjects.VirtualMemory
