import Mathlib.Data.List.Basic
import OsProjects.VirtualMemory.Translation

/-!
Owns the physical addresses of a run: they are always inside the memory, and while the
frames suffice they follow the order in which the pages are first touched.

Every frame number stored, in the page table or in an entry of the TLB, comes from
`select_victim_frame`, or is the 0 that the tables start with. As long as no frame is
used twice, TLB and page table agree.

Does not own what the memory holds.
-/

namespace OsProjects.VirtualMemory

open OsProjects.C

variable {s after : State} {storage : BackingStorage} {logical physical : UInt32}
variable {pageNumber frame : UInt32} {page : Fin numberOfPages}
variable {pageValid : Fin numberOfPages → UInt8} {done physicals : List UInt32}

/-- The translations of a run, with the physical addresses they return. -/
def physicalAll (storage : BackingStorage) : List UInt32 → State → Outcome (List UInt32 × State) :=
  recordAll storage fun _ _ physical => [physical]

theorem and_255 (address : UInt32) : address &&& 255 = getOffset address := rfl

/-- A physical address has the offset that it is made of. -/
theorem getOffset_physical (inRange : frame.toNat < numberOfFrames) (logical : UInt32) :
    getOffset (getPhysicalAddress frame (getOffset logical)) = getOffset logical := by
  apply UInt32.toNat_inj.mp
  have offset := getOffset_lt logical
  rw [getOffset_toNat, getPhysicalAddress_toNat inRange offset,
    Nat.mul_add_mod_self_right, Nat.mod_eq_of_lt offset]

/-! ## Frames in range -/

/-- Every frame number stored is one of a frame. -/
structure FramesBelow (s : State) : Prop where
  pageTable : ∀ page, (s.pageTable page).toNat < numberOfFrames
  tlb : ∀ i, (s.tlb i).frame.toNat < numberOfFrames

theorem initial_framesBelow : FramesBelow State.initial := by
  constructor
  · intro page
    exact Nat.zero_lt_succ _
  · intro i
    exact Nat.zero_lt_succ _

theorem FramesBelow.count (below : FramesBelow s) (misses : UInt32) :
    FramesBelow (s.count misses) :=
  ⟨below.pageTable, below.tlb⟩

theorem FramesBelow.cache (below : FramesBelow s) (inRange : frame.toNat < numberOfFrames) :
    FramesBelow (s.cache pageNumber frame) := by
  refine ⟨below.pageTable, ?_⟩
  exact cache_entries (fun entry => entry.frame.toNat < numberOfFrames) inRange below.tlb

theorem FramesBelow.load (below : FramesBelow s) :
    FramesBelow (s.load storage page pageValid) := by
  refine ⟨?_, below.tlb⟩
  intro other
  by_cases isLoaded : other = page
  · subst isLoaded
    rw [load_pageTable, Function.update_self]
    exact victimFrame_lt s
  · rw [load_pageTable, Function.update_of_ne isLoaded]
    exact below.pageTable other

/-- A translation returns an address in a frame, at the offset of the logical one. -/
theorem FramesBelow.translates (below : FramesBelow s)
    (translates : Translates storage logical s physical after) :
    FramesBelow after ∧ ∃ frame, frame.toNat < numberOfFrames ∧
      physical = getPhysicalAddress frame (getOffset logical) := by
  cases translates with
  | hit matching first => exact ⟨below.count 0, _, below.tlb _, rfl⟩
  | walk missing valid =>
      have inRange := below.pageTable (pageOf logical)
      exact ⟨(below.count 1).cache inRange, _, inRange, rfl⟩
  | fault missing invalid released =>
      have inRange := victimFrame_lt s
      exact ⟨(below.count 1).load.cache inRange, _, inRange, rfl⟩

/-- The page fault that the address would cause stays inside the memory: it writes no
byte but the 256 bytes of the frame it has chosen. -/
def LoadsInside (storage : BackingStorage) (logical : UInt32) (s : State) : Prop :=
  ∃ loaded, handlePageFault storage (getPageNumber logical) s = .ok loaded ∧
    ∃ start, start = (loaded.pageTable (pageOf logical) * 256).toNat ∧
      start + pageSize ≤ memorySize ∧
      ∀ i : Fin memorySize, (i : ℕ) < start ∨ start + pageSize ≤ i →
        loaded.memory i = s.memory i

theorem loadsInside (storage : BackingStorage) (logical : UInt32) (s : State) :
    LoadsInside storage logical s := by
  obtain ⟨pageValid, released, loaded⟩ :=
    handlePageFault_eq storage (pageOf logical) (show (getPageNumber logical).toNat = _ from rfl) s
  refine ⟨_, loaded, _, rfl, ?_⟩
  simp only [load_pageTable, Function.update_self, victimFrame_start]
  refine ⟨victimFrame_inside s, ?_⟩
  intro i outside
  exact if_neg fun inside => by omega

/-- A translation returns an address inside the memory that has the offset of the logical
one. -/
theorem FramesBelow.access (below : FramesBelow s) (storage : BackingStorage)
    (logical : UInt32) :
    ∃ physical after value, translateAddress storage logical s = .ok (physical, after) ∧
      physical.toNat < memorySize ∧ physical &&& 255 = logical &&& 255 ∧
      FramesBelow after ∧ accessMemory physical after = .ok value := by
  obtain ⟨physical, after, translated, translates⟩ := translateAddress_translates storage logical s
  obtain ⟨belowAfter, frame, inRange, isPhysical⟩ := below.translates translates
  have address := getPhysicalAddress_toNat inRange (getOffset_lt logical)
  have offset := getOffset_lt logical
  rw [← isPhysical] at address
  have inside : physical.toNat < memorySize := by
    simp only [memorySize, pageSize, numberOfFrames] at inRange offset address ⊢
    omega
  refine ⟨physical, after, after.memory ⟨physical.toNat, inside⟩, translated, inside, ?_,
    belowAfter, ?_⟩
  · rw [and_255, and_255, isPhysical, getOffset_physical inRange]
  · exact read_natCast after.memory inside

/-- Whatever has been translated before, every address is translated to one inside the
memory that has the same offset; the frame numbers stored are below the number of
frames, and a page fault writes inside the memory. -/
theorem translateAddress_in_range (storage : BackingStorage) (earlier : List UInt32)
    (logical : UInt32) :
    ∃ physicals s, physicalAll storage earlier State.initial = .ok (physicals, s) ∧
      FramesBelow s ∧ (getPageNumber logical).toNat < numberOfPages ∧
      LoadsInside storage logical s ∧
      ∃ physical after value, translateAddress storage logical s = .ok (physical, after) ∧
        physical.toNat < memorySize ∧ physical &&& 255 = logical &&& 255 ∧
        FramesBelow after ∧ accessMemory physical after = .ok value := by
  obtain ⟨physicals, s, run, below⟩ := recordAll_run storage (fun _ _ physical => [physical])
    (fun _ _ s => FramesBelow s) (fun below translates => (below.translates translates).1)
    initial_framesBelow earlier
  exact ⟨physicals, s, run, below, getPageNumber_lt logical, loadsInside storage logical s,
    below.access storage logical⟩

/-! ## First touch -/

/-- The pages of the addresses in the order in which they are first touched. -/
def touched (addresses : List UInt32) : List (Fin numberOfPages) :=
  (addresses.map pageOf).eraseDups

/-- The frames of the pages are in their order, and the TLB agrees with the page
table. -/
structure InOrderOf (pages : List (Fin numberOfPages)) (s : State) : Prop where
  next : s.nextAvailableFrame.toNat = pages.length
  faults : s.pageFaultCnt.toNat = pages.length
  valid : ∀ page, s.pageValid page ≠ 0 ↔ page ∈ pages
  rank : ∀ page ∈ pages, (s.pageTable page).toNat = pages.idxOf page
  cached : ∀ i, (s.tlb i).valid ≠ 0 → ∃ page ∈ pages,
    (s.tlb i).page.toNat = page ∧ (s.tlb i).frame = s.pageTable page

variable {pages : List (Fin numberOfPages)}

theorem initial_inOrderOf : InOrderOf [] State.initial := by
  refine ⟨rfl, rfl, ?_, ?_, ?_⟩
  · intro page
    exact iff_of_false (fun valid => valid rfl) List.not_mem_nil
  · intro page member
    cases member
  · intro i valid
    exact absurd rfl valid

theorem InOrderOf.count (inOrder : InOrderOf pages s) (misses : UInt32) :
    InOrderOf pages (s.count misses) :=
  ⟨inOrder.next, inOrder.faults, inOrder.valid, inOrder.rank, inOrder.cached⟩

theorem InOrderOf.cache (inOrder : InOrderOf pages s) (member : pageOf logical ∈ pages) :
    InOrderOf pages (s.cache (getPageNumber logical) (s.pageTable (pageOf logical))) := by
  refine ⟨inOrder.next, inOrder.faults, inOrder.valid, inOrder.rank, ?_⟩
  exact cache_entries (fun entry => entry.valid ≠ 0 → ∃ page ∈ pages,
    entry.page.toNat = page ∧ entry.frame = s.pageTable page)
    (fun _ => ⟨pageOf logical, member, rfl, rfl⟩) inOrder.cached

/-- While frames are left, a page fault takes the next one and no page loses its
frame. -/
theorem InOrderOf.load (inOrder : InOrderOf pages s) (room : pages.length < numberOfFrames)
    (new : page ∉ pages) (released : Released s pageValid) :
    InOrderOf (pages ++ [page]) (s.load storage page pageValid) := by
  simp only [numberOfFrames] at room
  have unused : s.nextAvailableFrame < 128 := by
    apply UInt32.lt_iff_toNat_lt.mpr
    rw [inOrder.next]
    exact room
  have victim : victimFrame s = s.nextAvailableFrame := if_pos unused
  have kept : pageValid = s.pageValid := by
    obtain ⟨_, same⟩ | ⟨exhausted, _⟩ := released
    · exact same
    · exact absurd unused exhausted
  subst kept
  have next : ∀ counter : UInt32, counter.toNat = pages.length →
      (counter + 1).toNat = (pages ++ [page]).length := by
    intro counter counts
    rw [UInt32.toNat_add, counts, List.length_append, UInt32.toNat_one, List.length_singleton]
    omega
  have others : ∀ other ∈ pages, other ≠ page := fun other member same => new (same ▸ member)
  refine ⟨next _ inOrder.next, next _ inOrder.faults, ?_, ?_, ?_⟩
  · intro other
    rw [List.mem_append, List.mem_singleton, ← inOrder.valid, load_pageValid]
    by_cases isLoaded : other = page
    · simp [isLoaded]
    · simp [isLoaded]
  · intro other member
    obtain old | isLoaded := List.mem_append.mp member
    · rw [load_pageTable, Function.update_of_ne (others other old), inOrder.rank other old,
        List.idxOf_append, if_pos old]
    · obtain rfl := List.mem_singleton.mp isLoaded
      rw [load_pageTable, Function.update_self, victim, inOrder.next, List.idxOf_append, if_neg new]
      simp
  · intro i valid
    obtain ⟨other, member, isPage, inFrame⟩ := inOrder.cached i valid
    refine ⟨other, List.mem_append_left _ member, isPage, ?_⟩
    rw [load_pageTable, Function.update_of_ne (others other member)]
    exact inFrame

/-- The pages in their order after one more is touched. -/
def touch (pages : List (Fin numberOfPages)) (page : Fin numberOfPages) :
    List (Fin numberOfPages) :=
  if page ∈ pages then pages else pages ++ [page]

theorem eraseDups_concat (pages : List (Fin numberOfPages)) (page : Fin numberOfPages) :
    (pages ++ [page]).eraseDups = touch pages.eraseDups page := by
  rw [List.eraseDups_append, touch]
  by_cases old : page ∈ pages
  · rw [if_pos (List.mem_eraseDups.mpr old)]
    simp [List.removeAll, old]
  · rw [if_neg (fun again => old (List.mem_eraseDups.mp again))]
    simp [List.removeAll, old, List.eraseDups_cons]

theorem touched_append (addresses : List UInt32) (logical : UInt32) :
    touched (addresses ++ [logical]) = touch (touched addresses) (pageOf logical) := by
  rw [touched, List.map_append, List.map_singleton, eraseDups_concat]
  rfl

theorem length_le_touch (pages : List (Fin numberOfPages)) (page : Fin numberOfPages) :
    pages.length ≤ (touch pages page).length := by
  unfold touch
  split
  · exact Nat.le_refl _
  · rw [List.length_append]
    exact Nat.le_add_right _ _

theorem idxOf_touch {other : Fin numberOfPages} (member : other ∈ pages) :
    (touch pages page).idxOf other = pages.idxOf other := by
  unfold touch
  split
  · rfl
  · rw [List.idxOf_append, if_pos member]

theorem idxOf_touch_lt {capacity : ℕ} (room : (touch pages page).length ≤ capacity) :
    (touch pages page).idxOf page < capacity := by
  have member : page ∈ touch pages page := by
    unfold touch
    split
    · assumption
    · simp
  exact (List.idxOf_lt_length_of_mem member).trans_le room

/-- The frame in which the TLB, the page table or a page fault places the page is that
of its rank. -/
theorem InOrderOf.translates (inOrder : InOrderOf pages s)
    (room : (touch pages (pageOf logical)).length ≤ numberOfFrames)
    (translates : Translates storage logical s physical after) :
    InOrderOf (touch pages (pageOf logical)) after ∧ ∃ frame,
      physical = getPhysicalAddress frame (getOffset logical) ∧
      frame.toNat = (touch pages (pageOf logical)).idxOf (pageOf logical) := by
  cases translates with
  | hit matching first =>
      obtain ⟨page, member, isPage, inFrame⟩ := inOrder.cached _ matching.1
      have same : page = pageOf logical := by
        apply Fin.ext
        rw [← isPage, matching.2]
        rfl
      subst same
      rw [touch, if_pos member]
      refine ⟨inOrder.count 0, _, rfl, ?_⟩
      rw [inFrame, inOrder.rank _ member]
  | walk missing valid =>
      have member := (inOrder.valid _).mp valid
      rw [touch, if_pos member]
      exact ⟨(inOrder.count 1).cache member, _, rfl, inOrder.rank _ member⟩
  | fault missing invalid released =>
      have new : pageOf logical ∉ pages := fun member => (inOrder.valid _).mpr member invalid
      rw [touch, if_neg new] at room ⊢
      rw [List.length_append, List.length_singleton] at room
      have loaded : InOrderOf (pages ++ [pageOf logical])
          ((s.count 1).load storage (pageOf logical) _) :=
        (inOrder.count 1).load (by omega) new released
      have member : pageOf logical ∈ pages ++ [pageOf logical] := by simp
      have cached := loaded.cache member
      have rank := loaded.rank _ member
      rw [load_pageTable, Function.update_self] at cached rank
      exact ⟨cached, _, rfl, rank⟩

/-! ## Runs -/

/-- Where an address is placed when the pages have frames in their order. -/
def placement (pages : List (Fin numberOfPages)) (logical : UInt32) : ℕ :=
  256 * pages.idxOf (pageOf logical) + (logical &&& 255).toNat

/-- While the frames suffice, the addresses done are placed in the order of the pages
touched. -/
def PlacedInOrder (done physicals : List UInt32) (s : State) : Prop :=
  (touched done).length ≤ numberOfFrames →
    InOrderOf (touched done) s ∧
      physicals.map UInt32.toNat = done.map (placement (touched done))

theorem PlacedInOrder.translates (placed : PlacedInOrder done physicals s)
    (translates : Translates storage logical s physical after) :
    PlacedInOrder (done ++ [logical]) (physicals ++ [physical]) after := by
  intro few
  rw [touched_append] at few ⊢
  obtain ⟨inOrder, same⟩ := placed ((length_le_touch _ _).trans few)
  obtain ⟨inOrderAfter, frame, isPhysical, rank⟩ := inOrder.translates few translates
  have position : physical.toNat = placement (touch (touched done) (pageOf logical)) logical := by
    rw [isPhysical, getPhysicalAddress_toNat (rank ▸ idxOf_touch_lt few) (getOffset_lt logical),
      rank, Nat.mul_comm]
    rfl
  have unchanged : done.map (placement (touched done)) =
      done.map (placement (touch (touched done) (pageOf logical))) := by
    apply List.map_congr_left
    intro earlier member
    have old : pageOf earlier ∈ touched done :=
      List.mem_eraseDups.mpr (List.mem_map_of_mem (f := pageOf) member)
    rw [placement, placement, idxOf_touch old]
  refine ⟨inOrderAfter, ?_⟩
  rw [List.map_append, List.map_append, same, unchanged, List.map_singleton, List.map_singleton,
    position]

/-- While the frames suffice, every translation returns the frame of the rank that the
page has in the order of first touches, at the offset; and the page faults are as many
as the pages touched. -/
theorem first_touch_placement (storage : BackingStorage) {addresses : List UInt32}
    (few : (touched addresses).length ≤ numberOfFrames) :
    ∃ physicals s, physicalAll storage addresses State.initial = .ok (physicals, s) ∧
      physicals.map UInt32.toNat = addresses.map (placement (touched addresses)) ∧
      s.pageFaultCnt.toNat = (touched addresses).length := by
  obtain ⟨physicals, s, run, placed⟩ := recordAll_run storage (fun _ _ physical => [physical])
    PlacedInOrder PlacedInOrder.translates (fun _ => ⟨initial_inOrderOf, rfl⟩) addresses
  obtain ⟨inOrder, same⟩ := placed few
  exact ⟨physicals, s, run, same, inOrder.faults⟩

/-- Pages 66 and 3 in turn, twice: they are placed in frames 0 and 1. -/
theorem first_touch_placement_demo :
    ∃ physicals s, physicalAll ⟨65536, fun _ => 0⟩ [16916, 768, 16917, 769] State.initial =
        .ok (physicals, s) ∧
      physicals.map UInt32.toNat =
        [16916, 768, 16917, 769].map (placement (touched [16916, 768, 16917, 769])) ∧
      s.pageFaultCnt.toNat = (touched [16916, 768, 16917, 769]).length :=
  first_touch_placement ⟨65536, fun _ => 0⟩ (by decide)

end OsProjects.VirtualMemory
