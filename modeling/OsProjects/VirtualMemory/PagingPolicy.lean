import OsProjects.VirtualMemory.FrameQueue

/-!
Owns the page faults of a run as a function of the addresses alone: they are those of
two caches in turn, the TLB before the frames.

A TLB entry stays when its page loses its frame, so an access that the TLB answers
causes no page fault even if the page is not valid any more. Up to 2^32 page faults the
state mirrors the two caches; more than that happen in both or in neither.

Does not own what happens after that.
-/

namespace OsProjects.VirtualMemory

open OsProjects.C
open OsProjects.Theory

variable {s after final : State} {storage : BackingStorage} {logical physical frame : UInt32}
variable {page : Fin numberOfPages} {pageValid : Fin numberOfPages → UInt8}
variable {loaded more : List (Fin numberOfPages)} {addresses : List UInt32}
variable {arrivals : Arrivals (Fin numberOfPages)}

/-- An access of the page with first-in first-out replacement of the entries of the TLB
and of the frames. -/
def accessPage : Arrivals (Fin numberOfPages) → Fin numberOfPages → Arrivals (Fin numberOfPages) :=
  Arrivals.access tlbSize numberOfFrames

/-- The number of page faults that accesses of these pages cause. -/
def pageFaults (pages : List (Fin numberOfPages)) : ℕ :=
  (pages.foldl accessPage ⟨[], []⟩).back.length

/-- The TLB and the frames hold what the two caches hold. -/
structure Mirrors (arrivals : Arrivals (Fin numberOfPages)) (s : State) : Prop where
  frames : InTurn arrivals.back s
  next : s.nextAvailableTLB.toNat = arrivals.front.length % tlbSize
  entries : ∀ {i : Fin tlbSize} {page : Fin numberOfPages},
    (s.tlb i).Matches (UInt32.ofNat page) ↔ Assigned tlbSize arrivals.front page i

theorem initial_mirrors : Mirrors ⟨[], []⟩ State.initial := by
  refine ⟨initial_inTurn, rfl, ?_⟩
  intro i page
  apply iff_of_false
  · exact fun matching => matching.1 rfl
  · rintro ⟨turn, _, arrived, _⟩
    cases arrived

theorem number_pageOf (logical : UInt32) :
    getPageNumber logical = UInt32.ofNat (pageOf logical) :=
  UInt32.ofNat_toNat.symm

theorem ofNat_page_inj {page other : Fin numberOfPages}
    (same : UInt32.ofNat page = UInt32.ofNat other) : page = other := by
  have numbers := congrArg UInt32.toNat same
  have pageBelow := page.isLt
  have otherBelow := other.isLt
  simp only [numberOfPages] at pageBelow otherBelow
  rw [UInt32.toNat_ofNat', UInt32.toNat_ofNat', Nat.mod_eq_of_lt (by omega),
    Nat.mod_eq_of_lt (by omega)] at numbers
  exact Fin.ext numbers

/-- The TLB answers when the page is one of the last that came into it. -/
theorem Mirrors.matches_iff (mirrors : Mirrors arrivals s) :
    (∃ i, (s.tlb i).Matches (getPageNumber logical)) ↔
      pageOf logical ∈ recent tlbSize arrivals.front := by
  rw [mem_recent, number_pageOf]
  constructor
  · rintro ⟨i, matching⟩
    exact ⟨i, mirrors.entries.mp matching⟩
  · rintro ⟨slot, assigned⟩
    exact ⟨⟨slot, assigned.slot_lt (by decide)⟩, mirrors.entries.mpr assigned⟩

theorem Mirrors.count (mirrors : Mirrors arrivals s) (misses : UInt32) :
    Mirrors arrivals (s.count misses) :=
  ⟨mirrors.frames.same ⟨rfl, rfl, rfl, rfl⟩, mirrors.next, mirrors.entries⟩

theorem Mirrors.load (mirrors : Mirrors arrivals s) (room : arrivals.back.length < 2 ^ 32)
    (invalid : s.pageValid page = 0) (released : Released s pageValid) :
    Mirrors { arrivals with back := arrivals.back ++ [page] } (s.load storage page pageValid) :=
  ⟨mirrors.frames.load room invalid released, mirrors.next, mirrors.entries⟩

theorem Mirrors.cache (mirrors : Mirrors arrivals s) (page : Fin numberOfPages) (frame : UInt32) :
    Mirrors { arrivals with front := arrivals.front ++ [page] }
      (s.cache (UInt32.ofNat page) frame) := by
  have next := mirrors.next
  constructor
  · exact mirrors.frames.same ⟨rfl, rfl, rfl, rfl⟩
  · show ((s.nextAvailableTLB + 1) % 16).toNat = _
    rw [UInt32.toNat_mod, UInt32.toNat_add, next, List.length_append, List.length_singleton]
    simp only [UInt32.reduceToNat, tlbSize]
    omega
  · intro i other
    have victim : (tlbVictim s : ℕ) = arrivals.front.length % tlbSize := by
      show s.nextAvailableTLB.toNat % tlbSize = _
      rw [next, Nat.mod_mod]
    rw [cache_matches, assigned_append (by decide), ← victim, mirrors.entries, ne_eq, Fin.ext_iff]
    constructor
    · rintro (⟨same, isVictim⟩ | stays)
      · exact .inl ⟨ofNat_page_inj same, isVictim⟩
      · exact .inr stays
    · rintro (⟨same, isVictim⟩ | stays)
      · exact .inl ⟨same ▸ rfl, isVictim⟩
      · exact .inr stays

/-! ## Runs -/

/-- A translation is an access of the page: it loads what the access brings into the
frames. -/
theorem Mirrors.translates (mirrors : Mirrors arrivals s)
    (translates : Translates storage logical s physical after) :
    (accessPage arrivals (pageOf logical)).back = arrivals.back ++ (faultOf logical s).toList ∧
      ((accessPage arrivals (pageOf logical)).back.length ≤ 2 ^ 32 →
        Mirrors (accessPage arrivals (pageOf logical)) after) := by
  have missed : (∀ i, ¬(s.tlb i).Matches (getPageNumber logical)) →
      pageOf logical ∉ recent tlbSize arrivals.front := by
    intro missing held
    rcases mirrors.matches_iff.mpr held with ⟨i, matching⟩
    exact missing i matching
  cases translates with
  | hit matching first =>
      have held := mirrors.matches_iff.mp ⟨_, matching⟩
      have noFault : faultOf logical s = none := by
        unfold faultOf
        rw [checkTLB_hit matching first]
      have same : accessPage arrivals (pageOf logical) = arrivals :=
        Arrivals.access_of_mem_front held
      rw [same, noFault, Option.toList_none, List.append_nil]
      exact ⟨rfl, fun _ => mirrors.count 0⟩
  | walk missing valid =>
      have held := mirrors.frames.valid_iff.mp valid
      have noFault : faultOf logical s = none := by
        unfold faultOf
        rw [checkTLB_miss missing]
        exact if_neg valid
      have brings : accessPage arrivals (pageOf logical) =
          { arrivals with front := arrivals.front ++ [pageOf logical] } :=
        Arrivals.access_of_mem_back (missed missing) held
      rw [brings, noFault, Option.toList_none, List.append_nil, number_pageOf]
      exact ⟨rfl, fun _ => (mirrors.count 1).cache _ _⟩
  | fault missing invalid released =>
      have missedToo : pageOf logical ∉ recent numberOfFrames arrivals.back :=
        fun held => mirrors.frames.valid_iff.mpr held invalid
      have fault : faultOf logical s = some (pageOf logical) := by
        unfold faultOf
        rw [checkTLB_miss missing]
        exact if_pos invalid
      have brings : accessPage arrivals (pageOf logical) =
          ⟨arrivals.front ++ [pageOf logical], arrivals.back ++ [pageOf logical]⟩ :=
        Arrivals.access_of_not_mem (missed missing) missedToo
      rw [brings, fault, Option.toList_some, number_pageOf]
      refine ⟨rfl, fun few => ?_⟩
      rw [List.length_append, List.length_singleton] at few
      exact ((mirrors.count 1).load (by omega) invalid released).cache _ _

/-- Up to 2^32 page faults a run loads what the accesses bring into the frames; more
happen in both or in neither. -/
theorem Mirrors.run (mirrors : Mirrors arrivals s)
    (run : translateAll storage addresses s = .ok (more, final)) :
    Mirrors ((addresses.map pageOf).foldl accessPage arrivals) final ∧
        ((addresses.map pageOf).foldl accessPage arrivals).back = arrivals.back ++ more ∨
      2 ^ 32 < ((addresses.map pageOf).foldl accessPage arrivals).back.length ∧
        2 ^ 32 < (arrivals.back ++ more).length := by
  induction addresses generalizing s arrivals more with
  | nil =>
      cases run
      exact .inl ⟨mirrors, (List.append_nil _).symm⟩
  | cons logical rest inductionHypothesis =>
      rcases translateAll_cons run with ⟨physical, after, others, _, translates, runs, isMore⟩
      rcases mirrors.translates translates with ⟨back, mirrorsAfter⟩
      rw [List.map_cons, List.foldl_cons, isMore, ← List.append_assoc, ← back]
      by_cases few : (accessPage arrivals (pageOf logical)).back.length ≤ 2 ^ 32
      · exact inductionHypothesis (mirrorsAfter few) runs
      · have many := Nat.lt_of_not_le few
        right
        constructor
        · exact many.trans_le (Arrivals.length_back_le_foldl _ _)
        · rw [List.length_append]
          exact many.trans_le (Nat.le_add_right _ _)

/-- A run causes at most 2^32 page faults when the accesses of its pages do. -/
theorem few_faults_iff
    (run : translateAll storage addresses State.initial = .ok (loaded, final)) :
    loaded.length ≤ 2 ^ 32 ↔ pageFaults (addresses.map pageOf) ≤ 2 ^ 32 := by
  unfold pageFaults
  rcases initial_mirrors.run run with ⟨_, same⟩ | ⟨many, manyToo⟩
  · rw [same, List.nil_append]
  · rw [List.nil_append] at manyToo
    exact iff_of_false (Nat.not_le_of_lt manyToo) (Nat.not_le_of_lt many)

/-! ## Pages in turn -/

/-- The pages in turn, over and over. -/
def cyclicPage (access : ℕ) : Fin numberOfPages :=
  ⟨access % numberOfPages, Nat.mod_lt _ (by decide)⟩

/-- A page is not among the last pages when its turn comes again, if they are fewer
than all. -/
theorem cyclicPage_not_recent {capacity : ℕ} (fewer : capacity < numberOfPages) (count : ℕ) :
    cyclicPage count ∉ recent capacity ((List.range count).map cyclicPage) := by
  rw [mem_recent]
  rintro ⟨slot, turn, isRecent, arrived, _⟩
  have below := getElem?_lt arrived
  rw [List.length_map, List.length_range] at isRecent below
  rw [List.getElem?_map, List.getElem?_range below] at arrived
  have same : turn % 256 = count % 256 := congrArg Fin.val (Option.some.inj arrived)
  simp only [numberOfPages] at fewer
  omega

/-- Every access of the pages in turn brings the page into both caches. -/
theorem foldl_cyclicPages (count : ℕ) :
    ((List.range count).map cyclicPage).foldl accessPage ⟨[], []⟩ =
      ⟨(List.range count).map cyclicPage, (List.range count).map cyclicPage⟩ := by
  induction count with
  | zero => rfl
  | succ count inductionHypothesis =>
      rw [List.range_succ, List.map_append, List.foldl_append, inductionHypothesis]
      exact Arrivals.access_of_not_mem (cyclicPage_not_recent (by decide) count)
        (cyclicPage_not_recent (by decide) count)

theorem pageFaults_cyclicPages (count : ℕ) :
    pageFaults ((List.range count).map cyclicPage) = count := by
  unfold pageFaults
  rw [foldl_cyclicPages, List.length_map, List.length_range]

end OsProjects.VirtualMemory
