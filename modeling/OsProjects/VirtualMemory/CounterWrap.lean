import Mathlib.Data.Fintype.Card
import OsProjects.VirtualMemory.PagingPolicy

/-!
Owns what becomes of the frames when the frame counter wraps around.

`select_victim_frame` tells an unused frame from a used one by the counter alone. The
fault after the 2^32-nd finds it at 0 and takes frame 0 without clearing the page that
owns it. From then on every fault adds a valid page and clears none, until all pages
are valid and no fault happens any more: a frame once shared stays shared.

Does not own runs of fewer faults.
-/

namespace OsProjects.VirtualMemory

open OsProjects.C
open OsProjects.Theory

variable {s after final : State} {storage : BackingStorage} {logical physical : UInt32}
variable {page : Fin numberOfPages} {pageValid : Fin numberOfPages → UInt8}
variable {loaded more : List (Fin numberOfPages)} {addresses : List UInt32}

/-- The page fault that the address causes, if it does, clears the pages that owned the
frame it overwrites. -/
def ClearsOwner (storage : BackingStorage) (logical : UInt32) (s : State) : Prop :=
  ∀ page physical after, faultOf logical s = some page →
    translateAddress storage logical s = .ok (physical, after) →
      ∀ owner, Owns s owner (after.pageTable page) → after.pageValid owner = 0

/-! ## After the wrap -/

/-- The counter has started again from 0, and the pages valid then and all pages loaded
since are valid. -/
structure Wrapped (loaded : List (Fin numberOfPages)) (s : State) : Prop where
  counted : s.nextAvailableFrame.toNat + 2 ^ 32 = loaded.length
  valid : ∀ {page}, s.pageValid page ≠ 0 ↔ page ∈ loaded.drop (2 ^ 32 - numberOfFrames)
  nodup : (loaded.drop (2 ^ 32 - numberOfFrames)).Nodup

theorem InTurn.wrapped (inTurn : InTurn loaded s) (all : loaded.length = 2 ^ 32) :
    Wrapped loaded s := by
  have isRecent : loaded.drop (2 ^ 32 - numberOfFrames) = recent numberOfFrames loaded := by
    rw [recent, all]
  have counted := inTurn.counted
  rw [all, Nat.mod_self] at counted
  constructor
  · rw [counted, all, Nat.zero_add]
  · intro page
    rw [isRecent]
    exact inTurn.valid_iff
  · rw [isRecent]
    exact inTurn.nodup

theorem Wrapped.same (wrapped : Wrapped loaded s) (same : SameFrames s after) :
    Wrapped loaded after := by
  refine ⟨?_, ?_, wrapped.nodup⟩
  · rw [same.next]
    exact wrapped.counted
  · intro page
    rw [same.pageValid]
    exact wrapped.valid

theorem Wrapped.nodup_append (wrapped : Wrapped loaded s) (invalid : s.pageValid page = 0) :
    ((loaded ++ [page]).drop (2 ^ 32 - numberOfFrames)).Nodup := by
  have counted := wrapped.counted
  have new : page ∉ loaded.drop (2 ^ 32 - numberOfFrames) :=
    fun valid => wrapped.valid.mpr valid invalid
  rw [List.drop_append_of_le_length (by omega), ← List.concat_eq_append]
  exact wrapped.nodup.concat new

/-- While a page is left to be loaded, the counter has not reached the number of
frames. -/
theorem Wrapped.unused (wrapped : Wrapped loaded s) (invalid : s.pageValid page = 0) :
    s.nextAvailableFrame < 128 := by
  have counted := wrapped.counted
  have pages := (wrapped.nodup_append invalid).length_le_card
  rw [Fintype.card_fin, List.length_drop, List.length_append, List.length_singleton] at pages
  apply UInt32.lt_iff_toNat_lt.mpr
  show s.nextAvailableFrame.toNat < 128
  simp only [numberOfPages, numberOfFrames] at pages
  omega

/-- So a page fault clears nothing. -/
theorem Wrapped.keeps (wrapped : Wrapped loaded s) (invalid : s.pageValid page = 0)
    (released : Released s pageValid) : pageValid = s.pageValid := by
  rcases released with ⟨_, same⟩ | ⟨used, _⟩
  · exact same
  · exact absurd (wrapped.unused invalid) used

theorem Wrapped.load (wrapped : Wrapped loaded s) (invalid : s.pageValid page = 0)
    (released : Released s pageValid) :
    Wrapped (loaded ++ [page]) (s.load storage page pageValid) := by
  have counted := wrapped.counted
  have unused : s.nextAvailableFrame.toNat < 128 :=
    UInt32.lt_iff_toNat_lt.mp (wrapped.unused invalid)
  have kept := wrapped.keeps invalid released
  constructor
  · show (s.nextAvailableFrame + 1).toNat + 2 ^ 32 = _
    rw [UInt32.toNat_add, UInt32.toNat_one, Nat.mod_eq_of_lt (by omega), List.length_append,
      List.length_singleton]
    omega
  · intro other
    rw [List.drop_append_of_le_length (by omega), List.mem_append, List.mem_singleton,
      ← wrapped.valid]
    show Function.update pageValid page 1 other ≠ 0 ↔ _
    rw [kept]
    by_cases isLoaded : other = page
    · subst isLoaded
      simp
    · simp [isLoaded]
  · exact wrapped.nodup_append invalid

/-- A page fault that clears nothing takes no frame away. -/
theorem owns_load_of_kept {owner : Fin numberOfPages} {frame : UInt32}
    (owns : Owns s owner frame) (invalid : s.pageValid page = 0)
    (kept : pageValid = s.pageValid) : Owns (s.load storage page pageValid) owner frame := by
  have different : owner ≠ page := fun same => owns.1 (same ▸ invalid)
  show Function.update pageValid page 1 owner ≠ 0 ∧
    Function.update s.pageTable page (victimFrame s) owner = frame
  rw [kept, Function.update_of_ne different, Function.update_of_ne different]
  exact owns

theorem not_distinct_load (shared : ¬Distinct s) (invalid : s.pageValid page = 0)
    (kept : pageValid = s.pageValid) : ¬Distinct (s.load storage page pageValid) := by
  intro distinct
  apply shared
  intro first second frame firstOwns secondOwns
  exact distinct (owns_load_of_kept firstOwns invalid kept)
    (owns_load_of_kept secondOwns invalid kept)

/-- The fault after the 2^32-nd takes frame 0 from nobody, and some page owns it. -/
theorem InTurn.owner_of_wrapped (inTurn : InTurn loaded s) (all : loaded.length = 2 ^ 32) :
    ∃ owner, Owns s owner (victimFrame s) := by
  have counted := (inTurn.wrapped all).counted
  have isZero : s.nextAvailableFrame = 0 :=
    UInt32.toNat_inj.mp (show s.nextAvailableFrame.toNat = 0 by omega)
  have victim : victimFrame s = 0 := by
    unfold victimFrame
    rw [isZero]
    rfl
  have below : 2 ^ 32 - numberOfFrames < loaded.length := by
    simp only [numberOfFrames]
    omega
  refine ⟨loaded[2 ^ 32 - numberOfFrames], ?_⟩
  rw [victim, inTurn.owns]
  refine ⟨2 ^ 32 - numberOfFrames, ?_, List.getElem?_eq_getElem below, ?_⟩
  · simp only [numberOfFrames]
    omega
  · simp only [numberOfFrames]
    rfl

theorem load_owns (s : State) (storage : BackingStorage) (page : Fin numberOfPages)
    (pageValid : Fin numberOfPages → UInt8) :
    Owns (s.load storage page pageValid) page (victimFrame s) := by
  show Function.update pageValid page 1 page ≠ 0 ∧
    Function.update s.pageTable page (victimFrame s) page = victimFrame s
  rw [Function.update_self, Function.update_self]
  exact ⟨by decide, rfl⟩

theorem InTurn.not_distinct_load (inTurn : InTurn loaded s) (all : loaded.length = 2 ^ 32)
    (invalid : s.pageValid page = 0) (released : Released s pageValid) :
    ¬Distinct (s.load storage page pageValid) := by
  have kept := (inTurn.wrapped all).keeps invalid released
  rcases inTurn.owner_of_wrapped all with ⟨owner, owns⟩
  intro distinct
  have same := distinct (owns_load_of_kept owns invalid kept) (load_owns s storage page pageValid)
  exact owns.1 (same ▸ invalid)

/-! ## Whole runs -/

/-- Before and after the wrap. -/
def Stage (loaded : List (Fin numberOfPages)) (s : State) : Prop :=
  InTurn loaded s ∨ 2 ^ 32 < loaded.length ∧ Wrapped loaded s ∧ ¬Distinct s

theorem Stage.same (stage : Stage loaded s) (same : SameFrames s after) : Stage loaded after := by
  rcases stage with inTurn | ⟨many, wrapped, shared⟩
  · exact .inl (inTurn.same same)
  · refine .inr ⟨many, wrapped.same same, fun distinct => shared ?_⟩
    intro page other frame first second
    exact distinct (same.owns.mpr first) (same.owns.mpr second)

theorem Stage.load (stage : Stage loaded s) (invalid : s.pageValid page = 0)
    (released : Released s pageValid) :
    Stage (loaded ++ [page]) (s.load storage page pageValid) := by
  rcases stage with inTurn | ⟨many, wrapped, shared⟩
  · rcases Nat.lt_or_eq_of_le inTurn.bounded with room | all
    · exact .inl (inTurn.load room invalid released)
    · refine .inr ⟨?_, (inTurn.wrapped all).load invalid released,
        inTurn.not_distinct_load all invalid released⟩
      rw [List.length_append, List.length_singleton]
      omega
  · refine .inr ⟨?_, wrapped.load invalid released,
      not_distinct_load shared invalid (wrapped.keeps invalid released)⟩
    rw [List.length_append]
    omega

theorem stage_of_run (run : translateAll storage addresses State.initial = .ok (loaded, final)) :
    Stage loaded final :=
  translateAll_invariant Stage Stage.same Stage.load (.inl initial_inTurn) run

theorem Stage.distinct_iff (stage : Stage loaded s) : Distinct s ↔ loaded.length ≤ 2 ^ 32 := by
  rcases stage with inTurn | ⟨many, _, shared⟩
  · exact iff_of_true inTurn.distinct inTurn.bounded
  · exact iff_of_false shared (by omega)

/-- Before the wrap, a page fault clears the owner of its frame except when the counter
is about to wrap around. -/
theorem InTurn.clearsOwner_iff (inTurn : InTurn loaded s) (fault : faultOf logical s = some page)
    (invalid : s.pageValid page = 0) (released : Released s pageValid)
    (translated : translateAddress storage logical s = .ok (physical, after))
    (same : SameFrames (s.load storage page pageValid) after) :
    ClearsOwner storage logical s ↔ loaded.length < 2 ^ 32 := by
  have inFrame : after.pageTable page = victimFrame s := by
    rw [same.pageTable]
    exact Function.update_self _ _ _
  constructor
  · intro clears
    by_contra full
    have all : loaded.length = 2 ^ 32 := Nat.le_antisymm inTurn.bounded (Nat.le_of_not_lt full)
    have kept := (inTurn.wrapped all).keeps invalid released
    rcases inTurn.owner_of_wrapped all with ⟨owner, owns⟩
    have stays : Owns (s.load storage page pageValid) owner (victimFrame s) :=
      owns_load_of_kept owns invalid kept
    have cleared := clears page physical after fault translated owner (inFrame ▸ owns)
    exact (same.owns.mpr stays).1 cleared
  · intro room page' physical' after' fault' translated' owner owns
    cases fault.symm.trans fault'
    cases translated.symm.trans translated'
    rw [inFrame] at owns
    by_contra valid
    have stays := same.owns.mp ⟨valid, rfl⟩
    rcases (owns_load_iff inTurn.distinct (inTurn.takesFresh room) released).mp stays with
      ⟨isLoaded, _⟩ | ⟨_, before, notVictim⟩
    · exact owns.1 (isLoaded ▸ invalid)
    · exact notVictim (before.2.symm.trans owns.2)

theorem clearsOwner_of_noFault (noFault : faultOf logical s = none) :
    ClearsOwner storage logical s := by
  intro page physical after fault
  rw [noFault] at fault
  cases fault

/-- Along a run that starts before the wrap, every fault clears the owner of its frame
exactly when the wrap is not reached. -/
theorem InTurn.along_clearsOwner_iff (inTurn : InTurn loaded s)
    (run : translateAll storage addresses s = .ok (more, final)) :
    Along storage (ClearsOwner storage) addresses s ↔ (loaded ++ more).length ≤ 2 ^ 32 := by
  induction addresses generalizing s loaded more with
  | nil =>
      cases run
      rw [List.append_nil]
      exact iff_of_true trivial inTurn.bounded
  | cons logical rest inductionHypothesis =>
      rcases translateAll_cons run with
        ⟨physical, after, others, translated, translates, runs, isMore⟩
      rw [along_cons translated]
      rcases translates.frames with ⟨noFault, same⟩ | ⟨pageValid, fault, invalid, released, same⟩
      · rw [noFault, Option.toList_none, List.nil_append] at isMore
        subst isMore
        rw [inductionHypothesis (inTurn.same same) runs]
        exact and_iff_right (clearsOwner_of_noFault noFault)
      · rw [fault, Option.toList_some] at isMore
        subst isMore
        rw [inTurn.clearsOwner_iff fault invalid released translated same]
        by_cases room : loaded.length < 2 ^ 32
        · rw [inductionHypothesis ((inTurn.load room invalid released).same same) runs,
            List.append_assoc]
          exact and_iff_right room
        · apply iff_of_false (fun both => room both.1)
          rw [List.length_append, List.length_append, List.length_singleton]
          omega

/-- After a run no two valid pages share a frame, and along it every page fault cleared
the owner of its frame, exactly when the accesses of its pages cause at most 2^32 page
faults. -/
theorem distinct_iff_few_faults (storage : BackingStorage) (addresses : List UInt32) :
    ∃ loaded final, translateAll storage addresses State.initial = .ok (loaded, final) ∧
      (Distinct final ↔ pageFaults (addresses.map pageOf) ≤ 2 ^ 32) ∧
      (Along storage (ClearsOwner storage) addresses State.initial ↔
        pageFaults (addresses.map pageOf) ≤ 2 ^ 32) := by
  rcases translateAll_returns storage addresses State.initial with ⟨loaded, final, run⟩
  refine ⟨loaded, final, run, ?_, ?_⟩
  · rw [← few_faults_iff run]
    exact (stage_of_run run).distinct_iff
  · rw [← few_faults_iff run]
    exact initial_inTurn.along_clearsOwner_iff run

/-! ## A run that reaches the wrap -/

/-- The pages in turn, over and over. -/
def cyclicRun (count : ℕ) : List UInt32 :=
  (List.range count).map fun access => UInt32.ofNat (access * 256)

theorem pageOf_cyclic (access : ℕ) : pageOf (UInt32.ofNat (access * 256)) = cyclicPage access := by
  apply Fin.ext
  show (getPageNumber _).toNat = access % 256
  rw [getPageNumber_toNat, UInt32.toNat_ofNat']
  simp only [pageSize, numberOfPages]
  omega

/-- Loading the pages in turn for one fault too many leaves two valid pages in frame
0. -/
theorem cyclicRun_shares_frame : ¬∀ storage addresses loaded final,
    translateAll storage addresses State.initial = .ok (loaded, final) → Distinct final := by
  intro distinct
  rcases translateAll_returns pageNumbers (cyclicRun (2 ^ 32 + 1)) State.initial with
    ⟨loaded, final, run⟩
  have few := (stage_of_run run).distinct_iff.mp (distinct _ _ _ _ run)
  have pages : (cyclicRun (2 ^ 32 + 1)).map pageOf = (List.range (2 ^ 32 + 1)).map cyclicPage := by
    unfold cyclicRun
    rw [List.map_map]
    exact List.map_congr_left fun access _ => pageOf_cyclic access
  rw [few_faults_iff run, pages, pageFaults_cyclicPages] at few
  omega

end OsProjects.VirtualMemory
