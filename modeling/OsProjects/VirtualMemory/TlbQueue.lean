import OsProjects.Theory.Replacement
import OsProjects.VirtualMemory.Translation

/-!
Owns the TLB as a cache: the array with its rotating victim index holds what a
first-in first-out queue of page numbers holds, however the frames are used.

An entry is written only after the search for its page has failed, so no page has two
entries, and the entry replaced is the one written `tlbSize` misses before. Only the
count of misses is taken modulo 2^32.

Does not own the frames that the entries name.
-/

namespace OsProjects.VirtualMemory

open OsProjects.C
open OsProjects.Theory

variable {s after : State} {storage : BackingStorage} {logical physical : UInt32}
variable {pageNumber frame : UInt32} {done missed : List UInt32}

/-- The page number that `check_TLB` does not find, if it does not. -/
def missOf (logical : UInt32) (s : State) : List UInt32 :=
  match checkTLB (getPageNumber logical) s with
  | .ok none => [getPageNumber logical]
  | _ => []

/-- The translations of a run, with the page numbers that the TLB misses. -/
def missAll (storage : BackingStorage) : List UInt32 → State → Outcome (List UInt32 × State) :=
  recordAll storage fun logical s _ => missOf logical s

/-- The misses of a queue of `tlbSize` page numbers. -/
def queueAfter (pageNumbers : List UInt32) : Queue UInt32 :=
  pageNumbers.foldl (Queue.access tlbSize) ⟨[], 0⟩

/-- The TLB holds the last pages that it has missed, each in the entry of its turn, and
no page twice. -/
structure HoldsMissed (missed : List UInt32) (s : State) : Prop where
  next : s.nextAvailableTLB.toNat = missed.length % tlbSize
  counted : s.tlbMissCnt.toNat = missed.length % 2 ^ 32
  entries : ∀ {i : Fin tlbSize} {pageNumber : UInt32},
    (s.tlb i).Matches pageNumber ↔ Assigned tlbSize missed pageNumber i
  distinct : ∀ {i j : Fin tlbSize} {pageNumber : UInt32},
    (s.tlb i).Matches pageNumber → (s.tlb j).Matches pageNumber → i = j

theorem initial_holdsMissed : HoldsMissed [] State.initial := by
  refine ⟨rfl, rfl, ?_, ?_⟩
  · intro i pageNumber
    apply iff_of_false
    · exact fun matching => matching.1 rfl
    · rintro ⟨turn, _, arrived, _⟩
      cases arrived
  · intro i j pageNumber matching
    exact absurd rfl matching.1

/-! ## One translation -/

theorem tlbVictim_eq (holds : HoldsMissed missed s) :
    (tlbVictim s : ℕ) = missed.length % tlbSize := by
  show s.nextAvailableTLB.toNat % tlbSize = _
  rw [holds.next, Nat.mod_mod]

/-- `check_TLB` finds the pages that the queue holds. -/
theorem HoldsMissed.matches_iff (holds : HoldsMissed missed s) :
    (∃ i, (s.tlb i).Matches pageNumber) ↔ pageNumber ∈ recent tlbSize missed := by
  rw [mem_recent]
  constructor
  · rintro ⟨i, matching⟩
    exact ⟨i, holds.entries.mp matching⟩
  · rintro ⟨slot, assigned⟩
    exact ⟨⟨slot, assigned.slot_lt (by decide)⟩, holds.entries.mpr assigned⟩

theorem HoldsMissed.hit (holds : HoldsMissed missed s) : HoldsMissed missed (s.count 0) := by
  refine ⟨holds.next, ?_, holds.entries, holds.distinct⟩
  show (s.tlbMissCnt + 0).toNat = _
  rw [UInt32.add_zero]
  exact holds.counted

/-- A page that the TLB has missed takes the entry of its turn; what happens to the
frames in between does not matter. -/
theorem HoldsMissed.miss (holds : HoldsMissed missed s)
    (missing : ∀ i, ¬(s.tlb i).Matches pageNumber) (sameTLB : after.tlb = s.tlb)
    (sameNext : after.nextAvailableTLB = s.nextAvailableTLB)
    (counts : after.tlbMissCnt = s.tlbMissCnt + 1) :
    HoldsMissed (missed ++ [pageNumber]) (after.cache pageNumber frame) := by
  have victim : tlbVictim after = tlbVictim s :=
    Fin.ext (congrArg (fun next : UInt32 => next.toNat % tlbSize) sameNext)
  constructor
  · show ((after.nextAvailableTLB + 1) % 16).toNat = _
    rw [sameNext, UInt32.toNat_mod, UInt32.toNat_add, holds.next, List.length_append,
      List.length_singleton]
    simp only [UInt32.reduceToNat, tlbSize]
    omega
  · show after.tlbMissCnt.toNat = _
    rw [counts, UInt32.toNat_add, holds.counted, List.length_append, List.length_singleton,
      UInt32.toNat_one, Nat.mod_add_mod]
  · intro i other
    rw [cache_matches, assigned_append (by decide), victim, sameTLB, holds.entries,
      ← tlbVictim_eq holds, ne_eq, Fin.ext_iff]
  · intro i j other first second
    rw [cache_matches, victim, sameTLB] at first second
    obtain ⟨isNew, isVictim⟩ | ⟨matching, _⟩ := first
    · obtain ⟨_, isVictimToo⟩ | ⟨matching, _⟩ := second
      · exact isVictim.trans isVictimToo.symm
      · exact absurd (isNew ▸ matching) (missing j)
    · obtain ⟨isNew, _⟩ | ⟨matchingToo, _⟩ := second
      · exact absurd (isNew ▸ matching) (missing i)
      · exact holds.distinct matching matchingToo

/-- A translation misses what the queue misses. -/
theorem HoldsMissed.translates (holds : HoldsMissed missed s)
    (translates : Translates storage logical s physical after) :
    HoldsMissed (missed ++ missOf logical s) after ∧
      (Queue.after tlbSize missed).access tlbSize (getPageNumber logical) =
        Queue.after tlbSize (missed ++ missOf logical s) := by
  have missedToo : (∀ i, ¬(s.tlb i).Matches (getPageNumber logical)) →
      missOf logical s = [getPageNumber logical] ∧
        getPageNumber logical ∉ recent tlbSize missed := by
    intro missing
    constructor
    · unfold missOf
      rw [checkTLB_miss missing]
    · rw [← holds.matches_iff]
      exact fun found => missing found.choose found.choose_spec
  cases translates with
  | hit matching first =>
      have noMiss : missOf logical s = [] := by
        unfold missOf
        rw [checkTLB_hit matching first]
      rw [noMiss, List.append_nil]
      exact ⟨holds.hit, Queue.access_after_of_mem (holds.matches_iff.mp ⟨_, matching⟩)⟩
  | walk missing valid =>
      obtain ⟨isMiss, notHeld⟩ := missedToo missing
      rw [isMiss]
      exact ⟨holds.miss missing rfl rfl rfl, Queue.access_after_of_not_mem (by decide) notHeld⟩
  | fault missing invalid released =>
      obtain ⟨isMiss, notHeld⟩ := missedToo missing
      rw [isMiss]
      exact ⟨holds.miss missing rfl rfl rfl, Queue.access_after_of_not_mem (by decide) notHeld⟩

/-! ## Runs -/

/-- The TLB holds what it has missed, and so does the queue. -/
structure MirrorsQueue (addresses missed : List UInt32) (s : State) : Prop
    extends HoldsMissed missed s where
  queue : queueAfter (addresses.map getPageNumber) = Queue.after tlbSize missed

theorem MirrorsQueue.translates (mirrors : MirrorsQueue done missed s)
    (translates : Translates storage logical s physical after) :
    MirrorsQueue (done ++ [logical]) (missed ++ missOf logical s) after := by
  obtain ⟨holds, accessed⟩ := mirrors.toHoldsMissed.translates translates
  refine ⟨holds, ?_⟩
  rw [← accessed, ← mirrors.queue, queueAfter, queueAfter, List.map_append, List.foldl_append]
  rfl

/-- In every state that translations reach, the valid entries hold different pages:
those of the last misses, as many as there are entries. `check_TLB` finds these, and
the misses are those of the queue. -/
theorem tlb_is_queue (storage : BackingStorage) (addresses : List UInt32) :
    ∃ missed s, missAll storage addresses State.initial = .ok (missed, s) ∧
      (∀ i j, (s.tlb i).valid ≠ 0 → (s.tlb j).valid ≠ 0 → (s.tlb i).page = (s.tlb j).page →
        i = j) ∧
      (∀ pageNumber, (∃ i, (s.tlb i).valid ≠ 0 ∧ (s.tlb i).page = pageNumber) ↔
        pageNumber ∈ recent tlbSize missed) ∧
      (∀ logical, (∃ frame, checkTLB (getPageNumber logical) s = .ok (some frame)) ↔
        getPageNumber logical ∈ recent tlbSize missed) ∧
      recent tlbSize missed = (queueAfter (addresses.map getPageNumber)).items ∧
      missed.length = (queueAfter (addresses.map getPageNumber)).misses ∧
      s.tlbMissCnt.toNat = (queueAfter (addresses.map getPageNumber)).misses % 2 ^ 32 := by
  obtain ⟨missed, s, run, mirrors⟩ := recordAll_run storage
    (fun logical s _ => missOf logical s) MirrorsQueue MirrorsQueue.translates
    ⟨initial_holdsMissed, rfl⟩ addresses
  refine ⟨missed, s, run, ?_, fun _ => mirrors.matches_iff, ?_, ?_⟩
  · intro i j valid validToo same
    exact mirrors.distinct ⟨valid, same⟩ ⟨validToo, rfl⟩
  · intro logical
    rw [checkTLB_finds, mirrors.matches_iff]
  · rw [mirrors.queue]
    exact ⟨rfl, rfl, mirrors.counted⟩

end OsProjects.VirtualMemory
