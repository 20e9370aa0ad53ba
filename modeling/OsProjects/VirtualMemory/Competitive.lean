import OsProjects.Theory.Paging
import OsProjects.VirtualMemory.CounterWrap
import OsProjects.VirtualMemory.TlbQueue

/-!
Owns the comparison of the two caches with caches that know the addresses in advance: how many
page faults and TLB misses a run costs for each load of such a cache, which may be smaller.

A page is loaded only when it is none of the last `numberOfFrames` pages loaded, also after the
frame counter has wrapped around, and a page number is missed only when it is none of the last
`tlbSize` that were.

Does not own the caches themselves (`FrameQueue`, `TlbQueue`).
-/

namespace OsProjects.VirtualMemory

open OsProjects.C
open OsProjects.Theory

variable {s after final : State} {storage : BackingStorage} {logical : UInt32}
variable {page : Fin numberOfPages}
variable {loaded more : List (Fin numberOfPages)} {missed : List UInt32} {addresses : List UInt32}

/-- The pages loaded last are valid. -/
theorem Stage.valid (stage : Stage loaded s) (isRecent : page ∈ recent numberOfFrames loaded) :
    s.pageValid page ≠ 0 := by
  rcases stage with inTurn | ⟨many, wrapped, _⟩
  · exact inTurn.valid_iff.mpr isRecent
  · apply wrapped.valid.mpr
    have later : loaded.length - numberOfFrames =
        2 ^ 32 - numberOfFrames + (loaded.length - 2 ^ 32) := by
      simp only [numberOfFrames]
      omega
    rw [recent, later, ← List.drop_drop] at isRecent
    exact List.mem_of_mem_drop isRecent

/-- No page is loaded twice within `numberOfFrames + 1` page faults. -/
theorem spread_of_run (run : translateAll storage addresses State.initial = .ok (loaded, final)) :
    Spread numberOfFrames loaded := by
  have along := translateAll_invariant
    (fun loaded s => Stage loaded s ∧ Spread numberOfFrames loaded)
    (fun both same => ⟨both.1.same same, both.2⟩) ?_ ⟨.inl initial_inTurn, Spread.nil⟩ run
  · exact along.2
  · intro loaded s page pageValid both invalid released
    refine ⟨both.1.load invalid released, both.2.concat fun isRecent => ?_⟩
    exact both.1.valid isRecent invalid

/-- A page that is loaded is the page of the address. -/
theorem faultOf_sublist (logical : UInt32) (s : State) :
    List.Sublist (faultOf logical s).toList [pageOf logical] := by
  unfold faultOf
  split
  · split
    · exact List.Sublist.refl _
    · exact List.nil_sublist _
  · exact List.nil_sublist _

theorem missOf_sublist (logical : UInt32) (s : State) :
    List.Sublist (missOf logical s) [getPageNumber logical] := by
  unfold missOf
  split
  · exact List.Sublist.refl _
  · exact List.nil_sublist _

/-- The pages loaded are among those accessed. -/
theorem loaded_sublist (run : translateAll storage addresses s = .ok (loaded, final)) :
    List.Sublist loaded (addresses.map pageOf) := by
  induction addresses generalizing s loaded with
  | nil =>
      cases run
      exact List.Sublist.refl _
  | cons logical rest inductionHypothesis =>
      obtain ⟨physical, after, more, _, _, runs, rfl⟩ := translateAll_cons run
      rw [List.map_cons, ← List.singleton_append]
      exact (faultOf_sublist logical s).append (inductionHypothesis runs)

/-- No page number is missed twice within `tlbSize + 1` misses, and those missed are among those
looked up. -/
structure SpreadMisses (addresses missed : List UInt32) (s : State) : Prop
    extends HoldsMissed missed s where
  spread : Spread tlbSize missed
  among : List.Sublist missed (addresses.map getPageNumber)

theorem initial_spreadMisses : SpreadMisses [] [] State.initial :=
  ⟨initial_holdsMissed, Spread.nil, List.Sublist.refl _⟩

theorem HoldsMissed.missOf_eq (holds : HoldsMissed missed s) (logical : UInt32) :
    missOf logical s =
      if getPageNumber logical ∈ recent tlbSize missed then [] else [getPageNumber logical] := by
  unfold missOf
  obtain ⟨i, matching, _, run⟩ | ⟨missing, run⟩ := checkTLB_cases (getPageNumber logical) s
  · rw [run, if_pos (holds.matches_iff.mp ⟨i, matching⟩)]
  · rw [run, if_neg fun held => ?_]
    obtain ⟨i, matching⟩ := holds.matches_iff.mpr held
    exact missing i matching

theorem SpreadMisses.translates {done : List UInt32} {physical : UInt32}
    (misses : SpreadMisses done missed s)
    (translates : Translates storage logical s physical after) :
    SpreadMisses (done ++ [logical]) (missed ++ missOf logical s) after := by
  refine ⟨(misses.toHoldsMissed.translates translates).1, ?_, ?_⟩
  · rw [misses.toHoldsMissed.missOf_eq]
    split
    · rw [List.append_nil]
      exact misses.spread
    · rename_i fresh
      exact misses.spread.concat fresh
  · rw [List.map_append]
    exact misses.among.append (missOf_sublist logical s)

/-- However the frames and the TLB are managed, with all addresses known in advance: where `h`
frames suffice to serve the run with so many loads, the program has for each
`numberOfFrames + 1 - h` of them at most `numberOfFrames` page faults, up to the last ones that do
not fill the frames; and the same holds of the entries of the TLB and its misses. -/
theorem faults_and_misses_bounded (storage : BackingStorage) (addresses : List UInt32) :
    (∃ loaded final, translateAll storage addresses State.initial = .ok (loaded, final) ∧
      ∀ {h loads cache}, Services h ∅ (addresses.map pageOf) loads cache →
        loaded.length / numberOfFrames * (numberOfFrames + 1 - h) ≤ loads) ∧
    ∃ missed final, missAll storage addresses State.initial = .ok (missed, final) ∧
      ∀ {h loads cache}, Services h ∅ (addresses.map getPageNumber) loads cache →
        missed.length / tlbSize * (tlbSize + 1 - h) ≤ loads := by
  constructor
  · obtain ⟨loaded, final, run⟩ := translateAll_returns storage addresses State.initial
    refine ⟨loaded, final, run, fun serves => ?_⟩
    exact serves.spread_le (by decide) (spread_of_run run) (loaded_sublist run)
  · obtain ⟨missed, final, run, misses⟩ := recordAll_run storage
      (fun logical s _ => missOf logical s) SpreadMisses SpreadMisses.translates
      initial_spreadMisses addresses
    refine ⟨missed, final, run, fun serves => ?_⟩
    exact serves.spread_le (by decide) misses.spread misses.among

end OsProjects.VirtualMemory
