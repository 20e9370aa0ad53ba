import OsProjects.Theory.Replacement
import OsProjects.VirtualMemory.DemandPaging

/-!
Owns the order in which pages hold frames: over a run, the pages loaded go to the
frames in turn, and the valid pages are the last ones loaded.

A TLB hit changes neither the page table nor the counter, so only the page faults of a
run count. Up to 2^32 of them the frame counter is the number of faults, and every
fault takes its frame from the page loaded `numberOfFrames` faults before.

Does not own what happens after that.
-/

namespace OsProjects.VirtualMemory

open OsProjects.C
open OsProjects.Theory

variable {s after final : State} {storage : BackingStorage} {logical physical : UInt32}
variable {page : Fin numberOfPages} {pageValid : Fin numberOfPages → UInt8}
variable {loaded more : List (Fin numberOfPages)} {addresses : List UInt32}

/-! ## Page faults of a run -/

/-- The page that the address loads, if it causes a page fault. -/
def faultOf (logical : UInt32) (s : State) : Option (Fin numberOfPages) :=
  match checkTLB (getPageNumber logical) s with
  | .ok none => if s.pageValid (pageOf logical) = 0 then some (pageOf logical) else none
  | _ => none

/-- The translations of a run, with the pages that they load. -/
def translateAll (storage : BackingStorage) :
    List UInt32 → State → Outcome (List (Fin numberOfPages) × State)
  | [], s => pure ([], s)
  | logical :: rest, s => do
      let (_, after) ← translateAddress storage logical s
      let (loaded, final) ← translateAll storage rest after
      pure ((faultOf logical s).toList ++ loaded, final)

/-- What the frames depend on is the same in both states. -/
structure SameFrames (s after : State) : Prop where
  next : after.nextAvailableFrame = s.nextAvailableFrame
  pageTable : after.pageTable = s.pageTable
  memory : after.memory = s.memory
  pageValid : after.pageValid = s.pageValid

theorem SameFrames.owns {frame : UInt32} (same : SameFrames s after) :
    Owns after page frame ↔ Owns s page frame := by
  unfold Owns
  rw [same.pageValid, same.pageTable]

/-- A translation without a page fault leaves the frames alone; with one, it loads the
page of the address. -/
theorem Translates.frames (translates : Translates storage logical s physical after) :
    faultOf logical s = none ∧ SameFrames s after ∨
      ∃ pageValid, faultOf logical s = some (pageOf logical) ∧
        s.pageValid (pageOf logical) = 0 ∧ Released s pageValid ∧
        SameFrames (s.load storage (pageOf logical) pageValid) after := by
  cases translates with
  | hit matching first =>
      left
      have run := checkTLB_hit matching first
      constructor
      · unfold faultOf
        rw [run]
      · exact ⟨rfl, rfl, rfl, rfl⟩
  | walk missing valid =>
      left
      have run := checkTLB_miss missing
      constructor
      · unfold faultOf
        rw [run]
        exact if_neg valid
      · exact ⟨rfl, rfl, rfl, rfl⟩
  | fault missing invalid released =>
      right
      have run := checkTLB_miss missing
      refine ⟨_, ?_, invalid, released, rfl, rfl, rfl, rfl⟩
      unfold faultOf
      rw [run]
      exact if_pos invalid

theorem translateAll_cons {rest : List UInt32}
    (run : translateAll storage (logical :: rest) s = .ok (loaded, final)) :
    ∃ physical after more, translateAddress storage logical s = .ok (physical, after) ∧
      Translates storage logical s physical after ∧
      translateAll storage rest after = .ok (more, final) ∧
      loaded = (faultOf logical s).toList ++ more := by
  rcases translateAddress_translates storage logical s with
    ⟨physical, after, translated, translates⟩
  simp only [translateAll, translated, ok_bind] at run
  cases others : translateAll storage rest after with
  | error fault =>
      rw [others] at run
      cases run
  | ok result =>
      rw [others] at run
      cases run
      exact ⟨physical, after, result.1, translated, translates, others, rfl⟩

theorem translateAll_eq_recordAll (storage : BackingStorage) (addresses : List UInt32)
    (s : State) : translateAll storage addresses s =
      recordAll storage (fun logical s _ => (faultOf logical s).toList) addresses s := by
  induction addresses generalizing s with
  | nil => rfl
  | cons logical rest inductionHypothesis =>
      rcases translateAddress_translates storage logical s with ⟨physical, after, translated, _⟩
      simp only [translateAll, recordAll, translated, ok_bind, inductionHypothesis]

/-- A run of translations always returns. -/
theorem translateAll_returns (storage : BackingStorage) (addresses : List UInt32) (s : State) :
    ∃ loaded final, translateAll storage addresses s = .ok (loaded, final) := by
  rw [translateAll_eq_recordAll]
  obtain ⟨loaded, final, run, _⟩ := recordAll_run storage
    (fun logical s _ => (faultOf logical s).toList) (fun _ _ _ => True) (fun _ _ => trivial)
    (s := s) trivial addresses
  exact ⟨loaded, final, run⟩

/-- What a page fault keeps, and what depends on the frames only, holds after the
whole run. -/
theorem translateAll_invariant (Invariant : List (Fin numberOfPages) → State → Prop)
    (transfers : ∀ {loaded s after}, Invariant loaded s → SameFrames s after →
      Invariant loaded after)
    (loads : ∀ {loaded s page pageValid}, Invariant loaded s → s.pageValid page = 0 →
      Released s pageValid → Invariant (loaded ++ [page]) (s.load storage page pageValid))
    (invariant : Invariant loaded s) (run : translateAll storage addresses s = .ok (more, final)) :
    Invariant (loaded ++ more) final := by
  have step : ∀ {loaded s logical physical after}, Invariant loaded s →
      Translates storage logical s physical after →
      Invariant (loaded ++ (faultOf logical s).toList) after := by
    intro loaded s logical physical after invariant translates
    rcases translates.frames with ⟨noFault, same⟩ | ⟨pageValid, fault, invalid, released, same⟩
    · rw [noFault, Option.toList_none, List.append_nil]
      exact transfers invariant same
    · rw [fault, Option.toList_some]
      exact transfers (loads invariant invalid released) same
  obtain ⟨pages, last, runs, kept⟩ := @recordAll_continues _ _ _ _ [] _
    (fun _ loaded s => Invariant loaded s) step invariant addresses
  rw [translateAll_eq_recordAll, runs] at run
  cases run
  exact kept

/-! ## Frames in turn -/

/-- The counter has counted the faults, and a page owns the frame that its last fault
gave it, until the frame's next turn. -/
structure InTurn (loaded : List (Fin numberOfPages)) (s : State) : Prop where
  counted : s.nextAvailableFrame.toNat = loaded.length % 2 ^ 32
  bounded : loaded.length ≤ 2 ^ 32
  owns : ∀ {page frame}, Owns s page frame ↔ Assigned numberOfFrames loaded page frame.toNat

theorem initial_inTurn : InTurn [] State.initial := by
  refine ⟨rfl, Nat.zero_le _, ?_⟩
  intro page frame
  apply iff_of_false initial_not_owns
  rintro ⟨turn, _, arrived, _⟩
  cases arrived

theorem InTurn.same (inTurn : InTurn loaded s) (same : SameFrames s after) :
    InTurn loaded after := by
  refine ⟨?_, inTurn.bounded, ?_⟩
  · rw [same.next]
    exact inTurn.counted
  · intro page frame
    rw [same.owns]
    exact inTurn.owns

theorem InTurn.distinct (inTurn : InTurn loaded s) : Distinct s := by
  intro page other frame first second
  exact (inTurn.owns.mp first).unique (inTurn.owns.mp second)

theorem InTurn.victim (inTurn : InTurn loaded s) (room : loaded.length < 2 ^ 32) :
    (victimFrame s).toNat = loaded.length % numberOfFrames := by
  have counted := inTurn.counted
  rw [Nat.mod_eq_of_lt room] at counted
  unfold victimFrame
  split
  · next unused =>
      have small : s.nextAvailableFrame.toNat < 128 := UInt32.lt_iff_toNat_lt.mp unused
      rw [counted, Nat.mod_eq_of_lt (by simp only [numberOfFrames]; omega)]
  · rw [UInt32.toNat_mod, counted]
    rfl

theorem InTurn.takesFresh (inTurn : InTurn loaded s) (room : loaded.length < 2 ^ 32) :
    TakesFresh s := by
  intro unused page owner
  have counted := inTurn.counted
  rw [Nat.mod_eq_of_lt room] at counted
  have small : s.nextAvailableFrame.toNat < 128 := UInt32.lt_iff_toNat_lt.mp unused
  have assigned := inTurn.owns.mp owner
  rw [counted] at assigned small
  exact not_assigned_next small assigned

/-- A page fault gives the next frame to the page loaded. -/
theorem InTurn.load (inTurn : InTurn loaded s) (room : loaded.length < 2 ^ 32)
    (invalid : s.pageValid page = 0) (released : Released s pageValid) :
    InTurn (loaded ++ [page]) (s.load storage page pageValid) := by
  have counted := inTurn.counted
  have victim := inTurn.victim room
  constructor
  · show (s.nextAvailableFrame + 1).toNat = _
    rw [UInt32.toNat_add, counted, List.length_append, UInt32.toNat_one, List.length_singleton,
      Nat.mod_add_mod]
  · rw [List.length_append, List.length_singleton]
    omega
  · intro other frame
    rw [owns_load_iff inTurn.distinct (inTurn.takesFresh room) released,
      assigned_append (by decide), ← victim, inTurn.owns]
    simp only [ne_eq, UInt32.toNat_inj]
    constructor
    · rintro (isLoaded | ⟨_, stays⟩)
      · exact .inl isLoaded
      · exact .inr stays
    · rintro (isLoaded | ⟨assigned, notVictim⟩)
      · exact .inl isLoaded
      · refine .inr ⟨?_, assigned, notVictim⟩
        intro isLoaded
        exact (inTurn.owns.mpr assigned).1 (isLoaded ▸ invalid)

/-- In a run of at most 2^32 page faults the frames are in turn. -/
theorem inTurn_of_few (run : translateAll storage addresses State.initial = .ok (loaded, final))
    (few : loaded.length ≤ 2 ^ 32) : InTurn loaded final := by
  have along := translateAll_invariant
    (fun loaded s => loaded.length ≤ 2 ^ 32 → InTurn loaded s)
    (fun inTurn same few => (inTurn few).same same) ?_ (fun _ => initial_inTurn) run
  · exact along few
  · intro loaded s page pageValid inTurn invalid released few
    rw [List.length_append, List.length_singleton] at few
    exact (inTurn (by omega)).load few invalid released

/-! ## The valid pages and their bytes -/

theorem Resident.same (resident : Resident storage s) (same : SameFrames s after) :
    Resident storage after := by
  constructor
  · intro page frame owner
    exact resident.below (same.owns.mp owner)
  · intro page other frame first second
    exact resident.distinct (same.owns.mp first) (same.owns.mp second)
  · intro page frame owner
    rw [same.memory]
    exact resident.holds (same.owns.mp owner)

theorem resident_of_few (long : numberOfPages * pageSize ≤ storage.length)
    (run : translateAll storage addresses State.initial = .ok (loaded, final))
    (few : loaded.length ≤ 2 ^ 32) : Resident storage final := by
  have along := translateAll_invariant
    (fun loaded s => loaded.length ≤ 2 ^ 32 → InTurn loaded s ∧ Resident storage s)
    ?_ ?_ (fun _ => ⟨initial_inTurn, initial_resident storage⟩) run
  · exact (along few).2
  · intro loaded s after both same few
    exact ⟨(both few).1.same same, (both few).2.same same⟩
  · intro loaded s page pageValid both invalid released few
    rw [List.length_append, List.length_singleton] at few
    rcases both (by omega) with ⟨inTurn, resident⟩
    exact ⟨inTurn.load few invalid released,
      resident.load long (inTurn.takesFresh few) released⟩

/-- The frame that was taken at the turn. -/
theorem InTurn.frame_eq {slot : ℕ} (inTurn : InTurn loaded s)
    (assigned : Assigned numberOfFrames loaded page slot) :
    s.pageValid page ≠ 0 ∧ (s.pageTable page).toNat = slot := by
  have below := assigned.slot_lt (by decide)
  have number : (UInt32.ofNat slot).toNat = slot := by
    rw [UInt32.toNat_ofNat']
    exact Nat.mod_eq_of_lt (by simp only [numberOfFrames] at below; omega)
  rw [← number] at assigned
  rcases inTurn.owns.mpr assigned with ⟨valid, inFrame⟩
  rw [inFrame]
  exact ⟨valid, number⟩

theorem InTurn.valid_iff (inTurn : InTurn loaded s) :
    s.pageValid page ≠ 0 ↔ page ∈ recent numberOfFrames loaded := by
  rw [mem_recent]
  constructor
  · intro valid
    exact ⟨_, inTurn.owns.mp ⟨valid, rfl⟩⟩
  · rintro ⟨slot, assigned⟩
    exact (inTurn.frame_eq assigned).1

theorem InTurn.nodup (inTurn : InTurn loaded s) : (recent numberOfFrames loaded).Nodup := by
  apply nodup_recent
  intro page slot slot' first second
  rw [← (inTurn.frame_eq first).2, (inTurn.frame_eq second).2]

/-- After the page faults of `loaded`, the pages loaded by the last of them, as many as
there are frames, are the valid ones; they are different; each is in the frame of its
turn, with the bytes of the storage. -/
structure LastLoaded (storage : BackingStorage) (loaded : List (Fin numberOfPages))
    (s : State) : Prop where
  valid : ∀ page, s.pageValid page ≠ 0 ↔ page ∈ recent numberOfFrames loaded
  nodup : (recent numberOfFrames loaded).Nodup
  inFrame : ∀ turn page, loaded.length ≤ turn + numberOfFrames → loaded[turn]? = some page →
    (s.pageTable page).toNat = turn % numberOfFrames
  stored : ∀ page, s.pageValid page ≠ 0 → ∀ offset, offset < pageSize →
    read s.memory (((s.pageTable page).toNat * pageSize + offset : ℕ) : Int) =
      .ok (storage.byteAt (page * pageSize + offset))

/-- Frames that are in turn and hold their pages are those of the last pages loaded. -/
theorem InTurn.lastLoaded (inTurn : InTurn loaded s) (resident : Resident storage s) :
    LastLoaded storage loaded s := by
  constructor
  · intro page
    exact inTurn.valid_iff
  · exact inTurn.nodup
  · intro turn page isRecent arrived
    exact (inTurn.frame_eq ⟨turn, isRecent, arrived, rfl⟩).2
  · intro page valid offset inPage
    have owner : Owns s page (s.pageTable page) := ⟨valid, rfl⟩
    have below := resident.below owner
    have inside : (s.pageTable page).toNat * pageSize + offset < memorySize := by
      simp only [memorySize, pageSize, numberOfFrames] at below inPage ⊢
      omega
    rw [read_natCast s.memory inside]
    exact congrArg _ (resident.holds owner ⟨_, inside⟩ offset inPage rfl)

theorem translateAll_lastLoaded (long : 65536 ≤ storage.length) (addresses : List UInt32) :
    ∃ loaded final, translateAll storage addresses State.initial = .ok (loaded, final) ∧
      (loaded.length < 2 ^ 32 → LastLoaded storage loaded final) := by
  rcases translateAll_returns storage addresses State.initial with ⟨loaded, final, run⟩
  refine ⟨loaded, final, run, fun few => ?_⟩
  exact (inTurn_of_few run (Nat.le_of_lt few)).lastLoaded
    (resident_of_few long run (Nat.le_of_lt few))

/-- Pages 0 to 127 fill the frames and page 128 takes the frame of page 0. -/
theorem translateAll_lastLoaded_demo :
    ∃ loaded final, translateAll pageNumbers
        ((List.range 129).map fun page => UInt32.ofNat (page * 256)) State.initial =
          .ok (loaded, final) ∧
      loaded.length = 129 ∧ LastLoaded pageNumbers loaded final := by
  have length : (translateAll pageNumbers
      ((List.range 129).map fun page => UInt32.ofNat (page * 256)) State.initial).toOption.map
        (·.1.length) = some 129 := by
    decide +kernel
  rcases translateAll_lastLoaded (show 65536 ≤ pageNumbers.length by decide)
    ((List.range 129).map fun page => UInt32.ofNat (page * 256)) with
    ⟨loaded, final, run, last⟩
  rw [run] at length
  have length : loaded.length = 129 := Option.some.inj length
  exact ⟨loaded, final, run, length, last (by rw [length]; norm_num)⟩

end OsProjects.VirtualMemory
