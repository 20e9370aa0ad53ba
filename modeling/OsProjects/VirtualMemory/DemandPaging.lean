import OsProjects.VirtualMemory.Ownership

/-!
Owns whole runs of translations: when every access returns the byte of the
backing storage.

`select_victim_frame` takes a frame away from its page and leaves the page's entry
in the TLB. An access is current when the entry that `check_TLB` finds, if any, still
names the frame that the page owns. A run of current accesses reads the storage,
and where no two pages of the storage agree at any offset, no other run does.

Does not own the counters that are printed.
-/

namespace OsProjects.VirtualMemory

open OsProjects.C

variable {s after : State} {storage : BackingStorage} {logical physical : UInt32}

/-- The byte at `logical & 0xFFFF` of the storage. -/
def storedByte (storage : BackingStorage) (logical : UInt32) : Int8 :=
  storage.byteAt (logical &&& 0xFFFF).toNat

/-- The run reads the stored byte of every address. -/
def ReadsStorage (storage : BackingStorage) (addresses : List UInt32) (s : State) : Prop :=
  ∃ after, accessAll storage addresses s = .ok (addresses.map (storedByte storage), after)

/-- The condition holds for every address of the run, in the state before it. -/
def Along (storage : BackingStorage) (condition : UInt32 → State → Prop) :
    List UInt32 → State → Prop
  | [], _ => True
  | logical :: rest, s => condition logical s ∧ ∀ physical after,
      translateAddress storage logical s = .ok (physical, after) →
        Along storage condition rest after

/-- The frame that `check_TLB` finds is owned by the page. -/
def HitCurrent (logical : UInt32) (s : State) : Prop :=
  ∀ frame, checkTLB (getPageNumber logical) s = .ok (some frame) → Owns s (pageOf logical) frame

/-- A fault, if the address causes one, takes a frame that it clears or that is free. -/
def FaultFresh (logical : UInt32) (s : State) : Prop :=
  checkTLB (getPageNumber logical) s = .ok none → s.pageValid (pageOf logical) = 0 → TakesFresh s

/-- No two pages of the storage have the same byte at the same offset. -/
def PagesDiffer (storage : BackingStorage) : Prop :=
  ∀ page other : Fin numberOfPages, page ≠ other → ∀ offset, offset < pageSize →
    storage.byteAt (page * pageSize + offset) ≠ storage.byteAt (other * pageSize + offset)

/-- The page table keeps its promises, and every TLB entry names a frame in use. -/
structure Consistent (storage : BackingStorage) (s : State) : Prop
    extends Resident storage s where
  cached : ∀ i, (s.tlb i).valid ≠ 0 → ∃ page, Owns s page (s.tlb i).frame

/-! ## The TLB -/

/-- A miss is current. -/
theorem hitCurrent_of_missing (missing : ∀ i, ¬(s.tlb i).Matches (getPageNumber logical)) :
    HitCurrent logical s := by
  intro frame found
  rw [checkTLB_miss missing] at found
  cases found

theorem Consistent.count (consistent : Consistent storage s) (misses : UInt32) :
    Consistent storage (s.count misses) :=
  ⟨⟨consistent.below, consistent.distinct, consistent.holds⟩, consistent.cached⟩

/-- A new TLB entry that names a frame in use keeps the state consistent. -/
theorem Consistent.cache {pageNumber frame : UInt32} {page : Fin numberOfPages}
    (consistent : Consistent storage s) (owner : Owns s page frame) :
    Consistent storage (s.cache pageNumber frame) := by
  refine ⟨⟨consistent.below, consistent.distinct, consistent.holds⟩, ?_⟩
  exact cache_entries (fun entry => entry.valid ≠ 0 → ∃ page, Owns s page entry.frame)
    (fun _ => ⟨page, owner⟩) consistent.cached

/-- A fresh fault keeps the state consistent. -/
theorem Consistent.load {page : Fin numberOfPages} {pageValid : Fin numberOfPages → UInt8}
    (consistent : Consistent storage s) (long : numberOfPages * pageSize ≤ storage.length)
    (fresh : TakesFresh s) (released : Released s pageValid) (invalid : s.pageValid page = 0) :
    Consistent storage (s.load storage page pageValid) := by
  refine ⟨consistent.toResident.load long fresh released, ?_⟩
  intro i valid
  rcases consistent.cached i valid with ⟨other, owner⟩
  have owned : ∀ other, Owns (s.load storage page pageValid) other (s.tlb i).frame ↔ _ :=
    fun other => owns_load_iff consistent.distinct fresh released
  by_cases isVictim : (s.tlb i).frame = victimFrame s
  · exact ⟨page, (owned page).mpr (Or.inl ⟨rfl, isVictim⟩)⟩
  · refine ⟨other, (owned other).mpr (Or.inr ⟨?_, owner, isVictim⟩)⟩
    intro same
    exact owner.1 (same ▸ invalid)

/-! ## One access -/

theorem initial_consistent (storage : BackingStorage) : Consistent storage State.initial := by
  refine ⟨initial_resident storage, ?_⟩
  intro i valid
  exact absurd rfl valid

/-- A translation leads to a frame that some page owns. It is the page of the address
exactly when the access is current. -/
theorem Consistent.translates (consistent : Consistent storage s)
    (long : numberOfPages * pageSize ≤ storage.length) (fresh : FaultFresh logical s)
    (translates : Translates storage logical s physical after) :
    Consistent storage after ∧ ∃ page frame, Owns after page frame ∧
      physical = getPhysicalAddress frame (getOffset logical) ∧
      (page = pageOf logical ↔ HitCurrent logical s) := by
  cases translates with
  | hit matching first =>
      rename_i i
      have run := checkTLB_hit matching first
      rcases consistent.cached i matching.1 with ⟨page, owner⟩
      refine ⟨consistent.count 0, page, _, owner, rfl, ?_⟩
      constructor
      · intro same frame found
        rw [run] at found
        cases found
        exact same ▸ owner
      · intro current
        exact consistent.distinct owner (current _ run)
  | walk missing valid =>
      have owner : Owns s (pageOf logical) (s.pageTable (pageOf logical)) := ⟨valid, rfl⟩
      exact ⟨(consistent.count 1).cache owner, pageOf logical, _, owner, rfl,
        iff_of_true rfl (hitCurrent_of_missing missing)⟩
  | fault missing invalid released =>
      rename_i pageValid
      have fresh := fresh (checkTLB_miss missing) invalid
      have loaded := (consistent.count 1).load long fresh released invalid
      have owner : Owns ((s.count 1).load storage (pageOf logical) pageValid) (pageOf logical)
          (victimFrame s) :=
        (owns_load_iff (consistent.count 1).distinct fresh released).mpr (Or.inl ⟨rfl, rfl⟩)
      exact ⟨loaded.cache owner, pageOf logical, _, owner, rfl,
        iff_of_true rfl (hitCurrent_of_missing missing)⟩

/-- One access to a consistent state reads the byte of some page at the offset. It is
the page of the address exactly when the access is current. -/
theorem Consistent.access (consistent : Consistent storage s)
    (long : numberOfPages * pageSize ≤ storage.length) (fresh : FaultFresh logical s) :
    ∃ physical after, ∃ page : Fin numberOfPages,
      translateAddress storage logical s = .ok (physical, after) ∧
      accessMemory physical after =
        .ok (storage.byteAt (page * pageSize + (getOffset logical).toNat)) ∧
      (page = pageOf logical ↔ HitCurrent logical s) ∧ Consistent storage after := by
  rcases translateAddress_translates storage logical s with ⟨physical, after, run, translates⟩
  rcases consistent.translates long fresh translates with
    ⟨consistentAfter, page, frame, owner, position, current⟩
  refine ⟨physical, after, page, run, ?_, current, consistentAfter⟩
  rw [position]
  exact (consistentAfter.holds owner).access (consistentAfter.below owner) (getOffset_lt logical)

theorem storedByte_eq (storage : BackingStorage) (logical : UInt32) :
    storedByte storage logical =
      storage.byteAt (pageOf logical * pageSize + (getOffset logical).toNat) := by
  unfold storedByte
  rw [← page_offset]
  rfl

/-! ## Runs -/

theorem readsStorage_cons {addresses : List UInt32} {value : Int8}
    (translated : translateAddress storage logical s = .ok (physical, after))
    (accessed : accessMemory physical after = .ok value) :
    ReadsStorage storage (logical :: addresses) s ↔
      value = storedByte storage logical ∧ ReadsStorage storage addresses after := by
  simp only [ReadsStorage, accessAll, translated, accessed, ok_bind]
  cases accessAll storage addresses after with
  | error fault => simp
  | ok result => simp [Prod.ext_iff, and_assoc]

theorem along_cons {condition : UInt32 → State → Prop} {addresses : List UInt32}
    (translated : translateAddress storage logical s = .ok (physical, after)) :
    Along storage condition (logical :: addresses) s ↔
      condition logical s ∧ Along storage condition addresses after := by
  simp [Along, translated]

/-- From a consistent state on, a run whose accesses are current reads the storage. -/
theorem Consistent.readsStorage (long : numberOfPages * pageSize ≤ storage.length)
    {addresses : List UInt32} (consistent : Consistent storage s)
    (fresh : Along storage FaultFresh addresses s)
    (current : Along storage HitCurrent addresses s) : ReadsStorage storage addresses s := by
  induction addresses generalizing s with
  | nil => exact ⟨s, rfl⟩
  | cons logical rest inductionHypothesis =>
      rcases consistent.access long fresh.1 with
        ⟨physical, after, page, translated, accessed, isPage, consistentAfter⟩
      rw [along_cons translated] at fresh current
      rw [readsStorage_cons translated accessed]
      constructor
      · rw [storedByte_eq, isPage.mpr current.1]
      · exact inductionHypothesis consistentAfter fresh.2 current.2

/-- Where the pages differ, a run that reads the storage has current accesses only. -/
theorem Consistent.current (long : numberOfPages * pageSize ≤ storage.length)
    (differ : PagesDiffer storage) {addresses : List UInt32} (consistent : Consistent storage s)
    (fresh : Along storage FaultFresh addresses s)
    (reads : ReadsStorage storage addresses s) : Along storage HitCurrent addresses s := by
  induction addresses generalizing s with
  | nil => trivial
  | cons logical rest inductionHypothesis =>
      rcases consistent.access long fresh.1 with
        ⟨physical, after, page, translated, accessed, isPage, consistentAfter⟩
      rw [along_cons translated] at fresh ⊢
      rw [readsStorage_cons translated accessed, storedByte_eq] at reads
      constructor
      · apply isPage.mp
        by_contra different
        exact differ page _ different _ (getOffset_lt logical) reads.1
      · exact inductionHypothesis consistentAfter fresh.2 reads.2

/-- A translation keeps the order of the frames unless the counter wraps around. -/
theorem InOrder.translates {count : ℕ} (inOrder : InOrder count s) (room : count + 1 < 2 ^ 32)
    (translates : Translates storage logical s physical after) : InOrder (count + 1) after := by
  cases translates with
  | hit matching first =>
      have same := inOrder.mono (Nat.le_succ count)
      exact ⟨same.counted, same.below⟩
  | walk missing valid =>
      have same := inOrder.mono (Nat.le_succ count)
      exact ⟨same.counted, same.below⟩
  | fault missing invalid released =>
      rename_i pageValid
      have before : InOrder count (s.count 1) := ⟨inOrder.counted, inOrder.below⟩
      have loaded : InOrder (count + 1) ((s.count 1).load storage (pageOf logical) pageValid) :=
        before.load room released
      exact ⟨loaded.counted, loaded.below⟩

theorem InOrder.faultsFresh {addresses : List UInt32} {count : ℕ} (inOrder : InOrder count s)
    (room : count + addresses.length < 2 ^ 32) : Along storage FaultFresh addresses s := by
  induction addresses generalizing s count with
  | nil => trivial
  | cons logical rest inductionHypothesis =>
      rw [List.length_cons] at room
      rcases translateAddress_translates storage logical s with
        ⟨physical, after, translated, translates⟩
      rw [along_cons translated]
      constructor
      · intro _ _
        exact inOrder.takesFresh
      · exact inductionHypothesis (inOrder.translates (by omega) translates) (by omega)

/-- In a run that is too short for the counter to wrap around, every fault is fresh. -/
theorem faultsFresh_of_short (storage : BackingStorage) {addresses : List UInt32}
    (short : addresses.length < 2 ^ 32) : Along storage FaultFresh addresses State.initial :=
  initial_inOrder.faultsFresh (by omega)

/-- From the initial state on, a run whose accesses are current reads the storage, and
where no two pages of the storage agree anywhere, only such a run does. -/
theorem run_reads_storage (long : 65536 ≤ storage.length) (addresses : List UInt32)
    (fresh : Along storage FaultFresh addresses State.initial) :
    (Along storage HitCurrent addresses State.initial →
        ReadsStorage storage addresses State.initial) ∧
      (PagesDiffer storage → ReadsStorage storage addresses State.initial →
        Along storage HitCurrent addresses State.initial) := by
  have consistent := initial_consistent storage
  constructor
  · intro current
    exact consistent.readsStorage long fresh current
  · intro differ reads
    exact consistent.current long differ fresh reads

/-- A storage whose byte is the number of its page. -/
def pageNumbers : BackingStorage := ⟨65536, fun i => Int8.ofNat (i / 256)⟩

theorem pageNumbers_differ : PagesDiffer pageNumbers := by
  intro page other different offset inPage same
  have pageBelow := page.isLt
  have otherBelow := other.isLt
  simp only [numberOfPages, pageSize] at pageBelow otherBelow inPage
  have number : ∀ page, (page * pageSize + offset) / 256 = page := by
    intro page
    simp only [pageSize]
    omega
  have same : Int8.ofNat page = Int8.ofNat other := by
    simpa only [pageNumbers, number] using same
  have same : page.val % 256 = other.val % 256 :=
    congrArg (fun byte => byte.toBitVec.toNat) same
  apply different
  apply Fin.ext
  omega

/-- Page 66 is loaded by its first access and hit by the second. -/
theorem run_reads_storage_demo :
    ReadsStorage pageNumbers [16916, 16917] State.initial ∧
      Along pageNumbers HitCurrent [16916, 16917] State.initial := by
  have current : Along pageNumbers HitCurrent [16916, 16917] State.initial := by
    have missed : checkTLB (getPageNumber 16916) State.initial = .ok none := by decide
    have second : (translateAddress pageNumbers 16916 State.initial).toOption.map (fun result =>
        (checkTLB (getPageNumber 16917) result.2, result.2.pageValid (pageOf 16917),
          result.2.pageTable (pageOf 16917))) = some (.ok (some 0), 1, 0) := by
      decide +kernel
    rcases translateAddress_translates pageNumbers 16916 State.initial with
      ⟨physical, after, translated, _⟩
    rw [translated] at second
    rcases Prod.mk.inj (Option.some.inj second) with ⟨hits, fields⟩
    rcases Prod.mk.inj fields with ⟨valid, inFrame⟩
    rw [along_cons translated]
    constructor
    · intro frame found
      rw [missed] at found
      cases found
    · refine ⟨?_, fun _ _ _ => trivial⟩
      intro frame found
      rw [hits] at found
      cases found
      refine ⟨?_, inFrame⟩
      rw [valid]
      decide
  have both := run_reads_storage (show 65536 ≤ pageNumbers.length by decide) [16916, 16917]
    (faultsFresh_of_short pageNumbers (by decide))
  have reads := both.1 current
  exact ⟨reads, both.2 pageNumbers_differ reads⟩

/-- Pages 0 to 127, page 0 again, page 128, and page 0 a third time. -/
def staleRun : List UInt32 :=
  (List.range 128).map (fun page => UInt32.ofNat (page * 256)) ++ [0, 32768, 0]

/-- Pages 0 to 127 fill the frames, page 0 enters the TLB again, and page 128 takes its
frame: the last access finds page 0 in the TLB and reads a byte of page 128. -/
theorem stale_entry_breaks_reads :
    ¬∀ storage addresses, 65536 ≤ storage.length →
      ReadsStorage storage addresses State.initial := by
  intro reads
  rcases reads pageNumbers staleRun (by decide) with ⟨after, run⟩
  have values : (accessAll pageNumbers staleRun State.initial).toOption.map (·.1) ≠
      some (staleRun.map (storedByte pageNumbers)) := by
    decide +kernel
  rw [run] at values
  exact values rfl

end OsProjects.VirtualMemory
