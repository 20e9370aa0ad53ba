import OsProjects.ProcEntry.Model
import OsProjects.Theory.Interleaving

/-!
Owns the readers of an entry: each reads until a call returns 0, and their calls come in any
order. Every reader gets the whole record exactly when no call of another reader comes between
the two calls of a reader.

The calls alternate between the record and the end of file, whoever makes them, because all
readers share `completed`.

Does not own calls that run at the same time.
-/

namespace OsProjects.ProcEntry

open OsProjects.C
open OsProjects.Theory

/-! ## The texts fit into the buffer -/

section Texts

theorem length_decimal_uint64 (value : UInt64) : (decimal value.toNat).length ≤ 20 :=
  (length_decimal_le_iff (by decide)).mpr (value.toNat_lt.trans (by decide))

theorem length_signedDecimal_int32 (value : Int32) : (signedDecimal value.toInt).length ≤ 11 := by
  have lower := value.le_toInt
  have upper := value.toInt_lt
  exact length_signedDecimal (by decide) (by omega)

theorem length_signedDecimal_int64 (value : Int64) : (signedDecimal value.toInt).length ≤ 20 := by
  have lower := value.le_toInt
  have upper := value.toInt_lt
  exact length_signedDecimal (by decide) (by omega)

theorem jiffiesText_fits (kernel : Kernel) : (jiffiesText kernel).length < bufferSize := by
  have numeral := length_decimal_uint64 kernel.jiffies
  have label : jiffiesLabel.length = 26 := by decide
  simp only [jiffiesText, bufferSize, List.length_append, List.length_singleton]
  omega

theorem secondsText_fits (kernel : Kernel) : (secondsText kernel).length < bufferSize := by
  have numeral := length_decimal_uint64 ((kernel.jiffies - kernel.startJiffies) / kernel.hz)
  have label : secondsLabel.length = 17 := by decide
  simp only [secondsText, bufferSize, List.length_append, List.length_cons, List.length_nil]
  omega

theorem pidText_fits (currentPid : Int32) (task : Task) :
    (pidText currentPid task).length < bufferSize := by
  have pid := length_signedDecimal_int32 currentPid
  have state := length_signedDecimal_int64 task.state
  have command := task.short
  have label1 : commandLabel.length = 11 := by decide
  have label2 : pidLabel.length = 10 := by decide
  have label3 : stateLabel.length = 12 := by decide
  simp only [pidText, bufferSize, List.length_append, List.length_cons, List.length_nil]
  omega

end Texts

/-! ## One call -/

/-- The reader's buffer is large enough, and the entry has a record. -/
structure ProcModule.Serves (module : ProcModule) (kernel : Kernel) : Prop where
  copies : kernel.copies = true
  present : (module.record kernel).isSome

/-- The reply of a call that returns a record. -/
def Reply.ofRecord (text : List Char) : Reply where
  value := text.length
  copied := text

section Calls

variable {module : ProcModule} {kernel : Kernel}

theorem rawCopyToUser_all (copies : kernel.copies = true) (buffer : List Char) :
    rawCopyToUser kernel buffer buffer.length = .ok buffer := by
  simp [rawCopyToUser, copies]

theorem readText_first {text : Kernel → List Char} (fits : (text kernel).length < bufferSize)
    (copies : kernel.copies = true) :
    readText text kernel false = .ok (.ofRecord (text kernel), true) := by
  rw [readText, sprintf, if_pos fits]
  simp [rawCopyToUser_all copies, Reply.ofRecord]

theorem pidProcRead_first {task : Task} (live : kernel.pidTask kernel.currentPid = some task)
    (copies : kernel.copies = true) :
    pidProcRead kernel false = .ok (.ofRecord (pidText kernel.currentPid task), true) := by
  have fits := pidText_fits kernel.currentPid task
  have whole : snprintf (pidText kernel.currentPid task) =
      (pidText kernel.currentPid task, (pidText kernel.currentPid task).length) := by
    rw [snprintf, List.take_of_length_le (Nat.le_sub_one_of_lt fits)]
  simp [pidProcRead, live, whole, rawCopyToUser_all copies, copies, Reply.ofRecord]

/-- While `completed` is not set, a call returns the record and sets it. -/
theorem procRead_first (serves : module.Serves kernel) :
    ∃ text, module.record kernel = some text ∧ text ≠ [] ∧
      module.procRead kernel false = .ok (.ofRecord text, true) := by
  cases module with
  | jiffies =>
      exact ⟨_, rfl, by simp [jiffiesText], readText_first (jiffiesText_fits kernel) serves.copies⟩
  | seconds =>
      exact ⟨_, rfl, by simp [secondsText], readText_first (secondsText_fits kernel) serves.copies⟩
  | pid =>
      have present := serves.present
      rw [ProcModule.record, Option.isSome_map] at present
      obtain ⟨task, live⟩ := Option.isSome_iff_exists.mp present
      exact ⟨_, by rw [ProcModule.record, live, Option.map_some], by simp [pidText],
        pidProcRead_first live serves.copies⟩

/-- Once `completed` is set, a call returns 0 and clears it. -/
theorem procRead_again (module : ProcModule) (kernel : Kernel) :
    module.procRead kernel true = .ok (.endOfFile, false) := by
  cases module with
  | jiffies => rfl
  | seconds => rfl
  | pid => rfl

end Calls

/-! ## The readers -/

/-- The variable of a module, and the replies that each reader has got. -/
structure Entry (Reader : Type) where
  completed : Bool
  replies : Reader → List Reply

def Entry.start {Reader : Type} : Entry Reader where
  completed := false
  replies _ := []

/-- A reader stops at a reply of 0. -/
def Entry.stopped {Reader : Type} (s : Entry Reader) (reader : Reader) : Bool :=
  (s.replies reader).getLast?.any (·.value = 0)

section Readers

variable {Reader : Type} {module : ProcModule} {call : Reader × Kernel}
variable {s after final : Entry Reader} {reader : Reader} {found : Reader → Option Kernel}

/-- The replies so far of a reader that gets the whole record of what its first call found, and
then 0. -/
def Whole (module : ProcModule) (found : Option Kernel) (replies : List Reply) : Prop :=
  replies = [] ∨ ∃ kernel text, found = some kernel ∧ module.record kernel = some text ∧
    text ≠ [] ∧ (replies = [.ofRecord text] ∨ replies = [.ofRecord text, .endOfFile])

def WholeRecords (module : ProcModule) (found : Reader → Option Kernel) (s : Entry Reader) :
    Prop :=
  ∀ reader, Whole module (found reader) (s.replies reader)

/-- The calls come in pairs of one reader; the last pair may lack its second call. -/
inductive Paired : List Reader → Prop where
  | nil : Paired []
  | unfinished (reader : Reader) : Paired [reader]
  | pair (reader : Reader) {rest : List Reader} (later : Paired rest) :
      Paired (reader :: reader :: rest)

theorem paired_cons_cons {first second : Reader} {rest : List Reader} :
    Paired (first :: second :: rest) ↔ second = first ∧ Paired rest := by
  constructor
  · intro paired
    cases paired with
    | pair _ later => exact ⟨rfl, later⟩
  · rintro ⟨rfl, later⟩
    exact later.pair second

/-- Between two pairs of calls: a reader has got nothing, or everything. -/
structure Settled (module : ProcModule) (found : Reader → Option Kernel) (s : Entry Reader) :
    Prop where
  cleared : s.completed = false
  whole : WholeRecords module found s
  done : ∀ reader, s.replies reader = [] ∨ s.stopped reader = true

theorem settled_start : Settled module found (Entry.start : Entry Reader) where
  cleared := rfl
  whole _ := Or.inl rfl
  done _ := Or.inl rfl

theorem Settled.fresh (settled : Settled module found s) (going : s.stopped reader = false) :
    s.replies reader = [] := by
  apply (settled.done reader).resolve_right
  intro stopped
  rw [going] at stopped
  cases stopped

variable [DecidableEq Reader]

/-- What the first call of a reader finds. -/
def foundFirst (calls : List (Reader × Kernel)) (reader : Reader) : Option Kernel :=
  (calls.find? fun call => call.1 = reader).map Prod.snd

theorem foundFirst_self (call : Reader × Kernel) (rest : List (Reader × Kernel)) :
    foundFirst (call :: rest) call.1 = some call.2 := by
  simp [foundFirst]

theorem foundFirst_other {other : Reader} (different : other ≠ reader) (kernel : Kernel)
    (rest : List (Reader × Kernel)) :
    foundFirst ((other, kernel) :: rest) reader = foundFirst rest reader := by
  simp [foundFirst, different]

/-- A reader that has not stopped makes a call. -/
def readStep (module : ProcModule) (call : Reader × Kernel) (s : Entry Reader) :
    Option (Entry Reader) :=
  if s.stopped call.1 then none
  else
    match module.procRead call.2 s.completed with
    | .ok (reply, completed) =>
        some ⟨completed, Function.update s.replies call.1 (s.replies call.1 ++ [reply])⟩
    | .error _ => none

/-- What a call does to the entry. -/
theorem readStep_eq (reply : Reply) (completed : Bool) (going : s.stopped call.1 = false)
    (returns : module.procRead call.2 s.completed = .ok (reply, completed)) :
    readStep module call s =
      some ⟨completed, Function.update s.replies call.1 (s.replies call.1 ++ [reply])⟩ := by
  rw [readStep, going, returns]
  rfl

theorem going_of_readStep (taken : readStep module call s = some after) :
    s.stopped call.1 = false := by
  by_contra stopped
  rw [Bool.not_eq_false] at stopped
  rw [readStep, if_pos stopped] at taken
  cases taken

/-- No call takes a reply back. -/
theorem prefix_of_readStep (taken : readStep module call s = some after) (reader : Reader) :
    s.replies reader <+: after.replies reader := by
  have going := going_of_readStep taken
  cases returned : module.procRead call.2 s.completed with
  | error fault =>
      rw [readStep, going, returned] at taken
      cases taken
  | ok result =>
      rw [readStep_eq result.1 result.2 going returned, Option.some.injEq] at taken
      subst taken
      by_cases same : reader = call.1
      · subst same
        simp
      · simp [same]

theorem prefix_of_run {calls : List (Reader × Kernel)}
    (run : runActions (readStep module) calls s = some final) (reader : Reader) :
    s.replies reader <+: final.replies reader := by
  induction calls generalizing s with
  | nil =>
      cases run
      exact List.prefix_refl _
  | cons call rest inductionHypothesis =>
      obtain ⟨after, taken, others⟩ := runActions_cons run
      exact (prefix_of_readStep taken reader).trans (inductionHypothesis others)

theorem not_whole_of_endOfFile {kernel : Option Kernel} {replies : List Reply}
    (first : [.endOfFile] <+: replies) : ¬Whole module kernel replies := by
  have head : replies.head? = some .endOfFile := by
    obtain ⟨rest, rfl⟩ := first
    rfl
  have noRecord : ∀ text : List Char, text ≠ [] → Reply.ofRecord text ≠ .endOfFile := by
    intro text nonempty same
    exact nonempty (congrArg Reply.copied same)
  rintro (rfl | ⟨kernel, text, _, _, nonempty, rfl | rfl⟩)
  · cases head
  · exact noRecord text nonempty (Option.some.inj head)
  · exact noRecord text nonempty (Option.some.inj head)

/-- The readers that have not made a call yet will find what they find first. -/
def Fresh (found : Reader → Option Kernel) (calls : List (Reader × Kernel)) (s : Entry Reader) :
    Prop :=
  ∀ reader, s.replies reader = [] → found reader = foundFirst calls reader

/-- The first call of a pair gets the record. -/
theorem Settled.first (settled : Settled module found s) (serves : module.Serves call.2)
    (taken : readStep module call s = some after) :
    ∃ text, module.record call.2 = some text ∧ text ≠ [] ∧ s.replies call.1 = [] ∧
      after = ⟨true, Function.update s.replies call.1 [.ofRecord text]⟩ := by
  have going := going_of_readStep taken
  obtain ⟨text, recorded, nonempty, returns⟩ := procRead_first serves
  rw [← settled.cleared] at returns
  rw [readStep_eq _ _ going returns, settled.fresh going, Option.some.injEq] at taken
  exact ⟨text, recorded, nonempty, settled.fresh going, taken.symm⟩

theorem WholeRecords.update {replies : List Reply} {completed : Bool}
    (whole : WholeRecords module found s) (new : Whole module (found reader) replies) :
    WholeRecords module found ⟨completed, Function.update s.replies reader replies⟩ := by
  intro other
  by_cases same : other = reader
  · subst same
    simpa using new
  · simpa [same] using whole other

/-- The second call of the same reader settles the entry again. -/
theorem Settled.second {text : List Char} {kernel kernel' : Kernel}
    (settled : Settled module found s) (isFound : found reader = some kernel)
    (recorded : module.record kernel = some text) (nonempty : text ≠ [])
    (taken : readStep module (reader, kernel')
      ⟨true, Function.update s.replies reader [.ofRecord text]⟩ = some after) :
    Settled module found after ∧ after.replies =
      Function.update s.replies reader [.ofRecord text, .endOfFile] := by
  rw [readStep_eq .endOfFile false (going_of_readStep taken) (procRead_again module kernel'),
    Option.some.injEq] at taken
  subst taken
  simp only [Function.update_self, Function.update_idem]
  refine ⟨⟨rfl, settled.whole.update ?_, fun other => ?_⟩, rfl⟩
  · exact Or.inr ⟨kernel, text, isFound, recorded, nonempty, Or.inr rfl⟩
  · by_cases same : other = reader
    · subst same
      right
      simp [Entry.stopped, Reply.endOfFile]
    · simpa [Entry.stopped, same] using settled.done other

/-- A pair of calls of one reader leaves the others as they were. -/
theorem Fresh.pair {first second : Kernel} {rest : List (Reader × Kernel)} {text : List Char}
    (fresh : Fresh found ((reader, first) :: (reader, second) :: rest) s)
    (replies : after.replies = Function.update s.replies reader [.ofRecord text, .endOfFile]) :
    Fresh found rest after := by
  intro other silent
  have different : reader ≠ other := by
    rintro rfl
    rw [replies, Function.update_self] at silent
    cases silent
  rw [replies, Function.update_of_ne different.symm] at silent
  rw [fresh other silent, foundFirst_other different, foundFirst_other different]

/-- Another reader's call gets the end of file before any record. -/
theorem Settled.interrupted {text : List Char} {other : Reader} {kernel : Kernel}
    (settled : Settled module found s) (different : other ≠ reader)
    (taken : readStep module (other, kernel)
      ⟨true, Function.update s.replies reader [.ofRecord text]⟩ = some after) :
    after.replies other = [.endOfFile] := by
  have going := going_of_readStep taken
  rw [readStep_eq .endOfFile false going (procRead_again module kernel),
    Option.some.injEq] at taken
  subst taken
  have before : s.stopped other = false := by
    simpa [Entry.stopped, different] using going
  simp [different, settled.fresh before]

/-- From a settled entry on, two calls at a time. -/
theorem Settled.wholeRecords_iff : ∀ {calls : List (Reader × Kernel)} {s : Entry Reader},
    Settled module found s → Fresh found calls s → (∀ call ∈ calls, module.Serves call.2) →
      runActions (readStep module) calls s = some final →
      (WholeRecords module found final ↔ Paired (calls.map Prod.fst))
  | [], s, settled, _, _, run => by
      cases run
      exact iff_of_true settled.whole .nil
  | [call], s, settled, fresh, serves, run => by
      obtain ⟨after, taken, others⟩ := runActions_cons run
      cases others
      obtain ⟨text, recorded, nonempty, unread, rfl⟩ :=
        settled.first (serves call (by simp)) taken
      have isFound := (fresh call.1 unread).trans (foundFirst_self call [])
      exact iff_of_true (settled.whole.update
        (Or.inr ⟨call.2, text, isFound, recorded, nonempty, Or.inl rfl⟩)) (.unfinished call.1)
  | first :: (other, kernel) :: rest, s, settled, fresh, serves, run => by
      obtain ⟨middle, firstTaken, secondRun⟩ := runActions_cons run
      obtain ⟨after, secondTaken, restRun⟩ := runActions_cons secondRun
      have restServes : ∀ call ∈ rest, module.Serves call.2 := fun call member =>
        serves call (List.mem_cons_of_mem _ (List.mem_cons_of_mem _ member))
      obtain ⟨text, recorded, nonempty, unread, rfl⟩ :=
        settled.first (serves first (by simp)) firstTaken
      have isFound := (fresh first.1 unread).trans (foundFirst_self first _)
      rw [List.map_cons, List.map_cons, paired_cons_cons]
      by_cases same : other = first.1
      · subst same
        obtain ⟨settledAgain, replies⟩ := settled.second isFound recorded nonempty secondTaken
        rw [settledAgain.wholeRecords_iff (fresh.pair replies) restServes restRun]
        simp
      · have early := settled.interrupted same secondTaken
        refine iff_of_false (fun whole => ?_) fun both => same both.1
        exact not_whole_of_endOfFile (early ▸ prefix_of_run restRun other) (whole other)

/-- Every reader of an entry gets the whole record of what its first call finds and then 0,
exactly when the calls come in pairs of one reader. -/
theorem wholeRecords_iff_paired {calls : List (Reader × Kernel)}
    (serves : ∀ call ∈ calls, module.Serves call.2)
    (run : runActions (readStep module) calls Entry.start = some final) :
    WholeRecords module (foundFirst calls) final ↔ Paired (calls.map Prod.fst) :=
  settled_start.wholeRecords_iff (fun _ _ => rfl) serves run

/-- The shell `sh` has the pid 7. -/
def sampleKernel : Kernel where
  jiffies := 5000
  hz := 250
  startJiffies := 1000
  currentPid := 7
  pidTask pid := if pid = 7 then some ⟨['s', 'h'], 0, by decide⟩ else none
  copies := true

theorem serves_sampleKernel (module : ProcModule) : module.Serves sampleKernel := by
  cases module with
  | jiffies => exact ⟨rfl, rfl⟩
  | seconds => exact ⟨rfl, rfl⟩
  | pid => exact ⟨rfl, rfl⟩

/-- Two readers read the entry, one after the other. -/
def twoReaders : List (ℕ × Kernel) :=
  [(0, sampleKernel), (0, sampleKernel), (1, sampleKernel), (1, sampleKernel)]

theorem wholeRecords_iff_paired_demo :
    ∃ final, runActions (readStep .pid) twoReaders Entry.start = some final ∧
      WholeRecords .pid (foundFirst twoReaders) final := by
  have serves : ∀ call ∈ twoReaders, ProcModule.pid.Serves call.2 := by
    simp [twoReaders, serves_sampleKernel]
  obtain ⟨final, run⟩ : ∃ final, runActions (readStep .pid) twoReaders Entry.start = some final :=
    ⟨_, rfl⟩
  exact ⟨final, run, (wholeRecords_iff_paired serves run).mpr (.pair 0 (.pair 1 .nil))⟩

/-- Two readers take turns. -/
def alternating : List (ℕ × Kernel) := [(0, sampleKernel), (1, sampleKernel)]

/-- When two readers take turns, the second gets no record. -/
theorem not_whole_of_turns (module : ProcModule) :
    ∃ final, runActions (readStep module) alternating Entry.start = some final ∧
      ¬WholeRecords module (foundFirst alternating) final := by
  have run : ∃ final, runActions (readStep module) alternating Entry.start = some final ∧
      final.replies 1 = [.endOfFile] := by
    cases module with
    | jiffies => exact ⟨_, rfl, rfl⟩
    | seconds => exact ⟨_, rfl, rfl⟩
    | pid => exact ⟨_, rfl, rfl⟩
  obtain ⟨final, run, early⟩ := run
  refine ⟨final, run, fun whole => ?_⟩
  exact not_whole_of_endOfFile (early ▸ List.prefix_refl _) (whole 1)

theorem interrupted_reader_demo :
    (∃ final, runActions (readStep .jiffies) alternating Entry.start = some final ∧
      ¬WholeRecords .jiffies (foundFirst alternating) final) ∧
    (∃ final, runActions (readStep .seconds) alternating Entry.start = some final ∧
      ¬WholeRecords .seconds (foundFirst alternating) final) ∧
    ∃ final, runActions (readStep .pid) alternating Entry.start = some final ∧
      ¬WholeRecords .pid (foundFirst alternating) final :=
  ⟨not_whole_of_turns .jiffies, not_whole_of_turns .seconds, not_whole_of_turns .pid⟩

end Readers

end OsProjects.ProcEntry
