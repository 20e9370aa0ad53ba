import OsProjects.Shell.Redirection

/-!
Owns the way back from a command line to what it was made of: words, files, the pipe and the
mark of a background command, wherever the redirections stand among the words.

Does not own the splitting of a line into tokens.
-/

namespace OsProjects.Shell

open OsProjects.C

/-! ## Command lines -/

def operators : List Token := [['<'], ['>'], ['|'], ['&']]

/-- A word or the name of a file. -/
structure Plain (token : Token) : Prop where
  nonempty : token ≠ []
  undelimited : ∀ c ∈ token, isDelimiter c = false
  noOperator : token ∉ operators

theorem plain_iff {token : Token} : Plain token ↔
    token ≠ [] ∧ token.all (!isDelimiter ·) = true ∧ token ∉ operators := by
  simp only [List.all_eq_true, Bool.not_eq_true']
  exact ⟨fun plain => ⟨plain.nonempty, plain.undelimited, plain.noOperator⟩,
    fun ⟨nonempty, undelimited, noOperator⟩ => ⟨nonempty, undelimited, noOperator⟩⟩

instance : DecidablePred Plain := fun _ => decidable_of_iff _ plain_iff.symm

/-- The tokens of a command with the words and the files. -/
inductive Renders : List Token → Files → List Token → Prop where
  | nil : Renders [] .unassigned []
  | word {words files tokens} (token : Token) (plain : Plain token)
      (rest : Renders words files tokens) :
      Renders (token :: words) files (token :: tokens)
  | input {words output tokens} (file : Token) (plain : Plain file)
      (rest : Renders words ⟨none, output⟩ tokens) :
      Renders words ⟨some file, output⟩ (['<'] :: file :: tokens)
  | output {words input tokens} (file : Token) (plain : Plain file)
      (rest : Renders words ⟨input, none⟩ tokens) :
      Renders words ⟨input, some file⟩ (['>'] :: file :: tokens)

/-- `words1 [< f] [> g]` or `words1 [< f] | words2 [> g]` -/
inductive CommandLine where
  | plain (words : List Token) (files : Files)
  | piped (words1 : List Token) (input : Option Token) (words2 : List Token)
      (output : Option Token)

inductive CommandLine.Renders : CommandLine → List Token → Prop where
  | plain {words files tokens} (nonempty : words ≠ [])
      (command : Shell.Renders words files tokens) :
      CommandLine.Renders (.plain words files) tokens
  | piped {words1 input words2 output tokens1 tokens2}
      (nonempty1 : words1 ≠ []) (command1 : Shell.Renders words1 ⟨input, none⟩ tokens1)
      (nonempty2 : words2 ≠ []) (command2 : Shell.Renders words2 ⟨none, output⟩ tokens2) :
      CommandLine.Renders (.piped words1 input words2 output) (tokens1 ++ ['|'] :: tokens2)

/-- The tokens as they are typed, for a command in the background or not. -/
inductive Marked : List Token → Bool → List Token → Prop where
  | foreground {tokens} (unmarked : inBackground tokens = false) : Marked tokens false tokens
  | separate {tokens} : Marked tokens true (tokens ++ [['&']])
  | glued {front last} : Marked (front ++ [last]) true (front ++ [last ++ ['&']])

/-! ## What is recovered -/

/-- `check_redirection` leaves the words with a `NULL` behind them, and `redirect_io` opens
the files. -/
def Recovers (args : Args) (base size : ℕ) (mask : UInt32 → UInt32) (words : List Token)
    (files : Files) : Prop :=
  ∃ redirection, checkRedirection args base size = .ok redirection ∧
    redirection.size = words.length ∧
    Window redirection.args base (words.map some ++ [none]) ∧
    redirectIo (fun _ => true) (mask redirection.flag) redirection.files = some files

/-- The calls of `run_command` after `fork` recover the line. -/
def CommandLine.Recovered (commands : Commands) : CommandLine → Prop
  | .plain words files =>
      commands.argsNum2 = 0 ∧ Recovers commands.args 0 commands.argsNum id words files
  | .piped words1 input words2 output =>
      commands.argsNum2 ≠ 0 ∧
      Recovers commands.args 0 commands.argsNum (· &&& 1) words1 ⟨input, none⟩ ∧
      ∃ args2, commands.args2 = some args2 ∧
        Recovers commands.args args2 commands.argsNum2 (· &&& 2) words2 ⟨none, output⟩

section Rendering

variable {words tokens typed : List Token} {files : Files} {line : CommandLine}
variable {background : Bool}

/-- Every redirection of a command is found when enough of them are looked for. -/
theorem Renders.redirected (renders : Renders words files tokens) :
    ∀ {pairs : ℕ}, files.input.toList.length + files.output.toList.length ≤ pairs →
      redirected pairs tokens = ⟨words, files⟩ := by
  induction renders with
  | nil =>
      intro pairs _
      cases pairs with
      | zero => rfl
      | succ pairs => rfl
  | word token plain rest inductionHypothesis =>
      intro pairs enough
      have later := inductionHypothesis enough
      have word : directionOf token = none := by
        have notInput : token ≠ ['<'] := fun same => plain.noOperator (by simp [same, operators])
        have notOutput : token ≠ ['>'] := fun same => plain.noOperator (by simp [same, operators])
        rw [directionOf, if_neg notInput, if_neg notOutput]
      cases pairs with
      | zero =>
          rw [Shell.redirected] at later ⊢
          cases later
          rfl
      | succ pairs => rw [Shell.redirected, word, later]
  | input file plain rest inductionHypothesis =>
      intro pairs enough
      cases pairs with
      | zero => simp at enough
      | succ pairs =>
          have later := @inductionHypothesis pairs (by simp at enough ⊢; omega)
          simp [Shell.redirected, directionOf, later, Files.orElse, Files.one, Files.assign,
            Files.unassigned]
  | output file plain rest inductionHypothesis =>
      intro pairs enough
      cases pairs with
      | zero => simp at enough
      | succ pairs =>
          have later := @inductionHypothesis pairs (by simp at enough ⊢; omega)
          simp [Shell.redirected, directionOf, later, Files.orElse, Files.one, Files.assign,
            Files.unassigned]

theorem Files.atMostTwo (files : Files) :
    files.input.toList.length + files.output.toList.length ≤ 2 := by
  obtain ⟨input, output⟩ := files
  cases input <;> cases output <;> simp

theorem Renders.nonempty (renders : Renders words files tokens) : ∀ token ∈ tokens, token ≠ [] := by
  induction renders with
  | nil => simp
  | word token plain rest inductionHypothesis => simpa using ⟨plain.nonempty, inductionHypothesis⟩
  | input file plain rest inductionHypothesis => simpa using ⟨plain.nonempty, inductionHypothesis⟩
  | output file plain rest inductionHypothesis => simpa using ⟨plain.nonempty, inductionHypothesis⟩

theorem Renders.noPipe (renders : Renders words files tokens) : ['|'] ∉ tokens := by
  have noPipe : ∀ {token : Token}, Plain token → ['|'] ≠ token := fun plain same =>
    plain.noOperator (by simp [← same, operators])
  induction renders with
  | nil => simp
  | word token plain rest inductionHypothesis => simpa using ⟨noPipe plain, inductionHypothesis⟩
  | input file plain rest inductionHypothesis => simpa using ⟨noPipe plain, inductionHypothesis⟩
  | output file plain rest inductionHypothesis => simpa using ⟨noPipe plain, inductionHypothesis⟩

theorem Renders.ne_nil (renders : Renders words files tokens) (nonempty : words ≠ []) :
    tokens ≠ [] := by
  cases renders with
  | nil => exact nonempty
  | word token plain rest => exact List.cons_ne_nil _ _
  | input file plain rest => exact List.cons_ne_nil _ _
  | output file plain rest => exact List.cons_ne_nil _ _

theorem CommandLine.Renders.nonempty (renders : line.Renders tokens) :
    tokens ≠ [] ∧ ∀ token ∈ tokens, token ≠ [] := by
  cases renders with
  | plain nonempty command => exact ⟨command.ne_nil nonempty, command.nonempty⟩
  | piped nonempty1 command1 nonempty2 command2 =>
      refine ⟨by simp, fun token member => ?_⟩
      rw [List.mem_append, List.mem_cons] at member
      obtain first | rfl | second := member
      · exact command1.nonempty token first
      · exact List.cons_ne_nil _ _
      · exact command2.nonempty token second

/-- `check_ampersand` takes the mark away. -/
theorem Marked.removed (marked : Marked tokens background typed)
    (nonempty : ∀ token ∈ tokens, token ≠ []) :
    inBackground typed = background ∧ afterAmpersand typed = tokens := by
  cases marked with
  | foreground unmarked => exact ⟨unmarked, by simp [afterAmpersand, unmarked]⟩
  | separate => simp [afterAmpersand_snoc]
  | @glued front last =>
      have word : last ≠ [] := nonempty last (by simp)
      simp [afterAmpersand_snoc, word]

theorem Marked.nonempty (marked : Marked tokens background typed) (someTokens : tokens ≠ [])
    (nonempty : ∀ token ∈ tokens, token ≠ []) : typed ≠ [] ∧ ∀ token ∈ typed, token ≠ [] := by
  cases marked with
  | foreground unmarked => exact ⟨someTokens, nonempty⟩
  | separate =>
      refine ⟨by simp, fun token member => ?_⟩
      cases List.mem_append.mp member with
      | inl front => exact nonempty token front
      | inr mark => simp [List.mem_singleton.mp mark]
  | @glued front last =>
      refine ⟨by simp, fun token member => ?_⟩
      cases List.mem_append.mp member with
      | inl before => exact nonempty token (List.mem_append_left _ before)
      | inr mark => simp [List.mem_singleton.mp mark]

/-- The calls after `fork` recover a command from the slots that it fills. -/
theorem recovers_of_window {args : Args} {base : ℕ} {mask : UInt32 → UInt32} {found : Files}
    (window : Window args base (tokens.map some ++ [none]))
    (parsed : redirected 2 tokens = ⟨words, found⟩) (masked : mask (flagOf found) = flagOf files)
    (among : files.Among found) : Recovers args base tokens.length mask words files := by
  obtain ⟨after, found, left⟩ := checkRedirection_ok window
  rw [parsed] at found left
  refine ⟨_, found, rfl, left, ?_⟩
  rw [masked]
  exact redirectIo_ok among fun _ _ => rfl

theorem pipeAt_of_not_mem (noPipe : ['|'] ∉ tokens) : pipeAt tokens = none := by
  refine List.findIdx?_eq_none_iff.mpr fun token member => ?_
  have other : token ≠ ['|'] := fun same => noPipe (by rwa [same] at member)
  exact decide_eq_false other

theorem pipeAt_append {front behind : List Token} (noPipe : ['|'] ∉ front) :
    pipeAt (front ++ ['|'] :: behind) = some front.length := by
  have before := pipeAt_of_not_mem noPipe
  rw [pipeAt] at before ⊢
  rw [List.findIdx?_append, before, List.findIdx?_cons]
  simp

/-- The calls after `fork` recover a line from the array in which the first pipe is cut. -/
theorem CommandLine.Renders.recovered {number : ℕ} (renders : line.Renders tokens)
    (inside : tokens.length ≤ number) (room : number < argsSize) :
    line.Recovered (commandsOf initArgs number tokens) := by
  have first := window_firstCommand initArgs inside room
  rw [slotBehindFirst_of_null room rfl] at first
  cases renders with
  | @plain words files tokens nonempty command =>
      have noPipe := pipeAt_of_not_mem command.noPipe
      have all : firstCommand tokens = tokens := by simp [firstCommand, noPipe]
      rw [all] at first
      refine ⟨by simp [commandsOf, secondCommand, noPipe], ?_⟩
      simp only [commandsOf, all]
      exact recovers_of_window first (command.redirected (Files.atMostTwo _)) rfl
        (Files.among_self _)
  | @piped words1 input words2 output tokens1 tokens2 nonempty1 command1 nonempty2 command2 =>
      have pipe := @pipeAt_append _ tokens2 command1.noPipe
      have left : firstCommand (tokens1 ++ ['|'] :: tokens2) = tokens1 := by
        simp [firstCommand, pipe]
      have right : secondCommand (tokens1 ++ ['|'] :: tokens2) = tokens2 := by
        simp [secondCommand, pipe]
      have second := window_secondCommand initArgs inside room pipe
      rw [left] at first
      rw [right, slotBehind_of_null room rfl] at second
      refine ⟨by simp [commandsOf, right, command2.ne_nil nonempty2], ?_, tokens1.length + 1,
        by simp [commandsOf, pipe], ?_⟩
      · simp only [commandsOf, left]
        exact recovers_of_window first (command1.redirected (Files.atMostTwo _))
          (flagOf_mask _ .input) (Files.among_self _)
      · simp only [commandsOf, right]
        exact recovers_of_window second (command2.redirected (Files.atMostTwo _))
          (flagOf_mask _ .output) (Files.among_self _)

/-- The calls of `run_command` recover every line from its tokens: the commands, their files
and the mark. -/
theorem runCommand_inverts_rendering (renders : line.Renders tokens)
    (marked : Marked tokens background typed) (room : typed.length < argsSize) :
    ∃ commands, splitCommand (laid initArgs typed.length typed) typed.length =
        .ok (background, commands) ∧
      line.Recovered commands := by
  have nonempty := renders.nonempty
  have typedNonempty := marked.nonempty nonempty.1 nonempty.2
  obtain ⟨mark, unmarked⟩ := marked.removed nonempty.2
  have inside := length_afterAmpersand_le typed
  rw [unmarked] at inside
  refine ⟨_, ?_, renders.recovered inside room⟩
  rw [splitCommand_eq initArgs typedNonempty.1 typedNonempty.2 room.le, mark, unmarked]

/-- `sort < in | > out wc -l&` -/
theorem runCommand_inverts_rendering_demo :
    ∃ commands,
      splitCommand (laid initArgs 8 [['s', 'o', 'r', 't'], ['<'], ['i', 'n'], ['|'], ['>'],
        ['o', 'u', 't'], ['w', 'c'], ['-', 'l', '&']]) 8 = .ok (true, commands) ∧
      (CommandLine.piped [['s', 'o', 'r', 't']] (some ['i', 'n']) [['w', 'c'], ['-', 'l']]
        (some ['o', 'u', 't'])).Recovered commands := by
  have command1 : Renders [['s', 'o', 'r', 't']] ⟨some ['i', 'n'], none⟩
      [['s', 'o', 'r', 't'], ['<'], ['i', 'n']] :=
    .word _ (by decide) (.input _ (by decide) .nil)
  have command2 : Renders [['w', 'c'], ['-', 'l']] ⟨none, some ['o', 'u', 't']⟩
      [['>'], ['o', 'u', 't'], ['w', 'c'], ['-', 'l']] :=
    .output _ (by decide) (.word _ (by decide) (.word _ (by decide) .nil))
  exact runCommand_inverts_rendering (.piped (by decide) command1 (by decide) command2)
    (@Marked.glued [['s', 'o', 'r', 't'], ['<'], ['i', 'n'], ['|'], ['>'], ['o', 'u', 't'],
      ['w', 'c']] ['-', 'l']) (by decide)

end Rendering

end OsProjects.Shell
