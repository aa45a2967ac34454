import Elua.Shell.CommandLine

/-!
# Commands of the shell

`shellhExecuteCommand` computes the arguments of a line and walks the table of commands, which the
configurator writes and which ends with an entry without a name, to the first command whose name is
the first argument.

`dispatched` says what becomes of a line. A blank line does nothing. A line with an open quote or
too many runs is refused with a report. Any other line has one argument for each run, and selects
the command with the name of the first argument, or is reported as unknown. Selecting a command runs
it, except for `exit`, which has no handler, and for `lua` outside of the interactive shell.

White space other than spaces inside quotes, and a bell anywhere, reach an argument as spaces; only
other runs are promised to be intact. Outside of the interactive shell the name of the end entry is
compared after an unknown command.
-/

set_option autoImplicit false
set_option relaxedAutoImplicit false

namespace Elua.Shell

open Foundation

variable {Handler : Type}

/-! ### The table and what a line does -/

/-- `SHELL_COMMAND`. -/
structure ShellCommand (Handler : Type) where
  cmd : CString
  handlerFunc : Option Handler

/-- `SHELL_COMMAND_LIST`, without the entry that ends it. The configurator writes different
names. -/
structure CommandTable (Handler : Type) where
  entries : List (ShellCommand Handler)
  nodup : (entries.map fun pcmd ↦ folded pcmd.cmd.bytes).Nodup

/-- `SHELL_ERRMSG`. -/
def shellErrmsg : String := "Invalid command, type 'help' for help\n"

/-- The report of a line with an open quote. -/
def invalidQuotedString : String := "Invalid quoted string\n"

/-- The report of a line with too many arguments. -/
def tooManyArguments : String := "Error: too many arguments\n"

/-- What `shellh_execute_command` returns: `NULL`, a command, or the entry that ends the table. It
is not defined after a comparison with the name of that entry. -/
inductive Returned (Handler : Type)
  | null
  | command (pcmd : ShellCommand Handler)
  | endEntry
  | undefined

/-- What a line does: the reports that are printed, the commands that run with their arguments,
whether the missing name of the end entry is compared, and the result. -/
structure Outcome (Handler : Type) where
  reports : List String
  ran : List (ShellCommand Handler × List (List UInt8))
  comparesMissing : Bool
  returned : Returned Handler

/-- `"lua"`. -/
def luaName : List UInt8 := [108, 117, 97]

/-- `"exit"`. -/
def exitName : List UInt8 := [101, 120, 105, 116]

/-- The loop over the table: the first command whose name is the argument. -/
def matchCommand (arg : List UInt8) : List (ShellCommand Handler) → Option (ShellCommand Handler)
  | [] => none
  | pcmd :: rest => if strcasecmp pcmd.cmd.bytes arg = 0 then some pcmd else matchCommand arg rest

/-- Whether a command that is selected runs. -/
def runsHandler (interactiveMode : Bool) (pcmd : ShellCommand Handler) : Bool :=
  pcmd.handlerFunc.isSome && (interactiveMode || strcasecmp pcmd.cmd.bytes luaName != 0)

/-- The match of the arguments with the commands. -/
def dispatch (entries : List (ShellCommand Handler)) (interactiveMode : Bool)
    (argv : List (List UInt8)) : Outcome Handler :=
  match matchCommand (argv.headD []) entries with
  | none =>
    { reports := [shellErrmsg]
      ran := []
      comparesMissing := !interactiveMode
      returned := if interactiveMode then .endEntry else .undefined }
  | some pcmd =>
    { reports := []
      ran := if runsHandler interactiveMode pcmd then [(pcmd, argv)] else []
      comparesMissing := false
      returned := if !interactiveMode && strcasecmp pcmd.cmd.bytes exitName == 0 then .null
        else .command pcmd }

/-- A line for which nothing runs. -/
def nothingRuns (reports : List String) : Outcome Handler :=
  { reports, ran := [], comparesMissing := false, returned := .null }

/-- What becomes of a line that was taken apart. -/
def outcomeOf (entries : List (ShellCommand Handler)) (interactiveMode : Bool) :
    CommandLine → Outcome Handler
  | .blank => nothingRuns []
  | .invalidQuotedString => nothingRuns [invalidQuotedString]
  | .tooManyArguments => nothingRuns [tooManyArguments]
  | .argv argv => dispatch entries interactiveMode argv

/-- `shellh_execute_command`, in a buffer of a given size. There is no result if it writes behind
the buffer. -/
def shellhExecuteCommand (table : CommandTable Handler) (room : ℕ) (cmd : CString)
    (interactiveMode : Bool) : Option (Outcome Handler) :=
  (commandLine room cmd.bytes).map (outcomeOf table.entries interactiveMode)

/-- `elua_shell`: the line is copied to a buffer with room for two bytes more. -/
def eluaShell (table : CommandTable Handler) (pcmd : CString) : Option (Outcome Handler) :=
  shellhExecuteCommand table (pcmd.strlen + 2) pcmd false

/-! ### What is expected -/

/-- A run that reaches its argument unchanged: it has no bell, and no white space but spaces. -/
def Intact (run : List UInt8) : Prop := ∀ c ∈ run, c ≠ 7 ∧ c ≠ 9 ∧ c ≠ 10 ∧ c ≠ 13

/-- The command has the name, ignoring case. -/
def ShellCommand.Named (pcmd : ShellCommand Handler) (arg : List UInt8) : Prop :=
  folded pcmd.cmd.bytes = folded arg

/-- What a line is to do, as the code has it by design. -/
structure Dispatches (table : CommandTable Handler) (line : List UInt8) (interactiveMode : Bool)
    (outcome : Outcome Handler) : Prop where
  blank : runs line = [] → outcome = nothingRuns []
  refused_quote : ¬ Balanced line → outcome = nothingRuns [invalidQuotedString]
  refused_many : Balanced line → shellMaxArgs < (runs line).length →
    outcome = nothingRuns [tooManyArguments]
  accepted : runs line ≠ [] → Balanced line → (runs line).length ≤ shellMaxArgs → ∃ argv,
    List.Forall₂ (fun run arg ↦ Intact run → arg = unquote run) (runs line) argv ∧
    (∀ pcmd ∈ table.entries, pcmd.Named (argv.headD []) →
      outcome.reports = [] ∧ outcome.comparesMissing = false ∧
        outcome.ran = if runsHandler interactiveMode pcmd then [(pcmd, argv)] else []) ∧
    ((∀ pcmd ∈ table.entries, ¬ pcmd.Named (argv.headD [])) →
      outcome.reports = [shellErrmsg] ∧ outcome.ran = [] ∧
        (interactiveMode = true → outcome.comparesMissing = false))

/-- What a line is to do, as it may be expected: the text inside quotes is always intact, every
command that is selected runs, and the missing name is never compared. -/
structure AsExpected (table : CommandTable Handler) (line : List UInt8)
    (outcome : Outcome Handler) : Prop where
  refused_iff : (outcome.reports = [invalidQuotedString] ∨ outcome.reports = [tooManyArguments]) ↔
    ¬ Balanced line ∨ shellMaxArgs < (runs line).length
  accepted : Balanced line → (runs line).length ≤ shellMaxArgs →
    (∃ pcmd ∈ table.entries, pcmd.Named (((runs line).map unquote).headD []) ∧
      outcome.ran = [(pcmd, (runs line).map unquote)]) ∨ outcome.reports = [shellErrmsg]
  comparesMissing : outcome.comparesMissing = false

/-! ### The arguments -/

/-- A run that is intact is not changed. -/
theorem map_spaced_of_intact {run : List UInt8} (hintact : Intact run) : run.map spaced = run := by
  refine (List.map_congr_left fun c hmem ↦ ?_).trans (List.map_id run)
  obtain ⟨hbell, htab, hfeed, hreturn⟩ := hintact c hmem
  unfold spaced IsSpace
  by_cases hspace : c = 32
  · rw [hspace]
    rfl
  · refine if_neg ?_
    rintro ((h | h | h | h) | h)
    · exact hspace h
    · exact hreturn h
    · exact hfeed h
    · exact htab h
    · exact hbell h

theorem forall₂_intact (list : List (List UInt8)) :
    List.Forall₂ (fun run arg ↦ Intact run → arg = unquote run) list
      (list.map fun run ↦ unquote (run.map spaced)) := by
  induction list with
  | nil => exact .nil
  | cons run list ih =>
    exact .cons (fun hintact ↦ congrArg unquote (map_spaced_of_intact hintact)) ih

theorem map_fst_annotate (inside : Option UInt8) (line : List UInt8) :
    (annotate inside line).map Prod.fst = line := by
  induction line generalizing inside with
  | nil => rfl
  | cons c line ih => rw [annotate, List.map_cons, ih]

theorem subset_unquote (run : List UInt8) : unquote run ⊆ run := by
  unfold unquote
  split
  · split_ifs
    · exact ((List.dropLast_sublist _).trans (List.tail_sublist _)).subset
    · exact List.Subset.refl _
  · exact List.Subset.refl _

/-- No argument holds a zero byte if the line has none. -/
theorem zero_notMem_argument {line run : List UInt8} (hzero : (0 : UInt8) ∉ line)
    (hmem : run ∈ runs line) : (0 : UInt8) ∉ unquote (run.map spaced) := by
  intro hbyte
  obtain ⟨c, hc, hspaced⟩ := List.mem_map.mp (subset_unquote _ hbyte)
  have hnull : c = 0 := by
    unfold spaced at hspaced
    split_ifs at hspaced
    · exact absurd hspaced (by decide)
    · exact hspaced
  obtain ⟨word, hword, rfl⟩ := List.mem_map.mp hmem
  obtain ⟨marked, hmarked, hfst⟩ := List.mem_map.mp hc
  refine hzero ?_
  rw [← map_fst_annotate none line, ← hnull, ← hfst]
  exact List.mem_map_of_mem (mem_of_mem_words hword hmarked)

theorem zero_notMem_headD {argv : List (List UInt8)} (hzero : ∀ arg ∈ argv, (0 : UInt8) ∉ arg) :
    (0 : UInt8) ∉ argv.headD [] := by
  cases argv with
  | nil => exact List.not_mem_nil
  | cons arg argv => exact hzero arg List.mem_cons_self

/-! ### The commands -/

/-- The loop finds the command with the name, as no other one has it. -/
theorem matchCommand_eq_some {entries : List (ShellCommand Handler)}
    (hnodup : (entries.map fun pcmd ↦ folded pcmd.cmd.bytes).Nodup) {arg : List UInt8}
    (hzero : (0 : UInt8) ∉ arg) {pcmd : ShellCommand Handler} (hmem : pcmd ∈ entries)
    (hnamed : pcmd.Named arg) : matchCommand arg entries = some pcmd := by
  induction entries with
  | nil => cases hmem
  | cons first entries ih =>
    rw [List.map_cons, List.nodup_cons] at hnodup
    have hequal := strcasecmp_eq_zero_iff first.cmd.zero_notMem hzero
    rw [matchCommand]
    obtain rfl | hmem := List.mem_cons.mp hmem
    · exact if_pos (hequal.mpr hnamed)
    · have hother : ¬ strcasecmp first.cmd.bytes arg = 0 := by
        intro hfirst
        refine hnodup.1 ?_
        rw [(hequal.mp hfirst).trans hnamed.symm]
        exact List.mem_map_of_mem hmem
      rw [if_neg hother]
      exact ih hnodup.2 hmem

theorem matchCommand_eq_none {entries : List (ShellCommand Handler)} {arg : List UInt8}
    (hzero : (0 : UInt8) ∉ arg) (hnone : ∀ pcmd ∈ entries, ¬ pcmd.Named arg) :
    matchCommand arg entries = none := by
  induction entries with
  | nil => rfl
  | cons pcmd entries ih =>
    have hdiffers : strcasecmp pcmd.cmd.bytes arg ≠ 0 := fun hequal ↦
      hnone pcmd List.mem_cons_self ((strcasecmp_eq_zero_iff pcmd.cmd.zero_notMem hzero).mp hequal)
    rw [matchCommand, if_neg hdiffers]
    exact ih fun other hother ↦ hnone other (List.mem_cons_of_mem _ hother)

/-! ### The line -/

/-- The outcome of a line, from its runs. -/
theorem shellhExecuteCommand_eq (table : CommandTable Handler) (line : CString)
    (interactiveMode : Bool) :
    shellhExecuteCommand table (line.strlen + 2) line interactiveMode = some (
      if ¬ Balanced line.bytes then nothingRuns [invalidQuotedString]
      else if runs line.bytes = [] then nothingRuns []
      else if shellMaxArgs < (runs line.bytes).length then nothingRuns [tooManyArguments]
      else dispatch table.entries interactiveMode
        ((runs line.bytes).map fun run ↦ unquote (run.map spaced))) := by
  have hline := commandLine_eq (show line.bytes.length + 2 ≤ line.strlen + 2 from le_rfl)
  unfold shellhExecuteCommand
  rw [hline, Option.map_some]
  split_ifs <;> rfl

/-- An open quote belongs to a run. -/
theorem balanced_of_runs_eq_nil {line : List UInt8} (hnone : runs line = []) : Balanced line := by
  have hall := words_eq_nil_iff.mp (List.map_eq_nil_iff.mp hnone)
  have hkept : ∀ inside : Option UInt8, (∀ marked ∈ annotate inside line, marked.2 = true) →
      line.foldl quoteStep inside = inside := by
    clear hall hnone
    induction line with
    | nil => exact fun _ _ ↦ rfl
    | cons c line ih =>
      intro inside hall
      rw [annotate, List.forall_mem_cons, Bool.and_eq_true, decide_eq_true_iff] at hall
      have hstep : quoteStep inside c = inside := if_neg fun hquote ↦ hquote.not_isSpace hall.1.1
      rw [hstep] at hall
      rw [List.foldl_cons, hstep]
      exact ih inside hall.2
  exact hkept none hall

/-- Every line is dispatched as the code has it by design, inside of the line's buffer. -/
theorem dispatched (table : CommandTable Handler) (line : CString) (interactiveMode : Bool) :
    ∃ outcome, shellhExecuteCommand table (line.strlen + 2) line interactiveMode = some outcome ∧
      Dispatches table line.bytes interactiveMode outcome := by
  refine ⟨_, shellhExecuteCommand_eq table line interactiveMode, ?_, ?_, ?_, ?_⟩
  · intro hnone
    rw [if_neg (not_not.mpr (balanced_of_runs_eq_nil hnone)), if_pos hnone]
  · intro hopen
    rw [if_pos hopen]
  · intro hbalanced hmany
    have hsome : runs line.bytes ≠ [] := fun hnone ↦ by
      rw [hnone] at hmany
      cases hmany
    rw [if_neg (not_not.mpr hbalanced), if_neg hsome, if_pos hmany]
  · intro hsome hbalanced hfew
    rw [if_neg (not_not.mpr hbalanced), if_neg hsome, if_neg (Nat.not_lt_of_le hfew)]
    refine ⟨_, forall₂_intact _, ?_, ?_⟩
    all_goals
      have hzero := zero_notMem_headD fun arg hmem ↦ by
        obtain ⟨run, hrun, rfl⟩ := List.mem_map.mp hmem
        exact zero_notMem_argument line.zero_notMem hrun
    · intro pcmd hmem hnamed
      unfold dispatch
      rw [matchCommand_eq_some table.nodup hzero hmem hnamed]
      exact ⟨rfl, rfl, rfl⟩
    · intro hnone
      unfold dispatch
      rw [matchCommand_eq_none hzero hnone]
      refine ⟨rfl, rfl, fun hinteractive ↦ ?_⟩
      rw [hinteractive]
      rfl

/-- A table with the command `lua`. -/
def luaOnly : CommandTable Unit where
  entries := [⟨⟨luaName, by decide⟩, some ()⟩]
  nodup := by decide

/-- Outside of the interactive shell the line `lua` runs nothing and reports nothing. -/
theorem not_asExpected_lua :
    ¬ ∃ outcome, eluaShell luaOnly ⟨luaName, by decide⟩ = some outcome ∧
      AsExpected luaOnly luaName outcome := by
  rintro ⟨outcome, hrun, hexpected⟩
  have hannotated : annotate none luaName = [(108, false), (117, false), (97, false)] := by decide
  have hruns : runs luaName = [luaName] := by
    unfold runs
    rw [hannotated, words_of_forall (List.cons_ne_nil _ _) (by simp)]
    rfl
  have hbalanced : Balanced luaName := by decide
  unfold eluaShell at hrun
  rw [shellhExecuteCommand_eq] at hrun
  dsimp only at hrun
  rw [hruns, if_neg (not_not.mpr hbalanced), if_neg (List.cons_ne_nil _ _),
    if_neg (by decide)] at hrun
  obtain rfl := Option.some.inj hrun
  obtain ⟨pcmd, -, -, hran⟩ | hreport := hexpected.accepted hbalanced (by rw [hruns]; decide)
  · cases hran
  · cases hreport

end Elua.Shell
