import Elua.Foundation.CString
import Elua.Foundation.Words

/-!
# The command line of the shell

`shellh_execute_command` takes the line apart in the buffer that holds it: white space becomes a
space, spaces inside quotes become a bell, runs of spaces are cut to one, and the arguments lie
between the spaces that are left. Then the bells of an argument become spaces again, and a pair of
quotes around it is removed. `commandLine` follows these passes; only `strcat` makes the line
longer, and it fails if the buffer has no room.

`runs` are the words of a line between its unquoted white space. `commandLine_eq` says that the
passes find them, and refuse the line if a quote is left open or there are too many of them.
-/

set_option autoImplicit false
set_option relaxedAutoImplicit false

namespace Elua.Shell

open Foundation

/-- `SHELL_ALT_SPACE`. -/
def shellAltSpace : UInt8 := 7

/-- `SHELL_MAX_ARGS`. -/
def shellMaxArgs : ℕ := 10

/-- `'` and `"`. -/
def IsQuote (c : UInt8) : Prop := c = 39 ∨ c = 34

instance (c : UInt8) : Decidable (IsQuote c) := inferInstanceAs (Decidable (_ ∨ _))

/-! ### The passes over the line -/

/-- `strcat` in a buffer of a given size. There is no result if it writes behind the buffer. -/
def strcat (room : ℕ) (cmd suffix : List UInt8) : Option (List UInt8) :=
  if cmd.length + suffix.length + 1 ≤ room then some (cmd ++ suffix) else none

/-- `'\r'`, `'\n'` and `'\t'` become `' '`. -/
def changeSpace (c : UInt8) : UInt8 := if c = 13 ∨ c = 10 ∨ c = 9 then 32 else c

/-- The quote that is open behind a quote: a quote opens, and the same quote closes. -/
def toggle (insideQuotes : Option UInt8) (c : UInt8) : Option UInt8 :=
  match insideQuotes with
  | none => some c
  | some quoteChar => if c = quoteChar then none else some quoteChar

/-- Spaces inside quotes become `SHELL_ALT_SPACE`. The quote that is open is known, if any, and
returned for the end of the line. -/
def alterQuoted : Option UInt8 → List UInt8 → List UInt8 × Option UInt8
  | insideQuotes, [] => ([], insideQuotes)
  | insideQuotes, c :: cmd =>
    if IsQuote c then
      let (rest, last) := alterQuoted (toggle insideQuotes c) cmd
      (c :: rest, last)
    else
      let (rest, last) := alterQuoted insideQuotes cmd
      ((if c = 32 ∧ insideQuotes.isSome then shellAltSpace else c) :: rest, last)

/-- The spaces in front of a string are removed, one after the other. -/
def dropSpaces : List UInt8 → List UInt8
  | [] => []
  | c :: cmd => if c = 32 then dropSpaces cmd else c :: cmd

theorem length_dropSpaces_le (cmd : List UInt8) : (dropSpaces cmd).length ≤ cmd.length := by
  induction cmd with
  | nil => exact le_rfl
  | cons c cmd ih =>
    unfold dropSpaces
    split_ifs
    · exact ih.trans (Nat.le_succ _)
    · exact le_rfl

/-- Sequences of spaces become a single space. -/
def squeeze : List UInt8 → List UInt8
  | [] => []
  | c :: cmd => if c = 32 then c :: squeeze (dropSpaces cmd) else c :: squeeze cmd
termination_by cmd => cmd.length
decreasing_by
  · exact Nat.lt_succ_of_le (length_dropSpaces_le cmd)
  · exact Nat.lt_succ_self _

/-- The line behind the initial space, if there is one. -/
def skipSpace (cmd : List UInt8) : List UInt8 := if cmd.head? = some 32 then cmd.drop 1 else cmd

/-- The loop that computes `argv`, with the bytes since the last space. There is no result if there
are too many arguments. -/
def argvLoop : List (List UInt8) → List UInt8 → List UInt8 → Option (List (List UInt8))
  | argv, _, [] => some argv
  | argv, p, c :: cmd =>
    if c = 32 then
      if argv.length = shellMaxArgs then none else argvLoop (argv ++ [p]) [] cmd
    else argvLoop argv (p ++ [c]) cmd

/-- The additional processing of an argument: spaces are put back, and quotes are removed. -/
def processArg (arg : List UInt8) : List UInt8 :=
  let p := arg.map fun c ↦ if c = shellAltSpace then 32 else c
  match p.head? with
  | some c => if IsQuote c ∧ p.getLast? = some c then p.tail.dropLast else p
  | none => p

/-- What becomes of a line before it is matched with the commands. -/
inductive CommandLine
  | blank
  | invalidQuotedString
  | tooManyArguments
  | argv (argv : List (List UInt8))

/-- The arguments of a line whose spaces were squeezed. -/
def splitArgs (p : List UInt8) : CommandLine :=
  match argvLoop [] [] p with
  | none => .tooManyArguments
  | some argv => .argv (argv.map processArg)

/-- What follows on the compaction of the spaces, in a buffer of a given size. -/
def finishLine (room : ℕ) (cmd : List UInt8) : Option CommandLine :=
  if cmd = [32] then some .blank
  else
    let p := skipSpace cmd
    (if p.getLast? ≠ some 32 then strcat (room - (cmd.length - p.length)) p [32] else some p).map
      splitArgs

/-- The part of `shellh_execute_command` that computes `argv`, in a buffer of a given size. There is
no result if it writes behind the buffer. -/
def commandLine (room : ℕ) (cmd : List UInt8) : Option CommandLine :=
  if cmd.length = 0 then some .blank
  else
    (if cmd.getLast? ≠ some 10 then strcat room cmd [10] else some cmd).bind fun cmd ↦
      let (cmd, insideQuotes) := alterQuoted none (cmd.map changeSpace)
      if insideQuotes.isSome then some .invalidQuotedString else finishLine room (squeeze cmd)

/-! ### The runs of a line -/

/-- White space of the shell. -/
def IsSpace (c : UInt8) : Prop := c = 32 ∨ c = 13 ∨ c = 10 ∨ c = 9

instance (c : UInt8) : Decidable (IsSpace c) := inferInstanceAs (Decidable (_ ∨ _))

/-- The quote that is open behind a byte. -/
def quoteStep (inside : Option UInt8) (c : UInt8) : Option UInt8 :=
  if IsQuote c then toggle inside c else inside

/-- The quotes of a line are balanced. -/
def Balanced (line : List UInt8) : Prop := line.foldl quoteStep none = none

instance (line : List UInt8) : Decidable (Balanced line) := inferInstanceAs (Decidable (_ = _))

/-- The bytes of a line, with whether they are unquoted white space. -/
def annotate : Option UInt8 → List UInt8 → List (UInt8 × Bool)
  | _, [] => []
  | inside, c :: line =>
    (c, decide (IsSpace c) && inside.isNone) :: annotate (quoteStep inside c) line

/-- The runs between unquoted white space that are not empty. -/
def runs (line : List UInt8) : List (List UInt8) :=
  (words Prod.snd (annotate none line)).map (List.map Prod.fst)

/-- A run without the quotes around it. -/
def unquote (run : List UInt8) : List UInt8 :=
  match run.head? with
  | some c => if IsQuote c ∧ run.getLast? = some c then run.tail.dropLast else run
  | none => run

/-- What the passes make of a byte of a run. -/
def spaced (c : UInt8) : UInt8 := if IsSpace c ∨ c = shellAltSpace then 32 else c

/-! ### The passes and the runs -/

/-- A byte behind the first two passes. -/
def passed (c : UInt8 × Bool) : UInt8 :=
  if c.2 then 32 else if IsSpace c.1 then shellAltSpace else c.1

theorem changeSpace_of_isSpace {c : UInt8} (hspace : IsSpace c) : changeSpace c = 32 := by
  obtain rfl | rfl | rfl | rfl := hspace <;> rfl

theorem changeSpace_of_not_isSpace {c : UInt8} (hspace : ¬ IsSpace c) : changeSpace c = c :=
  if_neg fun hother ↦ hspace (.inr hother)

theorem IsQuote.not_isSpace {c : UInt8} (hquote : IsQuote c) : ¬ IsSpace c := by
  obtain rfl | rfl := hquote <;> decide

/-- The first two passes mark what is unquoted white space, and follow the quotes. -/
theorem alterQuoted_changeSpace (inside : Option UInt8) (line : List UInt8) :
    alterQuoted inside (line.map changeSpace) =
      ((annotate inside line).map passed, line.foldl quoteStep inside) := by
  induction line generalizing inside with
  | nil => rfl
  | cons c line ih =>
    rw [List.map_cons, alterQuoted, annotate, List.map_cons, List.foldl_cons]
    by_cases hspace : IsSpace c
    · have hquote : ¬ IsQuote c := fun hquote ↦ hquote.not_isSpace hspace
      have hstep : quoteStep inside c = inside := if_neg hquote
      have hpassed : passed (c, decide (IsSpace c) && inside.isNone) =
          if (32 : UInt8) = 32 ∧ inside.isSome then shellAltSpace else 32 := by
        unfold passed
        cases inside <;> simp [hspace]
      rw [changeSpace_of_isSpace hspace, if_neg (by decide), ih, hstep, hpassed]
    · have hpassed : passed (c, decide (IsSpace c) && inside.isNone) = c := by
        unfold passed
        simp [hspace]
      have hother : ¬ (c = 32 ∧ inside.isSome) := fun hc ↦ hspace (.inl hc.1)
      rw [changeSpace_of_not_isSpace hspace, ih, ih, if_neg hother, hpassed]
      unfold quoteStep
      split_ifs <;> rfl

/-! ### Spaces and arguments -/

/-- The spaces that are left separate the arguments. -/
def isSeparator (c : UInt8) : Bool := decide (c = 32)

/-- The strings in front of the spaces of a line, the first one continuing a string. -/
def pieces : List UInt8 → List UInt8 → List (List UInt8)
  | _, [] => []
  | p, c :: cmd => if c = 32 then p :: pieces [] cmd else pieces (p ++ [c]) cmd

/-- The loop gathers the pieces, unless there are too many. -/
theorem argvLoop_eq {argv : List (List UInt8)} (hargv : argv.length ≤ shellMaxArgs)
    (p cmd : List UInt8) : argvLoop argv p cmd =
      if argv.length + (pieces p cmd).length ≤ shellMaxArgs then some (argv ++ pieces p cmd)
      else none := by
  induction cmd generalizing argv p with
  | nil =>
    rw [argvLoop, pieces, List.append_nil]
    exact (if_pos hargv).symm
  | cons c cmd ih =>
    rw [argvLoop, pieces]
    split_ifs with hspace hfull hfits hfits
    · rw [List.length_cons] at hfits
      omega
    · rfl
    · have hroom : (argv ++ [p]).length ≤ shellMaxArgs := by
        rw [List.length_append, List.length_singleton]
        omega
      rw [List.length_cons] at hfits
      rw [ih hroom, List.length_append, List.length_singleton, if_pos (by omega),
        ← List.append_cons]
    · have hroom : (argv ++ [p]).length ≤ shellMaxArgs := by
        rw [List.length_append, List.length_singleton]
        omega
      rw [List.length_cons] at hfits
      rw [ih hroom, List.length_append, List.length_singleton, if_neg (by omega)]
    · rw [ih hargv, if_pos ‹_›]
    · rw [ih hargv, if_neg ‹_›]

theorem words_dropSpaces (cmd : List UInt8) :
    words isSeparator (dropSpaces cmd) = words isSeparator cmd := by
  induction cmd with
  | nil => rfl
  | cons c cmd ih =>
    unfold dropSpaces
    split_ifs with hspace
    · have hsep : isSeparator c = true := decide_eq_true hspace
      rw [ih, words_cons hsep]
    · rfl

theorem head?_dropSpaces (cmd : List UInt8) : (dropSpaces cmd).head? ≠ some 32 := by
  induction cmd with
  | nil => exact fun heq ↦ by cases heq
  | cons c cmd ih =>
    unfold dropSpaces
    split_ifs with hspace
    · exact ih
    · exact fun heq ↦ hspace (Option.some.inj heq)

/-- What is left behind spaces ends as before. -/
theorem getLast?_dropSpaces (cmd : List UInt8) :
    dropSpaces cmd = [] ∨ (dropSpaces cmd).getLast? = cmd.getLast? := by
  induction cmd with
  | nil => exact .inl rfl
  | cons c cmd ih =>
    unfold dropSpaces
    split_ifs with hspace
    · cases cmd with
      | nil => exact .inl rfl
      | cons next cmd => rwa [List.getLast?_cons_cons]
    · exact .inr rfl

/-- Behind its first byte a line that ends with a space is empty or ends with one. -/
theorem eq_nil_or_getLast?_tail {c : UInt8} {cmd : List UInt8}
    (hends : (c :: cmd).getLast? = some 32) : (cmd = [] ∧ c = 32) ∨ cmd.getLast? = some 32 := by
  cases cmd with
  | nil => exact .inl ⟨rfl, Option.some.inj hends⟩
  | cons next cmd => exact .inr (by rwa [List.getLast?_cons_cons] at hends)

/-- A squeezed line ends with a space if the line does. -/
theorem getLast?_squeeze {cmd : List UInt8} (hends : cmd.getLast? = some 32) :
    (squeeze cmd).getLast? = some 32 := by
  fun_induction squeeze cmd with
  | case1 => exact hends
  | case2 cmd ih =>
    obtain hnil | hlast := getLast?_dropSpaces cmd
    · rw [hnil, squeeze]
      rfl
    · obtain ⟨rfl, -⟩ | htail := eq_nil_or_getLast?_tail hends
      · rw [dropSpaces, squeeze]
        rfl
      · rw [List.getLast?_cons, ih (hlast.trans htail)]
        rfl
  | case3 c cmd hspace ih =>
    obtain ⟨-, hc⟩ | htail := eq_nil_or_getLast?_tail hends
    · exact absurd hc hspace
    · rw [List.getLast?_cons, ih htail]
      rfl

/-- The pieces of a squeezed line are the words of the line. -/
theorem pieces_squeeze {cmd p : List UInt8} (hends : cmd = [] ∧ p = [] ∨ cmd.getLast? = some 32)
    (hstart : p = [] → cmd.head? ≠ some 32) (hp : ∀ c ∈ p, isSeparator c = false) :
    pieces p (squeeze cmd) = words isSeparator (p ++ cmd) := by
  fun_induction squeeze cmd generalizing p with
  | case1 =>
    obtain ⟨-, rfl⟩ | hlast := hends
    · rw [pieces, List.append_nil, words_nil]
    · cases hlast
  | case2 cmd ih =>
    have hnonempty : p ≠ [] := fun hempty ↦ hstart hempty rfl
    have hlast : cmd = [] ∨ cmd.getLast? = some 32 := by
      obtain ⟨hnil, -⟩ | hlast := hends
      · cases hnil
      · exact (eq_nil_or_getLast?_tail hlast).imp_left And.left
    have hrest : dropSpaces cmd = [] ∧ ([] : List UInt8) = [] ∨
        (dropSpaces cmd).getLast? = some 32 := by
      obtain hnil | hsame := getLast?_dropSpaces cmd
      · exact .inl ⟨hnil, rfl⟩
      · obtain rfl | hlast := hlast
        · exact .inl ⟨rfl, rfl⟩
        · exact .inr (hsame.trans hlast)
    have hsep : isSeparator 32 = true := rfl
    rw [pieces, if_pos rfl, ih hrest (fun _ ↦ head?_dropSpaces cmd) (List.forall_mem_nil _),
      words_append_cons hsep, words_of_forall hnonempty hp, List.nil_append, words_dropSpaces,
      List.singleton_append]
  | case3 c cmd hspace ih =>
    have hsep : isSeparator c = false := decide_eq_false hspace
    obtain ⟨hnil, -⟩ | hlast := hends
    · cases hnil
    obtain ⟨-, hc⟩ | htail := eq_nil_or_getLast?_tail hlast
    · exact absurd hc hspace
    rw [pieces, if_neg hspace, ih (.inr htail), ← List.append_cons]
    · intro hnil
      exact absurd hnil (List.append_ne_nil_of_right_ne_nil _ (List.cons_ne_nil _ _))
    · intro other hmem
      obtain hmem | hmem := List.mem_append.mp hmem
      · exact hp other hmem
      · rw [List.mem_singleton.mp hmem]
        exact hsep

/-- A squeezed line begins with a space exactly if the line does. -/
theorem squeeze_cases {cmd : List UInt8} (hends : cmd.getLast? = some 32) :
    (∃ rest, cmd = 32 :: rest ∧ squeeze cmd = 32 :: squeeze (dropSpaces rest)) ∨
      ∃ c rest, cmd = c :: rest ∧ c ≠ 32 ∧ squeeze cmd = c :: squeeze rest := by
  cases cmd with
  | nil => cases hends
  | cons c rest =>
    rw [squeeze]
    by_cases hspace : c = 32
    · exact .inl ⟨rest, by rw [hspace], by rw [if_pos hspace, hspace]⟩
    · exact .inr ⟨c, rest, rfl, hspace, if_neg hspace⟩

/-- A line that does not begin with a space has words, unless it is empty. -/
theorem words_eq_nil_of_head {cmd : List UInt8} (hhead : cmd.head? ≠ some 32) :
    words isSeparator cmd = [] ↔ cmd = [] := by
  rw [words_eq_nil_iff]
  cases cmd with
  | nil => exact iff_of_true (List.forall_mem_nil _) rfl
  | cons c cmd =>
    refine iff_of_false (fun hall ↦ hhead ?_) (List.cons_ne_nil _ _)
    rw [of_decide_eq_true (hall c List.mem_cons_self)]
    rfl

theorem squeeze_eq_nil_iff {cmd : List UInt8} : squeeze cmd = [] ↔ cmd = [] := by
  cases cmd with
  | nil => exact iff_of_true (by rw [squeeze]) rfl
  | cons c cmd =>
    rw [squeeze]
    split_ifs <;> simp

/-- A squeezed line is a single space exactly if the line has no words. -/
theorem squeeze_eq_space_iff {cmd : List UInt8} (hends : cmd.getLast? = some 32) :
    squeeze cmd = [32] ↔ words isSeparator cmd = [] := by
  obtain ⟨rest, rfl, hsqueeze⟩ | ⟨c, rest, rfl, hspace, hsqueeze⟩ := squeeze_cases hends
  · have hsep : isSeparator 32 = true := rfl
    rw [hsqueeze, words_cons hsep, ← words_dropSpaces, words_eq_nil_of_head (head?_dropSpaces rest),
      List.cons.injEq, squeeze_eq_nil_iff, and_iff_right rfl]
  · have hhead : (c :: rest).head? ≠ some 32 := fun heq ↦ hspace (Option.some.inj heq)
    rw [hsqueeze, words_eq_nil_of_head hhead]
    exact iff_of_false (fun heq ↦ hspace (List.cons.inj heq).1) (List.cons_ne_nil _ _)

/-- A squeezed line with words ends with a space behind the one it may begin with, and its pieces
are the words of the line. -/
theorem skipSpace_squeeze {cmd : List UInt8} (hends : cmd.getLast? = some 32)
    (hwords : words isSeparator cmd ≠ []) : (skipSpace (squeeze cmd)).getLast? = some 32 ∧
      pieces [] (skipSpace (squeeze cmd)) = words isSeparator cmd := by
  unfold skipSpace
  obtain ⟨rest, rfl, hsqueeze⟩ | ⟨c, rest, rfl, hspace, hsqueeze⟩ := squeeze_cases hends
  · have hsep : isSeparator 32 = true := rfl
    rw [words_cons hsep, ← words_dropSpaces] at hwords ⊢
    have hnonempty : dropSpaces rest ≠ [] :=
      mt (words_eq_nil_of_head (head?_dropSpaces rest)).mpr hwords
    have hlast : (dropSpaces rest).getLast? = some 32 := by
      refine ((getLast?_dropSpaces rest).resolve_left hnonempty).trans ?_
      obtain ⟨rfl, -⟩ | htail := eq_nil_or_getLast?_tail hends
      · exact absurd rfl hnonempty
      · exact htail
    rw [hsqueeze, if_pos (show (32 :: squeeze (dropSpaces rest)).head? = some 32 from rfl),
      List.drop_succ_cons, List.drop_zero]
    exact ⟨getLast?_squeeze hlast,
      pieces_squeeze (.inr hlast) (fun _ ↦ head?_dropSpaces rest) (List.forall_mem_nil _)⟩
  · have hhead : (squeeze (c :: rest)).head? ≠ some 32 := by
      rw [hsqueeze]
      exact fun heq ↦ hspace (Option.some.inj heq)
    rw [if_neg hhead]
    refine ⟨getLast?_squeeze hends, pieces_squeeze (.inr hends) (fun _ heq ↦ ?_)
      (List.forall_mem_nil _)⟩
    exact hspace (Option.some.inj heq)

/-! ### The whole line -/

/-- A run is what its bytes were behind the passes. -/
theorem processArg_run {run : List (UInt8 × Bool)} (hrun : ∀ c ∈ run, c.2 = false) :
    processArg (run.map passed) = unquote (run.map (fun c ↦ spaced c.1)) := by
  have hspaces : (run.map passed).map (fun c ↦ if c = shellAltSpace then 32 else c) =
      run.map fun c ↦ spaced c.1 := by
    rw [List.map_map]
    refine List.map_congr_left fun c hmem ↦ ?_
    have hc : passed c = if IsSpace c.1 then shellAltSpace else c.1 := by
      unfold passed
      rw [hrun c hmem]
      rfl
    unfold spaced
    rw [Function.comp_apply, hc]
    by_cases hspace : IsSpace c.1 <;> simp [hspace]
  unfold processArg unquote
  rw [hspaces]

theorem annotate_append (inside : Option UInt8) (first second : List UInt8) :
    annotate inside (first ++ second) =
      annotate inside first ++ annotate (first.foldl quoteStep inside) second := by
  induction first generalizing inside with
  | nil => rfl
  | cons c first ih => rw [List.cons_append, annotate, annotate, ih, List.foldl_cons,
      List.cons_append]

/-- A line that ends with a line feed. -/
def terminated (line : List UInt8) : List UInt8 :=
  if line.getLast? ≠ some 10 then line ++ [10] else line

theorem exists_terminated {line : List UInt8} (hnonempty : line ≠ []) :
    ∃ front, terminated line = front ++ [10] := by
  unfold terminated
  split_ifs with hlast
  · exact ⟨line, rfl⟩
  · refine ⟨line.dropLast, ?_⟩
    rw [List.getLast?_eq_some_getLast hnonempty, not_not, Option.some.injEq] at hlast
    rw [← hlast, List.dropLast_append_getLast]

/-- The line feed at the end changes neither the open quote nor the runs. -/
theorem foldl_terminated (line : List UInt8) :
    (terminated line).foldl quoteStep none = line.foldl quoteStep none := by
  unfold terminated
  split_ifs
  · rw [List.foldl_append]
    rfl
  · rfl

theorem runs_terminated {line : List UInt8} (hbalanced : Balanced line) :
    runs (terminated line) = runs line := by
  unfold terminated
  split_ifs
  · unfold runs
    rw [annotate_append, hbalanced]
    exact congrArg _ (words_append_singleton rfl _)
  · rfl

theorem isSeparator_passed (c : UInt8 × Bool) : isSeparator (passed c) = c.2 := by
  obtain ⟨c, separates⟩ := c
  unfold passed isSeparator
  cases separates with
  | true => rfl
  | false =>
    refine decide_eq_false ?_
    dsimp only
    rw [if_neg Bool.false_ne_true]
    split_ifs with hspace
    · decide
    · exact fun hc ↦ hspace (.inl hc)

/-- The words of a line behind the first two passes are its runs. -/
theorem words_passed (annotated : List (UInt8 × Bool)) :
    words isSeparator (annotated.map passed) =
      (words Prod.snd annotated).map (List.map passed) := by
  rw [words_map, funext isSeparator_passed]

/-- A balanced line ends with unquoted white space. -/
theorem getLast?_passed {line : List UInt8} (hnonempty : line ≠ []) (hbalanced : Balanced line) :
    ((annotate none (terminated line)).map passed).getLast? = some 32 := by
  obtain ⟨front, hfront⟩ := exists_terminated hnonempty
  have hopen : front.foldl quoteStep none = none := by
    have hline := (foldl_terminated line).trans hbalanced
    rw [hfront, List.foldl_append] at hline
    exact hline
  rw [hfront, annotate_append, hopen, List.map_append]
  exact List.getLast?_concat

/-- The rest of the work on a balanced line. -/
theorem finishLine_eq {room : ℕ} {line : List UInt8} (hnonempty : line ≠ [])
    (hbalanced : Balanced line) :
    finishLine room (squeeze ((annotate none (terminated line)).map passed)) = some (
      if runs line = [] then .blank
      else if shellMaxArgs < (runs line).length then .tooManyArguments
      else .argv ((runs line).map fun run ↦ unquote (run.map spaced))) := by
  have hends := getLast?_passed hnonempty hbalanced
  have hwords := words_passed (annotate none (terminated line))
  have hruns : runs line = (words Prod.snd (annotate none (terminated line))).map
      (List.map Prod.fst) := (runs_terminated hbalanced).symm
  have hlength : (words isSeparator ((annotate none (terminated line)).map passed)).length =
      (runs line).length := by
    rw [hruns, hwords, List.length_map, List.length_map]
  have hblank : runs line = [] ↔
      squeeze ((annotate none (terminated line)).map passed) = [32] := by
    rw [squeeze_eq_space_iff hends, ← List.length_eq_zero_iff, ← List.length_eq_zero_iff, hlength]
  unfold finishLine
  by_cases hnone : runs line = []
  · rw [if_pos hnone, if_pos (hblank.mp hnone)]
  · have hsome : words isSeparator ((annotate none (terminated line)).map passed) ≠ [] :=
      mt (squeeze_eq_space_iff hends).mpr (mt hblank.mpr hnone)
    obtain ⟨hlast, hpieces⟩ := skipSpace_squeeze hends hsome
    rw [if_neg hnone, if_neg (mt hblank.mpr hnone)]
    dsimp only
    rw [if_neg (not_not.mpr hlast), Option.map_some]
    unfold splitArgs
    rw [argvLoop_eq (Nat.zero_le _), hpieces, List.length_nil, Nat.zero_add, hlength]
    by_cases hmany : shellMaxArgs < (runs line).length
    · rw [if_neg (Nat.not_le_of_lt hmany), if_pos hmany]
    · rw [if_pos (Nat.le_of_not_lt hmany), if_neg hmany, List.nil_append, hwords, hruns,
        List.map_map]
      dsimp only
      rw [List.map_map]
      refine congrArg (fun argv ↦ some (CommandLine.argv argv)) (List.map_congr_left ?_)
      intro run hmem
      rw [Function.comp_apply, processArg_run (mem_words hmem).2, Function.comp_apply,
        List.map_map]
      rfl

/-- The passes refuse a line with an open quote or too many runs, and find its runs otherwise. They
never write behind a buffer with room for the line and two bytes. -/
theorem commandLine_eq {room : ℕ} {line : List UInt8} (hroom : line.length + 2 ≤ room) :
    commandLine room line = some (
      if ¬ Balanced line then .invalidQuotedString
      else if runs line = [] then .blank
      else if shellMaxArgs < (runs line).length then .tooManyArguments
      else .argv ((runs line).map fun run ↦ unquote (run.map spaced))) := by
  unfold commandLine
  by_cases hempty : line.length = 0
  · obtain rfl := List.length_eq_zero_iff.mp hempty
    rfl
  have hnonempty : line ≠ [] := fun hnil ↦ hempty (by rw [hnil]; rfl)
  have hterminated : (if line.getLast? ≠ some 10 then strcat room line [10] else some line) =
      some (terminated line) := by
    unfold terminated strcat
    split_ifs with hlast hfits
    · rfl
    · exact absurd hroom hfits
    · rfl
  rw [if_neg hempty, hterminated, Option.bind_some, alterQuoted_changeSpace, foldl_terminated]
  dsimp only
  by_cases hbalanced : Balanced line
  · have hclosed : ¬ (line.foldl quoteStep none).isSome := by
      rw [show line.foldl quoteStep none = none from hbalanced]
      exact Bool.false_ne_true
    rw [if_neg hclosed, if_neg (not_not.mpr hbalanced)]
    exact finishLine_eq hnonempty hbalanced
  · rw [if_pos (Option.isSome_iff_ne_none.mpr hbalanced), if_pos hbalanced]

end Elua.Shell
