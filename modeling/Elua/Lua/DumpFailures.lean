import Elua.Foundation.FloatFormat
import Elua.Lua.DumpPlan
import Mathlib.Data.List.Basic

/-!
# The failures of a dump

`luaU_dump_crosscompile` must always return, and return an error exactly if an integer does not fit
its size on the target, if a constant that is no integer meets an integral target, or if the writer
reports an error (`ReportsExactly`). The range of an integer can be read as all its bytes can hold,
or as the source has it, which leaves out the values at the ends of four bytes (`Range`).

Both readings fail in the same two ways. After an error the padding loop of `Align4` does not end
unless the count is a multiple of four, and the test for integers converts to `float`, which does
not hold every integer. `reportsExactly_iff` says exactly when neither matters. -/

set_option autoImplicit false
set_option relaxedAutoImplicit false

namespace Elua.Lua

open Elua.Foundation TransitionSystem

variable {Number : Type}

/-! ### What a dump must report -/

/-- How the range of a target's integers is read: as the values that their bytes can hold, or as the
source has it, which reduces the bounds of four bytes by one. -/
inductive Range
  | whole
  | reduced
  deriving DecidableEq

/-- An integer fits into so many bytes. -/
def Range.Fits (range : Range) (width : ℕ) (x : ℤ) : Prop :=
  -256 ^ width ≤ 2 * x ∧ 2 * x < 256 ^ width ∧
    (range = .reduced → width = 4 → x ≠ -0x80000000 ∧ x ≠ 0x7FFFFFFF)

/-- A size fits into so many bytes. -/
def Range.FitsSize (range : Range) (width x : ℕ) : Prop :=
  x < 256 ^ width ∧ (range = .reduced → width = 4 → x ≠ 0xFFFFFFFF)

/-- An integer does not fit its size on the target, or a constant is no integer although the target
has only integers. `integerValue` is the integer that a number is equal to, if any. -/
def Unfit (range : Range) (integerValue : Number → Option ℤ) (D : Dumper Number) :
    DumpAction Number → Prop
  | .int x => ¬range.Fits D.target.sizeofInt x
  | .size x => ¬range.FitsSize D.target.sizeofStrsizeT x
  | .number x => (D.host.integral ∨ D.target.luaNumberIntegral) ∧
    ∀ value ∈ integerValue x, ¬range.Fits D.target.sizeofLuaNumber value
  | .block _ | .align => False

/-- A dump returns, and its status is an error exactly if a value is unfit or the writer has
reported an error for one of its calls. -/
def ReportsExactly (range : Range) (integerValue : Number → Option ℤ) (D : Dumper Number)
    (f : Proto Number) : Prop :=
  ∃ after, (dumpHeader D >>= fun _ ↦ dumpFunction D f none) .start = some ((), after) ∧
    luaUDumpCrosscompile D f = some (after.status, after.output) ∧
      (after.status ≠ 0 ↔ (∃ action ∈ dumpActions D f, Unfit range integerValue D action) ∨
        ∃ calls, calls ≠ [] ∧ calls <+: after.blocks ∧ D.writer calls ≠ 0)

/-! ### Errors -/

section Errors

variable (writer : List (List UInt8) → ℤ)

/-- No alignment comes, or the bytes written are a multiple of four. -/
def EndsAfter (blocks : List (List UInt8)) (steps : List DumpStep) : Prop :=
  blocks.flatten.length % 4 = 0 ∨ .aligned ∉ steps

/-- The first error of a dump, if there is one, leaves a multiple of four bytes or comes after the
last alignment. -/
def ErrorsAligned : List (List UInt8) → List DumpStep → Prop
  | _, [] => True
  | blocks, .refuse _ :: steps => EndsAfter blocks steps
  | blocks, .put bytes :: steps =>
    if writer (blocks ++ [bytes]) = 0 then ErrorsAligned (blocks ++ [bytes]) steps
    else EndsAfter (blocks ++ [bytes]) steps
  | blocks, .aligned :: steps => ErrorsAligned blocks steps

/-- The first error of a dump comes from the writer. -/
def WriterFails : List (List UInt8) → List DumpStep → Prop
  | _, [] => False
  | _, .refuse _ :: _ => False
  | blocks, .put bytes :: steps =>
    writer (blocks ++ [bytes]) ≠ 0 ∨ WriterFails (blocks ++ [bytes]) steps
  | blocks, .aligned :: steps => WriterFails blocks steps

/-- The writer reported an error for one of its calls. -/
def Reported (blocks : List (List UInt8)) : Prop :=
  ∃ calls, calls ≠ [] ∧ calls <+: blocks ∧ writer calls ≠ 0

variable {writer} {state : DumpState} {blocks : List (List UInt8)}

/-- After an error, a dump goes on to its end without a call of the writer, if its alignments
end. -/
theorem runEvents_error (steps : List DumpStep)
    (hcodes : ∀ code, .refuse code ∈ steps → code ≠ 0) (hstatus : state.status ≠ 0) :
    (state.wrote % 4 = 0 ∨ .aligned ∉ steps →
      ∃ after, runEvents (performStep writer) state steps = some after ∧ after.status ≠ 0 ∧
        after.blocks = state.blocks) ∧
      (¬(state.wrote % 4 = 0 ∨ .aligned ∉ steps) →
        runEvents (performStep writer) state steps = none) := by
  induction steps generalizing state with
  | nil =>
    exact ⟨fun _ ↦ ⟨state, rfl, hstatus, rfl⟩, fun hends ↦ absurd (.inr List.not_mem_nil) hends⟩
  | cons step steps ih =>
    have hrest : ∀ code, .refuse code ∈ steps → code ≠ 0 :=
      fun code hcode ↦ hcodes code (List.mem_cons_of_mem _ hcode)
    cases step with
    | refuse code =>
      have hnext := @ih { state with status := code } hrest (hcodes code List.mem_cons_self)
      simpa [runEvents, performStep] using hnext
    | put bytes =>
      have hnext := ih hrest hstatus
      simpa [runEvents, performStep, hstatus] using hnext
    | aligned =>
      by_cases haligned : state.wrote % 4 = 0
      · have hnext := ih hrest hstatus
        simpa [runEvents, performStep, haligned] using hnext
      · simp [runEvents, performStep, haligned, hstatus]

/-- A call that succeeds keeps it so that the writer has not reported an error. -/
theorem not_reported_append (hreported : ¬Reported writer blocks) {bytes : List UInt8}
    (hwriter : writer (blocks ++ [bytes]) = 0) : ¬Reported writer (blocks ++ [bytes]) := by
  rintro ⟨calls, hcalls, hbefore, herror⟩
  rcases List.prefix_concat_iff.1 hbefore with rfl | hearlier
  · exact herror hwriter
  · exact hreported ⟨calls, hcalls, hearlier, herror⟩

/-- What a dump comes to, from a state without an error on. -/
theorem runEvents_start (steps : List DumpStep)
    (hcodes : ∀ code, .refuse code ∈ steps → code ≠ 0) (hreported : ¬Reported writer blocks) :
    (ErrorsAligned writer blocks steps →
      ∃ after, runEvents (performStep writer) ⟨0, blocks.flatten.length, blocks⟩ steps =
          some after ∧
        (after.status ≠ 0 ↔ (∃ code, .refuse code ∈ steps) ∨ WriterFails writer blocks steps) ∧
          (Reported writer after.blocks ↔ WriterFails writer blocks steps)) ∧
      (¬ErrorsAligned writer blocks steps →
        runEvents (performStep writer) ⟨0, blocks.flatten.length, blocks⟩ steps = none) := by
  induction steps generalizing blocks with
  | nil =>
    refine ⟨fun _ ↦ ⟨_, rfl, ?_, ?_⟩, fun hunaligned ↦ absurd trivial hunaligned⟩
    · simp [WriterFails]
    · simpa [WriterFails] using hreported
  | cons step steps ih =>
    have hrest : ∀ code, .refuse code ∈ steps → code ≠ 0 :=
      fun code hcode ↦ hcodes code (List.mem_cons_of_mem _ hcode)
    cases step with
    | refuse code =>
      have hcode := hcodes code List.mem_cons_self
      have herror := @runEvents_error writer ⟨code, blocks.flatten.length, blocks⟩ steps hrest hcode
      constructor
      · intro hends
        obtain ⟨after, hrun, hstatus, hblocks⟩ := herror.1 hends
        refine ⟨after, hrun, iff_of_true hstatus (.inl ⟨code, List.mem_cons_self⟩), ?_⟩
        rw [hblocks]
        exact iff_of_false hreported id
      · intro hends
        exact herror.2 hends
    | put bytes =>
      have hlength : blocks.flatten.length + bytes.length = (blocks ++ [bytes]).flatten.length := by
        simp
      have hput : runEvents (performStep writer) ⟨0, blocks.flatten.length, blocks⟩
          (.put bytes :: steps) = runEvents (performStep writer)
            ⟨writer (blocks ++ [bytes]), (blocks ++ [bytes]).flatten.length, blocks ++ [bytes]⟩
            steps := by
        simp only [runEvents, performStep, if_pos, Option.bind_some, hlength]
      rw [hput, ErrorsAligned]
      by_cases hwriter : writer (blocks ++ [bytes]) = 0
      · rw [if_pos hwriter, hwriter]
        simpa [WriterFails, hwriter] using ih hrest (not_reported_append hreported hwriter)
      · rw [if_neg hwriter]
        have herror := @runEvents_error writer
          ⟨writer (blocks ++ [bytes]), (blocks ++ [bytes]).flatten.length, blocks ++ [bytes]⟩
          steps hrest hwriter
        constructor
        · intro hends
          obtain ⟨after, hrun, hstatus, hblocks⟩ := herror.1 hends
          refine ⟨after, hrun, iff_of_true hstatus (.inr (.inl hwriter)), ?_⟩
          rw [hblocks]
          exact iff_of_true ⟨blocks ++ [bytes], by simp, List.prefix_rfl, hwriter⟩ (.inl hwriter)
        · intro hends
          exact herror.2 hends
    | aligned =>
      have haligned : runEvents (performStep writer) ⟨0, blocks.flatten.length, blocks⟩
          (.aligned :: steps) =
            runEvents (performStep writer) ⟨0, blocks.flatten.length, blocks⟩ steps := by
        simp [runEvents, performStep]
      rw [haligned]
      simpa [ErrorsAligned, WriterFails] using ih hrest hreported

end Errors

/-! ### Exactly when a dump reports its failures -/

section Reports

variable {D : Dumper Number}

/-- The tests of the code refuse a value. -/
def Refused (D : Dumper Number) (action : DumpAction Number) : Prop := refusals D action ≠ []

theorem refused_iff {action : DumpAction Number} :
    Refused D action ↔ ∃ code, code ∈ refusals D action :=
  ⟨List.exists_mem_of_ne_nil _, fun ⟨_, hcode⟩ ↦ List.ne_nil_of_mem hcode⟩

/-- The steps of a dump refuse something exactly if one of its values is refused. -/
theorem exists_refuse_plan (wrote : ℕ) (actions : List (DumpAction Number)) :
    (∃ code, .refuse code ∈ plan D wrote actions) ↔ ∃ action ∈ actions, Refused D action := by
  induction actions generalizing wrote with
  | nil => simp [plan]
  | cons action actions ih =>
    by_cases haction : action = .align
    · subst haction
      rw [plan_align]
      simp only [List.mem_append, exists_or, ih, List.exists_mem_cons_iff]
      simp [Refused, refusals]
    · rw [plan_value haction]
      simp only [List.mem_append, exists_or, ih, List.exists_mem_cons_iff, mem_valueSteps,
        ← refused_iff]

/-- The errors of a plan are errors. -/
theorem code_ne_zero_of_plan {wrote : ℕ} {actions : List (DumpAction Number)} {code : ℤ}
    (hcode : .refuse code ∈ plan D wrote actions) : code ≠ 0 := by
  induction actions generalizing wrote with
  | nil => simp [plan] at hcode
  | cons action actions ih =>
    by_cases haction : action = .align
    · subst haction
      rw [plan_align, List.mem_append] at hcode
      rcases hcode with hpadding | hrest
      · simp at hpadding
      · exact ih hrest
    · rw [plan_value haction, List.mem_append] at hcode
      rcases hcode with hvalue | hrest
      · exact refusals_ne_zero (mem_valueSteps.1 hvalue)
      · exact ih hrest

/-- The dump, by what its steps come to. -/
theorem reportsExactly_iff_steps (range : Range) (integerValue : Number → Option ℤ)
    (f : Proto Number) :
    ReportsExactly range integerValue D f ↔ ErrorsAligned D.writer [] (dumpSteps D f) ∧
      ((∃ action ∈ dumpActions D f, Refused D action) ∨
          WriterFails D.writer [] (dumpSteps D f) ↔
        (∃ action ∈ dumpActions D f, Unfit range integerValue D action) ∨
          WriterFails D.writer [] (dumpSteps D f)) := by
  have hnone : ¬Reported D.writer [] := by
    rintro ⟨calls, hcalls, hbefore, -⟩
    exact hcalls (List.prefix_nil.1 hbefore)
  obtain ⟨hends, hstuck⟩ :=
    runEvents_start (dumpSteps D f) (fun _ hcode ↦ code_ne_zero_of_plan hcode) hnone
  have hperforms : Performs D (dumpHeader D >>= fun _ ↦ dumpFunction D f none) (dumpActions D f) :=
    (performs_action (.block _)).andThen (dumpFunction_eq f none)
  have hrun := congrFun hperforms .start
  rw [@forM_perform _ _ _ _ 0 fun _ ↦ rfl] at hrun
  have hrefused := exists_refuse_plan (D := D) 0 (dumpActions D f)
  have hdump := luaUDumpCrosscompile_eq (D := D) f
  constructor
  · rintro ⟨after, hafter, -, hstatus⟩
    rw [hrun] at hafter
    obtain ⟨result, hresult, hsame⟩ := Option.map_eq_some_iff.1 hafter
    obtain rfl : result = after := congrArg Prod.snd hsame
    have haligned : ErrorsAligned D.writer [] (dumpSteps D f) := by
      by_contra hunaligned
      exact nomatch hresult.symm.trans (hstuck hunaligned)
    obtain ⟨same, hsteps, hsteps_status, hreported⟩ := hends haligned
    obtain rfl : result = same := Option.some.inj (hresult.symm.trans hsteps)
    refine ⟨haligned, ?_⟩
    rw [← hrefused, ← hreported]
    rw [← hreported] at hsteps_status
    exact hsteps_status.symm.trans hstatus
  · rintro ⟨haligned, hfailures⟩
    obtain ⟨after, hsteps, hstatus, hreported⟩ := hends haligned
    refine ⟨after, ?_, ?_, ?_⟩
    · rw [hrun]
      exact congrArg ran hsteps
    · rw [hdump]
      exact congrArg (Option.map _) hsteps
    · rw [← hrefused, ← hreported] at hfailures
      rw [← hreported] at hstatus
      exact hstatus.trans hfailures

/-- A dump reports its failures exactly if its first error leaves a multiple of four bytes or comes
after the last alignment, and the writer reports an error, or an unfit value is refused, or values
are refused that fit exactly if others are not refused that do not. -/
theorem reportsExactly_iff (range : Range) (integerValue : Number → Option ℤ) (f : Proto Number) :
    ReportsExactly range integerValue D f ↔ ErrorsAligned D.writer [] (dumpSteps D f) ∧
      (WriterFails D.writer [] (dumpSteps D f) ∨
        (∃ action ∈ dumpActions D f, Refused D action ∧ Unfit range integerValue D action) ∨
        ((∃ action ∈ dumpActions D f, Refused D action ∧ ¬Unfit range integerValue D action) ↔
          ∃ action ∈ dumpActions D f, Unfit range integerValue D action ∧ ¬Refused D action)) := by
  rw [reportsExactly_iff_steps]
  refine and_congr_right fun _ ↦ ?_
  by_cases hfails : WriterFails D.writer [] (dumpSteps D f)
  · exact iff_of_true (iff_of_true (.inr hfails) (.inr hfails)) (.inl hfails)
  by_cases hboth : ∃ action ∈ dumpActions D f,
      Refused D action ∧ Unfit range integerValue D action
  · obtain ⟨action, hmem, hrefused, hunfit⟩ := hboth
    exact iff_of_true (iff_of_true (.inl ⟨action, hmem, hrefused⟩) (.inl ⟨action, hmem, hunfit⟩))
      (.inr (.inl ⟨action, hmem, hrefused, hunfit⟩))
  · -- no value is both, so the values that are refused fit, and those that do not fit are not
    have hrefused : (∃ action ∈ dumpActions D f, Refused D action) ↔
        ∃ action ∈ dumpActions D f, Refused D action ∧ ¬Unfit range integerValue D action := by
      refine exists_congr fun action ↦ and_congr_right fun hmem ↦ ?_
      exact ⟨fun hrefused ↦ ⟨hrefused, fun hunfit ↦ hboth ⟨action, hmem, hrefused, hunfit⟩⟩,
        And.left⟩
    have hunfit : (∃ action ∈ dumpActions D f, Unfit range integerValue D action) ↔
        ∃ action ∈ dumpActions D f, Unfit range integerValue D action ∧ ¬Refused D action := by
      refine exists_congr fun action ↦ and_congr_right fun hmem ↦ ?_
      exact ⟨fun hunfit ↦ ⟨hunfit, fun hrefused ↦ hboth ⟨action, hmem, hrefused, hunfit⟩⟩,
        And.left⟩
    simp only [hfails, hboth, or_false, false_or, hrefused, hunfit]

end Reports

/-! ### The tests of the code -/

section Tests

/-- The sizes of integers that `DumpIntWithSize` and `DumpSize` handle. -/
def intSizes : List ℕ := [1, 2, 4]

/-- The test for integers is the one for the reduced range. -/
theorem intRefusal_ne_none_iff {width : ℕ} (hwidth : width ∈ intSizes) (x : ℤ) :
    intRefusal width x ≠ none ↔ ¬Range.reduced.Fits width x := by
  simp only [intSizes, List.mem_cons, List.not_mem_nil, or_false] at hwidth
  rcases hwidth with rfl | rfl | rfl <;> simp only [intRefusal, Range.Fits] <;>
    split_ifs with hrefused <;> simp <;> omega

/-- The cast of a `double`, given by its bits, to `int`. It is undefined out of the range of `int`.
-/
def castInt (undefined : ℕ → ℤ) (x : ℕ) : ℤ :=
  match FloatFormat.binary64.truncate x with
  | some value => if -0x80000000 ≤ value ∧ value ≤ 0x7FFFFFFF then value else undefined x
  | none => undefined x

/-- The compiler of the cross-compiler: numbers are of type `double`, and the cast of an integer to
`float` rounds it. -/
def crossHost (littleEndian : Bool) (undefined toLongLong : ℕ → ℤ) (toFloat : ℕ → UInt32) :
    Host ℕ where
  littleEndian := littleEndian
  integral := false
  toInt := castInt undefined
  toLongLong := toLongLong
  equalsFloatOfInt := fun x ↦
    match FloatFormat.binary64.integerValue x with
    | some value => FloatFormat.binary32.integerValue
        (FloatFormat.binary32.ofInt (castInt undefined x)) == some value
    | none => false
  toFloat := toFloat
  toDouble := UInt64.ofNat

/-- An integer in the range of `int` is equal to its cast to `float` exactly if nothing is
rounded. -/
theorem integerValue_ofInt_iff {value : ℤ} (hlow : -0x80000000 ≤ value)
    (hhigh : value ≤ 0x7FFFFFFF) :
    FloatFormat.binary32.integerValue (FloatFormat.binary32.ofInt value) = some value ↔
      FloatFormat.binary32.ExactIn value.natAbs := by
  constructor
  · exact FloatFormat.exactIn_of_integerValue
  · intro hexact
    refine FloatFormat.integerValue_ofInt hexact ?_
    have hlog : Nat.log 2 value.natAbs ≤ Nat.log 2 (2 ^ 31) := Nat.log_mono_right (by omega)
    rw [Nat.log_pow (by decide)] at hlog
    have hbias : FloatFormat.binary32.bias = 127 := by decide
    have hexponent : FloatFormat.binary32.exponentBits = 8 := rfl
    rw [hbias, hexponent]
    omega

variable {littleEndian : Bool} {undefined toLongLong : ℕ → ℤ} {toFloat : ℕ → UInt32}
  {writer : List (List UInt8) → ℤ} {strip : Bool} {target : DumpTargetInfo} {x : ℕ}

/-- An empty function from line 0 to line 300. -/
def longFunction : Proto ℕ := .mk ⟨none, 0, 300, 0, 0, 0, 2, [], [], [], [], []⟩ []

/-- The dump of a function for a target whose integers have one byte, to a writer that takes
everything. -/
def byteDumper : Dumper ℕ where
  host := crossHost true (fun _ ↦ 0) (fun _ ↦ 0) fun _ ↦ 0
  writer := fun _ ↦ 0
  strip := false
  target := ⟨true, 1, 4, 8, false, false⟩

/-- Line 300 is refused at a count of 17 bytes, and the alignment that comes never ends. -/
theorem not_reportsExactly_longFunction :
    luaUDumpCrosscompile byteDumper longFunction = none ∧
      ¬ReportsExactly .whole FloatFormat.binary64.integerValue byteDumper longFunction ∧
        ¬ReportsExactly .reduced FloatFormat.binary64.integerValue byteDumper longFunction := by
  have hnone : luaUDumpCrosscompile byteDumper longFunction = none := by
    rw [luaUDumpCrosscompile_eq]
    rfl
  have hfails : ∀ range,
      ¬ReportsExactly range FloatFormat.binary64.integerValue byteDumper longFunction := by
    rintro range ⟨after, -, hsome, -⟩
    exact nomatch hnone.symm.trans hsome
  exact ⟨hnone, hfails .whole, hfails .reduced⟩

end Tests

end Elua.Lua
