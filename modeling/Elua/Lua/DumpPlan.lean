import Elua.Foundation.TransitionSystem
import Elua.Lua.Dump

/-!
# The steps of a dump

What a dump does is decided by the prototype, the target and the number of bytes before an
alignment; only its success depends on the writer. `functionActions` lists the calls of the lowest
level that `DumpFunction` makes, and `dumpFunction_eq` says that it makes them. `plan` turns them
into steps: a value is refused, a block is handed to the writer, or an alignment is over.
`luaUDumpCrosscompile_eq` gives the whole dump as a run of the steps.

A step after an error does nothing, except that an alignment comes to an end only if the count is a
multiple of four. -/

set_option autoImplicit false
set_option relaxedAutoImplicit false

namespace Elua.Lua

open Elua.Foundation TransitionSystem

variable {Number : Type} (D : Dumper Number)

/-! ### Actions -/

/-- A call that a dump makes: of `DumpInt`, `DumpSize`, `DumpNumber`, `DumpBlock` or `Align4`. -/
inductive DumpAction (Number : Type)
  | int (x : ℤ)
  | size (x : ℕ)
  | number (x : Number)
  | block (bytes : List UInt8)
  | align

/-- Makes the call. -/
def perform : DumpAction Number → Dump Unit
  | .int x => dumpInt D x
  | .size x => dumpSize D x
  | .number x => dumpNumber D x
  | .block bytes => dumpBlock D bytes
  | .align => dumpAlign4 D

/-- The calls of `DumpString`. -/
def stringActions : TString → List (DumpAction Number)
  | none => [.size 0]
  | some s =>
    let size := (s.length % 2 ^ 32 + 1) % 2 ^ 32
    [.size size, .block ((s ++ [0]).take size)]

/-- The calls of `DumpCode`. -/
def codeActions (f : FunctionBody Number) : List (DumpAction Number) :=
  .int f.code.length :: .align :: f.code.map fun instruction ↦
    .block (maybeByteSwap D (inMemory D.host.littleEndian sizeofInstruction instruction.toNat))

/-- The calls for a constant. -/
def constantActions (o : Constant Number) : List (DumpAction Number) :=
  .block [o.ttype] ::
    match o with
    | .nil => []
    | .boolean value => [.block [if value then 1 else 0]]
    | .number x => [.number x]
    | .string s => stringActions s

/-- The calls of `DumpConstants`. -/
def constantsActions (f : FunctionBody Number) (sizep : ℕ) (inner : List (DumpAction Number)) :
    List (DumpAction Number) :=
  .int f.k.length :: (f.k.flatMap constantActions ++ .int sizep :: inner)

/-- The calls for a local variable. -/
def locVarActions (locvar : LocVar) : List (DumpAction Number) :=
  stringActions locvar.varname ++ [.int locvar.startpc, .int locvar.endpc]

/-- The calls of `DumpDebug`. -/
def debugActions (f : FunctionBody Number) : List (DumpAction Number) :=
  let lineinfo := if D.strip then [] else f.lineinfo
  let locvars := if D.strip then [] else f.locvars
  let upvalues := if D.strip then [] else f.upvalues
  .int lineinfo.length :: .align :: (lineinfo.map .int ++ .int locvars.length ::
    (locvars.flatMap locVarActions ++ .int upvalues.length :: upvalues.flatMap stringActions))

mutual

/-- The calls of `DumpFunction`. -/
def functionActions : Proto Number → TString → List (DumpAction Number)
  | .mk f fs, p =>
    stringActions (if f.source = p ∨ D.strip then none else f.source) ++
      .int f.linedefined :: .int f.lastlinedefined :: .block [f.nups] :: .block [f.numparams] ::
      .block [f.isVararg] :: .block [f.maxstacksize] :: (codeActions D f ++
        (constantsActions f fs.length (functionsActions fs f.source) ++ debugActions D f))

/-- The calls for the functions defined inside a function. -/
def functionsActions : List (Proto Number) → TString → List (DumpAction Number)
  | [], _ => []
  | f :: fs, p => functionActions f p ++ functionsActions fs p

end

/-- The calls of a whole dump. -/
def dumpActions (f : Proto Number) : List (DumpAction Number) :=
  .block (headerBytes D.target) :: functionActions D f none

section Performs

/-- A part of a dump makes the calls of a list. -/
def Performs (dump : Dump Unit) (actions : List (DumpAction Number)) : Prop :=
  dump = actions.forM (perform D)

variable {D}

theorem Performs.andThen {first second : Dump Unit} {actions others : List (DumpAction Number)}
    (hfirst : Performs D first actions) (hsecond : Performs D second others) :
    Performs D (first >>= fun _ ↦ second) (actions ++ others) := by
  unfold Performs at hfirst hsecond ⊢
  rw [hfirst, hsecond]
  exact List.forM_append.symm

theorem performs_nothing : Performs D (pure ()) [] := rfl

/-- One call. -/
theorem performs_action (action : DumpAction Number) : Performs D (perform D action) [action] := by
  unfold Performs
  simp [List.forM]

/-- A loop makes the calls for its elements. -/
theorem performs_forM {Element : Type} {dumpOne : Element → Dump Unit}
    {actions : Element → List (DumpAction Number)} (elements : List Element)
    (hone : ∀ element, Performs D (dumpOne element) (actions element)) :
    Performs D (elements.forM dumpOne) (elements.flatMap actions) := by
  induction elements with
  | nil => exact performs_nothing
  | cons element elements ih => exact (hone element).andThen ih

theorem performs_map {Element : Type} {dumpOne : Element → Dump Unit}
    {action : Element → DumpAction Number} (elements : List Element)
    (hone : ∀ element, dumpOne element = perform D (action element)) :
    Performs D (elements.forM dumpOne) (elements.map action) := by
  rw [List.map_eq_flatMap]
  refine performs_forM elements fun element ↦ ?_
  rw [hone]
  exact performs_action _

theorem performs_dumpString (s : TString) : Performs D (dumpString D s) (stringActions s) := by
  cases s with
  | none => exact performs_action (.size 0)
  | some s => exact (performs_action (.size _)).andThen (performs_action (.block _))

theorem performs_dumpCode (f : FunctionBody Number) : Performs D (dumpCode D f) (codeActions D f) :=
  (performs_action (.int _)).andThen <| (performs_action .align).andThen <|
    performs_map f.code fun _ ↦ rfl

theorem performs_dumpConstant (o : Constant Number) :
    Performs D (dumpConstant D o) (constantActions o) := by
  have htype := performs_action (D := D) (.block [o.ttype])
  cases o with
  | nil => exact htype.andThen performs_nothing
  | boolean value => exact htype.andThen (performs_action (.block _))
  | number x => exact htype.andThen (performs_action (.number x))
  | string s => exact htype.andThen (performs_dumpString s)

theorem performs_dumpLocVar (locvar : LocVar) :
    Performs D (dumpLocVar D locvar) (locVarActions locvar) :=
  (performs_dumpString _).andThen <| (performs_action (.int _)).andThen (performs_action (.int _))

theorem performs_dumpDebug (f : FunctionBody Number) :
    Performs D (dumpDebug D f) (debugActions D f) := by
  have hlineinfo : ∀ lineinfo : List ℤ,
      Performs D (lineinfo.forM (dumpInt D)) (lineinfo.map .int) :=
    fun lineinfo ↦ performs_map lineinfo fun _ ↦ rfl
  unfold dumpDebug debugActions
  exact (performs_action (.int _)).andThen <| (performs_action .align).andThen <|
    (hlineinfo _).andThen <| (performs_action (.int _)).andThen <|
    (performs_forM _ performs_dumpLocVar).andThen <| (performs_action (.int _)).andThen <|
    performs_forM _ performs_dumpString

mutual

/-- `DumpFunction` makes the calls that are listed. -/
theorem dumpFunction_eq : ∀ (f : Proto Number) (p : TString),
    Performs D (dumpFunction D f p) (functionActions D f p)
  | .mk f fs, p => by
    rw [dumpFunction, functionActions]
    have hconstants : Performs D (dumpConstants D f fs.length (dumpFunctions D fs f.source))
        (constantsActions f fs.length (functionsActions D fs f.source)) :=
      (performs_action (.int _)).andThen <| (performs_forM f.k performs_dumpConstant).andThen <|
        (performs_action (.int _)).andThen (dumpFunctions_eq fs f.source)
    exact (performs_dumpString _).andThen <| (performs_action (.int f.linedefined)).andThen <|
      (performs_action (.int f.lastlinedefined)).andThen <|
      (performs_action (.block [f.nups])).andThen <|
      (performs_action (.block [f.numparams])).andThen <|
      (performs_action (.block [f.isVararg])).andThen <|
      (performs_action (.block [f.maxstacksize])).andThen <|
      (performs_dumpCode f).andThen <| hconstants.andThen (performs_dumpDebug f)

theorem dumpFunctions_eq : ∀ (fs : List (Proto Number)) (p : TString),
    Performs D (dumpFunctions D fs p) (functionsActions D fs p)
  | [], _ => by
    rw [dumpFunctions, functionsActions]
    exact performs_nothing
  | f :: fs, p => by
    rw [dumpFunctions, functionsActions]
    exact (dumpFunction_eq f p).andThen (dumpFunctions_eq fs p)

end

end Performs

/-! ### Steps -/

/-- A step of a dump: a value is refused with a status, a block is handed to the writer, or an
alignment is over. -/
inductive DumpStep
  | refuse (code : ℤ)
  | put (bytes : List UInt8)
  | aligned
  deriving DecidableEq

/-- What a step does. After an error nothing is written any more, and the loop of an alignment does
not end at a count that is no multiple of four. -/
def performStep (writer : List (List UInt8) → ℤ) (state : DumpState) : DumpStep → Option DumpState
  | .refuse code => some { state with status := code }
  | .put bytes => some (if state.status = 0 then
      { status := writer (state.blocks ++ [bytes])
        wrote := state.wrote + bytes.length
        blocks := state.blocks ++ [bytes] }
    else state)
  | .aligned => if state.status = 0 ∨ state.wrote % 4 = 0 then some state else none

/-- The status that `DumpIntWithSize` sets. -/
def intRefusal (sizeofInt : ℕ) (x : ℤ) : Option ℤ :=
  match sizeofInt with
  | 1 => if x > 0x7F ∨ x < -0x80 then some luaErrCcIntoverflow else none
  | 2 => if x > 0x7FFF ∨ x < -0x8000 then some luaErrCcIntoverflow else none
  | 4 => if x > 0x7FFFFFFE ∨ x < -0x7FFFFFFF then some luaErrCcIntoverflow else none
  | _ => none

/-- The status that `DumpSize` sets. -/
def sizeRefusal (sizeofStrsizeT x : ℕ) : Option ℤ :=
  match sizeofStrsizeT with
  | 1 => if x > 0xFF then some luaErrCcIntoverflow else none
  | 2 => if x > 0xFFFF then some luaErrCcIntoverflow else none
  | 4 => if x > 0xFFFFFFFE then some luaErrCcIntoverflow else none
  | _ => none

/-- The statuses that a call sets for a value, in turn. -/
def refusals : DumpAction Number → List ℤ
  | .int x => (intRefusal D.target.sizeofInt x).toList
  | .size x => (sizeRefusal D.target.sizeofStrsizeT x).toList
  | .number x =>
    if D.host.integral then (intRefusal D.target.sizeofLuaNumber (D.host.toInt x)).toList
    else if D.target.luaNumberIntegral then
      (if D.host.equalsFloatOfInt x = false then [luaErrCcNotinteger] else []) ++
        (intRefusal D.target.sizeofLuaNumber (D.host.toInt x)).toList
    else []
  | .block _ | .align => []

/-- The block for an integer. -/
def intBlock (sizeofInt : ℕ) (x : ℤ) : Option (List UInt8) :=
  match sizeofInt with
  | 1 => some [UInt8.ofNat (residue 1 x)]
  | 2 => some (maybeByteSwap D (inMemory D.host.littleEndian 2 (residue 2 x)))
  | 4 => some (maybeByteSwap D (inMemory D.host.littleEndian 4 (residue 4 x)))
  | _ => none

/-- The block for a size. -/
def sizeBlock (x : ℕ) : Option (List UInt8) :=
  match D.target.sizeofStrsizeT with
  | 1 => some [UInt8.ofNat x]
  | 2 => some (maybeByteSwap D (inMemory D.host.littleEndian 2 x))
  | 4 => some (maybeByteSwap D (inMemory D.host.littleEndian 4 x))
  | _ => none

/-- The block for a number that is not dumped as an integer. -/
def floatBlock (x : Number) : Option (List UInt8) :=
  match D.target.sizeofLuaNumber with
  | 4 => some (maybeByteSwap D (inMemory D.host.littleEndian 4 (D.host.toFloat x).toNat))
  | 8 =>
    let y := inMemory D.host.littleEndian 8 (D.host.toDouble x).toNat
    some (maybeByteSwap D (if D.target.isArmFpa then swapHalves y else y))
  | _ => none

/-- The block that a call writes. -/
def blockOf : DumpAction Number → Option (List UInt8)
  | .int x => intBlock D D.target.sizeofInt x
  | .size x => sizeBlock D x
  | .number x =>
    if D.host.integral ∨ D.target.luaNumberIntegral then
      intBlock D D.target.sizeofLuaNumber (D.host.toInt x)
    else floatBlock D x
  | .block bytes => some bytes
  | .align => none

/-- The steps of a call other than an alignment. -/
def valueSteps (action : DumpAction Number) : List DumpStep :=
  (refusals D action).map .refuse ++ (blockOf D action).toList.map .put

/-- The bytes that an alignment adds to a count. -/
def padding (wrote : ℕ) : ℕ := (4 - wrote % 4) % 4

/-- The steps of calls, from a count of bytes on. -/
def plan : ℕ → List (DumpAction Number) → List DumpStep
  | _, [] => []
  | wrote, .align :: actions =>
    List.replicate (padding wrote) (.put [0]) ++ .aligned :: plan (wrote + padding wrote) actions
  | wrote, action :: actions =>
    valueSteps D action ++ plan (wrote + ((blockOf D action).getD []).length) actions

/-- The steps of a whole dump. -/
def dumpSteps (f : Proto Number) : List DumpStep := plan D 0 (dumpActions D f)

/-- The state in which a dump starts. -/
def DumpState.start : DumpState := ⟨0, 0, []⟩

/-! ### A dump runs its steps -/

section Runs

variable {D} {state after : DumpState}

/-- The result of a run, as the result of a part of a dump. -/
abbrev ran (result : Option DumpState) : Option (Unit × DumpState) :=
  result.map fun after ↦ ((), after)

/-- After an error, blocks are not written. -/
theorem runEvents_put (hstatus : state.status ≠ 0) (blocks : List (List UInt8)) :
    runEvents (performStep D.writer) state (blocks.map .put) = some state := by
  induction blocks with
  | nil => rfl
  | cons block blocks ih =>
    simp only [List.map_cons, runEvents, performStep, if_neg hstatus, Option.bind_some]
    exact ih

/-- The status and the block of an integer. -/
theorem dumpIntWithSize_eq (x : ℤ) (sizeofInt : ℕ) (state : DumpState) :
    dumpIntWithSize D x sizeofInt state =
      ran (runEvents (performStep D.writer) state ((intRefusal sizeofInt x).toList.map .refuse ++
        (intBlock D sizeofInt x).toList.map .put)) := by
  unfold dumpIntWithSize intRefusal intBlock
  match sizeofInt with
  | 0 => rfl
  | 1 => dsimp only; split_ifs <;> rfl
  | 2 => dsimp only; split_ifs <;> rfl
  | 3 => rfl
  | 4 => dsimp only; split_ifs <;> rfl
  | _ + 5 => rfl

/-- The status and the block of a size. -/
theorem dumpSize_eq (x : ℕ) (state : DumpState) :
    dumpSize D x state =
      ran (runEvents (performStep D.writer) state
        ((sizeRefusal D.target.sizeofStrsizeT x).toList.map .refuse ++
          (sizeBlock D x).toList.map .put)) := by
  unfold dumpSize sizeRefusal sizeBlock
  match D.target.sizeofStrsizeT with
  | 0 => rfl
  | 1 => dsimp only; split_ifs <;> rfl
  | 2 => dsimp only; split_ifs <;> rfl
  | 3 => rfl
  | 4 => dsimp only; split_ifs <;> rfl
  | _ + 5 => rfl

/-- The statuses and the block of a number. -/
theorem dumpNumber_eq (x : Number) (state : DumpState) :
    dumpNumber D x state =
      ran (runEvents (performStep D.writer) state (valueSteps D (.number x))) := by
  simp only [dumpNumber, valueSteps, refusals, blockOf]
  by_cases hintegral : D.host.integral = true
  · simp only [if_pos hintegral, if_pos (Or.inl hintegral)]
    exact dumpIntWithSize_eq _ _ state
  · by_cases htarget : D.target.luaNumberIntegral = true
    · simp only [if_neg hintegral, if_pos htarget, if_pos (Or.inr htarget)]
      split_ifs with hequals
      · exact dumpIntWithSize_eq _ _ _
      · exact dumpIntWithSize_eq _ _ state
    · have hneither : ¬(D.host.integral = true ∨ D.target.luaNumberIntegral = true) :=
        not_or.2 ⟨hintegral, htarget⟩
      simp only [if_neg hintegral, if_neg htarget, if_neg hneither, floatBlock]
      -- only the sizes 4 and 8 write a block
      generalize D.target.sizeofLuaNumber = size
      rcases size with _ | _ | _ | _ | _ | _ | _ | _ | _ | _ <;> rfl

/-- A call other than an alignment runs its steps. -/
theorem perform_eq {action : DumpAction Number} (haction : action ≠ .align) (state : DumpState) :
    perform D action state =
      ran (runEvents (performStep D.writer) state (valueSteps D action)) := by
  cases action with
  | int x => exact dumpIntWithSize_eq x _ state
  | size x => exact dumpSize_eq x state
  | number x => exact dumpNumber_eq x state
  | block bytes => rfl
  | align => exact absurd rfl haction

/-- After an error, an alignment ends only at a multiple of four. -/
theorem align4Loop_error (hstatus : state.status ≠ 0) (turns : ℕ) :
    align4Loop D (turns + 1) state =
      ran (runEvents (performStep D.writer) state [.aligned]) := by
  by_cases haligned : state.wrote % 4 = 0
  · rw [align4Loop_aligned D haligned]
    simp [runEvents, performStep, haligned]
  · rw [align4Loop_stuck D haligned hstatus]
    simp [runEvents, performStep, haligned, hstatus]

/-- Without an error before it, an alignment writes the bytes that are missing. -/
theorem align4Loop_run (hstatus : state.status = 0) (missing turns : ℕ)
    (hmissing : padding state.wrote = missing) (hturns : missing < turns) :
    align4Loop D turns state =
      ran (runEvents (performStep D.writer) state
        (List.replicate missing (.put [0]) ++ [.aligned])) := by
  obtain ⟨turns, rfl⟩ : ∃ more, turns = more + 1 := ⟨turns - 1, by omega⟩
  unfold padding at hmissing
  induction missing generalizing state turns with
  | zero =>
    rw [align4Loop_aligned D (by omega)]
    simp [runEvents, performStep, hstatus]
  | succ missing ih =>
    rw [align4Loop_turn D (by omega)]
    simp only [List.replicate_succ, List.cons_append, runEvents, performStep, if_pos hstatus,
      Option.bind_some]
    change align4Loop D turns (if state.status = 0 then
      { status := D.writer (state.blocks ++ [[0]])
        wrote := state.wrote + 1
        blocks := state.blocks ++ [[0]] : DumpState } else state) = _
    rw [if_pos hstatus]
    obtain ⟨turns, rfl⟩ : ∃ more, turns = more + 1 := ⟨turns - 1, by omega⟩
    by_cases hwriter : D.writer (state.blocks ++ [[0]]) = 0
    · exact ih hwriter (by dsimp only; omega) turns (by omega)
    · rw [align4Loop_error hwriter, runEvents_append, ← List.map_replicate, runEvents_put hwriter]
      rfl

/-- An alignment runs its steps. -/
theorem dumpAlign4_eq {wrote : ℕ} (hwrote : state.status = 0 → state.wrote = wrote) :
    dumpAlign4 D state =
      ran (runEvents (performStep D.writer) state
        (List.replicate (padding wrote) (.put [0]) ++ [.aligned])) := by
  by_cases hstatus : state.status = 0
  · rw [← hwrote hstatus]
    exact align4Loop_run hstatus _ 4 rfl (Nat.mod_lt _ (by decide))
  · rw [runEvents_append, ← List.map_replicate, runEvents_put hstatus]
    exact align4Loop_error hstatus 3

/-- The number of bytes that steps hand to the writer. -/
def putLength : List DumpStep → ℕ
  | [] => 0
  | .put bytes :: steps => bytes.length + putLength steps
  | _ :: steps => putLength steps

/-- A run that ends without an error had none, and has counted all bytes. -/
theorem wrote_of_run (steps : List DumpStep) (hcodes : ∀ code, .refuse code ∈ steps → code ≠ 0)
    (hrun : runEvents (performStep D.writer) state steps = some after) (hafter : after.status = 0) :
    state.status = 0 ∧ after.wrote = state.wrote + putLength steps := by
  induction steps generalizing state with
  | nil =>
    obtain rfl := Option.some.inj hrun
    exact ⟨hafter, rfl⟩
  | cons step steps ih =>
    obtain ⟨next, hstep, hrest⟩ := Option.bind_eq_some_iff.1 hrun
    obtain ⟨hnext, hwrote⟩ := ih (fun code hcode ↦ hcodes code (List.mem_cons_of_mem _ hcode)) hrest
    cases step with
    | refuse code =>
      obtain rfl := Option.some.inj hstep
      exact absurd hnext (hcodes code List.mem_cons_self)
    | put bytes =>
      obtain rfl := Option.some.inj hstep
      by_cases hstatus : state.status = 0
      · rw [if_pos hstatus] at hwrote
        refine ⟨hstatus, hwrote.trans ?_⟩
        simp only [putLength]
        omega
      · rw [if_neg hstatus] at hnext
        exact absurd hnext hstatus
    | aligned =>
      simp only [performStep] at hstep
      split_ifs at hstep with hends
      obtain rfl := Option.some.inj hstep
      exact ⟨hnext, hwrote⟩

/-- The status of a refused integer is an error. -/
theorem intRefusal_ne_zero {sizeofInt : ℕ} {x code : ℤ}
    (hcode : intRefusal sizeofInt x = some code) : code ≠ 0 := by
  have hoverflow : code = luaErrCcIntoverflow := by
    unfold intRefusal at hcode
    split at hcode <;> simp_all
  rw [hoverflow]
  decide

/-- The status of a refused size is an error. -/
theorem sizeRefusal_ne_zero {sizeofStrsizeT x : ℕ} {code : ℤ}
    (hcode : sizeRefusal sizeofStrsizeT x = some code) : code ≠ 0 := by
  have hoverflow : code = luaErrCcIntoverflow := by
    unfold sizeRefusal at hcode
    split at hcode <;> simp_all
  rw [hoverflow]
  decide

/-- The statuses of refused values are errors. -/
theorem refusals_ne_zero {action : DumpAction Number} {code : ℤ}
    (hcode : code ∈ refusals D action) : code ≠ 0 := by
  cases action with
  | int x => exact intRefusal_ne_zero (Option.mem_toList.1 hcode)
  | size x => exact sizeRefusal_ne_zero (Option.mem_toList.1 hcode)
  | number x =>
    simp only [refusals] at hcode
    split_ifs at hcode with hintegral htarget hequals
    · exact intRefusal_ne_zero (Option.mem_toList.1 hcode)
    · rcases List.mem_append.1 hcode with hfirst | hsecond
      · obtain rfl := List.mem_singleton.1 hfirst
        decide
      · exact intRefusal_ne_zero (Option.mem_toList.1 hsecond)
    · exact intRefusal_ne_zero (Option.mem_toList.1 hcode)
    · exact absurd hcode List.not_mem_nil
  | block bytes => exact absurd hcode List.not_mem_nil
  | align => exact absurd hcode List.not_mem_nil

theorem mem_valueSteps {action : DumpAction Number} {code : ℤ} :
    .refuse code ∈ valueSteps D action ↔ code ∈ refusals D action := by
  simp [valueSteps]

theorem putLength_refusals (codes : List ℤ) (steps : List DumpStep) :
    putLength (codes.map .refuse ++ steps) = putLength steps := by
  induction codes with
  | nil => rfl
  | cons code codes ih => exact ih

theorem putLength_valueSteps (action : DumpAction Number) :
    putLength (valueSteps D action) = ((blockOf D action).getD []).length := by
  rw [valueSteps, putLength_refusals]
  cases blockOf D action <;> simp [putLength]

theorem putLength_alignment (count : ℕ) :
    putLength (List.replicate count (.put [0]) ++ [.aligned]) = count := by
  induction count with
  | zero => rfl
  | succ count ih =>
    rw [List.replicate_succ, List.cons_append, putLength, ih, List.length_singleton, Nat.add_comm]

theorem plan_value {action : DumpAction Number} (haction : action ≠ .align) (wrote : ℕ)
    (actions : List (DumpAction Number)) :
    plan D wrote (action :: actions) =
      valueSteps D action ++ plan D (wrote + putLength (valueSteps D action)) actions := by
  rw [putLength_valueSteps]
  cases action with
  | align => exact absurd rfl haction
  | _ => rfl

theorem plan_align (wrote : ℕ) (actions : List (DumpAction Number)) :
    plan D wrote (.align :: actions) =
      (List.replicate (padding wrote) (.put [0]) ++ [.aligned]) ++
        plan D (wrote + putLength (List.replicate (padding wrote) (.put [0]) ++ [.aligned]))
          actions := by
  rw [putLength_alignment, List.append_assoc]
  rfl

/-- Calls run their steps. -/
theorem forM_perform (actions : List (DumpAction Number)) {wrote : ℕ}
    (hwrote : state.status = 0 → state.wrote = wrote) :
    actions.forM (perform D) state =
      ran (runEvents (performStep D.writer) state (plan D wrote actions)) := by
  induction actions generalizing state wrote with
  | nil => rfl
  | cons action actions ih =>
    -- the count that the plan goes on from is the one after a run without an error
    have hcall : ∀ steps, perform D action state =
        ran (runEvents (performStep D.writer) state steps) →
        (∀ code, .refuse code ∈ steps → code ≠ 0) →
        (action :: actions).forM (perform D) state =
          ran (runEvents (performStep D.writer) state
            (steps ++ plan D (wrote + putLength steps) actions)) := by
      intro steps hperform hcodes
      change (perform D action state).bind (fun result ↦ actions.forM (perform D) result.2) = _
      rw [hperform, runEvents_append]
      cases hrun : runEvents (performStep D.writer) state steps with
      | none => rfl
      | some next =>
        refine ih fun hnext ↦ ?_
        obtain ⟨hstatus, hcount⟩ := wrote_of_run steps hcodes hrun hnext
        rw [hcount, hwrote hstatus]
    by_cases haction : action = .align
    · subst haction
      rw [hcall _ (dumpAlign4_eq hwrote) (by simp), plan_align]
    · rw [hcall _ (perform_eq haction state)
        fun code hcode ↦ refusals_ne_zero (mem_valueSteps.1 hcode), plan_value haction]

/-- A whole dump runs its steps. -/
theorem luaUDumpCrosscompile_eq (f : Proto Number) :
    luaUDumpCrosscompile D f =
      (runEvents (performStep D.writer) .start (dumpSteps D f)).map
        fun after ↦ (after.status, after.output) := by
  have hperforms : Performs D (dumpHeader D >>= fun _ ↦ dumpFunction D f none) (dumpActions D f) :=
    (performs_action (.block _)).andThen (dumpFunction_eq f none)
  have hrun := congrFun hperforms .start
  rw [@forM_perform _ _ _ _ 0 fun _ ↦ rfl] at hrun
  change ((dumpHeader D >>= fun _ ↦ dumpFunction D f none) .start).bind
    (fun result ↦ some (result.2.status, result.2.output)) = _
  rw [hrun, dumpSteps]
  cases runEvents (performStep D.writer) .start (plan D 0 (dumpActions D f)) <;> rfl

end Runs

end Elua.Lua
