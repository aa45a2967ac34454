import Elua.Lua.Proto

/-!
# Saving precompiled chunks

`ldump.c`. A dump runs over a `DumpState`: the status, the count `wrote`, and the blocks handed to
the writer so far. The writer answers each block with a status, and its answer may depend on every
block before; a status other than zero stops the output but not the dump. `luaUDumpCrosscompile`
is the whole dump. The computations are partial: `Align4` counts on `DumpChar` to advance `wrote`,
which it does not do after an error, so that an error can keep it from ever returning.
-/

set_option autoImplicit false
set_option relaxedAutoImplicit false

namespace Elua.Lua

open Elua.Foundation

/-- `LUA_ERR_CC_INTOVERFLOW`: a target integer is too small to hold a value. -/
def luaErrCcIntoverflow : ℤ := 101

/-- `LUA_ERR_CC_NOTINTEGER`: the target's numbers are integral but a constant is not. -/
def luaErrCcNotinteger : ℤ := 102

/-- What changes in a dump: its status, the bytes counted and the blocks written. -/
structure DumpState where
  status : ℤ
  wrote : ℕ
  blocks : List (List UInt8)

/-- The bytes written. -/
def DumpState.output (state : DumpState) : List UInt8 := state.blocks.flatten

/-- What stays the same in a dump: the host, the writer, whether debug information is stripped, and
the target. -/
structure Dumper (Number : Type) where
  host : Host Number
  writer : List (List UInt8) → ℤ
  strip : Bool
  target : DumpTargetInfo

/-- A part of a dump; `none` where it never returns. -/
abbrev Dump := StateT DumpState Option

variable {Number : Type} (D : Dumper Number)

/-- `D->status = code`. -/
def setStatus (code : ℤ) : Dump Unit := modify fun state ↦ { state with status := code }

/-- `DumpBlock`. -/
def dumpBlock (block : List UInt8) : Dump Unit :=
  modify fun state ↦
    if state.status = 0 then
      { status := D.writer (state.blocks ++ [block])
        wrote := state.wrote + block.length
        blocks := state.blocks ++ [block] }
    else
      state

/-- `DumpChar`. -/
def dumpChar (y : UInt8) : Dump Unit := dumpBlock D [y]

/-- `Align4`, with as many turns of its loop as it can take. -/
def align4Loop : ℕ → Dump Unit
  | 0 => fun _ ↦ none
  | turns + 1 => do
    let state ← get
    if state.wrote % 4 = 0 then
      pure ()
    else
      dumpChar D 0
      align4Loop turns

/-- `Align4`. Three characters align any count, so a loop that is not over by then never is
(`align4Loop_eq`). -/
def dumpAlign4 : Dump Unit := align4Loop D 4

section Align4

variable {state : DumpState}

theorem align4Loop_aligned (haligned : state.wrote % 4 = 0) (turns : ℕ) :
    align4Loop D (turns + 1) state = some ((), state) := by
  change (if state.wrote % 4 = 0 then _ else _ : Dump Unit) state = _
  rw [if_pos haligned]
  rfl

theorem align4Loop_turn (haligned : ¬ state.wrote % 4 = 0) (turns : ℕ) :
    align4Loop D (turns + 1) state = (dumpChar D 0 >>= fun _ ↦ align4Loop D turns) state := by
  change (if state.wrote % 4 = 0 then _ else _ : Dump Unit) state = _
  rw [if_neg haligned]

/-- After an error the loop makes no progress. -/
theorem align4Loop_stuck (haligned : ¬ state.wrote % 4 = 0) (hstatus : ¬ state.status = 0)
    (turns : ℕ) : align4Loop D turns state = none := by
  induction turns with
  | zero => rfl
  | succ turns ih =>
    rw [align4Loop_turn D haligned]
    change align4Loop D turns (if state.status = 0 then _ else state) = none
    rw [if_neg hstatus, ih]

/-- More turns than there are characters missing change nothing. -/
theorem align4Loop_enough (turns : ℕ) (state : DumpState)
    (henough : (4 - state.wrote % 4) % 4 < turns) (more : ℕ) :
    align4Loop D (turns + more) state = align4Loop D turns state := by
  induction turns generalizing state with
  | zero => omega
  | succ turns ih =>
    rw [Nat.succ_add]
    by_cases haligned : state.wrote % 4 = 0
    · rw [align4Loop_aligned D haligned, align4Loop_aligned D haligned]
    · by_cases hstatus : state.status = 0
      · rw [align4Loop_turn D haligned, align4Loop_turn D haligned]
        change align4Loop D (turns + more) (if state.status = 0 then _ else state) =
          align4Loop D turns (if state.status = 0 then _ else state)
        rw [if_pos hstatus]
        apply ih
        change (4 - (state.wrote + 1) % 4) % 4 < turns
        omega
      · rw [align4Loop_stuck D haligned hstatus, align4Loop_stuck D haligned hstatus]

/-- The turns that `dumpAlign4` allows are all the loop can use. -/
theorem align4Loop_eq {turns : ℕ} (hturns : 4 ≤ turns) : align4Loop D turns = dumpAlign4 D := by
  funext state
  have henough := align4Loop_enough D 4 state (Nat.mod_lt _ (by decide)) (turns - 4)
  rwa [Nat.add_sub_cancel' hturns] at henough

end Align4

/-- `MaybeByteSwap`. -/
def maybeByteSwap (number : List UInt8) : List UInt8 :=
  if D.host.littleEndian = D.target.littleEndian then number else number.reverse

/-- `DumpVar` of a number of `width` bytes, swapped where the target needs it. -/
def dumpSwapped (width value : ℕ) : Dump Unit :=
  dumpBlock D (maybeByteSwap D (inMemory D.host.littleEndian width value))

/-- `DumpIntWithSize`. -/
def dumpIntWithSize (x : ℤ) (sizeofInt : ℕ) : Dump Unit :=
  match sizeofInt with
  | 1 => do
    if x > 0x7F ∨ x < -0x80 then setStatus luaErrCcIntoverflow
    dumpChar D (UInt8.ofNat (residue 1 x))
  | 2 => do
    if x > 0x7FFF ∨ x < -0x8000 then setStatus luaErrCcIntoverflow
    dumpSwapped D 2 (residue 2 x)
  | 4 => do
    if x > 0x7FFFFFFE ∨ x < -0x7FFFFFFF then setStatus luaErrCcIntoverflow
    dumpSwapped D 4 (residue 4 x)
  | _ => pure ()

/-- `DumpInt`. -/
def dumpInt (x : ℤ) : Dump Unit := dumpIntWithSize D x D.target.sizeofInt

/-- `DumpSize`; the argument is a `uint32_t`. -/
def dumpSize (x : ℕ) : Dump Unit :=
  match D.target.sizeofStrsizeT with
  | 1 => do
    if x > 0xFF then setStatus luaErrCcIntoverflow
    dumpChar D (UInt8.ofNat x)
  | 2 => do
    if x > 0xFFFF then setStatus luaErrCcIntoverflow
    dumpSwapped D 2 x
  | 4 => do
    if x > 0xFFFFFFFE then setStatus luaErrCcIntoverflow
    dumpSwapped D 4 x
  | _ => pure ()

/-- Swapping the halves of a double in memory, for ARM FPA. -/
def swapHalves (number : List UInt8) : List UInt8 := number.drop 4 ++ number.take 4

/-- `DumpNumber`. -/
def dumpNumber (x : Number) : Dump Unit :=
  if D.host.integral then
    dumpIntWithSize D (D.host.toInt x) D.target.sizeofLuaNumber
  else if D.target.luaNumberIntegral then do
    if D.host.equalsFloatOfInt x = false then setStatus luaErrCcNotinteger
    dumpIntWithSize D (D.host.toInt x) D.target.sizeofLuaNumber
  else
    match D.target.sizeofLuaNumber with
    | 4 => dumpSwapped D 4 (D.host.toFloat x).toNat
    | 8 =>
      let y := inMemory D.host.littleEndian 8 (D.host.toDouble x).toNat
      dumpBlock D (maybeByteSwap D (if D.target.isArmFpa then swapHalves y else y))
    | _ => pure ()

/-- `DumpCode`. -/
def dumpCode (f : FunctionBody Number) : Dump Unit := do
  dumpInt D f.code.length
  dumpAlign4 D
  f.code.forM fun instruction ↦ dumpSwapped D sizeofInstruction instruction.toNat

/-- `DumpString`. The size is a `strsize_t`, so it is one more than the length modulo `2 ^ 32`; the
block is read from the characters and the `'\0'` behind them. -/
def dumpString : TString → Dump Unit
  | none => dumpSize D 0
  | some s => do
    let size := (s.length % 2 ^ 32 + 1) % 2 ^ 32
    dumpSize D size
    dumpBlock D ((s ++ [0]).take size)

/-- The part of `DumpConstants` for one constant. -/
def dumpConstant (o : Constant Number) : Dump Unit := do
  dumpChar D o.ttype
  match o with
  | .nil => pure ()
  | .boolean value => dumpChar D (if value then 1 else 0)
  | .number x => dumpNumber D x
  | .string s => dumpString D s

/-- `DumpConstants`; the functions defined inside are dumped by `dumpFunctions`. -/
def dumpConstants (f : FunctionBody Number) (sizep : ℕ) (dumpFunctions : Dump Unit) : Dump Unit := do
  dumpInt D f.k.length
  f.k.forM (dumpConstant D)
  dumpInt D sizep
  dumpFunctions

/-- The part of `DumpDebug` for one local variable. -/
def dumpLocVar (locvar : LocVar) : Dump Unit := do
  dumpString D locvar.varname
  dumpInt D locvar.startpc
  dumpInt D locvar.endpc

/-- `DumpDebug`. -/
def dumpDebug (f : FunctionBody Number) : Dump Unit := do
  let lineinfo := if D.strip then [] else f.lineinfo
  dumpInt D lineinfo.length
  dumpAlign4 D
  lineinfo.forM (dumpInt D)
  let locvars := if D.strip then [] else f.locvars
  dumpInt D locvars.length
  locvars.forM (dumpLocVar D)
  let upvalues := if D.strip then [] else f.upvalues
  dumpInt D upvalues.length
  upvalues.forM (dumpString D)

mutual

/-- `DumpFunction`. -/
def dumpFunction : Proto Number → TString → Dump Unit
  | .mk f fs, p => do
    dumpString D (if f.source = p ∨ D.strip then none else f.source)
    dumpInt D f.linedefined
    dumpInt D f.lastlinedefined
    dumpChar D f.nups
    dumpChar D f.numparams
    dumpChar D f.isVararg
    dumpChar D f.maxstacksize
    dumpCode D f
    dumpConstants D f fs.length (dumpFunctions fs f.source)
    dumpDebug D f

/-- The loop of `DumpConstants` over the functions defined inside a function. -/
def dumpFunctions : List (Proto Number) → TString → Dump Unit
  | [], _ => pure ()
  | f :: fs, p => do
    dumpFunction f p
    dumpFunctions fs p

end

/-- The bytes of a header for a target. -/
def headerBytes (target : DumpTargetInfo) : List UInt8 :=
  luaSignature ++
    [luacVersion, luacFormat, if target.littleEndian then 1 else 0, UInt8.ofNat target.sizeofInt,
      UInt8.ofNat target.sizeofStrsizeT, UInt8.ofNat sizeofInstruction,
      UInt8.ofNat target.sizeofLuaNumber, if target.luaNumberIntegral then 1 else 0]

/-- `DumpHeader`. -/
def dumpHeader : Dump Unit := dumpBlock D (headerBytes D.target)

/-- `luaU_dump_crosscompile`: the status and the bytes written, `none` where the dump never
returns. -/
def luaUDumpCrosscompile (f : Proto Number) : Option (ℤ × List UInt8) := do
  let dump : Dump Unit := do
    dumpHeader D
    dumpFunction D f none
  let (_, state) ← dump.run { status := 0, wrote := 0, blocks := [] }
  pure (state.status, state.output)

variable {D}

/-- What a dump returns it has from its last state. -/
theorem exists_of_luaUDumpCrosscompile {f : Proto Number} {status : ℤ} {output : List UInt8}
    (hdump : luaUDumpCrosscompile D f = some (status, output)) :
    ∃ after, (dumpHeader D >>= fun _ ↦ dumpFunction D f none)
        { status := 0, wrote := 0, blocks := [] } = some ((), after) ∧
      after.status = status ∧ after.output = output := by
  cases hrun : (dumpHeader D >>= fun _ ↦ dumpFunction D f none)
      { status := 0, wrote := 0, blocks := [] } with
  | none =>
    have : luaUDumpCrosscompile D f = none := by
      change (((dumpHeader D >>= fun _ ↦ dumpFunction D f none)
        { status := 0, wrote := 0, blocks := [] }) >>= _) = none
      rw [hrun]
      rfl
    rw [this] at hdump
    cases hdump
  | some result =>
    have : luaUDumpCrosscompile D f = some (result.2.status, result.2.output) := by
      change (((dumpHeader D >>= fun _ ↦ dumpFunction D f none)
        { status := 0, wrote := 0, blocks := [] }) >>= _) = _
      rw [hrun]
      rfl
    rw [this] at hdump
    cases hdump
    exact ⟨result.2, rfl, rfl, rfl⟩

end Elua.Lua
