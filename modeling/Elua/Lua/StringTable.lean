import Elua.Foundation.Buckets
import Elua.Foundation.TransitionSystem
import Elua.Lua.Collector

/-!
# The string table

`lstring.c` interns strings in a table with chaining, and the emergency collector can run in the
middle of it: whenever memory is allocated, a collection may sweep the table, make it smaller and
call finalizers, which intern strings themselves. A state therefore keeps the C calls that wait for
an allocation or for a finalizer as a stack of frames, and a `Move` is what happens between two
points where other code can run. What the collector finds, which strings are marked, how often a
collection runs and what finalizers do is left open.

`Interned` says what the whole virtual machine relies on: no two strings in the table have the same
bytes, the count is right, and every string is in the chain where a lookup searches it.
-/

set_option autoImplicit false
set_option relaxedAutoImplicit false

namespace Elua.Lua.Interning

open Foundation Buckets

/-! ### Strings and the table -/

/-- A string: its bytes, its hash, and its mark bits. -/
structure TableString where
  bytes : List UInt8
  hash : UInt32
  marked : UInt8
  deriving DecidableEq

/-- `stringtable`. -/
structure StringTable where
  hash : List (List TableString)
  nuse : ℕ
  size : ℕ

/-- `MINSTRTABSIZE`. -/
def minStrTabSize : ℕ := 32

/-- `MAX_INT`. -/
def maxInt : ℕ := 2 ^ 31 - 1 - 2

/-- `(MAX_SIZET - sizeof(TString))/sizeof(char)`. -/
def stringLimit : ℕ := 2 ^ 32 - 3 - 16

/-- `lmod`. -/
def lmod (h : UInt32) (size : ℕ) : ℕ := h.toNat &&& (size - 1)

/-- The turns of the loop that computes a hash, for `l1` down to less than `step`. -/
def hashLoop (str : List UInt8) (step : ℕ) : ℕ → ℕ → UInt32 → UInt32
  | 0, _, h => h
  | turns + 1, l1, h =>
    if step ≤ l1 then
      hashLoop str step turns (l1 - step)
        (h ^^^ ((h <<< 5) + (h >>> 2) + (str.getD (l1 - 1) 0).toUInt32))
    else h

/-- The hash of a string. -/
def hashString (str : List UInt8) : UInt32 :=
  hashLoop str (str.length / 32 + 1) str.length str.length (UInt32.ofNat str.length)

/-- `WHITEBITS`. -/
def whiteBits : UInt8 := 0b11

/-- `bitmask(READONLYBIT)`. -/
def readonlyMask : UInt8 := 0b10000000

/-- `maskmarks`: all bits but the colours. -/
def maskMarks : UInt8 := 0b11111000

/-- `otherwhite`. -/
def otherWhite (currentwhite : UInt8) : UInt8 := currentwhite ^^^ whiteBits

/-- `isdead`. -/
def isDead (currentwhite : UInt8) (ts : TableString) : Bool :=
  ts.marked &&& otherWhite currentwhite &&& whiteBits ≠ 0

/-- `sweeplist` for a chain of strings: the survivors, made white. -/
def sweepList (currentwhite : UInt8) (chain : List TableString) : List TableString :=
  (chain.filter fun ts ↦ (ts.marked ^^^ whiteBits) &&& otherWhite currentwhite ≠ 0).map fun ts ↦
    { ts with marked := (ts.marked &&& maskMarks) ||| (currentwhite &&& whiteBits) }

/-- The lookup of `luaS_newlstr_helper` in a chain: the chain with the string that it finds made
alive if it was dead, `none` where there is no such string. -/
def lookup (currentwhite : UInt8) (str : List UInt8) : List TableString → Option (List TableString)
  | [] => none
  | ts :: rest =>
    if ts.bytes = str then
      some ((if isDead currentwhite ts then { ts with marked := ts.marked ^^^ whiteBits } else ts)
        :: rest)
    else (lookup currentwhite str rest).map (ts :: ·)

/-! ### The state -/

/-- The calls in progress: allocations, for an object that is no string, for a greater table in
`luaS_resize` and for a string in `newlstr`; reallocations by the collector, for a smaller table in
`luaS_resize`, for a thread's calls in `atomic` and for the buffer in `checkSizes`; collections by
`luaC_fullgc`, with the root set marked anew or not, and by `luaC_step`; and finalizers. -/
inductive Frame
  | allocating
  | growing (newsize : ℕ) (str : List UInt8) (h : UInt32) (readonly : Bool)
  | creating (str : List UInt8) (h : UInt32) (readonly : Bool)
  | shrinking (newsize : ℕ)
  | marking
  | sizing
  | collecting (marked : Bool)
  | stepping
  | finalizing

/-- The part of `global_State` that matters to the table, and the calls in progress. -/
structure State where
  strt : StringTable
  gcstate : GcState
  sweepstrgc : ℕ
  currentwhite : UInt8
  blockGc : Bool
  resizing : Bool
  frames : List Frame

/-- A call begins. -/
def State.push (g : State) (frame : Frame) : State := { g with frames := frame :: g.frames }

/-- Whether the program or a finalizer runs. -/
def mutating : List Frame → Bool
  | [] | .finalizing :: _ => true
  | _ => false

/-- Whether memory is being allocated. -/
def allocating : List Frame → Bool
  | .allocating :: _ | .growing .. :: _ | .creating .. :: _ => true
  | .shrinking _ :: _ | .marking :: _ | .sizing :: _ => true
  | _ => false

/-- The marks of strings change. -/
def StringTable.remark (strt : StringTable) (marks : TableString → UInt8) : StringTable :=
  { strt with hash := strt.hash.map (·.map fun ts ↦ { ts with marked := marks ts }) }

/-! ### Sweeping and resizing -/

/-- `sweepstrstep`. -/
def sweepstrstep (g : State) : State :=
  let swept := sweepList g.currentwhite (chain g.strt.hash g.sweepstrgc)
  let freed := (chain g.strt.hash g.sweepstrgc).length - swept.length
  { g with
    strt :=
      { g.strt with
        hash := g.strt.hash.modify g.sweepstrgc fun _ ↦ swept
        nuse := g.strt.nuse - freed }
    sweepstrgc := g.sweepstrgc + 1
    gcstate := if g.strt.size ≤ g.sweepstrgc + 1 then .sweep else g.gcstate }

/-- `luaC_sweepstrgc`: whether the sweep of the strings goes on. -/
def luaCSweepstrgc (g : State) : Bool × State :=
  if g.gcstate = .sweepstring then
    let g := sweepstrstep g
    (g.gcstate = .sweepstring, g)
  else (false, g)

/-- The start of `luaS_resize`: whether it goes on to resize the table. -/
def startResize (newsize : ℕ) (g : State) : Bool × State :=
  let (sweeping, g) := luaCSweepstrgc g
  if sweeping ∨ newsize = g.strt.size ∨ g.resizing then (false, g)
  else (true, { g with resizing := true })

/-- The new positions `luaM_reallocvector` adds to the table. -/
def StringTable.extend (strt : StringTable) (newsize : ℕ) : StringTable :=
  { strt with hash := strt.hash ++ List.replicate (newsize - strt.size) [] }

/-- The loop of `luaS_resize` that rehashes. -/
def StringTable.rehash (strt : StringTable) (newsize : ℕ) : StringTable :=
  { strt with hash := Buckets.rehash (fun ts ↦ lmod ts.hash newsize) strt.hash strt.size }

/-- The end of `luaS_resize`, where the table is given back what it has too much. -/
def finishResize (newsize : ℕ) (g : State) : State :=
  { g with
    strt := { g.strt with hash := g.strt.hash.take newsize, size := newsize }
    resizing := false }

/-- `luaS_resize` to a greater size, behind the allocation. -/
def grow (newsize : ℕ) (g : State) : State :=
  finishResize newsize { g with strt := (g.strt.extend newsize).rehash newsize }

/-! ### Interning -/

/-- `newlstr` up to its first allocation. -/
def newlstr (str : List UInt8) (h : UInt32) (readonly : Bool) (g : State) : Option State :=
  if stringLimit < str.length + 1 then none
  else if g.strt.size < g.strt.nuse + 1 ∧ g.strt.size ≤ maxInt / 2 then
    let (resizes, g') := startResize (g.strt.size * 2) g
    if resizes then some (g'.push (.growing (g.strt.size * 2) str h readonly))
    else some (g'.push (.creating str h readonly))
  else some (g.push (.creating str h readonly))

/-- `newlstr` behind the allocation of the string. -/
def link (str : List UInt8) (h : UInt32) (readonly : Bool) (g : State) : State :=
  let ts : TableString :=
    { bytes := str
      hash := h
      marked := (g.currentwhite &&& whiteBits) ||| if readonly then readonlyMask else 0 }
  { g with
    strt :=
      { g.strt with
        hash := g.strt.hash.modify (lmod h g.strt.size) (ts :: ·)
        nuse := g.strt.nuse + 1 } }

/-- `luaS_newlstr_helper`, up to the first allocation if the string is new. -/
def luaSNewlstrHelper (str : List UInt8) (readonly : Bool) (g : State) : Option State :=
  let h := hashString str
  match lookup g.currentwhite str (chain g.strt.hash (lmod h g.strt.size)) with
  | some found =>
    some { g with
      strt := { g.strt with hash := g.strt.hash.modify (lmod h g.strt.size) fun _ ↦ found } }
  | none => newlstr str h readonly g

/-! ### Collections -/

/-- What a turn of a collection finds: whether there is more to do in its phase, whether the next
userdata has a finalizer, the marks after marking, whether the reallocation of a table that is made
smaller returns at once, with neither a collection nor a failure, and whether one of a thread's
calls or of the buffer does. -/
structure Found where
  more : Bool
  hasTm : Bool
  marks : TableString → UInt8
  returns : Bool
  othersReturn : Bool

/-- The test of `checkSizes` for a table that is too big. -/
def StringTable.tooBig (strt : StringTable) : Bool :=
  strt.nuse < strt.size / 4 && minStrTabSize * 2 < strt.size

/-- The rest of `checkSizes`, with the buffer, and the end of the phase `GCSsweep`. -/
def endSweep (found : Found) (g : State) : State :=
  if found.othersReturn then { g with gcstate := .finalize } else g.push .sizing

/-- `checkSizes`. A reallocation that does not return at once leaves the table rehashed and its size
as it was. -/
def checkSizes (found : Found) (g : State) : State :=
  if g.strt.tooBig then
    let newsize := g.strt.size / 2
    let (resizes, g) := startResize newsize g
    if resizes then
      let g := { g with strt := g.strt.rehash newsize }
      if found.returns then endSweep found (finishResize newsize g)
      else g.push (.shrinking newsize)
    else endSweep found g
  else endSweep found g

/-- The end of `atomic`, behind the marking. -/
def endAtomic (g : State) : State :=
  { g with
    currentwhite := otherWhite g.currentwhite
    sweepstrgc := 0
    gcstate := .sweepstring }

/-- `propagatemark` or, when nothing is left to propagate, `atomic`. -/
def propagate (found : Found) (g : State) : State :=
  if found.more then if found.othersReturn then g else g.push .allocating
  else if found.othersReturn then endAtomic g
  else g.push .marking

/-- `singlestep`, up to the call of a finalizer. -/
def singlestep (found : Found) (g : State) : State :=
  match g.gcstate with
  | .pause => { g with strt := g.strt.remark found.marks, gcstate := .propagate }
  | .propagate => propagate found { g with strt := g.strt.remark found.marks }
  | .sweepstring => sweepstrstep g
  | .sweep => if found.more then g else checkSizes found g
  | .finalize =>
    if found.more then if found.hasTm then g.push .finalizing else g
    else { g with gcstate := .pause }

/-- `luaC_fullgc` up to its first turn. -/
def luaCFullgc (g : State) : State :=
  if g.blockGc then g
  else if g.gcstate = .pause ∨ g.gcstate = .propagate then
    { g with
      blockGc := true
      sweepstrgc := 0
      gcstate := .sweepstring
      frames := .collecting false :: g.frames }
  else { g with blockGc := true, frames := .collecting false :: g.frames }

/-- `luaC_step` up to its first turn. -/
def luaCStep (g : State) : State :=
  if g.blockGc then g else { g with blockGc := true, frames := .stepping :: g.frames }

/-- A turn of the loops of `luaC_fullgc`: up to the phase `GCSfinalize`, and from the new marking up
to the pause. -/
def fullTurn (found : Found) (marked : Bool) (rest : List Frame) (g : State) : State :=
  if marked then
    if g.gcstate = .pause then { g with blockGc := false, frames := rest }
    else singlestep found g
  else if g.gcstate = .finalize then
    { g with
      strt := g.strt.remark found.marks
      gcstate := .propagate
      frames := .collecting true :: rest }
  else singlestep found g

/-! ### Moves -/

/-- What can happen between two points where other code may run. -/
inductive Move
  /-- `luaS_newlstr` or `luaS_newrolstr`, with a string that stays in read-only memory or not. -/
  | newlstr (str : List UInt8) (readonly : Bool)
  /-- Another allocation by the program or a finalizer. -/
  | allocate
  /-- The collector is stopped or restarted. -/
  | setBlock (blocked : Bool)
  /-- A write barrier or another change of marks. -/
  | remark (marks : TableString → UInt8)
  /-- `luaC_fullgc`, by the program or in an allocation. -/
  | fullgc
  /-- `luaC_step`, by the program or in an allocation. -/
  | step
  /-- A turn of a collection. -/
  | turn (found : Found)
  /-- The end of `luaC_step`. -/
  | stop
  /-- A finalizer returns. -/
  | finished
  /-- An allocation succeeds, and the call goes on to its next one or returns. -/
  | allocated
  /-- An error, also one of an allocation, ends a number of calls. -/
  | throw (count : ℕ)

/-- The call that waits for an allocation goes on. -/
def resume (g : State) : List Frame → Option State
  | .allocating :: rest => some { g with frames := rest }
  | .growing newsize str h readonly :: rest =>
    some ((grow newsize { g with frames := rest }).push (.creating str h readonly))
  | .creating str h readonly :: rest => some (link str h readonly { g with frames := rest })
  | .shrinking newsize :: rest => some ((finishResize newsize { g with frames := rest }).push .sizing)
  | .marking :: rest => some (endAtomic { g with frames := rest })
  | .sizing :: rest => some { g with gcstate := .finalize, frames := rest }
  | _ => none

/-- One move. -/
def move (g : State) : Move → Option State
  | .newlstr str readonly => if mutating g.frames then luaSNewlstrHelper str readonly g else none
  | .allocate => if mutating g.frames then some (g.push .allocating) else none
  | .setBlock blocked => if mutating g.frames then some { g with blockGc := blocked } else none
  | .remark marks => some { g with strt := g.strt.remark marks }
  | .fullgc => if mutating g.frames ∨ allocating g.frames then some (luaCFullgc g) else none
  | .step => if mutating g.frames ∨ allocating g.frames then some (luaCStep g) else none
  | .turn found =>
    match g.frames with
    | .collecting marked :: rest => some (fullTurn found marked rest g)
    | .stepping :: _ => some (singlestep found g)
    | _ => none
  | .stop =>
    match g.frames with
    | .stepping :: rest => some { g with blockGc := false, frames := rest }
    | _ => none
  | .finished =>
    match g.frames with
    | .finalizing :: rest => some { g with frames := rest }
    | _ => none
  | .allocated => resume g g.frames
  | .throw count =>
    if mutating (g.frames.drop count) then
      some { g with blockGc := false, frames := g.frames.drop count }
    else none

/-- The state when the table has got its first size. -/
def opened : State where
  strt := { hash := List.replicate minStrTabSize [], nuse := 0, size := minStrTabSize }
  gcstate := .pause
  sweepstrgc := 0
  currentwhite := 0b100001
  blockGc := false
  resizing := false
  frames := []

/-- The string table with all that can happen to it. -/
def strings : TransitionSystem State Move :=
  TransitionSystem.ofFunction (· = opened) move

/-! ### What must hold -/

/-- No two strings in the table have the same bytes, `nuse` is their number, and every string is in
the chain that its hash and the size of the table tell. -/
structure Interned (strt : StringTable) : Prop where
  unique : (strt.hash.flatten.map TableString.bytes).Nodup
  nuse : strt.nuse = strt.hash.flatten.length
  placed : Placed (fun ts ↦ lmod (hashString ts.bytes) strt.size) strt.hash

/-- The strings that are looked up already and not yet in the table. -/
def pending (frames : List Frame) : List (List UInt8) :=
  frames.filterMap fun
    | .growing _ str _ _ | .creating str _ _ => some str
    | _ => none

/-- A move with which the table stays as it must be: no string is interned while the same string is
being created, and a table that is made smaller is reallocated without a collection or a failure. -/
def Orderly (g : State) : Move → Prop
  | .newlstr str _ => str ∉ pending g.frames
  | .turn found => g.gcstate = .sweep → found.more = false → g.strt.tooBig = true →
      g.resizing = false → found.returns = true
  | _ => True

instance (g : State) : (event : Move) → Decidable (Orderly g event)
  | .newlstr .. | .turn _ => inferInstanceAs (Decidable (_ → _))
  | .allocate | .setBlock _ | .remark _ | .fullgc | .step | .stop | .finished | .allocated | .throw _ =>
    .isTrue trivial

end Elua.Lua.Interning
