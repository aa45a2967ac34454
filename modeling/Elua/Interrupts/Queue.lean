import Elua.Buf.CharBuffer
import Mathlib.Logic.Function.Basic

/-!
# The Lua interrupt queue

The part of `elua_int.c` that queues interrupts for Lua handlers. `IntState` holds its static
variables, the hooks and whether there is a Lua state. Each coroutine is a state with a hook of its
own, which it takes over from the state that creates it. `eluaIntAdd` is the producer, which runs in
an interrupt. The consumer `elua_int_hook` is given by its separate steps, because an
interrupt may come between any two of them, and because the Lua handler it calls may leave it by an
error.

`RingHolds` says that the slots hold a list of elements from an index on, and that the other slots
are empty. It is kept by the write of the producer (`RingHolds.push`) and by the clearing of the
slot at the index, which moves the index (`RingHolds.pop`).
-/

set_option autoImplicit false
set_option relaxedAutoImplicit false

namespace Elua.Interrupts

open Buf Foundation

/-! ### The state -/

/-- What gets pushed in the interrupt queue. -/
structure IntElement where
  id : ℕ
  resnum : ℕ
  deriving DecidableEq, Repr

/-- `ELUA_INT_EMPTY_SLOT`. -/
def eluaIntEmptySlot : ℕ := 0

/-- `ELUA_INT_FIRST_ID`. -/
def eluaIntFirstId : ℕ := 1

/-- `LUA_INT_MAX_SOURCES`. -/
def luaIntMaxSources : ℕ := 128

/-- What a platform fixes: `PLATFORM_INT_QUEUE_LOG_SIZE` and `INT_ELUA_LAST`. -/
structure IntConfig where
  queueLogSize : ℕ
  intEluaLast : ℕ
  deriving DecidableEq, Repr

/-- The static variables, the hooks of the main state (zero) and of the coroutines, and whether there
is a Lua state. -/
structure IntState where
  readIdx : ℕ
  writeIdx : ℕ
  queue : ℕ → IntElement
  flags : ℕ → ℕ
  hook : ℕ → Bool
  running : Bool

/-- The state at the start: there is no Lua state yet. -/
def IntState.initial : IntState := ⟨0, 0, fun _ ↦ ⟨0, 0⟩, fun _ ↦ 0, fun _ ↦ false, false⟩

/-! ### Sources -/

/-- `elua_int_enable`. -/
def eluaIntEnable (state : IntState) (inttype : ℕ) : IntState :=
  if inttype < luaIntMaxSources then
    let word := state.flags (inttype >>> 5) ||| 1 <<< (inttype &&& 0x1F)
    { state with flags := Function.update state.flags (inttype >>> 5) word }
  else state

/-- `elua_int_disable`. -/
def eluaIntDisable (state : IntState) (inttype : ℕ) : IntState :=
  if inttype < luaIntMaxSources then
    let word := state.flags (inttype >>> 5) &&& ((2 ^ 32 - 1) ^^^ 1 <<< (inttype &&& 0x1F))
    { state with flags := Function.update state.flags (inttype >>> 5) word }
  else state

/-- `elua_int_is_enabled`. -/
def eluaIntIsEnabled (state : IntState) (inttype : ℕ) : Bool :=
  if inttype < luaIntMaxSources then
    state.flags (inttype >>> 5) &&& 1 <<< (inttype &&& 0x1F) != 0
  else false

/-! ### The producer -/

/-- The index behind an index, stored in eight bits. -/
def nextIdx (config : IntConfig) (idx : ℕ) : ℕ :=
  ((idx + 1) &&& (1 <<< config.queueLogSize - 1)) % 2 ^ 8

/-- The ids of interrupts. -/
def isSource (config : IntConfig) (inttype : ℕ) : Prop :=
  eluaIntFirstId ≤ inttype ∧ inttype ≤ config.intEluaLast

instance (config : IntConfig) (inttype : ℕ) : Decidable (isSource config inttype) :=
  inferInstanceAs (Decidable (_ ∧ _))

/-- `elua_int_add`: queue an interrupt and set the hook of the main state. -/
def eluaIntAdd (config : IntConfig) (state : IntState) (inttype resnum : ℕ) :
    PlatformStatus × IntState :=
  if ¬ isSource config inttype then (.err, state)
  else if state.running = false ∨ eluaIntIsEnabled state inttype = false then (.err, state)
  else if (state.queue state.writeIdx).id ≠ eluaIntEmptySlot then (.err, state)
  else
    (.ok, { state with
      queue := Function.update state.queue state.writeIdx ⟨inttype, resnum⟩
      writeIdx := nextIdx config state.writeIdx
      hook := Function.update state.hook 0 true })

theorem isSource.ne_empty {config : IntConfig} {inttype : ℕ} (hsource : isSource config inttype) :
    inttype ≠ eluaIntEmptySlot := by
  have hfirst := hsource.1
  rw [eluaIntFirstId] at hfirst
  rw [eluaIntEmptySlot]
  omega

/-- What `elua_int_add` can do. -/
theorem eluaIntAdd_cases (config : IntConfig) (state : IntState) (inttype resnum : ℕ) :
    eluaIntAdd config state inttype resnum = (.err, state) ∨
      isSource config inttype ∧ state.running = true ∧ eluaIntIsEnabled state inttype = true ∧
        (state.queue state.writeIdx).id = eluaIntEmptySlot ∧
        eluaIntAdd config state inttype resnum =
          (.ok, { state with
            queue := Function.update state.queue state.writeIdx ⟨inttype, resnum⟩
            writeIdx := nextIdx config state.writeIdx
            hook := Function.update state.hook 0 true }) := by
  rw [eluaIntAdd]
  split_ifs with hsource hdisabled hfull
  · exact .inl rfl
  · exact .inl rfl
  · rw [not_or, Bool.not_eq_false, Bool.not_eq_false] at hdisabled
    exact .inr ⟨hsource, hdisabled.1, hdisabled.2, not_not.mp hfull, rfl⟩
  · exact .inl rfl

/-! ### The consumer -/

/-- `elua_int_hook`: get the interrupt. -/
def hookFetch (state : IntState) : IntElement := state.queue state.readIdx

/-- `elua_int_hook`: the slot becomes empty. -/
def hookClear (state : IntState) : IntState :=
  let slot := { state.queue state.readIdx with id := eluaIntEmptySlot }
  { state with queue := Function.update state.queue state.readIdx slot }

/-- `elua_int_hook`: the read index moves on. -/
def hookAdvance (config : IntConfig) (state : IntState) : IntState :=
  { state with readIdx := nextIdx config state.readIdx }

/-- `elua_int_hook`: with no more interrupts in the queue, the hook of the running state is cleared.
Interrupts are disabled here. -/
def hookFinish (L : ℕ) (state : IntState) : IntState :=
  if (state.queue state.readIdx).id = eluaIntEmptySlot then
    { state with hook := Function.update state.hook L false }
  else state

/-! ### The Lua state -/

/-- `luaE_newthread`: a coroutine takes the hook of the state that creates it over. -/
def luaENewthread (state : IntState) (L L1 : ℕ) : IntState :=
  { state with hook := Function.update state.hook L1 (state.hook L) }

/-- The part of `lua_close` that runs with interrupts disabled, with `elua_int_cleanup`. No coroutine
runs from then on. -/
def luaClose (state : IntState) : IntState :=
  { state with
    hook := fun _ ↦ false, running := false, flags := fun _ ↦ 0, readIdx := 0, writeIdx := 0
    queue := fun _ ↦ ⟨eluaIntEmptySlot, 0⟩ }

/-- `lua_open`: a new Lua state has no hook. -/
def luaOpen (state : IntState) : IntState :=
  { state with hook := fun _ ↦ false, running := true }

/-! ### The ring of slots -/

/-- The number of slots that the indexes reach. -/
def queueSize (config : IntConfig) : ℕ := 2 ^ min config.queueLogSize 8

theorem queueSize_pos (config : IntConfig) : 0 < queueSize config := Nat.two_pow_pos _

/-- Indexes run around the ring. -/
theorem nextIdx_eq {config : IntConfig} {idx : ℕ} (hidx : idx < queueSize config) :
    nextIdx config idx = (idx + 1) % queueSize config := by
  rw [nextIdx, Nat.one_shiftLeft, Nat.and_two_pow_sub_one_eq_mod]
  rw [queueSize] at *
  by_cases hsmall : config.queueLogSize ≤ 8
  · rw [Nat.min_eq_left hsmall] at *
    have hle : 2 ^ config.queueLogSize ≤ 2 ^ 8 := Nat.pow_le_pow_right Nat.zero_lt_two hsmall
    exact Nat.mod_eq_of_lt (lt_of_lt_of_le (Nat.mod_lt _ (Nat.two_pow_pos _)) hle)
  · have hlarge : 8 ≤ config.queueLogSize := Nat.le_of_not_le hsmall
    rw [Nat.min_eq_right hlarge] at *
    have hle : 2 ^ 9 ≤ 2 ^ config.queueLogSize :=
      Nat.pow_le_pow_right Nat.zero_lt_two (Nat.lt_of_not_le hsmall)
    rw [Nat.mod_eq_of_lt (show idx + 1 < 2 ^ config.queueLogSize by omega)]

/-- The slots from an index on hold the elements, and the others are empty. -/
structure RingHolds (queue : ℕ → IntElement) (size start : ℕ) (pending : List IntElement) :
    Prop where
  length_le : pending.length ≤ size
  window : ringWindow queue size start pending.length = pending
  empty : ∀ index, pending.length ≤ index → index < size →
    (queue ((start + index) % size)).id = eluaIntEmptySlot
  used : ∀ element ∈ pending, element.id ≠ eluaIntEmptySlot

section Ring

variable {queue : ℕ → IntElement} {size start : ℕ} {pending : List IntElement}

/-- The slot behind the elements is empty unless the ring is full. -/
theorem RingHolds.full_iff (hring : RingHolds queue size start pending) (hsize : 0 < size) :
    (queue ((start + pending.length) % size)).id ≠ eluaIntEmptySlot ↔ pending.length = size := by
  constructor
  · intro hused
    by_contra hroom
    exact hused (hring.empty _ (Nat.le_refl _) (Nat.lt_of_le_of_ne hring.length_le hroom))
  · intro hfull
    rw [hfull, Nat.add_mod_right]
    have hwindow := hring.window
    obtain ⟨first, rest, rfl⟩ := List.exists_cons_of_length_pos (hfull ▸ hsize)
    rw [List.length_cons, ringWindow_succ] at hwindow
    rw [(List.cons.inj hwindow).1]
    exact hring.used first List.mem_cons_self

/-- The first slot holds the first element. -/
theorem RingHolds.head_eq {first : IntElement} {rest : List IntElement}
    (hring : RingHolds queue size start (first :: rest)) : queue (start % size) = first := by
  have hwindow := hring.window
  rw [List.length_cons, ringWindow_succ] at hwindow
  exact (List.cons.inj hwindow).1

/-- The first slot is empty if there is no element. -/
theorem RingHolds.head_empty (hring : RingHolds queue size start []) (hsize : 0 < size) :
    (queue (start % size)).id = eluaIntEmptySlot := by
  have hempty := hring.empty 0 (Nat.le_refl _) hsize
  rwa [Nat.add_zero] at hempty

/-- An element is written behind the others. -/
theorem RingHolds.push (hring : RingHolds queue size start pending)
    (hroom : pending.length < size) {element : IntElement} (helement : element.id ≠ eluaIntEmptySlot) :
    RingHolds (Function.update queue ((start + pending.length) % size) element) size start
      (pending ++ [element]) := by
  refine ⟨?_, ?_, fun index hlow hhigh ↦ ?_, ?_⟩
  · rw [List.length_append]
    exact hroom
  · have hother : ∀ position, position < size → position ≠ (start + pending.length) % size →
        Function.update queue ((start + pending.length) % size) element position =
          queue position := by
      intro position _ hne
      exact Function.update_of_ne hne element queue
    rw [List.length_append, List.length_singleton, ringWindow_append queue hroom hother,
      hring.window, Function.update_self]
  · rw [List.length_append, List.length_singleton] at hlow
    have hne : (start + index) % size ≠ (start + pending.length) % size :=
      (ringSlot_ne start hlow hhigh).symm
    rw [Function.update_of_ne hne]
    exact hring.empty index (by omega) hhigh
  · intro other hother
    obtain hother | hother := List.mem_append.mp hother
    · exact hring.used other hother
    · rw [List.mem_singleton.mp hother]
      exact helement

/-- The first slot is cleared. -/
theorem RingHolds.pop {first : IntElement} {rest : List IntElement}
    (hring : RingHolds queue size start (first :: rest)) (cleared : IntElement)
    (hcleared : cleared.id = eluaIntEmptySlot) :
    RingHolds (Function.update queue (start % size) cleared) size (start + 1) rest := by
  have hlength := hring.length_le
  rw [List.length_cons] at hlength
  have hother : ∀ index < size - 1, Function.update queue (start % size) cleared
      ((start + 1 + index) % size) = queue ((start + 1 + index) % size) := by
    intro index hindex
    have hne : (start + 0) % size ≠ (start + (1 + index)) % size :=
      ringSlot_ne start (by omega) (by omega)
    rw [Nat.add_zero, ← Nat.add_assoc] at hne
    exact Function.update_of_ne hne.symm cleared queue
  refine ⟨by omega, ?_, fun index hlow hhigh ↦ ?_, fun element helement ↦
    hring.used element (List.mem_cons_of_mem _ helement)⟩
  · have hwindow := hring.window
    rw [List.length_cons, ringWindow_succ] at hwindow
    rw [← (List.cons.inj hwindow).2]
    simp only [length_ringWindow]
    exact ringWindow_congr fun index hindex ↦ hother index (by omega)
  · by_cases hlast : index = size - 1
    · have hsame : (start + 1 + index) % size = start % size := by
        rw [hlast, Nat.add_assoc, Nat.add_sub_cancel' (by omega), Nat.add_mod_right]
      rw [hsame, Function.update_self, hcleared]
    · rw [hother index (by omega), Nat.add_assoc, Nat.add_comm 1]
      exact hring.empty (index + 1) (by rw [List.length_cons]; omega) (by omega)

/-- The index may be reduced to a slot. -/
theorem RingHolds.mod (hring : RingHolds queue size start pending) :
    RingHolds queue size (start % size) pending := by
  refine ⟨hring.length_le, ?_, fun index hlow hhigh ↦ ?_, hring.used⟩
  · rw [ringWindow_mod]
    exact hring.window
  · rw [Nat.mod_add_mod]
    exact hring.empty index hlow hhigh

/-- The slots that are not empty are those of the elements. -/
theorem RingHolds.used_iff (hring : RingHolds queue size start pending) {index : ℕ}
    (hindex : index < size) :
    (queue index).id ≠ eluaIntEmptySlot ↔
      ∃ offset < pending.length, index = (start + offset) % size := by
  obtain ⟨offset, hlt, rfl⟩ := ringSlot_offset start hindex
  constructor
  · intro hused
    refine ⟨offset, ?_, rfl⟩
    by_contra hbeyond
    exact hused (hring.empty offset (Nat.le_of_not_lt hbeyond) hlt)
  · rintro ⟨other, hother, hsame⟩
    have hwindow := hring.window
    have helement : queue ((start + other) % size) ∈ pending := by
      rw [← hwindow]
      exact List.mem_map.mpr ⟨other, List.mem_range.mpr hother, rfl⟩
    rw [hsame]
    exact hring.used _ helement

end Ring

end Elua.Interrupts
