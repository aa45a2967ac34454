import Elua.Foundation.Loop
import Elua.Timers.ElapsedTime

/-!
# Reading from a UART

`uart_read` receives characters in one loop for all formats: up to a line end, a number, up to a
white space, or up to a number of characters. Each character is asked for without waiting at first,
and then with the timeout of the call.

A run is a sequence of calls that return, one behind the other on the same line. It partitions the
line if each call takes from it exactly the string that it returns and at most one terminator behind
it (`RunRight`). The size is compared behind each character that has been stored, so a size of zero
is never met: a run partitions the line exactly if each call with a size of zero finds no character
(`runRight_iff_calls`). -/

set_option autoImplicit false
set_option relaxedAutoImplicit false

namespace Elua.Uart

open Foundation Timers

/-! ### The line -/

/-- What the receiver finds when it looks for a character, and whether the time is over behind a look
that has found nothing. -/
inductive Poll
  | char (c : UInt8)
  | nothing (expired : Bool)
  deriving DecidableEq

/-- What the looks for a character will find, one after the other. -/
abbrev RecvLine := List Poll

/-- The character of a look. -/
def Poll.received : Poll → Option UInt8
  | .char c => some c
  | .nothing _ => none

/-- The characters that are received. -/
def stream (line : RecvLine) : List UInt8 := line.filterMap Poll.received

/-! ### The code -/

/-- `PLATFORM_TIMER_INF_TIMEOUT`. -/
def platformTimerInfTimeout (width : TimerWidth) : ℕ := platformTimerSysMax width + 1

/-- The timers of the build, and whether the UART can be read: it has a buffer or is a physical
one. -/
structure UartPort where
  width : TimerWidth
  readable : Bool

/-- A look for a character. -/
def pollChar : RecvLine → Option UInt8 × RecvLine
  | [] => (none, [])
  | .char c :: line => (some c, line)
  | .nothing _ :: line => (none, line)

/-- Waits for a character. There is no result if none comes. -/
def waitChar : RecvLine → Option (UInt8 × RecvLine)
  | [] => none
  | .char c :: line => some (c, line)
  | .nothing _ :: line => waitChar line

/-- `cmn_recv_helper`. -/
def cmnRecvHelper (port : UartPort) (timeout : ℕ) (line : RecvLine) :
    Option (Option UInt8 × RecvLine) :=
  if port.readable then
    if timeout = 0 then some (pollChar line)
    else (waitChar line).map fun found ↦ (some found.1, found.2)
  else some (none, line)

/-- Looks for a character up to the time at which the timer expires. -/
def recvTimed : RecvLine → Option UInt8 × RecvLine
  | [] => (none, [])
  | .char c :: line => (some c, line)
  | .nothing expired :: line => if expired then (none, line) else recvTimed line

/-- `platform_uart_recv`. -/
def platformUartRecv (port : UartPort) (timeout : ℕ) (line : RecvLine) :
    Option (Option UInt8 × RecvLine) :=
  if timeout = 0 then cmnRecvHelper port timeout line
  else if timeout = platformTimerInfTimeout port.width then cmnRecvHelper port timeout line
  else some (if port.readable then recvTimed line else (none, line))

/-- The modes of `uart_read`, the last with its size. -/
inductive ReadMode
  | line
  | number
  | space
  | maxsize (size : BitVec 32)
  deriving DecidableEq

/-- The format of a call: a number, or a string. -/
inductive ReadFormat
  | size (maxsize : BitVec 32)
  | text (fmt : List UInt8)
  deriving DecidableEq

/-- The mode for a format. -/
def ReadFormat.mode : ReadFormat → Except String ReadMode
  | .size maxsize => if maxsize.slt 0 then .error "invalid max size" else .ok (.maxsize maxsize)
  | .text fmt =>
    if fmt = [42, 108] then .ok .line
    else if fmt = [42, 110] then .ok .number
    else if fmt = [42, 115] then .ok .space
    else .error "invalid format"

/-- `isdigit`. -/
def isdigit (c : UInt8) : Bool := 48 ≤ c && c ≤ 57

/-- `isspace`. -/
def isspace (c : UInt8) : Bool := c = 32 || 9 ≤ c && c ≤ 13

/-- The two steps in which a character is received. -/
def receiveChar (port : UartPort) (timeout : ℕ) (line : RecvLine) :
    Option (Option UInt8 × RecvLine) :=
  (platformUartRecv port 0 line).bind fun first ↦
    if first.1 = none ∧ 0 < timeout then platformUartRecv port timeout first.2 else some first

/-- The variables of the loop of `uart_read`. -/
structure Reading where
  count : BitVec 32
  text : List UInt8
  line : RecvLine
  deriving DecidableEq

/-- Whether a character ends the loop before it is stored. -/
def endsRead (mode : ReadMode) (count : BitVec 32) (c : UInt8) : Bool :=
  let issign := count = 1 && (c = 45 || c = 43)
  c = 10 && mode = .line || !isdigit c && !issign && mode = .number || isspace c && mode = .space

/-- A pass of the loop. -/
def readBody (port : UartPort) (mode : ReadMode) (timeout : ℕ) (state : Reading) :
    Option (Reading ⊕ Reading) :=
  (receiveChar port timeout state.line).map fun received ↦
    match received.1 with
    | none => .inr { state with line := received.2 }
    | some c =>
      let count := state.count + 1
      if endsRead mode count c then .inr { state with count := count, line := received.2 }
      else
        let stored : Reading := ⟨count, state.text ++ [c], received.2⟩
        if mode = .maxsize count then .inr stored else .inl stored

/-- `uart_read`, up to the conversion of a number: the error that it raises, or what its loop leaves
with. -/
def uartRead (fuel : ℕ) (port : UartPort) (format : ReadFormat) (timeout : ℕ) (line : RecvLine) :
    Option (Except String Reading) :=
  match format.mode with
  | .error message => some (.error message)
  | .ok mode => (runLoop (readBody port mode timeout) fuel ⟨0, [], line⟩).map .ok

/-! ### Runs -/

/-- A call that has returned, with its mode, its text and the line that it has left. -/
structure ReadCall where
  format : ReadFormat
  mode : ReadMode
  timeout : ℕ
  text : List UInt8
  rest : RecvLine

/-- The call returns the text and leaves the rest of the line. -/
def ReadCall.Returns (port : UartPort) (line : RecvLine) (call : ReadCall) : Prop :=
  call.format.mode = .ok call.mode ∧ ∃ fuel count,
    uartRead fuel port call.format call.timeout line = some (.ok ⟨count, call.text, call.rest⟩)

/-- Calls that return strings, one behind the other. -/
def IsReadRun (port : UartPort) : RecvLine → List ReadCall → Prop
  | _, [] => True
  | line, call :: calls =>
    call.mode ≠ .number ∧ call.Returns port line ∧ IsReadRun port call.rest calls

/-- The characters that end a call in the modes for lines and words. -/
def ReadMode.terminator : ReadMode → UInt8 → Bool
  | .line, c => c = 10
  | .space, c => isspace c
  | _, _ => false

/-- A call takes its text from the line, and the first terminator if it comes to one. In the mode
with a size the text is not longer than the size. -/
structure ReadCall.Right (line : RecvLine) (call : ReadCall) : Prop where
  clean : ∀ c ∈ call.text, call.mode.terminator c = false
  taken : ∃ ended : Option UInt8, (∀ c ∈ ended, call.mode.terminator c = true) ∧
    stream line = call.text ++ ended.toList ++ stream call.rest
  short : ∀ size, call.mode = .maxsize size → call.text.length ≤ size.toNat

/-- Every call of a run is right. -/
def RunRight : RecvLine → List ReadCall → Prop
  | _, [] => True
  | line, call :: calls => call.Right line ∧ RunRight call.rest calls

/-- A call with a size of zero receives no character. -/
def FindsNothing (port : UartPort) (line : RecvLine) (call : ReadCall) : Prop :=
  call.mode = .maxsize 0 → ∀ c rest, receiveChar port call.timeout line ≠ some (some c, rest)

/-- Every call of a run with a size of zero receives no character. -/
def ZeroSizesFindNothing (port : UartPort) : RecvLine → List ReadCall → Prop
  | _, [] => True
  | line, call :: calls =>
    FindsNothing port line call ∧ ZeroSizesFindNothing port call.rest calls

/-! ### Receiving -/

section Receiving

variable {port : UartPort} {timeout : ℕ} {line rest : RecvLine} {found : Option UInt8} {c : UInt8}

/-- What has been found is taken from the line, and nothing else that has been received. -/
structure Takes (line : RecvLine) (found : Option UInt8) (rest : RecvLine) : Prop where
  stream_eq : stream line = found.toList ++ stream rest
  length_le : rest.length + found.toList.length ≤ line.length

theorem Takes.refl (line : RecvLine) : Takes line none line := ⟨rfl, le_rfl⟩

theorem Takes.trans {middle : RecvLine} (hfirst : Takes line none middle)
    (hsecond : Takes middle found rest) : Takes line found rest :=
  ⟨hfirst.stream_eq.trans hsecond.stream_eq, hsecond.length_le.trans hfirst.length_le⟩

theorem takes_char (c : UInt8) (line : RecvLine) : Takes (.char c :: line) (some c) line :=
  ⟨rfl, le_rfl⟩

theorem takes_nothing (expired : Bool) (line : RecvLine) :
    Takes (.nothing expired :: line) none line :=
  ⟨rfl, Nat.le_succ _⟩

theorem takes_pollChar (line : RecvLine) : Takes line (pollChar line).1 (pollChar line).2 := by
  fun_cases pollChar line with
  | case1 => exact .refl []
  | case2 c line => exact takes_char c line
  | case3 expired line => exact takes_nothing expired line

theorem takes_waitChar (hwait : waitChar line = some (c, rest)) : Takes line (some c) rest := by
  fun_induction waitChar line with
  | case1 => cases hwait
  | case2 other line =>
    cases hwait
    exact takes_char c rest
  | case3 expired line ih => exact (takes_nothing expired line).trans (ih hwait)

theorem takes_recvTimed (line : RecvLine) : Takes line (recvTimed line).1 (recvTimed line).2 := by
  fun_induction recvTimed line with
  | case1 => exact .refl []
  | case2 c line => exact takes_char c line
  | case3 line => exact takes_nothing true line
  | case4 expired line hgoes ih => exact (takes_nothing expired line).trans ih

theorem takes_cmnRecvHelper (hrecv : cmnRecvHelper port timeout line = some (found, rest)) :
    Takes line found rest := by
  unfold cmnRecvHelper at hrecv
  split_ifs at hrecv
  · obtain ⟨rfl, rfl⟩ := Prod.mk.inj (Option.some.inj hrecv)
    exact takes_pollChar line
  · obtain ⟨taken, hwait, htaken⟩ := Option.map_eq_some_iff.mp hrecv
    obtain ⟨rfl, rfl⟩ := Prod.mk.inj htaken
    exact takes_waitChar hwait
  · obtain ⟨rfl, rfl⟩ := Prod.mk.inj (Option.some.inj hrecv)
    exact .refl line

theorem takes_platformUartRecv (hrecv : platformUartRecv port timeout line = some (found, rest)) :
    Takes line found rest := by
  unfold platformUartRecv at hrecv
  split_ifs at hrecv
  · exact takes_cmnRecvHelper hrecv
  · exact takes_cmnRecvHelper hrecv
  · obtain ⟨rfl, rfl⟩ := Prod.mk.inj (Option.some.inj hrecv)
    exact takes_recvTimed line
  · obtain ⟨rfl, rfl⟩ := Prod.mk.inj (Option.some.inj hrecv)
    exact .refl line

theorem takes_receiveChar (hrecv : receiveChar port timeout line = some (found, rest)) :
    Takes line found rest := by
  obtain ⟨⟨first, middle⟩, hfirst, hsecond⟩ := Option.bind_eq_some_iff.mp hrecv
  split_ifs at hsecond with hagain
  · obtain rfl : first = none := hagain.1
    exact (takes_platformUartRecv hfirst).trans (takes_platformUartRecv hsecond)
  · obtain ⟨rfl, rfl⟩ := Prod.mk.inj (Option.some.inj hsecond)
    exact takes_platformUartRecv hfirst

end Receiving

/-! ### The calls -/

section Calls

variable {port : UartPort} {mode : ReadMode} {timeout : ℕ} {line : RecvLine}
  {state next last : Reading}

/-- In the modes for strings a character ends the loop exactly if it is a terminator. -/
theorem endsRead_eq (hmode : mode ≠ .number) (count : BitVec 32) (c : UInt8) :
    endsRead mode count c = mode.terminator c := by
  cases mode <;> simp_all [endsRead, ReadMode.terminator]

/-- What holds in front of each pass: the text has been taken from the line, it has no terminator,
and it has not come to the size unless that is zero. -/
structure Held (mode : ReadMode) (line : RecvLine) (state : Reading) : Prop where
  clean : ∀ c ∈ state.text, mode.terminator c = false
  stream_eq : stream line = state.text ++ stream state.line
  short : ∀ size : BitVec 32, mode = .maxsize size → size ≠ 0 →
    state.count.toNat = state.text.length ∧ state.text.length < size.toNat

theorem held_start (mode : ReadMode) (line : RecvLine) : Held mode line ⟨0, [], line⟩ where
  clean _ hmem := by cases hmem
  stream_eq := rfl
  short size _ hsize := ⟨rfl, Nat.pos_of_ne_zero fun hzero ↦ hsize (BitVec.eq_of_toNat_eq hzero)⟩

/-- What a pass leads to. -/
theorem readBody_cases {outcome : Reading ⊕ Reading}
    (hbody : readBody port mode timeout state = some outcome) :
    (∃ rest, receiveChar port timeout state.line = some (none, rest) ∧
      outcome = .inr { state with line := rest }) ∨
    ∃ c rest, receiveChar port timeout state.line = some (some c, rest) ∧
      ((endsRead mode (state.count + 1) c = true ∧
          outcome = .inr ⟨state.count + 1, state.text, rest⟩) ∨
        (endsRead mode (state.count + 1) c = false ∧ mode = .maxsize (state.count + 1) ∧
          outcome = .inr ⟨state.count + 1, state.text ++ [c], rest⟩) ∨
        (endsRead mode (state.count + 1) c = false ∧ mode ≠ .maxsize (state.count + 1) ∧
          outcome = .inl ⟨state.count + 1, state.text ++ [c], rest⟩)) := by
  obtain ⟨⟨found, rest⟩, hreceive, rfl⟩ := Option.map_eq_some_iff.mp hbody
  cases found with
  | none => exact .inl ⟨rest, hreceive, rfl⟩
  | some c =>
    refine .inr ⟨c, rest, hreceive, ?_⟩
    dsimp only
    by_cases hends : endsRead mode (state.count + 1) c = true
    · exact .inl ⟨hends, if_pos hends⟩
    · rw [if_neg hends]
      by_cases hfull : mode = .maxsize (state.count + 1)
      · exact .inr (.inl ⟨Bool.eq_false_iff.mpr hends, hfull, if_pos hfull⟩)
      · exact .inr (.inr ⟨Bool.eq_false_iff.mpr hends, hfull, if_neg hfull⟩)

/-- A character that is stored comes from the line and is no terminator. -/
theorem Held.store (hheld : Held mode line state) (hmode : mode ≠ .number) {c : UInt8}
    {rest : RecvLine} (hreceive : receiveChar port timeout state.line = some (some c, rest))
    (hends : endsRead mode (state.count + 1) c = false) :
    (∀ other ∈ state.text ++ [c], mode.terminator other = false) ∧
      stream line = state.text ++ [c] ++ stream rest := by
  rw [endsRead_eq hmode] at hends
  constructor
  · intro other hmem
    rcases List.mem_append.mp hmem with hbefore | hlast
    · exact hheld.clean other hbefore
    · rw [List.mem_singleton.mp hlast, hends]
  · rw [hheld.stream_eq, (takes_receiveChar hreceive).stream_eq, List.append_assoc]
    rfl

/-- The count behind a character. -/
theorem Held.count_succ (hheld : Held mode line state) {size : BitVec 32}
    (hmode : mode = .maxsize size) (hsize : size ≠ 0) :
    (state.count + 1).toNat = state.text.length + 1 := by
  obtain ⟨hcount, hless⟩ := hheld.short size hmode hsize
  have hlt := size.isLt
  have hone : (1 : BitVec 32).toNat = 1 := rfl
  rw [BitVec.toNat_add, hcount, hone, Nat.mod_eq_of_lt (by omega)]

theorem Held.continues (hheld : Held mode line state) (hmode : mode ≠ .number)
    (hcontinues : Continues (readBody port mode timeout) state next) : Held mode line next := by
  obtain ⟨rest, -, hnext⟩ | ⟨c, rest, hreceive, hcases⟩ := readBody_cases hcontinues
  · cases hnext
  · obtain ⟨-, hnext⟩ | ⟨-, -, hnext⟩ | ⟨hends, hfull, hnext⟩ := hcases
    · cases hnext
    · cases hnext
    · obtain rfl := Sum.inl.inj hnext
      obtain ⟨hclean, hstream⟩ := hheld.store hmode hreceive hends
      refine ⟨hclean, hstream, fun size hsize hne ↦ ?_⟩
      have hcount := hheld.count_succ hsize hne
      have hless := (hheld.short size hsize hne).2
      have hother : size.toNat ≠ (state.count + 1).toNat := by
        intro heq
        rw [hsize, BitVec.eq_of_toNat_eq heq] at hfull
        exact hfull rfl
      dsimp only
      rw [List.length_append, List.length_singleton]
      omega

theorem Held.leaves (hheld : Held mode line state) (hmode : mode ≠ .number)
    (hleaves : readBody port mode timeout state = some (.inr last)) :
    (∀ c ∈ last.text, mode.terminator c = false) ∧
      (∃ ended : Option UInt8, (∀ c ∈ ended, mode.terminator c = true) ∧
        stream line = last.text ++ ended.toList ++ stream last.line) ∧
      ∀ size, mode = .maxsize size → size ≠ 0 → last.text.length ≤ size.toNat := by
  obtain ⟨rest, hreceive, hlast⟩ | ⟨c, rest, hreceive, hcases⟩ := readBody_cases hleaves
  · obtain rfl := Sum.inr.inj hlast
    refine ⟨hheld.clean, ⟨none, by simp, ?_⟩, fun size hsize hne ↦ ?_⟩
    · rw [hheld.stream_eq, (takes_receiveChar hreceive).stream_eq, List.append_assoc]
    · exact (hheld.short size hsize hne).2.le
  · obtain ⟨hends, hlast⟩ | ⟨hends, hfull, hlast⟩ | ⟨-, -, hlast⟩ := hcases
    · obtain rfl := Sum.inr.inj hlast
      rw [endsRead_eq hmode] at hends
      refine ⟨hheld.clean, ⟨some c, ?_, ?_⟩, fun size hsize hne ↦ ?_⟩
      · intro other hother
        rwa [← Option.some.inj hother]
      · rw [hheld.stream_eq, (takes_receiveChar hreceive).stream_eq, List.append_assoc]
      · exact (hheld.short size hsize hne).2.le
    · obtain rfl := Sum.inr.inj hlast
      obtain ⟨hclean, hstream⟩ := hheld.store hmode hreceive hends
      refine ⟨hclean, ⟨none, by simp, ?_⟩, fun size hsize hne ↦ ?_⟩
      · rw [hstream, Option.toList_none, List.append_nil]
      · obtain rfl := ReadMode.maxsize.inj (hfull.symm.trans hsize)
        rw [hheld.count_succ hsize hne, List.length_append, List.length_singleton]
    · cases hlast

/-- A pass never takes a character back. -/
theorem text_ne_nil (htext : state.text ≠ []) {outcome : Reading ⊕ Reading}
    (hbody : readBody port mode timeout state = some outcome) :
    (outcome.elim Reading.text Reading.text) ≠ [] := by
  obtain ⟨rest, -, rfl⟩ | ⟨c, rest, -, ⟨-, rfl⟩ | ⟨-, -, rfl⟩ | ⟨-, -, rfl⟩⟩ := readBody_cases hbody
  · exact htext
  · exact htext
  · exact List.append_ne_nil_of_left_ne_nil htext [c]
  · exact List.append_ne_nil_of_left_ne_nil htext [c]

variable {call : ReadCall}

/-- The passes of a call that returns. -/
theorem ReadCall.Returns.exists_leaves (hreturns : call.Returns port line) :
    ∃ state count, Visits (readBody port call.mode call.timeout) ⟨0, [], line⟩ state ∧
      readBody port call.mode call.timeout state = some (.inr ⟨count, call.text, call.rest⟩) := by
  obtain ⟨hmode, fuel, count, hrun⟩ := hreturns
  unfold uartRead at hrun
  rw [hmode] at hrun
  obtain ⟨last, hloop, hlast⟩ := Option.map_eq_some_iff.mp hrun
  obtain rfl := Except.ok.inj hlast
  obtain ⟨state, hvisits, hleaves⟩ := exists_leaves_of_runLoop hloop
  exact ⟨state, count, hvisits, hleaves⟩

/-- A call with a size of zero that receives no character returns the empty string. -/
theorem ReadCall.Returns.text_eq_nil (hreturns : call.Returns port line)
    (hzero : call.mode = .maxsize 0) (hnothing : FindsNothing port line call) : call.text = [] := by
  obtain ⟨state, count, hvisits, hleaves⟩ := hreturns.exists_leaves
  obtain rfl | ⟨next, hnext, -⟩ := hvisits.cases_head
  · obtain ⟨rest, -, hlast⟩ | ⟨c, rest, hreceive, -⟩ := readBody_cases hleaves
    · exact congrArg Reading.text (Sum.inr.inj hlast)
    · exact absurd hreceive (hnothing hzero c rest)
  · obtain ⟨rest, -, hlast⟩ | ⟨c, rest, hreceive, -⟩ := readBody_cases hnext
    · cases hlast
    · exact absurd hreceive (hnothing hzero c rest)

/-- A call with a size of zero that receives a character returns it. -/
theorem ReadCall.Returns.text_ne_nil (hreturns : call.Returns port line)
    (hzero : call.mode = .maxsize 0) {c : UInt8} {rest : RecvLine}
    (hreceive : receiveChar port call.timeout line = some (some c, rest)) : call.text ≠ [] := by
  obtain ⟨state, count, hvisits, hleaves⟩ := hreturns.exists_leaves
  have hstore : readBody port call.mode call.timeout ⟨0, [], line⟩ =
      some (.inl ⟨1, [c], rest⟩) := by
    have hends : endsRead (.maxsize 0) (0 + 1) c = false := endsRead_eq (by simp) (0 + 1) c
    rw [hzero, readBody, hreceive, Option.map_some]
    dsimp only
    rw [hends]
    rfl
  obtain rfl | hvisits := (visits_of_continues hstore).mp hvisits
  · rw [hstore] at hleaves
    cases hleaves
  · have hstate : state.text ≠ [] :=
      hvisits.rule (·.text ≠ []) (List.cons_ne_nil c []) fun first second hfirst hnext ↦
        Uart.text_ne_nil hfirst hnext
    exact Uart.text_ne_nil hstate hleaves

/-- A call is right exactly if it finds no character for a size of zero. -/
theorem ReadCall.Returns.right_iff (hreturns : call.Returns port line)
    (hmode : call.mode ≠ .number) : call.Right line ↔ FindsNothing port line call := by
  constructor
  · intro hright hzero c rest hreceive
    have hlength := hright.short 0 hzero
    exact hreturns.text_ne_nil hzero hreceive (List.length_eq_zero_iff.mp (Nat.le_zero.mp hlength))
  · intro hnothing
    obtain ⟨state, count, hvisits, hleaves⟩ := hreturns.exists_leaves
    have hheld : Held call.mode line state :=
      hvisits.rule (Held call.mode line) (held_start call.mode line)
        fun first second hfirst hnext ↦ hfirst.continues hmode hnext
    obtain ⟨hclean, htaken, hshort⟩ := hheld.leaves hmode hleaves
    refine ⟨hclean, htaken, fun size hsize ↦ ?_⟩
    by_cases hzero : size = 0
    · rw [hreturns.text_eq_nil (hzero ▸ hsize) hnothing]
      exact Nat.zero_le _
    · exact hshort size hsize hzero

end Calls

/-! ### Runs of calls -/

/-- For every run of calls on every line: each call takes from the line what it returns and at most
one terminator, exactly if each call with a size of zero finds no character. -/
theorem runRight_iff_calls {port : UartPort} {line : RecvLine} {calls : List ReadCall}
    (hrun : IsReadRun port line calls) :
    RunRight line calls ↔ ZeroSizesFindNothing port line calls := by
  induction calls generalizing line with
  | nil => exact Iff.rfl
  | cons call calls ih =>
    obtain ⟨hmode, hreturns, hrest⟩ := hrun
    exact and_congr (hreturns.right_iff hmode) (ih hrest)

/-- A UART of a board with 64 bit timers. -/
def boardPort : UartPort := ⟨.w64, true⟩

/-- The line `a`, and a string of up to two characters of which the second does not come. -/
def lineThenTwo : List ReadCall :=
  [⟨.text [42, 108], .line, 0, [97], [.char 98, .nothing true]⟩, ⟨.size 2, .maxsize 2, 0, [98], []⟩]

theorem runRight_iff_calls_lineThenTwo :
    RunRight [.char 97, .char 10, .char 98, .nothing true] lineThenTwo := by
  have hrun : IsReadRun boardPort [.char 97, .char 10, .char 98, .nothing true] lineThenTwo :=
    ⟨by decide, ⟨rfl, 3, 2, rfl⟩, by decide, ⟨rfl, 3, 1, rfl⟩, trivial⟩
  refine (runRight_iff_calls hrun).mpr ⟨fun hzero ↦ ?_, fun hzero ↦ ?_, trivial⟩
  · cases hzero
  · exact absurd hzero (by decide)

/-- A call with a size of zero that receives `a` returns it. -/
theorem not_runRight_size_zero :
    IsReadRun boardPort [.char 97] [⟨.size 0, .maxsize 0, 0, [97], []⟩] ∧
      ¬RunRight [.char 97] [⟨.size 0, .maxsize 0, 0, [97], []⟩] :=
  ⟨⟨by decide, ⟨rfl, 2, 1, rfl⟩, trivial⟩, fun hright ↦ absurd (hright.1.short 0 rfl) (by decide)⟩

end Elua.Uart
