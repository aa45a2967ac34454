import Elua.LuaRpc.StackDecoder
import Mathlib.Tactic.SplitIfs

/-!
# The decoder on the stack and what is expected of the bytes

`Agrees` compares a run of the decoder with what is expected: the run pushes the value, meets the
marker or throws the same error, with all its calls right; or, where the bytes are not as they
should be, there is a wrong call (`agrees_decoder`). The rules for it follow the structure of the
code. That no later code takes a wrong call back is `Grows`. -/

set_option autoImplicit false
set_option relaxedAutoImplicit false

namespace Elua.LuaRpc

open Foundation

variable {Prototype : Type} {α β : Type}

namespace Decoder

/-! ### Calls are kept -/

section Growth

/-- Code keeps the record of the calls that have ended. -/
def Grows (code : Decoder Prototype α) : Prop :=
  ∀ start, start.calls <+: (endState (code start)).calls

/-- A wrong call stays recorded. -/
theorem Grows.not_allRight {code : Decoder Prototype α} (hgrows : Grows code)
    {start : Decoding Prototype} (hwrong : ¬ start.AllRight) :
    ¬ (endState (code start)).AllRight :=
  fun hright ↦ hwrong fun call hcall ↦ hright call ((hgrows start).subset hcall)

theorem grows_pure (a : α) : Grows (pure a : Decoder Prototype α) :=
  fun start ↦ List.prefix_refl start.calls

theorem grows_throw (fault : ReadFault) : Grows (throw fault : Decoder Prototype α) :=
  fun start ↦ List.prefix_refl start.calls

theorem Grows.bind {code : Decoder Prototype α} {next : α → Decoder Prototype β}
    (hcode : Grows code) (hnext : ∀ a, Grows (next a)) : Grows (code >>= next) := by
  intro start
  have hfirst := hcode start
  change _ <+: (endState (EStateM.bind code next start)).calls
  unfold EStateM.bind
  cases hresult : code start with
  | ok a state =>
    rw [hresult] at hfirst
    exact hfirst.trans (hnext a state)
  | error fault state =>
    rw [hresult] at hfirst
    exact hfirst

theorem grows_ite {c : Prop} [Decidable c] {code other : Decoder Prototype α}
    (hcode : Grows code) (hother : Grows other) : Grows (if c then code else other) := by
  split_ifs
  · exact hcode
  · exact hother

theorem grows_fromTransport (read : List UInt8 → Except ReadFault (α × List UInt8)) :
    Grows (fromTransport read : Decoder Prototype α) := by
  intro start
  unfold fromTransport
  split <;> exact List.prefix_refl _

variable (link : Link Prototype) (limits : Limits)

theorem grows_reserve (slots : ℕ) : Grows (reserve limits slots : Decoder Prototype Unit) := by
  intro start
  unfold reserve
  split_ifs <;> exact List.prefix_refl _

theorem grows_enter {routine : Routine} {free : ℕ} {body : ℕ → Decoder Prototype α}
    (hbody : ∀ free, Grows (body free)) : Grows (enter limits routine free body) :=
  grows_ite (hbody _) (grows_throw _)

theorem grows_push (value : Value Prototype) : Grows (push limits value) :=
  (grows_reserve limits 1).bind fun _ start ↦ List.prefix_refl start.calls

theorem grows_luaRawset (index : ℕ) : Grows (luaRawset link index) := by
  intro start
  unfold luaRawset
  dsimp only
  split
  · split_ifs
    · exact List.prefix_refl _
    · split <;> exact List.prefix_refl _
  · exact List.prefix_refl _

theorem grows_loadTop : Grows (loadTop link limits) := by
  intro start
  unfold loadTop
  split
  · exact List.prefix_refl _
  · split
    · split_ifs <;> exact List.prefix_refl _
    · exact List.prefix_refl _

theorem grows_readIndex (free : ℕ) : Grows (readIndex link limits free) := by
  refine (grows_fromTransport _).bind fun name ↦ grows_ite ?_ (grows_throw _)
  refine (grows_reserve limits _).bind fun _ ↦ ?_
  cases link.index name with
  | some value => exact grows_push limits value
  | none => exact grows_throw _

theorem endState_recorded (place : Place) (body : Decoder Prototype Bool)
    (start : Decoding Prototype) :
    endState (recorded place body start) =
      record place start (body { start with lowest := start.stack.length }) := by
  unfold recorded
  dsimp only
  split <;> rfl

theorem grows_recorded {body : Decoder Prototype Bool} (hbody : Grows body) (place : Place) :
    Grows (recorded place body) := by
  intro start
  rw [endState_recorded]
  exact (hbody { start with lowest := start.stack.length }).trans (List.prefix_append _ _)

/-- What reads a number, a string or a byte and pushes a value. -/
theorem grows_readPush (read : List UInt8 → Except ReadFault (α × List UInt8))
    (value : α → Value Prototype) :
    Grows (fromTransport read >>= fun a ↦ push limits (value a) >>= fun _ ↦ pure true) :=
  (grows_fromTransport read).bind fun a ↦ (grows_push limits (value a)).bind fun _ ↦ grows_pure true

theorem grows_decoder (fuel : ℕ) :
    (∀ free, Grows (readVariable link limits fuel free)) ∧
      (∀ free index, Grows (readTable link limits fuel free index)) ∧
      ∀ free, Grows (readFunction link limits fuel free) := by
  induction fuel with
  | zero =>
    refine ⟨fun free ↦ ?_, fun free index ↦ ?_, fun free ↦ ?_⟩
    · rw [readVariable]
      exact grows_throw _
    · rw [readTable]
      exact grows_throw _
    · rw [readFunction]
      exact grows_throw _
  | succ fuel ih =>
    obtain ⟨hvariable, htable, hfunction⟩ := ih
    refine ⟨fun free ↦ ?_, fun free index ↦ ?_, fun free ↦ ?_⟩
    · rw [readVariable]
      refine grows_enter limits fun free ↦ (grows_fromTransport _).bind fun type ↦ ?_
      refine grows_ite ((grows_push limits _).bind fun _ ↦ grows_pure true) ?_
      refine grows_ite (grows_readPush limits _ _) ?_
      refine grows_ite (grows_readPush limits _ _) ?_
      refine grows_ite (grows_readPush limits _ _) ?_
      refine grows_ite ((grows_enter limits fun free ↦ (grows_push limits _).bind fun _ ↦
        Grows.bind (fun _ ↦ List.prefix_refl _) fun index ↦ htable free index).bind
          fun _ ↦ grows_pure true) ?_
      refine grows_ite (grows_pure false) ?_
      refine grows_ite ((grows_enter limits hfunction).bind fun _ ↦ grows_pure true) ?_
      refine grows_ite (grows_pure false) ?_
      exact grows_ite ((grows_enter limits (grows_readIndex link limits)).bind
        fun _ ↦ grows_pure true) (grows_throw _)
    · rw [readTable]
      refine (grows_recorded (hvariable free) .key).bind fun more ↦ grows_ite ?_ (grows_pure ())
      exact (grows_recorded (hvariable free) .value).bind fun _ ↦
        (grows_luaRawset link index).bind fun _ ↦ htable free index
    · rw [readFunction]
      refine (grows_recorded (hvariable free) .chunk).bind fun more ↦ grows_ite ?_ (grows_pure ())
      exact (grows_loadTop link limits).bind fun _ ↦ hfunction free

end Growth

/-! ### The decoder and what is expected -/

section Agreement

/-- Code from a state agrees with what is expected of the bytes. It returns and leaves on the stack
what `after` says of what was found, without having been lower than before; or it throws the same;
or, where the bytes are not as they should be, a wrong call is recorded or the ending is `wrong`. -/
def Agrees (start : Decoding Prototype) (after : β → α × List (Value Prototype))
    (wrong : EStateM.Result ReadFault (Decoding Prototype) α → Prop)
    (expected : Except ReadFault (β × List UInt8))
    (result : EStateM.Result ReadFault (Decoding Prototype) α) : Prop :=
  match expected, result with
  | .error .undefined, result => ¬ (endState result).AllRight ∨ wrong result
  | .ok (found, rest), .ok returned state =>
    returned = (after found).1 ∧ state.stack = (after found).2 ∧ state.bytes = rest ∧
      state.lowest = start.lowest ∧ (start.AllRight → state.AllRight)
  | .error fault, .error thrown state =>
    thrown = fault ∧ start.lowest ≤ state.lowest ∧
      (fault.Throws → start.AllRight → state.AllRight)
  | _, _ => False

/-- The ending that is not defined. -/
def EndsUndefined (result : EStateM.Result ReadFault (Decoding Prototype) α) : Prop :=
  ending result = .error .undefined

section Rules

variable {γ δ : Type} {start : Decoding Prototype} {after : β → α × List (Value Prototype)}
  {wrong : EStateM.Result ReadFault (Decoding Prototype) α → Prop}
  {expected : Except ReadFault (β × List UInt8)}
  {result : EStateM.Result ReadFault (Decoding Prototype) α}

/-- Agreement from a later state is agreement from the first. -/
theorem Agrees.from (hagrees : Agrees start after wrong expected result)
    {first : Decoding Prototype} (hlowest : start.lowest = first.lowest)
    (hright : first.AllRight → start.AllRight) : Agrees first after wrong expected result := by
  unfold Agrees at hagrees ⊢
  split at hagrees
  · exact hagrees
  · obtain ⟨hreturned, hstack, hbytes, hlow, hall⟩ := hagrees
    exact ⟨hreturned, hstack, hbytes, hlow.trans hlowest, hall ∘ hright⟩
  · obtain ⟨hfault, hlow, hall⟩ := hagrees
    exact ⟨hfault, hlowest ▸ hlow, fun hthrows ↦ hall hthrows ∘ hright⟩
  · exact hagrees.elim

/-- The same error is thrown. -/
theorem agrees_error {fault thrown : ReadFault} {state : Decoding Prototype}
    (hdefined : fault ≠ .undefined) :
    Agrees start after wrong (.error fault) (.error thrown state) ↔
      thrown = fault ∧ start.lowest ≤ state.lowest ∧
        (fault.Throws → start.AllRight → state.AllRight) := by
  cases fault <;> first | exact Iff.rfl | exact absurd rfl hdefined

theorem Agrees.of_error_ok {fault : ReadFault} {a : α} {state : Decoding Prototype}
    (hagrees : Agrees start after wrong (.error fault) (.ok a state)) :
    fault = .undefined ∧ (¬ state.AllRight ∨ wrong (.ok a state)) := by
  cases fault <;> first | exact ⟨rfl, hagrees⟩ | exact hagrees.elim

/-- Code after code that agrees. Nothing that follows takes a wrong call back. -/
theorem Agrees.bind {code : Decoder Prototype α} {next : α → Decoder Prototype γ}
    {expectedNext : β × List UInt8 → Except ReadFault (δ × List UInt8)}
    {afterNext : δ → γ × List (Value Prototype)}
    {wrongNext : EStateM.Result ReadFault (Decoding Prototype) γ → Prop}
    (hcode : Agrees start after EndsUndefined expected (code start))
    (hgrows : ∀ a, Grows (next a)) (hundefined : ∀ state, wrongNext (.error .undefined state))
    (hnext : ∀ found rest state, expected = .ok (found, rest) → state.stack = (after found).2 →
      state.bytes = rest → state.lowest = start.lowest →
        Agrees state afterNext wrongNext (expectedNext (found, rest))
          (next (after found).1 state)) :
    Agrees start afterNext wrongNext (expected >>= expectedNext) ((code >>= next) start) := by
  change Agrees _ _ _ _ (EStateM.bind code next start)
  unfold EStateM.bind
  cases hresult : code start with
  | ok a state =>
    rw [hresult] at hcode
    rcases expected with fault | ⟨found, rest⟩
    · obtain ⟨rfl, hwrong | hends⟩ := hcode.of_error_ok
      · exact .inl ((hgrows a).not_allRight hwrong)
      · cases hends
    · obtain ⟨rfl, hstack, hbytes, hlowest, hright⟩ := hcode
      exact (hnext found rest state rfl hstack hbytes hlowest).from hlowest hright
  | error fault state =>
    rw [hresult] at hcode
    rcases expected with expectedFault | found
    · rcases eq_or_ne expectedFault .undefined with rfl | hdefined
      · rcases hcode with hwrong | hends
        · exact .inl hwrong
        · obtain rfl : fault = .undefined := Except.error.inj hends
          exact .inr (hundefined state)
      · obtain ⟨rfl, hagrees⟩ := (agrees_error hdefined).1 hcode
        exact (agrees_error hdefined).2 ⟨rfl, hagrees⟩
    · exact hcode.elim

theorem eq_cons_of_transportReadU8 {bytes rest : List UInt8} {byte : UInt8}
    (hread : transportReadU8 bytes = .ok (byte, rest)) : bytes = byte :: rest := by
  cases bytes with
  | nil => cases hread
  | cons first bytes => cases hread; rfl

theorem agrees_ite {c : Prop} [Decidable c] {other : Except ReadFault (β × List UInt8)}
    {code code' : Decoder Prototype α}
    (hcode : c → Agrees start after wrong expected (code start))
    (hother : ¬ c → Agrees start after wrong other (code' start)) :
    Agrees start after wrong (if c then expected else other)
      ((if c then code else code') start) := by
  split_ifs with hc
  · exact hcode hc
  · exact hother hc

/-- What is read from the transport, and code after it. -/
theorem agrees_fromTransport_bind {read : List UInt8 → Except ReadFault (γ × List UInt8)}
    {next : γ → Decoder Prototype α}
    {expectedNext : γ × List UInt8 → Except ReadFault (β × List UInt8)}
    (hundefined : ∀ state, wrong (.error .undefined state))
    (hnext : ∀ c rest, read start.bytes = .ok (c, rest) →
      Agrees start after wrong (expectedNext (c, rest)) (next c { start with bytes := rest })) :
    Agrees start after wrong (read start.bytes >>= expectedNext)
      ((fromTransport read >>= next) start) := by
  change Agrees _ _ _ _ (EStateM.bind (fromTransport read) next start)
  unfold EStateM.bind fromTransport
  cases hread : read start.bytes with
  | error fault =>
    rcases eq_or_ne fault .undefined with rfl | hdefined
    · exact .inr (hundefined start)
    · exact (agrees_error hdefined).2 ⟨rfl, le_rfl, fun _ ↦ id⟩
  | ok found => exact hnext found.1 found.2 hread

theorem Agrees.weaken (hagrees : Agrees start after (fun _ ↦ False) expected result) :
    Agrees start after wrong expected result := by
  unfold Agrees at hagrees ⊢
  split at hagrees
  · exact hagrees.imp_right False.elim
  · exact hagrees
  · exact hagrees
  · exact hagrees

end Rules

variable (link : Link Prototype) (limits : Limits) {start : Decoding Prototype}

/-- What `read_variable` returns and leaves on the stack for a value or an end marker. -/
def afterVariable (stack : List (Value Prototype)) :
    Option (Value Prototype) → Bool × List (Value Prototype)
  | some value => (true, value :: stack)
  | none => (false, stack)

theorem allRight_record {place : Place}
    {result : EStateM.Result ReadFault (Decoding Prototype) Bool} :
    (record place start result).AllRight ↔
      (endState result).AllRight ∧ (ended place start result).Right := by
  unfold Decoding.AllRight record
  rw [List.forall_mem_append, List.forall_mem_singleton]

theorem ended_right_ok {place : Place} {found : Option (Value Prototype)}
    {state : Decoding Prototype}
    (hmarker : found = none →
      ∃ marker, place.endMarker = some marker ∧ start.bytes.head? = some marker)
    (hstack : state.stack = (afterVariable start.stack found).2)
    (hlowest : start.stack.length ≤ state.lowest) :
    (ended place start (.ok (afterVariable start.stack found).1 state)).Right := by
  refine ⟨hlowest, ?_⟩
  cases found with
  | some value => exact ⟨value, hstack⟩
  | none => exact ⟨hstack, hmarker rfl⟩

/-- A call of `read_variable` is right if its body agrees with what is expected, and otherwise it or
a call in it is wrong. -/
theorem agrees_recorded {place : Place} {body : Decoder Prototype Bool}
    {expected : Except ReadFault (Option (Value Prototype) × List UInt8)}
    (hlowest : start.lowest ≤ start.stack.length)
    (hmarker : ∀ rest, expected = .ok (none, rest) →
      ∃ marker, place.endMarker = some marker ∧ start.bytes.head? = some marker)
    (hbody : Agrees { start with lowest := start.stack.length } (afterVariable start.stack)
      (fun result ↦ ¬ (ended place start result).Right) expected
      (body { start with lowest := start.stack.length })) :
    Agrees start (afterVariable start.stack) (fun _ ↦ False) expected
      (recorded place body start) := by
  unfold recorded
  dsimp only
  cases hresult : body { start with lowest := start.stack.length } with
  | ok returned state =>
    rw [hresult] at hbody
    rcases expected with fault | ⟨found, rest⟩
    · obtain ⟨rfl, hwrong⟩ := hbody.of_error_ok
      refine .inl fun hright ↦ ?_
      obtain ⟨hall, hcall⟩ := allRight_record.1 hright
      exact hwrong.elim (· hall) (· hcall)
    · obtain ⟨rfl, hstack, hbytes, hlow, hright⟩ := hbody
      refine ⟨rfl, hstack, hbytes, (min_eq_left (hlowest.trans hlow.ge)), fun hall ↦ ?_⟩
      refine allRight_record.2 ⟨hright hall, ended_right_ok ?_ hstack hlow.ge⟩
      rintro rfl
      exact hmarker rest rfl
  | error fault state =>
    rw [hresult] at hbody
    rcases expected with expectedFault | found
    · rcases eq_or_ne expectedFault .undefined with rfl | hdefined
      · refine .inl fun hright ↦ ?_
        obtain ⟨hall, hcall⟩ := allRight_record.1 hright
        exact hbody.elim (· hall) (· hcall)
      · obtain ⟨rfl, hlow, hright⟩ := (agrees_error hdefined).1 hbody
        refine (agrees_error hdefined).2 ⟨rfl, ?_, fun hthrows hall ↦ ?_⟩
        · exact le_min le_rfl (hlowest.trans hlow)
        · exact allRight_record.2 ⟨hright hthrows hall, hlow, hthrows⟩
    · exact hbody.elim

theorem bind_ok {first : Except ReadFault α} {next : α → Except ReadFault β} {b : β}
    (hbind : first >>= next = .ok b) : ∃ a, first = .ok a ∧ next a = .ok b := by
  cases first with
  | error fault => cases hbind
  | ok a => exact ⟨a, rfl, hbind⟩

theorem expectSlot_ne_none {left : ℕ} {value : Value Prototype} {bytes rest : List UInt8} :
    expectSlot left value bytes ≠ .ok (none, rest) := by
  unfold expectSlot
  split_ifs <;> exact nofun

/-- Only an end marker at its place makes no value. -/
theorem expectVariable_none {place : Place} {fuel free left : ℕ} {bytes rest : List UInt8}
    (hnone : expectVariable link limits fuel free place left bytes = .ok (none, rest)) :
    ∃ marker, place.endMarker = some marker ∧ bytes.head? = some marker := by
  cases fuel with
  | zero => rw [expectVariable] at hnone; cases hnone
  | succ fuel =>
    rw [expectVariable, expectCall] at hnone
    rcases ite_eq_iff.1 hnone with ⟨-, hnone⟩ | ⟨-, hnone⟩
    swap
    · cases hnone
    obtain ⟨⟨type, behind⟩, htype, hnone⟩ := bind_ok hnone
    obtain rfl := eq_cons_of_transportReadU8 htype
    rcases ite_eq_iff.1 hnone with ⟨-, hnone⟩ | ⟨-, hnone⟩
    · exact absurd hnone expectSlot_ne_none
    rcases ite_eq_iff.1 hnone with ⟨-, hnone⟩ | ⟨-, hnone⟩
    · obtain ⟨found, -, hnone⟩ := bind_ok hnone
      exact absurd hnone expectSlot_ne_none
    rcases ite_eq_iff.1 hnone with ⟨-, hnone⟩ | ⟨-, hnone⟩
    · obtain ⟨found, -, hnone⟩ := bind_ok hnone
      exact absurd hnone expectSlot_ne_none
    rcases ite_eq_iff.1 hnone with ⟨-, hnone⟩ | ⟨-, hnone⟩
    · obtain ⟨found, -, hnone⟩ := bind_ok hnone
      exact absurd hnone expectSlot_ne_none
    rcases ite_eq_iff.1 hnone with ⟨-, hnone⟩ | ⟨-, hnone⟩
    · obtain ⟨found, -, hnone⟩ := bind_ok hnone
      cases hnone
    rcases ite_eq_iff.1 hnone with ⟨htableEnd, hnone⟩ | ⟨-, hnone⟩
    · rcases ite_eq_iff.1 hnone with ⟨hkey, -⟩ | ⟨-, hnone⟩
      · exact ⟨type, by rw [hkey, htableEnd]; rfl, rfl⟩
      · cases hnone
    rcases ite_eq_iff.1 hnone with ⟨-, hnone⟩ | ⟨-, hnone⟩
    · obtain ⟨⟨_ | ⟨function, _ | _⟩, last⟩, -, hnone⟩ := bind_ok hnone <;> cases hnone
    rcases ite_eq_iff.1 hnone with ⟨hfunctionEnd, hnone⟩ | ⟨-, hnone⟩
    · rcases ite_eq_iff.1 hnone with ⟨hchunk, -⟩ | ⟨-, hnone⟩
      · exact ⟨type, by rw [hchunk, hfunctionEnd]; rfl, rfl⟩
      · cases hnone
    rcases ite_eq_iff.1 hnone with ⟨-, hnone⟩ | ⟨-, hnone⟩
    · rcases ite_eq_iff.1 hnone with ⟨-, hnone⟩ | ⟨-, hnone⟩
      swap
      · cases hnone
      obtain ⟨⟨name, last⟩, -, hnone⟩ := bind_ok hnone
      rcases ite_eq_iff.1 hnone with ⟨-, hnone⟩ | ⟨-, hnone⟩
      · rcases ite_eq_iff.1 hnone with ⟨-, hnone⟩ | ⟨-, hnone⟩
        · split at hnone
          · exact absurd hnone expectSlot_ne_none
          · cases hnone
        · cases hnone
      · cases hnone
    · cases hnone

variable (start) in
/-- Code that needs some slots, and code after it. -/
theorem agrees_reserve_bind {slots : ℕ} (hslots : 0 < slots)
    {after : β → α × List (Value Prototype)}
    {wrong : EStateM.Result ReadFault (Decoding Prototype) α → Prop}
    {next : Unit → Decoder Prototype α} {expected : Except ReadFault (β × List UInt8)}
    (hundefined : ∀ state, wrong (.error .undefined state))
    (hnext : Agrees start after wrong expected (next () start)) :
    Agrees start after wrong
      (if slots ≤ limits.room - start.stack.length then expected else .error .undefined)
      ((reserve limits slots >>= next) start) := by
  change Agrees _ _ _ _ (EStateM.bind (reserve limits slots) next start)
  unfold EStateM.bind reserve
  by_cases hroom : slots ≤ limits.room - start.stack.length
  · rw [if_pos hroom, if_pos (by omega)]
    exact hnext
  · rw [if_neg hroom, if_neg (by omega)]
    exact .inr (hundefined start)

/-- A call is made if there are bytes for it. -/
theorem agrees_enter {after : β → α × List (Value Prototype)}
    {wrong : EStateM.Result ReadFault (Decoding Prototype) α → Prop} {routine : Routine} {free : ℕ}
    {body : ℕ → Decoder Prototype α} {expected : ℕ → Except ReadFault (β × List UInt8)}
    (hundefined : ∀ state, wrong (.error .undefined state))
    (hbody : ∀ free, Agrees start after wrong (expected free) (body free start)) :
    Agrees start after wrong (expectCall limits routine free expected)
      (enter limits routine free body start) :=
  agrees_ite (fun _ ↦ hbody _) fun _ ↦ .inr (hundefined start)

variable (start) in
/-- A value is pushed if a slot is left for it. -/
theorem agrees_push {wrong : EStateM.Result ReadFault (Decoding Prototype) Bool → Prop}
    (hundefined : ∀ state, wrong (.error .undefined state)) (value : Value Prototype) :
    Agrees start (afterVariable start.stack) wrong
      (expectSlot (limits.room - start.stack.length) value start.bytes)
      ((push limits value >>= fun _ ↦ pure true) start) := by
  rw [push, bind_assoc]
  exact agrees_reserve_bind limits start Nat.one_pos hundefined ⟨rfl, rfl, rfl, rfl, id⟩

variable (start) in
/-- What reads a number, a string or a byte and pushes a value. -/
theorem agrees_readPush {wrong : EStateM.Result ReadFault (Decoding Prototype) Bool → Prop}
    (hundefined : ∀ state, wrong (.error .undefined state))
    (read : List UInt8 → Except ReadFault (α × List UInt8)) (value : α → Value Prototype) :
    Agrees start (afterVariable start.stack) wrong
      (read start.bytes >>= fun (a, rest) ↦
        expectSlot (limits.room - start.stack.length) (value a) rest)
      ((fromTransport read >>= fun a ↦ push limits (value a) >>= fun _ ↦ pure true :
        Decoder Prototype Bool) start) :=
  agrees_fromTransport_bind hundefined fun a rest _ ↦
    (agrees_push limits { start with bytes := rest } hundefined (value a)).from rfl id

variable (start) in
theorem agrees_readIndex {wrong : EStateM.Result ReadFault (Decoding Prototype) Bool → Prop}
    (hundefined : ∀ state, wrong (.error .undefined state)) (free : ℕ) :
    Agrees start (afterVariable start.stack) wrong
      (readBuffer link free start.bytes >>= fun (name, rest) ↦
        if hasToken name then
          if indexSlots name ≤ limits.room - start.stack.length then
            match link.index name with
            | some value => expectSlot (limits.room - start.stack.length) value rest
            | none => .error .raised
          else .error .undefined
        else .error .undefined)
      ((readIndex link limits free >>= fun _ ↦ pure true) start) := by
  rw [readIndex, bind_assoc]
  refine agrees_fromTransport_bind hundefined fun name rest _ ↦ ?_
  rw [apply_ite (· >>= fun _ ↦ pure true)]
  refine agrees_ite (fun htoken ↦ ?_) fun htoken ↦ .inr (hundefined _)
  have hslots : 0 < indexSlots name := by
    unfold indexSlots
    split_ifs <;> decide
  rw [bind_assoc]
  refine Agrees.from (agrees_reserve_bind limits { start with bytes := rest } hslots
    hundefined ?_) rfl id
  cases link.index name with
  | some value => exact agrees_push limits { start with bytes := rest } hundefined value
  | none => exact (agrees_error (by decide)).2 ⟨rfl, le_rfl, fun _ ↦ id⟩

theorem checkKey_error {type : LuaNumber} {key : Value Prototype} {fault : ReadFault}
    (hcheck : checkKey type key = .error fault) : fault = .raised := by
  unfold checkKey at hcheck
  split at hcheck
  · exact (Except.error.inj hcheck).symm
  · split_ifs at hcheck
    exact (Except.error.inj hcheck).symm
  · cases hcheck

/-- `lua_rawset` on the table below a key and a value. -/
theorem luaRawset_eq {entries : List (Value Prototype × Value Prototype)}
    {key value : Value Prototype} {below : List (Value Prototype)}
    (hstack : start.stack = value :: key :: .table entries :: below) :
    luaRawset link (below.length + 1) start =
      match checkKey link.receiver.number key with
      | .ok () =>
        .ok () { start with
          stack := .table (entries ++ [(key, value)]) :: below
          lowest := min start.lowest (below.length + 1) }
      | .error fault => .error fault start := by
  have hslot : start.stack.length - (below.length + 1) = 2 := by
    rw [hstack, List.length_cons, List.length_cons, List.length_cons]
    omega
  unfold luaRawset
  dsimp only
  rw [hslot, hstack]
  exact (if_neg (by simp only [List.length_cons]; omega)).trans rfl

/-- What a wrong end marker makes of a call. -/
theorem not_right_marker {place : Place} {type : UInt8} {bytes : List UInt8}
    {state : Decoding Prototype} (hbytes : start.bytes = type :: bytes)
    (hmarker : place.endMarker ≠ some type) : ¬ (ended place start (.ok false state)).Right := by
  rintro ⟨-, -, marker, hend, hhead⟩
  change start.bytes.head? = some marker at hhead
  rw [hbytes] at hhead
  exact hmarker (hend.trans hhead.symm)

/-- `readVariable` agrees with what is expected, with the record of the call. -/
def AgreesVariable (fuel : ℕ) : Prop :=
  ∀ (free : ℕ) (place : Place) (start : Decoding Prototype), start.lowest ≤ start.stack.length →
    Agrees start (afterVariable start.stack) (fun _ ↦ False)
      (expectVariable link limits fuel free place (limits.room - start.stack.length) start.bytes)
      (recorded place (readVariable link limits fuel free) start)

/-- The loop of `readTable` agrees with the entries that are expected, with the table at the index
on top. -/
def AgreesTable (fuel : ℕ) : Prop :=
  ∀ (free : ℕ) (entries : List (Value Prototype × Value Prototype))
    (below : List (Value Prototype)) (start : Decoding Prototype), start.stack = .table entries :: below →
    start.lowest ≤ below.length + 1 →
    Agrees start (fun new ↦ ((), .table new :: below)) EndsUndefined
      (expectEntries link limits fuel free (limits.room - (below.length + 1)) start.bytes entries)
      (readTable link limits fuel free (below.length + 1) start)

/-- `readFunction` agrees with the chunks that are expected, with those before on top. -/
def AgreesFunction (fuel : ℕ) : Prop :=
  ∀ (free : ℕ) (functions below : List (Value Prototype)) (start : Decoding Prototype),
    start.stack = functions ++ below → start.lowest ≤ below.length →
    Agrees start (fun new ↦ ((), new ++ below)) EndsUndefined
      (expectChunks link limits fuel free (limits.room - start.stack.length) start.bytes functions)
      (readFunction link limits fuel free start)

variable {link limits}

theorem agreesTable_succ {fuel : ℕ} (hvariable : AgreesVariable link limits fuel)
    (htable : AgreesTable link limits fuel) : AgreesTable link limits (fuel + 1) := by
  intro free entries below start hstack hlowest
  obtain ⟨hgrowsVariable, hgrowsTable, -⟩ := grows_decoder link limits fuel
  have hentry := (grows_luaRawset link (below.length + 1)).bind fun _ ↦
    hgrowsTable free (below.length + 1)
  have hleft : start.stack.length = below.length + 1 := by
    rw [hstack]
    rfl
  have hkey := hvariable free .key start (by rw [hleft]; exact hlowest)
  rw [hleft] at hkey
  rw [readTable, expectEntries]
  refine hkey.weaken.bind (fun more ↦ ?_) (fun _ ↦ rfl)
    fun key rest state _ hkeyStack hbytes hkeyLowest ↦ ?_
  · exact grows_ite ((grows_recorded (hgrowsVariable free) .value).bind fun _ ↦ hentry)
      (grows_pure ())
  cases key with
  | none => exact ⟨rfl, hkeyStack.trans hstack, hbytes, rfl, id⟩
  | some key =>
    subst hbytes
    have hheight : state.stack.length = below.length + 2 := by
      rw [hkeyStack, hstack]
      rfl
    have hvalueLeft : limits.room - (below.length + 1) - 1 = limits.room - state.stack.length := by omega
    dsimp only
    rw [hvalueLeft]
    refine (hvariable free .value state (by omega)).weaken.bind (fun _ ↦ hentry) (fun _ ↦ rfl)
      fun value rest after hvalue hvalueStack hbytes hvalueLowest ↦ ?_
    cases value with
    | none =>
      obtain ⟨marker, hmarker, -⟩ := expectVariable_none link limits hvalue
      cases hmarker
    | some value =>
      subst hbytes
      have htop : after.stack = value :: key :: .table entries :: below := by
        rw [hvalueStack, hkeyStack, hstack]
        rfl
      change Agrees after _ _ _ (EStateM.bind (luaRawset link (below.length + 1)) _ after)
      unfold EStateM.bind
      rw [luaRawset_eq link htop]
      cases hcheck : checkKey link.receiver.number key with
      | error fault =>
        obtain rfl := checkKey_error hcheck
        exact (agrees_error (by decide)).2 ⟨rfl, le_rfl, fun _ ↦ id⟩
      | ok =>
        have hmin : min after.lowest (below.length + 1) = after.lowest :=
          min_eq_left (by omega)
        have hrest := htable free (entries ++ [(key, value)]) below { after with
          stack := .table (entries ++ [(key, value)]) :: below
          lowest := min after.lowest (below.length + 1) } rfl (min_le_right _ _)
        exact hrest.from hmin id

theorem agreesFunction_succ {fuel : ℕ} (hvariable : AgreesVariable link limits fuel)
    (hfunction : AgreesFunction link limits fuel) : AgreesFunction link limits (fuel + 1) := by
  intro free functions below start hstack hlowest
  obtain ⟨hgrowsVariable, -, hgrowsFunction⟩ := grows_decoder link limits fuel
  have hload := (grows_loadTop link limits).bind fun _ ↦ hgrowsFunction free
  have hheight : start.stack.length = functions.length + below.length := by
    rw [hstack, List.length_append]
  rw [readFunction, expectChunks]
  refine (hvariable free .chunk start (by omega)).weaken.bind
    (fun more ↦ grows_ite hload (grows_pure ())) (fun _ ↦ rfl)
    fun chunk rest state _ hchunkStack hbytes hchunkLowest ↦ ?_
  cases chunk with
  | none => exact ⟨rfl, hchunkStack.trans hstack, hbytes, rfl, id⟩
  | some chunk =>
    subst hbytes
    have htop : state.stack = chunk :: (functions ++ below) := by
      rw [hchunkStack, hstack]
      rfl
    change Agrees state _ _ _ (EStateM.bind (loadTop link limits) _ state)
    unfold EStateM.bind loadTop
    rw [htop]
    dsimp only
    cases chunkString link chunk with
    | none => exact (agrees_error (by decide)).2 ⟨rfl, le_rfl, fun _ ↦ id⟩
    | some b =>
      dsimp only
      by_cases hroom : 2 ≤ limits.room - start.stack.length
      · have hrest := hfunction free (loadedChunk link b :: functions) below
          { state with stack := loadedChunk link b :: (functions ++ below) } rfl
          (hchunkLowest.trans_le hlowest)
        have hrestLeft : limits.room - start.stack.length - 1 =
            limits.room - (loadedChunk link b :: (functions ++ below)).length := by
          rw [List.length_cons, List.length_append]
          omega
        rw [if_pos hroom, hrestLeft, if_pos (by rw [List.length_cons, List.length_append]; omega)]
        exact hrest.from rfl id
      · rw [if_neg hroom, if_neg (by rw [List.length_cons, List.length_append]; omega)]
        exact .inr rfl

/-- A new table, with the entries that follow. -/
theorem agrees_newTable (start : Decoding Prototype) {fuel : ℕ}
    (htable : AgreesTable link limits fuel) (hlowest : start.lowest ≤ start.stack.length)
    (free : ℕ) :
    Agrees start (fun new ↦ ((), .table new :: start.stack)) EndsUndefined
      (if 1 ≤ limits.room - start.stack.length then
        expectEntries link limits fuel free (limits.room - start.stack.length - 1) start.bytes []
      else .error .undefined)
      ((push limits (.table []) >>= fun _ ↦ luaGettop >>= fun index ↦
        readTable link limits fuel free index) start) := by
  rw [push, bind_assoc]
  refine agrees_reserve_bind limits start Nat.one_pos (fun _ ↦ rfl) ?_
  have hentries := htable free [] start.stack { start with stack := .table [] :: start.stack } rfl
    (Nat.le_succ_of_le hlowest)
  rw [← Nat.sub_sub] at hentries
  exact hentries.from rfl id

/-- The cases of `readVariable`. Apart from a wrong end marker and a function that is not one, all
that can be wrong is below. -/
theorem agrees_readVariable (start : Decoding Prototype) {fuel : ℕ}
    (htable : AgreesTable link limits fuel) (hfunction : AgreesFunction link limits fuel) {free : ℕ}
    {place : Place}
    {wrong : EStateM.Result ReadFault (Decoding Prototype) Bool → Prop}
    (hlowest : start.lowest ≤ start.stack.length)
    (hundefined : ∀ state, wrong (.error .undefined state))
    (hmarker : ∀ type rest state, start.bytes = type :: rest → place.endMarker ≠ some type →
      wrong (.ok false state))
    (hchunks : ∀ functions state, state.stack = functions ++ start.stack → functions.length ≠ 1 →
      wrong (.ok true state)) :
    Agrees start (afterVariable start.stack) wrong
      (expectVariable link limits (fuel + 1) free place (limits.room - start.stack.length)
        start.bytes)
      (readVariable link limits (fuel + 1) free start) := by
  obtain ⟨-, hgrowsTable, hgrowsFunction⟩ := grows_decoder link limits fuel
  rw [readVariable, expectVariable]
  refine agrees_enter limits hundefined fun free ↦ ?_
  refine agrees_fromTransport_bind hundefined fun type rest htype ↦ ?_
  have hbytes : start.bytes = type :: rest := eq_cons_of_transportReadU8 htype
  refine agrees_ite (fun _ ↦ agrees_push limits { start with bytes := rest } hundefined
    .nil) fun _ ↦ ?_
  refine agrees_ite (fun _ ↦ agrees_readPush limits { start with bytes := rest }
    hundefined transportReadU8 fun byte ↦ .boolean (byte ≠ 0)) fun _ ↦ ?_
  refine agrees_ite (fun _ ↦ agrees_readPush limits { start with bytes := rest }
    hundefined (readNumber link) .number) fun _ ↦ ?_
  refine agrees_ite (fun _ ↦ agrees_readPush limits { start with bytes := rest }
    hundefined (readBuffer link free) .string) fun _ ↦ ?_
  refine agrees_ite (fun _ ↦ ?_) fun _ ↦ ?_
  · have hread := agrees_newTable { start with bytes := rest } htable hlowest
    refine Agrees.from (((agrees_enter limits (fun _ ↦ rfl) hread).bind
      (fun _ ↦ grows_pure true) hundefined ?_)) rfl id
    exact fun entries left state _ hstack hleft _ ↦ ⟨rfl, hstack, hleft, rfl, id⟩
  refine agrees_ite (fun htableEnd ↦ ?_) fun _ ↦ ?_
  · by_cases hkey : place = .key
    · rw [if_pos hkey]
      exact ⟨rfl, rfl, rfl, rfl, id⟩
    · rw [if_neg hkey]
      refine .inr (hmarker type rest _ hbytes ?_)
      rw [htableEnd]
      cases place <;> first | exact absurd rfl hkey | decide
  refine agrees_ite (fun _ ↦ ?_) fun _ ↦ ?_
  · refine (agrees_enter limits (fun _ ↦ rfl) fun free ↦ hfunction free [] start.stack
      { start with bytes := rest } rfl hlowest).bind (fun _ ↦ grows_pure true) hundefined
      fun functions left state _ hstack hleft _ ↦ ?_
    rcases functions with _ | ⟨function, _ | ⟨second, functions⟩⟩
    · exact .inr (hchunks [] state hstack (by simp))
    · exact ⟨rfl, hstack, hleft, rfl, id⟩
    · exact .inr (hchunks (function :: second :: functions) state hstack (by simp))
  refine agrees_ite (fun hfunctionEnd ↦ ?_) fun _ ↦ ?_
  · by_cases hchunk : place = .chunk
    · rw [if_pos hchunk]
      exact ⟨rfl, rfl, rfl, rfl, id⟩
    · rw [if_neg hchunk]
      refine .inr (hmarker type rest _ hbytes ?_)
      rw [hfunctionEnd]
      cases place <;> first | exact absurd rfl hchunk | decide
  refine agrees_ite (fun _ ↦ ?_) fun _ ↦ ?_
  · rw [enter, apply_ite (· >>= fun _ ↦ pure true)]
    exact agrees_ite (fun _ ↦ (agrees_readIndex link limits { start with bytes := rest }
      hundefined _).from rfl id) fun _ ↦ .inr (hundefined _)
  exact (agrees_error (by decide)).2 ⟨rfl, le_rfl, fun _ ↦ id⟩

theorem agreesVariable_succ {fuel : ℕ} (htable : AgreesTable link limits fuel)
    (hfunction : AgreesFunction link limits fuel) : AgreesVariable link limits (fuel + 1) := by
  intro free place start hlowest
  refine agrees_recorded hlowest (fun rest hnone ↦ expectVariable_none link limits hnone) ?_
  refine agrees_readVariable { start with lowest := start.stack.length } htable hfunction le_rfl
    (fun state hright ↦ hright.2) (fun type rest state hbytes ↦ not_right_marker hbytes) ?_
  rintro functions state hstack hlength ⟨-, value, hafter⟩
  change state.stack = value :: start.stack at hafter
  refine hlength (Nat.add_right_cancel (m := start.stack.length) ?_)
  rw [← List.length_append, ← hstack, hafter, List.length_cons, Nat.add_comm]

variable (link limits) in
/-- The decoder does what is expected, or a call is wrong. -/
theorem agrees_decoder (fuel : ℕ) :
    AgreesVariable link limits fuel ∧ AgreesTable link limits fuel ∧
      AgreesFunction link limits fuel := by
  induction fuel with
  | zero =>
    refine ⟨fun free place start hlowest ↦ ?_, fun free entries below start _ _ ↦ ?_,
      fun free functions below start _ _ ↦ ?_⟩
    · rw [expectVariable, readVariable]
      exact (agrees_error (by decide)).2 ⟨rfl, le_min le_rfl hlowest, False.elim⟩
    · rw [expectEntries, readTable]
      exact (agrees_error (by decide)).2 ⟨rfl, le_rfl, False.elim⟩
    · rw [expectChunks, readFunction]
      exact (agrees_error (by decide)).2 ⟨rfl, le_rfl, False.elim⟩
  | succ fuel ih =>
    obtain ⟨hvariable, htable, hfunction⟩ := ih
    exact ⟨agreesVariable_succ htable hfunction, agreesTable_succ hvariable htable,
      agreesFunction_succ hvariable hfunction⟩

end Agreement

end Decoder

end Elua.LuaRpc
