import Elua.LuaRpc.StackAgreement

/-!
# The balance of the Lua stack

Reading one value takes at least a byte for each call, so the fuel that `Decoder.calls` has is
enough (`spends_decoder`). `allRight_iff` says for which bytes all calls of `read_variable` keep the
stack in balance. -/

set_option autoImplicit false
set_option relaxedAutoImplicit false

namespace Elua.LuaRpc

open Foundation

variable {Prototype : Type} {α β : Type}

namespace Decoder

/-! ### The fuel is enough -/

section Fuel

variable {bound spent : ℕ} {code : Decoder Prototype α}

/-- With no more than `bound` bytes left, code does not use up its fuel, and takes at least `spent`
bytes if it returns. -/
def Spends (bound spent : ℕ) (code : Decoder Prototype α) : Prop :=
  ∀ start, start.bytes.length ≤ bound →
    match code start with
    | .ok _ state => state.bytes.length + spent ≤ start.bytes.length
    | .error fault _ => fault ≠ .fuel

theorem Spends.less (hspends : Spends bound spent code) : Spends bound 0 code := by
  intro start hbound
  have hcode := hspends start hbound
  cases hresult : code start with
  | ok a state =>
    rw [hresult] at hcode
    exact (Nat.le_add_right _ _).trans hcode
  | error fault state =>
    rw [hresult] at hcode
    exact hcode

theorem Spends.bind {next : α → Decoder Prototype β} {n : ℕ} (hcode : Spends bound spent code)
    (hnext : ∀ a, spent ≤ bound → Spends (bound - spent) n (next a)) :
    Spends bound (spent + n) (code >>= next) := by
  intro start hbound
  have hfirst := hcode start hbound
  change match EStateM.bind code next start with
    | .ok _ state => _
    | .error fault _ => _
  unfold EStateM.bind
  cases hresult : code start with
  | error fault state =>
    rw [hresult] at hfirst
    exact hfirst
  | ok a state =>
    rw [hresult] at hfirst
    change state.bytes.length + spent ≤ start.bytes.length at hfirst
    have hsecond := hnext a (by omega) state (by omega)
    dsimp only
    cases hlast : next a state with
    | error fault last =>
      rw [hlast] at hsecond
      exact hsecond
    | ok b last =>
      rw [hlast] at hsecond
      change last.bytes.length + n ≤ state.bytes.length at hsecond
      change last.bytes.length + (spent + n) ≤ start.bytes.length
      omega

theorem spends_pure (a : α) : Spends bound 0 (pure a : Decoder Prototype α) :=
  fun _ _ ↦ le_rfl

theorem spends_throw {fault : ReadFault} (hfault : fault ≠ .fuel) :
    Spends bound spent (throw fault : Decoder Prototype α) :=
  fun _ _ ↦ hfault

theorem spends_luaGettop : Spends bound 0 (luaGettop : Decoder Prototype ℕ) := fun _ _ ↦ le_rfl

theorem spends_ite {c : Prop} [Decidable c] {other : Decoder Prototype α}
    (hcode : Spends bound spent code) (hother : Spends bound spent other) :
    Spends bound spent (if c then code else other) := by
  split_ifs
  · exact hcode
  · exact hother

theorem spends_fromTransport {read : List UInt8 → Except ReadFault (α × List UInt8)}
    (htakes : ∀ bytes a rest, read bytes = .ok (a, rest) → rest.length + spent ≤ bytes.length)
    (hfuel : ∀ bytes, read bytes ≠ .error .fuel) :
    Spends bound spent (fromTransport read : Decoder Prototype α) := by
  intro start _
  unfold fromTransport
  cases hread : read start.bytes with
  | error fault =>
    rintro rfl
    exact hfuel _ hread
  | ok found => exact htakes _ _ _ hread

theorem spends_readU8 : Spends bound 1 (fromTransport transportReadU8 : Decoder Prototype UInt8) :=
  spends_fromTransport
    (fun bytes byte rest hread ↦ by rw [eq_cons_of_transportReadU8 hread, List.length_cons])
    (fun bytes hread ↦ by cases bytes <;> cases hread)

variable (link : Link Prototype) (limits : Limits)

theorem spends_reserve (slots : ℕ) :
    Spends bound 0 (reserve limits slots : Decoder Prototype Unit) := by
  intro start _
  unfold reserve
  split_ifs
  · exact le_rfl
  · exact nofun

theorem spends_enter {routine : Routine} {free : ℕ} {body : ℕ → Decoder Prototype α}
    (hbody : ∀ free, Spends bound spent (body free)) :
    Spends bound 0 (enter limits routine free body) :=
  spends_ite (hbody _).less (spends_throw (by decide))

theorem spends_push (value : Value Prototype) : Spends bound 0 (push limits value) :=
  (spends_reserve limits 1).bind (n := 0) fun _ _ _ _ ↦ le_rfl

theorem spends_readNumber :
    Spends bound 0 (fromTransport (readNumber link) : Decoder Prototype ℕ) := by
  refine spends_fromTransport (fun bytes x rest hread ↦ ?_) fun bytes hread ↦ ?_
  · unfold readNumber transportReadNumber at hread
    dsimp only at hread
    split_ifs at hread <;> cases hread <;> rw [List.length_drop] <;> omega
  · unfold readNumber at hread
    split at hread <;> cases hread

theorem readString_eq (bytes : List UInt8) :
    readString link bytes =
      if bytes.length < 4 then .error .noData
      else
        let len := fromMemory link.receiverTpt.locLittle
          (link.receiverTpt.swapBytes (bytes.take 4))
        if 2 ^ 31 ≤ len then .error .undefined
        else if (bytes.drop 4).length < len then .error .noData
        else .ok ((bytes.drop 4).take len, (bytes.drop 4).drop len) := by
  unfold readString transportReadU32
  split_ifs <;> rfl

theorem spends_readString :
    Spends bound 0 (fromTransport (readString link) : Decoder Prototype (List UInt8)) := by
  refine spends_fromTransport (fun bytes s rest hread ↦ ?_) fun bytes hread ↦ ?_
  · rw [readString_eq] at hread
    dsimp only at hread
    split_ifs at hread
    obtain rfl := (Prod.mk.inj (Except.ok.inj hread)).2
    rw [List.length_drop, List.length_drop]
    omega
  · rw [readString_eq] at hread
    dsimp only at hread
    split_ifs at hread
    · cases hread
    · cases hread
    · cases hread

theorem spends_readBuffer (free : ℕ) :
    Spends bound 0 (fromTransport (readBuffer link free) : Decoder Prototype (List UInt8)) := by
  have hstring : ∀ bytes, readBuffer link free bytes = readString link bytes ∨
      readBuffer link free bytes = .error .undefined ∨
        readBuffer link free bytes = .error .noData := by
    intro bytes
    unfold readBuffer transportReadU32
    split_ifs
    · exact .inr (.inr rfl)
    · exact ite_eq_or_eq _ _ _ |>.imp_right .inl
  intro start hbound
  have hread := spends_readString link start hbound
  unfold fromTransport at hread ⊢
  obtain hsame | hfault | hfault := hstring start.bytes
  · rw [hsame]
    exact hread
  · rw [hfault]
    exact nofun
  · rw [hfault]
    exact nofun

/-- What works on the stack alone takes no bytes. -/
theorem spends_stack (hbytes : ∀ start, (endState (code start)).bytes = start.bytes)
    (hfuel : ∀ start, ending (code start) ≠ .error .fuel) : Spends bound 0 code := by
  intro start _
  have hend := hbytes start
  have hending := hfuel start
  cases hresult : code start with
  | ok a state =>
    rw [hresult] at hend
    exact (congrArg List.length hend).le
  | error fault state =>
    rw [hresult] at hending
    rintro rfl
    exact hending rfl

theorem spends_luaRawset (index : ℕ) : Spends bound 0 (luaRawset link index) := by
  refine spends_stack (fun start ↦ ?_) fun start ↦ ?_
  all_goals
    unfold luaRawset
    dsimp only
    split
  · split_ifs
    · rfl
    · split <;> rfl
  · rfl
  · split_ifs
    · exact nofun
    · split
      · exact nofun
      · rename_i fault hcheck
        rw [checkKey_error hcheck]
        exact nofun
  · exact nofun

theorem spends_loadTop : Spends bound 0 (loadTop link limits) := by
  refine spends_stack (fun start ↦ ?_) fun start ↦ ?_
  all_goals
    unfold loadTop
    split
  · rfl
  · split
    · split_ifs <;> rfl
    · rfl
  · exact nofun
  · split
    · split_ifs <;> exact nofun
    · exact nofun

theorem spends_readIndex (free : ℕ) : Spends bound 0 (readIndex link limits free) := by
  refine (spends_readBuffer link free).bind (n := 0) fun name _ ↦
    spends_ite ?_ (spends_throw (by decide))
  refine (spends_reserve limits _).bind (n := 0) fun _ _ ↦ ?_
  cases link.index name with
  | some value => exact spends_push limits value
  | none => exact spends_throw (by decide)

theorem spends_recorded {body : Decoder Prototype Bool} (hbody : Spends bound spent body)
    (place : Place) : Spends bound spent (recorded place body) := by
  intro start hbound
  have hend := hbody { start with lowest := start.stack.length } hbound
  unfold recorded
  dsimp only
  cases hresult : body { start with lowest := start.stack.length } with
  | ok returned state => rw [hresult] at hend; exact hend
  | error fault state => rw [hresult] at hend; exact hend

theorem spends_decoder (fuel : ℕ) :
    (∀ bound free, 2 * bound + 1 ≤ fuel → Spends bound 1 (readVariable link limits fuel free)) ∧
      (∀ bound free index, 2 * bound + 2 ≤ fuel →
        Spends bound 0 (readTable link limits fuel free index)) ∧
      ∀ bound free, 2 * bound + 2 ≤ fuel → Spends bound 0 (readFunction link limits fuel free) := by
  induction fuel with
  | zero => exact ⟨by omega, by omega, by omega⟩
  | succ fuel ih =>
    obtain ⟨hvariable, htable, hfunction⟩ := ih
    refine ⟨fun bound free hfuel ↦ ?_, fun bound free index hfuel ↦ ?_, fun bound free hfuel ↦ ?_⟩
    · rw [readVariable, enter]
      refine spends_ite ?_ (spends_throw (by decide))
      generalize free - limits.frame .readVariable = free
      refine spends_readU8.bind (n := 0) fun type hbound ↦ ?_
      have hreadPush {γ : Type} {read : List UInt8 → Except ReadFault (γ × List UInt8)}
          {n : ℕ} (hread : Spends (bound - 1) n (fromTransport read : Decoder Prototype γ))
          (value : γ → Value Prototype) : Spends (bound - 1) 0
            (fromTransport read >>= fun a ↦ push limits (value a) >>= fun _ ↦ pure true) :=
        (hread.bind fun a _ ↦ (spends_push limits (value a)).bind fun _ _ ↦ spends_pure true).less
      refine spends_ite ((spends_push limits _).bind fun _ _ ↦ spends_pure true) ?_
      refine spends_ite (hreadPush spends_readU8 _) ?_
      refine spends_ite (hreadPush (spends_readNumber link) _) ?_
      refine spends_ite (hreadPush (spends_readBuffer link free) _) ?_
      refine spends_ite ?_ ?_
      · have hentries (free : ℕ) : Spends (bound - 1) 0 (push limits (.table []) >>= fun _ ↦
            luaGettop >>= fun index ↦ readTable link limits fuel free index) :=
          (spends_push limits _).bind (n := 0) fun _ _ ↦
            spends_luaGettop.bind (n := 0) fun index _ ↦ htable _ free index (by omega)
        exact (spends_enter limits hentries).bind fun _ _ ↦ spends_pure true
      refine spends_ite (spends_pure false) ?_
      refine spends_ite ((spends_enter limits fun free ↦ hfunction _ free (by omega)).bind
        fun _ _ ↦ spends_pure true) ?_
      refine spends_ite (spends_pure false) ?_
      exact spends_ite ((spends_enter limits (spends_readIndex link limits)).bind
        fun _ _ ↦ spends_pure true)
        (spends_throw (by decide))
    · rw [readTable]
      refine ((spends_recorded (hvariable bound free (by omega)) .key).bind (n := 0)
        fun more hbound ↦ spends_ite ?_ (spends_pure ())).less
      refine ((spends_recorded (hvariable _ free (by omega)) .value).bind (n := 0)
        fun _ hmore ↦ ?_).less
      exact (spends_luaRawset link index).bind fun _ _ ↦ htable _ free index (by omega)
    · rw [readFunction]
      refine ((spends_recorded (hvariable bound free (by omega)) .chunk).bind (n := 0)
        fun more hbound ↦ spends_ite ?_ (spends_pure ())).less
      exact (spends_loadTop link limits).bind fun _ _ ↦ hfunction _ free (by omega)

end Fuel

end Decoder

/-! ### The balance -/

section Balance

open Decoder

variable (link : Link Prototype) (limits : Limits) (free : ℕ) (bytes : List UInt8)
  (stack : List (Value Prototype))

/-- What is expected of the bytes does not use up the fuel either. -/
theorem expectVariable_ne_fuel :
    expectVariable link limits (2 * bytes.length + 1) free .outside (limits.room - stack.length)
      bytes ≠ .error .fuel := by
  intro hexpected
  have hagrees := (agrees_decoder link limits (2 * bytes.length + 1)).1 free .outside
    ⟨bytes, stack, stack.length, []⟩ le_rfl
  have hspends := spends_recorded ((spends_decoder link limits (2 * bytes.length + 1)).1
    bytes.length free le_rfl) .outside ⟨bytes, stack, stack.length, []⟩ le_rfl
  rw [hexpected] at hagrees
  generalize recorded .outside _ _ = result at hagrees hspends
  cases result with
  | ok a state => exact hagrees
  | error fault state => exact hspends ((agrees_error (by decide)).1 hagrees).1

/-- All calls of `read_variable` are right, at every depth, just if the bytes are as they should
be. -/
theorem allRight_iff :
    (∀ call ∈ Decoder.calls link limits free bytes stack, call.Right) ↔
      WellFormed link limits free (limits.room - stack.length) bytes := by
  have hagrees := (agrees_decoder link limits (2 * bytes.length + 1)).1 free .outside
    ⟨bytes, stack, stack.length, []⟩ le_rfl
  have hfuel := expectVariable_ne_fuel link limits free bytes stack
  have hstart : (⟨bytes, stack, stack.length, []⟩ : Decoding Prototype).AllRight :=
    fun call hcall ↦ absurd hcall List.not_mem_nil
  change (endState (recorded .outside (Decoder.readVariable link limits (2 * bytes.length + 1) free)
    ⟨bytes, stack, stack.length, []⟩)).AllRight ↔
      expectVariable link limits _ free .outside _ bytes ≠ _
  change Agrees _ _ _
    (expectVariable link limits (2 * bytes.length + 1) free .outside _ bytes) _ at hagrees
  generalize recorded .outside _ _ = result at hagrees
  generalize expectVariable link limits (2 * bytes.length + 1) free .outside _ bytes = expected
    at hagrees hfuel
  constructor
  · rintro hall rfl
    exact hagrees.elim (· hall) id
  · intro hformed
    cases expected with
    | error fault =>
      have hdefined : fault ≠ .undefined := fun hfault ↦ hformed (congrArg Except.error hfault)
      cases result with
      | ok returned state => exact absurd hagrees.of_error_ok.1 hdefined
      | error thrown state =>
        obtain ⟨rfl, -, hright⟩ := (agrees_error hdefined).1 hagrees
        exact hright (throws_of_ne hdefined fun hfault ↦ hfuel (congrArg _ hfault)) hstart
    | ok found =>
      cases result with
      | ok returned state => exact hagrees.2.2.2.2 hstart
      | error thrown state => exact hagrees.elim

end Balance

/-! ### An end marker in the place of a value -/

/-- Two endpoints with numbers of four bytes, no functions and no globals. -/
def bareLink : Link Unit where
  sender := ⟨true, .int32⟩
  receiver := ⟨true, .int32⟩
  undefined _ _ _ := 0
  dump _ := []
  load _ := .inr []
  nups _ := 0
  index _ := none
  numberString _ := []

/-- Stacks with room for twenty values, and for calls that take a hundred bytes each. -/
def twentySlots : Limits := ⟨20, fun _ ↦ 1⟩

/-- A table with the key `true` and an end marker for its value: the table and the key are taken off
as key and value, and 1 is returned with nothing pushed. -/
theorem not_allRight_missingValue :
    ¬ ∀ call ∈ Decoder.calls bareLink twentySlots 10
      [rpcTable, rpcBoolean, 1, rpcTableEnd, rpcTableEnd] [], call.Right := by
  intro hall
  have hcalls : Decoder.calls bareLink twentySlots 10
      [rpcTable, rpcBoolean, 1, rpcTableEnd, rpcTableEnd] [] =
      [⟨.key, [rpcBoolean, 1, rpcTableEnd, rpcTableEnd], [.table []], 1, .ok true,
          [.boolean true, .table []]⟩,
        ⟨.value, [rpcTableEnd, rpcTableEnd], [.boolean true, .table []], 2, .ok false,
          [.boolean true, .table []]⟩,
        ⟨.key, [rpcTableEnd], [], 0, .ok false, []⟩,
        ⟨.outside, [rpcTable, rpcBoolean, 1, rpcTableEnd, rpcTableEnd], [], 0, .ok true, []⟩] := rfl
  rw [hcalls] at hall
  obtain ⟨-, value, hpushed⟩ := hall
    ⟨.outside, [rpcTable, rpcBoolean, 1, rpcTableEnd, rpcTableEnd], [], 0, .ok true, []⟩ (by simp)
  cases hpushed

end Elua.LuaRpc
