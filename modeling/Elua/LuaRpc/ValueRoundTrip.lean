import Elua.LuaRpc.Values

/-!
# What arrives of a value

`received` says what `read_variable` makes of a value that was written: a number is converted, a
function is the one that was dumped with new upvalues, and a helper is what the receiver has under
its name. `decodes_writeVariable`: this is what is read from exactly the bytes that were written,
whatever comes after them, for every value that can be sent (`Sendable`), unless writing it raises
an error.

`SameValue` is the equality of a value with one at the other end. A value is received as an equal
one if its functions have no upvalues set, its numbers can be represented at both ends and it holds
no helper (`Exact`). -/

set_option autoImplicit false
set_option relaxedAutoImplicit false

namespace Elua.LuaRpc

open Foundation

variable {Prototype : Type} (link : Link Prototype)

/-! ### What is received -/

mutual

/-- What arrives of a value, or the error that reading it raises. -/
def received : Value Prototype → Except ReadFault (Value Prototype)
  | .nil => .ok .nil
  | .boolean value => .ok (.boolean value)
  | .number x => .ok (.number
      (numberReceived link.undefined link.sender.number link.receiver.number x))
  | .string bytes => .ok (.string bytes)
  | .table entries => (receivedEntries entries).map .table
  | .closure prototype _ => .ok (loadedChunk link (link.dump prototype))
  | .userdata (some helper) =>
    match link.index helper.name with
    | some value => .ok value
    | none => .error .raised
  | .userdata none | .cClosure | .lightFunction | .rotable | .lightUserdata | .thread =>
    .error .undefined

/-- What arrives of the entries of a table. -/
def receivedEntries : List (Value Prototype × Value Prototype) →
    Except ReadFault (List (Value Prototype × Value Prototype))
  | [] => .ok []
  | (key, value) :: rest => do
    let newKey ← received key
    let newValue ← received value
    checkKey link.receiver.number newKey
    let newRest ← receivedEntries rest
    pure ((newKey, newValue) :: newRest)

end

mutual

/-- A value in which the code handles every part: no rotable, no light function, no C closure, no
helper of another link, and no string whose length does not fit an `int`. A number is of the
sender's type. -/
def Sendable : Value Prototype → Prop
  | .nil | .boolean _ | .userdata none | .lightUserdata | .thread => True
  | .number x => x < 256 ^ link.sender.number.size
  | .string bytes => bytes.length < 2 ^ 31
  | .table entries => SendableEntries entries
  | .closure prototype _ => (link.dump prototype).length < 2 ^ 31
  | .userdata (some helper) => helper.own = true ∧ helper.name.length < 2 ^ 31
  | .cClosure | .lightFunction | .rotable => False

/-- All keys and values can be sent. -/
def SendableEntries : List (Value Prototype × Value Prototype) → Prop
  | [] => True
  | (key, value) :: rest => Sendable key ∧ Sendable value ∧ SendableEntries rest

end

mutual

/-- The fuel that reading a value takes. -/
def Value.nodes : Value Prototype → ℕ
  | .table entries => nodesOf entries + 1
  | .closure _ _ => 4
  | _ => 1

/-- The fuel that reading the entries of a table takes. -/
def Value.nodesOf : List (Value Prototype × Value Prototype) → ℕ
  | [] => 2
  | (key, value) :: rest => key.nodes + value.nodes + nodesOf rest + 1

end

/-- Reading any value takes some fuel. -/
theorem exists_fuel {value : Value Prototype} {fuel : ℕ} (hfuel : value.nodes ≤ fuel) :
    ∃ less, fuel = less + 1 := by
  have hpositive : 0 < value.nodes := by cases value <;> simp [Value.nodes]
  exact ⟨fuel - 1, by omega⟩

/-- What is written is read back as what arrives of the value. -/
def Decodes (value : Value Prototype) (bytes : List UInt8) : Prop :=
  ∀ rest fuel, value.nodes ≤ fuel →
    readVariable link fuel (bytes ++ rest) =
      (received link value).map fun new ↦ (some [new], rest)

/-- So are entries, up to the end of their table. -/
def DecodesEntries (entries : List (Value Prototype × Value Prototype)) (bytes : List UInt8) :
    Prop :=
  ∀ rest fuel before, Value.nodesOf entries ≤ fuel →
    readTable link fuel (bytes ++ rpcTableEnd :: rest) before =
      (receivedEntries link entries).map fun new ↦ (before ++ new, rest)

variable {link}

/-! ### Strings and numbers -/

theorem readString_writeString {s bytes : List UInt8} (hwrite : writeString link s = .ok bytes)
    (rest : List UInt8) : readString link (bytes ++ rest) = .ok (s, rest) := by
  unfold writeString at hwrite
  split_ifs at hwrite with hfits
  obtain rfl := Except.ok.inj hwrite
  have hnet : transportWriteU32 link.senderTpt s.length =
      inMemory link.receiverTpt.netLittle 4 s.length := inMemory_swapped link.senderTpt 4 s.length
  have hlength := length_inMemory link.receiverTpt.netLittle 4 s.length
  have hnumber : s.length % 256 ^ 4 = s.length := Nat.mod_eq_of_lt (by omega)
  unfold readString transportReadU32
  rw [hnet, List.append_assoc, if_neg (by rw [List.length_append, hlength]; omega),
    List.take_left' hlength, List.drop_left' hlength, swapped_inMemory, fromMemory_inMemory,
    hnumber]
  change (if 2 ^ 31 ≤ s.length then _ else if (s ++ rest).length < s.length then _ else
    Except.ok ((s ++ rest).take s.length, (s ++ rest).drop s.length)) = _
  rw [if_neg (by omega), if_neg (by rw [List.length_append]; omega), List.take_left, List.drop_left]

theorem exists_writeString (link : Link Prototype) {s : List UInt8} (hfits : s.length < 2 ^ 31) :
    ∃ bytes, writeString link s = .ok bytes := ⟨_, if_pos hfits⟩

/-- A string with its tag. -/
theorem readVariable_string {s bytes : List UInt8} (hwrite : writeString link s = .ok bytes)
    (fuel : ℕ) (rest : List UInt8) :
    readVariable link (fuel + 1) (rpcString :: bytes ++ rest) =
      .ok (some [.string s], rest) := by
  rw [readVariable]
  change (readString link (bytes ++ rest) >>= fun result ↦
    pure (some [Value.string result.1], result.2) : Except ReadFault _) = _
  rw [readString_writeString hwrite]
  rfl

/-- The number that arrives, if the types are suited. -/
theorem readNumber_writeNumber (hsuited : Suited link.sender.number link.receiver.number) {x : ℕ}
    (hx : x < 256 ^ link.sender.number.size) :
    ∃ bytes, writeNumber link x = .ok (rpcNumber :: bytes) ∧
      ∀ rest, readNumber link (bytes ++ rest) = .ok
        (numberReceived link.undefined link.sender.number link.receiver.number x, rest) := by
  obtain ⟨bytes, hwrite, hread⟩ := crosses_of_suited link.undefined link.sender
    link.receiver hsuited hx
  refine ⟨bytes, ?_, fun rest ↦ ?_⟩
  · unfold writeNumber Link.senderTpt
    rw [hwrite]
  · unfold readNumber Link.receiverTpt
    rw [hread]

/-! ### Tables and functions -/

theorem decodesEntries_nil : DecodesEntries link [] [] := by
  intro rest fuel before hfuel
  obtain ⟨fuel, rfl⟩ : ∃ more, fuel = more + 2 := ⟨fuel - 2, by rw [Value.nodesOf] at hfuel; omega⟩
  rw [readTable, List.nil_append]
  change Except.ok (before, rest) = Except.ok (before ++ [], rest)
  rw [List.append_nil]

/-- A key, its value and the rest of the entries. -/
theorem decodesEntries_cons {key value : Value Prototype}
    {entries : List (Value Prototype × Value Prototype)}
    {keyBytes valueBytes restBytes : List UInt8}
    (hkey : Decodes link key keyBytes) (hvalue : Decodes link value valueBytes)
    (hentries : DecodesEntries link entries restBytes) :
    DecodesEntries link ((key, value) :: entries) (keyBytes ++ (valueBytes ++ restBytes)) := by
  intro rest fuel before hfuel
  rw [Value.nodesOf] at hfuel
  obtain ⟨fuel, rfl⟩ : ∃ more, fuel = more + 1 := ⟨fuel - 1, by omega⟩
  rw [readTable, receivedEntries, List.append_assoc, List.append_assoc, hkey _ fuel (by omega)]
  cases received link key with
  | error fault => rfl
  | ok newKey =>
    change (readVariable link fuel (valueBytes ++ (restBytes ++ rpcTableEnd :: rest)) >>= _) = _
    rw [hvalue _ fuel (by omega)]
    cases received link value with
    | error fault => rfl
    | ok newValue =>
      change (checkKey link.receiver.number newKey >>= fun _ ↦ readTable link fuel
        (restBytes ++ rpcTableEnd :: rest) (before ++ [(newKey, newValue)])) =
          (checkKey link.receiver.number newKey >>= fun _ ↦
            receivedEntries link entries >>= fun newRest ↦
              pure ((newKey, newValue) :: newRest)).map _
      cases checkKey link.receiver.number newKey with
      | error fault => rfl
      | ok =>
        change readTable link fuel (restBytes ++ rpcTableEnd :: rest)
          (before ++ [(newKey, newValue)]) = (receivedEntries link entries >>= fun newRest ↦
            pure ((newKey, newValue) :: newRest)).map _
        rw [hentries rest fuel _ (by omega)]
        cases receivedEntries link entries with
        | error fault => rfl
        | ok newRest =>
          change Except.ok (before ++ [(newKey, newValue)] ++ newRest, rest) =
            Except.ok (before ++ (newKey, newValue) :: newRest, rest)
          rw [List.append_assoc, List.singleton_append]

theorem decodes_table {entries : List (Value Prototype × Value Prototype)} {bytes : List UInt8}
    (hentries : DecodesEntries link entries bytes) :
    Decodes link (.table entries) (rpcTable :: (bytes ++ [rpcTableEnd])) := by
  intro rest fuel hfuel
  rw [Value.nodes] at hfuel
  obtain ⟨fuel, rfl⟩ : ∃ more, fuel = more + 1 := ⟨fuel - 1, by omega⟩
  rw [readVariable, received]
  change (readTable link fuel (bytes ++ [rpcTableEnd] ++ rest) [] >>= fun result ↦
    pure (some [Value.table result.1], result.2) : Except ReadFault _) = _
  rw [List.append_assoc, List.singleton_append, hentries rest fuel [] (by omega)]
  cases receivedEntries link entries with
  | error fault => rfl
  | ok newEntries => rfl

theorem decodes_closure {prototype : Prototype} {upvalues : List (Option ℕ)} {bytes : List UInt8}
    (hwrite : writeString link (link.dump prototype) = .ok bytes) :
    Decodes link (.closure prototype upvalues)
      (rpcFunction :: (rpcString :: bytes ++ [rpcFunctionEnd])) := by
  intro rest fuel hfuel
  rw [Value.nodes] at hfuel
  obtain ⟨fuel, rfl⟩ : ∃ more, fuel = more + 4 := ⟨fuel - 4, by omega⟩
  rw [readVariable, received]
  change (readFunction link (fuel + 3) (rpcString :: bytes ++ [rpcFunctionEnd] ++ rest) [] >>=
    fun result ↦ pure (some result.1, result.2) : Except ReadFault _) = _
  rw [readFunction, List.append_assoc, readVariable_string hwrite]
  change (readFunction link (fuel + 2) (rpcFunctionEnd :: rest)
    [loadedChunk link (link.dump prototype)] >>= fun result ↦
      pure (some result.1, result.2) : Except ReadFault _) = _
  rw [readFunction]
  rfl

/-! ### Every value -/

mutual

/-- Writing a value raises an error, or what is written is read back as what arrives of the value.
-/
theorem decodes_writeVariable (hsuited : Suited link.sender.number link.receiver.number) :
    ∀ value : Value Prototype, Sendable link value →
      (∃ message, writeVariable link value = .error (.raised message)) ∨
        ∃ bytes, writeVariable link value = .ok bytes ∧ Decodes link value bytes
  | .nil, _ => .inr ⟨[rpcNil], rfl, fun rest fuel hfuel ↦ by
      obtain ⟨fuel, rfl⟩ := exists_fuel hfuel
      rw [readVariable]
      rfl⟩
  | .boolean value, _ => .inr ⟨[rpcBoolean, value.toUInt8], rfl, fun rest fuel hfuel ↦ by
      obtain ⟨fuel, rfl⟩ := exists_fuel hfuel
      rw [readVariable]
      cases value <;> rfl⟩
  | .number x, hx => by
    obtain ⟨bytes, hwrite, hread⟩ := readNumber_writeNumber hsuited hx
    refine .inr ⟨_, hwrite, fun rest fuel hfuel ↦ ?_⟩
    obtain ⟨fuel, rfl⟩ := exists_fuel hfuel
    rw [readVariable]
    change (readNumber link (bytes ++ rest) >>= fun result ↦
      pure (some [Value.number result.1], result.2) : Except ReadFault _) = _
    rw [hread]
    rfl
  | .string s, hs => by
    obtain ⟨bytes, hwrite⟩ := exists_writeString link hs
    refine .inr ⟨rpcString :: bytes, ?_, fun rest fuel hfuel ↦ ?_⟩
    · rw [writeVariable, writeLuaString, hwrite]
      rfl
    · obtain ⟨fuel, rfl⟩ := exists_fuel hfuel
      exact readVariable_string hwrite fuel rest
  | .table entries, hentries => by
    obtain ⟨message, hraised⟩ | ⟨bytes, hwrite, hdecodes⟩ :=
      decodes_writeTable hsuited entries hentries
    · refine .inl ⟨message, ?_⟩
      rw [writeVariable, hraised]
      rfl
    · refine .inr ⟨_, ?_, decodes_table hdecodes⟩
      rw [writeVariable, hwrite]
      rfl
  | .closure prototype upvalues, hdump => by
    obtain ⟨bytes, hwrite⟩ := exists_writeString link hdump
    refine .inr ⟨_, ?_, decodes_closure hwrite⟩
    rw [writeVariable, writeLuaString, hwrite]
    rfl
  | .userdata (some helper), ⟨hown, hname⟩ => by
    obtain ⟨bytes, hwrite⟩ := exists_writeString link hname
    refine .inr ⟨rpcRemote :: bytes, ?_, fun rest fuel hfuel ↦ ?_⟩
    · rw [writeVariable, writeUserdata, if_pos hown, hwrite]
      rfl
    · obtain ⟨fuel, rfl⟩ := exists_fuel hfuel
      rw [readVariable, received]
      change (readString link (bytes ++ rest) >>= fun result ↦ match link.index result.1 with
        | some value => pure (some [value], result.2)
        | none => Except.error ReadFault.raised : Except ReadFault _) = _
      rw [readString_writeString hwrite]
      change (match link.index helper.name with
        | some value => pure (some [value], rest)
        | none => Except.error ReadFault.raised : Except ReadFault _) = _
      cases link.index helper.name with
      | none => rfl
      | some value => rfl
  | .userdata none, _ => .inl ⟨_, rfl⟩
  | .lightUserdata, _ => .inl ⟨_, rfl⟩
  | .thread, _ => .inl ⟨_, rfl⟩

/-- So does writing the entries of a table. -/
theorem decodes_writeTable (hsuited : Suited link.sender.number link.receiver.number) :
    ∀ entries : List (Value Prototype × Value Prototype), SendableEntries link entries →
      (∃ message, writeTable link entries = .error (.raised message)) ∨
        ∃ bytes, writeTable link entries = .ok bytes ∧ DecodesEntries link entries bytes
  | [], _ => .inr ⟨[], rfl, decodesEntries_nil⟩
  | (key, value) :: rest, ⟨hkey, hvalue, hrest⟩ => by
    rw [writeTable]
    obtain ⟨message, hraised⟩ | ⟨keyBytes, hwriteKey, hkeyDecodes⟩ :=
      decodes_writeVariable hsuited key hkey
    · exact .inl ⟨message, by rw [hraised]; rfl⟩
    obtain ⟨message, hraised⟩ | ⟨valueBytes, hwriteValue, hvalueDecodes⟩ :=
      decodes_writeVariable hsuited value hvalue
    · exact .inl ⟨message, by rw [hwriteKey, hraised]; rfl⟩
    obtain ⟨message, hraised⟩ | ⟨restBytes, hwriteRest, hrestDecodes⟩ :=
      decodes_writeTable hsuited rest hrest
    · exact .inl ⟨message, by rw [hwriteKey, hwriteValue, hraised]; rfl⟩
    exact .inr ⟨_, by rw [hwriteKey, hwriteValue, hwriteRest]; rfl,
      decodesEntries_cons hkeyDecodes hvalueDecodes hrestDecodes⟩

end

/-! ### Equal values -/

/-- Whether two numbers are equal: as integers, if they are, and by their bits otherwise. -/
def LuaNumber.numeq (type : LuaNumber) (x y : ℕ) : Bool :=
  match type.integerValue x, type.integerValue y with
  | some first, some second => decide (first = second)
  | none, none => decide (x = y) && !type.isNaN x
  | _, _ => false

/-- Raw equality. Tables and functions that are entered as they are read are objects of their own.
-/
def rawEqual (type : LuaNumber) : Value Prototype → Value Prototype → Bool
  | .nil, .nil => true
  | .boolean first, .boolean second => first == second
  | .number first, .number second => type.numeq first second
  | .string first, .string second => first == second
  | _, _ => false

/-- Entries with different keys. -/
def KeysDiffer (type : LuaNumber) (entries : List (Value Prototype × Value Prototype)) : Prop :=
  entries.Pairwise fun first second ↦ rawEqual type first.1 second.1 = false

/-- A number of the receiver is equal to one of the sender: by its bits, or as an integer if the
types differ. -/
def SameNumber (sender receiver : LuaNumber) (x y : ℕ) : Prop :=
  if sender = receiver then x = y
  else ∃ value, sender.integerValue x = some value ∧ receiver.integerValue y = some value

variable (link) in
mutual

/-- A value at the other end is equal to the one that was sent, in tables recursively. -/
inductive SameValue : Value Prototype → Value Prototype → Prop
  | nil : SameValue .nil .nil
  | boolean (value : Bool) : SameValue (.boolean value) (.boolean value)
  | number {x y : ℕ} (hsame : SameNumber link.sender.number link.receiver.number x y) :
      SameValue (.number x) (.number y)
  | string (bytes : List UInt8) : SameValue (.string bytes) (.string bytes)
  | table {entries news : List (Value Prototype × Value Prototype)}
      (hentries : SameEntries entries news) (hkeys : KeysDiffer link.receiver.number news) :
      SameValue (.table entries) (.table news)
  | closure (prototype : Prototype) (upvalues : List (Option ℕ)) :
      SameValue (.closure prototype upvalues) (.closure prototype upvalues)

/-- Keys and values are equal. -/
inductive SameEntries : List (Value Prototype × Value Prototype) →
    List (Value Prototype × Value Prototype) → Prop
  | nil : SameEntries [] []
  | cons {key value newKey newValue : Value Prototype}
      {entries news : List (Value Prototype × Value Prototype)} (hkey : SameValue key newKey)
      (hvalue : SameValue value newValue) (hentries : SameEntries entries news) :
      SameEntries ((key, value) :: entries) ((newKey, newValue) :: news)

end

mutual

/-- A value that keeps what it is when it is sent: numbers that both types can represent, functions
without upvalues whose dump can be loaded, and tables as the VM has them. -/
def Exact (link : Link Prototype) : Value Prototype → Prop
  | .nil | .boolean _ | .string _ => True
  | .number x => link.sender.number = link.receiver.number ∨
      ∃ value y, link.sender.number.integerValue x = some value ∧
        link.receiver.number.integerValue y = some value
  | .table entries => KeysDiffer link.sender.number entries ∧ ExactEntries link entries
  | .closure prototype upvalues => link.load (link.dump prototype) = .inl prototype ∧
      upvalues = List.replicate (link.nups prototype) none
  | .cClosure | .lightFunction | .rotable | .userdata _ | .lightUserdata | .thread => False

/-- Keys and values keep what they are, and the keys are possible ones. -/
def ExactEntries (link : Link Prototype) : List (Value Prototype × Value Prototype) → Prop
  | [] => True
  | (key, value) :: rest => checkKey link.sender.number key = .ok () ∧ Exact link key ∧
      Exact link value ∧ ExactEntries link rest

end

theorem sameNumber_numberReceived (hsuited : Suited link.sender.number link.receiver.number)
    {x : ℕ} (hexact : Exact link (.number x)) :
    SameNumber link.sender.number link.receiver.number x
      (numberReceived link.undefined link.sender.number link.receiver.number x) := by
  unfold SameNumber
  split_ifs with hsame
  · unfold numberReceived
    rw [if_pos hsame]
  · obtain hequal | ⟨value, y, hvalue, hy⟩ := hexact
    · exact absurd hequal hsame
    · exact ⟨value, hvalue, integerValue_numberReceived hsuited hvalue hy⟩

theorem isNaN_of_integerValue {type : LuaNumber} {x : ℕ} {value : ℤ}
    (hvalue : type.integerValue x = some value) : type.isNaN x = false := by
  cases type with
  | int32 => rfl
  | int64 => rfl
  | float32 => exact FloatFormat.isNaN_of_integerValue hvalue
  | float64 => exact FloatFormat.isNaN_of_integerValue hvalue

theorem checkKey_number (type : LuaNumber) (bits : ℕ) :
    checkKey type (.number bits : Value Prototype) =
      if type.isNaN bits then .error .raised else .ok () := rfl

theorem rawEqual_number (type : LuaNumber) (first second : ℕ) :
    rawEqual type (.number first : Value Prototype) (.number second) = type.numeq first second :=
  rfl

/-- An equal key is possible as well. -/
theorem checkKey_of_sameValue {key newKey : Value Prototype} (hsame : SameValue link key newKey)
    (hkey : checkKey link.sender.number key = .ok ()) :
    checkKey link.receiver.number newKey = .ok () := by
  cases hsame with
  | nil => cases hkey
  | boolean value => rfl
  | string bytes => rfl
  | table hentries hkeys => rfl
  | closure prototype upvalues => rfl
  | number hnumber =>
    unfold SameNumber at hnumber
    split_ifs at hnumber with htype
    · rw [← hnumber, ← htype]
      exact hkey
    · obtain ⟨value, -, hvalue⟩ := hnumber
      rw [checkKey_number, isNaN_of_integerValue hvalue]
      rfl

/-- Keys that are equal at the receiver were equal. -/
theorem rawEqual_of_sameValue {first second newFirst newSecond : Value Prototype}
    (hfirst : SameValue link first newFirst) (hsecond : SameValue link second newSecond)
    (hdiffer : rawEqual link.sender.number first second = false) :
    rawEqual link.receiver.number newFirst newSecond = false := by
  cases hfirst with
  | number hx =>
    cases hsecond with
    | number hy =>
      unfold SameNumber at hx hy
      split_ifs at hx hy with htype
      · rw [← hx, ← hy, ← htype]
        exact hdiffer
      · obtain ⟨value, hvalue, hnew⟩ := hx
        obtain ⟨other, hother, hothers⟩ := hy
        rw [rawEqual_number] at hdiffer ⊢
        unfold LuaNumber.numeq at hdiffer ⊢
        rw [hvalue, hother] at hdiffer
        rw [hnew, hothers]
        exact hdiffer
    | _ => rfl
  | nil => cases hsecond <;> first | rfl | exact hdiffer
  | boolean value => cases hsecond <;> first | rfl | exact hdiffer
  | string bytes => cases hsecond <;> first | rfl | exact hdiffer
  | table hentries hkeys => cases hsecond <;> rfl
  | closure prototype upvalues => cases hsecond <;> rfl

theorem exists_of_mem_sameEntries {entries news : List (Value Prototype × Value Prototype)}
    (hentries : SameEntries link entries news) :
    ∀ new ∈ news, ∃ entry ∈ entries, SameValue link entry.1 new.1 := by
  induction entries generalizing news with
  | nil =>
    cases hentries
    exact fun new hmem ↦ absurd hmem List.not_mem_nil
  | cons entry entries ih =>
    cases hentries with
    | cons hkey hvalue hrest =>
      intro new hmem
      obtain rfl | hlater := List.mem_cons.mp hmem
      · exact ⟨_, List.mem_cons_self, hkey⟩
      · obtain ⟨old, hold, hsame⟩ := ih hrest new hlater
        exact ⟨old, List.mem_cons_of_mem _ hold, hsame⟩

/-- The keys of equal entries are as different. -/
theorem keysDiffer_of_sameEntries {entries news : List (Value Prototype × Value Prototype)}
    (hentries : SameEntries link entries news) (hkeys : KeysDiffer link.sender.number entries) :
    KeysDiffer link.receiver.number news := by
  induction entries generalizing news with
  | nil =>
    cases hentries
    exact .nil
  | cons entry entries ih =>
    cases hentries with
    | cons hkey hvalue hrest =>
      obtain ⟨hfirst, hlater⟩ := List.pairwise_cons.mp hkeys
      refine List.pairwise_cons.mpr ⟨fun new hmem ↦ ?_, ih hrest hlater⟩
      obtain ⟨old, hold, hsame⟩ := exists_of_mem_sameEntries hrest new hmem
      exact rawEqual_of_sameValue hkey hsame (hfirst old hold)

mutual

/-- An exact value arrives as an equal one. -/
theorem received_of_exact (hsuited : Suited link.sender.number link.receiver.number) :
    ∀ value : Value Prototype, Exact link value →
      ∃ new, received link value = .ok new ∧ SameValue link value new
  | .nil, _ => ⟨_, rfl, .nil⟩
  | .boolean value, _ => ⟨_, rfl, .boolean value⟩
  | .number x, hexact => ⟨_, rfl, .number (sameNumber_numberReceived hsuited hexact)⟩
  | .string bytes, _ => ⟨_, rfl, .string bytes⟩
  | .table entries, ⟨hkeys, hexact⟩ => by
    obtain ⟨news, hreceived, hsame⟩ := receivedEntries_of_exact hsuited entries hexact
    refine ⟨.table news, ?_, .table hsame (keysDiffer_of_sameEntries hsame hkeys)⟩
    rw [received, hreceived]
    rfl
  | .closure prototype upvalues, ⟨hload, hupvalues⟩ => by
    refine ⟨.closure prototype upvalues, ?_, .closure prototype upvalues⟩
    rw [received, loadedChunk, hload, hupvalues]

/-- So do the entries of a table. -/
theorem receivedEntries_of_exact (hsuited : Suited link.sender.number link.receiver.number) :
    ∀ entries : List (Value Prototype × Value Prototype), ExactEntries link entries →
      ∃ news, receivedEntries link entries = .ok news ∧ SameEntries link entries news
  | [], _ => ⟨_, rfl, .nil⟩
  | (key, value) :: rest, ⟨hpossible, hkey, hvalue, hrest⟩ => by
    obtain ⟨newKey, hnewKey, hsameKey⟩ := received_of_exact hsuited key hkey
    obtain ⟨newValue, hnewValue, hsameValue⟩ := received_of_exact hsuited value hvalue
    obtain ⟨news, hnews, hsame⟩ := receivedEntries_of_exact hsuited rest hrest
    refine ⟨(newKey, newValue) :: news, ?_, .cons hsameKey hsameValue hsame⟩
    rw [receivedEntries, hnewKey, hnewValue, hnews]
    change (checkKey link.receiver.number newKey >>= fun _ ↦
      (pure ((newKey, newValue) :: news) : Except ReadFault _)) = _
    rw [checkKey_of_sameValue hsameKey hpossible]
    rfl

end

/-! ### The round trip -/

/-- Writing a value raises an error, or what is written is read back, with any bytes after it, as
exactly one value, which is equal. -/
def RoundTrips (link : Link Prototype) (value : Value Prototype) : Prop :=
  (∃ message, writeVariable link value = .error (.raised message)) ∨
    ∃ bytes new, writeVariable link value = .ok bytes ∧ SameValue link value new ∧
      ∀ rest, ∃ enough, ∀ fuel, enough ≤ fuel →
        readVariable link fuel (bytes ++ rest) = .ok (some [new], rest)

/-- For every value that can be sent between endpoints with suited numbers: writing it raises an
error, or what is written is read back, with any bytes after it, as what arrives of the value, which
is exactly one value or an error; and a value that is exact round-trips. -/
theorem valueArrives_and_roundTrips (link : Link Prototype)
    (hsuited : Suited link.sender.number link.receiver.number) (value : Value Prototype)
    (hsendable : Sendable link value) :
    ((∃ message, writeVariable link value = .error (.raised message)) ∨
      ∃ bytes, writeVariable link value = .ok bytes ∧
        ∀ rest, ∃ enough, ∀ fuel, enough ≤ fuel →
          readVariable link fuel (bytes ++ rest) =
            (received link value).map fun new ↦ (some [new], rest)) ∧
      (Exact link value → RoundTrips link value) := by
  obtain hraised | ⟨bytes, hwrite, hdecodes⟩ := decodes_writeVariable hsuited value hsendable
  · exact ⟨.inl hraised, fun _ ↦ .inl hraised⟩
  · refine ⟨.inr ⟨bytes, hwrite, fun rest ↦ ⟨value.nodes, hdecodes rest⟩⟩, fun hexact ↦ .inr ?_⟩
    obtain ⟨new, hreceived, hsame⟩ := received_of_exact hsuited value hexact
    refine ⟨bytes, new, hwrite, hsame, fun rest ↦ ⟨value.nodes, fun fuel hfuel ↦ ?_⟩⟩
    rw [hdecodes rest fuel hfuel, hreceived]
    rfl

/-- A link between machines with double numbers, for a single function, which has an upvalue. -/
def doubleLink : Link Unit where
  sender := ⟨true, .float64⟩
  receiver := ⟨true, .float64⟩
  undefined := fun _ _ _ ↦ 0
  dump := fun _ ↦ [0x1B]
  load := fun _ ↦ .inl ()
  nups := fun _ ↦ 1
  index := fun _ ↦ none
  numberString := fun _ ↦ [0x30]

theorem valueArrives_and_roundTrips_table :
    RoundTrips doubleLink (.table [(.string [97], .boolean true)]) :=
  (valueArrives_and_roundTrips doubleLink ⟨rfl, rfl⟩ (.table [(.string [97], .boolean true)])
    ⟨by change [97].length < 2 ^ 31; decide, trivial, trivial⟩).2
    ⟨List.pairwise_singleton _ _, rfl, trivial, trivial, trivial⟩

/-- A function whose upvalue is set arrives with one that is not. -/
theorem not_roundTrips_closure : ¬ RoundTrips doubleLink (.closure () [some 0]) := by
  have hwrites : writeVariable doubleLink (.closure () [some 0]) =
      .ok [6, 3, 1, 0, 0, 0, 0x1B, 7] := rfl
  rintro (⟨message, hraised⟩ | ⟨bytes, new, hwrite, hsame, hread⟩)
  · rw [hwrites] at hraised
    cases hraised
  · obtain rfl := Except.ok.inj (hwrites.symm.trans hwrite)
    obtain ⟨enough, henough⟩ := hread []
    have hruns : readVariable doubleLink (enough + 4) ([6, 3, 1, 0, 0, 0, 0x1B, 7] ++ []) =
        .ok (some [.closure () [none]], []) := rfl
    have hnew := Except.ok.inj (hruns.symm.trans (henough (enough + 4) (Nat.le_add_right ..)))
    simp only [Prod.mk.injEq, Option.some.injEq, List.cons.injEq, and_true] at hnew
    rw [← hnew] at hsame
    cases hsame

end Elua.LuaRpc
