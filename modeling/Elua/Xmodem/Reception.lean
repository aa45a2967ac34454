import Elua.Xmodem.Receiver

/-!
# XMODEM reception is exact

`IsRecord` is what a record with a number is, with the check given as the remainder of a polynomial
division. `Gathers` divides a line, without the code: a record is the run of bytes behind a header,
and the payloads are those of the records that carry the numbers from one on, each the first time
that it comes. All other records are left out.

`xmodem_receive_exact`: whatever comes, the receiver returns, and it stores nothing behind the end
of its memory. If it returns a length, then the line up to the end of the transmission is divided
into the records that have been read, and this much of the memory holds what `Gathers` takes from
them (`Reception.Exact` is the invariant). -/

set_option autoImplicit false
set_option relaxedAutoImplicit false

namespace Elua.Xmodem

open Foundation Polynomial

/-! ### What is to be received -/

/-- The generator of the check, without its leading term. -/
def ccittGenerator : BitVec 16 := 0x1021

/-- The record carries a number, its complement, a payload and the check of the payload. -/
def IsRecord (number : UInt8) (payload record : List UInt8) : Prop :=
  ∃ high low : UInt8, record = number :: ~~~number :: (payload ++ [high, low]) ∧
    wordPolynomial (high.toBitVec ++ low.toBitVec) =
      (X ^ 16 * messagePolynomial payload) %ₘ generatorPolynomial ccittGenerator

/-- The headers, and the sizes of the payloads behind them. -/
inductive Announces : UInt8 → ℕ → Prop
  | soh : Announces xmSoh 128
  | stx : Announces xmStx 1024

/-- The entries carry the bytes. There may be a timeout in front of a byte, but not two. -/
inductive Carries : Line → List UInt8 → Prop
  | nil : Carries [] []
  | byte (byte : UInt8) {line : Line} {bytes : List UInt8} (hrest : Carries line bytes) :
      Carries (some byte :: line) (byte :: bytes)
  | late (byte : UInt8) {line : Line} {bytes : List UInt8} (hrest : Carries line bytes) :
      Carries (none :: some byte :: line) (byte :: bytes)

/-- The line breaks off before it has carried so many bytes: there are two timeouts, or it ends. -/
def BreaksOff (count : ℕ) (line behind : Line) : Prop :=
  ∃ front bytes, Carries front bytes ∧ bytes.length < count ∧
    (line = front ++ none :: none :: behind ∨
      behind = [] ∧ (line = front ++ [none] ∨ line = front))

/-- There is nothing but bytes in front of the next timeout, or of the end. -/
def Noise (line behind : Line) : Prop :=
  ∃ bytes : List UInt8,
    line = bytes.map some ++ none :: behind ∨ line = bytes.map some ∧ behind = []

/-- What a line brings up to some place in it, when a number is expected: the records, which are the
bytes behind the headers, and the payloads of those that carry the expected numbers, in the order in
which they come. Records with another number, or that are damaged, contribute nothing. What comes
behind a record with the expected number is noise up to the next timeout. -/
inductive Gathers : UInt8 → Line → List (List UInt8) → List UInt8 → Line → Prop
  | nil (number : UInt8) (line : Line) : Gathers number line [] [] line
  | idle {number : UInt8} {event : Option UInt8} {line behind : Line} {bytes : List UInt8}
      {records : List (List UInt8)}
      (hidle : event ∉ [some xmSoh, some xmStx, some xmEot, some xmCan])
      (hrest : Gathers number line records bytes behind) :
      Gathers number (event :: line) records bytes behind
  | broken {number header : UInt8} {packSz : ℕ} {line rest behind : Line} {bytes : List UInt8}
      {records : List (List UInt8)} (hheader : Announces header packSz)
      (hbreaks : BreaksOff (packSz + 4) line rest)
      (hrest : Gathers number rest records bytes behind) :
      Gathers number (some header :: line) records bytes behind
  | next {number header : UInt8} {packSz : ℕ} {carrier rest quiet behind : Line}
      {payload record bytes : List UInt8} {records : List (List UInt8)}
      (hheader : Announces header packSz) (hcarries : Carries carrier record)
      (hlength : record.length = packSz + 4) (hrecord : IsRecord number payload record)
      (hnoise : Noise rest quiet) (hrest : Gathers (number + 1) quiet records bytes behind) :
      Gathers number (some header :: (carrier ++ rest)) (record :: records) (payload ++ bytes)
        behind
  | skip {number header : UInt8} {packSz : ℕ} {carrier rest behind : Line}
      {record bytes : List UInt8} {records : List (List UInt8)}
      (hheader : Announces header packSz) (hcarries : Carries carrier record)
      (hlength : record.length = packSz + 4)
      (hrecord : ∀ payload, ¬ IsRecord number payload record)
      (hrest : Gathers number rest records bytes behind) :
      Gathers number (some header :: (carrier ++ rest)) (record :: records) bytes behind

/-! ### The check -/

/-- The test of the code is on the leading bit of the lower half. -/
theorem and_0x8000_ne_zero_iff (chk : BitVec 32) :
    chk &&& 0x8000 ≠ 0 ↔ (chk.setWidth 16).msb := by
  have hpower : (0x8000 : BitVec 32) = BitVec.twoPow 32 15 := rfl
  rw [BitVec.msb_setWidth'', hpower, BitVec.and_twoPow]
  cases chk.getLsbD 15 <;> decide

/-- The lower half of the check of the code, bit by bit. -/
theorem setWidth_checksumBit (chk : BitVec 32) :
    (checksumBit chk).setWidth 16 = crcShift ccittGenerator (chk.setWidth 16) := by
  unfold checksumBit crcShift
  rw [if_congr (and_0x8000_ne_zero_iff chk) rfl rfl, apply_ite (BitVec.setWidth 16),
    BitVec.setWidth_xor, BitVec.setWidth_shiftLeft_of_le (by decide)]
  rfl

/-- The lower half of the check of the code, byte by byte. -/
theorem setWidth_checksumByte (chk : BitVec 32) (byte : UInt8) :
    (checksumByte chk byte).setWidth 16 = crcByte ccittGenerator (chk.setWidth 16) byte := by
  have hiterate : ∀ count (word : BitVec 32), (checksumBit^[count] word).setWidth 16 =
      (crcShift ccittGenerator)^[count] (word.setWidth 16) := by
    intro count
    induction count with
    | zero => exact fun _ ↦ rfl
    | succ count ih =>
      intro word
      rw [Function.iterate_succ_apply, Function.iterate_succ_apply, ih, setWidth_checksumBit]
  rw [checksumByte, crcByte, hiterate, BitVec.setWidth_xor,
    BitVec.setWidth_shiftLeft_of_le (by decide), BitVec.setWidth_setWidth_of_le _ (by decide)]

/-- The lower half of the check of the code is the cyclic redundancy check. -/
theorem setWidth_checksum (data : List UInt8) :
    (checksum data).setWidth 16 = crc ccittGenerator data := by
  induction data using List.reverseRecOn with
  | nil => rfl
  | append_singleton data byte ih =>
    rw [checksum, crc, List.foldl_append, List.foldl_append]
    exact (setWidth_checksumByte _ byte).trans (congrArg (crcByte ccittGenerator · byte) ih)

/-- The two bytes that the code compares are those of the lower half. -/
theorem checksum_bytes_iff (chk : BitVec 32) (high low : UInt8) :
    high.toNat = ((chk &&& 0xFFFF) >>> 8 &&& 0xFF).toNat ∧
        low.toNat = ((chk &&& 0xFFFF) &&& 0xFF).toNat ↔
      chk.setWidth 16 = high.toBitVec ++ low.toBitVec := by
  have hhigh : ((chk &&& 0xFFFF) >>> 8 &&& 0xFF).toNat = chk.toNat % 2 ^ 16 / 2 ^ 8 % 2 ^ 8 := by
    rw [BitVec.toNat_and, BitVec.toNat_ushiftRight, BitVec.toNat_and, Nat.shiftRight_eq_div_pow]
    rw [show (0xFFFF : BitVec 32).toNat = 2 ^ 16 - 1 from rfl,
      show (0xFF : BitVec 32).toNat = 2 ^ 8 - 1 from rfl, Nat.and_two_pow_sub_one_eq_mod,
      Nat.and_two_pow_sub_one_eq_mod]
  have hlow : ((chk &&& 0xFFFF) &&& 0xFF).toNat = chk.toNat % 2 ^ 16 % 2 ^ 8 := by
    rw [BitVec.toNat_and, BitVec.toNat_and]
    rw [show (0xFFFF : BitVec 32).toNat = 2 ^ 16 - 1 from rfl,
      show (0xFF : BitVec 32).toNat = 2 ^ 8 - 1 from rfl, Nat.and_two_pow_sub_one_eq_mod,
      Nat.and_two_pow_sub_one_eq_mod]
  have hboth : (high.toBitVec ++ low.toBitVec).toNat = high.toNat * 2 ^ 8 + low.toNat := by
    rw [BitVec.toNat_append, ← Nat.shiftLeft_add_eq_or_of_lt low.toBitVec.isLt,
      Nat.shiftLeft_eq]
    rfl
  have hhighLt := high.toNat_lt
  have hlowLt := low.toNat_lt
  rw [hhigh, hlow, ← BitVec.toNat_inj, hboth, BitVec.toNat_setWidth]
  omega

/-- The parts of a record. -/
theorem exists_recordParts {packSz : ℕ} {record : List UInt8}
    (hlength : record.length = packSz + 4) :
    ∃ number complement payload high low,
      record = number :: complement :: (payload ++ [high, low]) ∧ payload.length = packSz := by
  match record with
  | number :: complement :: rest =>
    have hrest : rest.length = packSz + 2 := by
      rw [List.length_cons, List.length_cons] at hlength
      omega
    have hdrop : (rest.drop packSz).length = 2 := by
      rw [List.length_drop]
      omega
    obtain ⟨high, low, hends⟩ := List.length_eq_two.mp hdrop
    refine ⟨number, complement, rest.take packSz, high, low, ?_, ?_⟩
    · rw [← hends, List.take_append_drop]
    · rw [List.length_take]
      omega

/-- A record has one payload. -/
theorem IsRecord.payload_eq {number : UInt8} {packSz : ℕ} {payload record : List UInt8}
    (hrecord : IsRecord number payload record) (hlength : record.length = packSz + 4) :
    (record.drop 2).take packSz = payload := by
  obtain ⟨high, low, rfl, -⟩ := hrecord
  have hpayload : payload.length = packSz := by
    simp only [List.length_cons, List.length_append, List.length_nil] at hlength
    omega
  rw [← hpayload]
  exact List.take_left

/-- The records that the receiver accepts. -/
theorem recordIsGood_iff {blocknum : UInt8} {packSz : ℕ} {record : List UInt8}
    (hlength : record.length = packSz + 4) :
    recordIsGood blocknum packSz record = true ↔
      IsRecord blocknum ((record.drop 2).take packSz) record := by
  obtain ⟨number, complement, payload, high, low, rfl, hpayload⟩ := exists_recordParts hlength
  have hdata : ((number :: complement :: (payload ++ [high, low])).drop 2).take packSz = payload :=
    by rw [← hpayload]; exact List.take_left
  have hhigh : (number :: complement :: (payload ++ [high, low])).getD (2 + packSz) 0 = high := by
    rw [← hpayload, Nat.add_comm, List.getD_cons_succ, List.getD_cons_succ,
      List.getD_eq_getElem?_getD, List.getElem?_append_right le_rfl, Nat.sub_self]
    rfl
  have hlow : (number :: complement :: (payload ++ [high, low])).getD (3 + packSz) 0 = low := by
    rw [← hpayload, show 3 + payload.length = payload.length + 1 + 1 + 1 by omega,
      List.getD_cons_succ, List.getD_cons_succ, List.getD_eq_getElem?_getD,
      List.getElem?_append_right (Nat.le_add_right _ 1), Nat.add_sub_cancel_left]
    rfl
  have hcheck : (high.toNat = ((checksum payload &&& 0xFFFF) >>> 8 &&& 0xFF).toNat ∧
      low.toNat = ((checksum payload &&& 0xFFFF) &&& 0xFF).toNat) ↔
        wordPolynomial (high.toBitVec ++ low.toBitVec) =
          (X ^ 16 * messagePolynomial payload) %ₘ generatorPolynomial ccittGenerator := by
    rw [checksum_bytes_iff, setWidth_checksum]
    exact crc_eq_iff ccittGenerator (by decide) payload _
  rw [recordIsGood, hdata, hhigh, hlow, List.getD_cons_zero, List.getD_cons_succ,
    List.getD_cons_zero]
  simp only [Bool.and_eq_true, decide_eq_true_eq]
  rw [and_assoc, hcheck]
  constructor
  · rintro ⟨⟨rfl, rfl⟩, hpolynomial⟩
    exact ⟨high, low, rfl, hpolynomial⟩
  · rintro ⟨high', low', heq, hpolynomial⟩
    obtain ⟨rfl, rfl, hends⟩ : number = blocknum ∧ complement = ~~~blocknum ∧
        payload ++ [high, low] = payload ++ [high', low'] := by
      simpa only [List.cons.injEq] using heq
    obtain ⟨rfl, rfl⟩ : high = high' ∧ low = low' := by
      simpa using List.append_cancel_left hends
    exact ⟨⟨rfl, rfl⟩, hpolynomial⟩

/-! ### Reading a record -/

theorem length_xmodemIn_le (line : Line) : (xmodemIn line).2.length ≤ line.length := by
  cases line with
  | nil => exact le_rfl
  | cons event line => exact Nat.le_succ _

theorem length_xmodemFlush_le (line : Line) : (xmodemFlush line).length ≤ line.length := by
  fun_induction xmodemFlush line with
  | case1 => exact le_rfl
  | case2 line => exact Nat.le_succ _
  | case3 byte line ih => exact ih.trans (Nat.le_succ _)

theorem length_recordByte_le (line : Line) : (recordByte line).2.length ≤ line.length := by
  unfold recordByte
  have hfirst := length_xmodemIn_le line
  rcases hin : xmodemIn line with ⟨_ | byte, rest⟩
  · rw [hin] at hfirst
    exact (length_xmodemIn_le rest).trans hfirst
  · rw [hin] at hfirst
    exact hfirst

/-- Reading a record takes entries from the line. -/
theorem length_recordBytes_le (count : ℕ) (line : Line) :
    (recordBytes count line).2.length ≤ line.length := by
  fun_induction recordBytes count line with
  | case1 line => exact le_rfl
  | case2 count line rest hbyte =>
    have hfirst := length_recordByte_le line
    rw [hbyte] at hfirst
    exact hfirst
  | case3 count line byte rest hbyte behind ih =>
    have hfirst := length_recordByte_le line
    rw [hbyte] at hfirst
    exact ih.trans hfirst

/-- A byte of a record stands first on the line, or behind a timeout. -/
theorem recordByte_some {line rest : Line} {byte : UInt8}
    (hbyte : recordByte line = (some byte, rest)) :
    line = some byte :: rest ∨ line = none :: some byte :: rest := by
  match line with
  | [] => cases hbyte
  | some _ :: _ => cases hbyte; exact .inl rfl
  | [none] => cases hbyte
  | none :: none :: _ => cases hbyte
  | none :: some _ :: _ => cases hbyte; exact .inr rfl

/-- Without a byte the line breaks off. -/
theorem recordByte_none {line rest : Line} (hbyte : recordByte line = (none, rest)) :
    line = none :: none :: rest ∨ rest = [] ∧ (line = [none] ∨ line = []) := by
  match line with
  | [] => cases hbyte; exact .inr ⟨rfl, .inr rfl⟩
  | some _ :: _ => cases hbyte
  | [none] => cases hbyte; exact .inr ⟨rfl, .inl rfl⟩
  | none :: none :: _ => cases hbyte; exact .inl rfl
  | none :: some _ :: _ => cases hbyte

/-- A byte in front of what breaks off. -/
theorem BreaksOff.cons {count : ℕ} {line rest behind : Line} {byte : UInt8}
    (hbyte : line = some byte :: rest ∨ line = none :: some byte :: rest)
    (hbreaks : BreaksOff count rest behind) : BreaksOff (count + 1) line behind := by
  obtain ⟨front, bytes, hcarries, hlength, hends⟩ := hbreaks
  obtain ⟨carrier, hcarrier, rfl⟩ : ∃ carrier, Carries (carrier ++ front) (byte :: bytes) ∧
      line = carrier ++ rest := by
    obtain rfl | rfl := hbyte
    · exact ⟨[some byte], .byte byte hcarries, rfl⟩
    · exact ⟨[none, some byte], .late byte hcarries, rfl⟩
  refine ⟨carrier ++ front, byte :: bytes, hcarrier, Nat.succ_lt_succ hlength, ?_⟩
  obtain rfl | ⟨rfl, rfl | rfl⟩ := hends
  · exact .inl (List.append_assoc _ _ _).symm
  · exact .inr ⟨rfl, .inl (List.append_assoc _ _ _).symm⟩
  · exact .inr ⟨rfl, .inr rfl⟩

/-- A record that has been read is whole, and the line carries it. -/
theorem carries_of_recordBytes {count : ℕ} {line rest : Line} {record : List UInt8}
    (hrecord : recordBytes count line = (some record, rest)) :
    record.length = count ∧ ∃ carrier, Carries carrier record ∧ line = carrier ++ rest := by
  induction count generalizing line record with
  | zero =>
    cases hrecord
    exact ⟨rfl, [], .nil, rfl⟩
  | succ count ih =>
    rw [recordBytes] at hrecord
    split at hrecord
    · cases hrecord
    · rename_i byte left hbyte
      obtain ⟨hmap, hrest⟩ := Prod.mk.inj hrecord
      obtain ⟨bytes, hbytes, rfl⟩ := Option.map_eq_some_iff.mp hmap
      obtain ⟨hlength, carrier, hcarries, rfl⟩ := ih (Prod.ext hbytes hrest)
      refine ⟨congrArg (· + 1) hlength, ?_⟩
      obtain rfl | rfl := recordByte_some hbyte
      · exact ⟨some byte :: carrier, .byte byte hcarries, rfl⟩
      · exact ⟨none :: some byte :: carrier, .late byte hcarries, rfl⟩

/-- The line breaks off in a record that has not been read. -/
theorem breaksOff_of_recordBytes {count : ℕ} {line rest : Line}
    (hrecord : recordBytes count line = (none, rest)) : BreaksOff count line rest := by
  induction count generalizing line with
  | zero => cases hrecord
  | succ count ih =>
    rw [recordBytes] at hrecord
    split at hrecord
    · rename_i left hbyte
      cases hrecord
      exact ⟨[], [], .nil, Nat.succ_pos count, recordByte_none hbyte⟩
    · rename_i byte left hbyte
      obtain ⟨hmap, hrest⟩ := Prod.mk.inj hrecord
      exact (ih (Prod.ext (Option.map_eq_none_iff.mp hmap) hrest)).cons (recordByte_some hbyte)

/-- The receiver drops the noise. -/
theorem noise_xmodemFlush (line : Line) : Noise line (xmodemFlush line) := by
  fun_induction xmodemFlush line with
  | case1 => exact ⟨[], .inr ⟨rfl, rfl⟩⟩
  | case2 line => exact ⟨[], .inl rfl⟩
  | case3 byte line ih =>
    obtain ⟨bytes, hends⟩ := ih
    exact ⟨byte :: bytes, hends.imp (congrArg (some byte :: ·))
      (And.imp_left (congrArg (some byte :: ·)))⟩

/-! ### The invariant -/

/-- A record is the next one only if the receiver accepts it. -/
theorem IsRecord.isGood {number : UInt8} {packSz : ℕ} {payload record : List UInt8}
    (hrecord : IsRecord number payload record) (hlength : record.length = packSz + 4) :
    recordIsGood number packSz record = true := by
  rw [recordIsGood_iff hlength, hrecord.payload_eq hlength]
  exact hrecord

/-- The memory has the size that is noted and the bytes fit. Together with some that are not yet
stored they are what the whole line brings up to the rest of it, whatever the rest brings. -/
structure Reception.Exact (whole : Line) (state : Reception) (rest : Line)
    (pending : List UInt8) : Prop where
  size_le : state.size ≤ state.limit
  limit_le : state.limit ≤ state.dest.length
  limit_lt : state.limit < 2 ^ 31
  inside : state.overrun = false
  gathers : ∀ {records bytes behind}, Gathers state.packnum rest records bytes behind →
    Gathers 1 whole (state.records ++ records) (state.dest.take state.size ++ pending ++ bytes)
      behind

/-- What is left when the receiver returns. -/
def Received (whole : Line) (value : ℤ) (state : Reception) : Prop :=
  state.overrun = false ∧
    (0 ≤ value → value.toNat ≤ state.dest.length ∧ ∃ behind,
      Gathers 1 whole state.records (state.dest.take value.toNat) (some xmEot :: behind))

/-- What a pass leads to. -/
def Reached (whole : Line) : Reception ⊕ (ℤ × Reception) → Prop
  | .inl next => next.Exact whole next.line []
  | .inr (value, last) => Received whole value last

section Invariant

variable {whole rest : Line} {state : Reception} {pending : List UInt8}

/-- The input and the answers do not matter. -/
theorem Reception.Exact.input (hexact : state.Exact whole rest pending) (line : Line)
    (sent : List UInt8) (starting : Bool) (retries : ℕ) :
    Reception.Exact whole { state with
      line := line, sent := sent, starting := starting, retries := retries } rest pending :=
  ⟨hexact.size_le, hexact.limit_le, hexact.limit_lt, hexact.inside, hexact.gathers⟩

/-- The receiver goes on behind an entry that is no header. -/
theorem Reception.Exact.idle {event : Option UInt8}
    (hexact : state.Exact whole (event :: rest) pending)
    (hidle : event ∉ [some xmSoh, some xmStx, some xmEot, some xmCan]) :
    state.Exact whole rest pending :=
  { hexact with gathers := fun hrest ↦ hexact.gathers (.idle hidle hrest) }

/-- The receiver may return an error. -/
theorem Reception.Exact.leave (hexact : state.Exact whole rest pending) {value : ℤ}
    (hvalue : value < 0) (answer : List UInt8) : Reached whole (state.leave value answer) :=
  ⟨hexact.inside, fun hlength ↦ absurd hlength (not_le.mpr hvalue)⟩

theorem exact_start {dest : List UInt8} (hdest : initialBufferSize ≤ dest.length) (line : Line) :
    (Reception.start dest line).Exact line line [] where
  size_le := Nat.zero_le _
  limit_le := hdest
  limit_lt := (by decide : initialBufferSize < 2 ^ 31)
  inside := rfl
  gathers hrest := hrest

/-- The memory up to the end of the data that has been stored. -/
theorem take_overwrite {dest data : List UInt8} {size : ℕ}
    (hfits : size + data.length ≤ dest.length) :
    (overwrite dest size data).take (size + data.length) = dest.take size ++ data := by
  have hfront : segment (overwrite dest size data) 0 size = segment dest 0 size :=
    segment_overwrite_of_disjoint dest (.inl (Nat.zero_add size).le)
  rw [List.take_add]
  exact congrArg₂ (· ++ ·) hfront (segment_overwrite_self hfits)

/-- The pending bytes are stored when they fit. -/
theorem Reception.Exact.consume (hexact : state.Exact whole state.line pending)
    (hfits : state.size + pending.length ≤ state.limit) :
    Reached whole (.inl (state.consume pending.length pending)) := by
  have hinside : state.size + pending.length ≤ state.dest.length := hfits.trans hexact.limit_le
  have hmod : (state.size + pending.length) % 2 ^ 32 = state.size + pending.length :=
    Nat.mod_eq_of_lt (by have := hexact.limit_lt; omega)
  rw [Reception.consume, if_neg (Nat.not_lt.mpr hinside)]
  constructor
  · show (state.size + pending.length) % 2 ^ 32 ≤ state.limit
    rw [hmod]
    exact hfits
  · show state.limit ≤ (overwrite state.dest state.size pending).length
    rw [length_overwrite]
    exact hexact.limit_le
  · exact hexact.limit_lt
  · exact hexact.inside
  · intro records bytes behind hrest
    show Gathers 1 whole (state.records ++ records) ((overwrite state.dest state.size pending).take
      ((state.size + pending.length) % 2 ^ 32) ++ [] ++ bytes) behind
    rw [hmod, take_overwrite hinside, List.append_nil]
    exact hexact.gathers hrest

/-- Memory that has grown still holds the bytes. -/
theorem Reception.Exact.grow {realloc : Realloc} {dest : List UInt8}
    (hexact : state.Exact whole rest pending) {limit : ℕ} (hlimit : state.limit ≤ limit)
    (hcall : realloc.call state.dest limit = some dest) :
    Reception.Exact whole { state with limit := limit, dest := dest } rest pending := by
  have hsize : state.size ≤ limit := hexact.size_le.trans hlimit
  have htake : dest.take state.size = state.dest.take state.size := by
    obtain ⟨behind, rfl⟩ := realloc.keeps hcall
    rw [List.take_append_of_le_length, List.take_take, Nat.min_eq_left hsize]
    rw [List.length_take]
    exact Nat.le_min.mpr ⟨hsize, hexact.size_le.trans hexact.limit_le⟩
  exact {
    size_le := hsize
    limit_le := (realloc.length_eq hcall).ge
    limit_lt := realloc.bounded hcall
    inside := hexact.inside
    gathers := fun hrest ↦ by
      show Gathers 1 whole _ (dest.take state.size ++ pending ++ _) _
      rw [htake]
      exact hexact.gathers hrest }

/-- A record that has been accepted is stored, or there is no memory for it. -/
theorem Reception.Exact.accept (realloc : Realloc) (hexact : state.Exact whole state.line pending)
    (hlength : pending.length ≤ incrementAmount) :
    Reached whole (state.accept realloc pending.length pending) := by
  have hsize := hexact.size_le
  have hlt := hexact.limit_lt
  have hamount : incrementAmount = 4096 := rfl
  have hmod : (state.size + pending.length) % 2 ^ 32 = state.size + pending.length :=
    Nat.mod_eq_of_lt (by omega)
  have hlimit : (state.limit + incrementAmount) % 2 ^ 32 = state.limit + incrementAmount :=
    Nat.mod_eq_of_lt (by omega)
  unfold Reception.accept
  rw [hmod, hlimit]
  split_ifs with hgrows
  · dsimp only
    split
    · exact ⟨hexact.inside, fun hvalue ↦ absurd hvalue (by decide)⟩
    · rename_i dest hcall
      exact (hexact.grow (Nat.le_add_right _ _) hcall).consume
        (Nat.add_le_add hsize hlength)
  · exact hexact.consume (Nat.le_of_not_lt hgrows)

/-- A record is accepted if it is the next one, and otherwise it leaves nothing. -/
theorem Reception.Exact.packet (realloc : Realloc) {header : UInt8}
    (hexact : state.Exact whole (some header :: state.line) []) {packSz : ℕ}
    (hheader : Announces header packSz) (hpackSz : packSz ≤ incrementAmount) :
    Reached whole (state.packet realloc packSz) := by
  unfold Reception.packet
  split
  · rename_i line hbytes
    refine ⟨hexact.size_le, hexact.limit_le, hexact.limit_lt, hexact.inside, fun hrest ↦ ?_⟩
    exact hexact.gathers (.broken hheader (breaksOff_of_recordBytes hbytes) hrest)
  · rename_i record line hbytes
    obtain ⟨hlength, carrier, hcarries, hline⟩ := carries_of_recordBytes hbytes
    rw [hline] at hexact
    dsimp only
    split_ifs with hgood
    · have hrecord := (recordIsGood_iff hlength).mp hgood
      have hpayload : ((record.drop 2).take packSz).length = packSz := by
        rw [List.length_take, List.length_drop]
        omega
      have hnext : Reception.Exact whole
          { state with
            starting := false
            records := state.records ++ [record]
            line := xmodemFlush line
            retries := retryLimit
            packnum := state.packnum + 1 }
          (xmodemFlush line) ((record.drop 2).take packSz) := by
        refine ⟨hexact.size_le, hexact.limit_le, hexact.limit_lt, hexact.inside, ?_⟩
        intro records bytes behind hrest
        have hgathers := hexact.gathers
          (.next hheader hcarries hlength hrecord (noise_xmodemFlush line) hrest)
        rw [List.append_nil, ← List.append_assoc] at hgathers
        rw [List.append_assoc]
        exact hgathers
      have haccept := hnext.accept realloc (hpayload.le.trans hpackSz)
      rw [hpayload] at haccept
      exact haccept
    · refine ⟨hexact.size_le, hexact.limit_le, hexact.limit_lt, hexact.inside, ?_⟩
      intro records bytes behind hrest
      have hgathers := hexact.gathers (.skip hheader hcarries hlength
        (fun payload hrecord ↦ hgood (hrecord.isGood hlength)) hrest)
      rw [List.append_assoc]
      exact hgathers

/-- What comes after a character that has been read. -/
theorem Reception.Exact.header (realloc : Realloc) {ch : UInt8}
    (hexact : state.Exact whole (some ch :: state.line) []) :
    Reached whole (state.header realloc ch) := by
  unfold Reception.header
  split_ifs with heot hcan hsoh hstx
  · subst heot
    refine ⟨hexact.inside, fun _ ↦ ?_⟩
    have hlt := hexact.limit_lt
    have hsize := hexact.size_le
    have hvalue : (Int.bmod state.size (2 ^ 32)).toNat = state.size := by
      rw [Int.bmod_eq_of_le (by omega) (by omega)]
      rfl
    have hgathers := hexact.gathers (.nil state.packnum _)
    rw [List.append_nil, List.append_nil, List.append_nil] at hgathers
    rw [hvalue]
    exact ⟨hsize.trans hexact.limit_le, state.line, hgathers⟩
  · exact hexact.leave (by decide) _
  · exact hexact.packet realloc (hsoh ▸ .soh) (by decide)
  · exact hexact.packet realloc (hstx ▸ .stx) (by decide)
  · refine hexact.idle ?_
    simp only [List.mem_cons, Option.some.injEq, List.not_mem_nil, or_false]
    rintro (hch | hch | hch | hch)
    · exact hsoh hch
    · exact hstx hch
    · exact heot hch
    · exact hcan hch

/-- What one pass leads to. -/
theorem Reception.Exact.receiveBody {realloc : Realloc} (hexact : state.Exact whole state.line [])
    {outcome : Reception ⊕ (ℤ × Reception)} (hbody : receiveBody realloc state = some outcome) :
    Reached whole outcome := by
  unfold Xmodem.receiveBody at hbody
  by_cases hretries : state.retries = 0
  · rw [if_pos hretries] at hbody
    obtain rfl := Option.some.inj hbody
    exact hexact.leave (by decide) _
  · rw [if_neg hretries] at hbody
    dsimp only at hbody
    rcases hline : state.line with _ | ⟨_ | ch, line⟩
    · rw [hline] at hbody hexact
      obtain rfl := Option.some.inj hbody
      exact hexact.input _ _ _ _
    · rw [hline] at hbody hexact
      obtain rfl := Option.some.inj hbody
      exact (hexact.idle (by decide)).input _ _ _ _
    · rw [hline] at hbody hexact
      obtain rfl := Option.some.inj hbody
      exact (hexact.input line _ _ _).header realloc

end Invariant

/-! ### The receiver returns -/

/-- How much may come, and how many passes may be made in vain. -/
def Reception.budget (state : Reception) : ℕ :=
  state.line.length * (retryLimit + 1) + state.retries

/-- What the storing of a record does not touch. -/
structure Kept (state next : Reception) : Prop where
  line : next.line = state.line
  retries : next.retries = state.retries
  records : next.records = state.records

theorem consume_kept (state : Reception) (packSz : ℕ) (data : List UInt8) :
    Kept state (state.consume packSz data) := by
  unfold Reception.consume
  split_ifs <;> exact ⟨rfl, rfl, rfl⟩

/-- A record that is accepted is stored, with more memory or without. -/
theorem accept_kept {realloc : Realloc} {state next : Reception} {packSz : ℕ}
    {data : List UInt8} (haccept : state.accept realloc packSz data = .inl next) :
    Kept state next := by
  unfold Reception.accept at haccept
  split_ifs at haccept
  · dsimp only at haccept
    split at haccept
    · cases haccept
    · rename_i dest hcall
      obtain rfl := Sum.inl.inj haccept
      obtain ⟨hline, hretries, hrecords⟩ := consume_kept { state with
        limit := (state.limit + incrementAmount) % 2 ^ 32, dest := dest } packSz data
      exact ⟨hline, hretries, hrecords⟩
  · obtain rfl := Sum.inl.inj haccept
    exact consume_kept state packSz data

/-- Storing a record changes neither. -/
theorem budget_of_accept {realloc : Realloc} {state next : Reception} {packSz : ℕ}
    {data : List UInt8} (haccept : state.accept realloc packSz data = .inl next) :
    next.budget = state.budget := by
  have hkept := accept_kept haccept
  rw [Reception.budget, hkept.line, hkept.retries, Reception.budget]

/-- After a record all passes may be made again. -/
theorem budget_of_packet {realloc : Realloc} {state next : Reception} {packSz : ℕ}
    (hpacket : state.packet realloc packSz = .inl next) :
    next.budget ≤ state.line.length * (retryLimit + 1) + max state.retries retryLimit := by
  have hline := length_recordBytes_le (packSz + 4) state.line
  unfold Reception.packet at hpacket
  split at hpacket
  · rename_i line hbytes
    rw [hbytes] at hline
    obtain rfl := Sum.inl.inj hpacket
    exact Nat.add_le_add (Nat.mul_le_mul_right _ hline) (Nat.le_max_left _ _)
  · rename_i record line hbytes
    rw [hbytes] at hline
    dsimp only at hpacket
    split_ifs at hpacket
    · rw [budget_of_accept hpacket]
      exact Nat.add_le_add
        (Nat.mul_le_mul_right _ ((length_xmodemFlush_le line).trans hline)) (Nat.le_max_right _ _)
    · obtain rfl := Sum.inl.inj hpacket
      exact Nat.add_le_add (Nat.mul_le_mul_right _ hline) (Nat.le_max_left _ _)

theorem budget_of_header {realloc : Realloc} {state next : Reception} {ch : UInt8}
    (hheader : state.header realloc ch = .inl next) :
    next.budget ≤ state.line.length * (retryLimit + 1) + max state.retries retryLimit := by
  unfold Reception.header at hheader
  split_ifs at hheader
  · cases hheader
  · cases hheader
  · exact budget_of_packet hheader
  · exact budget_of_packet hheader
  · obtain rfl := Sum.inl.inj hheader
    exact Nat.add_le_add le_rfl (Nat.le_max_left _ _)

/-- A pass leaves the loop, or takes from the budget. -/
theorem receiveBody_budget (realloc : Realloc) (state : Reception) :
    (∃ value, receiveBody realloc state = some (.inr value)) ∨
      ∃ next, Continues (receiveBody realloc) state next ∧ next.budget < state.budget := by
  unfold Continues receiveBody
  by_cases hretries : state.retries = 0
  · rw [if_pos hretries]
    exact .inl ⟨_, rfl⟩
  · rw [if_neg hretries]
    dsimp only
    rcases hline : state.line with _ | ⟨_ | ch, line⟩
    · refine .inr ⟨_, rfl, ?_⟩
      simp only [xmodemIn, Reception.budget, hline]
      omega
    · refine .inr ⟨_, rfl, ?_⟩
      simp only [xmodemIn, Reception.budget, hline, List.length_cons, Nat.succ_mul]
      omega
    · simp only [xmodemIn]
      rcases hheader : Reception.header realloc _ ch with next | value
      · refine .inr ⟨next, rfl, (budget_of_header hheader).trans_lt ?_⟩
        simp only [Reception.budget, hline, List.length_cons, Nat.succ_mul]
        omega
      · exact .inl ⟨value, rfl⟩

/-! ### Reception is exact -/

/-- The receiver returns, and stores nothing outside of the memory it has. If it returns a length,
the line up to the end of the transmission is divided into the records that have been read, and the
memory holds the payloads of those that carried the numbers from one on. -/
theorem xmodem_receive_exact (realloc : Realloc) {dest : List UInt8}
    (hdest : initialBufferSize ≤ dest.length) (line : Line) :
    (∃ fuel result, xmodemReceive realloc fuel dest line = some result) ∧
      ∀ {fuel value state}, xmodemReceive realloc fuel dest line = some (value, state) →
        state.overrun = false ∧
          (0 ≤ value → value.toNat ≤ state.dest.length ∧ ∃ behind,
            Gathers 1 line state.records (state.dest.take value.toNat) (some xmEot :: behind)) := by
  refine ⟨exists_runLoop_of_measure Reception.budget (receiveBody_budget realloc) _, ?_⟩
  intro fuel value state hrun
  obtain ⟨last, hvisits, hlast⟩ := exists_leaves_of_runLoop hrun
  have hexact : last.Exact line last.line [] :=
    hvisits.rule (fun visited ↦ visited.Exact line visited.line []) (exact_start hdest line)
      fun first second hfirst hnext ↦ hfirst.receiveBody hnext
  exact hexact.receiveBody hlast

/-- Memory that does not grow. -/
def Realloc.never : Realloc where
  call _ _ := none
  length_eq hcall := nomatch hcall
  keeps hcall := nomatch hcall
  bounded hcall := nomatch hcall

/-- A record of 128 zeros, a timeout, and the end of the transmission. -/
def zerosLine : Line :=
  some xmSoh :: some 1 :: some 0xFE :: (List.replicate 130 (some 0) ++ [none, some xmEot])

theorem checksum_zeros (count : ℕ) : checksum (List.replicate count 0) = 0 := by
  induction count with
  | zero => rfl
  | succ count ih =>
    have hzero : checksumByte 0 0 = 0 := by decide
    rw [checksum, List.replicate_succ, List.foldl_cons, hzero]
    exact ih

theorem recordIsGood_zeros :
    recordIsGood 1 128 (1 :: 0xFE :: List.replicate 130 0) = true := by
  have hdata : ((1 :: 0xFE :: List.replicate 130 (0 : UInt8)).drop 2).take 128 =
      List.replicate 128 0 := rfl
  rw [recordIsGood, hdata, checksum_zeros]
  rfl

/-- The record of zeros is stored, and the receiver returns its length. -/
theorem xmodemReceive_zerosLine {dest : List UInt8} (hdest : initialBufferSize ≤ dest.length) :
    (xmodemReceive .never 2 dest zerosLine).map Prod.fst = some 128 := by
  have hbytes : recordBytes 132 zerosLine.tail =
      (some (1 :: 0xFE :: List.replicate 130 0), [none, some xmEot]) := by decide +kernel
  have hfits : ¬ dest.length < 0 + 128 := by
    have hsize : initialBufferSize = 4096 := rfl
    omega
  have hpacket : ∀ state : Reception, state.line = zerosLine.tail → state.packnum = 1 →
      state.size = 0 → state.limit = initialBufferSize → state.dest = dest →
      ∃ next, state.packet .never 128 = .inl next ∧ next.size = 128 ∧
        next.line = [some xmEot] ∧ next.retries = retryLimit := by
    intro state hline hpacknum hsize hlimit hmemory
    unfold Reception.packet
    rw [hline, hbytes]
    dsimp only
    rw [hpacknum, if_pos recordIsGood_zeros, Reception.accept, if_neg (by rw [hlimit, hsize]; decide),
      Reception.consume, if_neg (by rw [hmemory, hsize]; exact hfits)]
    exact ⟨_, rfl, by rw [hsize]; rfl, rfl, rfl⟩
  obtain ⟨next, hnext, hsize, hline, hretries⟩ :=
    hpacket { Reception.start dest zerosLine with
      retries := 19, sent := [startCharacter], line := zerosLine.tail } rfl rfl rfl rfl rfl
  have hfirst : Continues (receiveBody .never) (.start dest zerosLine) next := by
    unfold Continues receiveBody
    rw [if_neg (by show ¬ retryLimit = 0; decide)]
    show some (Reception.header .never { Reception.start dest zerosLine with
      retries := 19, sent := [startCharacter], line := zerosLine.tail } xmSoh) = some (.inl next)
    rw [Reception.header, if_neg (by decide), if_neg (by decide), if_pos rfl, hnext]
  have hlast : ∃ last, receiveBody .never next = some (.inr (128, last)) := by
    rw [receiveBody, hretries, hline, if_neg (by decide)]
    dsimp only [xmodemIn]
    rw [Reception.header, if_pos rfl, hsize]
    exact ⟨_, rfl⟩
  obtain ⟨last, hlast⟩ := hlast
  rw [xmodemReceive, runLoop_of_continues hfirst, runLoop_of_leaves hlast]
  rfl

theorem xmodem_receive_exact_zeros :
    ∃ state behind, xmodemReceive .never 2 (List.replicate 4096 0) zerosLine = some (128, state) ∧
      state.overrun = false ∧
        Gathers 1 zerosLine state.records (state.dest.take 128) (some xmEot :: behind) := by
  have hdest : initialBufferSize ≤ (List.replicate 4096 (0 : UInt8)).length := by
    rw [List.length_replicate]
    exact le_rfl
  obtain ⟨⟨value, state⟩, hrun, rfl⟩ := Option.map_eq_some_iff.mp (xmodemReceive_zerosLine hdest)
  obtain ⟨hinside, hgathers⟩ := (xmodem_receive_exact .never hdest zerosLine).2 hrun
  obtain ⟨-, behind, hbehind⟩ := hgathers (by decide)
  exact ⟨state, behind, hrun, hinside, hbehind⟩

end Elua.Xmodem
