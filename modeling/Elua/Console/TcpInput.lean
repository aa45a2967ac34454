import Elua.Console.LineInput
import Mathlib.Algebra.Group.Nat.Defs

/-!
# Console input over TCP

`std_read` of `stdtcp.c` fills the buffer of its caller with packets of `elua_net_recv`, until the
buffer is full or a packet ends in CR and LF. It keeps the number of bytes received (`actsize`) and
the number of bytes still asked for (`len`), and compares the one with the other.

`ReadRight` says that each pass ends the call exactly when the buffer is full or the line is ended,
with the number of bytes stored. It holds exactly when the comparison is harmless, which
`TotalsFit` says in terms of the sizes of the packets (`readRight_iff`). -/

set_option autoImplicit false
set_option relaxedAutoImplicit false

namespace Elua.Console

/-! ### The call -/

/-- A length that is passed as `elua_net_size`, which is `s16`. -/
def netSize (len : ℕ) : ℤ := (len : ℤ).bmod (2 ^ 16)

/-- The packet ends in CR and LF. -/
def EndsLine (packet : List UInt8) : Prop := [13, 10] <:+ packet

instance (packet : List UInt8) : Decidable (EndsLine packet) :=
  inferInstanceAs (Decidable (_ <:+ _))

/-- The variables of `std_read` between two passes: the bytes stored before `lptr`, the number
`actsize` of bytes received, and the number `len` of bytes to ask for. -/
structure TcpRead where
  stored : List UInt8
  actsize : ℕ
  len : ℕ
  deriving DecidableEq

/-- The value of a call and the bytes at the start of the buffer of its caller. -/
structure TcpReturn where
  value : ℕ
  stored : List UInt8
  deriving DecidableEq

/-- A pass of the loop of `std_read`, for the packet that `elua_net_recv` stores at `lptr`. -/
def readPass (read : TcpRead) (packet : List UInt8) : TcpRead ⊕ TcpReturn :=
  let stored := read.stored ++ packet
  let actsize := read.actsize + packet.length
  if stdCtrlzCode ∈ packet then .inr ⟨0, stored⟩
  else if read.len ≤ actsize then .inr ⟨read.len, stored⟩
  else if EndsLine packet then .inr ⟨actsize, stored⟩
  else .inl ⟨stored, actsize, read.len - packet.length⟩

/-- The variables at the start of a call for `len` bytes. -/
def TcpRead.start (len : ℕ) : TcpRead := ⟨[], 0, len⟩

/-- The loop of `std_read`: the result of the call and the packets that are left for the next one.
There is none if the call still waits after all packets. -/
def readLoop : TcpRead → List (List UInt8) → Option (TcpReturn × List (List UInt8))
  | _, [] => none
  | read, packet :: packets =>
    match readPass read packet with
    | .inl next => readLoop next packets
    | .inr result => some (result, packets)

/-- `std_read` of a console over TCP. -/
def stdReadTcp (len : ℕ) (packets : List (List UInt8)) :
    Option (TcpReturn × List (List UInt8)) :=
  readLoop (.start len) packets

/-! ### What is promised -/

/-- The packets of a call are no longer than what it asks for, and hold no end of file. -/
def Delivered : TcpRead → List (List UInt8) → Prop
  | _, [] => True
  | read, packet :: packets =>
    (packet.length : ℤ) ≤ netSize read.len ∧ stdCtrlzCode ∉ packet ∧
      match readPass read packet with
      | .inl next => Delivered next packets
      | .inr _ => True

/-- The call ends with the packet: the buffer of `size` bytes is full, or the line is ended. -/
def Finishes (size : ℕ) (stored packet : List UInt8) : Prop :=
  (stored ++ packet).length = size ∨ EndsLine packet

instance (size : ℕ) (stored packet : List UInt8) : Decidable (Finishes size stored packet) :=
  inferInstanceAs (Decidable (_ ∨ _))

/-- From the variables of a call for `size` bytes on, each pass ends the call exactly when the
buffer is full or the line is ended, and then with the number of bytes stored, which fits. -/
def PassesRight (size : ℕ) : TcpRead → List (List UInt8) → Prop
  | _, [] => True
  | read, packet :: packets =>
    match readPass read packet with
    | .inl next => ¬Finishes size read.stored packet ∧ PassesRight size next packets
    | .inr result => Finishes size read.stored packet ∧
        result.stored = read.stored ++ packet ∧ result.value = result.stored.length ∧
          result.value ≤ size

/-- The call returns what it received. -/
def ReadRight (size : ℕ) (packets : List (List UInt8)) : Prop :=
  PassesRight size (.start size) packets

/-- The bytes received before a packet and those received with it are fewer than the requested
length, or as many as this if the packet ends the call. -/
def TotalsFit (size : ℕ) : List UInt8 → List (List UInt8) → Prop
  | _, [] => True
  | stored, packet :: packets =>
    let total := stored.length + (stored ++ packet).length
    if Finishes size stored packet then total ≤ size
    else total < size ∧ TotalsFit size (stored ++ packet) packets

instance (size : ℕ) : ∀ stored packets, Decidable (TotalsFit size stored packets)
  | _, [] => .isTrue trivial
  | stored, packet :: packets =>
    have : Decidable (TotalsFit size (stored ++ packet) packets) := instDecidableTotalsFit size _ _
    inferInstanceAs (Decidable (ite _ _ _))

/-! ### The passes -/

section Passes

variable {size : ℕ} {read : TcpRead} {packet : List UInt8} {packets : List (List UInt8)}

/-- What the variables are in every pass. -/
structure TcpRead.Tracks (size : ℕ) (read : TcpRead) : Prop where
  actsize_eq : read.actsize = read.stored.length
  len_eq : read.len + read.stored.length = size

theorem TcpRead.tracks_start (size : ℕ) : (TcpRead.start size).Tracks size := ⟨rfl, rfl⟩

/-- A length is asked for as it is, or as less. -/
theorem le_of_netSize {len count : ℕ} (hcount : (count : ℤ) ≤ netSize len) : count ≤ len := by
  have hle : netSize len ≤ len := by
    unfold netSize
    rw [Int.bmod_def]
    split_ifs <;> omega
  omega

/-- A pass goes on, or it returns what is left to ask for or the number of bytes received. -/
theorem readPass_eq (hctrlz : stdCtrlzCode ∉ packet) (htracks : read.Tracks size) :
    readPass read packet =
      if size ≤ read.stored.length + (read.stored ++ packet).length then
        .inr ⟨read.len, read.stored ++ packet⟩
      else if EndsLine packet then
        .inr ⟨(read.stored ++ packet).length, read.stored ++ packet⟩
      else .inl ⟨read.stored ++ packet, (read.stored ++ packet).length,
        read.len - packet.length⟩ := by
  obtain ⟨hactsize, hlen⟩ := htracks
  have hlength : (read.stored ++ packet).length = read.actsize + packet.length := by
    rw [List.length_append, hactsize]
  have hcompare : read.len ≤ read.actsize + packet.length ↔
      size ≤ read.stored.length + (read.stored ++ packet).length := by
    omega
  unfold readPass
  rw [if_neg hctrlz, if_congr hcompare rfl rfl, hlength]

theorem TcpRead.Tracks.next (htracks : read.Tracks size) (hfits : packet.length ≤ read.len) :
    TcpRead.Tracks size ⟨read.stored ++ packet, (read.stored ++ packet).length,
      read.len - packet.length⟩ where
  actsize_eq := rfl
  len_eq := by
    have hlen := htracks.len_eq
    simp only [List.length_append]
    omega

/-- From any pass on, the call is right exactly if the totals fit. -/
theorem passesRight_iff (htracks : read.Tracks size) (hdelivered : Delivered read packets) :
    PassesRight size read packets ↔ TotalsFit size read.stored packets := by
  induction packets generalizing read with
  | nil => exact Iff.rfl
  | cons packet packets ih =>
    obtain ⟨hasked, hctrlz, hrest⟩ := hdelivered
    have hfits := le_of_netSize hasked
    have hlen := htracks.len_eq
    have hlength : (read.stored ++ packet).length = read.stored.length + packet.length :=
      List.length_append
    rw [PassesRight, TotalsFit]
    rw [readPass_eq hctrlz htracks] at hrest ⊢
    by_cases hover : size ≤ read.stored.length + (read.stored ++ packet).length
    · -- The pass returns `len`: this is the number of bytes stored just if the totals are equal.
      rw [if_pos hover]
      dsimp only
      by_cases hfinishes : Finishes size read.stored packet
      · rw [if_pos hfinishes]
        simp only [hfinishes, true_and]
        omega
      · rw [if_neg hfinishes]
        exact iff_of_false (fun hright ↦ hfinishes hright.1)
          fun hsmall ↦ absurd hsmall.1 (Nat.not_lt_of_le hover)
    · rw [if_neg hover] at hrest ⊢
      have hopen : (read.stored ++ packet).length ≠ size := by omega
      by_cases hends : EndsLine packet
      · have hfinishes : Finishes size read.stored packet := .inr hends
        rw [if_pos hends, if_pos hfinishes]
        simp only [hfinishes, true_and]
        omega
      · have hgoes : ¬Finishes size read.stored packet := not_or.mpr ⟨hopen, hends⟩
        rw [if_neg hends] at hrest ⊢
        rw [if_neg hgoes]
        simp only [hgoes, not_false_eq_true, true_and]
        rw [ih (htracks.next hfits) hrest, and_iff_right (Nat.lt_of_not_le hover)]

end Passes

/-! ### What the calls return -/

/-- A call for any number of bytes, with packets that are no longer than what it asks for and hold
no end of file, returns what it received exactly if the totals fit. -/
theorem readRight_iff (size : ℕ) (packets : List (List UInt8))
    (hdelivered : Delivered (.start size) packets) :
    ReadRight size packets ↔ TotalsFit size [] packets :=
  passesRight_iff (TcpRead.tracks_start size) hdelivered

/-- Ten bytes are asked for, and come as two and two that end the line. -/
theorem readRight_iff_two_packets :
    ReadRight 10 [[97, 98], [13, 10]] ∧ TotalsFit 10 [] [[97, 98], [13, 10]] := by
  have hdelivered : Delivered (.start 10) [[97, 98], [13, 10]] :=
    ⟨by decide, by decide, by decide, by decide, trivial⟩
  have hfits : TotalsFit 10 [] [[97, 98], [13, 10]] := by decide
  exact ⟨(readRight_iff 10 _ hdelivered).mpr hfits, hfits⟩

/-- Ten bytes are asked for, and come as four and six: the call returns six. -/
theorem not_readRight_second_packet :
    stdReadTcp 10 [[97, 98, 99, 100], [101, 102, 103, 104, 105, 106]] =
        some (⟨6, [97, 98, 99, 100, 101, 102, 103, 104, 105, 106]⟩, []) ∧
      Delivered (.start 10) [[97, 98, 99, 100], [101, 102, 103, 104, 105, 106]] ∧
        ¬ReadRight 10 [[97, 98, 99, 100], [101, 102, 103, 104, 105, 106]] := by
  have hdelivered : Delivered (.start 10) [[97, 98, 99, 100], [101, 102, 103, 104, 105, 106]] :=
    ⟨by decide, by decide, by decide, by decide, trivial⟩
  exact ⟨by decide, hdelivered,
    (passesRight_iff (TcpRead.tracks_start 10) hdelivered).not.mpr (by decide)⟩

end Elua.Console
