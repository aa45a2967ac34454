import Elua.Foundation.Parts
import Elua.Rfs.FileCalls
import Elua.Shell.Storage

/-!
# Reads and writes in parts

`rfs_read_r` and `rfs_write_r` split a transfer into parts, such that the packet of a write request
fills the buffer. They add up what the client returns, and go on while parts are transferred whole.
When the client fails they stop, with what they have so far, which is nothing if it is the first
part.

The other end is a `Peer`: what it does with each part, with the answers that it gives.
`ReadMeets` and `WriteMeets` say that a transfer in parts is like one transfer of the whole length.
-/

set_option autoImplicit false
set_option relaxedAutoImplicit false

namespace Elua.Rfs

open Foundation Rpc
open Shell (RfsBuild)

/-! ### The code -/

/-- A build whose buffer has one of the sizes of the serial buffers, `BUF_SIZE_32768` at most. -/
structure SerialBuild extends RfsBuild where
  serial : rfsBufferSize ≤ 15

section Code

variable {State : Type} (build : SerialBuild)

/-- The loop that `rfs_write_r` and `rfs_read_r` have in common: `total` is the sum so far, and
`res` is compared with the size of the part as an unsigned number. -/
def transferLoop (call : Session State → Addr → ℕ → Option (Int32 × Session State)) (len : ℕ)
    (p : Addr) (total : Int32) (session : Session State) : Option (Int32 × Session State) :=
  if len = 0 then some (total, session)
  else
    let size := if build.realBufferSize < len then build.realBufferSize else len
    match call session p size with
    | none => none
    | some (res, session) =>
      if res = -1 then some (total, session)
      else if res.toUInt32 < UInt32.ofNat size then some (total + res, session)
      else transferLoop call (len - size) (p.plus size) (total + res) session
termination_by len
decreasing_by
  have hreal := build.realBufferSize_pos
  split_ifs <;> omega

variable (config : ClientConfig) (transport : Transport State) (session : Session State)

/-- `rfs_write_r`. -/
def rfsWriteR (fd : Int32) (ptr : Addr) (len : ℕ) : Option (Int32 × Session State) :=
  transferLoop build (fun session p towrite ↦ rfscWrite config transport session fd
    (some (loadBytes session.ram p towrite)) (UInt32.ofNat towrite)) len ptr 0 session

/-- `rfs_read_r`. -/
def rfsReadR (fd : Int32) (ptr : Addr) (len : ℕ) : Option (Int32 × Session State) :=
  transferLoop build (fun session p toread ↦ rfscRead config transport session fd p
    (UInt32.ofNat toread)) len ptr 0 session

end Code

/-! ### The other end -/

/-- What arrives is not accepted as a response, whatever is in the memory. -/
def Refused {Result : Type} (client : ClientConfig)
    (readResponse : Ram → Addr → EluarpcStatus × Result) (response : List UInt8) : Prop :=
  ∀ ram, (rfschReceive ram client.rfscBuffer response).1 = .err ∨
    (readResponse (rfschReceive ram client.rfscBuffer response).2.1 client.rfscBuffer).1 = .err

/-- What is at the other end of the line: the outcome of each part that it is asked to write or to
read, and the answers. A part fails if there is no answer in time, if the answer is damaged, or, for
a write, if the answer is `-1`. No answer is longer than the buffer. -/
structure Peer (client : ClientConfig) (build : SerialBuild) (State : Type) where
  transport : Transport State
  write : State → Int32 → List UInt8 → Option ℕ × State
  read : State → Int32 → ℕ → Option (List UInt8) × State
  write_le : ∀ state fd data count after,
    write state fd data = (some count, after) → count ≤ data.length
  read_le : ∀ state fd count data after,
    read state fd count = (some data, after) → data.length ≤ count
  write_answered : ∀ state fd data count after, data.length ≤ build.realBufferSize →
    write state fd data = (some count, after) →
      transport.exchange state (packet ((FileCall.write fd data).request client)) =
        some (packet [.r rfsOpWrite, .l (UInt32.ofNat count)], after)
  write_failed : ∀ state fd data after, data.length ≤ build.realBufferSize →
    write state fd data = (none, after) → ∃ response,
      transport.exchange state (packet ((FileCall.write fd data).request client)) =
        some (response, after) ∧ response.length ≤ 2 ^ build.rfsBufferSize ∧
        (Refused client remotefsWriteReadResponse response ∨
          response = packet [.r rfsOpWrite, .l (-1)])
  read_answered : ∀ state fd buf count data after, count ≤ build.realBufferSize →
    read state fd count = (some data, after) →
      transport.exchange state
          (packet ((FileCall.read fd buf (UInt32.ofNat count)).request client)) =
        some (packet [.r rfsOpRead, .p (some data) (UInt32.ofNat data.length)], after)
  read_failed : ∀ state fd buf count after, count ≤ build.realBufferSize →
    read state fd count = (none, after) → ∃ response,
      transport.exchange state
          (packet ((FileCall.read fd buf (UInt32.ofNat count)).request client)) =
        some (response, after) ∧ response.length ≤ 2 ^ build.rfsBufferSize ∧
        Refused client remotefsReadReadResponse response

/-- The buffer that is given to `read` or `write`: it is apart from `rfs_buffer`, which only the
code of the remote file system knows. -/
structure UserBuffer (client : ClientConfig) (build : SerialBuild) where
  ptr : Addr
  len : ℕ
  len_lt : len < 2 ^ 32
  apart : ∀ index < len,
    2 ^ build.rfsBufferSize ≤ (ptr.plus index - client.rfscBuffer).toNat

section Meets

variable {State : Type} {client : ClientConfig} {build : SerialBuild}
  (peer : Peer client build State) (fd : Int32)

/-- The parts of a read. -/
def Peer.readPart : Part State UInt8 := fun state _ size ↦ peer.read state fd size

/-- The parts of a write of some data: what is taken of each of them. -/
def Peer.writePart (data : List UInt8) : Part State UInt8 := fun state offset size ↦
  let part := (data.drop offset).take size
  match peer.write state fd part with
  | (none, after) => (none, after)
  | (some count, after) => (some (part.take count), after)

/-- A transfer in parts has the result that one transfer of the whole length has: the number of the
bytes that are transferred up to the first short part or a later failure, or `-1` if the first part
fails. It leaves the other end as the parts do, its bytes are as `InOrder` says, and what is sent
and what arrives fits the buffer. -/
def TransferMeets (build : SerialBuild) (part : Part State UInt8) (len : ℕ) (state : State)
    (outcome : Option (Int32 × Session (State × List (List UInt8))))
    (InOrder : Ram → List UInt8 → Prop) : Prop :=
  ∃ result after, outcome = some (result, after) ∧
    (part.Fails build.realBufferSize len state → result.toInt = -1) ∧
    (¬ part.Fails build.realBufferSize len state →
      result.toInt = (part.transfer build.realBufferSize len 0 state).1.length) ∧
    after.remote.1 = (part.transfer build.realBufferSize len 0 state).2 ∧
    InOrder after.ram (part.transfer build.realBufferSize len 0 state).1 ∧
    ∀ message ∈ after.remote.2, message.length ≤ 2 ^ build.rfsBufferSize

/-- The other end reads a file: what it gives is what comes next. -/
def Peer.ReadsFile (rest : State → List UInt8) : Prop :=
  ∀ state count data after, peer.read state fd count = (some data, after) →
    data <+: rest state ∧ rest after = (rest state).drop data.length

/-- The other end reads a file and always gives all that there is. -/
def Peer.GivesAll (rest : State → List UInt8) : Prop :=
  ∀ state count, ∃ after, peer.read state fd count = (some ((rest state).take count), after) ∧
    rest after = (rest state).drop count

/-- A read puts what it gets into the buffer, in the order of the file. If the other end gives all
that there is, this is what it gives for the whole length. -/
def ReadMeets (ram : Ram) (state : State) (buffer : UserBuffer client build) : Prop :=
  TransferMeets build (peer.readPart fd) buffer.len state
    (rfsReadR build client (recording peer.transport) ⟨ram, [], state, []⟩ fd buffer.ptr buffer.len)
    fun after bytes ↦ BytesAt after buffer.ptr bytes ∧
      (∀ rest, peer.ReadsFile fd rest → bytes <+: rest state) ∧
      ∀ rest, peer.GivesAll fd rest → (peer.read state fd buffer.len).1 = some bytes

/-- A write takes what is in the buffer, in its order. -/
def WriteMeets (ram : Ram) (state : State) (buffer : UserBuffer client build) : Prop :=
  let data := loadBytes ram buffer.ptr buffer.len
  TransferMeets build (peer.writePart fd data) buffer.len state
    (rfsWriteR build client (recording peer.transport) ⟨ram, [], state, []⟩ fd buffer.ptr
      buffer.len)
    fun _ bytes ↦ bytes <+: data

end Meets

end Elua.Rfs
