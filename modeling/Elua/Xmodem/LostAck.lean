import Elua.Xmodem.Reception

/-!
# Lost acknowledgements in XMODEM

A sender that does not see the acknowledgement of a block sends the block again. The receiver would
have to acknowledge the copy and to go on (`Tolerates`).

`xmodem_get_record` compares the number of a record with the number that is expected and with no
other, so that a copy of the last block is answered with NAK, like a damaged one (`nak_of_copy`). A
reception tolerates lost acknowledgements only if no such copy arrives in it
(`toleratesLostAcks_iff`). -/

set_option autoImplicit false
set_option relaxedAutoImplicit false

namespace Elua.Xmodem

open Foundation

/-! ### Copies of the last block -/

/-- A pass accepts a record. -/
structure AcceptsRecord (realloc : Realloc) (state next : Reception) (record : List UInt8) :
    Prop where
  continues : Continues (receiveBody realloc) state next
  records_eq : next.records = state.records ++ [record]
  packnum_eq : next.packnum = state.packnum + 1

/-- The record is the one that a reception has accepted last. -/
inductive LastAccepted (realloc : Realloc) (dest : List UInt8) (line : Line) :
    Reception → List UInt8 → Prop
  | accepted {state next : Reception} {record : List UInt8}
      (hvisits : Visits (receiveBody realloc) (.start dest line) state)
      (haccepts : AcceptsRecord realloc state next record) : LastAccepted realloc dest line next record
  | kept {state next : Reception} {record : List UInt8}
      (hlast : LastAccepted realloc dest line state record)
      (hcontinues : Continues (receiveBody realloc) state next)
      (hpacknum : next.packnum = state.packnum) : LastAccepted realloc dest line next record

/-- The first character of a block with a payload of some size. -/
def blockHeader (packSz : ℕ) : UInt8 := if packSz = 128 then xmSoh else xmStx

/-- A record arrives as a block of its size. -/
def BlockArrives (record : List UInt8) (line : Line) : Prop :=
  ∃ packSz rest behind, (packSz = 128 ∨ packSz = 1024) ∧
    line = some (blockHeader packSz) :: rest ∧
    recordBytes (packSz + 4) rest = (some record, behind)

/-- A pass acknowledges what it reads, and the reception is where it was: the next block would be
accepted, unless there is no memory for it. -/
structure Tolerates (realloc : Realloc) (state next : Reception) : Prop where
  continues : Continues (receiveBody realloc) state next
  acknowledged : ∃ answer, next.sent = state.sent ++ answer ∧ xmAck ∈ answer ∧ xmNak ∉ answer
  dest_eq : next.dest = state.dest
  size_eq : next.size = state.size
  packnum_eq : next.packnum = state.packnum
  accepts : ∀ line payload record, IsRecord next.packnum payload record → BlockArrives record line →
    (∃ after, AcceptsRecord realloc { next with line := line } after record) ∨
      ∃ after, receiveBody realloc { next with line := line } = some (.inr (errorOutOfMem, after))

/-- In every state of a reception that has accepted a block, a copy of the last one is tolerated. -/
def ToleratesLostAcks (realloc : Realloc) (dest : List UInt8) (line : Line) : Prop :=
  ∀ state record, LastAccepted realloc dest line state record → BlockArrives record state.line →
    ∃ next, Tolerates realloc state next

/-! ### The answer -/

section Answer

variable {realloc : Realloc} {dest : List UInt8} {line : Line} {state next : Reception}
  {record : List UInt8} {packSz : ℕ}

/-- What a block makes of a pass. -/
theorem receiveBody_block (hretries : state.retries ≠ 0) (hpackSz : packSz = 128 ∨ packSz = 1024)
    {rest : Line} (hline : state.line = some (blockHeader packSz) :: rest) :
    receiveBody realloc state = some (Reception.packet realloc { state with
      retries := state.retries - 1
      sent := state.sent ++ if state.starting then [startCharacter] else []
      line := rest } packSz) := by
  unfold receiveBody
  rw [if_neg hretries, hline]
  dsimp only [xmodemIn]
  unfold Reception.header
  rcases hpackSz with rfl | rfl
  · rw [if_neg (by decide), if_neg (by decide), if_pos (by decide)]
  · rw [if_neg (by decide), if_neg (by decide), if_neg (by decide), if_pos (by decide)]

/-- A pass keeps the number, or it has read a record that carries the number. -/
theorem packet_packnum (hpacket : state.packet realloc packSz = .inl next) :
    next.packnum = state.packnum ∨ ∃ good, next.records = state.records ++ [good] ∧
      recordIsGood state.packnum packSz good = true := by
  unfold Reception.packet at hpacket
  split at hpacket
  · obtain rfl := Sum.inl.inj hpacket
    exact .inl rfl
  · rename_i good behind hbytes
    dsimp only at hpacket
    split_ifs at hpacket with hgood
    · exact .inr ⟨good, (accept_kept hpacket).records, hgood⟩
    · obtain rfl := Sum.inl.inj hpacket
      exact .inl rfl

theorem header_packnum {ch : UInt8} (hheader : state.header realloc ch = .inl next) :
    next.packnum = state.packnum ∨ ∃ packSz good, next.records = state.records ++ [good] ∧
      recordIsGood state.packnum packSz good = true := by
  unfold Reception.header at hheader
  split_ifs at hheader
  · cases hheader
  · cases hheader
  · exact (packet_packnum hheader).imp_right fun hgood ↦ ⟨_, hgood⟩
  · exact (packet_packnum hheader).imp_right fun hgood ↦ ⟨_, hgood⟩
  · obtain rfl := Sum.inl.inj hheader
    exact .inl rfl

theorem continues_packnum (hcontinues : Continues (receiveBody realloc) state next) :
    next.packnum = state.packnum ∨ ∃ packSz good, next.records = state.records ++ [good] ∧
      recordIsGood state.packnum packSz good = true := by
  unfold Continues receiveBody at hcontinues
  by_cases hretries : state.retries = 0
  · rw [if_pos hretries] at hcontinues
    cases hcontinues
  · rw [if_neg hretries] at hcontinues
    dsimp only at hcontinues
    split at hcontinues
    · obtain rfl := Sum.inl.inj (Option.some.inj hcontinues)
      exact .inl rfl
    · have hheader := header_packnum (Option.some.inj hcontinues)
      exact hheader

/-- The block that is expected is accepted where it fits. -/
theorem exists_accepts (hretries : state.retries ≠ 0) (hpackSz : packSz = 128 ∨ packSz = 1024)
    {rest behind : Line} (hline : state.line = some (blockHeader packSz) :: rest)
    (hbytes : recordBytes (packSz + 4) rest = (some record, behind))
    (hgood : recordIsGood state.packnum packSz record = true)
    (hfits : (state.size + packSz) % 2 ^ 32 ≤ state.limit) :
    ∃ next, AcceptsRecord realloc state next record ∧ next.line = xmodemFlush behind := by
  have hpass := @receiveBody_block realloc state packSz hretries hpackSz rest hline
  unfold Reception.packet at hpass
  dsimp only at hpass
  rw [hbytes] at hpass
  dsimp only at hpass
  rw [if_pos hgood, Reception.accept, if_neg (Nat.not_lt.mpr hfits), Reception.consume] at hpass
  split_ifs at hpass <;> exact ⟨_, ⟨hpass, rfl, rfl⟩, rfl⟩

theorem number_of_good {number : UInt8} (hgood : recordIsGood number packSz record = true) :
    record.getD 0 0 = number := by
  unfold recordIsGood at hgood
  simp only [Bool.and_eq_true, decide_eq_true_eq] at hgood
  exact hgood.1.1.1

theorem succ_ne (number : UInt8) : number + 1 ≠ number := by
  intro heq
  have hnat := congrArg UInt8.toNat heq
  rw [UInt8.toNat_add] at hnat
  have hone : (1 : UInt8).toNat = 1 := rfl
  have hlt := number.toNat_lt
  omega

/-- The last accepted record carries the number before the one that is expected. -/
theorem LastAccepted.number (hlast : LastAccepted realloc dest line state record) :
    record.getD 0 0 + 1 = state.packnum := by
  induction hlast with
  | accepted hvisits haccepts =>
    obtain hsame | ⟨packSz, good, hrecords, hgood⟩ := continues_packnum haccepts.continues
    · exact absurd (haccepts.packnum_eq.symm.trans hsame) (succ_ne _)
    · have hlists := List.append_cancel_left (hrecords.symm.trans haccepts.records_eq)
      obtain rfl := List.singleton_inj.mp hlists
      rw [number_of_good hgood, haccepts.packnum_eq]
  | kept hlast hcontinues hpacknum ih => rw [ih, hpacknum]

/-- A copy of the last block is answered with NAK, unless the receiver gives up at this point. -/
theorem LastAccepted.nak_of_copy (hlast : LastAccepted realloc dest line state record)
    (harrives : BlockArrives record state.line)
    (hcontinues : Continues (receiveBody realloc) state next) :
    next.sent = (state.sent ++ if state.starting then [startCharacter] else []) ++ [xmNak] := by
  obtain ⟨packSz, rest, behind, hpackSz, hline, hbytes⟩ := harrives
  have hretries : state.retries ≠ 0 := by
    intro hzero
    unfold Continues receiveBody at hcontinues
    rw [if_pos hzero] at hcontinues
    cases hcontinues
  have hbad : ¬recordIsGood state.packnum packSz record = true := by
    intro hgood
    have hnumber := hlast.number
    rw [number_of_good hgood] at hnumber
    exact succ_ne _ hnumber
  unfold Continues at hcontinues
  rw [receiveBody_block hretries hpackSz hline, Reception.packet] at hcontinues
  dsimp only at hcontinues
  rw [hbytes] at hcontinues
  dsimp only at hcontinues
  rw [if_neg hbad] at hcontinues
  obtain rfl := Sum.inl.inj (Option.some.inj hcontinues)
  rfl

/-- No copy of the last block is tolerated. -/
theorem LastAccepted.not_tolerates (hlast : LastAccepted realloc dest line state record)
    (harrives : BlockArrives record state.line) : ¬Tolerates realloc state next := by
  intro htolerates
  obtain ⟨answer, hanswer, -, hnak⟩ := htolerates.acknowledged
  have hsent := hlast.nak_of_copy harrives htolerates.continues
  rw [hanswer, List.append_assoc] at hsent
  rw [List.append_cancel_left hsent] at hnak
  exact hnak (List.mem_append_right _ (List.mem_singleton_self _))

end Answer

/-- A reception tolerates lost acknowledgements exactly if none is lost in it: wherever a copy of the
last block arrives, it is not tolerated. -/
theorem toleratesLostAcks_iff (realloc : Realloc) (dest : List UInt8) (line : Line) :
    ToleratesLostAcks realloc dest line ↔ ∀ state record,
      LastAccepted realloc dest line state record → ¬BlockArrives record state.line := by
  constructor
  · intro htolerates state record hlast harrives
    obtain ⟨next, hnext⟩ := htolerates state record hlast harrives
    exact hlast.not_tolerates harrives hnext
  · intro hnone state record hlast harrives
    exact absurd harrives (hnone state record hlast)

/-- The first block holds zeros, and after a timeout it comes again. -/
def copyLine : Line :=
  some xmSoh :: some 1 :: some 0xFE :: (List.replicate 130 (some 0) ++
    none :: some xmSoh :: some 1 :: some 0xFE :: List.replicate 130 (some 0))

/-- The copy is not tolerated. -/
theorem not_toleratesLostAcks_copyLine :
    ¬ToleratesLostAcks .never (List.replicate initialBufferSize 0) copyLine := by
  intro htolerates
  have hfirst : recordBytes 132 copyLine.tail = (some (1 :: 0xFE :: List.replicate 130 0),
      none :: some xmSoh :: some 1 :: some 0xFE :: List.replicate 130 (some 0)) := by
    decide +kernel
  obtain ⟨next, haccepts, hline⟩ := @exists_accepts .never
    (.start (List.replicate initialBufferSize 0) copyLine) _ 128 (by decide) (.inl rfl) _ _ rfl
    hfirst recordIsGood_zeros (by decide)
  have hlast := LastAccepted.accepted .refl haccepts
  have hcopy : recordBytes 132 next.line.tail = (some (1 :: 0xFE :: List.replicate 130 0), []) := by
    rw [hline]
    decide +kernel
  have harrives : BlockArrives (1 :: 0xFE :: List.replicate 130 0) next.line :=
    ⟨128, next.line.tail, [], .inl rfl, by rw [hline]; rfl, hcopy⟩
  obtain ⟨after, hafter⟩ := htolerates _ _ hlast harrives
  exact hlast.not_tolerates harrives hafter

end Elua.Xmodem
