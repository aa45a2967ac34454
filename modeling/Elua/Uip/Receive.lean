import Elua.Uip.Reading

/-!
# Receiving loses nothing

What the calls give out is compared with the stream: `ReadCall.Gives` relates a part of the stream
to what a call gives out of it, which in read-to mode leaves out the carriage returns and the
delimiter.

`received_in_order`: in runs whose segments are `Fitting`, the parts of all calls make up the
stream, and no buffer is taken for one of the other kind. A segment that does not fit is one that
comes when no call takes it, with an error, that is longer than what the call still takes, that has
bytes behind the delimiter, or that is stored over an earlier segment of the same raw buffer. -/

set_option autoImplicit false
set_option relaxedAutoImplicit false

namespace Elua.Uip

open Foundation TransitionSystem

variable {config : Config} {sockno : ℕ}

/-! ### What calls give out -/

/-- The call gives out what it reads as it is. -/
def ReadCall.plain (call : ReadCall) : Prop := call.telnet ∨ call.readto = noLastchar

/-- What a call gives out of a part of the stream without its delimiter. -/
def ReadCall.Reads (config : Config) (call : ReadCall) (part output : List UInt8) : Prop :=
  call.plain ∧ output = part ∨
    ¬ call.plain ∧ (∀ byte ∈ part, charValue config byte ≠ call.readto) ∧
      output = part.filter (· ≠ 13)

/-- What a call gives out of a part of the stream, which may end with its delimiter. -/
def ReadCall.Gives (config : Config) (call : ReadCall) (part output : List UInt8) : Prop :=
  call.Reads config part output ∨
    ¬ call.plain ∧ ∃ body last, part = body ++ [last] ∧ charValue config last = call.readto ∧
      call.Reads config body output

/-- What the caller relies on: each call has given out its part of the stream, the parts make up
the stream, and no buffer has been taken for one of the other kind. -/
def ReadRun.InOrder (config : Config) (run : ReadRun) : Prop :=
  run.app.buffer.misused = false ∧ ∃ parts part,
    List.Forall₂ (fun entry part ↦ entry.1.Gives config part entry.2) run.finished parts ∧
      parts.flatten ++ part = run.stream ∧
        match run.current with
        | some call => call.Gives config part (call.output run.app)
        | none => part = []

/-- The segment fits what waits for it. -/
def Fitting (config : Config) (sockno : ℕ) (run : ReadRun) : ReadEvent → Prop
  | .uip event => event.data ≠ [] →
    run.app.socket.state = .recv2 ∧ ¬ event.fails ∧ event.data.length ≤ run.app.socket.len ∧
      if run.app.services.isTelnet config sockno then
        ¬ run.app.buffer.lua ∧ telnetIac ∉ event.data
      else
        (run.app.socket.readto ≠ noLastchar →
          ∀ byte ∈ event.data.dropLast, charValue config byte ≠ run.app.socket.readto) ∧
        (run.app.buffer.lua ∨ (∀ call ∈ run.current, call.maxsize = run.app.socket.len) ∨
          (taken config run.app.socket.readto event.data).1 = [])
  | _ => True

instance (run : ReadRun) (event : ReadEvent) : Decidable (Fitting config sockno run event) :=
  match event with
  | .uip _ => inferInstanceAs (Decidable (_ → _ ∧ _ ∧ _ ∧ ite _ _ _))
  | .call .. => .isTrue trivial
  | .timeout => .isTrue trivial
  | .returns => .isTrue trivial

/-! ### Read-to mode -/

/-- Without a delimiter, everything but the carriage returns is stored. -/
theorem readTo_of_absent {readto : ℤ} {data : List UInt8}
    (habsent : ∀ byte ∈ data, charValue config byte ≠ readto) :
    readTo config readto data = (data.filter (· ≠ 13), false) := by
  induction data with
  | nil => rfl
  | cons byte data ih =>
    rw [readTo, if_neg (habsent byte List.mem_cons_self),
      ih fun other hother ↦ habsent other (List.mem_cons_of_mem _ hother), List.filter_cons]
    by_cases hbyte : byte = 13 <;> simp [hbyte]

/-- The data ends with the delimiter. -/
theorem readTo_append_delimiter {readto : ℤ} {body : List UInt8} {last : UInt8}
    (habsent : ∀ byte ∈ body, charValue config byte ≠ readto)
    (hlast : charValue config last = readto) :
    readTo config readto (body ++ [last]) = (body.filter (· ≠ 13), true) := by
  induction body with
  | nil => rw [List.nil_append, readTo, if_pos hlast, List.filter_nil]
  | cons byte body ih =>
    rw [List.cons_append, readTo, if_neg (habsent byte List.mem_cons_self),
      ih fun other hother ↦ habsent other (List.mem_cons_of_mem _ hother), List.filter_cons]
    by_cases hbyte : byte = 13 <;> simp [hbyte]

/-- No more is stored than there is. -/
theorem length_taken_le (readto : ℤ) (data : List UInt8) :
    (taken config readto data).1.length ≤ data.length := by
  unfold taken
  split_ifs
  · induction data with
    | nil => exact Nat.le_refl _
    | cons byte data ih =>
      rw [readTo]
      split_ifs
      · exact Nat.zero_le _
      · exact Nat.succ_le_succ ih
      · exact Nat.le_succ_of_le ih
  · exact Nat.le_refl _

/-- What is stored of a segment continues what a call has read: without the delimiter, or with the
delimiter as its last byte. -/
theorem ReadCall.Reads.taken {call : ReadCall} {part output data : List UInt8}
    (hreads : call.Reads config part output) (htelnet : call.telnet = false)
    (habsent : call.readto ≠ noLastchar →
      ∀ byte ∈ data.dropLast, charValue config byte ≠ call.readto) :
    (taken config call.readto data).2 = false ∧
        call.Reads config (part ++ data) (output ++ (taken config call.readto data).1) ∨
      (taken config call.readto data).2 = true ∧
        call.Gives config (part ++ data) (output ++ (taken config call.readto data).1) := by
  unfold Uip.taken
  rcases hreads with ⟨hplain, rfl⟩ | ⟨hplain, hpart, rfl⟩
  · have hreadto : call.readto = noLastchar := by
      rcases hplain with hplain | hplain
      · rw [htelnet] at hplain
        cases hplain
      · exact hplain
    rw [if_neg (not_not.mpr hreadto)]
    exact .inl ⟨rfl, .inl ⟨hplain, rfl⟩⟩
  · have hreadto : call.readto ≠ noLastchar := fun hreadto ↦ hplain (.inr hreadto)
    rw [if_pos hreadto]
    rcases List.eq_nil_or_concat data with rfl | ⟨body, last, rfl⟩
    · exact .inl ⟨rfl, .inr ⟨hplain, by simpa using hpart, by simp [readTo]⟩⟩
    · have hbody := habsent hreadto
      rw [List.concat_eq_append] at hbody ⊢
      rw [List.dropLast_concat] at hbody
      have hboth : ∀ byte ∈ part ++ body, charValue config byte ≠ call.readto := by
        intro byte hbyte
        exact (List.mem_append.mp hbyte).elim (hpart byte) (hbody byte)
      by_cases hlast : charValue config last = call.readto
      · rw [readTo_append_delimiter hbody hlast]
        refine .inr ⟨rfl, .inr ⟨hplain, part ++ body, last, by simp, hlast, ?_⟩⟩
        exact .inr ⟨hplain, hboth, by simp⟩
      · rw [readTo_of_absent]
        · refine .inl ⟨rfl, .inr ⟨hplain, fun byte hbyte ↦ ?_, by simp⟩⟩
          rw [← List.append_assoc, List.mem_append, List.mem_singleton] at hbyte
          exact hbyte.elim (hboth byte) fun heq ↦ heq ▸ hlast
        · intro byte hbyte
          rw [List.mem_append, List.mem_singleton] at hbyte
          exact hbyte.elim (hbody byte) fun heq ↦ heq ▸ hlast

/-! ### A call that waits -/

/-- The call waits, and has given out what it reads of a part of the stream. -/
structure AppState.Waiting (config : Config) (sockno : ℕ) (app : AppState) (call : ReadCall)
    (part : List UInt8) : Prop where
  state : app.socket.state = .recv ∨ app.socket.state = .recv2
  configured : app.services.configured
  telnet : app.services.isTelnet config sockno = call.telnet
  readto : app.socket.readto = call.readto
  ptr : app.socket.ptr = 0
  res : call.lua ↔ app.socket.res ≠ 0
  lua : app.buffer.lua = call.lua
  misused : app.buffer.misused = false
  memory : ¬ call.lua → call.maxsize ≤ app.buffer.bytes.length
  len : app.socket.len + (call.output app).length = call.maxsize
  reads : call.Reads config part (call.output app)
  fresh : call.telnet → part = []

/-- The call is over, and has given out its part of the stream. -/
structure AppState.Over (config : Config) (app : AppState) (call : ReadCall) (part : List UInt8) :
    Prop where
  state : app.socket.state = .idle
  misused : app.buffer.misused = false
  gives : call.Gives config part (call.output app)

/-- What a store does for the call. -/
theorem AppState.Waiting.put {app after : AppState} {call : ReadCall} {part stored : List UInt8}
    (hwaiting : app.Waiting config sockno call part)
    (hbuffer : after.buffer = app.buffer.put app.socket stored)
    (hlen : after.socket.len = app.socket.len - stored.length)
    (hroom : stored.length ≤ app.socket.len)
    (hfresh : call.lua ∨ call.maxsize = app.socket.len ∨ stored = []) :
    call.output after = call.output app ++ stored ∧ after.buffer.misused = false ∧
      after.buffer.lua = call.lua ∧ (¬ call.lua → call.maxsize ≤ after.buffer.bytes.length) := by
  by_cases hempty : stored = []
  · subst hempty
    have hsame : after.buffer = app.buffer := by
      rw [hbuffer]
      unfold CallBuffer.put CallBuffer.add CallBuffer.store
      simp
    rw [List.length_nil, Nat.cast_zero, sub_zero] at hlen
    refine ⟨?_, hsame ▸ hwaiting.misused, hsame ▸ hwaiting.lua,
      fun hraw ↦ hsame ▸ hwaiting.memory hraw⟩
    rw [ReadCall.output, ReadCall.output, hsame, hlen, List.append_nil]
  · by_cases hlua : call.lua
    · have hput : after.buffer =
          { app.buffer with bytes := app.buffer.bytes ++ stored } := by
        rw [hbuffer, CallBuffer.put, if_pos (hwaiting.res.mp hlua), CallBuffer.add, if_neg hempty,
          if_pos (hwaiting.lua.trans hlua)]
      refine ⟨?_, by rw [hput]; exact hwaiting.misused, by rw [hput]; exact hwaiting.lua,
        fun hraw ↦ absurd hlua hraw⟩
      rw [ReadCall.output, ReadCall.output, if_pos hlua, if_pos hlua, hput]
    · have hmaxsize : call.maxsize = app.socket.len :=
        (hfresh.resolve_left hlua).resolve_right hempty
      have hmemory := hwaiting.memory hlua
      have hfits : ¬ (app.buffer.lua ∨ app.socket.ptr < 0 ∨
          app.buffer.bytes.length < app.socket.ptr + stored.length) := by
        rw [hwaiting.lua, hwaiting.ptr]
        rintro (hyes | hneg | hlong)
        · exact hlua hyes
        · omega
        · omega
      have hput : after.buffer =
          { app.buffer with bytes := overwrite app.buffer.bytes 0 stored } := by
        rw [hbuffer, CallBuffer.put, if_neg (fun hres ↦ hlua (hwaiting.res.mpr hres)),
          CallBuffer.store, if_neg hempty, if_neg hfits, hwaiting.ptr, Int.toNat_zero]
      refine ⟨?_, by rw [hput]; exact hwaiting.misused, by rw [hput]; exact hwaiting.lua,
        fun _ ↦ by rw [hput, length_overwrite]; exact hmemory⟩
      have hbefore : call.output app = [] := by
        have hlength := hwaiting.len
        exact List.length_eq_zero_iff.mp (by omega)
      have hcount : (call.maxsize - after.socket.len).toNat = stored.length := by omega
      rw [hbefore, List.nil_append, ReadCall.output, if_neg hlua, hput, hcount]
      have hsegment := @segment_overwrite_self _ app.buffer.bytes 0 stored (by omega)
      simpa [Foundation.segment] using hsegment

/-- A segment that is not longer than what the call still takes. -/
theorem receiveCall_of_le {event : Event} {app : AppState}
    (hle : event.data.length ≤ app.socket.len) :
    ∃ finish : Prop, ∃ conn res state,
      receiveCall config event app = { app with
        conn := conn
        socket := { app.socket with
          len := app.socket.len - (taken config app.socket.readto event.data).1.length
          res := res
          state := state }
        buffer := app.buffer.put app.socket (taken config app.socket.readto event.data).1 } ∧
      ((taken config app.socket.readto event.data).2 → finish) ∧
      (finish → state = .idle) ∧ (¬ finish → res = app.socket.res ∧ state = app.socket.state) := by
  have hmin : min app.socket.len event.data.length = (event.data.length : ℤ) := by omega
  have hlen : (if app.socket.readto ≠ noLastchar then
        app.socket.len - (taken config app.socket.readto event.data).1.length
      else app.socket.len - (event.data.length : ℤ)) =
      app.socket.len - (taken config app.socket.readto event.data).1.length := by
    split_ifs with hreadto
    · rfl
    · rw [taken, if_neg hreadto]
  have hmemcpy : ¬ ((event.data.length : ℤ) < 0 ∧ app.socket.readto = noLastchar) :=
    fun hneg ↦ absurd hneg.1 (by omega)
  unfold receiveCall
  simp only [if_neg (not_lt.mpr hle), hmin, Int.toNat_natCast, List.take_length, hlen,
    if_neg hmemcpy]
  refine ⟨app.socket.len - (taken config app.socket.readto event.data).1.length = 0 ∨
    event.data.length < config.receiveWindow ∨ (taken config app.socket.readto event.data).2,
    ?_⟩
  split_ifs with hfinish
  · exact ⟨app.conn.stop, errOk, .idle, rfl, fun hfound ↦ .inr (.inr hfound), fun _ ↦ rfl,
      fun hno ↦ absurd hfinish hno⟩
  · exact ⟨app.conn, app.socket.res, app.socket.state, rfl, fun hfound ↦ .inr (.inr hfound),
      fun hyes ↦ absurd hyes hfinish, fun _ ↦ ⟨rfl, rfl⟩⟩

/-! ### Steps -/

section Steps

variable {app after : AppState} {call : ReadCall} {part : List UInt8} {event : Event}

/-- A call that is cut off has given out what it has read. -/
theorem AppState.Waiting.over (hwaiting : app.Waiting config sockno call part)
    (hstate : after.socket.state = .idle) (hbuffer : after.buffer = app.buffer)
    (hlen : after.socket.len = app.socket.len) : after.Over config call part := by
  refine ⟨hstate, hbuffer ▸ hwaiting.misused, .inl ?_⟩
  have houtput : call.output after = call.output app := by
    rw [ReadCall.output, ReadCall.output, hbuffer, hlen]
  show call.Reads config part (call.output after)
  rw [houtput]
  exact hwaiting.reads

/-- An event without data. -/
theorem AppState.Waiting.uip_nil (hwaiting : app.Waiting config sockno call part)
    (hconnected : ¬ event.connected) (hnewdata : ¬ event.newdata) :
    let after := eluaUipAppcall config sockno event app
    after.Waiting config sockno call part ∨ after.Over config call part := by
  intro after
  rcases hwaiting.state with hrecv | hrecv
  · have happ : after = restartCall app :=
      eluaUipAppcall_of_recv hwaiting.configured hconnected hrecv
    rw [happ]
    exact .inl { hwaiting with state := .inr rfl }
  · by_cases hfails : event.fails
    · have happ : after = errorCall config sockno event app :=
        eluaUipAppcall_of_fails hwaiting.configured hconnected hfails (.inr hrecv)
      rw [happ]
      exact .inr (hwaiting.over rfl rfl rfl)
    · have happ : after = app :=
        (eluaUipAppcall_of_recv2 hwaiting.configured hconnected hfails hrecv).trans
          (if_neg hnewdata)
      rw [happ]
      exact .inl hwaiting

/-- Without control sequences the telnet socket stores what there is room for. -/
theorem telnetScan_of_absent {behind : UInt8} {room : ℕ} {data : List UInt8}
    (habsent : telnetIac ∉ data) (hroom : data.length ≤ room) :
    telnetScan behind room 0 data = data := by
  induction data generalizing room with
  | nil => rw [telnetScan]
  | cons byte data ih =>
    rw [List.mem_cons, not_or] at habsent
    cases room with
    | zero => simp at hroom
    | succ room =>
      rw [telnetScan, if_pos (Ne.symm habsent.1),
        ih habsent.2 (Nat.le_of_succ_le_succ hroom)]

/-- A segment on the telnet socket. -/
theorem AppState.Waiting.uip_telnet (hwaiting : app.Waiting config sockno call part)
    (htelnet : call.telnet) (hraw : ¬ call.lua) (hne : event.data ≠ [])
    (habsent : telnetIac ∉ event.data) (hle : event.data.length ≤ app.socket.len) :
    (telnetHandleInput event app).Over config call
      (part ++ event.data) := by
  have hscan : telnetScan event.behind app.socket.len.toNat 0 event.data = event.data :=
    telnetScan_of_absent habsent (by omega)
  have hplain : call.plain := .inl htelnet
  have hempty : call.output app = [] := by
    rcases hwaiting.reads with ⟨-, houtput⟩ | ⟨hno, -⟩
    · rw [houtput, hwaiting.fresh htelnet]
    · exact absurd hplain hno
  have hlength := hwaiting.len
  rw [hempty, List.length_nil] at hlength
  obtain ⟨after, happ⟩ : ∃ after, after = telnetHandleInput event app := ⟨_, rfl⟩
  rw [← happ]
  unfold telnetHandleInput at happ
  simp only [hscan, if_neg hne] at happ
  have hput : app.buffer.put app.socket event.data =
      app.buffer.store app.socket.ptr event.data :=
    if_neg fun hres ↦ hraw (hwaiting.res.mpr hres)
  have hbuffer : after.buffer = app.buffer.put app.socket event.data := by rw [happ, hput]
  obtain ⟨houtput, hmisused, -, -⟩ :=
    hwaiting.put hbuffer (by rw [happ]) hle (.inr (.inl (by omega)))
  refine ⟨by rw [happ], hmisused, .inl (.inl ⟨hplain, ?_⟩)⟩
  rw [houtput, hempty, hwaiting.fresh htelnet]

/-- A segment on a socket that is not the telnet socket. -/
theorem AppState.Waiting.uip_receive (hwaiting : app.Waiting config sockno call part)
    (htelnet : call.telnet = false) (hle : event.data.length ≤ app.socket.len)
    (habsent : app.socket.readto ≠ noLastchar →
      ∀ byte ∈ event.data.dropLast, charValue config byte ≠ app.socket.readto)
    (hfresh : call.lua ∨ call.maxsize = app.socket.len ∨
      (taken config app.socket.readto event.data).1 = []) :
    let after := receiveCall config event app
    after.Waiting config sockno call (part ++ event.data) ∨
      after.Over config call (part ++ event.data) := by
  intro after
  obtain ⟨stored, hstored⟩ : ∃ stored, stored = taken config app.socket.readto event.data :=
    ⟨_, rfl⟩
  have hlength : stored.1.length ≤ event.data.length := hstored ▸ length_taken_le _ _
  obtain ⟨finish, conn, res, state, happ, hfound, hfinish, hopen⟩ :=
    @receiveCall_of_le config event app hle
  change after = _ at happ
  rw [← hstored] at happ hfound hfresh
  have hbuffer : after.buffer = app.buffer.put app.socket stored.1 := by rw [happ]
  obtain ⟨houtput, hmisused, hlua, hmemory⟩ :=
    hwaiting.put hbuffer (by rw [happ]) (by omega) hfresh
  rw [hwaiting.readto] at hstored habsent
  have htaken := hwaiting.reads.taken htelnet habsent
  rw [← hstored] at htaken
  rcases htaken with ⟨hnot, hreads⟩ | ⟨hyes, hgives⟩
  · rw [← houtput] at hreads
    by_cases hdone : finish
    · exact .inr ⟨by rw [happ]; exact hfinish hdone, hmisused, .inl hreads⟩
    · obtain ⟨hres, hstate⟩ := hopen hdone
      subst hres hstate
      refine .inl ⟨by rw [happ]; exact hwaiting.state, by rw [happ]; exact hwaiting.configured,
        by rw [happ]; exact hwaiting.telnet, by rw [happ]; exact hwaiting.readto,
        by rw [happ]; exact hwaiting.ptr, by rw [happ]; exact hwaiting.res, hlua, hmisused, hmemory,
        ?_, hreads, fun hyes ↦ ?_⟩
      · show after.socket.len + ((call.output after).length : ℤ) = call.maxsize
        have hlen := hwaiting.len
        rw [houtput, List.length_append, happ]
        push_cast
        omega
      · rw [htelnet] at hyes
        cases hyes
  · rw [← houtput] at hgives
    exact .inr ⟨by rw [happ]; exact hfinish (hfound hyes), hmisused, hgives⟩

end Steps

/-! ### Runs -/

/-- What holds in every state of a run whose segments are fitting. -/
def ReadRun.Holds (config : Config) (sockno : ℕ) (run : ReadRun) : Prop :=
  ∃ parts part,
    List.Forall₂ (fun entry part ↦ entry.1.Gives config part entry.2) run.finished parts ∧
    parts.flatten ++ part = run.stream ∧
      match run.current with
      | some call =>
        run.app.Waiting config sockno call part ∨ run.app.Over config call part
      | none => part = [] ∧ run.app.socket.state = .idle ∧ run.app.buffer.misused = false

section Runs

variable {run after : ReadRun} {event : ReadEvent}

/-- A call that has read nothing. -/
theorem ReadCall.reads_nil (call : ReadCall) : call.Reads config [] [] := by
  by_cases hplain : call.plain
  · exact .inl ⟨hplain, rfl⟩
  · exact .inr ⟨hplain, fun _ hmem ↦ absurd hmem List.not_mem_nil, rfl⟩

/-- One more call has returned. -/
theorem forall₂_gives_append {finished : List (ReadCall × List UInt8)} {parts : List (List UInt8)}
    {call : ReadCall} {part output : List UInt8}
    (hall : List.Forall₂ (fun entry part ↦ entry.1.Gives config part entry.2) finished parts)
    (hgives : call.Gives config part output) :
    List.Forall₂ (fun entry part ↦ entry.1.Gives config part entry.2) (finished ++ [(call, output)])
      (parts ++ [part]) :=
  List.rel_append hall (.cons hgives .nil)

/-- A call begins. -/
theorem ReadRun.Holds.begin (hholds : run.Holds config sockno) {call : ReadCall}
    {memory : List UInt8} {active : Bool}
    (htelnet : call.telnet = run.app.services.isTelnet config sockno)
    (hstep : run.begin config sockno call memory active = some after) :
    after.Holds config sockno := by
  obtain ⟨parts, part, hparts, hstream, hcurrent⟩ := hholds
  obtain ⟨hnone, hmemory, hcases⟩ := begin_eq_some hstep
  rw [hnone] at hcurrent
  obtain ⟨rfl, hidle, hmisused⟩ := hcurrent
  rcases hcases with rfl | ⟨hconfigured, rfl⟩
  · refine ⟨parts ++ [[]], [], forall₂_gives_append hparts (.inl call.reads_nil), ?_, ?_⟩
    · simpa using hstream
    · dsimp only
      rw [hnone]
      exact ⟨rfl, hidle, hmisused⟩
  · refine ⟨parts, [], hparts, hstream, .inl ?_⟩
    have houtput := call.output_requestedApp memory run.app
    refine ⟨.inl rfl, hconfigured, htelnet.symm, rfl, rfl, ?_, rfl, rfl, fun hraw ↦ ?_, ?_, ?_,
      fun _ ↦ rfl⟩
    · by_cases hlua : call.lua <;> simp [ReadCall.requestedApp, prepSocketState, hlua]
    · simpa [ReadCall.requestedApp, hraw] using hmemory hraw
    · rw [houtput]
      exact add_zero _
    · rw [houtput]
      exact call.reads_nil

/-- A segment comes that fits. -/
theorem AppState.Waiting.uip_segment {call : ReadCall} {part : List UInt8} {event : Event}
    (hwaiting : run.app.Waiting config sockno call part) (hcall : run.current = some call)
    (hconnected : ¬ event.connected) (hnewdata : event.newdata) (hne : event.data ≠ [])
    (hfitting : Fitting config sockno run (.uip event)) :
    let after := eluaUipAppcall config sockno event run.app
    after.Waiting config sockno call (part ++ event.data) ∨
      after.Over config call (part ++ event.data) := by
  intro after
  obtain ⟨hrecv, hfails, hle, hkind⟩ := hfitting hne
  have happ : after = _ := eluaUipAppcall_of_recv2 hwaiting.configured hconnected hfails hrecv
  rw [if_pos hnewdata, hwaiting.telnet] at happ
  rw [hwaiting.telnet] at hkind
  by_cases htelnet : call.telnet
  · rw [if_pos htelnet] at happ hkind
    rw [hwaiting.lua] at hkind
    rw [happ]
    exact .inr (hwaiting.uip_telnet htelnet hkind.1 hne hkind.2 hle)
  · rw [if_neg htelnet] at happ hkind
    rw [hwaiting.lua, hcall] at hkind
    rw [happ]
    refine hwaiting.uip_receive (Bool.not_eq_true _ ▸ htelnet) hle hkind.1 ?_
    exact hkind.2.imp_right (Or.imp_left fun hfresh ↦ hfresh call rfl)

/-- Every fitting step keeps it. -/
theorem ReadRun.Holds.step (hholds : run.Holds config sockno)
    (hfitting : Fitting config sockno run event)
    (hstep : readStep config sockno run event = some after) : after.Holds config sockno := by
  cases event with
  | call lua memory maxsize readto timed active => exact hholds.begin rfl hstep
  | uip event =>
    obtain ⟨parts, part, hparts, hstream, hcurrent⟩ := hholds
    obtain ⟨⟨hconnected, hnewdata, -⟩, rfl⟩ := readStep_uip hstep
    refine ⟨parts, part ++ event.data, hparts, by rw [← List.append_assoc, hstream], ?_⟩
    dsimp only
    by_cases hempty : event.data = []
    · have hnot : ¬ event.newdata := fun hyes ↦ hnewdata.mp hyes hempty
      rw [hempty, List.append_nil]
      cases hcall : run.current with
      | none =>
        rw [hcall] at hcurrent
        rw [eluaUipAppcall_of_idle hconnected hcurrent.2.1]
        exact hcurrent
      | some call =>
        rw [hcall] at hcurrent
        rcases hcurrent with hwaiting | hover
        · exact hwaiting.uip_nil hconnected hnot
        · rw [eluaUipAppcall_of_idle hconnected hover.state]
          exact .inr hover
    · have hrecv := (hfitting hempty).1
      cases hcall : run.current with
      | none =>
        rw [hcall] at hcurrent
        rw [hcurrent.2.1] at hrecv
        cases hrecv
      | some call =>
        rw [hcall] at hcurrent
        rcases hcurrent with hwaiting | hover
        · exact hwaiting.uip_segment hcall hconnected (hnewdata.mpr hempty) hempty hfitting
        · rw [hover.state] at hrecv
          cases hrecv
  | timeout =>
    obtain ⟨parts, part, hparts, hstream, hcurrent⟩ := hholds
    obtain ⟨hsome, rfl⟩ := readStep_timeout hstep
    refine ⟨parts, part, hparts, hstream, ?_⟩
    dsimp only
    cases hcall : run.current with
    | none => exact absurd hcall hsome
    | some call =>
      rw [hcall] at hcurrent
      right
      rcases hcurrent with hwaiting | hover
      · have hnot : run.app.socket.state ≠ .idle := by
          rcases hwaiting.state with hstate | hstate <;> simp [hstate]
        rw [recvTimedout, if_pos hnot]
        exact hwaiting.over rfl rfl rfl
      · rw [recvTimedout, if_neg (not_not.mpr hover.state)]
        exact hover
  | returns =>
    obtain ⟨parts, part, hparts, hstream, hcurrent⟩ := hholds
    obtain ⟨call, hcall, hidle, rfl⟩ := readStep_returns hstep
    rw [hcall] at hcurrent
    rcases hcurrent with hwaiting | hover
    · rcases hwaiting.state with hstate | hstate <;> rw [hstate] at hidle <;> cases hidle
    · exact ⟨parts ++ [part], [], forall₂_gives_append hparts hover.gives, by simpa using hstream,
        rfl, hidle, hover.misused⟩

end Runs

/-- In runs whose segments are fitting, the calls give out the stream in order. -/
theorem received_in_order {run : ReadRun}
    (hreach : (readSystem config sockno).ReachableUnder (Fitting config sockno) run) :
    run.InOrder config := by
  have hholds : run.Holds config sockno := by
    refine hreach.invariant (ReadRun.Holds config sockno) ?_ ?_
    · rintro start ⟨hidle, hmisused, hcurrent, hfinished, hstream⟩
      refine ⟨[], [], ?_, ?_, ?_⟩
      · rw [hfinished]
        exact .nil
      · rw [hstream]
        rfl
      · rw [hcurrent]
        exact ⟨rfl, hidle, hmisused⟩
    · exact fun state event after hbefore hpermitted hstep ↦ hbefore.step hpermitted hstep
  obtain ⟨parts, part, hparts, hstream, hcurrent⟩ := hholds
  unfold ReadRun.InOrder
  cases hcall : run.current with
  | none =>
    rw [hcall] at hcurrent
    exact ⟨hcurrent.2.2, parts, part, hparts, hstream, hcurrent.1⟩
  | some call =>
    rw [hcall] at hcurrent
    rcases hcurrent with hwaiting | hover
    · exact ⟨hwaiting.misused, parts, part, hparts, hstream, .inl hwaiting.reads⟩
    · exact ⟨hover.misused, parts, part, hparts, hstream, hover.gives⟩

/-- A board with an established connection on socket one. -/
def establishedConfig : Config := ⟨true, true, 1460, 4, 1460⟩

/-- The socket is idle and the connection stopped. -/
def establishedRun : ReadRun where
  app :=
    { services := ⟨true, none, [], none⟩
      conn := ⟨0, ⟨0, 0⟩, 1460, true, false, []⟩
      socket := ⟨.idle, 0, 0, 0, -1⟩
      buffer := ⟨false, [], false⟩ }
  current := none
  finished := []
  stream := []

/-- A call with raw memory of some bytes, a poll, and a segment of three bytes. -/
def recvThreeBytes (memory : List UInt8) : List ReadEvent :=
  [.call false memory memory.length (-1) false true, .uip { poll := true },
    .uip { newdata := true, data := [97, 98, 99] }]

/-- The memory has room for the segment. -/
theorem received_in_order_threeBytes :
    ∃ run : ReadRun, run.stream = [97, 98, 99] ∧ run.InOrder establishedConfig := by
  have hpermits : PermitsEvents (readStep establishedConfig 1) (Fitting establishedConfig 1)
      establishedRun (recvThreeBytes [0, 0, 0]) := by decide
  have hstart : (readSystem establishedConfig 1).ReachableUnder (Fitting establishedConfig 1)
      establishedRun := .start ⟨rfl, rfl, rfl, rfl, rfl⟩
  exact ⟨_, rfl, received_in_order
    (reachableUnder_of_permitsEvents (recvThreeBytes [0, 0, 0]) hstart hpermits rfl)⟩

/-- The memory is one byte short. The overflow is signalled in the field that tells the kinds of
buffers apart, so the memory is taken for a Lua buffer, and the last byte is lost. -/
theorem not_received_in_order_overflow :
    ¬ ∀ (config : Config) (sockno : ℕ) (run : ReadRun), (readSystem config sockno).Reachable run →
      run.InOrder config := by
  intro hall
  have hstart : (readSystem establishedConfig 1).Reachable establishedRun :=
    .start ⟨rfl, rfl, rfl, rfl, rfl⟩
  have hreach := reachableUnder_of_runEvents (fun _ _ _ hstep ↦ hstep) (recvThreeBytes [0, 0])
    hstart (fun _ _ _ ↦ trivial) rfl
  exact absurd (hall establishedConfig 1 _ hreach).1 (by decide)

end Elua.Uip
