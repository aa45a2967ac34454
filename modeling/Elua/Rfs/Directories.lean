import Elua.Rfs.FileCalls
import Mathlib.Data.List.TakeDrop

/-!
# Remote directories and local ones

A directory of the host is a stream of entries (`HostDirectory`). `ListsAll` says that one call of
`rfsc_readdir` after another returns what `os_readdir` gives, lists the files that are expected with
their sizes, and then reports the end. `answersAll_iff_listable` says exactly when the regular files
of a directory are listed: the server takes an entry for a file if its type has a bit in common with
that of regular files, cuts its name, looks for the file in the directory that it serves, and takes
the descriptor zero for a failure. `rfsc_closedir` returns the handle instead of the result
(`dirCalls_iff`).
-/

set_option autoImplicit false
set_option relaxedAutoImplicit false

namespace Elua.Rfs

open Foundation Rpc

/-! ### The host -/

/-- The entries of the open directory that are still to be read. Reading takes the first one, and
calls for files leave them alone. -/
structure HostDirectory {Host : Type} (posix : Posix Host) (d : UInt32)
    (stream : Host → List Dirent) : Prop where
  read : ∀ host, (posix.readdir host d).1 = (stream host).head? ∧
    stream (posix.readdir host d).2 = (stream host).tail
  opened : ∀ host pathname flags mode, stream (posix.open host pathname flags mode).2 = stream host
  sought : ∀ host fd offset whence, stream (posix.lseek host fd offset whence).2 = stream host
  closed : ∀ host fd, stream (posix.close host fd).2 = stream host

/-- The entries that are regular files, whatever their types say, with their sizes. -/
def regularFiles (regular : Dirent → Bool) (size : Dirent → UInt32) (entries : List Dirent) :
    List (List UInt8 × UInt32) :=
  (entries.filter regular).map fun ent ↦ (ent.dName.bytes, size ent)

/-! ### What must hold -/

section Meets

variable {Host : Type} (posix : Posix Host) (client : ClientConfig) (config : ServerConfig)
  (fuel : ℕ) (session : Session (Server Host))

/-- `rfsc_opendir` returns the result of `os_opendir`. -/
def OpendirMeets (name : CString) : Prop :=
  ∃ fullname after, serverFullname config (some name.bytes) = some fullname ∧
    rfscOpendir client (serverTransport posix config fuel) session name =
      some ((osOpendir posix session.remote.host fullname).1, after) ∧
    after.remote.host = (osOpendir posix session.remote.host fullname).2

/-- `rfsc_closedir` returns the result of `os_closedir`. -/
def ClosedirMeets (d : UInt32) : Prop :=
  ∃ after, rfscClosedir client (serverTransport posix config fuel) session d =
      some ((osClosedir posix session.remote.host d).1, after) ∧
    after.remote.host = (osClosedir posix session.remote.host d).2

/-- One call of `rfsc_readdir` after another returns the name that `os_readdir` gives, lists the
files with their sizes and then reports the end. -/
def ListsAll (d : UInt32) : ℕ → Session (Server Host) → List (List UInt8 × UInt32) → Prop
  | 0, _, _ => False
  | calls + 1, session, files => ∃ result after,
    rfscReaddir client (serverTransport posix config fuel) session d = some (result, after) ∧
      (osReaddir posix config d fuel session.remote.host).map (fun found ↦
        found.1.map CString.bytes) = some (result.map fun entry ↦ stringAt after.ram entry.1) ∧
      match files with
      | [] => result = none
      | (name, size) :: files => ∃ addr ftime, result = some (addr, size, ftime) ∧
        stringAt after.ram addr = name ∧ ListsAll d calls after files

/-! ### When it holds -/

/-- The entries that have a bit in common with the type of regular files stand for the files, in this
order. The name of each, which may be cut, is that of the file, and the full name in the directory
that is served fits. Opened there it gets a descriptor other than zero, on which the end is at the
true size. -/
def Listable (d : UInt32) : Host → List Dirent → List (List UInt8 × UInt32) → Prop
  | _, [], files => files = []
  | host, ent :: entries, files =>
    let host := (posix.readdir host d).2
    if ent.dType &&& config.dtReg = 0 then Listable d host entries files
    else ∃ name size rest fullname, files = (name, size) :: rest ∧
      ent.dName.bytes.take rfsMaxFnameSize = name ∧
      serverFullname config (some name) = some fullname ∧
        let opened := osOpen posix config host fullname rfsOpenFlags.rdonly.toInt32
        let sought := osLseek posix config opened.2 opened.1 0 rfsLseek.end
        opened.1 ≠ 0 ∧ sought.1.toUInt32 = size ∧
          Listable d (osClose posix sought.2 opened.1).2 entries rest

end Meets

/-! ### Handlers -/

section Handlers

variable {Host : Type} {posix : Posix Host} {client : ClientConfig} {config : ServerConfig}
  {fuel : ℕ} {ram : Ram} {host : Host}

/-- A request to open a directory is read. -/
theorem remotefsOpendirReadRequest_eq {name : CString} {p : Addr}
    (hrequest : ProperPacket [.o rfsOpOpendir, .p (some (stringBlock name)) (stringBlockLen name)])
    (hbytes : BytesAt ram p
      (packet [.o rfsOpOpendir, .p (some (stringBlock name)) (stringBlockLen name)])) :
    ∃ found, remotefsOpendirReadRequest ram p = (.ok, some found) ∧
      stringAt ram found = name.bytes := by
  obtain ⟨hne, hname⟩ := name_of_request hrequest hbytes
  have hread : eluarpcGenRead ram p [.o rfsOpOpendir, .p] = (.ok, _) :=
    genRead_of_packet hrequest hbytes rfl rfl
  refine ⟨_, ?_, hname⟩
  rw [remotefsOpendirReadRequest, hread]
  exact congrArg (EluarpcStatus.ok, ·) (if_neg hne)

theorem serverOpendir_eq {name : CString} {fullname : List UInt8}
    (hrequest : ProperPacket [.o rfsOpOpendir, .p (some (stringBlock name)) (stringBlockLen name)])
    (hbytes : BytesAt ram config.rfsBuffer
      (packet [.o rfsOpOpendir, .p (some (stringBlock name)) (stringBlockLen name)]))
    (hfullname : serverFullname config (some name.bytes) = some fullname) :
    serverOpendir posix config ⟨ram, host⟩ =
      some (.ok, ⟨eluarpcGenWrite ram config.rfsBuffer
        [.r rfsOpOpendir, .l (osOpendir posix host fullname).1], (osOpendir posix host fullname).2⟩) := by
  obtain ⟨found, hread, hname⟩ := remotefsOpendirReadRequest_eq hrequest hbytes
  have hfound : serverFullname config ((some found).map (stringAt ram)) = some fullname := by
    rw [Option.map_some, hname]
    exact hfullname
  rw [serverOpendir, hread]
  dsimp only
  rw [hfound]
  rfl

theorem serverClosedir_eq {d : UInt32} (hrequest : ProperPacket [.o rfsOpClosedir, .l d])
    (hbytes : BytesAt ram config.rfsBuffer (packet [.o rfsOpClosedir, .l d])) :
    serverClosedir posix config ⟨ram, host⟩ =
      some (.ok, ⟨eluarpcGenWrite ram config.rfsBuffer [.r rfsOpClosedir, .i d.toInt32],
        (osClosedir posix host d).2⟩) := by
  have hread : eluarpcGenRead ram config.rfsBuffer [.o rfsOpClosedir, .l] = (.ok, _) :=
    genRead_of_packet hrequest hbytes rfl rfl
  rw [serverClosedir, remotefsClosedirReadRequest, hread]
  rfl

/-- What the server finds for a request for the next file: the name it sends and the size. -/
def readdirAnswer {Host : Type} (posix : Posix Host) (config : ServerConfig) (fuel : ℕ) (d : UInt32)
    (host : Host) : Option (Option CString × UInt32 × Host) := do
  match ← osReaddir posix config d fuel host with
  | (none, host) => pure (none, 0, host)
  | (some name, host) => serverFileSize posix config host name

theorem serverReaddir_eq {d : UInt32} (hrequest : ProperPacket [.o rfsOpReaddir, .l d])
    (hbytes : BytesAt ram config.rfsBuffer (packet [.o rfsOpReaddir, .l d])) :
    serverReaddir posix config ⟨ram, host⟩ fuel =
      (readdirAnswer posix config fuel d host).map fun (sent, fsize, after) ↦
        (.ok, ⟨remotefsReaddirWriteResponse ram config.rfsBuffer sent fsize 0, after⟩) := by
  have hread : eluarpcGenRead ram config.rfsBuffer [.o rfsOpReaddir, .l] = (.ok, [.u32 d]) :=
    genRead_of_packet hrequest hbytes rfl rfl
  have hd : remotefsReaddirReadRequest ram config.rfsBuffer = (.ok, d) := by
    rw [remotefsReaddirReadRequest, hread]
    rfl
  simp only [serverReaddir, hd, readdirAnswer]
  rcases osReaddir posix config d fuel host with - | ⟨- | name, after⟩
  · rfl
  · rfl
  · simp only [Option.bind_eq_bind, Option.bind_some]
    rcases serverFileSize posix config after name with - | ⟨sent, fsize, last⟩ <;> rfl

end Handlers

/-! ### Calls -/

section Calls

variable {Host : Type} {posix : Posix Host} {client : ClientConfig} {config : ServerConfig}
  {fuel : ℕ} {session : Session (Server Host)}

/-- The response to a request for the next file. -/
def readdirResponse (sent : Option CString) (fsize : UInt32) : List WriteItem :=
  [.r rfsOpReaddir, .p (some ((sent.map stringBlock).getD [])) ((sent.map stringBlockLen).getD 0),
    .l fsize, .l 0]

/-- Without a name there is nothing to write behind the header. -/
theorem remotefsReaddirWriteResponse_eq (ram : Ram) (p : Addr) (sent : Option CString)
    (fsize : UInt32) :
    remotefsReaddirWriteResponse ram p sent fsize 0 =
      eluarpcGenWrite ram p (readdirResponse sent fsize) := by
  have hput : ∀ cursor, putBlock cursor none 0 = putBlock cursor (some []) 0 := fun _ ↦ rfl
  have hblock : ∀ cursor, eluarpcWriteItem cursor (.p none 0) =
      eluarpcWriteItem cursor (.p (some []) 0) := fun _ ↦ hput _
  rcases sent with - | name
  · rw [remotefsReaddirWriteResponse, readdirResponse, eluarpcGenWrite, eluarpcGenWrite,
      eluarpcWriteItems, eluarpcWriteItems]
    simp only [Option.map_none, Option.getD_none, List.foldl_cons, hblock]
  · rfl

theorem readdirResponse_proper {sent : Option CString} (fsize : UInt32)
    (hsent : ∀ name, sent = some name → name.strlen ≤ rfsMaxFnameSize) :
    ProperPacket (readdirResponse sent fsize) := by
  rcases sent with - | name
  · refine .of_length ?_ (show 33 ≤ rfsBufferSize by decide)
    simp only [readdirResponse, List.forall_mem_cons]
    exact ⟨rfsOp_lt _ (by decide), ⟨[], rfl, rfl⟩, trivial, trivial, List.forall_mem_nil _⟩
  · have hshort := hsent name rfl
    have hsize : rfsMaxFnameSize + 100 < rfsBufferSize := by decide
    refine .of_length ?_ ?_
    · simp only [readdirResponse, List.forall_mem_cons]
      exact ⟨rfsOp_lt _ (by decide), proper_string (by omega), trivial, trivial,
        List.forall_mem_nil _⟩
    · simp only [readdirResponse, length_encodeAll_cons, length_encode_p, Option.map_some,
        Option.getD_some, length_stringBlock]
      change 16 + (1 + (6 + (name.strlen + 1) + (5 + (5 + 0)))) ≤ rfsBufferSize
      omega

/-- The name that `os_readdir` gives is short. -/
theorem osReaddir_short {d : UInt32} {host after : Host} {name : CString}
    (hfound : osReaddir posix config d fuel host = some (some name, after)) :
    name.strlen ≤ rfsMaxFnameSize := by
  induction fuel generalizing host with
  | zero => cases hfound
  | succ fuel ih =>
    rw [osReaddir] at hfound
    split at hfound
    · cases hfound
    · split_ifs at hfound
      · obtain ⟨hname, -⟩ := Prod.mk.inj (Option.some.inj hfound)
        obtain rfl := Option.some.inj hname
        exact List.length_take_le _ _
      · exact ih hfound

/-- The name that is sent is the one that `os_readdir` gives. -/
theorem serverFileSize_name {host after : Host} {name sent : CString} {fsize : UInt32}
    (hsize : serverFileSize posix config host name = some (some sent, fsize, after)) :
    sent = name := by
  obtain ⟨fullname, -, hrest⟩ := Option.bind_eq_some_iff.mp hsize
  simp only at hrest
  split_ifs at hrest
  · exact (Option.some.inj (Prod.mk.inj (Option.some.inj hrest)).1).symm
  · cases hrest

theorem readdirAnswer_short {d : UInt32} {host after : Host} {sent : Option CString}
    {fsize : UInt32} (hanswer : readdirAnswer posix config fuel d host = some (sent, fsize, after)) :
    ∀ name, sent = some name → name.strlen ≤ rfsMaxFnameSize := by
  rintro name rfl
  obtain ⟨⟨found, last⟩, hfound, hrest⟩ := Option.bind_eq_some_iff.mp hanswer
  rcases found with - | found
  · cases hrest
  · obtain rfl := serverFileSize_name hrest
    exact osReaddir_short hfound

theorem readdirRequest_proper (d : UInt32) : ProperPacket [.o rfsOpReaddir, .l d] := by
  refine .of_length ?_ (show 23 ≤ rfsBufferSize by decide)
  simp only [List.forall_mem_cons]
  exact ⟨rfsOp_lt _ (by decide), trivial, List.forall_mem_nil _⟩

/-- What the client gets when it asks for the next file. -/
theorem rfscReaddir_eq {d : UInt32} {sent : Option CString} {fsize : UInt32} {after : Host}
    (hinput : session.input = [])
    (hanswer : readdirAnswer posix config fuel d session.remote.host = some (sent, fsize, after)) :
    ∃ ram last addr, rfscReaddir client (serverTransport posix config fuel) session d =
        some (sent.map fun _ ↦ (addr, fsize, 0), ⟨ram, [], ⟨last, after⟩⟩) ∧
      ∀ name, sent = some name → stringAt ram addr = name.bytes := by
  have hshort := readdirAnswer_short hanswer
  have hrequest := readdirRequest_proper d
  have hresponse := readdirResponse_proper fsize hshort
  obtain ⟨last, hturn⟩ := @serverTurn_packet Host posix config fuel session.remote after _ _ hrequest
    hresponse fun ram hbytes ↦ by
      refine ⟨ram, (serverExecuteRequest_eq hbytes).trans ?_⟩
      change serverReaddir posix config ⟨ram, session.remote.host⟩ fuel = _
      rw [serverReaddir_eq hrequest hbytes, hanswer, ← remotefsReaddirWriteResponse_eq]
      rfl
  have hread : ∀ ram, BytesAt ram client.rfscBuffer (packet (readdirResponse sent fsize)) →
      remotefsReaddirReadResponse ram client.rfscBuffer = (.ok,
        if (sent.map stringBlockLen).getD 0 = 0 then none
          else some (((client.rfscBuffer.plus 10).plus 1).plus eluarpcPtrHeaderSize), fsize, 0) := by
    intro ram hbytes
    have hvalues : eluarpcGenRead ram client.rfscBuffer [.r rfsOpReaddir, .p, .l, .l] = (.ok, _) :=
      genRead_of_packet hresponse hbytes rfl rfl
    rw [remotefsReaddirReadResponse, hvalues]
    rfl
  obtain ⟨ram, hstands, hcalled⟩ := @rfsch_packet _ client (serverTransport posix config fuel)
    session _ _ _ (fun ram p ↦ remotefsReaddirWriteRequest ram p d)
    (fun ram p ↦ ((remotefsReaddirReadResponse ram p).1,
      (remotefsReaddirReadResponse ram p).2.1.map fun addr ↦
        (addr, (remotefsReaddirReadResponse ram p).2.2))) none
    ((if (sent.map stringBlockLen).getD 0 = 0 then none
      else some (((client.rfscBuffer.plus 10).plus 1).plus eluarpcPtrHeaderSize)).map
        fun addr ↦ (addr, fsize, 0)) _ hrequest hresponse (fun _ _ ↦ rfl) hinput hturn
    fun ram hbytes ↦ by simp only [hread ram hbytes]
  obtain ⟨-, -, hitems, -⟩ := bytesAt_packet hstands
  obtain ⟨-, hitems⟩ := bytesAt_append.mp hitems
  obtain ⟨hitem, -⟩ := bytesAt_append.mp hitems
  have hblock := bytesAt_block hitem
  have hproper := hresponse.proper (.p (some ((sent.map stringBlock).getD []))
    ((sent.map stringBlockLen).getD 0)) (List.mem_cons_of_mem _ List.mem_cons_self)
  obtain ⟨block, hsome, hlength⟩ := hproper
  obtain rfl := Option.some.inj hsome
  refine ⟨ram, last, ((client.rfscBuffer.plus 10).plus 1).plus eluarpcPtrHeaderSize, ?_, ?_⟩
  · refine hcalled.trans ?_
    rcases sent with - | name
    · rfl
    · have hne : ¬ ((some name).map stringBlockLen).getD 0 = 0 := stringBlockLen_ne hlength
      rw [if_neg hne]
      rfl
  · rintro name rfl
    exact stringAt_of_length hblock hlength

/-- If the server has no defined behaviour, neither has the call. -/
theorem rfscReaddir_none {d : UInt32} (hinput : session.input = [])
    (hanswer : readdirAnswer posix config fuel d session.remote.host = none) :
    rfscReaddir client (serverTransport posix config fuel) session d = none := by
  have hrequest := readdirRequest_proper d
  have hsent := rfschSend_packet hrequest (hrequest.written session.ram client.rfscBuffer)
  have hreceived := rfschReceive_packet hrequest session.remote.ram config.rfsBuffer []
  rw [List.append_nil] at hreceived
  have hstands : BytesAt (Cursor.putAll ⟨session.remote.ram, config.rfsBuffer⟩
      (packet [.o rfsOpReaddir, .l d])).ram config.rfsBuffer (packet [.o rfsOpReaddir, .l d]) :=
    bytesAt_putAll (Nat.le_of_lt hrequest.length_lt)
  have hexecuted : serverExecuteRequest posix config ⟨(Cursor.putAll ⟨session.remote.ram,
      config.rfsBuffer⟩ (packet [.o rfsOpReaddir, .l d])).ram, session.remote.host⟩ fuel = none := by
    refine (serverExecuteRequest_eq hstands).trans ?_
    change serverReaddir posix config ⟨_, session.remote.host⟩ fuel = _
    rw [serverReaddir_eq hrequest hstands, hanswer]
    rfl
  have hwrite : ∀ ram p, remotefsReaddirWriteRequest ram p d =
      eluarpcGenWrite ram p [.o rfsOpReaddir, .l d] := fun _ _ ↦ rfl
  simp only [rfscReaddir, rfsch, rfschSendRequestReadResponse, hwrite, hinput, rfschEmpty, hsent,
    serverTransport, serverTurn, serReadRequestPacket, hreceived, hexecuted, Option.bind_eq_bind,
    Option.bind_some, Option.bind_none]

end Calls

/-! ### Listings -/

section Listings

variable {Host : Type} {posix : Posix Host} {client : ClientConfig} {config : ServerConfig}
  {fuel : ℕ} {d : UInt32} {stream : Host → List Dirent}

/-- One answer of the server after another gives the name that `os_readdir` gives, lists the files
with their sizes and then reports the end. -/
def AnswersAll (posix : Posix Host) (config : ServerConfig) (fuel : ℕ) (d : UInt32) :
    ℕ → Host → List (List UInt8 × UInt32) → Prop
  | 0, _, _ => False
  | calls + 1, host, files => ∃ sent fsize after,
    readdirAnswer posix config fuel d host = some (sent, fsize, after) ∧
      (osReaddir posix config d fuel host).map (fun found ↦ found.1.map CString.bytes) =
        some (sent.map CString.bytes) ∧
      match files with
      | [] => sent = none
      | (name, size) :: files => ∃ string, sent = some string ∧ string.bytes = name ∧ fsize = size ∧
        AnswersAll posix config fuel d calls after files

theorem map_stringAt {ram : Ram} {addr : Addr} {sent : Option CString} {fsize : UInt32}
    (hstring : ∀ name, sent = some name → stringAt ram addr = name.bytes) :
    ((sent.map fun _ ↦ (addr, fsize, (0 : UInt32))).map fun entry ↦ stringAt ram entry.1) =
      sent.map CString.bytes := by
  rcases sent with - | name
  · rfl
  · exact congrArg some (hstring name rfl)

/-- The client gets what the server answers. -/
theorem listsAll_iff_answersAll {calls : ℕ} {session : Session (Server Host)}
    {files : List (List UInt8 × UInt32)} (hinput : session.input = []) :
    ListsAll posix client config fuel d calls session files ↔
      AnswersAll posix config fuel d calls session.remote.host files := by
  induction calls generalizing session files with
  | zero => exact Iff.rfl
  | succ calls ih =>
    rw [ListsAll, AnswersAll]
    constructor
    · rintro ⟨result, after, hcalled, hnames, hrest⟩
      rcases hanswer : readdirAnswer posix config fuel d session.remote.host with
        - | ⟨sent, fsize, host⟩
      · rw [rfscReaddir_none hinput hanswer] at hcalled
        cases hcalled
      · obtain ⟨ram, last, addr, hexpected, hstring⟩ := @rfscReaddir_eq _ _ client _ _ _ _ _ _ _
          hinput hanswer
        rw [hexpected] at hcalled
        obtain ⟨rfl, rfl⟩ := Prod.mk.inj (Option.some.inj hcalled)
        refine ⟨sent, fsize, host, rfl, hnames.trans (congrArg some (map_stringAt hstring)), ?_⟩
        rcases files with - | ⟨⟨name, size⟩, files⟩
        · exact Option.map_eq_none_iff.mp hrest
        · obtain ⟨other, ftime, hresult, hname, hlists⟩ := hrest
          obtain ⟨string, rfl, hentry⟩ := Option.map_eq_some_iff.mp hresult
          obtain ⟨rfl, hsize⟩ := Prod.mk.inj hentry
          obtain ⟨rfl, -⟩ := Prod.mk.inj hsize
          exact ⟨string, rfl, (hstring string rfl).symm.trans hname, rfl, (ih rfl).mp hlists⟩
    · rintro ⟨sent, fsize, host, hanswer, hnames, hrest⟩
      obtain ⟨ram, last, addr, hexpected, hstring⟩ := @rfscReaddir_eq _ _ client _ _ _ _ _ _ _
        hinput hanswer
      refine ⟨_, _, hexpected, hnames.trans (congrArg some (map_stringAt hstring).symm), ?_⟩
      rcases files with - | ⟨⟨name, size⟩, files⟩
      · exact Option.map_eq_none_iff.mpr hrest
      · obtain ⟨string, rfl, hname, rfl, hanswers⟩ := hrest
        refine ⟨addr, 0, rfl, (hstring string rfl).trans hname, ?_⟩
        exact (@ih ⟨ram, [], ⟨last, host⟩⟩ files rfl).mpr hanswers

/-- An entry that `os_readdir` skips. -/
theorem osReaddir_skip (hdir : HostDirectory posix d stream) {host : Host} {ent : Dirent}
    {entries : List Dirent} (hstream : stream host = ent :: entries)
    (hskipped : ent.dType &&& config.dtReg = 0) (fuel : ℕ) :
    osReaddir posix config d (fuel + 1) host =
      osReaddir posix config d fuel (posix.readdir host d).2 := by
  have hfirst := (hdir.read host).1
  rw [hstream, List.head?_cons] at hfirst
  have hpair : posix.readdir host d = (some ent, (posix.readdir host d).2) := Prod.ext hfirst rfl
  rw [osReaddir, hpair]
  simp only [hskipped, ne_eq, not_true_eq_false, if_false]

/-- An entry that `os_readdir` takes, with its name cut. -/
theorem osReaddir_take (hdir : HostDirectory posix d stream) {host : Host} {ent : Dirent}
    {entries : List Dirent} (hstream : stream host = ent :: entries)
    (htaken : ent.dType &&& config.dtReg ≠ 0) (hfuel : 0 < fuel) :
    ∃ name, name.bytes = ent.dName.bytes.take rfsMaxFnameSize ∧
      osReaddir posix config d fuel host = some (some name, (posix.readdir host d).2) := by
  obtain ⟨fuel, rfl⟩ := Nat.exists_eq_succ_of_ne_zero (Nat.ne_of_gt hfuel)
  have hfirst := (hdir.read host).1
  rw [hstream, List.head?_cons] at hfirst
  have hpair : posix.readdir host d = (some ent, (posix.readdir host d).2) := Prod.ext hfirst rfl
  refine ⟨⟨ent.dName.bytes.take rfsMaxFnameSize, fun hzero ↦
    ent.dName.zero_notMem (List.mem_of_mem_take hzero)⟩, rfl, ?_⟩
  rw [osReaddir, hpair]
  simp only [htaken, ne_eq, not_false_eq_true, if_true]

/-- At the end `os_readdir` gives no name. -/
theorem osReaddir_end (hdir : HostDirectory posix d stream) {host : Host}
    (hstream : stream host = []) (hfuel : 0 < fuel) :
    osReaddir posix config d fuel host = some (none, (posix.readdir host d).2) := by
  obtain ⟨fuel, rfl⟩ := Nat.exists_eq_succ_of_ne_zero (Nat.ne_of_gt hfuel)
  have hfirst := (hdir.read host).1
  rw [hstream, List.head?_nil] at hfirst
  have hpair : posix.readdir host d = (none, (posix.readdir host d).2) := Prod.ext hfirst rfl
  rw [osReaddir, hpair]

theorem stream_readdir (hdir : HostDirectory posix d stream) {host : Host} {ent : Dirent}
    {entries : List Dirent} (hstream : stream host = ent :: entries) :
    stream (posix.readdir host d).2 = entries := by
  rw [(hdir.read host).2, hstream, List.tail_cons]

/-- More fuel than entries does not matter. -/
theorem osReaddir_fuel (hdir : HostDirectory posix d stream) {host : Host} {entries : List Dirent}
    (hstream : stream host = entries) {first second : ℕ} (hfirst : entries.length < first)
    (hsecond : entries.length < second) :
    osReaddir posix config d first host = osReaddir posix config d second host := by
  induction entries generalizing host first second with
  | nil => rw [osReaddir_end hdir hstream hfirst, osReaddir_end hdir hstream hsecond]
  | cons ent entries ih =>
    obtain ⟨first, rfl⟩ := Nat.exists_eq_succ_of_ne_zero (Nat.ne_of_gt (Nat.zero_lt_of_lt hfirst))
    obtain ⟨second, rfl⟩ := Nat.exists_eq_succ_of_ne_zero (Nat.ne_of_gt (Nat.zero_lt_of_lt hsecond))
    by_cases htaken : ent.dType &&& config.dtReg = 0
    · rw [osReaddir_skip hdir hstream htaken, osReaddir_skip hdir hstream htaken]
      exact ih (stream_readdir hdir hstream) (Nat.lt_of_succ_lt_succ hfirst)
        (Nat.lt_of_succ_lt_succ hsecond)
    · have hpair : posix.readdir host d = (some ent, (posix.readdir host d).2) := by
        refine Prod.ext ?_ rfl
        rw [(hdir.read host).1, hstream, List.head?_cons]
      rw [osReaddir, osReaddir, hpair]
      simp only [htaken, ne_eq, not_false_eq_true, if_true]

/-- An entry that is skipped makes no difference to the answers. -/
theorem answersAll_skip (hdir : HostDirectory posix d stream) {host : Host} {ent : Dirent}
    {entries : List Dirent} (hstream : stream host = ent :: entries)
    (hskipped : ent.dType &&& config.dtReg = 0) (hfuel : entries.length + 1 < fuel) (calls : ℕ)
    (files : List (List UInt8 × UInt32)) :
    AnswersAll posix config fuel d calls host files ↔
      AnswersAll posix config fuel d calls (posix.readdir host d).2 files := by
  have hsame : osReaddir posix config d fuel host =
      osReaddir posix config d fuel (posix.readdir host d).2 := by
    obtain ⟨fuel, rfl⟩ := Nat.exists_eq_succ_of_ne_zero (Nat.ne_of_gt (Nat.zero_lt_of_lt hfuel))
    rw [osReaddir_skip hdir hstream hskipped]
    exact osReaddir_fuel hdir (stream_readdir hdir hstream) (Nat.lt_of_succ_lt_succ hfuel)
      (Nat.lt_of_succ_lt hfuel)
  cases calls with
  | zero => exact Iff.rfl
  | succ calls => rw [AnswersAll, AnswersAll, readdirAnswer, readdirAnswer, hsame]

/-- Seeking leaves the entries alone. -/
theorem stream_osLseek (hdir : HostDirectory posix d stream) (host : Host)
    (fd offset whence : Int32) :
    stream (osLseek posix config host fd offset whence).2 = stream host := by
  unfold osLseek
  split_ifs
  · exact hdir.sought _ _ _ _
  · exact hdir.sought _ _ _ _
  · exact hdir.sought _ _ _ _
  · rfl

/-- What the server finds for an entry that `os_readdir` takes. -/
theorem readdirAnswer_take (hdir : HostDirectory posix d stream) {host : Host} {ent : Dirent}
    {entries : List Dirent} (hstream : stream host = ent :: entries)
    (htaken : ent.dType &&& config.dtReg ≠ 0) (hfuel : 0 < fuel) :
    ∃ name, name.bytes = ent.dName.bytes.take rfsMaxFnameSize ∧
      (osReaddir posix config d fuel host).map (fun found ↦ found.1.map CString.bytes) =
        some (some name.bytes) ∧
      readdirAnswer posix config fuel d host =
        serverFileSize posix config (posix.readdir host d).2 name := by
  obtain ⟨name, hname, hfound⟩ := @osReaddir_take _ _ config fuel _ _ hdir _ _ _ hstream htaken hfuel
  refine ⟨name, hname, ?_, ?_⟩
  · rw [hfound]
    rfl
  · rw [readdirAnswer, hfound]
    rfl

/-- The server finds the size of a file that it can open with a descriptor other than zero. -/
theorem serverFileSize_eq_some {host after : Host} {name sent : CString} {fsize : UInt32} :
    serverFileSize posix config host name = some (some sent, fsize, after) ↔
      sent = name ∧ ∃ fullname, serverFullname config (some name.bytes) = some fullname ∧
        let opened := osOpen posix config host fullname rfsOpenFlags.rdonly.toInt32
        let sought := osLseek posix config opened.2 opened.1 0 rfsLseek.end
        opened.1 ≠ 0 ∧ sought.1.toUInt32 = fsize ∧ (osClose posix sought.2 opened.1).2 = after := by
  constructor
  · intro hsize
    refine ⟨serverFileSize_name hsize, ?_⟩
    obtain ⟨fullname, hfullname, hrest⟩ := Option.bind_eq_some_iff.mp hsize
    refine ⟨fullname, hfullname, ?_⟩
    simp only at hrest
    split_ifs at hrest with hopened
    · obtain ⟨-, hrest⟩ := Prod.mk.inj (Option.some.inj hrest)
      obtain ⟨hfsize, hafter⟩ := Prod.mk.inj hrest
      exact ⟨hopened, hfsize, hafter⟩
    · cases hrest
  · rintro ⟨rfl, fullname, hfullname, hopened, rfl, rfl⟩
    rw [serverFileSize, hfullname]
    simp only [Option.bind_eq_bind, Option.bind_some]
    rw [if_pos hopened]
    rfl

/-- A taken entry is listed with the cut name and a size exactly when this file can be opened. -/
theorem answersAll_take (hdir : HostDirectory posix d stream) {host : Host} {ent : Dirent}
    {entries : List Dirent} (hstream : stream host = ent :: entries)
    (htaken : ent.dType &&& config.dtReg ≠ 0) (hfuel : 0 < fuel) (calls : ℕ) (listed : List UInt8)
    (fsize : UInt32) (files : List (List UInt8 × UInt32)) :
    AnswersAll posix config fuel d (calls + 1) host ((listed, fsize) :: files) ↔
      ∃ fullname, ent.dName.bytes.take rfsMaxFnameSize = listed ∧
        serverFullname config (some listed) = some fullname ∧
        let opened := osOpen posix config (posix.readdir host d).2 fullname
          rfsOpenFlags.rdonly.toInt32
        let sought := osLseek posix config opened.2 opened.1 0 rfsLseek.end
        opened.1 ≠ 0 ∧ sought.1.toUInt32 = fsize ∧
          AnswersAll posix config fuel d calls (osClose posix sought.2 opened.1).2 files := by
  obtain ⟨name, hname, hfound, hlookup⟩ :=
    @readdirAnswer_take _ _ config fuel _ _ hdir _ _ _ hstream htaken hfuel
  constructor
  · rintro ⟨sent, _, after, hanswer, -, string, rfl, hbytes, rfl, hanswers⟩
    rw [hlookup] at hanswer
    obtain ⟨rfl, fullname, hfullname, hopened, hfsize, rfl⟩ := serverFileSize_eq_some.mp hanswer
    rw [hbytes] at hfullname
    exact ⟨fullname, hname.symm.trans hbytes, hfullname, hopened, hfsize, hanswers⟩
  · rintro ⟨fullname, hlisted, hfullname, hopened, hfsize, hanswers⟩
    have hbytes := hname.trans hlisted
    rw [← hbytes] at hfullname
    exact ⟨some name, fsize, _, hlookup.trans (serverFileSize_eq_some.mpr
      ⟨rfl, fullname, hfullname, hopened, hfsize, rfl⟩), hfound, name, rfl, hbytes, rfl, hanswers⟩

/-- Without files, the first answer is the end. -/
theorem osReaddir_of_answersAll_nil {host : Host} {calls : ℕ}
    (hanswers : AnswersAll posix config fuel d calls host []) :
    (osReaddir posix config d fuel host).map (fun found ↦ found.1.map CString.bytes) =
      some none := by
  rcases calls with - | calls
  · exact hanswers.elim
  · obtain ⟨sent, fsize, after, -, hnames, hrest⟩ := hanswers
    obtain rfl : sent = none := hrest
    exact hnames

/-- The server lists the files exactly when they can be listed. -/
theorem answersAll_iff_listable (hdir : HostDirectory posix d stream) {host : Host}
    {entries : List Dirent} (hstream : stream host = entries) (hfuel : entries.length < fuel)
    {files : List (List UInt8 × UInt32)} :
    (∃ calls, AnswersAll posix config fuel d calls host files) ↔
      Listable posix config d host entries files := by
  induction entries generalizing host files with
  | nil =>
    constructor
    · rintro ⟨- | calls, hanswers⟩
      · exact hanswers.elim
      · obtain ⟨sent, fsize, after, -, hnames, hrest⟩ := hanswers
        rw [osReaddir_end hdir hstream hfuel] at hnames
        have hsent := Option.map_eq_none_iff.mp (Option.some.inj hnames).symm
        rcases files with - | ⟨⟨name, size⟩, files⟩
        · rfl
        · obtain ⟨string, hstring, -⟩ := hrest
          rw [hsent] at hstring
          cases hstring
    · rintro rfl
      refine ⟨1, none, 0, (posix.readdir host d).2, ?_, ?_, rfl⟩
      · rw [readdirAnswer, osReaddir_end hdir hstream hfuel]
        rfl
      · rw [osReaddir_end hdir hstream hfuel]
        rfl
  | cons ent entries ih =>
    have htail := stream_readdir hdir hstream
    have hfuel' := Nat.lt_of_succ_lt hfuel
    have hpositive := Nat.zero_lt_of_lt hfuel
    rw [Listable]
    by_cases htaken : ent.dType &&& config.dtReg = 0
    · rw [if_pos htaken, ← ih htail hfuel']
      exact exists_congr fun calls ↦ answersAll_skip hdir hstream htaken hfuel calls _
    rw [if_neg htaken]
    have hafter : ∀ fullname,
        let opened := osOpen posix config (posix.readdir host d).2 fullname
          rfsOpenFlags.rdonly.toInt32
        let sought := osLseek posix config opened.2 opened.1 0 rfsLseek.end
        stream (osClose posix sought.2 opened.1).2 = entries := fun fullname ↦
      (hdir.closed _ _).trans ((stream_osLseek hdir _ _ _ _).trans
        ((hdir.opened _ _ _ _).trans htail))
    constructor
    · rintro ⟨calls, hanswers⟩
      rcases files with - | ⟨⟨name, size⟩, files⟩
      · obtain ⟨found, -, hfound, -⟩ :=
          @readdirAnswer_take _ _ config fuel _ _ hdir _ _ _ hstream htaken hpositive
        cases Option.some.inj (hfound.symm.trans (osReaddir_of_answersAll_nil hanswers))
      · rcases calls with - | calls
        · exact hanswers.elim
        obtain ⟨fullname, hlisted, hfullname, hopened, hfsize, hanswers⟩ :=
          (answersAll_take hdir hstream htaken hpositive calls _ _ _).mp hanswers
        exact ⟨name, size, files, fullname, rfl, hlisted, hfullname, hopened, hfsize,
          (ih (hafter fullname) hfuel').mp ⟨calls, hanswers⟩⟩
    · rintro ⟨name, size, rest, fullname, rfl, hlisted, hfullname, hopened, hfsize, hlistable⟩
      obtain ⟨calls, hanswers⟩ := (ih (hafter fullname) hfuel').mpr hlistable
      exact ⟨calls + 1, (answersAll_take hdir hstream htaken hpositive calls _ _ _).mpr
        ⟨fullname, hlisted, hfullname, hopened, hfsize, hanswers⟩⟩

end Listings

/-! ### The three calls -/

section DirCalls

variable {Host : Type} {posix : Posix Host} {client : ClientConfig} {config : ServerConfig}
  {fuel : ℕ} {session : Session (Server Host)}

/-- A name whose full name fits is short. -/
theorem strlen_lt_of_fullname {name : CString} {fullname : List UInt8}
    (hfullname : serverFullname config (some name.bytes) = some fullname) :
    name.strlen < platformMaxFnameLen := by
  have hmax : 0 < platformMaxFnameLen := by decide
  simp only [serverFullname] at hfullname
  split_ifs at hfullname with hempty hbase hslash hfits hfits
  · rw [CString.strlen, hempty]
    exact hmax
  all_goals
    have hpos := List.length_pos_of_ne_nil hbase
    simp only [List.length_append, List.length_take, List.length_singleton] at hfits hpos
    rw [CString.strlen]
    omega

/-- The client gets the handle that the host gives if the full name fits. -/
theorem rfscOpendir_eq {name : CString} {fullname : List UInt8} (hinput : session.input = [])
    (hfullname : serverFullname config (some name.bytes) = some fullname) :
    ∃ after, rfscOpendir client (serverTransport posix config fuel) session name =
        some ((osOpendir posix session.remote.host fullname).1, after) ∧
      after.remote.host = (osOpendir posix session.remote.host fullname).2 := by
  have hshort := strlen_lt_of_fullname hfullname
  have hsize : platformMaxFnameLen + 100 < rfsBufferSize := by decide
  have hrequest : ProperPacket
      [.o rfsOpOpendir, .p (some (stringBlock name)) (stringBlockLen name)] := by
    refine .of_length ?_ ?_
    · simp only [List.forall_mem_cons]
      exact ⟨rfsOp_lt _ (by decide), proper_string (by omega), List.forall_mem_nil _⟩
    · simp only [length_encodeAll_cons, length_encode_p, length_stringBlock]
      change 16 + (2 + (6 + (name.strlen + 1) + 0)) ≤ rfsBufferSize
      omega
  have hresponse : ProperPacket
      [.r rfsOpOpendir, .l (osOpendir posix session.remote.host fullname).1] := by
    refine .of_length ?_ (show 22 ≤ rfsBufferSize by decide)
    simp only [List.forall_mem_cons]
    exact ⟨rfsOp_lt _ (by decide), trivial, List.forall_mem_nil _⟩
  obtain ⟨last, hturn⟩ := @serverTurn_packet Host posix config fuel session.remote _ _ _ hrequest
    hresponse fun ram hbytes ↦ ⟨ram, (serverExecuteRequest_eq hbytes).trans
      (serverOpendir_eq hrequest hbytes hfullname)⟩
  obtain ⟨ram, -, hcalled⟩ := @rfsch_packet _ client (serverTransport posix config fuel) session _ _ _
    (fun ram p ↦ remotefsOpendirWriteRequest ram p name) remotefsOpendirReadResponse 0
    (osOpendir posix session.remote.host fullname).1 _ hrequest hresponse (fun _ _ ↦ rfl) hinput hturn
    fun ram hbytes ↦ by
      have hvalues : eluarpcGenRead ram client.rfscBuffer [.r rfsOpOpendir, .l] = (.ok, _) :=
        genRead_of_packet hresponse hbytes rfl rfl
      rw [remotefsOpendirReadResponse, hvalues]
      rfl
  exact ⟨_, hcalled, rfl⟩

/-- The client gets the handle back when it closes a directory. -/
theorem rfscClosedir_eq (hinput : session.input = []) (d : UInt32) :
    ∃ after, rfscClosedir client (serverTransport posix config fuel) session d =
        some (d.toInt32, after) ∧
      after.remote.host = (osClosedir posix session.remote.host d).2 := by
  have hrequest : ProperPacket [.o rfsOpClosedir, .l d] := by
    refine .of_length ?_ (show 23 ≤ rfsBufferSize by decide)
    simp only [List.forall_mem_cons]
    exact ⟨rfsOp_lt _ (by decide), trivial, List.forall_mem_nil _⟩
  have hresponse : ProperPacket [.r rfsOpClosedir, .i d.toInt32] := by
    refine .of_length ?_ (show 22 ≤ rfsBufferSize by decide)
    simp only [List.forall_mem_cons]
    exact ⟨rfsOp_lt _ (by decide), trivial, List.forall_mem_nil _⟩
  obtain ⟨last, hturn⟩ := @serverTurn_packet Host posix config fuel session.remote _ _ _ hrequest
    hresponse fun ram hbytes ↦ ⟨ram, (serverExecuteRequest_eq hbytes).trans
      (serverClosedir_eq hrequest hbytes)⟩
  obtain ⟨ram, -, hcalled⟩ := @rfsch_packet _ client (serverTransport posix config fuel) session _ _ _
    (fun ram p ↦ remotefsClosedirWriteRequest ram p d) remotefsClosedirReadResponse (-1) d.toInt32 _
    hrequest hresponse (fun _ _ ↦ rfl) hinput hturn
    fun ram hbytes ↦ by
      have hvalues : eluarpcGenRead ram client.rfscBuffer [.r rfsOpClosedir, .i] = (.ok, _) :=
        genRead_of_packet hresponse hbytes rfl rfl
      rw [remotefsClosedirReadResponse, hvalues]
      rfl
  exact ⟨_, hcalled, rfl⟩

/-- The directory calls give the results of the server's calls of the operating system, and list the
regular files: opening does if the full name fits, closing if the result is the handle, and reading
if the files can be listed. -/
theorem dirCalls_iff (posix : Posix Host) (client : ClientConfig) (config : ServerConfig) (fuel : ℕ)
    (session : Session (Server Host)) (name : CString) (d : UInt32) (stream : Host → List Dirent)
    (regular : Dirent → Bool) (size : Dirent → UInt32) (hinput : session.input = []) (hdir : HostDirectory posix d stream)
    (hfuel : (stream session.remote.host).length < fuel) :
    (OpendirMeets posix client config fuel session name ↔
      (serverFullname config (some name.bytes)).isSome) ∧
    (ClosedirMeets posix client config fuel session d ↔
      (osClosedir posix session.remote.host d).1 = d.toInt32) ∧
    ((∃ calls, ListsAll posix client config fuel d calls session
        (regularFiles regular size (stream session.remote.host))) ↔
      Listable posix config d session.remote.host (stream session.remote.host)
        (regularFiles regular size (stream session.remote.host))) := by
  refine ⟨⟨?_, ?_⟩, ⟨?_, ?_⟩, ?_⟩
  · rintro ⟨fullname, -, hfullname, -⟩
    exact Option.isSome_iff_exists.mpr ⟨fullname, hfullname⟩
  · intro hsome
    obtain ⟨fullname, hfullname⟩ := Option.isSome_iff_exists.mp hsome
    obtain ⟨after, hcalled⟩ := @rfscOpendir_eq _ posix client _ fuel _ _ _ hinput hfullname
    exact ⟨fullname, after, hfullname, hcalled⟩
  · rintro ⟨after, hcalled, -⟩
    obtain ⟨last, hexpected, -⟩ := @rfscClosedir_eq _ posix client config fuel _ hinput d
    rw [hexpected] at hcalled
    exact (Prod.mk.inj (Option.some.inj hcalled)).1.symm
  · intro hresult
    rw [ClosedirMeets, hresult]
    exact rfscClosedir_eq hinput d
  · rw [← answersAll_iff_listable hdir rfl hfuel]
    exact exists_congr fun calls ↦ listsAll_iff_answersAll hinput

/-- The only file of a directory. -/
def oneFile : Dirent where
  dName := ⟨[0x61], fun hmem ↦ absurd (List.eq_of_mem_singleton hmem) (by decide)⟩
  dType := 8

/-- A host with one file of three bytes in the directory with the handle 5. Its state says if the
file has been read. -/
def oneFileHost (closed : Int32) : Posix Bool where
  «open» := fun host _ _ _ ↦ (3, host)
  write := fun host _ _ ↦ (-1, host)
  read := fun host _ _ ↦ (none, host)
  close := fun host _ ↦ (0, host)
  lseek := fun host _ _ _ ↦ (3, host)
  opendir := fun host _ ↦ (5, host)
  readdir := fun host _ ↦ (if host then none else some oneFile, true)
  closedir := fun host _ ↦ (closed, host)
  read_le := fun _ _ _ bytes hbytes ↦ absurd hbytes.symm (Option.some_ne_none bytes)

/-- The files that are still to be read. -/
def oneFileStream (host : Bool) : List Dirent := if host then [] else [oneFile]

theorem oneFileHost_directory (closed : Int32) :
    HostDirectory (oneFileHost closed) 5 oneFileStream where
  read := fun host ↦ by cases host <;> exact ⟨rfl, rfl⟩
  opened := fun _ _ _ _ ↦ rfl
  sought := fun _ _ _ _ ↦ rfl
  closed := fun _ _ ↦ rfl

/-- A server that serves the root directory. -/
def rootServer : ServerConfig := ⟨0x1000, [0x2F], rfsOpenFlags, rfsLseek, 0, 8, dtReg_linux_ne⟩

/-- The file is listed if its directory is the one that is served, and the handle comes back from
closing if that is the result. -/
theorem dirCalls_oneFile :
    OpendirMeets (oneFileHost 5) ⟨0x1000, rfsOpenFlags, rfsLseek⟩ rootServer 2
        ⟨fun _ ↦ 0, [], ⟨fun _ ↦ 0, false⟩⟩ ⟨[], by decide⟩ ∧
      ClosedirMeets (oneFileHost 5) ⟨0x1000, rfsOpenFlags, rfsLseek⟩ rootServer 2
        ⟨fun _ ↦ 0, [], ⟨fun _ ↦ 0, false⟩⟩ 5 ∧
      ∃ calls, ListsAll (oneFileHost 5) ⟨0x1000, rfsOpenFlags, rfsLseek⟩ rootServer 2 5 calls
        ⟨fun _ ↦ 0, [], ⟨fun _ ↦ 0, false⟩⟩ [([0x61], 3)] := by
  have hcalls := dirCalls_iff (oneFileHost 5) ⟨0x1000, rfsOpenFlags, rfsLseek⟩ rootServer 2
    ⟨fun _ ↦ 0, [], ⟨fun _ ↦ 0, false⟩⟩ ⟨[], by decide⟩ 5 oneFileStream (fun _ ↦ true)
    (fun _ ↦ 3) rfl
    (oneFileHost_directory 5) (by decide)
  refine ⟨hcalls.1.mpr (by decide), hcalls.2.1.mpr (by decide), hcalls.2.2.mpr ?_⟩
  exact ⟨[0x61], 3, [], [0x2F, 0x61], rfl, by decide, by decide, by decide, by decide, rfl⟩

/-- The host closes the directory, and the client gets the handle for the result. -/
theorem not_closedirMeets_handle :
    (osClosedir (oneFileHost 0) false 5).1 = 0 ∧
      ¬ ClosedirMeets (oneFileHost 0) ⟨0x1000, rfsOpenFlags, rfsLseek⟩ rootServer 2
        ⟨fun _ ↦ 0, [], ⟨fun _ ↦ 0, false⟩⟩ 5 := by
  refine ⟨rfl, ?_⟩
  rintro ⟨after, hcalled, -⟩
  obtain ⟨last, hexpected, -⟩ := @rfscClosedir_eq _ (oneFileHost 0)
    ⟨0x1000, rfsOpenFlags, rfsLseek⟩ rootServer 2 ⟨fun _ ↦ 0, [], ⟨fun _ ↦ 0, false⟩⟩ rfl 5
  rw [hexpected] at hcalled
  exact absurd (Prod.mk.inj (Option.some.inj hcalled)).1 (by decide)

end DirCalls

end Elua.Rfs
