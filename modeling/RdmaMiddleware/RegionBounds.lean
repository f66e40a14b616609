import RdmaMiddleware.CallResults

/-!
# The bounds of allocations

`dhmp_malloc` registers a region of the server's memory and returns its address. The hardware
tests a one-sided access against the region. The handler of a `dhmp_send` request accesses the
address and the length that stand in the message.
-/
namespace RdmaMiddleware.RegionBounds
open CInt CircularMemory AddressTable Framing CallResults
open TwoSided (Memories)

/-- What `dhmp_malloc` has allocated. -/
structure Region extends Alloc where
  length : ℕ

/-- The address of a byte of the region. -/
def Region.Holds (r : Region) (c : ℕ) : Prop :=
  r.mr.addr.toNat ≤ c ∧ c < r.mr.addr.toNat + r.length

/-! ## What a call does to the servers -/

/-- Memory of a server that is read or written. -/
structure Access (T : Type*) where
  server : T
  pos : ℕ
  length : ℕ

/-- The access, the memory of the servers behind it, the bytes that go to the client, and
whether the caller has come back after a transfer. -/
structure Outcome (T : Type*) where
  access : Option (Access T)
  servers : T → ℕ → UInt8
  sent : Option (List UInt8)
  done : Bool

/-- An operation on the region `r` of the server `u`: it stays inside the region, fails on
more bytes than the region has, changes no other byte and lets none be seen. -/
structure Confined {T : Type*} (u : T) (r : Region) (n : ℕ) (op : Memories T → Outcome T) :
    Prop where
  inside : ∀ m a, (op m).access = some a → a.server = u ∧ ∀ j < a.length, r.Holds (a.pos + j)
  fails : r.length < n → ∀ m, (op m).done = false
  unchanged : ∀ m v c, (v = u → ¬ r.Holds c) → (op m).servers v c = m.server v c
  undisclosed : ∀ m m', m'.client = m.client → (∀ c, r.Holds c → m'.server u c = m.server u c) →
    (op m').sent = (op m).sent

section Sends
variable {T : Type*} [DecidableEq T] (hash : Address → BitVec 32)

/-- The request of a `dhmp_send` as it arrives at a server. -/
def arrives (t : Table T) (m : Memories T) (c : CallerOutcome) (a : SendArgs) (o : SendOutcome) :
    Option (T × RecvMsg) :=
  match getTransFromAddr t.client a.dhmpAddr, lookup hash t.client a.dhmpAddr with
  | some rdmaTrans, some (_, i) =>
    if c.connected && c.allocOk && !i.writeFlag then
      match sendRequest m (sendWorkOf a rdmaTrans) i.nvmMr.addr o with
      | .value request => request.map fun request => (rdmaTrans, request)
      | _ => none
    else none
  | _, _ => none

/-- The frame that is built for a reply. -/
def sentFrame (sendMr : SendMr) (reply : Msg) (o : TwoSided.PostOutcome) : Option (List UInt8) :=
  match postSend sendMr reply o with
  | .value frame => frame
  | _ => none

/-- The call has returned 0. -/
def returnsZero {ρ : Type*} (x : Ending (ℤ × Table T × ρ)) : Bool :=
  match x with
  | .value (code, _, _) => code == 0
  | _ => false

/-- `dhmp_send_request_handler` accesses the memory unless it cannot allocate the reply of a
read. -/
def sendOutcome (t : Table T) (c : CallerOutcome) (a : SendArgs) (o : SendOutcome)
    (m : Memories T) : Outcome T :=
  let done := returnsZero (dhmpSend hash t m a c o)
  match arrives hash t m c a o with
  | none => ⟨none, m.server, none, done⟩
  | some (u, request) =>
    let req := SendRequest.read request.data
    if !req.isWrite && !o.serverTempOk then ⟨none, m.server, none, done⟩
    else
      let out := TwoSided.sendRequestHandler (m.server u) request.data
      { access := some ⟨u, req.serverAddr.toNat, req.reqSize⟩
        servers := Function.update m.server u out.1
        sent := sentFrame o.serverMr out.2 o.reply
        done := done }

/-- The request gets to the memory of the server. -/
structure Reaches (t : Table T) (c : CallerOutcome) (a : SendArgs) (o : SendOutcome) : Prop where
  accepted : ¬ Refused t a.dhmpAddr c
  free : Free hash t a.dhmpAddr
  temp_ok : a.isWrite = true → o.tempOk = true
  request : o.request = .posted
  fits : a.isWrite = true → sizeofMsgType + sizeofSizeT + sizeofSendRequest + a.length.toNat ≤
    SINGLE_NORM_RECV_REGION
  server_temp_ok : a.isWrite = false → o.serverTempOk = true

/-- The `write_flag`s as earlier calls have left them. -/
def setFlags (c : Client T) (flags : ℕ → Bool) : Client T :=
  { c with addrInfos := c.addrInfos.mapIdx fun info i => { i with writeFlag := flags info } }

/-- The client behind its allocations. -/
def allocated (c : Client T) (regions : List Region) (flags : ℕ → Bool) (cnt cnt' : ℕ → ℕ) :
    Table T where
  client := setFlags (mallocs hash c (regions.map Region.toAlloc)).1 flags
  readCnt := cnt
  writeCnt := cnt'

end Sends

/-! ## Operations that touch a range -/

section Ranges
variable {T : Type*} {u : T} {r : Region} {pos n : ℕ} {op : Memories T → Outcome T}

/-- The operation accesses the `n` bytes from `pos` on, and nothing else. -/
structure Touches (u : T) (pos n : ℕ) (op : Memories T → Outcome T) : Prop where
  access : ∀ m, (op m).access = some ⟨u, pos, n⟩
  servers : ∀ m v c, (v = u → c < pos ∨ pos + n ≤ c) → (op m).servers v c = m.server v c
  sent : ∀ m m', m'.client = m.client →
    (∀ j < n, m'.server u (pos + j) = m.server u (pos + j)) → (op m').sent = (op m).sent

/-- Such an operation is confined to a region around these bytes. -/
theorem Touches.confined (h : Touches u pos n op) (hbase : r.mr.addr.toNat ≤ pos)
    (hend : pos + n ≤ r.mr.addr.toNat + r.length) : Confined u r n op := by
  refine ⟨fun m a ha => ?_, fun hlong => by omega, fun m v c hout => ?_,
    fun m m' hclient hregion => h.sent m m' hclient (fun j hj => hregion _ ?_)⟩
  · obtain rfl := Option.some.inj ((h.access m).symm.trans ha)
    refine ⟨rfl, fun j hj => ?_⟩
    unfold Region.Holds
    dsimp only at hj ⊢
    omega
  · refine h.servers m v c (fun hv => ?_)
    have hnot := hout hv
    unfold Region.Holds at hnot
    omega
  · exact ⟨by omega, by omega⟩

/-- From the start of the region on, its length decides. -/
theorem Touches.confined_iff (h : Touches u r.mr.addr.toNat n op) :
    Confined u r n op ↔ n ≤ r.length := by
  constructor
  · intro hconfined
    by_contra hlong
    have hinside := (hconfined.inside ⟨fun _ => 0, fun _ _ => 0⟩ _ (h.access _)).2
    exact lt_irrefl _ (hinside r.length (not_le.mp hlong)).2
  · intro hle
    exact h.confined le_rfl (by omega)

/-- An operation that does nothing is confined to any region. -/
theorem confined_of_untouched (h : ∀ m, op m = ⟨none, m.server, none, false⟩) :
    Confined u r n op := by
  refine ⟨fun m a ha => ?_, fun _ m => ?_, fun m v c _ => ?_, fun m m' _ _ => ?_⟩
  · rw [h] at ha
    cases ha
  · rw [h]
  · rw [h]
  · rw [h, h]

/-- A confined operation leaves every disjoint region alone. -/
theorem Confined.other_region (h : Confined u r n op) {r' : Region}
    (hdisjoint : ∀ c, r.Holds c → ¬ r'.Holds c) (m : Memories T) {c : ℕ} (hc : r'.Holds c) :
    (op m).servers u c = m.server u c :=
  h.unchanged m u c (fun _ hin => hdisjoint c hin hc)

/-- What stands in a disjoint region does not show. -/
theorem Confined.other_secret (h : Confined u r n op) {r' : Region}
    (hdisjoint : ∀ c, r.Holds c → ¬ r'.Holds c) {m m' : Memories T} (hclient : m'.client = m.client)
    (hsame : ∀ c, ¬ r'.Holds c → m'.server u c = m.server u c) : (op m').sent = (op m).sent :=
  h.undisclosed m m' hclient (fun c hc => hsame c (hdisjoint c hc))

end Ranges

/-! ## The two-sided path -/

section Path
variable {T : Type*} {hash : Address → BitVec 32} {t : Table T}
  {c : CallerOutcome} {a : SendArgs} {o : SendOutcome} {u : T} {info : ℕ} {i : AddrInfo}
  {m : Memories T} {request : RecvMsg}

theorem arrives_eq_some :
    arrives hash t m c a o = some (u, request) ↔
      ¬ Refused t a.dhmpAddr c ∧ getTransFromAddr t.client a.dhmpAddr = some u ∧
        ∃ info i, lookup hash t.client a.dhmpAddr = some (info, i) ∧ i.writeFlag = false ∧
          sendRequest m (sendWorkOf a u) i.nvmMr.addr o = .value (some request) := by
  simp only [Refused, not_or, Bool.not_eq_false]
  constructor
  · intro h
    unfold arrives at h
    split at h
    case h_2 => cases h
    case h_1 rdmaTrans info i htrans hlookup =>
      split_ifs at h with htest
      obtain ⟨⟨hconnected, halloc⟩, hflag⟩ : (c.connected = true ∧ c.allocOk = true) ∧
          i.writeFlag = false := by simpa using htest
      cases hsend : sendRequest m (sendWorkOf a rdmaTrans) i.nvmMr.addr o with
      | value r =>
        rw [hsend] at h
        obtain ⟨r', rfl, hr⟩ := Option.map_eq_some_iff.mp h
        cases hr
        exact ⟨⟨by simp [htrans], hconnected, halloc⟩, htrans, info, i, hlookup, hflag, hsend⟩
      | crash | exited | waits =>
        rw [hsend] at h
        cases h
  · rintro ⟨⟨-, hconnected, halloc⟩, htrans, info, i, hlookup, hflag, hsend⟩
    simp [arrives, htrans, hlookup, hconnected, halloc, hflag, hsend]

/-- The request structure is read back at the server. -/
theorem read_sendRequest {addr : Address} {pad : Vector UInt8 7} {client : ℕ → UInt8}
    (h : ParsesTo request (TwoSided.requestMsg (sendWorkOf a u) addr pad client)) :
    SendRequest.read request.data = TwoSided.requestOf (sendWorkOf a u) addr pad ∧
      (a.isWrite = true → readBytes request.data sizeofSendRequest a.length.toNat =
        readBytes client a.localBuf.toNat a.length.toNat) := by
  have hsize : (TwoSided.requestOf (sendWorkOf a u) addr pad).reqSize < 2 ^ 64 := a.length.isLt
  obtain ⟨hread, hrest⟩ := h.read_request rfl hsize
  refine ⟨hread, fun hw => ?_⟩
  have hw' : (sendWorkOf a u).isWrite = true := hw
  rw [if_pos hw', length_readBytes] at hrest
  exact hrest

/-- What the handler makes of the request, however long the access is. -/
theorem sendRequestHandler_of_parses {addr : Address} {pad : Vector UInt8 7}
    {client : ℕ → UInt8} (server : ℕ → UInt8)
    (h : ParsesTo request (TwoSided.requestMsg (sendWorkOf a u) addr pad client)) :
    TwoSided.sendRequestHandler server request.data =
      (if a.isWrite then writeBytes server addr.toNat
          (readBytes client a.localBuf.toNat a.length.toNat) else server,
        ⟨.SEND_RESPONSE, (TwoSided.requestOf (sendWorkOf a u) addr pad).encode ++
          if a.isWrite then [] else readBytes server addr.toNat a.length.toNat⟩) := by
  obtain ⟨hread, hdata⟩ := read_sendRequest h
  unfold TwoSided.sendRequestHandler
  rw [hread]
  cases hw : a.isWrite with
  | true => simp [TwoSided.requestOf, sendWorkOf, hw, hdata hw]
  | false => simp [TwoSided.requestOf, sendWorkOf, hw]

theorem length_sendRequest (a : SendArgs) (u : T) (addr : Address) (pad : Vector UInt8 7)
    (client : ℕ → UInt8) :
    (TwoSided.requestMsg (sendWorkOf a u) addr pad client).frame.length =
      sizeofMsgType + sizeofSizeT +
        (sizeofSendRequest + if a.isWrite then a.length.toNat else 0) := by
  rw [Msg.length_frame, length_request]
  rfl

theorem reaches_of_arrives (h : arrives hash t m c a o = some (u, request))
    (htemp : a.isWrite = false → o.serverTempOk = true) : Reaches hash t c a o := by
  obtain ⟨haccepted, -, info, i, hlookup, hflag, hsend⟩ := arrives_eq_some.mp h
  obtain ⟨htempOk, hposted, hfits, -⟩ := sendRequest_eq_some.mp hsend
  refine ⟨haccepted, ⟨info, i, hlookup, hflag⟩, htempOk, hposted, fun hw => ?_, htemp⟩
  rw [length_sendRequest, if_pos hw] at hfits
  omega

theorem exists_arrives (h : Reaches hash t c a o)
    (htrans : getTransFromAddr t.client a.dhmpAddr = some u)
    (hlookup : lookup hash t.client a.dhmpAddr = some (info, i)) (m : Memories T) :
    ∃ request, arrives hash t m c a o = some (u, request) ∧
      ParsesTo request (TwoSided.requestMsg (sendWorkOf a u) i.nvmMr.addr o.pad m.client) := by
  obtain ⟨info', i', hlookup', hflag⟩ := h.free
  cases hlookup.symm.trans hlookup'
  have hfits : (TwoSided.requestMsg (sendWorkOf a u) i.nvmMr.addr o.pad m.client).frame.length ≤
      SINGLE_NORM_RECV_REGION := by
    rw [length_sendRequest]
    split_ifs with hw
    · have hlen := h.fits hw
      omega
    · decide
  exact ⟨_, arrives_eq_some.mpr ⟨h.accepted, htrans, info, i, hlookup, hflag,
    sendRequest_eq_some.mpr ⟨h.temp_ok, h.request, hfits, rfl⟩⟩, parses_of_fits hfits _⟩

theorem isWrite_of_arrives (h : arrives hash t m c a o = some (u, request)) :
    (SendRequest.read request.data).isWrite = a.isWrite := by
  obtain ⟨-, -, info, i, -, -, hsend⟩ := arrives_eq_some.mp h
  obtain ⟨-, -, hfits, rfl⟩ := sendRequest_eq_some.mp hsend
  rw [(read_sendRequest (parses_of_fits hfits o.serverBuffer)).1]
  rfl

variable [DecidableEq T]

/-- A call that returns 0 has reached the memory. -/
theorem reaches_of_returns {t' : Table T} {x : Option (Memories T)}
    (h : dhmpSend hash t m a c o = .value (0, t', x)) : Reaches hash t c a o := by
  unfold dhmpSend at h
  by_cases hrefused : Refused t a.dhmpAddr c
  · rw [callWith_refused hrefused] at h
    cases h
  · obtain ⟨rdmaTrans, htrans, hcall⟩ := callWith_accepted (ρ := Memories T) hrefused
    rw [hcall] at h
    obtain ⟨p, hsend, -⟩ := Ending.andThen_eq_value.mp h
    have hlength : (sendWorkOf a rdmaTrans).length < 2 ^ 64 := a.length.isLt
    obtain ⟨info, i, hlookup, hflag, hvalue⟩ :=
      (sendWorkHandler_eq_value (sendWorkOf a rdmaTrans)).mp ⟨p.1, hsend⟩
    obtain ⟨⟨htemp, hserverTemp, hposted, -, hfits⟩, -⟩ :=
      (rdmaSend_eq_value _ hlength).mp hvalue
    exact ⟨hrefused, ⟨info, i, hlookup, hflag⟩, htemp, hposted, fun _ => hfits, hserverTemp⟩

/-- A request that does not get to the memory leaves no trace. -/
theorem sendOutcome_untouched (h : ¬ Reaches hash t c a o) (m : Memories T) :
    sendOutcome hash t c a o m = ⟨none, m.server, none, false⟩ := by
  have hdone : returnsZero (dhmpSend hash t m a c o) = false := by
    cases hcall : dhmpSend hash t m a c o with
    | value p =>
      obtain ⟨code, t', x⟩ := p
      refine beq_false_of_ne (fun hzero => h ?_)
      subst hzero
      exact reaches_of_returns hcall
    | crash | exited | waits => rfl
  unfold sendOutcome
  rw [hdone]
  cases harrives : arrives hash t m c a o with
  | none => rfl
  | some p =>
    obtain ⟨u, request⟩ := p
    have hnull : (!(SendRequest.read request.data).isWrite && !o.serverTempOk) = true := by
      by_contra hgoes
      rw [isWrite_of_arrives harrives] at hgoes
      exact h (reaches_of_arrives harrives (by simpa using hgoes))
    dsimp only
    rw [if_pos hnull]

/-- One that does accesses as many bytes as the client has asked for. -/
theorem sendOutcome_eq (h : Reaches hash t c a o)
    (htrans : getTransFromAddr t.client a.dhmpAddr = some u)
    (hlookup : lookup hash t.client a.dhmpAddr = some (info, i)) (m : Memories T) :
    sendOutcome hash t c a o m =
      { access := some ⟨u, i.nvmMr.addr.toNat, a.length.toNat⟩
        servers := Function.update m.server u
          (if a.isWrite then writeBytes (m.server u) i.nvmMr.addr.toNat
            (readBytes m.client a.localBuf.toNat a.length.toNat) else m.server u)
        sent := sentFrame o.serverMr ⟨.SEND_RESPONSE,
          (TwoSided.requestOf (sendWorkOf a u) i.nvmMr.addr o.pad).encode ++
            if a.isWrite then []
            else readBytes (m.server u) i.nvmMr.addr.toNat a.length.toNat⟩ o.reply
        done := returnsZero (dhmpSend hash t m a c o) } := by
  obtain ⟨request, harrives, hparses⟩ := exists_arrives h htrans hlookup m
  have hgoes : ¬ (!(SendRequest.read request.data).isWrite && !o.serverTempOk) = true := by
    rw [isWrite_of_arrives harrives]
    simpa using h.server_temp_ok
  unfold sendOutcome
  rw [harrives]
  dsimp only
  rw [if_neg hgoes, sendRequestHandler_of_parses (m.server u) hparses,
    (read_sendRequest hparses).1]
  rfl

theorem touches_sendOutcome {r : Region} (h : Reaches hash t c a o)
    (htrans : getTransFromAddr t.client a.dhmpAddr = some u)
    (hlookup : lookup hash t.client a.dhmpAddr = some (info, i))
    (haddr : i.nvmMr.addr = r.mr.addr) :
    Touches u r.mr.addr.toNat a.length.toNat (sendOutcome hash t c a o) := by
  have heq := sendOutcome_eq h htrans hlookup
  rw [haddr] at heq
  refine ⟨fun m => by rw [heq], fun m v x hout => ?_, fun m m' hclient hregion => ?_⟩
  · rw [heq]
    dsimp only
    by_cases hv : v = u
    · subst hv
      rw [Function.update_self]
      split_ifs
      · rcases hout rfl with hlt | hge
        · exact writeBytes_of_lt _ _ _ _ hlt
        · exact writeBytes_of_ge _ _ _ _ (by rwa [length_readBytes])
      · rfl
    · rw [Function.update_of_ne hv]
  · have hread : readBytes (m'.server u) r.mr.addr.toNat a.length.toNat =
        readBytes (m.server u) r.mr.addr.toNat a.length.toNat :=
      List.map_congr_left fun j hj => hregion j (List.mem_range.mp hj)
    rw [heq, heq]
    dsimp only
    rw [hread]

end Path

/-! ## The one-sided path -/

section OneSidedPath
variable {T : Type*} [DecidableEq T]

/-- The test of the hardware: an access that leaves the region of its key ends in an error. -/
def checked (r : Region) (a : TransferArgs) (o : TransferOutcome) : TransferOutcome :=
  let pos := (r.mr.addr + a.offset).toNat
  if r.mr.addr.toNat ≤ pos ∧ pos + a.count.toNat ≤ r.mr.addr.toNat + r.length then o
  else { o with status := .other 10 }

/-- The task that a call has completed. -/
def movedTask (x : Ending (ℤ × Table T × Option (Option OneSided.Task))) :
    Option OneSided.Task :=
  match x with
  | .value (_, _, r) => r.join
  | _ => none

/-- What a completed task has done to the server `u`. -/
def transferOutcome (u : T) (isWrite : Bool) (moved : Option OneSided.Task) (m : Memories T) :
    Outcome T :=
  match moved with
  | none => ⟨none, m.server, none, false⟩
  | some task =>
    let pos := task.remoteAddr.toNat
    let n := (task.length % 2 ^ 32).toNat
    { access := some ⟨u, pos, n⟩
      servers := if isWrite then Function.update m.server u
        (writeBytes (m.server u) pos (readBytes m.client task.localAddr.toNat n)) else m.server
      sent := if isWrite then none else some (readBytes (m.server u) pos n)
      done := true }

variable {hash : Address → BitVec 32} {t : Table T} {c : CallerOutcome} {a : TransferArgs}
  {o : TransferOutcome} {u : T} {r : Region}

theorem touches_transferOutcome (isWrite : Bool) (task : OneSided.Task) :
    Touches u task.remoteAddr.toNat (task.length % 2 ^ 32).toNat
      (transferOutcome u isWrite (some task)) := by
  refine ⟨fun m => rfl, fun m v x hout => ?_, fun m m' _ hregion => ?_⟩
  · dsimp only [transferOutcome]
    split_ifs
    · by_cases hv : v = u
      · subst hv
        rw [Function.update_self]
        rcases hout rfl with hlt | hge
        · exact writeBytes_of_lt _ _ _ _ hlt
        · exact writeBytes_of_ge _ _ _ _ (by rwa [length_readBytes])
      · rw [Function.update_of_ne hv]
    · rfl
  · dsimp only [transferOutcome]
    split_ifs
    · rfl
    · congr 1
      exact List.map_congr_left fun j hj => hregion j (List.mem_range.mp hj)

theorem moves_checked (h : Moves (checked r a o)) :
    r.mr.addr.toNat ≤ (r.mr.addr + a.offset).toNat ∧
      (r.mr.addr + a.offset).toNat + a.count.toNat ≤ r.mr.addr.toNat + r.length := by
  by_contra hout
  have hstatus := h.status
  unfold checked at hstatus
  dsimp only at hstatus
  rw [if_neg hout] at hstatus
  cases hstatus

omit [DecidableEq T] in
theorem handler_of_movedTask {dhmpAddr : Address}
    {handler : Ending (Table T × Option OneSided.Task)} {task : OneSided.Task}
    (h : movedTask (callWith t dhmpAddr c fun _ => handler) = some task) :
    ∃ t', handler = .value (t', some task) := by
  by_cases hrefused : Refused t dhmpAddr c
  · rw [callWith_refused hrefused] at h
    cases h
  · obtain ⟨rdmaTrans, -, hcall⟩ := callWith_accepted (ρ := Option OneSided.Task) hrefused
    rw [hcall] at h
    cases hhandler : handler with
    | value p =>
      rw [hhandler] at h
      obtain ⟨t', moved⟩ := p
      exact ⟨t', by rw [show moved = some task from h]⟩
    | crash | exited | waits =>
      rw [hhandler] at h
      cases h

/-- A one-sided operation at any offset is confined to its region, since the hardware tests
it, for lengths that the work request can hold. -/
theorem confined_transfer (isWrite : Bool) {info : ℕ} {i : AddrInfo}
    (hlookup : lookup hash t.client a.dhmpAddr = some (info, i)) (hmr : i.nvmMr = r.mr)
    (hcount : a.count.toNat < 2 ^ 32) :
    Confined u r a.count.toNat (transferOutcome u isWrite (movedTask
      (if isWrite then dhmpWrite hash t a c (checked r a o)
        else dhmpRead hash t a c (checked r a o)))) := by
  have htask (task : OneSided.Task) (hmoves : Moves (checked r a o))
      (heq : task = OneSided.taskCreate (workOf isWrite a) info i.nvmMr) :
      Confined u r a.count.toNat (transferOutcome u isWrite (some task)) := by
    have hlength : (task.length % 2 ^ 32).toNat = a.count.toNat := by
      have hcast : task.length = cInt a.count.toNat := by
        simp only [heq, OneSided.taskCreate, workOf]
      rw [hcast, (cInt_emod _).mpr hcount, Int.toNat_natCast]
    have htouches := touches_transferOutcome (u := u) isWrite task
    have hpos : task.remoteAddr = r.mr.addr + a.offset := by
      simp only [heq, OneSided.taskCreate, workOf, hmr]
    rw [hlength, hpos] at htouches
    obtain ⟨hbase, hend⟩ := moves_checked hmoves
    exact htouches.confined hbase hend
  cases hmoved : movedTask (if isWrite then dhmpWrite hash t a c (checked r a o)
      else dhmpRead hash t a c (checked r a o)) with
  | none => exact confined_of_untouched (fun _ => rfl)
  | some task =>
    cases isWrite with
    | false =>
      obtain ⟨info', i', hlookup', -, hmoves, heq⟩ :=
        readWorkHandler_eq_some.mp (handler_of_movedTask hmoved)
      cases hlookup.symm.trans hlookup'
      exact htask task hmoves heq
    | true =>
      obtain ⟨info', i', hlookup', -, hmoves, heq⟩ :=
        writeWorkHandler_eq_some.mp (handler_of_movedTask hmoved)
      cases hlookup.symm.trans hlookup'
      exact htask task hmoves heq

end OneSidedPath

/-! ## All regions -/

section Regions
variable {T : Type*} [DecidableEq T] {hash : Address → BitVec 32} {c : Client T}
  {regions : List Region} {r : Region}

omit [DecidableEq T] in
theorem lookup_setFlags (flags : ℕ → Bool) {addr : Address} {info : ℕ} {i : AddrInfo}
    (hget : getAddrInfoFromHt c (hashInClient hash addr) addr = some info)
    (hi : c.addrInfos[info]? = some i) :
    lookup hash (setFlags c flags) addr = some (info, { i with writeFlag := flags info }) := by
  have hsame : getAddrInfoFromHt (setFlags c flags) (hashInClient hash addr) addr =
      getAddrInfoFromHt c (hashInClient hash addr) addr := by
    unfold getAddrInfoFromHt setFlags
    congr 1
    funext k
    rw [List.getElem?_mapIdx]
    cases c.addrInfos[k]? <;> rfl
  unfold lookup
  rw [hsame, hget, Option.bind_some, setFlags, List.getElem?_mapIdx, hi]
  rfl

/-- The address of a region leads to its server, and to an entry with its address there. -/
theorem lookup_allocated (hfresh : Fresh c) (hok : ∀ r ∈ regions, Succeeds c r.toAlloc)
    (hr : r ∈ regions) (flags : ℕ → Bool) (cnt cnt' : ℕ → ℕ) :
    getTransFromAddr (allocated hash c regions flags cnt cnt').client (packed r.toAlloc) =
        c.connectTrans r.node ∧
      ∃ info i, lookup hash (allocated hash c regions flags cnt cnt').client (packed r.toAlloc) =
        some (info, i) ∧ i.nvmMr.addr = r.mr.addr ∧ i.writeFlag = flags info := by
  have hallocs : ∀ a ∈ regions.map Region.toAlloc, Succeeds c a := by
    simpa using hok
  obtain ⟨htable, htrans, -⟩ := @mallocs_spec T _ hash c _ hfresh hallocs
  have hlt := (hok r hr).addr_lt
  obtain ⟨info, i, hget, hi, haddr⟩ := htable.find_addr (List.mem_map_of_mem hr) hlt
  refine ⟨?_, info, _, lookup_setFlags flags hget hi, haddr, rfl⟩
  rw [getTransFromAddr_packed hlt, ← htrans]
  rfl

/-- A `dhmp_send` to a region is confined to it exactly if it asks for no more bytes than the
region has, or does not get to the memory of the server. -/
theorem confined_send_iff (hash : Address → BitVec 32) (c : Client T) (regions : List Region)
    (hfresh : Fresh c) (hok : ∀ r ∈ regions, Succeeds c r.toAlloc) (flags : ℕ → Bool)
    (cnt cnt' : ℕ → ℕ) (k : ℕ) (r : Region) (hr : regions[k]? = some r) (u : T)
    (hu : c.connectTrans r.node = some u) (caller : CallerOutcome) (a : SendArgs)
    (ha : (mallocs hash c (regions.map Region.toAlloc)).2[k]? = some a.dhmpAddr)
    (o : SendOutcome) :
    Confined u r a.length.toNat
        (sendOutcome hash (allocated hash c regions flags cnt cnt') caller a o) ↔
      a.length.toNat ≤ r.length ∨
        ¬ Reaches hash (allocated hash c regions flags cnt cnt') caller a o := by
  have hmem : r ∈ regions := List.mem_of_getElem? hr
  have hallocs : ∀ a ∈ regions.map Region.toAlloc, Succeeds c a := by
    simpa using hok
  have hpacked : a.dhmpAddr = packed r.toAlloc := by
    rw [(@mallocs_spec T _ hash c _ hfresh hallocs).2.2] at ha
    simpa [hr] using ha.symm
  obtain ⟨htrans, info, i, hlookup, haddr, -⟩ :=
    @lookup_allocated T _ hash c regions r hfresh hok hmem flags cnt cnt'
  rw [← hpacked] at htrans hlookup
  by_cases hreaches : Reaches hash (allocated hash c regions flags cnt cnt') caller a o
  · rw [or_iff_left (not_not.mpr hreaches)]
    exact (touches_sendOutcome hreaches (htrans.trans hu) hlookup haddr).confined_iff
  · exact iff_of_true (confined_of_untouched (sendOutcome_untouched hreaches)) (.inr hreaches)

end Regions

/-- Eight bytes on the first node behind the head. -/
def eightBytes : Region := ⟨nodeOneAlloc, 8⟩

theorem succeeds_eightBytes : ∀ r ∈ [eightBytes], Succeeds headClient r.toAlloc := by
  intro r hr
  obtain rfl := List.mem_singleton.mp hr
  exact ⟨by decide, by decide, by decide⟩

theorem mallocs_eightBytes :
    (mallocs (fun _ => 0) headClient ([eightBytes].map Region.toAlloc)).2 =
      [packed eightBytes.toAlloc] := by
  have hallocs : ∀ a ∈ [eightBytes].map Region.toAlloc, Succeeds headClient a := by
    simpa using succeeds_eightBytes
  exact (mallocs_spec ⟨rfl, fun _ => rfl⟩ hallocs).2.2

/-- The client behind that one allocation. -/
def eightBytesTable : Table ℕ :=
  allocated (fun _ => 0) headClient [eightBytes] (fun _ => false) (fun _ => 0) (fun _ => 0)

/-- A write of all eight bytes. -/
theorem confined_send_iff_eightBytes :
    Confined 1 eightBytes 8 (sendOutcome (fun _ => 0) eightBytesTable ⟨true, true⟩
      ⟨packed eightBytes.toAlloc, 64, 8, true, 8⟩ sendsOk) :=
  (confined_send_iff (fun _ => 0) headClient [eightBytes] ⟨rfl, fun _ => rfl⟩
    succeeds_eightBytes (fun _ => false) (fun _ => 0) (fun _ => 0) 0 eightBytes rfl 1 rfl
    ⟨true, true⟩ ⟨packed eightBytes.toAlloc, 64, 8, true, 8⟩ (by rw [mallocs_eightBytes]; rfl)
    sendsOk).mpr (.inl (by decide))

theorem not_confined_of_sixteen (isWrite : Bool) :
    ¬ Confined 1 eightBytes 16 (sendOutcome (fun _ => 0) eightBytesTable ⟨true, true⟩
      ⟨packed eightBytes.toAlloc, 64, 16, isWrite, 8⟩ sendsOk) := by
  obtain ⟨htrans, info, i, hlookup, haddr, hflag⟩ :=
    @lookup_allocated ℕ _ (fun _ => 0) headClient [eightBytes] eightBytes ⟨rfl, fun _ => rfl⟩
      succeeds_eightBytes (List.mem_singleton.mpr rfl) (fun _ => false) (fun _ => 0) (fun _ => 0)
  have hreaches : Reaches (fun _ => 0) eightBytesTable ⟨true, true⟩
      ⟨packed eightBytes.toAlloc, 64, 16, isWrite, 8⟩ sendsOk := by
    have hfits : sizeofMsgType + sizeofSizeT + sizeofSendRequest + (16 : BitVec 64).toNat ≤
        SINGLE_NORM_RECV_REGION := by decide
    refine ⟨fun hrefused => ?_, ⟨info, i, hlookup, hflag⟩, fun _ => rfl, rfl, fun _ => hfits,
      fun _ => rfl⟩
    rcases hrefused with hnone | hoff | hoff
    · cases htrans.symm.trans hnone
    · cases hoff
    · cases hoff
  have htouches := touches_sendOutcome hreaches htrans hlookup haddr
  intro hconfined
  have hle : 16 ≤ eightBytes.length := htouches.confined_iff.mp hconfined
  exact absurd hle (by decide)

/-- A `dhmp_send` of sixteen bytes leaves the region in either direction. -/
theorem not_confined_sixteenBytes :
    ¬ Confined 1 eightBytes 16 (sendOutcome (fun _ => 0) eightBytesTable ⟨true, true⟩
        ⟨packed eightBytes.toAlloc, 64, 16, true, 8⟩ sendsOk) ∧
      ¬ Confined 1 eightBytes 16 (sendOutcome (fun _ => 0) eightBytesTable ⟨true, true⟩
        ⟨packed eightBytes.toAlloc, 64, 16, false, 8⟩ sendsOk) :=
  ⟨not_confined_of_sixteen true, not_confined_of_sixteen false⟩

end RdmaMiddleware.RegionBounds
