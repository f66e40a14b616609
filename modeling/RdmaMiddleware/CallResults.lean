import RdmaMiddleware.RemoteWrites
import RdmaMiddleware.TwoSided

/-!
# What a call returns

One call of `dhmp_read`, `dhmp_write`, `dhmp_send` or `check_remote_size`, followed from the
lookup, the registration and the posting to the value that the caller gets. The work thread
takes the work with the client in any state; what can fail is an argument.
-/
namespace RdmaMiddleware.CallResults
open CInt CircularMemory AddressTable Framing TransitionSystem
open OneSided (SetupOutcome Task WcOpcode WcStatus setWriteFlag)
open TwoSided (Memories PostOutcome Effect FitsBuffer)

/-- How a function ends: with a value, at a null pointer, in `exit`, or not at all. -/
inductive Ending (α : Type*)
  | value (a : α)
  | crash
  | exited
  | waits

namespace Ending

variable {α β : Type*}

def andThen (x : Ending α) (f : α → Ending β) : Ending β :=
  match x with
  | value a => f a
  | crash => crash
  | exited => exited
  | waits => waits

@[simp] theorem andThen_value (a : α) (f : α → Ending β) : (value a).andThen f = f a := rfl
@[simp] theorem andThen_crash (f : α → Ending β) : crash.andThen f = crash := rfl
@[simp] theorem andThen_exited (f : α → Ending β) : exited.andThen f = exited := rfl
@[simp] theorem andThen_waits (f : α → Ending β) : waits.andThen f = waits := rfl

theorem andThen_eq_value {x : Ending α} {f : α → Ending β} {b : β} :
    x.andThen f = value b ↔ ∃ a, x = value a ∧ f a = value b := by
  constructor
  · intro h
    cases x with
    | value a => exact ⟨a, rfl, h⟩
    | crash | exited | waits => cases h
  · rintro ⟨a, rfl, h⟩
    exact h

end Ending

/-- The client's table with the counters of its entries. -/
structure Table (T : Type*) where
  client : Client T
  readCnt : ℕ → ℕ
  writeCnt : ℕ → ℕ

/-- The arguments of `dhmp_read` and `dhmp_write`. -/
structure TransferArgs where
  dhmpAddr : Address
  localBuf : Address
  count : BitVec 64
  offset : Address

/-- The arguments of `dhmp_send`; `task` is where its `dhmp_send_work` lies. -/
structure SendArgs where
  dhmpAddr : Address
  localBuf : Address
  length : BitVec 64
  isWrite : Bool
  task : Address

/-- The state of the transport and `malloc` of the work. -/
structure CallerOutcome where
  connected : Bool
  allocOk : Bool

/-- What one-sided operations depend on. -/
structure TransferOutcome extends SetupOutcome where
  posted : Bool
  status : WcStatus

/-- What `dhmp_send` depends on: the two messages, `malloc` for the longer one of them on
either side, and what the memory around them holds. -/
structure SendOutcome where
  tempOk : Bool
  request : PostOutcome
  serverTempOk : Bool
  reply : PostOutcome
  pad : Vector UInt8 7
  clientMr : SendMr
  serverMr : SendMr
  serverBuffer : ℕ → UInt8
  clientBuffer : ℕ → UInt8

section Calls
variable {T : Type*} (hash : Address → BitVec 32)

/-- `dhmp_get_addr_info_from_ht`, with the entry itself. -/
def lookup (c : Client T) (dhmpAddr : Address) : Option (ℕ × AddrInfo) :=
  (getAddrInfoFromHt c (hashInClient hash dhmpAddr) dhmpAddr).bind fun info =>
    (c.addrInfos[info]?).map fun i => (info, i)

/-! ## One-sided calls -/

def workOf (isWrite : Bool) (a : TransferArgs) : OneSided.Work where
  isWrite := isWrite
  dhmpAddr := a.dhmpAddr
  localAddr := a.localBuf
  length := a.count.toNat
  offset := a.offset

/-- `dhmp_read_task_create` and `dhmp_write_task_create`, which look into the memory region
without a test. -/
def rdmaTaskCreate (task : Task) (o : SetupOutcome) : Ending (Option Task) :=
  if o.taskOk then if o.smrOk && o.regOk then .value (some task) else .crash
  else .value none

/-- The value of `dhmp_rdma_read`, and the task if it has completed. -/
def rdmaRead (task : Task) (o : TransferOutcome) : Ending (ℤ × Option Task) :=
  (rdmaTaskCreate task o.toSetupOutcome).andThen fun
    | none => .value (-1, none)
    | some task =>
      if o.posted then if o.status = .SUCCESS then .value (0, some task) else .waits
      else .value (-1, none)

def rdmaWrite (task : Task) (o : TransferOutcome) : Ending (ℤ × Option Task) :=
  (rdmaTaskCreate task o.toSetupOutcome).andThen fun
    | none => .value (-1, none)
    | some task =>
      if o.posted then if o.status = .SUCCESS then .value (0, some task) else .waits
      else .exited

def readWorkHandler (t : Table T) (a : TransferArgs) (o : TransferOutcome) :
    Ending (Table T × Option Task) :=
  match lookup hash t.client a.dhmpAddr with
  | none => .value (t, none)
  | some (info, i) =>
    if i.writeFlag then .waits
    else
      let t := { t with readCnt := Function.update t.readCnt info (t.readCnt info + 1) }
      (rdmaRead (OneSided.taskCreate (workOf false a) info i.nvmMr) o).andThen fun r =>
        .value (t, r.2)

/-- The handler of a successful completion has cleared the `write_flag`. -/
def writeDone (t : Table T) (info : ℕ) : Option Task → Table T × Option Task
  | none => (t, none)
  | some task => ({ t with client := setWriteFlag t.client info false }, some task)

def writeWorkHandler (t : Table T) (a : TransferArgs) (o : TransferOutcome) :
    Ending (Table T × Option Task) :=
  match lookup hash t.client a.dhmpAddr with
  | none => .value (t, none)
  | some (info, i) =>
    if i.writeFlag then .waits
    else
      let t := { t with
        client := setWriteFlag t.client info true
        writeCnt := Function.update t.writeCnt info (t.writeCnt info + 1) }
      (rdmaWrite (OneSided.taskCreate (workOf true a) info i.nvmMr) o).andThen fun r =>
        .value (writeDone t info r.2)

/-- What `dhmp_read`, `dhmp_write` and `dhmp_send` have in common: the test of the transport,
the work, and 0 once the handler has set `done_flag`. -/
def callWith {ρ : Type*} (t : Table T) (dhmpAddr : Address) (c : CallerOutcome)
    (handler : T → Ending (Table T × ρ)) : Ending (ℤ × Table T × Option ρ) :=
  match getTransFromAddr t.client dhmpAddr with
  | none => .value (-1, t, none)
  | some rdmaTrans =>
    if c.connected then
      if c.allocOk then (handler rdmaTrans).andThen fun r => .value (0, r.1, some r.2)
      else .value (-1, t, none)
    else .value (-1, t, none)

def dhmpRead (t : Table T) (a : TransferArgs) (c : CallerOutcome) (o : TransferOutcome) :
    Ending (ℤ × Table T × Option (Option Task)) :=
  callWith t a.dhmpAddr c fun _ => readWorkHandler hash t a o

def dhmpWrite (t : Table T) (a : TransferArgs) (c : CallerOutcome) (o : TransferOutcome) :
    Ending (ℤ × Table T × Option (Option Task)) :=
  callWith t a.dhmpAddr c fun _ => writeWorkHandler hash t a o

/-! ## `dhmp_send` -/

section Send
variable [DecidableEq T]

/-- `dhmp_post_send`: a frame that is longer than the send region overwrites other memory. -/
def postSend (sendMr : SendMr) (m : Msg) (o : PostOutcome) : Ending (Option (List UInt8)) :=
  match o with
  | .noTask => .value none
  | .notPosted | .posted =>
    if SEND_REGION_SIZE < m.frame.length then .crash
    else .value (TwoSided.dhmpPostSend sendMr m o).2

/-- What comes out of a frame: nothing, unless it fits the receive buffer. -/
def deliver (frame : Option (List UInt8)) (buffer : ℕ → UInt8) : Option RecvMsg :=
  match frame with
  | none => none
  | some frame =>
    if SINGLE_NORM_RECV_REGION < frame.length then none else some (received buffer frame)

/-- The server handles the request, unless it follows a null pointer; then there is no reply. -/
def serverReply (server : ℕ → UInt8) (isWrite : Bool) (request : RecvMsg) (o : SendOutcome) :
    Option ((ℕ → UInt8) × RecvMsg) :=
  if !isWrite && !o.serverTempOk then none
  else
    let out := TwoSided.sendRequestHandler server request.data
    match postSend o.serverMr out.2 o.reply with
    | .value frame => (deliver frame o.clientBuffer).map fun reply => (out.1, reply)
    | _ => none

/-- `dhmp_rdma_send` up to the waiting, with the request as it arrives at the server. -/
def sendRequest (m : Memories T) (w : TwoSided.Work T) (serverAddr : Address)
    (o : SendOutcome) : Ending (Option RecvMsg) :=
  if w.isWrite && !o.tempOk then .crash
  else
    (postSend o.clientMr (TwoSided.requestMsg w serverAddr o.pad m.client) o.request).andThen
      fun frame => .value (deliver frame o.serverBuffer)

/-- `dhmp_rdma_send`, with the memories when `recv_flag` is set. -/
def rdmaSend (m : Memories T) (w : TwoSided.Work T) (serverAddr : Address) (o : SendOutcome) :
    Ending (Memories T) :=
  (sendRequest m w serverAddr o).andThen fun
    | none => .waits
    | some request =>
      match serverReply (m.server w.rdmaTrans) w.isWrite request o with
      | none => .waits
      | some (server, reply) => .value {
          client := (TwoSided.sendResponseHandler m.client reply.data).1
          server := Function.update m.server w.rdmaTrans server }

def sendWorkOf (a : SendArgs) (rdmaTrans : T) : TwoSided.Work T where
  dhmpAddr := a.dhmpAddr
  localBuf := a.localBuf
  length := a.length.toNat
  isWrite := a.isWrite
  task := a.task
  rdmaTrans := rdmaTrans

/-- Without an entry, the handler writes to the `write_flag` behind a null pointer. -/
def sendWorkHandler (t : Table T) (m : Memories T) (w : TwoSided.Work T) (o : SendOutcome) :
    Ending (Table T × Memories T) :=
  match lookup hash t.client w.dhmpAddr with
  | none => .crash
  | some (info, i) =>
    if i.writeFlag then .waits
    else
      let client := setWriteFlag t.client info true
      let t : Table T :=
        if w.isWrite then
          { t with
            client := client
            writeCnt := Function.update t.writeCnt info (t.writeCnt info + 1) }
        else
          { t with
            client := client
            readCnt := Function.update t.readCnt info (t.readCnt info + 1) }
      (rdmaSend m w i.nvmMr.addr o).andThen fun m =>
        .value ({ t with client := setWriteFlag t.client info false }, m)

def dhmpSend (t : Table T) (m : Memories T) (a : SendArgs) (c : CallerOutcome)
    (o : SendOutcome) : Ending (ℤ × Table T × Option (Memories T)) :=
  callWith t a.dhmpAddr c fun rdmaTrans => sendWorkHandler hash t m (sendWorkOf a rdmaTrans) o

end Send

/-! ## `check_remote_size` -/

def REMOTE_RD_OFFSET : Address := 4

/-- The read of the remote `rd_pointer`, an `int`. -/
def rdPointerArgs (buffMate rdAddr : Address) : TransferArgs :=
  ⟨buffMate, rdAddr, 4, REMOTE_RD_OFFSET⟩

/-- `rdAddr` is the address of `rb->rd_pointer`, and `fetched` what a completed read of the
remote `rd_pointer` puts there. -/
def checkRemoteSize (t : Table T) (rb : RemoteWrites.RemoteInts) (buffMate rdAddr : Address)
    (waitWriteLen : ℤ) (c : CallerOutcome) (o : TransferOutcome) (fetched : ℤ) :
    Ending (Bool × Option Task) :=
  (dhmpRead hash t (rdPointerArgs buffMate rdAddr) c o).andThen fun r =>
    let moved := r.2.2.join
    let rd := if r.1 = -1 then none else if moved.isSome then some fetched else some rb.rdPointer
    .value ((RemoteWrites.checkRemoteSize rb rd waitWriteLen).2, moved)

/-! ## The property -/

/-- The bytes of the call: the work request moves `count` bytes between the local buffer and
the entry's region. -/
structure Requested (t : Table T) (isWrite : Bool) (a : TransferArgs) (task : Task) : Prop where
  opcode : task.opcode = if isWrite then .RDMA_WRITE else .RDMA_READ
  local_addr : task.localAddr = a.localBuf
  length : task.length % 2 ^ 32 = a.count.toNat
  remote : ∃ info i, lookup hash t.client a.dhmpAddr = some (info, i) ∧
    task.remoteAddr = i.nvmMr.addr + a.offset ∧ task.rkey = i.nvmMr.rkey

/-- 0 only after the transfer, or a negative value and the table as it was. -/
def Honest {ρ : Type*} (t : Table T) (transferred : Option ρ → Prop) :
    Ending (ℤ × Table T × Option ρ) → Prop
  | .value (code, t', r) => if code = 0 then transferred r else code < 0 ∧ t' = t
  | _ => False

/-- A call with everything that its outcome depends on. -/
inductive ApiCall
  | read (a : TransferArgs) (o : TransferOutcome)
  | write (a : TransferArgs) (o : TransferOutcome)
  | send (a : SendArgs) (o : SendOutcome)
  | checkRemoteSize (rb : RemoteWrites.RemoteInts) (buffMate rdAddr : Address)
      (waitWriteLen : ℤ) (o : TransferOutcome) (fetched : ℤ)

def HonestCall [DecidableEq T] (t : Table T) (m : Memories T) (c : CallerOutcome) :
    ApiCall → Prop
  | .read a o => Honest t (fun r => ∃ task, r = some (some task) ∧ Requested hash t false a task)
      (dhmpRead hash t a c o)
  | .write a o => Honest t (fun r => ∃ task, r = some (some task) ∧ Requested hash t true a task)
      (dhmpWrite hash t a c o)
  | .send a o => Honest t
      (fun r => ∃ m' rdmaTrans info i, r = some m' ∧
        getTransFromAddr t.client a.dhmpAddr = some rdmaTrans ∧
        lookup hash t.client a.dhmpAddr = some (info, i) ∧
        Effect (sendWorkOf a rdmaTrans) i.nvmMr.addr.toNat m m')
      (dhmpSend hash t m a c o)
  | .checkRemoteSize rb buffMate rdAddr len o fetched => ∀ moved,
      checkRemoteSize hash t rb buffMate rdAddr len c o fetched = .value (true, moved) →
      ∃ task, moved = some task ∧
        Requested hash t false (rdPointerArgs buffMate rdAddr) task

/-! ## The condition -/

/-- No connected transport, or no memory for the work. -/
def Refused (t : Table T) (dhmpAddr : Address) (c : CallerOutcome) : Prop :=
  getTransFromAddr t.client dhmpAddr = none ∨ c.connected = false ∨ c.allocOk = false

/-- The address is in the table and its `write_flag` is clear. -/
def Free (t : Table T) (dhmpAddr : Address) : Prop :=
  ∃ info i, lookup hash t.client dhmpAddr = some (info, i) ∧ i.writeFlag = false

/-- Every step of a one-sided operation succeeds. -/
@[mk_iff] structure Moves (o : TransferOutcome) : Prop where
  smr_ok : o.smrOk = true
  reg_ok : o.regOk = true
  task_ok : o.taskOk = true
  posted : o.posted = true
  status : o.status = .SUCCESS

/-- A read comes back with nothing. -/
def Silent (t : Table T) (dhmpAddr : Address) (o : TransferOutcome) : Prop :=
  lookup hash t.client dhmpAddr = none ∨
    Free hash t dhmpAddr ∧
      (o.taskOk = false ∨ o.smrOk = true ∧ o.regOk = true ∧ o.posted = false)

/-- Both messages are built and posted, and their frames fit a receive buffer. -/
@[mk_iff] structure Exchanged (a : SendArgs) (o : SendOutcome) : Prop where
  temp_ok : a.isWrite = true → o.tempOk = true
  server_temp_ok : a.isWrite = false → o.serverTempOk = true
  request : o.request = .posted
  reply : o.reply = .posted
  fits : sizeofMsgType + sizeofSizeT + sizeofSendRequest + a.length.toNat ≤
    SINGLE_NORM_RECV_REGION

def Met (t : Table T) (c : CallerOutcome) : ApiCall → Prop
  | .read a o | .write a o => Refused t a.dhmpAddr c ∨
      Free hash t a.dhmpAddr ∧ Moves o ∧ a.count.toNat < 2 ^ 32
  | .send a o => Refused t a.dhmpAddr c ∨ Free hash t a.dhmpAddr ∧ Exchanged a o
  | .checkRemoteSize rb buffMate _ len o _ =>
      Refused t buffMate c ∨ ¬ Silent hash t buffMate o ∨ rb.freeSize < len

/-! ## The caller -/

variable {hash} {t t' : Table T} {c : CallerOutcome} {dhmpAddr : Address} {ρ : Type*}

theorem callWith_refused (h : Refused t dhmpAddr c) (handler : T → Ending (Table T × ρ)) :
    callWith t dhmpAddr c handler = .value (-1, t, none) := by
  unfold callWith
  rcases h with htrans | hconnected | halloc
  · rw [htrans]
  · cases getTransFromAddr t.client dhmpAddr <;> simp [hconnected]
  · cases getTransFromAddr t.client dhmpAddr <;> simp [halloc]

theorem callWith_accepted (h : ¬ Refused t dhmpAddr c) :
    ∃ rdmaTrans, getTransFromAddr t.client dhmpAddr = some rdmaTrans ∧
      ∀ handler : T → Ending (Table T × ρ), callWith t dhmpAddr c handler =
        (handler rdmaTrans).andThen fun r => .value (0, r.1, some r.2) := by
  simp only [Refused, not_or, Bool.not_eq_false] at h
  obtain ⟨htrans, hconnected, halloc⟩ := h
  obtain ⟨rdmaTrans, hrdmaTrans⟩ := Option.ne_none_iff_exists'.mp htrans
  refine ⟨rdmaTrans, hrdmaTrans, fun handler => ?_⟩
  simp [callWith, hrdmaTrans, hconnected, halloc]

/-- A call is honest if it is refused, or its handler comes back after the transfer. -/
theorem honest_callWith (handler : T → Ending (Table T × ρ)) (transferred : Option ρ → Prop) :
    Honest t transferred (callWith t dhmpAddr c handler) ↔ Refused t dhmpAddr c ∨
      ∃ rdmaTrans t' r, getTransFromAddr t.client dhmpAddr = some rdmaTrans ∧
        handler rdmaTrans = .value (t', r) ∧ transferred (some r) := by
  by_cases hrefused : Refused t dhmpAddr c
  · rw [callWith_refused hrefused]
    exact iff_of_true ⟨by norm_num, rfl⟩ (.inl hrefused)
  · obtain ⟨rdmaTrans, htrans, hcall⟩ := callWith_accepted (ρ := ρ) hrefused
    rw [hcall, or_iff_right hrefused]
    constructor
    · intro h
      cases hhandler : handler rdmaTrans with
      | value r =>
        rw [hhandler] at h
        exact ⟨rdmaTrans, r.1, r.2, htrans, hhandler, h⟩
      | crash | exited | waits => simp [hhandler, Honest] at h
    · rintro ⟨rdmaTrans', t', r, htrans', hhandler, h⟩
      obtain rfl : rdmaTrans = rdmaTrans' := Option.some.inj (htrans.symm.trans htrans')
      rw [hhandler]
      exact h

/-! ## One-sided calls -/

variable {a : TransferArgs} {o : TransferOutcome} {task task' : Task} {code : ℤ}

/-- The task has completed if everything was obtained, whatever stands for a request that is
not posted. -/
theorem rdma_eq_some {unposted : Ending (ℤ × Option Task)}
    (hunposted : ∀ code task', unposted ≠ .value (code, some task')) :
    ((rdmaTaskCreate task o.toSetupOutcome).andThen fun
      | none => .value (-1, none)
      | some task =>
        if o.posted then if o.status = .SUCCESS then .value (0, some task) else .waits
        else unposted) = .value (code, some task') ↔ Moves o ∧ code = 0 ∧ task' = task := by
  obtain ⟨⟨smrOk, regOk, taskOk⟩, posted, status⟩ := o
  rw [moves_iff]
  unfold rdmaTaskCreate
  by_cases hstatus : status = .SUCCESS <;> cases taskOk <;> cases smrOk <;> cases regOk <;>
    cases posted <;> simp [hstatus, hunposted, eq_comm]

theorem rdmaRead_eq_some :
    rdmaRead task o = .value (code, some task') ↔ Moves o ∧ code = 0 ∧ task' = task :=
  rdma_eq_some (fun _ _ h => by simp at h)

theorem rdmaWrite_eq_some :
    rdmaWrite task o = .value (code, some task') ↔ Moves o ∧ code = 0 ∧ task' = task :=
  rdma_eq_some (fun _ _ h => by cases h)

/-- A length is passed on as an `int` and used as 32 bits. -/
theorem cInt_emod (n : ℕ) : cInt n % 2 ^ 32 = n ↔ n < 2 ^ 32 := by
  unfold cInt
  rw [Int.bmod_def]
  split_ifs <;> omega

theorem requested_taskCreate {info : ℕ} {i : AddrInfo} (isWrite : Bool)
    (hlookup : lookup hash t.client a.dhmpAddr = some (info, i)) :
    Requested hash t isWrite a (OneSided.taskCreate (workOf isWrite a) info i.nvmMr) ↔
      a.count.toNat < 2 ^ 32 := by
  have hlength : (OneSided.taskCreate (workOf isWrite a) info i.nvmMr).length =
      cInt a.count.toNat := by
    simp only [OneSided.taskCreate, workOf]
  rw [← cInt_emod, ← hlength]
  constructor
  · intro h
    exact h.length
  · intro h
    exact ⟨rfl, rfl, h, info, i, hlookup, rfl, rfl⟩

/-- A handler comes back without an entry, or from an entry whose `write_flag` is clear. -/
theorem entry_eq_value {entry : Option (ℕ × AddrInfo)} {missing : Ending ρ}
    {run : ℕ → AddrInfo → Ending ρ} {r : ρ} :
    (match entry with
      | none => missing
      | some (info, i) => if i.writeFlag then .waits else run info i) = .value r ↔
      entry = none ∧ missing = .value r ∨
        ∃ info i, entry = some (info, i) ∧ i.writeFlag = false ∧ run info i = .value r := by
  cases entry with
  | none => simp
  | some p =>
    obtain ⟨info, i⟩ := p
    cases hflag : i.writeFlag <;> simp [hflag]

/-- The task that completes is the one created for the entry. -/
theorem readWorkHandler_eq_some :
    (∃ t', readWorkHandler hash t a o = .value (t', some task)) ↔
      ∃ info i, lookup hash t.client a.dhmpAddr = some (info, i) ∧ i.writeFlag = false ∧
        Moves o ∧ task = OneSided.taskCreate (workOf false a) info i.nvmMr := by
  unfold readWorkHandler
  constructor
  · rintro ⟨t', hread⟩
    obtain ⟨-, hnone⟩ | ⟨info, i, hlookup, hflag, hrun⟩ := entry_eq_value.mp hread
    · cases hnone
    · obtain ⟨⟨code, moved⟩, hresult, hvalue⟩ := Ending.andThen_eq_value.mp hrun
      obtain ⟨-, rfl⟩ : _ ∧ moved = some task := by simpa using hvalue
      obtain ⟨hmoves, -, htask⟩ := rdmaRead_eq_some.mp hresult
      exact ⟨info, i, hlookup, hflag, hmoves, htask⟩
  · rintro ⟨info, i, hlookup, hflag, hmoves, rfl⟩
    exact ⟨_, entry_eq_value.mpr (.inr ⟨info, i, hlookup, hflag, Ending.andThen_eq_value.mpr
      ⟨_, rdmaRead_eq_some.mpr ⟨hmoves, rfl, rfl⟩, rfl⟩⟩)⟩

theorem writeWorkHandler_eq_some :
    (∃ t', writeWorkHandler hash t a o = .value (t', some task)) ↔
      ∃ info i, lookup hash t.client a.dhmpAddr = some (info, i) ∧ i.writeFlag = false ∧
        Moves o ∧ task = OneSided.taskCreate (workOf true a) info i.nvmMr := by
  unfold writeWorkHandler
  constructor
  · rintro ⟨t', hwrite⟩
    obtain ⟨-, hnone⟩ | ⟨info, i, hlookup, hflag, hrun⟩ := entry_eq_value.mp hwrite
    · cases hnone
    · obtain ⟨⟨code, moved⟩, hresult, hvalue⟩ := Ending.andThen_eq_value.mp hrun
      cases moved with
      | none => cases hvalue
      | some task' =>
        obtain ⟨-, rfl⟩ : _ ∧ task' = task := by simpa [writeDone] using hvalue
        obtain ⟨hmoves, -, htask⟩ := rdmaWrite_eq_some.mp hresult
        exact ⟨info, i, hlookup, hflag, hmoves, htask⟩
  · rintro ⟨info, i, hlookup, hflag, hmoves, rfl⟩
    exact ⟨_, entry_eq_value.mpr (.inr ⟨info, i, hlookup, hflag, Ending.andThen_eq_value.mpr
      ⟨_, rdmaWrite_eq_some.mpr ⟨hmoves, rfl, rfl⟩, rfl⟩⟩)⟩

/-- The condition of the two one-sided calls. -/
theorem honest_transfer {isWrite : Bool} {handler : Ending (Table T × Option Task)}
    (h : ∀ task, (∃ t', handler = .value (t', some task)) ↔
      ∃ info i, lookup hash t.client a.dhmpAddr = some (info, i) ∧ i.writeFlag = false ∧
        Moves o ∧ task = OneSided.taskCreate (workOf isWrite a) info i.nvmMr) :
    Honest t (fun r => ∃ task, r = some (some task) ∧ Requested hash t isWrite a task)
        (callWith t a.dhmpAddr c fun _ => handler) ↔
      Refused t a.dhmpAddr c ∨ Free hash t a.dhmpAddr ∧ Moves o ∧ a.count.toNat < 2 ^ 32 := by
  rw [honest_callWith]
  by_cases hrefused : Refused t a.dhmpAddr c
  · exact iff_of_true (.inl hrefused) (.inl hrefused)
  rw [or_iff_right hrefused, or_iff_right hrefused]
  constructor
  · rintro ⟨-, t', r, -, hhandler, task, hr, hrequested⟩
    obtain rfl := Option.some.inj hr
    obtain ⟨info, i, hlookup, hflag, hmoves, rfl⟩ := (h task).mp ⟨t', hhandler⟩
    exact ⟨⟨info, i, hlookup, hflag⟩, hmoves, (requested_taskCreate isWrite hlookup).mp hrequested⟩
  · rintro ⟨⟨info, i, hlookup, hflag⟩, hmoves, hcount⟩
    obtain ⟨rdmaTrans, htrans, -⟩ := callWith_accepted (ρ := Unit) hrefused
    obtain ⟨t', hhandler⟩ := (h _).mpr ⟨info, i, hlookup, hflag, hmoves, rfl⟩
    exact ⟨rdmaTrans, t', _, htrans, hhandler, _, rfl,
      (requested_taskCreate isWrite hlookup).mpr hcount⟩

/-! ## The messages of `dhmp_send` -/

section Messages

/-- The frame of a posted message arrives if it fits the receive buffer. -/
theorem deliver_postSend (sendMr : SendMr) (buffer : ℕ → UInt8) {msg : Msg} {post : PostOutcome}
    {r : RecvMsg} :
    (∃ frame, postSend sendMr msg post = .value frame ∧ deliver frame buffer = some r) ↔
      post = .posted ∧ msg.frame.length ≤ SINGLE_NORM_RECV_REGION ∧
        r = received buffer msg.frame := by
  have hregion : SINGLE_NORM_RECV_REGION ≤ SEND_REGION_SIZE := by decide
  have hsent : (TwoSided.dhmpPostSend sendMr msg .posted).2 = some msg.frame := by
    simp only [TwoSided.dhmpPostSend, sentFrame_eq]
  constructor
  · rintro ⟨frame, hpost, hdeliver⟩
    cases post with
    | noTask =>
      cases hpost
      cases hdeliver
    | notPosted =>
      simp only [postSend] at hpost
      split_ifs at hpost
      cases hpost
      cases hdeliver
    | posted =>
      simp only [postSend, hsent] at hpost
      split_ifs at hpost
      cases hpost
      simp only [deliver] at hdeliver
      split_ifs at hdeliver with hlong
      exact ⟨rfl, not_lt.mp hlong, (Option.some.inj hdeliver).symm⟩
  · rintro ⟨rfl, hfits, rfl⟩
    refine ⟨some msg.frame, ?_, ?_⟩
    · simp only [postSend, hsent]
      rw [if_neg (not_lt.mpr (hfits.trans hregion))]
    · simp only [deliver]
      rw [if_neg (not_lt.mpr hfits)]

theorem parses_of_fits {msg : Msg} (h : msg.frame.length ≤ SINGLE_NORM_RECV_REGION)
    (buffer : ℕ → UInt8) : ParsesTo (received buffer msg.frame) msg := by
  apply parsesTo_frame
  have hlen := msg.length_frame
  have hsmall : SINGLE_NORM_RECV_REGION < 2 ^ 64 := by decide
  omega

variable {w : TwoSided.Work T} {addr : Address} {pad : Vector UInt8 7}

/-- The request of a read is short, its reply is not; a write has it the other way round. -/
theorem length_reply {client server : ℕ → UInt8} {r : RecvMsg} (hlength : w.length < 2 ^ 64)
    (hr : ParsesTo r (TwoSided.requestMsg w addr pad client)) :
    (TwoSided.sendRequestHandler server r.data).2.data.length =
      sizeofSendRequest + if w.isWrite then 0 else w.length := by
  obtain ⟨hread, -⟩ := hr.read_request rfl hlength
  unfold TwoSided.sendRequestHandler
  dsimp only
  rw [hread]
  cases hw : w.isWrite <;> simp [TwoSided.requestOf, hw]

theorem length_request {client : ℕ → UInt8} :
    (TwoSided.requestMsg w addr pad client).data.length =
      sizeofSendRequest + if w.isWrite then w.length else 0 := by
  cases hw : w.isWrite <;> simp [TwoSided.requestMsg, hw]

theorem serverReply_eq_some {server server' : ℕ → UInt8} {isWrite : Bool} {request reply : RecvMsg}
    {out : SendOutcome} :
    serverReply server isWrite request out = some (server', reply) ↔
      (isWrite = false → out.serverTempOk = true) ∧ out.reply = .posted ∧
        (TwoSided.sendRequestHandler server request.data).2.frame.length ≤
          SINGLE_NORM_RECV_REGION ∧
        server' = (TwoSided.sendRequestHandler server request.data).1 ∧
        reply = received out.clientBuffer
          (TwoSided.sendRequestHandler server request.data).2.frame := by
  unfold serverReply
  generalize TwoSided.sendRequestHandler server request.data = handled
  constructor
  · intro h
    split_ifs at h with htemp
    dsimp only at h
    cases hpost : postSend out.serverMr handled.2 out.reply with
    | value frame =>
      simp only [hpost, Option.map_eq_some_iff, Prod.mk.injEq] at h
      obtain ⟨r, hdeliver, hserver, rfl⟩ := h
      obtain ⟨hposted, hfits, hr⟩ := (deliver_postSend ..).mp ⟨frame, hpost, hdeliver⟩
      exact ⟨by simpa using htemp, hposted, hfits, hserver.symm, hr⟩
    | crash | exited | waits => simp [hpost] at h
  · rintro ⟨htemp, hposted, hfits, rfl, rfl⟩
    obtain ⟨frame, hpost, hdeliver⟩ :=
      (deliver_postSend out.serverMr out.clientBuffer).mpr ⟨hposted, hfits, rfl⟩
    rw [if_neg (by simpa using htemp)]
    simp [hpost, hdeliver]

/-- The frames of both messages arrive only if the bytes fit behind a request structure. -/
theorem fitsBuffer_of_arrived {server client : ℕ → UInt8} {r : RecvMsg}
    (hlength : w.length < 2 ^ 64) (hr : ParsesTo r (TwoSided.requestMsg w addr pad client))
    (hrequest : (TwoSided.requestMsg w addr pad client).frame.length ≤ SINGLE_NORM_RECV_REGION)
    (hreply : (TwoSided.sendRequestHandler server r.data).2.frame.length ≤
      SINGLE_NORM_RECV_REGION) : FitsBuffer w := by
  have hreplied := @length_reply T w addr pad client server r hlength hr
  rw [Msg.length_frame, length_request] at hrequest
  rw [Msg.length_frame, hreplied] at hreply
  unfold FitsBuffer
  cases hw : w.isWrite with
  | true =>
    rw [hw, if_pos rfl] at hrequest
    omega
  | false =>
    rw [hw, if_neg Bool.false_ne_true] at hreply
    omega

theorem exchanged_iff_fitsBuffer (a : SendArgs) (out : SendOutcome) (rdmaTrans : T) :
    Exchanged a out ↔ ((sendWorkOf a rdmaTrans).isWrite = true → out.tempOk = true) ∧
      ((sendWorkOf a rdmaTrans).isWrite = false → out.serverTempOk = true) ∧
      out.request = .posted ∧ out.reply = .posted ∧ FitsBuffer (sendWorkOf a rdmaTrans) := by
  simp only [exchanged_iff, sendWorkOf, FitsBuffer]

variable {m m' : Memories T} {out : SendOutcome}

/-- The request arrives under the condition on its own side. -/
theorem sendRequest_eq_some {r : RecvMsg} :
    sendRequest m w addr out = .value (some r) ↔
      (w.isWrite = true → out.tempOk = true) ∧ out.request = .posted ∧
        (TwoSided.requestMsg w addr out.pad m.client).frame.length ≤ SINGLE_NORM_RECV_REGION ∧
        r = received out.serverBuffer (TwoSided.requestMsg w addr out.pad m.client).frame := by
  unfold sendRequest
  constructor
  · intro h
    split_ifs at h with htemp
    obtain ⟨frame, hpost, hvalue⟩ := Ending.andThen_eq_value.mp h
    have hdeliver : deliver frame out.serverBuffer = some r := by simpa using hvalue
    obtain ⟨hposted, hfits, hr⟩ := (deliver_postSend ..).mp ⟨frame, hpost, hdeliver⟩
    exact ⟨by simpa using htemp, hposted, hfits, hr⟩
  · rintro ⟨htemp, hposted, hfits, rfl⟩
    obtain ⟨frame, hpost, hdeliver⟩ :=
      (deliver_postSend out.clientMr out.serverBuffer).mpr ⟨hposted, hfits, rfl⟩
    rw [if_neg (by simpa using htemp), hpost, Ending.andThen_value, hdeliver]

variable [DecidableEq T]

/-- The two messages come through exactly under the condition, and then both handlers have
done their part. -/
theorem rdmaSend_eq_value (w : TwoSided.Work T) (hlength : w.length < 2 ^ 64) :
    rdmaSend m w addr out = .value m' ↔
      ((w.isWrite = true → out.tempOk = true) ∧ (w.isWrite = false → out.serverTempOk = true) ∧
        out.request = .posted ∧ out.reply = .posted ∧ FitsBuffer w) ∧
      m' = TwoSided.completed w addr m := by
  unfold rdmaSend
  constructor
  · intro h
    obtain ⟨arrived, hsend, hserver⟩ := Ending.andThen_eq_value.mp h
    cases arrived with
    | none => cases hserver
    | some request =>
      obtain ⟨htemp, hposted, hfits, hreq⟩ := sendRequest_eq_some.mp hsend
      have hparses : ParsesTo request _ := hreq ▸ parses_of_fits hfits out.serverBuffer
      cases hreply : serverReply (m.server w.rdmaTrans) w.isWrite request out with
      | none => simp [hreply] at hserver
      | some p =>
        obtain ⟨server, reply⟩ := p
        obtain ⟨hserverTemp, hreplied, hreplyFits, rfl, rfl⟩ := serverReply_eq_some.mp hreply
        have hfit : FitsBuffer w := fitsBuffer_of_arrived hlength hparses hfits hreplyFits
        have hhandled := TwoSided.sendRequestHandler_eq hfit hparses
        rw [hhandled] at hreplyFits hreply
        have hanswered := TwoSided.sendResponseHandler_eq hfit
          (parses_of_fits hreplyFits out.clientBuffer)
        refine ⟨⟨htemp, hserverTemp, hposted, hreplied, hfit⟩, ?_⟩
        simp only [hreply, hanswered, Ending.value.injEq] at hserver
        exact hserver.symm
  · rintro ⟨⟨htemp, hserverTemp, hposted, hreplied, hfit⟩, rfl⟩
    have hrequestFits := not_lt.mp (TwoSided.length_requestMsg hfit addr out.pad m.client).2
    have hreplyFits := not_lt.mp (TwoSided.length_replyMsg hfit addr out.pad m).2
    have hsend : sendRequest m w addr out = .value (some _) :=
      sendRequest_eq_some.mpr ⟨htemp, hposted, hrequestFits, rfl⟩
    have hhandled := TwoSided.sendRequestHandler_eq hfit
      (parses_of_fits hrequestFits out.serverBuffer)
    have hanswered := TwoSided.sendResponseHandler_eq hfit
      (parses_of_fits hreplyFits out.clientBuffer)
    have hreply := serverReply_eq_some.mpr ⟨hserverTemp, hreplied,
      (show (TwoSided.sendRequestHandler (m.server w.rdmaTrans) (received out.serverBuffer
        (TwoSided.requestMsg w addr out.pad m.client).frame).data).2.frame.length ≤ _ by
          rwa [hhandled]), rfl, rfl⟩
    rw [hhandled] at hreply
    simp only [hsend, hreply, hanswered, Ending.andThen_value]
    rfl

theorem sendWorkHandler_eq_value (w : TwoSided.Work T) {r : Memories T} :
    (∃ t', sendWorkHandler hash t m w out = .value (t', r)) ↔
      ∃ info i, lookup hash t.client w.dhmpAddr = some (info, i) ∧ i.writeFlag = false ∧
        rdmaSend m w i.nvmMr.addr out = .value r := by
  unfold sendWorkHandler
  constructor
  · rintro ⟨t', hhandler⟩
    obtain ⟨-, hnone⟩ | ⟨info, i, hlookup, hflag, hrun⟩ := entry_eq_value.mp hhandler
    · cases hnone
    · obtain ⟨m', hsend, hvalue⟩ := Ending.andThen_eq_value.mp hrun
      obtain ⟨-, rfl⟩ : _ ∧ m' = r := by simpa using hvalue
      exact ⟨info, i, hlookup, hflag, hsend⟩
  · rintro ⟨info, i, hlookup, hflag, hsend⟩
    exact ⟨_, entry_eq_value.mpr (.inr ⟨info, i, hlookup, hflag,
      Ending.andThen_eq_value.mpr ⟨r, hsend, rfl⟩⟩)⟩

/-- The condition of `dhmp_send`. -/
theorem honest_send {a : SendArgs} :
    HonestCall hash t m c (.send a out) ↔
      Refused t a.dhmpAddr c ∨ Free hash t a.dhmpAddr ∧ Exchanged a out := by
  simp only [HonestCall, dhmpSend]
  rw [honest_callWith]
  by_cases hrefused : Refused t a.dhmpAddr c
  · exact iff_of_true (.inl hrefused) (.inl hrefused)
  rw [or_iff_right hrefused, or_iff_right hrefused]
  have hlength (rdmaTrans : T) : (sendWorkOf a rdmaTrans).length < 2 ^ 64 := a.length.isLt
  constructor
  · rintro ⟨rdmaTrans, t', r, -, hhandler, -⟩
    obtain ⟨info, i, hlookup, hflag, hsend⟩ := (sendWorkHandler_eq_value _).mp ⟨t', hhandler⟩
    obtain ⟨hexchanged, -⟩ := (rdmaSend_eq_value _ (hlength rdmaTrans)).mp hsend
    exact ⟨⟨info, i, hlookup, hflag⟩, (exchanged_iff_fitsBuffer a out rdmaTrans).mpr hexchanged⟩
  · rintro ⟨⟨info, i, hlookup, hflag⟩, hexchanged⟩
    obtain ⟨rdmaTrans, htrans, -⟩ := callWith_accepted (ρ := Unit) hrefused
    rw [exchanged_iff_fitsBuffer a out rdmaTrans] at hexchanged
    have hsend : rdmaSend m (sendWorkOf a rdmaTrans) i.nvmMr.addr out = .value _ :=
      (rdmaSend_eq_value _ (hlength rdmaTrans)).mpr ⟨hexchanged, rfl⟩
    obtain ⟨t', hhandler⟩ := (sendWorkHandler_eq_value (sendWorkOf a rdmaTrans)).mpr
      ⟨info, i, hlookup, hflag, hsend⟩
    exact ⟨rdmaTrans, t', _, htrans, hhandler, _, rdmaTrans, info, i, rfl, htrans, hlookup,
      TwoSided.effect_completed⟩

end Messages

/-! ## The remote `rd_pointer` -/

theorem rdmaRead_eq_none :
    (∃ code, rdmaRead task o = .value (code, none)) ↔
      o.taskOk = false ∨ o.smrOk = true ∧ o.regOk = true ∧ o.posted = false := by
  obtain ⟨⟨smrOk, regOk, taskOk⟩, posted, status⟩ := o
  unfold rdmaRead rdmaTaskCreate
  by_cases hstatus : status = .SUCCESS <;> cases taskOk <;> cases smrOk <;> cases regOk <;>
    cases posted <;> simp [hstatus]

/-- A read that comes back without a task is silent. -/
theorem readWorkHandler_eq_none :
    (∃ t', readWorkHandler hash t a o = .value (t', none)) ↔ Silent hash t a.dhmpAddr o := by
  unfold readWorkHandler Silent
  constructor
  · rintro ⟨t', hread⟩
    obtain ⟨hmissing, -⟩ | ⟨info, i, hlookup, hflag, hrun⟩ := entry_eq_value.mp hread
    · exact .inl hmissing
    · obtain ⟨⟨code, moved⟩, hresult, hvalue⟩ := Ending.andThen_eq_value.mp hrun
      obtain ⟨-, rfl⟩ : _ ∧ moved = none := by simpa using hvalue
      exact .inr ⟨⟨info, i, hlookup, hflag⟩, rdmaRead_eq_none.mp ⟨code, hresult⟩⟩
  · rintro (hmissing | ⟨⟨info, i, hlookup, hflag⟩, hsilent⟩)
    · exact ⟨t, entry_eq_value.mpr (.inl ⟨hmissing, rfl⟩)⟩
    · obtain ⟨code, hresult⟩ := rdmaRead_eq_none.mpr hsilent
      exact ⟨_, entry_eq_value.mpr (.inr ⟨info, i, hlookup, hflag,
        Ending.andThen_eq_value.mpr ⟨_, hresult, rfl⟩⟩)⟩

variable {rb : RemoteWrites.RemoteInts} {buffMate rdAddr : Address} {len fetched : ℤ}

theorem checks_cached :
    (RemoteWrites.checkRemoteSize rb (some rb.rdPointer) len).2 = true ↔ ¬ rb.freeSize < len := by
  have hself : rb.withRd rb.rdPointer = rb := rfl
  simp [RemoteWrites.checkRemoteSize, hself]

/-- It says yes to the cached `rd_pointer` exactly if the read is silent. -/
theorem honest_checkRemoteSize [DecidableEq T] {m : Memories T} :
    HonestCall hash t m c (.checkRemoteSize rb buffMate rdAddr len o fetched) ↔
      Refused t buffMate c ∨ ¬ Silent hash t buffMate o ∨ rb.freeSize < len := by
  simp only [HonestCall, checkRemoteSize, dhmpRead]
  have haddr : (rdPointerArgs buffMate rdAddr).dhmpAddr = buffMate := rfl
  have hcount : (rdPointerArgs buffMate rdAddr).count.toNat < 2 ^ 32 := by
    change (4#64).toNat < 2 ^ 32
    decide
  rw [haddr]
  by_cases hrefused : Refused t buffMate c
  · rw [callWith_refused hrefused]
    refine iff_of_true ?_ (.inl hrefused)
    intro moved h
    simp [RemoteWrites.checkRemoteSize] at h
  obtain ⟨rdmaTrans, -, hcall⟩ := callWith_accepted (ρ := Option Task) hrefused
  rw [hcall, or_iff_right hrefused]
  have hnone := @readWorkHandler_eq_none T hash t (rdPointerArgs buffMate rdAddr) o
  have hsome := @readWorkHandler_eq_some T hash t (rdPointerArgs buffMate rdAddr) o
  rw [haddr] at hnone
  generalize rdPointerArgs buffMate rdAddr = args at hnone hsome haddr hcount
  cases hread : readWorkHandler hash t args o with
  | value r =>
    obtain ⟨t', moved⟩ := r
    rw [hread] at hnone hsome
    cases moved with
    | none =>
      have hsilent : Silent hash t buffMate o := hnone.mp ⟨t', rfl⟩
      rw [or_iff_right (not_not.mpr hsilent), ← not_iff_not, ← checks_cached]
      simp
    | some task =>
      refine iff_of_true ?_ (.inl fun hsilent => ?_)
      · intro moved h
        obtain ⟨info, i, hlookup, -, -, rfl⟩ := hsome.mp ⟨t', rfl⟩
        simp only [Ending.andThen_value, Option.join_some, Ending.value.injEq, Prod.mk.injEq] at h
        exact ⟨_, h.2.symm, (requested_taskCreate false hlookup).mpr hcount⟩
      · obtain ⟨t'', hread'⟩ := hnone.mpr hsilent
        simp at hread'
  | crash | exited | waits =>
    refine iff_of_true ?_ (.inl fun hsilent => ?_)
    · intro moved h
      cases h
    · obtain ⟨t', hread'⟩ := hnone.mpr hsilent
      simp [hread] at hread'

/-! ## All calls -/

end Calls

/-! ## An address that is not in the table -/

/-- A client that is connected to node 0 and has allocated nothing. -/
def emptyClient : Client Unit where
  connectTrans := fun i => if i.val = 0 then some () else none
  addrInfos := []
  addrInfoHt := fun _ => []
  distinct := by decide

def emptyTable : Table Unit := ⟨emptyClient, fun _ => 0, fun _ => 0⟩

def allOk : TransferOutcome := ⟨⟨true, true, true⟩, true, .SUCCESS⟩

theorem not_refused_empty : ¬ Refused emptyTable 0 ⟨true, true⟩ := by
  have hbits : nodeBits (0#64) = 0 := by
    unfold nodeBits
    decide
  rintro (htrans | hconnected | halloc)
  · simp [getTransFromAddr, hbits, emptyTable, emptyClient] at htrans
  · cases hconnected
  · cases halloc

theorem not_free_empty (hash : Address → BitVec 32) : ¬ Free hash emptyTable 0 := by
  rintro ⟨info, i, hlookup, -⟩
  cases hlookup

def noBytes : Memories Unit := ⟨fun _ => 0, fun _ _ => 0⟩

def sendsOk : SendOutcome where
  tempOk := true
  request := .posted
  serverTempOk := true
  reply := .posted
  pad := Vector.replicate 7 0
  clientMr := ⟨0, fun _ => 0⟩
  serverMr := ⟨0, fun _ => 0⟩
  serverBuffer := fun _ => 0
  clientBuffer := fun _ => 0

def emptyRing : RemoteWrites.RemoteInts := ⟨0, 0, 64, by decide⟩

end RdmaMiddleware.CallResults
