import RdmaMiddleware.Framing
import RdmaMiddleware.OneSided

/-!
# Two-sided operations

`dhmp_send` moves the bytes of a read or a write inside messages. The work thread posts a
request and spins until the handler of the reply has set `recv_flag`; the server handles the
request on its own memory. The transport delivers the frames that are posted once, unchanged
and in order. `done_flag`, on which the caller spins, is set twice for each work.
-/
namespace RdmaMiddleware.TwoSided
open CInt CircularMemory AddressTable Framing TransitionSystem
open OneSided (setWriteFlag FlagsHeld)

/-! ## State -/

/-- What `dhmp_send` is called with. `task` is where its `dhmp_send_work` lies on the stack. -/
structure Call where
  dhmpAddr : Address
  localBuf : Address
  length : ℕ
  isWrite : Bool
  task : Address

/-- `dhmp_send_work`, without its two flags. -/
structure Work (T : Type*) extends Call where
  rdmaTrans : T

/-- The memory of the client and of the server behind each transport. -/
structure Memories (T : Type*) where
  client : ℕ → UInt8
  server : T → ℕ → UInt8

/-- A `dhmp_send` that spins on its `done_flag`; `before` is the memory when it was called. -/
structure Caller (T : Type*) where
  work : Work T
  before : Memories T

/-- A call that has returned. -/
structure Record (T : Type*) where
  work : Work T
  before : Memories T
  after : Memories T

/-- The work thread takes no work, spins in `dhmp_rdma_send`, or has set `done_flag` there
and not yet at the end of `dhmp_send_work_handler`. -/
inductive Worker (T : Type*)
  | idle
  | sending (info : ℕ) (work : Work T)
  | leaving (info : ℕ) (task : Address)

/-- A work that is `none` has been freed. `requests` and `replies` are the frames in flight on
each transport. `lost` says that a message has not been posted or not been delivered. -/
structure State (T : Type*) where
  client : Client T
  mem : Memories T
  caller : Option (Caller T)
  works : List (Option (Work T))
  worker : Worker T
  recvFlag : Address → Bool
  doneFlag : Address → Bool
  clientMr : T → SendMr
  serverMr : T → SendMr
  requests : T → List (List UInt8)
  replies : T → List (List UInt8)
  lost : Bool
  history : List (Record T)

/-- `malloc` of the task fails, `ibv_post_send` fails, or neither. -/
inductive PostOutcome
  | noTask
  | notPosted
  | posted

section Steps
variable {T : Type*}

/-- The address whose `write_flag` the work thread has set. -/
def Worker.info : Worker T → Option ℕ
  | .idle => none
  | .sending info _ => some info
  | .leaving info _ => some info

/-- The work that `dhmp_rdma_send` is busy with. -/
def Worker.work : Worker T → Option (Work T)
  | .sending _ w => some w
  | _ => none

/-- `dhmp_post_send` on a connected transport, with the frame that is on its way. -/
def dhmpPostSend (sendMr : SendMr) (m : Msg) : PostOutcome → SendMr × Option (List UInt8)
  | .noTask => (sendMr, none)
  | .notPosted => ((sendTaskCreate sendMr m).1, none)
  | .posted => ((sendTaskCreate sendMr m).1, some (sentFrame sendMr m))

/-- The structure that `dhmp_rdma_send` fills in. -/
def requestOf (w : Work T) (serverAddr : Address) (pad : Vector UInt8 7) : SendRequest where
  reqSize := w.length
  serverAddr := serverAddr
  task := w.task
  localAddr := w.localBuf
  isWrite := w.isWrite
  pad := pad

def requestMsg (w : Work T) (serverAddr : Address) (pad : Vector UInt8 7)
    (client : ℕ → UInt8) : Msg where
  msgType := .SEND_REQUEST
  data := (requestOf w serverAddr pad).encode ++
    if w.isWrite then readBytes client w.localBuf.toNat w.length else []

/-- `dhmp_send_request_handler` on the server's memory, with the reply. -/
def sendRequestHandler (server data : ℕ → UInt8) : (ℕ → UInt8) × Msg :=
  let response := SendRequest.read data
  let serverAddr := response.serverAddr.toNat
  if response.isWrite then
    (writeBytes server serverAddr (readBytes data sizeofSendRequest response.reqSize),
      ⟨.SEND_RESPONSE, response.encode⟩)
  else (server, ⟨.SEND_RESPONSE, response.encode ++ readBytes server serverAddr response.reqSize⟩)

/-- `dhmp_send_response_handler` on the client's memory, with the task to be flagged. -/
def sendResponseHandler (client data : ℕ → UInt8) : (ℕ → UInt8) × Address :=
  let response := SendRequest.read data
  (if response.isWrite then client
    else writeBytes client response.localAddr.toNat
      (readBytes data sizeofSendRequest response.reqSize), response.task)

variable [DecidableEq T]

/-- Put a frame on its way, if there is one. -/
def transmit (net : T → List (List UInt8)) (t : T) : Option (List UInt8) → T → List (List UInt8)
  | some frame => Function.update net t (net t ++ [frame])
  | none => net

inductive Action (T : Type*)
  | call (c : Call) (allocOk : Bool)
  /-- The processes compute while no call is under way. -/
  | compute (mem : Memories T)
  | start (pad : Vector UInt8 7) (tempOk : Bool) (o : PostOutcome)
  /-- The next request is put into a receive buffer and handled. -/
  | serverRecv (t : T) (buffer : ℕ → UInt8) (tempOk : Bool) (o : PostOutcome)
  | clientRecv (t : T) (buffer : ℕ → UInt8)
  /-- `dhmp_rdma_send` sees `recv_flag` and sets `done_flag`. -/
  | sent
  /-- The end of `dhmp_send_work_handler`. -/
  | leave
  | ret

/-- `dhmp_send` up to the spinning; otherwise it returns -1. -/
def call (s : State T) (c : Call) (allocOk : Bool) : Option (State T) :=
  match s.caller with
  | some _ => none
  | none =>
    match getTransFromAddr s.client c.dhmpAddr with
    | some t =>
      if allocOk then
        let w : Work T := { c with rdmaTrans := t }
        some { s with
          caller := some ⟨w, s.mem⟩
          works := s.works ++ [some w]
          recvFlag := Function.update s.recvFlag c.task false
          doneFlag := Function.update s.doneFlag c.task false }
      else some s
    | none => some s

/-- `dhmp_send_work_handler` and `dhmp_rdma_send` up to the spinning. Without an `addr_info`
a NULL pointer is followed, as it is when `malloc` fails for the message of a write. -/
def start (hash : Address → BitVec 32) (s : State T) (pad : Vector UInt8 7) (tempOk : Bool)
    (o : PostOutcome) : Option (State T) :=
  match s.worker, s.works with
  | .idle, some w :: rest =>
    match getAddrInfoFromHt s.client (hashInClient hash w.dhmpAddr) w.dhmpAddr with
    | none => none
    | some info =>
      match s.client.addrInfos[info]? with
      | none => none
      | some i =>
        if i.writeFlag || w.isWrite && !tempOk then none
        else
          let m := requestMsg w i.nvmMr.addr pad s.mem.client
          let (sendMr, frame) := dhmpPostSend (s.clientMr w.rdmaTrans) m o
          some { s with
            client := setWriteFlag s.client info true
            works := rest
            worker := .sending info w
            clientMr := Function.update s.clientMr w.rdmaTrans sendMr
            requests := transmit s.requests w.rdmaTrans frame
            lost := s.lost || frame.isNone }
  | _, _ => none

/-- A frame that is longer than the buffer ends in an error completion. -/
def serverRecv (s : State T) (t : T) (buffer : ℕ → UInt8) (tempOk : Bool) (o : PostOutcome) :
    Option (State T) :=
  match s.requests t with
  | [] => none
  | frame :: rest =>
    let s := { s with requests := Function.update s.requests t rest }
    if SINGLE_NORM_RECV_REGION < frame.length then some { s with lost := true }
    else
      let msg := received buffer frame
      match msg.msgType with
      | some .SEND_REQUEST =>
        if !(SendRequest.read msg.data).isWrite && !tempOk then none
        else
          let (server, reply) := sendRequestHandler (s.mem.server t) msg.data
          let (sendMr, frame) := dhmpPostSend (s.serverMr t) reply o
          some { s with
            mem := { s.mem with server := Function.update s.mem.server t server }
            serverMr := Function.update s.serverMr t sendMr
            replies := transmit s.replies t frame
            lost := s.lost || frame.isNone }
      | _ => some s

def clientRecv (s : State T) (t : T) (buffer : ℕ → UInt8) : Option (State T) :=
  match s.replies t with
  | [] => none
  | frame :: rest =>
    let s := { s with replies := Function.update s.replies t rest }
    if SINGLE_NORM_RECV_REGION < frame.length then some { s with lost := true }
    else
      let msg := received buffer frame
      match msg.msgType with
      | some .SEND_RESPONSE =>
        let (client, task) := sendResponseHandler s.mem.client msg.data
        some { s with
          mem := { s.mem with client := client }
          recvFlag := Function.update s.recvFlag task true }
      | _ => some s

def sent (s : State T) : Option (State T) :=
  match s.worker with
  | .sending info w =>
    if s.recvFlag w.task then some { s with
      worker := .leaving info w.task
      doneFlag := Function.update s.doneFlag w.task true }
    else none
  | _ => none

def leave (s : State T) : Option (State T) :=
  match s.worker with
  | .leaving info task => some { s with
      client := setWriteFlag s.client info false
      worker := .idle
      doneFlag := Function.update s.doneFlag task true }
  | _ => none

/-- `dhmp_send` sees its `done_flag`, frees its work and returns 0. -/
def ret (s : State T) : Option (State T) :=
  match s.caller with
  | some cal =>
    if s.doneFlag cal.work.task then some { s with
      caller := none
      works := s.works.map fun _ => none
      history := s.history ++ [⟨cal.work, cal.before, s.mem⟩] }
    else none
  | none => none

def step (hash : Address → BitVec 32) (s : State T) : Action T → Option (State T)
  | .call c allocOk => call s c allocOk
  | .compute mem =>
    match s.caller with
    | none => some { s with mem := mem }
    | some _ => none
  | .start pad tempOk o => start hash s pad tempOk o
  | .serverRecv t buffer tempOk o => serverRecv s t buffer tempOk o
  | .clientRecv t buffer => clientRecv s t buffer
  | .sent => sent s
  | .leave => leave s
  | .ret => ret s

/-- A client that has allocated `as`, with the send regions anywhere. -/
def sendSystem (hash : Address → BitVec 32) (c : Client T) (as : List Alloc) :
    System (State T) (Action T) where
  init := fun s => s.client = (mallocs hash c as).1 ∧ s.caller = none ∧ s.works = [] ∧
    s.worker = .idle ∧ s.requests = (fun _ => []) ∧ s.replies = (fun _ => []) ∧
    s.lost = false ∧ s.history = []
  step := step hash

/-! ## The property -/

/-- The first `length` bytes are moved to or from the memory at `addr` of the server, and
no other byte changes. -/
structure Effect (w : Work T) (addr : ℕ) (m m' : Memories T) : Prop where
  moved : ∀ j < w.length,
    if w.isWrite then m'.server w.rdmaTrans (addr + j) = m.client (w.localBuf.toNat + j)
    else m'.client (w.localBuf.toNat + j) = m.server w.rdmaTrans (addr + j)
  other_server : ∀ t c, (w.isWrite = true → t = w.rdmaTrans → c < addr ∨ addr + w.length ≤ c) →
    m'.server t c = m.server t c
  other_client : ∀ c, (w.isWrite = false →
    c < w.localBuf.toNat ∨ w.localBuf.toNat + w.length ≤ c) → m'.client c = m.client c

/-- The work goes to the region of the allocation `a`. -/
structure Addresses (c : Client T) (as : List Alloc) (w : Work T) (a : Alloc) : Prop where
  mem : a ∈ as
  packed_eq : packed a = w.dhmpAddr
  trans_eq : c.connectTrans a.node = some w.rdmaTrans

/-- Some run returns from the call. -/
def Returns (hash : Address → BitVec 32) (c : Client T) (as : List Alloc) (s : State T)
    (cal : Caller T) : Prop :=
  ∃ actions t, run (sendSystem hash c as) (fun _ _ => true) s actions = some t ∧
    t.caller = none ∧ t.history = s.history ++ [⟨cal.work, cal.before, t.mem⟩]

structure Correct (hash : Address → BitVec 32) (c : Client T) (as : List Alloc) (s : State T) :
    Prop where
  /-- Every call that has returned has had its effect. -/
  effects : ∀ r ∈ s.history, ∃ a, Addresses c as r.work a ∧
    Effect r.work a.mr.addr.toNat r.before r.after
  /-- A reply in flight belongs to the call that is under way. -/
  matched : ∀ t, ∀ frame ∈ s.replies t, ∀ buffer, ∃ cal, s.caller = some cal ∧
    cal.work.rdmaTrans = t ∧ (SendRequest.read (received buffer frame).data).task = cal.work.task
  /-- The call under way can return, if all messages have been posted. -/
  returns : s.lost = false → ∀ cal, s.caller = some cal → Returns hash c as s cal

/-- Calls on allocated addresses whose frames fit a receive buffer. -/
def Fits (hash : Address → BitVec 32) (c : Client T) (as : List Alloc) (_ : State T) :
    Action T → Prop
  | .call call _ => call.dhmpAddr ∈ (mallocs hash c as).2 ∧
      sizeofMsgType + sizeofSizeT + sizeofSendRequest + call.length ≤ SINGLE_NORM_RECV_REGION
  | _ => True

/-- The work thread is not about to set `done_flag` again where the new work lies. -/
def TaskFree (s : State T) : Action T → Prop
  | .call call _ => ∀ info, s.worker ≠ .leaving info call.task
  | _ => True

end Steps

/-! ## The two handlers -/

section Messages
variable {T : Type*} {w : Work T} {addr : Address} {pad : Vector UInt8 7} {m : Memories T}

/-- The frames of a call fit a receive buffer. -/
def FitsBuffer (w : Work T) : Prop :=
  sizeofMsgType + sizeofSizeT + sizeofSendRequest + w.length ≤ SINGLE_NORM_RECV_REGION

theorem FitsBuffer.length_lt (h : FitsBuffer w) : w.length < 2 ^ 64 := by
  have hle : 4 + 8 + 40 + w.length ≤ 64 * 1024 := h
  omega

/-- The reply to a request. -/
def replyMsg (w : Work T) (addr : Address) (pad : Vector UInt8 7) (m : Memories T) : Msg where
  msgType := .SEND_RESPONSE
  data := (requestOf w addr pad).encode ++
    if w.isWrite then [] else readBytes (m.server w.rdmaTrans) addr.toNat w.length

theorem length_requestMsg (h : FitsBuffer w) (addr : Address) (pad : Vector UInt8 7)
    (client : ℕ → UInt8) :
    (requestMsg w addr pad client).data.length < 2 ^ 64 ∧
      ¬ SINGLE_NORM_RECV_REGION < (requestMsg w addr pad client).frame.length := by
  have hle : 4 + 8 + 40 + w.length ≤ 64 * 1024 := h
  have hlength : (requestMsg w addr pad client).data.length ≤ sizeofSendRequest + w.length := by
    rw [requestMsg, List.length_append, SendRequest.length_encode]
    split_ifs <;> simp
  rw [Msg.length_frame]
  simp only [sizeofMsgType, sizeofSizeT, sizeofSendRequest, SINGLE_NORM_RECV_REGION] at hlength ⊢
  omega

theorem length_replyMsg (h : FitsBuffer w) (addr : Address) (pad : Vector UInt8 7)
    (m : Memories T) :
    (replyMsg w addr pad m).data.length < 2 ^ 64 ∧
      ¬ SINGLE_NORM_RECV_REGION < (replyMsg w addr pad m).frame.length := by
  have hle : 4 + 8 + 40 + w.length ≤ 64 * 1024 := h
  have hlength : (replyMsg w addr pad m).data.length ≤ sizeofSendRequest + w.length := by
    rw [replyMsg, List.length_append, SendRequest.length_encode]
    split_ifs <;> simp
  rw [Msg.length_frame]
  simp only [sizeofMsgType, sizeofSizeT, sizeofSendRequest, SINGLE_NORM_RECV_REGION] at hlength ⊢
  omega

/-- The server's memory after the request. -/
def serverAfter (w : Work T) (addr : Address) (m : Memories T) : ℕ → UInt8 :=
  if w.isWrite then writeBytes (m.server w.rdmaTrans) addr.toNat
    (readBytes m.client w.localBuf.toNat w.length)
  else m.server w.rdmaTrans

/-- The client's memory after the reply. -/
def clientAfter (w : Work T) (addr : Address) (m : Memories T) : ℕ → UInt8 :=
  if w.isWrite then m.client
  else writeBytes m.client w.localBuf.toNat
    (readBytes (m.server w.rdmaTrans) addr.toNat w.length)

theorem sendRequestHandler_eq (h : FitsBuffer w) {r : RecvMsg}
    (hr : ParsesTo r (requestMsg w addr pad m.client)) :
    sendRequestHandler (m.server w.rdmaTrans) r.data =
      (serverAfter w addr m, replyMsg w addr pad m) := by
  obtain ⟨hread, hrest⟩ := hr.read_request rfl h.length_lt
  unfold sendRequestHandler serverAfter replyMsg
  dsimp only
  rw [hread]
  cases hw : w.isWrite with
  | true =>
    rw [if_pos hw, length_readBytes] at hrest
    simp only [requestOf, hw, if_true, hrest, List.append_nil]
  | false => simp [requestOf, hw]

theorem sendResponseHandler_eq (h : FitsBuffer w) {r : RecvMsg}
    (hr : ParsesTo r (replyMsg w addr pad m)) :
    sendResponseHandler m.client r.data = (clientAfter w addr m, w.task) := by
  obtain ⟨hread, hrest⟩ := hr.read_request rfl h.length_lt
  unfold sendResponseHandler clientAfter
  dsimp only
  rw [hread]
  cases hw : w.isWrite with
  | true => simp [requestOf, hw]
  | false =>
    rw [hw, if_neg Bool.false_ne_true, length_readBytes] at hrest
    simp only [requestOf, hw, Bool.false_eq_true, if_false, hrest]

variable [DecidableEq T]

/-- The memory after the request. -/
def handled (w : Work T) (addr : Address) (m : Memories T) : Memories T where
  client := m.client
  server := Function.update m.server w.rdmaTrans (serverAfter w addr m)

/-- The memory after the reply. -/
def completed (w : Work T) (addr : Address) (m : Memories T) : Memories T where
  client := clientAfter w addr m
  server := Function.update m.server w.rdmaTrans (serverAfter w addr m)

/-- What the two handlers together have done. -/
theorem effect_completed : Effect w addr.toNat m (completed w addr m) := by
  unfold completed
  refine ⟨fun j hj => ?_, fun t c hc => ?_, fun c hc => ?_⟩
  · dsimp only
    split_ifs with hw
    · rw [Function.update_self, serverAfter, if_pos hw, writeBytes_add _ _ _ _ (by simpa using hj)]
      simp [readBytes]
    · rw [clientAfter, if_neg hw, writeBytes_add _ _ _ _ (by simpa using hj)]
      simp [readBytes]
  · dsimp only
    by_cases ht : t = w.rdmaTrans
    · subst ht
      rw [Function.update_self, serverAfter]
      split_ifs with hw
      · rcases hc hw rfl with hlt | hge
        · exact writeBytes_of_lt _ _ _ _ hlt
        · exact writeBytes_of_ge _ _ _ _ (by simpa using hge)
      · rfl
    · rw [Function.update_of_ne ht]
  · dsimp only
    rw [clientAfter]
    split_ifs with hw
    · rfl
    · rcases hc (by simpa using hw) with hlt | hge
      · exact writeBytes_of_lt _ _ _ _ hlt
      · exact writeBytes_of_ge _ _ _ _ (by simpa using hge)

end Messages

/-! ## One call -/

section Stages
variable {T : Type*} [DecidableEq T]

/-- One frame on its way on one transport. -/
def only (t : T) (frame : List UInt8) : T → List (List UInt8) :=
  Function.update (fun _ => []) t [frame]

theorem transmit_posted {net : T → List (List UInt8)} (h : net = fun _ => []) {t : T}
    {sendMr : SendMr} {m : Msg} :
    transmit net t (dhmpPostSend sendMr m .posted).2 = only t m.frame := by
  dsimp only [dhmpPostSend, transmit]
  rw [h, sentFrame_eq]
  rfl

theorem only_eq_cons {t u : T} {frame frame' : List UInt8} {rest : List (List UInt8)}
    (h : only t frame u = frame' :: rest) : u = t ∧ frame' = frame ∧ rest = [] := by
  unfold only at h
  by_cases hu : u = t
  · subst hu
    rw [Function.update_self, List.cons.injEq] at h
    exact ⟨rfl, h.1.symm, h.2.symm⟩
  · rw [Function.update_of_ne hu] at h
    cases h

theorem update_only (t : T) (frame : List UInt8) :
    Function.update (only t frame) t [] = fun _ => [] := by
  unfold only
  rw [Function.update_idem]
  exact Function.update_eq_self t _

/-- Handling a message leaves the threads of the client and its table alone. -/
structure Frame (s t : State T) : Prop where
  client : t.client = s.client
  caller : t.caller = s.caller
  works : t.works = s.works
  worker : t.worker = s.worker
  doneFlag : t.doneFlag = s.doneFlag
  history : t.history = s.history

/-- How far the messages of a call have come. -/
inductive Exchange (s : State T) (cal : Caller T) (addr : Address) : Prop
  | lost (hlost : s.lost = true) (hflag : s.recvFlag cal.work.task = false)
      (hreq : s.requests = fun _ => []) (hrep : s.replies = fun _ => []) : Exchange s cal addr
  | requested (pad : Vector UInt8 7) (hmem : s.mem = cal.before)
      (hflag : s.recvFlag cal.work.task = false)
      (hreq : s.requests = only cal.work.rdmaTrans
        (requestMsg cal.work addr pad cal.before.client).frame)
      (hrep : s.replies = fun _ => []) : Exchange s cal addr
  | replied (pad : Vector UInt8 7)
      (hmem : s.mem = handled cal.work addr cal.before)
      (hflag : s.recvFlag cal.work.task = false) (hreq : s.requests = fun _ => [])
      (hrep : s.replies = only cal.work.rdmaTrans (replyMsg cal.work addr pad cal.before).frame) :
      Exchange s cal addr
  | answered (hmem : s.mem = completed cal.work addr cal.before)
      (hflag : s.recvFlag cal.work.task = true) (hreq : s.requests = fun _ => [])
      (hrep : s.replies = fun _ => []) : Exchange s cal addr

variable {s t : State T} {cal : Caller T} {addr : Address} {pad : Vector UInt8 7}

/-- The server handles the request. -/
theorem serverRecv_eq (hfit : FitsBuffer cal.work) (hmem : s.mem = cal.before)
    (hreq : s.requests = only cal.work.rdmaTrans
      (requestMsg cal.work addr pad cal.before.client).frame)
    (buffer : ℕ → UInt8) (tempOk : Bool) (o : PostOutcome) :
    serverRecv s cal.work.rdmaTrans buffer tempOk o =
      if !cal.work.isWrite && !tempOk then none
      else
        let out := dhmpPostSend (s.serverMr cal.work.rdmaTrans)
          (replyMsg cal.work addr pad cal.before) o
        some { s with
          requests := fun _ => []
          mem := handled cal.work addr cal.before
          serverMr := Function.update s.serverMr cal.work.rdmaTrans out.1
          replies := transmit s.replies cal.work.rdmaTrans out.2
          lost := s.lost || out.2.isNone } := by
  obtain ⟨hlt, hshort⟩ := length_requestMsg hfit addr pad cal.before.client
  have hparse := parsesTo_frame hlt buffer
  have htype : (requestMsg cal.work addr pad cal.before.client).msgType = .SEND_REQUEST := rfl
  have hread := (hparse.read_request rfl hfit.length_lt).1
  have hwrite : (requestOf cal.work addr pad).isWrite = cal.work.isWrite := rfl
  have hhandle := sendRequestHandler_eq hfit hparse
  have hnext : s.requests cal.work.rdmaTrans =
      [(requestMsg cal.work addr pad cal.before.client).frame] := by
    rw [hreq]
    exact Function.update_self ..
  unfold serverRecv
  rw [hnext]
  dsimp only
  rw [if_neg hshort, hparse.msg_type, hreq, update_only, hmem, htype]
  simp only [hread, hwrite, hhandle]
  rfl

/-- The client handles the reply. -/
theorem clientRecv_eq (hfit : FitsBuffer cal.work)
    (hmem : s.mem = handled cal.work addr cal.before)
    (hrep : s.replies = only cal.work.rdmaTrans (replyMsg cal.work addr pad cal.before).frame)
    (buffer : ℕ → UInt8) :
    clientRecv s cal.work.rdmaTrans buffer = some { s with
      replies := fun _ => []
      mem := completed cal.work addr cal.before
      recvFlag := Function.update s.recvFlag cal.work.task true } := by
  obtain ⟨hlt, hshort⟩ := length_replyMsg hfit addr pad cal.before
  have hparse := parsesTo_frame hlt buffer
  have htype : (replyMsg cal.work addr pad cal.before).msgType = .SEND_RESPONSE := rfl
  have hhandle := sendResponseHandler_eq hfit hparse
  have hclient : (handled cal.work addr cal.before).client = cal.before.client := rfl
  have hnext : s.replies cal.work.rdmaTrans = [(replyMsg cal.work addr pad cal.before).frame] := by
    rw [hrep]
    exact Function.update_self ..
  unfold clientRecv
  rw [hnext]
  dsimp only
  rw [if_neg hshort, hparse.msg_type, hrep, update_only, hmem, htype]
  simp only [hclient, hhandle]
  rfl

/-- Only the request of the call can be received, and then the messages have moved on. -/
theorem Exchange.serverRecv (h : Exchange s cal addr) (hfit : FitsBuffer cal.work) {u : T}
    {buffer : ℕ → UInt8} {tempOk : Bool} {o : PostOutcome}
    (ht : TwoSided.serverRecv s u buffer tempOk o = some t) :
    Exchange t cal addr ∧ Frame s t := by
  have hnext : s.requests u ≠ [] := by
    intro hnil
    unfold TwoSided.serverRecv at ht
    rw [hnil] at ht
    cases ht
  cases h with
  | lost _ _ hreq _ => exact absurd (congrFun hreq u) hnext
  | replied _ _ _ hreq _ => exact absurd (congrFun hreq u) hnext
  | answered _ _ hreq _ => exact absurd (congrFun hreq u) hnext
  | requested pad hmem hflag hreq hrep =>
    obtain ⟨frame, rest, hcons⟩ := List.exists_cons_of_ne_nil hnext
    rw [hreq] at hcons
    obtain ⟨rfl, -, -⟩ := only_eq_cons hcons
    rw [serverRecv_eq hfit hmem hreq] at ht
    split_ifs at ht
    cases ht
    refine ⟨?_, ⟨rfl, rfl, rfl, rfl, rfl, rfl⟩⟩
    cases o with
    | posted => exact .replied pad rfl hflag rfl (transmit_posted hrep)
    | _ => exact .lost (by simp [dhmpPostSend]) hflag rfl hrep

theorem Exchange.clientRecv (h : Exchange s cal addr) (hfit : FitsBuffer cal.work) {u : T}
    {buffer : ℕ → UInt8} (ht : TwoSided.clientRecv s u buffer = some t) :
    Exchange t cal addr ∧ Frame s t := by
  have hnext : s.replies u ≠ [] := by
    intro hnil
    unfold TwoSided.clientRecv at ht
    rw [hnil] at ht
    cases ht
  cases h with
  | lost _ _ _ hrep => exact absurd (congrFun hrep u) hnext
  | requested _ _ _ _ hrep => exact absurd (congrFun hrep u) hnext
  | answered _ _ _ hrep => exact absurd (congrFun hrep u) hnext
  | replied pad hmem hflag hreq hrep =>
    obtain ⟨frame, rest, hcons⟩ := List.exists_cons_of_ne_nil hnext
    rw [hrep] at hcons
    obtain ⟨rfl, -, -⟩ := only_eq_cons hcons
    rw [clientRecv_eq hfit hmem hrep] at ht
    cases ht
    exact ⟨.answered rfl (Function.update_self ..) hreq rfl, ⟨rfl, rfl, rfl, rfl, rfl, rfl⟩⟩

end Stages

/-! ## All calls -/

section Runs
variable {T : Type*} [DecidableEq T] {hash : Address → BitVec 32} {c : Client T} {as : List Alloc}
  {s t : State T}

omit [DecidableEq T] in
theorem tabled_setWriteFlag {c : Client T} (h : Tabled hash c as) (info : ℕ) (flag : Bool) :
    Tabled hash (setWriteFlag c info flag) as where
  infos := by
    rw [← h.infos]
    apply List.ext_getElem?
    intro i
    rw [List.getElem?_map, List.getElem?_map, setWriteFlag]
    dsimp only
    by_cases hi : info = i
    · subst hi
      rw [List.getElem?_modify_eq]
      cases c.addrInfos[info]? <;> rfl
    · rw [List.getElem?_modify_ne _ _ hi]
  mem_iff := h.mem_iff
  newest_first := h.newest_first

/-- Where the work thread stands with the call under way. -/
inductive Stage (s : State T) (cal : Caller T) (addr : Address) : Prop
  | queued (hmem : s.mem = cal.before) (hworks : s.works = [some cal.work])
      (hworker : s.worker.work = none) (hfree : ∀ info, s.worker ≠ .leaving info cal.work.task)
      (hflag : s.recvFlag cal.work.task = false) (hdone : s.doneFlag cal.work.task = false) :
      Stage s cal addr
  | sending (hworks : s.works = []) (info : ℕ) (hworker : s.worker = .sending info cal.work)
      (hdone : s.doneFlag cal.work.task = false) (h : Exchange s cal addr) : Stage s cal addr
  | done (hmem : s.mem = completed cal.work addr cal.before) (hworks : s.works = [])
      (hworker : s.worker.work = none) (hdone : s.doneFlag cal.work.task = true) :
      Stage s cal addr

structure SendInv (hash : Address → BitVec 32) (c : Client T) (as : List Alloc) (s : State T) :
    Prop where
  table : Tabled hash s.client as
  trans : s.client.connectTrans = c.connectTrans
  flags : FlagsHeld s.client s.worker.info
  quiet : s.worker.work = none → s.requests = (fun _ => []) ∧ s.replies = fun _ => []
  idle : s.caller = none → s.works = [] ∧ s.worker.work = none
  stage : ∀ cal, s.caller = some cal → FitsBuffer cal.work ∧
    ∃ a, Addresses c as cal.work a ∧ Stage s cal a.mr.addr
  effects : ∀ r ∈ s.history, ∃ a, Addresses c as r.work a ∧
    Effect r.work a.mr.addr.toNat r.before r.after

namespace SendInv

theorem init (hfresh : Fresh c) (hok : ∀ a ∈ as, Succeeds c a)
    (h : (sendSystem hash c as).init s) : SendInv hash c as s := by
  obtain ⟨hclient, hcaller, hworks, hworker, hreq, hrep, -, hhistory⟩ := h
  obtain ⟨htable, htrans, -⟩ := @mallocs_spec T _ hash c as hfresh hok
  exact {
    table := by rw [hclient]; exact htable
    trans := by rw [hclient]; exact htrans
    flags := by
      rw [hworker, hclient]
      intro i x hx
      exact mallocs_writeFlag hfresh as x (List.mem_of_getElem? hx)
    quiet := fun _ => ⟨hreq, hrep⟩
    idle := fun _ => ⟨hworks, by rw [hworker]; rfl⟩
    stage := by simp [hcaller]
    effects := by simp [hhistory] }

theorem call (hfresh : Fresh c) (hok : ∀ a ∈ as, Succeeds c a) (h : SendInv hash c as s)
    {call : Call} {allocOk : Bool} (hc : Fits hash c as s (.call call allocOk))
    (hfree : TaskFree s (.call call allocOk)) (ht : TwoSided.call s call allocOk = some t) :
    SendInv hash c as t := by
  cases hcaller : s.caller with
  | some cal =>
    unfold TwoSided.call at ht
    rw [hcaller] at ht
    cases ht
  | none =>
    obtain ⟨hworks, hworker⟩ := h.idle hcaller
    unfold TwoSided.call at ht
    rw [hcaller] at ht
    dsimp only at ht
    split at ht
    · rename_i rdmaTrans htrans
      split_ifs at ht
      · cases ht
        obtain ⟨hmem, hfit⟩ := hc
        rw [(@mallocs_spec T _ hash c as hfresh hok).2.2] at hmem
        obtain ⟨a, ha, hpacked⟩ := List.mem_map.mp hmem
        rw [← hpacked, getTransFromAddr_packed (hok a ha).addr_lt, h.trans] at htrans
        exact {
          table := h.table
          trans := h.trans
          flags := h.flags
          quiet := h.quiet
          idle := by
            intro hnone
            cases hnone
          stage := by
            rintro cal ⟨⟩
            refine ⟨hfit, a, ⟨ha, hpacked, htrans⟩, .queued rfl ?_ hworker hfree
              (Function.update_self ..) (Function.update_self ..)⟩
            rw [hworks]
            rfl
          effects := h.effects }
      · cases ht
        exact h
    · cases ht
      exact h

/-- The state after the work of the call under way has been taken. -/
theorem start_eq (hok : ∀ a ∈ as, Succeeds c a) (h : SendInv hash c as s) {w : Work T}
    {rest : List (Option (Work T))} (hworker : s.worker = .idle)
    (hworks : s.works = some w :: rest) {a : Alloc} (haddr : Addresses c as w a)
    (pad : Vector UInt8 7) (tempOk : Bool) (o : PostOutcome) :
    ∃ i, start hash s pad tempOk o =
      if w.isWrite && !tempOk then none
      else
        let out := dhmpPostSend (s.clientMr w.rdmaTrans)
          (requestMsg w a.mr.addr pad s.mem.client) o
        some { s with
          client := setWriteFlag s.client i true
          works := rest
          worker := .sending i w
          clientMr := Function.update s.clientMr w.rdmaTrans out.1
          requests := transmit s.requests w.rdmaTrans out.2
          lost := s.lost || out.2.isNone } := by
  obtain ⟨i, info, hfound, hinfo, heq⟩ := h.table.find_addr haddr.mem (hok a haddr.mem).addr_lt
  rw [haddr.packed_eq] at hfound
  have hflag : info.writeFlag = false := by
    have hheld := h.flags i info hinfo
    rw [hworker] at hheld
    exact hheld
  refine ⟨i, ?_⟩
  unfold start
  simp only [hworker, hworks, hfound, hinfo, hflag, heq, Bool.false_or]

theorem start (hok : ∀ a ∈ as, Succeeds c a) (h : SendInv hash c as s) {pad : Vector UInt8 7}
    {tempOk : Bool} {o : PostOutcome} (ht : TwoSided.start hash s pad tempOk o = some t) :
    SendInv hash c as t := by
  -- a work is only there for the call under way
  have htaken : s.worker = .idle ∧ s.works ≠ [] := by
    unfold TwoSided.start at ht
    split at ht
    · rename_i hworker hworks
      exact ⟨hworker, by rw [hworks]; exact List.cons_ne_nil _ _⟩
    · cases ht
  obtain ⟨hworker, hne⟩ := htaken
  cases hcaller : s.caller with
  | none => exact absurd (h.idle hcaller).1 hne
  | some cal =>
    obtain ⟨hfit, a, haddr, hstage⟩ := h.stage cal hcaller
    cases hstage with
    | sending hworks _ _ _ _ => exact absurd hworks hne
    | done _ hworks _ _ => exact absurd hworks hne
    | queued hmem hworks hnone hfree hflag hdone =>
      obtain ⟨hreq, hrep⟩ := h.quiet hnone
      obtain ⟨i, hstart⟩ := h.start_eq hok hworker hworks haddr pad tempOk o
      rw [hstart] at ht
      split_ifs at ht
      cases ht
      exact {
        table := tabled_setWriteFlag h.table i true
        trans := h.trans
        flags := by
          have hflags := h.flags
          rw [hworker] at hflags
          exact hflags.set i
        quiet := by
          intro hsome
          cases hsome
        idle := by
          intro hsome
          rw [hcaller] at hsome
          cases hsome
        stage := by
          intro cal' hcal
          obtain rfl := Option.some.inj (hcaller.symm.trans hcal)
          refine ⟨hfit, a, haddr, .sending rfl i rfl hdone ?_⟩
          cases o with
          | posted =>
            refine .requested pad hmem hflag ?_ hrep
            rw [← hmem]
            exact transmit_posted hreq
          | _ => exact .lost (by simp [dhmpPostSend]) hflag hreq hrep
        effects := h.effects }

/-- While `dhmp_rdma_send` is busy, it is so with the call under way. -/
theorem exchanging (h : SendInv hash c as s) (hbusy : s.worker.work ≠ none) :
    ∃ cal info a, s.caller = some cal ∧ s.worker = .sending info cal.work ∧ s.works = [] ∧
      s.doneFlag cal.work.task = false ∧ FitsBuffer cal.work ∧ Addresses c as cal.work a ∧
      Exchange s cal a.mr.addr := by
  cases hcaller : s.caller with
  | none => exact absurd (h.idle hcaller).2 hbusy
  | some cal =>
    obtain ⟨hfit, a, haddr, hstage⟩ := h.stage cal hcaller
    cases hstage with
    | queued _ _ hnone _ _ _ => exact absurd hnone hbusy
    | done _ _ hnone _ => exact absurd hnone hbusy
    | sending hworks info hworker hdone hexchange =>
      exact ⟨cal, info, a, rfl, hworker, hworks, hdone, hfit, haddr, hexchange⟩

theorem of_message (h : SendInv hash c as s)
    (hmessage : ¬ (s.requests = (fun _ => []) ∧ s.replies = fun _ => []))
    (hmoves : ∀ cal addr, FitsBuffer cal.work → Exchange s cal addr →
      Exchange t cal addr ∧ Frame s t) : SendInv hash c as t := by
  obtain ⟨cal, info, a, hcaller, hworker, hworks, hdone, hfit, haddr, hexchange⟩ :=
    h.exchanging fun hnone => hmessage (h.quiet hnone)
  obtain ⟨hexchange', hframe⟩ := hmoves cal _ hfit hexchange
  exact {
    table := by rw [hframe.client]; exact h.table
    trans := by rw [hframe.client]; exact h.trans
    flags := by rw [hframe.client, hframe.worker]; exact h.flags
    quiet := by
      rw [hframe.worker, hworker]
      intro hnone
      cases hnone
    idle := by
      rw [hframe.caller, hcaller]
      intro hnone
      cases hnone
    stage := by
      rw [hframe.caller, hcaller]
      rintro _ ⟨⟩
      exact ⟨hfit, a, haddr, .sending (hframe.works.trans hworks) info
        (hframe.worker.trans hworker) (by rw [hframe.doneFlag]; exact hdone) hexchange'⟩
    effects := by rw [hframe.history]; exact h.effects }

theorem serverRecv (h : SendInv hash c as s) {u : T} {buffer : ℕ → UInt8} {tempOk : Bool}
    {o : PostOutcome} (ht : TwoSided.serverRecv s u buffer tempOk o = some t) :
    SendInv hash c as t := by
  refine h.of_message ?_ fun cal addr hfit hexchange => hexchange.serverRecv hfit ht
  rintro ⟨hreq, -⟩
  unfold TwoSided.serverRecv at ht
  rw [hreq] at ht
  cases ht

theorem clientRecv (h : SendInv hash c as s) {u : T} {buffer : ℕ → UInt8}
    (ht : TwoSided.clientRecv s u buffer = some t) : SendInv hash c as t := by
  refine h.of_message ?_ fun cal addr hfit hexchange => hexchange.clientRecv hfit ht
  rintro ⟨-, hrep⟩
  unfold TwoSided.clientRecv at ht
  rw [hrep] at ht
  cases ht

theorem sent (h : SendInv hash c as s) (ht : TwoSided.sent s = some t) :
    SendInv hash c as t := by
  unfold TwoSided.sent at ht
  split at ht
  · rename_i info w hworker
    split_ifs at ht with hflag
    cases ht
    obtain ⟨cal, info', a, hcaller, hworker', hworks, -, hfit, haddr, hexchange⟩ :=
      h.exchanging (by rw [hworker]; exact Option.some_ne_none w)
    obtain ⟨rfl, rfl⟩ := Worker.sending.inj (hworker.symm.trans hworker')
    cases hexchange with
    | lost _ hfalse _ _ => rw [hfalse] at hflag; cases hflag
    | requested _ _ hfalse _ _ => rw [hfalse] at hflag; cases hflag
    | replied _ _ hfalse _ _ => rw [hfalse] at hflag; cases hflag
    | answered hmem _ hreq hrep =>
      exact {
        table := h.table
        trans := h.trans
        flags := by
          have hflags := h.flags
          rw [hworker] at hflags
          exact hflags
        quiet := fun _ => ⟨hreq, hrep⟩
        idle := by
          intro hnone
          rw [hcaller] at hnone
          cases hnone
        stage := by
          intro cal' hcal
          obtain rfl := Option.some.inj (hcaller.symm.trans hcal)
          exact ⟨hfit, a, haddr, .done hmem hworks rfl (Function.update_self ..)⟩
        effects := h.effects }
  · cases ht

theorem leave (h : SendInv hash c as s) (ht : TwoSided.leave s = some t) :
    SendInv hash c as t := by
  unfold TwoSided.leave at ht
  split at ht
  · rename_i info task hworker
    cases ht
    have hnone : s.worker.work = none := by rw [hworker]; rfl
    exact {
      table := tabled_setWriteFlag h.table info false
      trans := h.trans
      flags := by
        have hflags := h.flags
        rw [hworker] at hflags
        exact hflags.clear
      quiet := fun _ => h.quiet hnone
      idle := fun hcaller => ⟨(h.idle hcaller).1, rfl⟩
      stage := by
        intro cal hcaller
        obtain ⟨hfit, a, haddr, hstage⟩ := h.stage cal hcaller
        refine ⟨hfit, a, haddr, ?_⟩
        cases hstage with
        | queued hmem hworks _ hfree hflag hdone =>
          have hne : cal.work.task ≠ task := by
            rintro rfl
            exact hfree info hworker
          refine .queued hmem hworks rfl ?_ hflag ((Function.update_of_ne hne ..).trans hdone)
          intro info' hleaving
          cases hleaving
        | sending _ info' hworker' _ _ => exact absurd (hworker.symm.trans hworker') (by simp)
        | done hmem hworks _ hdone =>
          refine .done hmem hworks rfl ?_
          dsimp only
          rw [Function.update_apply, hdone, ite_self]
      effects := h.effects }
  · cases ht

theorem ret (h : SendInv hash c as s) (ht : TwoSided.ret s = some t) : SendInv hash c as t := by
  unfold TwoSided.ret at ht
  split at ht
  · rename_i cal hcaller
    split_ifs at ht with hflag
    cases ht
    obtain ⟨-, a, haddr, hstage⟩ := h.stage cal hcaller
    cases hstage with
    | queued _ _ _ _ _ hdone => rw [hdone] at hflag; cases hflag
    | sending _ _ _ hdone _ => rw [hdone] at hflag; cases hflag
    | done hmem hworks hnone _ =>
      exact {
        table := h.table
        trans := h.trans
        flags := h.flags
        quiet := h.quiet
        idle := fun _ => ⟨by rw [hworks]; rfl, hnone⟩
        stage := by
          intro cal' hsome
          cases hsome
        effects := by
          intro r hr
          rcases List.mem_append.mp hr with hr | hr
          · exact h.effects r hr
          · rw [List.mem_singleton.mp hr]
            refine ⟨a, haddr, ?_⟩
            rw [hmem]
            exact effect_completed }
  · cases ht

theorem of_step (hfresh : Fresh c) (hok : ∀ a ∈ as, Succeeds c a) (h : SendInv hash c as s)
    {action : Action T} (hc : Fits hash c as s action ∧ TaskFree s action)
    (ht : step hash s action = some t) : SendInv hash c as t := by
  cases action with
  | call call allocOk => exact h.call hfresh hok hc.1 hc.2 ht
  | compute mem =>
    simp only [step] at ht
    split at ht
    · rename_i hcaller
      cases ht
      exact { h with
        stage := by
          intro cal hsome
          rw [hcaller] at hsome
          cases hsome }
    · cases ht
  | start pad tempOk o => exact h.start hok ht
  | serverRecv u buffer tempOk o => exact h.serverRecv ht
  | clientRecv u buffer => exact h.clientRecv ht
  | sent => exact h.sent ht
  | leave => exact h.leave ht
  | ret => exact h.ret ht

theorem of_reach (hfresh : Fresh c) (hok : ∀ a ∈ as, Succeeds c a)
    (h : Reach (sendSystem hash c as) (fun s action => Fits hash c as s action ∧
      TaskFree s action) s) : SendInv hash c as s :=
  h.invariant (fun _ h0 => init hfresh hok h0) fun _ _ _ hs hc ht => hs.of_step hfresh hok hc ht

/-! ### A call comes to its end -/

theorem returns_of_step {u : State T} {cal : Caller T} {action : Action T}
    (hstep : step hash s action = some u) (hhistory : u.history = s.history)
    (h : Returns hash c as u cal) : Returns hash c as s cal := by
  obtain ⟨actions, t, hrun, hnone, hret⟩ := h
  refine ⟨action :: actions, t, ?_, hnone, by rw [hret, hhistory]⟩
  simp only [run, sendSystem, if_true, hstep]
  exact hrun

section Ends
variable {cal : Caller T} {addr : Address} {pad : Vector UInt8 7} (hcaller : s.caller = some cal)
include hcaller

theorem returns_of_done (hdone : s.doneFlag cal.work.task = true) : Returns hash c as s cal := by
  refine ⟨[.ret], { s with
    caller := none
    works := s.works.map fun _ => none
    history := s.history ++ [⟨cal.work, cal.before, s.mem⟩] }, ?_, rfl, rfl⟩
  simp only [run, sendSystem, if_true, step, TwoSided.ret, hcaller, hdone]

theorem returns_of_answered {info : ℕ} (hworker : s.worker = .sending info cal.work)
    (hflag : s.recvFlag cal.work.task = true) : Returns hash c as s cal := by
  have hstep : step hash s .sent = some { s with
      worker := .leaving info cal.work.task
      doneFlag := Function.update s.doneFlag cal.work.task true } := by
    simp only [step, TwoSided.sent, hworker, hflag, if_true]
  exact returns_of_step hstep rfl (returns_of_done hcaller (Function.update_self ..))

theorem returns_of_replied {info : ℕ} (hworker : s.worker = .sending info cal.work)
    (hfit : FitsBuffer cal.work) (hmem : s.mem = handled cal.work addr cal.before)
    (hrep : s.replies = only cal.work.rdmaTrans (replyMsg cal.work addr pad cal.before).frame) :
    Returns hash c as s cal := by
  have hstep : step hash s (.clientRecv cal.work.rdmaTrans fun _ => 0) = _ :=
    clientRecv_eq hfit hmem hrep fun _ => 0
  exact returns_of_step hstep rfl
    (returns_of_answered hcaller hworker (Function.update_self ..))

theorem returns_of_requested {info : ℕ} (hworker : s.worker = .sending info cal.work)
    (hfit : FitsBuffer cal.work) (hmem : s.mem = cal.before)
    (hreq : s.requests = only cal.work.rdmaTrans
      (requestMsg cal.work addr pad cal.before.client).frame)
    (hrep : s.replies = fun _ => []) : Returns hash c as s cal := by
  have hstep : step hash s (.serverRecv cal.work.rdmaTrans (fun _ => 0) true .posted) = _ :=
    serverRecv_eq hfit hmem hreq (fun _ => 0) true .posted
  rw [Bool.not_true, Bool.and_false, if_neg Bool.false_ne_true] at hstep
  exact returns_of_step hstep rfl
    (returns_of_replied hcaller hworker hfit rfl (transmit_posted hrep))

theorem returns_of_exchange {info : ℕ} (hworker : s.worker = .sending info cal.work)
    (hfit : FitsBuffer cal.work) (hlost : s.lost = false) (h : Exchange s cal addr) :
    Returns hash c as s cal := by
  cases h with
  | lost htrue => exact absurd (hlost.symm.trans htrue) Bool.false_ne_true
  | requested pad hmem _ hreq hrep =>
    exact returns_of_requested hcaller hworker hfit hmem hreq hrep
  | replied pad hmem _ _ hrep => exact returns_of_replied hcaller hworker hfit hmem hrep
  | answered _ hflag => exact returns_of_answered hcaller hworker hflag

/-- The work thread is free and takes the work. -/
theorem returns_of_idle (hok : ∀ a ∈ as, Succeeds c a) (h : SendInv hash c as s)
    (hworker : s.worker = .idle) (hfit : FitsBuffer cal.work) (hmem : s.mem = cal.before)
    (hworks : s.works = [some cal.work]) {a : Alloc} (haddr : Addresses c as cal.work a) :
    Returns hash c as s cal := by
  obtain ⟨hreq, hrep⟩ := h.quiet (by rw [hworker]; rfl)
  obtain ⟨i, hstart⟩ := h.start_eq hok hworker hworks haddr (Vector.replicate 7 0) true .posted
  rw [Bool.not_true, Bool.and_false, if_neg Bool.false_ne_true, hmem] at hstart
  have hstep : step hash s (.start (Vector.replicate 7 0) true .posted) = _ := hstart
  exact returns_of_step hstep rfl
    (returns_of_requested hcaller rfl hfit rfl (transmit_posted hreq) hrep)

theorem returns (hok : ∀ a ∈ as, Succeeds c a) (h : SendInv hash c as s)
    (hlost : s.lost = false) : Returns hash c as s cal := by
  obtain ⟨hfit, a, haddr, hstage⟩ := h.stage cal hcaller
  cases hstage with
  | done _ _ _ hdone => exact returns_of_done hcaller hdone
  | sending _ info hworker _ hexchange =>
    exact returns_of_exchange hcaller hworker hfit hlost hexchange
  | queued hmem hworks hnone hfree hflag hdone =>
    cases hworker : s.worker with
    | idle => exact returns_of_idle hcaller hok h hworker hfit hmem hworks haddr
    | sending info w =>
      rw [hworker] at hnone
      cases hnone
    | leaving info task =>
      -- the work thread leaves the work before this one
      have hstep : step hash s .leave = some { s with
          client := setWriteFlag s.client info false
          worker := .idle
          doneFlag := Function.update s.doneFlag task true } := by
        simp only [step, TwoSided.leave, hworker]
      exact returns_of_step hstep rfl
        (returns_of_idle hcaller hok (h.leave hstep) rfl hfit hmem hworks haddr)

end Ends

/-- A reply in flight carries the task of the call under way. -/
theorem matched (h : SendInv hash c as s) {u : T} {frame : List UInt8}
    (hframe : frame ∈ s.replies u) (buffer : ℕ → UInt8) :
    ∃ cal, s.caller = some cal ∧ cal.work.rdmaTrans = u ∧
      (SendRequest.read (received buffer frame).data).task = cal.work.task := by
  have hsome : s.replies ≠ fun _ => [] := by
    intro hnil
    rw [hnil] at hframe
    cases hframe
  obtain ⟨cal, info, a, hcaller, -, -, -, hfit, -, hexchange⟩ :=
    h.exchanging fun hnone => hsome (h.quiet hnone).2
  cases hexchange with
  | lost _ _ _ hrep => exact absurd hrep hsome
  | requested _ _ _ _ hrep => exact absurd hrep hsome
  | answered _ _ _ hrep => exact absurd hrep hsome
  | replied pad _ _ _ hrep =>
    obtain ⟨first, rest, hcons⟩ := List.exists_cons_of_ne_nil (List.ne_nil_of_mem hframe)
    rw [hcons] at hframe
    rw [hrep] at hcons
    obtain ⟨rfl, rfl, rfl⟩ := only_eq_cons hcons
    obtain rfl := List.mem_singleton.mp hframe
    have hparse := parsesTo_frame (length_replyMsg hfit a.mr.addr pad cal.before).1 buffer
    refine ⟨cal, hcaller, rfl, ?_⟩
    rw [(hparse.read_request rfl hfit.length_lt).1]
    rfl

theorem correct (hok : ∀ a ∈ as, Succeeds c a) (h : SendInv hash c as s) :
    Correct hash c as s where
  effects := h.effects
  matched := fun _ _ hframe buffer => h.matched hframe buffer
  returns := fun hlost _ hcaller => returns hcaller hok h hlost

end SendInv

end Runs

/-! ## A write and a read -/

def oneAlloc : List Alloc := [nodeOneAlloc]

theorem succeeds_oneAlloc : ∀ a ∈ oneAlloc, Succeeds headClient a := by
  intro a ha
  obtain rfl := List.mem_singleton.mp ha
  exact ⟨by decide, by decide, by decide⟩

/-- The first frame of either side does not fit behind `cur_pos`. -/
def wrapStart : State ℕ where
  client := (mallocs (fun _ => 0) headClient oneAlloc).1
  mem := ⟨fun c => if c = 64 then 7 else 0, fun _ _ => 0⟩
  caller := none
  works := []
  worker := .idle
  recvFlag := fun _ => false
  doneFlag := fun _ => false
  clientMr := fun _ => ⟨SEND_REGION_SIZE - 20, fun _ => 0⟩
  serverMr := fun _ => ⟨SEND_REGION_SIZE - 20, fun _ => 0⟩
  requests := fun _ => []
  replies := fun _ => []
  lost := false
  history := []

theorem reach_wrapStart {cond : State ℕ → Action ℕ → Prop} :
    Reach (sendSystem (fun _ => 0) headClient oneAlloc) cond wrapStart :=
  .start ⟨rfl, rfl, rfl, rfl, rfl, rfl, rfl, rfl⟩

/-- Three bytes of the region, always called from the same frame of the stack. -/
def regionCall (localBuf : Address) (isWrite : Bool) : Call :=
  ⟨packed nodeOneAlloc, localBuf, 3, isWrite, 8⟩

def serve : List (Action ℕ) :=
  [.start (Vector.replicate 7 0) true .posted, .serverRecv 1 (fun _ => 0) true .posted,
    .clientRecv 1 (fun _ => 0), .sent]

def fitsTest (_ : State ℕ) : Action ℕ → Bool
  | .call call _ => call.dhmpAddr ∈ (mallocs (fun _ => 0) headClient oneAlloc).2 ∧
      sizeofMsgType + sizeofSizeT + sizeofSendRequest + call.length ≤ SINGLE_NORM_RECV_REGION
  | _ => true

def taskFreeTest (s : State ℕ) : Action ℕ → Bool
  | .call call _ =>
    match s.worker with
    | .leaving _ task => task ≠ call.task
    | _ => true
  | _ => true

theorem fits_of_test {s : State ℕ} {action : Action ℕ} (h : fitsTest s action = true) :
    Fits (fun _ => 0) headClient oneAlloc s action := by
  cases action with
  | call call allocOk =>
    unfold Fits
    exact of_decide_eq_true h
  | _ => trivial

theorem taskFree_of_test {s : State ℕ} {action : Action ℕ} (h : taskFreeTest s action = true) :
    TaskFree s action := by
  cases action with
  | call call allocOk =>
    intro info hleaving
    unfold taskFreeTest at h
    rw [hleaving] at h
    exact of_decide_eq_true h rfl
  | _ => trivial

theorem both_of_test (s : State ℕ) (action : Action ℕ)
    (h : (fitsTest s action && taskFreeTest s action) = true) :
    Fits (fun _ => 0) headClient oneAlloc s action ∧ TaskFree s action := by
  obtain ⟨hfits, hfree⟩ := Bool.and_eq_true_iff.mp h
  exact ⟨fits_of_test hfits, taskFree_of_test hfree⟩

end RdmaMiddleware.TwoSided
