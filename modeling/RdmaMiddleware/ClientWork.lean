import RdmaMiddleware.Connection

/-!
# Requests and replies of the work thread

`dhmp_malloc`, `dhmp_buff_malloc` and `dhmp_send` queue a work for the one work thread,
whose handler posts a request and spins until the reply's handler has set what it waits
for. `dhmp_post_send` declines silently, the handlers of the two error replies do nothing
and a lost message is only logged, so each of these leaves the thread spinning for ever.
-/
namespace RdmaMiddleware.ClientWork
open TransitionSystem Connection

/-! ## Works and messages -/

inductive WorkData
  | malloc (length : ℕ)
  | buffMalloc
  | send (length : ℕ) (isWrite : Bool)
  deriving DecidableEq

/-- A work for the server at `node`. -/
structure Work where
  id : ℕ
  node : ℕ
  data : WorkData
  deriving DecidableEq

inductive MsgType
  | MALLOC_REQUEST
  | MALLOC_RESPONSE
  | MALLOC_ERROR
  | SEND_REQUEST
  | SEND_RESPONSE
  | BUFF_MALLOC_REQUEST
  | BUFF_MALLOC_RESPONSE
  | BUFF_MALLOC_ERROR
  deriving DecidableEq

/-- Every request carries pointers to its work, and every reply returns them. `mrLength` is
the length of the region in a reply to `dhmp_malloc`. -/
structure Msg where
  msgType : MsgType
  work : Work
  mrLength : ℕ

/-- Where a message is: in flight or in the hands of a handler. -/
inductive Place
  | toServer
  | atServer
  | toClient
  | atClient
  deriving DecidableEq

structure Packet where
  msg : Msg
  place : Place

/-- `waiting` is the work whose handler has posted and spins. The three maps hold what the
handlers wait for: `nvm_mr.length`, `done_flag_recv` and `recv_flag`. `recvBuff` says
which servers have allocated their receive buffer. -/
structure State where
  works : List Work
  next : ℕ
  waiting : Option Work
  nvmLength : ℕ → ℕ
  doneFlagRecv : ℕ → Bool
  recvFlag : ℕ → Bool
  packets : List Packet
  clientTrans : ℕ → TransState
  serverTrans : ℕ → TransState
  recvBuff : ℕ → Bool

/-! ## The client -/

/-- `dhmp_malloc`, `dhmp_buff_malloc` and `dhmp_send` queue a work if the transport is
connected; `dhmp_malloc` rejects the length 0. -/
def call (s : State) (node : ℕ) (data : WorkData) : State :=
  if data ≠ .malloc 0 ∧ s.clientTrans node = .CONNECTED then
    { s with works := s.works ++ [⟨s.next, node, data⟩], next := s.next + 1 }
  else s

/-- `dhmp_post_send`. `posted` says that the task can be created and `ibv_post_send`
succeeds; nobody is told otherwise. -/
def dhmpPostSend (s : State) (trans : TransState) (posted : Bool) (msg : Msg)
    (place : Place) : State :=
  if trans = .CONNECTED ∧ posted = true then { s with packets := s.packets ++ [⟨msg, place⟩] }
  else s

/-- What `dhmp_malloc_work_handler`, `dhmp_buff_malloc_work_handler` and `dhmp_rdma_send`
post. -/
def request (w : Work) : Msg :=
  match w.data with
  | .malloc _ => ⟨.MALLOC_REQUEST, w, 0⟩
  | .buffMalloc => ⟨.BUFF_MALLOC_REQUEST, w, 0⟩
  | .send _ _ => ⟨.SEND_REQUEST, w, 0⟩

/-- What they wait for. -/
def waitOver (s : State) (w : Work) : Bool :=
  match w.data with
  | .malloc _ => s.nvmLength w.id != 0
  | .buffMalloc => s.doneFlagRecv w.id
  | .send _ _ => s.recvFlag w.id

def Work.isSend (w : Work) : Bool :=
  match w.data with
  | .send _ _ => true
  | _ => false

/-- The work thread takes the next work and posts its request. When the address of a
`dhmp_send` is not found, its handler follows a NULL pointer. -/
def startWork (s : State) (found posted : Bool) : Option State :=
  match s.waiting, s.works with
  | none, w :: rest =>
    if w.isSend = true ∧ found = false then none
    else some (dhmpPostSend { s with works := rest, waiting := some w } (s.clientTrans w.node)
      posted (request w) .toServer)
  | _, _ => none

def finishWork (s : State) : Option State :=
  match s.waiting with
  | some w => if waitOver s w then some { s with waiting := none } else none
  | none => none

/-- The handlers of replies. Those of the two errors do nothing. -/
def wcRecvReply (s : State) (msg : Msg) : State :=
  match msg.msgType with
  | .MALLOC_RESPONSE =>
    { s with nvmLength := Function.update s.nvmLength msg.work.id msg.mrLength }
  | .BUFF_MALLOC_RESPONSE =>
    { s with doneFlagRecv := Function.update s.doneFlagRecv msg.work.id true }
  | .SEND_RESPONSE => { s with recvFlag := Function.update s.recvFlag msg.work.id true }
  | _ => s

/-! ## The server -/

/-- `dhmp_malloc_request_handler`; `ok` says that allocation and registration succeed. -/
def mallocRequestHandler (w : Work) (length : ℕ) (ok : Bool) : Msg :=
  if ok then ⟨.MALLOC_RESPONSE, w, length⟩ else ⟨.MALLOC_ERROR, w, 0⟩

/-- `dhmp_malloc_buff_request_handler`: the buffer is allocated once. -/
def mallocBuffRequestHandler (allocated : Bool) (w : Work) (ok : Bool) : Msg × Bool :=
  if allocated || ok then (⟨.BUFF_MALLOC_RESPONSE, w, 0⟩, true)
  else (⟨.BUFF_MALLOC_ERROR, w, 0⟩, false)

/-- The handlers of requests, with the reply to post. -/
def wcRecvRequest (s : State) (msg : Msg) (ok : Bool) : State × Option Msg :=
  match msg.msgType, msg.work.data with
  | .MALLOC_REQUEST, .malloc length => (s, some (mallocRequestHandler msg.work length ok))
  | .BUFF_MALLOC_REQUEST, _ =>
    let (reply, allocated) :=
      mallocBuffRequestHandler (s.recvBuff msg.work.node) msg.work ok
    ({ s with recvBuff := Function.update s.recvBuff msg.work.node allocated }, some reply)
  | .SEND_REQUEST, _ => (s, some ⟨.SEND_RESPONSE, msg.work, 0⟩)
  | _, _ => (s, none)

/-! ## Steps -/

inductive Action
  | call (node : ℕ) (data : WorkData)
  | start (found posted : Bool)
  | finish
  /-- A message is polled from a completion queue. -/
  | receive (k : ℕ)
  | serverHandle (k : ℕ) (ok posted : Bool)
  | clientHandle (k : ℕ)
  /-- A message is lost with its connection; `dhmp_wc_error_handler` only logs that. -/
  | lose (k : ℕ)
  | clientTrans (node : ℕ) (state : TransState)
  | serverTrans (node : ℕ) (state : TransState)

def receive (s : State) (k : ℕ) : Option State :=
  match s.packets[k]? with
  | some ⟨msg, .toServer⟩ => some { s with packets := s.packets.set k ⟨msg, .atServer⟩ }
  | some ⟨msg, .toClient⟩ => some { s with packets := s.packets.set k ⟨msg, .atClient⟩ }
  | _ => none

def serverHandle (s : State) (k : ℕ) (ok posted : Bool) : Option State :=
  match s.packets[k]? with
  | some ⟨msg, .atServer⟩ =>
    match wcRecvRequest { s with packets := s.packets.eraseIdx k } msg ok with
    | (s', some reply) =>
      some (dhmpPostSend s' (s.serverTrans msg.work.node) posted reply .toClient)
    | (s', none) => some s'
  | _ => none

def clientHandle (s : State) (k : ℕ) : Option State :=
  match s.packets[k]? with
  | some ⟨msg, .atClient⟩ => some (wcRecvReply { s with packets := s.packets.eraseIdx k } msg)
  | _ => none

def lose (s : State) (k : ℕ) : Option State :=
  match s.packets[k]? with
  | some ⟨msg, place⟩ =>
    if (place = .toServer ∨ place = .toClient) ∧ (s.clientTrans msg.work.node ≠ .CONNECTED ∨
        s.serverTrans msg.work.node ≠ .CONNECTED) then
      some { s with packets := s.packets.eraseIdx k }
    else none
  | none => none

def step (s : State) : Action → Option State
  | .call node data => some (call s node data)
  | .start found posted => startWork s found posted
  | .finish => finishWork s
  | .receive k => receive s k
  | .serverHandle k ok posted => serverHandle s k ok posted
  | .clientHandle k => clientHandle s k
  | .lose k => lose s k
  | .clientTrans node state =>
    some { s with clientTrans := Function.update s.clientTrans node state }
  | .serverTrans node state =>
    some { s with serverTrans := Function.update s.serverTrans node state }

def start (clientTrans serverTrans : ℕ → TransState) : State where
  works := []
  next := 0
  waiting := none
  nvmLength := fun _ => 0
  doneFlagRecv := fun _ => false
  recvFlag := fun _ => false
  packets := []
  clientTrans := clientTrans
  serverTrans := serverTrans
  recvBuff := fun _ => false

def workSystem : System State Action where
  init := fun s => ∃ clientTrans serverTrans, s = start clientTrans serverTrans
  step := step

/-! ## The property -/

/-- A handler that waits has its request or reply under way, or has what it waits for. -/
def NoAbandonedWaiter (s : State) : Prop :=
  ∀ w, s.waiting = some w → waitOver s w = true ∨ ∃ p ∈ s.packets, p.msg.work = w

/-- Requests and replies are posted on connected transports, none is lost, and no error
reply is handled. -/
def RepliesArrive (s : State) : Action → Prop
  | .start _ posted => ∀ w ∈ s.works.head?, s.clientTrans w.node = .CONNECTED ∧ posted = true
  | .serverHandle k _ posted => ∀ p ∈ s.packets[k]?,
    s.serverTrans p.msg.work.node = .CONNECTED ∧ posted = true
  | .clientHandle k => ∀ p ∈ s.packets[k]?,
    p.msg.msgType ≠ .MALLOC_ERROR ∧ p.msg.msgType ≠ .BUFF_MALLOC_ERROR
  | .lose _ => False
  | _ => True

/-! ## The invariant -/

/-- A message fits the work it is about, and a region that is granted is not empty. -/
def Msg.Ok (msg : Msg) : Prop :=
  match msg.msgType with
  | .MALLOC_REQUEST | .MALLOC_ERROR => ∃ length, msg.work.data = .malloc length
  | .MALLOC_RESPONSE => (∃ length, msg.work.data = .malloc length) ∧ msg.mrLength ≠ 0
  | .BUFF_MALLOC_REQUEST | .BUFF_MALLOC_RESPONSE | .BUFF_MALLOC_ERROR =>
    msg.work.data = .buffMalloc
  | .SEND_REQUEST | .SEND_RESPONSE => ∃ length isWrite, msg.work.data = .send length isWrite

/-- A message from server to client is a reply, one the other way a request. -/
def Packet.Ok (p : Packet) : Prop :=
  p.msg.Ok ∧ p.msg.work.data ≠ .malloc 0 ∧
    ((p.place = .toServer ∨ p.place = .atServer) ↔ p.msg.msgType ∈
      [.MALLOC_REQUEST, .SEND_REQUEST, .BUFF_MALLOC_REQUEST])

structure Inv (s : State) : Prop where
  works_ok : ∀ w ∈ s.works, w.data ≠ .malloc 0
  packets_ok : ∀ p ∈ s.packets, p.Ok
  waiter : NoAbandonedWaiter s

variable {s t : State} {w : Work} {msg : Msg}

theorem request_work (w : Work) : (request w).work = w := by
  unfold request
  split <;> rfl

theorem request_ok (hw : w.data ≠ .malloc 0) : Packet.Ok ⟨request w, .toServer⟩ := by
  refine ⟨?_, by rw [request_work]; exact hw, ?_⟩
  · unfold request Msg.Ok
    cases hd : w.data <;> simp [hd]
  · unfold request
    cases hd : w.data <;> simp

/-- A posted message joins the others; one that is declined leaves no trace. -/
theorem mem_dhmpPostSend {trans : TransState} {posted : Bool} {place : Place} {p : Packet} :
    p ∈ (dhmpPostSend s trans posted msg place).packets ↔ p ∈ s.packets ∨
      (trans = .CONNECTED ∧ posted = true) ∧ p = ⟨msg, place⟩ := by
  unfold dhmpPostSend
  split_ifs with h <;> simp [h]

/-- Every request is answered, whatever the outcome. -/
theorem wcRecvRequest_reply (hmsg : Packet.Ok ⟨msg, .atServer⟩) (ok : Bool) :
    ∃ s' reply, wcRecvRequest s msg ok = (s', some reply) ∧ reply.work = msg.work ∧
      Packet.Ok ⟨reply, .toClient⟩ ∧ s'.works = s.works ∧ s'.packets = s.packets ∧
      s'.waiting = s.waiting ∧ waitOver s' = waitOver s := by
  obtain ⟨hok, hzero, hplace⟩ := hmsg
  have hreq := hplace.mp (.inr rfl)
  obtain ⟨msgType, work, mrLength⟩ := msg
  unfold Msg.Ok at hok
  cases msgType <;> simp at hreq <;> simp only at hok hzero
  · obtain ⟨length, hlength⟩ := hok
    have hne : length ≠ 0 := fun h => hzero (h ▸ hlength)
    refine ⟨s, mallocRequestHandler work length ok, by simp [wcRecvRequest, hlength], ?_, ?_,
      rfl, rfl, rfl, rfl⟩
    · cases ok <;> rfl
    · cases ok <;> simp [mallocRequestHandler, Packet.Ok, Msg.Ok, hlength, hne]
  · obtain ⟨length, isWrite, hdata⟩ := hok
    exact ⟨s, ⟨.SEND_RESPONSE, work, 0⟩, by simp [wcRecvRequest], rfl,
      by simp [Packet.Ok, Msg.Ok, hdata], rfl, rfl, rfl, rfl⟩
  · cases hreply : mallocBuffRequestHandler (s.recvBuff work.node) work ok with
    | mk reply allocated =>
    refine ⟨{ s with recvBuff := Function.update s.recvBuff work.node allocated }, reply,
      by simp only [wcRecvRequest, hreply], ?_, ?_, rfl, rfl, rfl, rfl⟩
    · unfold mallocBuffRequestHandler at hreply
      split_ifs at hreply <;> obtain ⟨rfl, -⟩ := Prod.mk.inj hreply <;> rfl
    · unfold mallocBuffRequestHandler at hreply
      split_ifs at hreply <;> obtain ⟨rfl, -⟩ := Prod.mk.inj hreply <;>
        simp [Packet.Ok, Msg.Ok, hok]

/-- A handler of a reply raises what the reply's work waits for, unless it is an error. -/
theorem waitOver_wcRecvReply (hmsg : Packet.Ok ⟨msg, .atClient⟩)
    (hmalloc : msg.msgType ≠ .MALLOC_ERROR) (hbuff : msg.msgType ≠ .BUFF_MALLOC_ERROR) :
    waitOver (wcRecvReply s msg) msg.work = true := by
  obtain ⟨hok, -, hplace⟩ := hmsg
  have hreply : msg.msgType ∉ [.MALLOC_REQUEST, .SEND_REQUEST, .BUFF_MALLOC_REQUEST] :=
    fun h => by simpa using hplace.mpr h
  obtain ⟨msgType, work, mrLength⟩ := msg
  unfold Msg.Ok at hok
  cases msgType <;> simp at hreply hmalloc hbuff <;> simp only at hok
  · obtain ⟨⟨length, hdata⟩, hlength⟩ := hok
    simp [waitOver, wcRecvReply, hdata, hlength]
  · obtain ⟨length, isWrite, hdata⟩ := hok
    simp [waitOver, wcRecvReply, hdata]
  · simp [waitOver, wcRecvReply, hok]

/-- What a work waits for, once there, stays. -/
theorem waitOver_of_wcRecvReply (hmsg : Packet.Ok ⟨msg, .atClient⟩)
    (hw : waitOver s w = true) : waitOver (wcRecvReply s msg) w = true := by
  obtain ⟨hok, -, -⟩ := hmsg
  obtain ⟨msgType, work, mrLength⟩ := msg
  unfold Msg.Ok at hok
  unfold waitOver at hw ⊢
  cases msgType <;> cases hd : w.data <;> simp only [wcRecvReply, hd] at hw hok ⊢ <;>
    try exact hw
  · by_cases heq : w.id = work.id
    · rw [heq, Function.update_self]
      simpa using hok.2
    · rwa [Function.update_of_ne heq]
  · by_cases heq : w.id = work.id
    · rw [heq, Function.update_self]
    · rwa [Function.update_of_ne heq]
  · by_cases heq : w.id = work.id
    · rw [heq, Function.update_self]
    · rwa [Function.update_of_ne heq]

@[simp] theorem wcRecvReply_works : (wcRecvReply s msg).works = s.works := by
  unfold wcRecvReply
  split <;> rfl

@[simp] theorem wcRecvReply_packets : (wcRecvReply s msg).packets = s.packets := by
  unfold wcRecvReply
  split <;> rfl

@[simp] theorem wcRecvReply_waiting : (wcRecvReply s msg).waiting = s.waiting := by
  unfold wcRecvReply
  split <;> rfl

@[simp] theorem dhmpPostSend_works {trans : TransState} {posted : Bool} {place : Place} :
    (dhmpPostSend s trans posted msg place).works = s.works := by
  unfold dhmpPostSend
  split_ifs <;> rfl

@[simp] theorem dhmpPostSend_waiting {trans : TransState} {posted : Bool} {place : Place} :
    (dhmpPostSend s trans posted msg place).waiting = s.waiting := by
  unfold dhmpPostSend
  split_ifs <;> rfl

@[simp] theorem waitOver_dhmpPostSend {trans : TransState} {posted : Bool} {place : Place} :
    waitOver (dhmpPostSend s trans posted msg place) = waitOver s := by
  unfold dhmpPostSend
  split_ifs <;> rfl

/-- Removing one packet keeps every other one. -/
theorem eq_or_mem_eraseIdx {packets : List Packet} {k : ℕ} {p q : Packet}
    (hq : packets[k]? = some q) (hp : p ∈ packets) : p = q ∨ p ∈ packets.eraseIdx k := by
  obtain ⟨j, hj⟩ := List.mem_iff_getElem?.mp hp
  by_cases hjk : j = k
  · rw [hjk, hq] at hj
    exact .inl (Option.some.inj hj).symm
  · exact .inr (List.mem_eraseIdx_iff_getElem?.mpr ⟨j, hjk, hj⟩)

/-! ## What a step preserves -/

theorem Inv.call (hinv : Inv s) (node : ℕ) (data : WorkData) : Inv (call s node data) := by
  unfold ClientWork.call
  split_ifs with hguard
  · refine ⟨fun w hw => ?_, hinv.packets_ok, hinv.waiter⟩
    rcases List.mem_append.mp hw with hw | hw
    · exact hinv.works_ok w hw
    · rw [List.mem_singleton.mp hw]
      exact hguard.1
  · exact hinv

theorem Inv.startWork (hinv : Inv s) {found posted : Bool}
    (hposted : ∀ w ∈ s.works.head?, s.clientTrans w.node = .CONNECTED ∧ posted = true)
    (h : startWork s found posted = some t) : Inv t := by
  unfold ClientWork.startWork at h
  split at h
  · rename_i w rest hwaiting hworks
    split_ifs at h
    obtain rfl := Option.some.inj h
    have hw : w ∈ s.works := by
      rw [hworks]
      exact List.mem_cons_self
    have hsent := hposted w (by rw [hworks]; rfl)
    refine ⟨fun v hv => ?_, fun p hp => ?_, fun v hv => ?_⟩
    · rw [dhmpPostSend_works] at hv
      refine hinv.works_ok v ?_
      rw [hworks]
      exact List.mem_cons_of_mem w hv
    · rcases mem_dhmpPostSend.mp hp with hp | ⟨-, rfl⟩
      · exact hinv.packets_ok p hp
      · exact request_ok (hinv.works_ok w hw)
    · -- the new waiter's request is the one just posted
      rw [dhmpPostSend_waiting] at hv
      obtain rfl := Option.some.inj hv
      exact .inr ⟨_, mem_dhmpPostSend.mpr (.inr ⟨hsent, rfl⟩), request_work w⟩
  · cases h

theorem Inv.finishWork (hinv : Inv s) (h : finishWork s = some t) : Inv t := by
  unfold ClientWork.finishWork at h
  split at h
  · split_ifs at h
    obtain rfl := Option.some.inj h
    exact ⟨hinv.works_ok, hinv.packets_ok, fun w hw => by cases hw⟩
  · cases h

/-- A message that moves stays about its work. -/
theorem Inv.moved (hinv : Inv s) {k : ℕ} {place place' : Place}
    (hk : s.packets[k]? = some ⟨msg, place⟩)
    (hplace : (place' = .toServer ∨ place' = .atServer) ↔ (place = .toServer ∨ place = .atServer)) :
    Inv { s with packets := s.packets.set k ⟨msg, place'⟩ } := by
  have hold := hinv.packets_ok _ (List.mem_of_getElem? hk)
  have hlt : k < s.packets.length := (List.getElem?_eq_some_iff.mp hk).1
  refine ⟨hinv.works_ok, fun p hp => ?_, fun w hw => ?_⟩
  · rcases List.mem_or_eq_of_mem_set hp with hp | rfl
    · exact hinv.packets_ok p hp
    · exact ⟨hold.1, hold.2.1, hplace.trans hold.2.2⟩
  · rcases hinv.waiter w hw with hover | ⟨p, hp, hpw⟩
    · exact .inl hover
    · obtain ⟨j, hj⟩ := List.mem_iff_getElem?.mp hp
      by_cases hjk : k = j
      · have heq : p = ⟨msg, place⟩ := by
          rw [← hjk, hk] at hj
          exact (Option.some.inj hj).symm
        exact .inr ⟨⟨msg, place'⟩, List.mem_set hlt _, by rw [← hpw, heq]⟩
      · refine .inr ⟨p, List.mem_of_getElem? (i := j) ?_, hpw⟩
        rwa [List.getElem?_set_ne hjk]

theorem Inv.receive (hinv : Inv s) {k : ℕ} (h : receive s k = some t) : Inv t := by
  unfold ClientWork.receive at h
  split at h
  · rename_i hk
    exact Option.some.inj h ▸ hinv.moved hk (by simp)
  · rename_i hk
    exact Option.some.inj h ▸ hinv.moved hk (by simp)
  · cases h

/-- The server answers about the work it was asked about. -/
theorem Inv.serverHandle (hinv : Inv s) {k : ℕ} {ok posted : Bool}
    (hposted : ∀ p ∈ s.packets[k]?, s.serverTrans p.msg.work.node = .CONNECTED ∧ posted = true)
    (h : serverHandle s k ok posted = some t) : Inv t := by
  unfold ClientWork.serverHandle at h
  split at h
  · rename_i msg hk
    have hsent := hposted _ hk
    obtain ⟨s', reply, hreply, hwork, hok, hworks, hpackets, hwaiting, hover⟩ :=
      wcRecvRequest_reply (s := { s with packets := s.packets.eraseIdx k })
        (hinv.packets_ok _ (List.mem_of_getElem? hk)) ok
    rw [hreply] at h
    obtain rfl := Option.some.inj h
    refine ⟨fun w hw => ?_, fun p hp => ?_, fun w hw => ?_⟩
    · rw [dhmpPostSend_works, hworks] at hw
      exact hinv.works_ok w hw
    · rcases mem_dhmpPostSend.mp hp with hp | ⟨-, rfl⟩
      · rw [hpackets] at hp
        exact hinv.packets_ok p (List.mem_of_mem_eraseIdx hp)
      · exact hok
    · rw [dhmpPostSend_waiting, hwaiting] at hw
      rcases hinv.waiter w hw with hdone | ⟨p, hp, hpw⟩
      · left
        rw [waitOver_dhmpPostSend, hover]
        exact hdone
      · right
        rcases eq_or_mem_eraseIdx hk hp with rfl | hp
        · exact ⟨_, mem_dhmpPostSend.mpr (.inr ⟨hsent, rfl⟩), hwork.trans hpw⟩
        · exact ⟨p, mem_dhmpPostSend.mpr (.inl (hpackets ▸ hp)), hpw⟩
  · cases h

theorem Inv.clientHandle (hinv : Inv s) {k : ℕ}
    (hresult : ∀ p ∈ s.packets[k]?,
      p.msg.msgType ≠ .MALLOC_ERROR ∧ p.msg.msgType ≠ .BUFF_MALLOC_ERROR)
    (h : clientHandle s k = some t) : Inv t := by
  unfold ClientWork.clientHandle at h
  split at h
  · rename_i msg hk
    have hmsg := hinv.packets_ok _ (List.mem_of_getElem? hk)
    obtain rfl := Option.some.inj h
    refine ⟨fun w hw => ?_, fun p hp => ?_, fun w hw => ?_⟩
    · rw [wcRecvReply_works] at hw
      exact hinv.works_ok w hw
    · rw [wcRecvReply_packets] at hp
      exact hinv.packets_ok p (List.mem_of_mem_eraseIdx hp)
    · rw [wcRecvReply_waiting] at hw
      rcases hinv.waiter w hw with hdone | ⟨p, hp, hpw⟩
      · exact .inl (waitOver_of_wcRecvReply hmsg hdone)
      · rcases eq_or_mem_eraseIdx hk hp with rfl | hp
        · -- the waiter's own reply: its handler raises what the waiter waits for
          rw [← hpw]
          exact .inl (waitOver_wcRecvReply hmsg (hresult _ hk).1 (hresult _ hk).2)
        · refine .inr ⟨p, ?_, hpw⟩
          rwa [wcRecvReply_packets]
  · cases h

theorem Inv.step (hinv : Inv s) {a : Action} (hcond : RepliesArrive s a)
    (h : step s a = some t) : Inv t := by
  cases a with
  | call node data => exact Option.some.inj h ▸ hinv.call node data
  | start found posted => exact hinv.startWork hcond h
  | finish => exact hinv.finishWork h
  | receive k => exact hinv.receive h
  | serverHandle k ok posted => exact hinv.serverHandle hcond h
  | clientHandle k => exact hinv.clientHandle hcond h
  | lose k => exact hcond.elim
  | clientTrans node state =>
    exact Option.some.inj h ▸ ⟨hinv.works_ok, hinv.packets_ok, hinv.waiter⟩
  | serverTrans node state =>
    exact Option.some.inj h ▸ ⟨hinv.works_ok, hinv.packets_ok, hinv.waiter⟩

theorem Inv.fresh (clientTrans serverTrans : ℕ → TransState) :
    Inv (ClientWork.start clientTrans serverTrans) where
  works_ok := fun w hw => by cases hw
  packets_ok := fun p hp => by cases hp
  waiter := fun w hw => by cases hw

theorem inv_of_reach (h : Reach workSystem RepliesArrive s) : Inv s :=
  h.invariant (fun _ ⟨clientTrans, serverTrans, hs⟩ => hs ▸ Inv.fresh clientTrans serverTrans)
    fun _ _ _ hinv hcond ht => hinv.step hcond ht

/-! ## Runs -/

def repliesArrive (s : State) : Action → Bool
  | .start _ posted => s.works.head?.all fun w =>
    decide (s.clientTrans w.node = .CONNECTED ∧ posted = true)
  | .serverHandle k _ posted => s.packets[k]?.all fun p =>
    decide (s.serverTrans p.msg.work.node = .CONNECTED ∧ posted = true)
  | .clientHandle k => s.packets[k]?.all fun p =>
    decide (p.msg.msgType ≠ .MALLOC_ERROR ∧ p.msg.msgType ≠ .BUFF_MALLOC_ERROR)
  | .lose _ => false
  | _ => true

theorem repliesArrive_sound {a : Action} (h : repliesArrive s a = true) : RepliesArrive s a := by
  cases a with
  | start found posted =>
    intro w hw
    rw [repliesArrive, Option.mem_def.mp hw] at h
    exact of_decide_eq_true h
  | serverHandle k ok posted =>
    intro p hp
    rw [repliesArrive, Option.mem_def.mp hp] at h
    exact of_decide_eq_true h
  | clientHandle k =>
    intro p hp
    rw [repliesArrive, Option.mem_def.mp hp] at h
    exact of_decide_eq_true h
  | lose k => cases h
  | _ => trivial

/-- All transports are connected. -/
def connected : State := start (fun _ => .CONNECTED) fun _ => .CONNECTED

theorem reach_connected {cond : State → Action → Prop} : Reach workSystem cond connected :=
  .start ⟨_, _, rfl⟩

/-- A region is granted, the buffers are granted, and a send is answered but not yet
handled; the first transport is closed meanwhile. -/
def answeredRun : List Action :=
  [.call 0 (.malloc 64), .call 1 .buffMalloc, .call 1 (.send 8 true),
    .start true true, .receive 0, .serverHandle 0 true true, .receive 0, .clientHandle 0, .finish,
    .clientTrans 0 .DISCONNECTED,
    .start true true, .receive 0, .serverHandle 0 true true, .receive 0, .clientHandle 0, .finish,
    .start true true, .receive 0, .serverHandle 0 true true, .receive 0]

end RdmaMiddleware.ClientWork
