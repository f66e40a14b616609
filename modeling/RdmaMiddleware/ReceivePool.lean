import RdmaMiddleware.CompletionChannels
import RdmaMiddleware.Connection
import RdmaMiddleware.Framing

/-!
# The receive buffers of a transport

`dhmp_post_all_recv` cuts the receive region into buffers, and `dhmp_comp_channel_handler`
posts each again once its message has been handled. One transport is followed from the first
`dhmp_post_recv` on, together with the epoll thread, its adapter, the threads that send and
the main thread that frees a rejected transport.
-/
namespace RdmaMiddleware.ReceivePool
open TransitionSystem CompletionChannels Connection Framing

def RECV_REGION_SIZE : ℕ := 512 * 1024 * 1024
def SINGLE_POLL_RECV_REGION : ℕ := 64 * 1024 * 1024

/-- `max_send_wr` and `max_recv_wr` in `dhmp_qp_create`. -/
def maxWr : ℕ := 15000

/-- The entries that `dhmp_cq_get` asks for. -/
def cqe : ℕ := 100000

/-- `trans_state>DHMP_TRANSPORT_STATE_CONNECTED` -/
def pastConnected : TransState → Bool
  | .INIT | .LISTEN | .CONNECTING | .CONNECTED => false
  | _ => true

/-- What goes into the send queue: a message out of the send region, or a read or write of
the caller's memory. -/
inductive Request
  | send
  | oneSided
  deriving DecidableEq

/-- A `dhmp_task`; a receive task has its `sge.addr` at an offset of the receive region. -/
inductive Task
  | recv (offset : ℕ)
  | request (r : Request)
  deriving DecidableEq

structure Wc where
  task : Task
  success : Bool
  deriving DecidableEq

def Task.offset? : Task → Option ℕ
  | .recv offset => some offset
  | .request _ => none

@[simp] theorem Task.offset?_recv (offset : ℕ) : (Task.recv offset).offset? = some offset := rfl

@[simp] theorem Task.offset?_request (r : Request) : (Task.request r).offset? = none := rfl

/-- What `epoll_wait` reports: the completion channel of the transport, the event channel of
its `cm_id`, or another descriptor. -/
inductive Item
  | compChannel
  | eventChannel
  | other
  deriving DecidableEq

/-- Where `dhmp_context_run` stands; `rest` are the events of the batch still to come. -/
inductive Thread
  | waiting
  | batch (rest : List Item)
  | cmEvents (rest : List Item)
  | posting (i : ℕ) (rest : List Item)
  /-- Between `ibv_get_cq_event` and `ibv_req_notify_cq`. -/
  | notifying (rest : List Item)
  | polling (rest : List Item)
  /-- In `dhmp_wc_recv_handler`. -/
  | handling (offset : ℕ) (rest : List Item)
  deriving DecidableEq

namespace Thread

def rest : Thread → List Item
  | .waiting => []
  | .batch rest | .cmEvents rest | .posting _ rest | .notifying rest | .polling rest
  | .handling _ rest => rest

def reader : Thread → Reader
  | .notifying _ => .unarmed
  | .polling _ | .handling _ _ => .draining
  | _ => .away

/-- It will use the `dhmp_cq` before it waits again. -/
def Holds (thread : Thread) : Prop := .compChannel ∈ thread.rest ∨ thread.reader ≠ .away

end Thread

/-- How far the connection manager is with the connection. -/
inductive CmPhase
  | connecting
  | established
  | closed
  | rejected
  deriving DecidableEq

/-- What `free_trans` gives back of the memory that the handlers use, in its order. -/
inductive Release
  | sendRegion
  | qp
  | cq
  | compChannel
  deriving DecidableEq

def releases : List Release := [.sendRegion, .qp, .cq, .compChannel]

/-- The transport and what there still is of it. `dcq` stands for the completion queue,
`registered` says that epoll watches its channel, `assigned` that `dhmp_transport_connect` has
stored `CONNECTING`, `main` what the main thread has still to free, and `sending` how many
threads are past the check in `dhmp_post_send`. -/
structure Conn where
  side : Side
  isPollQp : Bool
  transState : TransState
  cm : CmPhase
  assigned : Bool
  sendRegion : Bool
  recvRegion : Bool
  qp : Bool
  dcq : Bool
  registered : Bool
  main : Option (List Release)
  sending : ℕ

/-- `posted` and `sq` are the queues of the adapter, `lost` the buffers that nobody posts
again. -/
structure State where
  conn : Conn
  posted : List ℕ
  sq : List Request
  channel : Channel Wc
  thread : Thread
  lost : List ℕ
  polled : ℕ
  fault : Bool

/-- `single_region_size` -/
def singleRegionSize (isPollQp : Bool) : ℕ :=
  if isPollQp then SINGLE_POLL_RECV_REGION else SINGLE_NORM_RECV_REGION

def recvNums (isPollQp : Bool) : ℕ := RECV_REGION_SIZE / singleRegionSize isPollQp

/-- The offsets that `dhmp_post_all_recv` posts from its `i`-th round on. -/
def buffersFrom (isPollQp : Bool) (i : ℕ) : List ℕ :=
  (List.range' i (recvNums isPollQp - i)).map (· * singleRegionSize isPollQp)

def buffers (isPollQp : Bool) : List ℕ := buffersFrom isPollQp 0

namespace State

/-- The buffers that have a completion in the queue. -/
def completed (s : State) : List ℕ := s.channel.entries.filterMap (·.task.offset?)

/-- The buffers of the epoll thread. -/
def held (s : State) : List ℕ :=
  match s.thread with
  | .posting i _ => buffersFrom s.conn.isPollQp i
  | .handling offset _ => [offset]
  | _ => []

/-- Where the buffers are. -/
def places (s : State) : List ℕ := s.posted ++ s.completed ++ s.held ++ s.lost

/-- The requests that take up room in the send queue until their completion is polled. -/
def sends (s : State) : ℕ := s.sq.length + s.channel.entries.countP (·.task.offset?.isNone)

end State

/-- `dhmp_post_recv`: `taskOk` and `postOk` say whether the task can be allocated and the
adapter takes the request. -/
def postRecv (s : State) (offset : ℕ) (taskOk postOk : Bool) : State :=
  if pastConnected s.conn.transState || !taskOk then { s with lost := s.lost ++ [offset] }
  else if !s.conn.qp then { s with fault := true, lost := s.lost ++ [offset] }
  else if postOk then { s with posted := s.posted ++ [offset] }
  else { s with lost := s.lost ++ [offset] }

/-- The completions of a queue pair that is destroyed may stay in the queue. -/
def destroyQp (s : State) (keep : Bool) : State :=
  { s with
    conn := { s.conn with qp := false }
    posted := []
    sq := []
    channel := s.channel.setEntries (if keep then s.channel.entries else [])
    lost := s.lost ++ s.posted ++ if keep then [] else s.completed }

/-- `dhmp_destroy_source` -/
def destroySource (s : State) (keep : Bool) (transState : TransState) : State :=
  { destroyQp s keep with
    conn := { s.conn with
      transState := transState
      cm := .closed
      sendRegion := false
      recvRegion := false
      qp := false
      registered := false } }

/-- `dhmp_comp_channel_handler` up to `ibv_get_cq_event`. -/
def compChannelHandler (s : State) (rest : List Item) : State :=
  if !s.conn.dcq then { s with fault := true, thread := .batch rest }
  else if s.channel.events = 0 then { s with thread := .batch rest }
  else { s with channel := s.channel.getEvent, thread := .notifying rest }

/-- `dhmp_wc_success_handler` up to `dhmp_wc_recv_handler`, and `dhmp_wc_error_handler`. -/
def handleWc (s : State) (wc : Wc) (rest : List Item) : State :=
  match wc.task, wc.success with
  | .recv offset, true =>
    { s with fault := s.fault || !s.conn.recvRegion, thread := .handling offset rest }
  | .recv offset, false => { s with lost := s.lost ++ [offset] }
  | .request .send, true => { s with fault := s.fault || !s.conn.sendRegion }
  | .request _, _ => s

/-- One round of `while(ibv_poll_cq(dcq->cq, 1, &wc))`. -/
def pollCq (s : State) (rest : List Item) : State :=
  if !s.conn.dcq then { s with fault := true, thread := .batch rest }
  else match s.channel.entries with
  | [] => { s with thread := .batch rest }
  | wc :: entries =>
    handleWc { s with channel := s.channel.setEntries entries, polled := s.polled + 1 } wc rest

inductive CmEvent
  | established
  | disconnected (keep : Bool)
  | connectError (keep : Bool)
  | rejected
  deriving DecidableEq

/-- The handlers, each in the phase in which its event can come. -/
def handleEcEvent (s : State) : CmEvent → Option State
  | .established =>
    if s.conn.cm = .connecting then
      some { s with conn := { s.conn with transState := .CONNECTED, cm := .established } }
    else none
  | .disconnected keep =>
    if s.conn.cm = .established then some (destroySource s keep .DISCONNECTED) else none
  | .connectError keep =>
    if s.conn.cm = .connecting then some (destroySource s keep .ERROR) else none
  | .rejected =>
    if s.conn.cm = .connecting then
      some { s with conn := { s.conn with transState := .REJECT, cm := .rejected } }
    else none

/-- One step of `free_trans`. -/
def release (s : State) (r : Release) (keep : Bool) : State :=
  match r with
  | .sendRegion => { s with conn := { s.conn with sendRegion := false } }
  | .qp => destroyQp s keep
  | .cq => { s with
      conn := { s.conn with dcq := false }
      channel := { entries := [], armed := false, events := 0 }
      lost := s.lost ++ s.completed }
  | .compChannel => { s with conn := { s.conn with registered := false } }

/-- The send queue has room. -/
def roomy (s : State) : Bool := s.conn.qp && decide (s.sends < maxWr)

inductive Action
  /-- `epoll_wait` returns. -/
  | wait (events : List Item)
  /-- The next event of the batch. -/
  | next
  | cmEvent (e : CmEvent)
  | drained
  | post (taskOk postOk : Bool)
  | notify (ok : Bool)
  | poll
  /-- `dhmp_wc_recv_handler` returns. -/
  | repost (taskOk postOk : Bool)
  /-- The adapter puts a message into the oldest buffer, or flushes it. -/
  | receive (ok : Bool)
  /-- The adapter completes the oldest request of the send queue. -/
  | sent (ok : Bool)
  /-- `dhmp_post_send` up to the check, and from there on. -/
  | beginSend
  | postSend
  | postOneSided
  /-- The end of `dhmp_transport_connect`. -/
  | assign
  /-- `dhmp_connect` finds the transport rejected. -/
  | free
  | release (keep : Bool)
  deriving DecidableEq

def epollStep (s : State) : Action → Option State
  | .wait events =>
    if s.thread = .waiting ∧ events ≠ [] ∧
        (.compChannel ∈ events → s.conn.registered = true ∧ 0 < s.channel.events) then
      some { s with thread := .batch events }
    else none
  | .next =>
    match s.thread with
    | .batch [] => some { s with thread := .waiting }
    | .batch (.compChannel :: rest) => some (compChannelHandler s rest)
    | .batch (.eventChannel :: rest) => some { s with thread := .cmEvents rest }
    | .batch (.other :: rest) => some { s with thread := .batch rest }
    | _ => none
  | .cmEvent e =>
    match s.thread with
    | .cmEvents _ => handleEcEvent s e
    | _ => none
  | .drained =>
    match s.thread with
    | .cmEvents rest => some { s with thread := .batch rest }
    | _ => none
  | .post taskOk postOk =>
    match s.thread with
    | .posting i rest =>
      if i < recvNums s.conn.isPollQp then
        some { postRecv s (i * singleRegionSize s.conn.isPollQp) taskOk postOk with
          thread := .posting (i + 1) rest }
      else some { s with thread := .cmEvents rest }
    | _ => none
  | .notify ok =>
    match s.thread with
    | .notifying rest =>
      if !s.conn.dcq then some { s with fault := true, thread := .batch rest }
      else if ok then some { s with channel := s.channel.arm, thread := .polling rest }
      else some { s with thread := .batch rest }
    | _ => none
  | .poll =>
    match s.thread with
    | .polling rest => some (pollCq s rest)
    | _ => none
  | .repost taskOk postOk =>
    match s.thread with
    | .handling offset rest =>
      some { postRecv s offset taskOk postOk with thread := .polling rest }
    | _ => none
  | _ => none

def step (s : State) (a : Action) : Option State :=
  match a with
  | .receive ok =>
    match s.posted with
    | offset :: rest => some { s with
        posted := rest, channel := s.channel.push ⟨.recv offset, ok⟩ }
    | [] => none
  | .sent ok =>
    match s.sq with
    | r :: rest => some { s with sq := rest, channel := s.channel.push ⟨.request r, ok⟩ }
    | [] => none
  | .beginSend =>
    if s.conn.transState = .CONNECTED then
      some { s with conn := { s.conn with sending := s.conn.sending + 1 } }
    else none
  | .postSend =>
    if s.conn.sending = 0 then none
    else some { s with
      conn := { s.conn with sending := s.conn.sending - 1 }
      fault := s.fault || !s.conn.sendRegion || !s.conn.qp
      sq := if roomy s then s.sq ++ [.send] else s.sq }
  | .postOneSided => if roomy s then some { s with sq := s.sq ++ [.oneSided] } else none
  | .assign =>
    if s.conn.side = .client ∧ s.conn.assigned = false then
      some { s with conn := { s.conn with transState := .CONNECTING, assigned := true } }
    else none
  | .free =>
    if s.conn.side = .client ∧ s.conn.transState = .REJECT ∧ s.conn.main.isNone then
      some { s with conn := { s.conn with main := some releases } }
    else none
  | .release keep =>
    match s.conn.main with
    | some (r :: rest) =>
      let s := release s r keep
      some { s with conn := { s.conn with main := some rest } }
    | _ => none
  | _ => epollStep s a

/-- The transport when `dhmp_post_all_recv` is called; its channel is in no batch yet. -/
def start (side : Side) (isPollQp assigned : Bool) (rest : List Item) : State where
  conn :=
    { side := side
      isPollQp := isPollQp
      transState := if assigned then .CONNECTING else .INIT
      cm := .connecting
      assigned := assigned
      sendRegion := true
      recvRegion := true
      qp := true
      dcq := true
      registered := true
      main := none
      sending := 0 }
  posted := []
  sq := []
  channel := { entries := [], armed := true, events := 0 }
  thread := .posting 0 rest
  lost := []
  polled := 0
  fault := false

def poolSystem : System State Action where
  init := fun s => ∃ side isPollQp assigned rest,
    (side = .server → assigned = true) ∧ .compChannel ∉ rest ∧
      s = start side isPollQp assigned rest
  step := step

/-! ## Every buffer has its place -/

variable {s t : State}

theorem buffersFrom_succ {isPollQp : Bool} {i : ℕ} (hi : i < recvNums isPollQp) :
    buffersFrom isPollQp i =
      i * singleRegionSize isPollQp :: buffersFrom isPollQp (i + 1) := by
  have hnums : recvNums isPollQp - i = recvNums isPollQp - (i + 1) + 1 := by omega
  rw [buffersFrom, hnums, List.range'_succ, List.map_cons]
  rfl

theorem buffersFrom_end {isPollQp : Bool} {i : ℕ} (hi : ¬ i < recvNums isPollQp) :
    buffersFrom isPollQp i = [] := by
  rw [buffersFrom, Nat.sub_eq_zero_of_le (Nat.le_of_not_lt hi)]
  rfl

section PostRecv
variable (s) (offset : ℕ) (taskOk postOk : Bool)

/-- The buffer goes to the adapter or is lost, and nothing else changes. -/
theorem postRecv_cases : ∃ posted lost fault,
    postRecv s offset taskOk postOk =
      { s with posted := posted, lost := lost, fault := fault } ∧
    ∀ a, posted.count a + lost.count a =
      s.posted.count a + s.lost.count a + [offset].count a := by
  unfold postRecv
  split_ifs
  · exact ⟨s.posted, s.lost ++ [offset], s.fault, rfl, fun a => by rw [List.count_append]; omega⟩
  · exact ⟨s.posted, s.lost ++ [offset], true, rfl, fun a => by rw [List.count_append]; omega⟩
  · exact ⟨s.posted ++ [offset], s.lost, s.fault, rfl, fun a => by rw [List.count_append]; omega⟩
  · exact ⟨s.posted, s.lost ++ [offset], s.fault, rfl, fun a => by rw [List.count_append]; omega⟩

end PostRecv

theorem count_places (a : ℕ) : s.places.count a =
    s.posted.count a + s.completed.count a + s.held.count a + s.lost.count a := by
  simp only [State.places, List.count_append]

theorem completed_cons {wc : Wc} {entries : List Wc} (h : s.channel.entries = wc :: entries) :
    s.completed = wc.task.offset?.toList ++ entries.filterMap (·.task.offset?) := by
  rw [State.completed, h, List.filterMap_cons]
  cases wc.task.offset? <;> rfl

theorem completed_push {c : Channel Wc} (wc : Wc) : (c.push wc).entries.filterMap
    (fun w : Wc => w.task.offset?) =
      c.entries.filterMap (·.task.offset?) ++ wc.task.offset?.toList := by
  rw [Channel.push_entries, List.filterMap_append, List.filterMap_cons]
  cases wc.task.offset? <;> rfl

/-- The buffers of two states are in as many places each. -/
def SamePlaces (s t : State) : Prop :=
  t.conn.isPollQp = s.conn.isPollQp ∧ ∀ a, t.places.count a = s.places.count a

namespace SamePlaces

/-- The thread moves on without a buffer. -/
theorem move {thread : Thread} {c : Channel Wc} {fault : Bool} (hheld : s.held = [])
    (hfree : { s with thread := thread }.held = []) (hentries : c.entries = s.channel.entries) :
    SamePlaces s { s with thread := thread, channel := c, fault := fault } := by
  refine ⟨rfl, fun a => ?_⟩
  have hcompleted : { s with thread := thread, channel := c, fault := fault }.completed =
      s.completed := by
    rw [State.completed, State.completed, hentries]
  have hnone : { s with thread := thread, channel := c, fault := fault }.held = [] := hfree
  rw [count_places, count_places, hcompleted, hnone, hheld]

/-- The thread gives one of its buffers to `dhmp_post_recv`. -/
theorem post {offset : ℕ} {taskOk postOk : Bool} {thread : Thread}
    (hheld : s.held = offset :: { s with thread := thread }.held) :
    SamePlaces s { postRecv s offset taskOk postOk with thread := thread } := by
  obtain ⟨posted, lost, fault, hpost, hcount⟩ := postRecv_cases s offset taskOk postOk
  rw [hpost]
  refine ⟨rfl, fun a => ?_⟩
  have hboth := hcount a
  rw [count_places, count_places, hheld]
  show posted.count a + s.completed.count a + { s with thread := thread }.held.count a +
    lost.count a = _
  rw [List.count_cons]
  rw [List.count_singleton] at hboth
  omega

theorem destroyQp (s : State) (keep : Bool) : SamePlaces s (destroyQp s keep) := by
  refine ⟨rfl, fun a => ?_⟩
  rw [count_places, count_places]
  have hheld : (ReceivePool.destroyQp s keep).held = s.held := rfl
  rw [hheld]
  cases keep
  · simp [ReceivePool.destroyQp, State.completed]
    omega
  · simp [ReceivePool.destroyQp, State.completed]
    omega

/-- A completion is handled. -/
theorem handleWc {wc : Wc} {entries : List Wc} {rest : List Item} (polled : ℕ)
    (hthread : s.thread = .polling rest) (hentries : s.channel.entries = wc :: entries) :
    SamePlaces s (handleWc { s with
      channel := s.channel.setEntries entries, polled := polled } wc rest) := by
  have hheld : s.held = [] := by
    unfold State.held
    rw [hthread]
  have hcompleted := completed_cons hentries
  obtain ⟨task, success⟩ := wc
  cases task with
  | recv offset =>
    cases success with
    | true =>
      refine ⟨rfl, fun a => ?_⟩
      rw [count_places, count_places, hcompleted, hheld]
      simp [ReceivePool.handleWc, State.completed, State.held, List.count_cons]
      omega
    | false =>
      refine ⟨rfl, fun a => ?_⟩
      rw [count_places, count_places, hcompleted]
      simp [ReceivePool.handleWc, State.completed, State.held, hthread, List.count_cons]
      omega
  | request r =>
    refine ⟨?_, fun a => ?_⟩
    · cases r <;> cases success <;> rfl
    · rw [count_places, count_places, hcompleted]
      cases r <;> cases success <;> rfl

theorem of_handleEcEvent {e : CmEvent} (ht : handleEcEvent s e = some t) : SamePlaces s t := by
  cases e with
  | established =>
    simp only [handleEcEvent] at ht
    split_ifs at ht
    cases ht
    exact ⟨rfl, fun _ => rfl⟩
  | disconnected keep =>
    simp only [handleEcEvent] at ht
    split_ifs at ht
    cases ht
    exact destroyQp s keep
  | connectError keep =>
    simp only [handleEcEvent] at ht
    split_ifs at ht
    cases ht
    exact destroyQp s keep
  | rejected =>
    simp only [handleEcEvent] at ht
    split_ifs at ht
    cases ht
    exact ⟨rfl, fun _ => rfl⟩

theorem release (s : State) (r : Release) (keep : Bool) : SamePlaces s (release s r keep) := by
  cases r with
  | sendRegion => exact ⟨rfl, fun _ => rfl⟩
  | qp => exact destroyQp s keep
  | cq =>
    refine ⟨rfl, fun a => ?_⟩
    rw [count_places, count_places]
    simp [ReceivePool.release, State.completed, State.held]
    omega
  | compChannel => exact ⟨rfl, fun _ => rfl⟩

theorem of_epollStep {a : Action} (ht : epollStep s a = some t) : SamePlaces s t := by
  cases a with
  | wait events =>
    simp only [epollStep] at ht
    split_ifs at ht with hif
    cases ht
    exact move (by simp [State.held, hif.1]) rfl rfl
  | next =>
    simp only [epollStep] at ht
    split at ht
    · rename_i hthread
      cases ht
      exact move (by simp [State.held, hthread]) rfl rfl
    · rename_i rest hthread
      cases ht
      have hheld : s.held = [] := by simp [State.held, hthread]
      unfold compChannelHandler
      split_ifs
      · exact move hheld rfl rfl
      · exact move hheld rfl rfl
      · exact move hheld rfl rfl
    · rename_i rest hthread
      cases ht
      exact move (by simp [State.held, hthread]) rfl rfl
    · rename_i rest hthread
      cases ht
      exact move (by simp [State.held, hthread]) rfl rfl
    · cases ht
  | cmEvent e =>
    simp only [epollStep] at ht
    split at ht
    · exact of_handleEcEvent ht
    · cases ht
  | drained =>
    simp only [epollStep] at ht
    split at ht
    · rename_i rest hthread
      cases ht
      exact move (by simp [State.held, hthread]) rfl rfl
    · cases ht
  | post taskOk postOk =>
    simp only [epollStep] at ht
    split at ht
    · rename_i i rest hthread
      split_ifs at ht with hi
      · cases ht
        refine post ?_
        simp only [State.held, hthread]
        exact buffersFrom_succ hi
      · cases ht
        refine move ?_ rfl rfl
        simp only [State.held, hthread]
        exact buffersFrom_end hi
    · cases ht
  | notify ok =>
    simp only [epollStep] at ht
    split at ht
    · rename_i rest hthread
      have hheld : s.held = [] := by simp [State.held, hthread]
      split_ifs at ht
      · cases ht
        exact move hheld rfl rfl
      · cases ht
        exact move hheld rfl rfl
      · cases ht
        exact move hheld rfl rfl
    · cases ht
  | poll =>
    simp only [epollStep] at ht
    split at ht
    · rename_i rest hthread
      cases ht
      have hheld : s.held = [] := by simp [State.held, hthread]
      unfold pollCq
      split_ifs
      · exact move hheld rfl rfl
      · split
        · exact move hheld rfl rfl
        · rename_i wc entries hentries
          exact handleWc (s.polled + 1) hthread hentries
    · cases ht
  | repost taskOk postOk =>
    simp only [epollStep] at ht
    split at ht
    · rename_i offset rest hthread
      cases ht
      refine post ?_
      simp only [State.held, hthread]
    · cases ht
  | _ => cases ht

/-- No step makes a buffer, drops one or has one twice. -/
theorem of_step {a : Action} (ht : step s a = some t) : SamePlaces s t := by
  cases a with
  | receive ok =>
    simp only [step] at ht
    split at ht
    · rename_i offset rest hposted
      cases ht
      refine ⟨rfl, fun a => ?_⟩
      rw [count_places, count_places, hposted]
      simp only [State.completed, completed_push, List.count_append, List.count_cons,
        Task.offset?_recv, Option.toList_some, List.count_nil, State.held]
      omega
    · cases ht
  | sent ok =>
    simp only [step] at ht
    split at ht
    · rename_i r rest hsq
      cases ht
      refine ⟨rfl, fun a => ?_⟩
      rw [count_places, count_places]
      simp only [State.completed, completed_push, Task.offset?_request, Option.toList_none,
        List.append_nil, State.held]
    · cases ht
  | beginSend =>
    simp only [step] at ht
    split_ifs at ht
    cases ht
    exact ⟨rfl, fun _ => rfl⟩
  | postSend =>
    simp only [step] at ht
    split_ifs at ht
    all_goals
      cases ht
      exact ⟨rfl, fun _ => rfl⟩
  | postOneSided =>
    simp only [step] at ht
    split_ifs at ht
    cases ht
    exact ⟨rfl, fun _ => rfl⟩
  | assign =>
    simp only [step] at ht
    split_ifs at ht
    cases ht
    exact ⟨rfl, fun _ => rfl⟩
  | free =>
    simp only [step] at ht
    split_ifs at ht
    cases ht
    exact ⟨rfl, fun _ => rfl⟩
  | release keep =>
    simp only [step] at ht
    split at ht
    · rename_i r rest hmain
      cases ht
      exact release s r keep
    · cases ht
  | wait events => exact of_epollStep (a := .wait events) ht
  | next => exact of_epollStep (a := .next) ht
  | cmEvent e => exact of_epollStep (a := .cmEvent e) ht
  | drained => exact of_epollStep (a := .drained) ht
  | post taskOk postOk => exact of_epollStep (a := .post taskOk postOk) ht
  | notify ok => exact of_epollStep (a := .notify ok) ht
  | poll => exact of_epollStep (a := .poll) ht
  | repost taskOk postOk => exact of_epollStep (a := .repost taskOk postOk) ht

end SamePlaces

end RdmaMiddleware.ReceivePool
