import RdmaMiddleware.Connection
import Mathlib.Data.List.Count

/-!
# What a transport holds

`dhmp_transport_create`, the handlers of the connection events and `free_trans` allocate and
free the parts of a transport one by one. Each keeps a ledger here; a part that is freed
without being held is a fault.
-/
namespace RdmaMiddleware.TransportResources
open Connection

/-- `eventData` and `compData` are the two `dhmp_event_data`, the watches what epoll knows of
them. -/
inductive Resource
  | transport
  | eventChannel
  | eventWatch
  | eventData
  | sendAddr
  | sendMr
  | recvAddr
  | recvMr
  | cmId
  | dcq
  | compChannel
  | compWatch
  | compData
  | cq
  | qp
  deriving DecidableEq

/-- How far the connection manager is with the `cm_id`; `stalled` when nothing more comes,
`destroyed` after `dhmp_destroy_source`, `freed` after `free_trans`. -/
inductive Cm
  | idle
  | resolving
  | routing
  | connecting
  | established
  | rejected
  | stalled
  | destroyed
  | freed
  deriving DecidableEq

/-- `qpPtr` says that `qp` is not null: `malloc` may leave anything there, and no function
clears it. -/
structure Trans where
  transState : TransState
  cm : Cm
  qpPtr : Bool
  held : List Resource
  fault : Bool
  deriving DecidableEq

namespace Trans

def acquire (t : Trans) (r : Resource) : Trans := { t with held := r :: t.held }

def release (t : Trans) (r : Resource) : Trans :=
  { t with held := t.held.erase r, fault := t.fault || !decide (r ∈ t.held) }

/-- `dhmp_context_del_event_fd`: the call only fails when epoll does not know the
descriptor, and the event data stay allocated. -/
def delEventFd (t : Trans) (r : Resource) : Trans := { t with held := t.held.erase r }

/-- `dhmp_context_add_event_fd` -/
def addEventFd (t : Trans) (data watch : Resource) (watchOk : Bool) : Trans × Bool :=
  if watchOk then ((t.acquire data).acquire watch, true) else (t, false)

/-- `ibv_destroy_comp_channel` refuses while a completion queue uses the channel. -/
def destroyCompChannel (t : Trans) : Trans :=
  if .cq ∈ t.held then t else t.release .compChannel

end Trans

/-- `dhmp_memory_register` -/
def memoryRegister (t : Trans) (addr mr : Resource) (allocOk regOk : Bool) : Trans × Bool :=
  if !allocOk then (t, false)
  else if !regOk then ((t.acquire addr).release addr, false)
  else ((t.acquire addr).acquire mr, true)

/-- Which of the calls in `dhmp_transport_create` succeed, and what `malloc` left in `qp`. -/
structure CreateOk where
  alloc : Bool
  channel : Bool
  nonblock : Bool
  watch : Bool
  sendAlloc : Bool
  sendReg : Bool
  recvAlloc : Bool
  recvReg : Bool
  qpMemory : Bool
  deriving DecidableEq

/-- `dhmp_event_channel_create`; it does not look at what `dhmp_context_add_event_fd`
returns. -/
def eventChannelCreate (t : Trans) (o : CreateOk) : Trans × Bool :=
  if !o.channel then (t, false)
  else if !o.nonblock then ((t.acquire .eventChannel).release .eventChannel, false)
  else (((t.acquire .eventChannel).addEventFd .eventData .eventWatch o.watch).1, true)

/-- The label `out_event_channel`. -/
def outEventChannel (t : Trans) : Trans :=
  ((t.delEventFd .eventWatch).release .eventChannel).release .transport

/-- `dhmp_transport_create` for a transport that does not listen. -/
def transportCreate (o : CreateOk) : Trans × Bool :=
  if !o.alloc then (⟨.INIT, .idle, o.qpMemory, [], false⟩, false)
  else
    let (t, ok) := eventChannelCreate ⟨.INIT, .idle, o.qpMemory, [.transport], false⟩ o
    if !ok then (t.release .transport, false)
    else
      let (t, ok) := memoryRegister t .sendAddr .sendMr o.sendAlloc o.sendReg
      if !ok then (outEventChannel t, false)
      else
        let (t, ok) := memoryRegister t .recvAddr .recvMr o.recvAlloc o.recvReg
        if !ok then (outEventChannel ((t.release .sendMr).release .sendAddr), false)
        else (t, true)

/-- Which of the calls in `dhmp_transport_connect` succeed. -/
structure ConnectOk where
  url : Bool
  id : Bool
  resolve : Bool
  deriving DecidableEq

/-- `dhmp_transport_connect`; `dhmp_connect` does not look at its result. -/
def transportConnect (t : Trans) (o : ConnectOk) : Trans :=
  if !o.url || !o.id then t
  else if !o.resolve then (t.acquire .cmId).release .cmId
  else { t.acquire .cmId with transState := .CONNECTING, cm := .resolving }

/-- Which of the calls in `dhmp_cq_get` succeed. -/
structure CqOk where
  alloc : Bool
  channel : Bool
  nonblock : Bool
  watch : Bool
  cq : Bool
  notify : Bool
  deriving DecidableEq

/-- The label `cleanchannel`. -/
def cleanChannel (t : Trans) : Trans := t.destroyCompChannel.release .dcq

/-- `dhmp_cq_get`; a queue that cannot be armed is not destroyed. -/
def cqGet (t : Trans) (o : CqOk) : Trans × Bool :=
  if !o.alloc then (t, false)
  else
    let t := t.acquire .dcq
    if !o.channel then (t.release .dcq, false)
    else
      let t := t.acquire .compChannel
      if !o.nonblock then (cleanChannel t, false)
      else
        let (t, ok) := t.addEventFd .compData .compWatch o.watch
        if !ok then (cleanChannel t, false)
        else if !o.cq then (cleanChannel (t.delEventFd .compWatch), false)
        else
          let t := t.acquire .cq
          if !o.notify then (cleanChannel (t.delEventFd .compWatch), false)
          else (t, true)

/-- `dhmp_qp_create`; the label `cleanhcq` frees the structure only. -/
def qpCreate (t : Trans) (o : CqOk) (qpOk : Bool) : Trans × Bool :=
  let (t, ok) := cqGet t o
  if !ok then (t, false)
  else if !qpOk then (t.release .dcq, false)
  else ({ t.acquire .qp with qpPtr := true }, true)

/-- `dhmp_qp_release` -/
def qpRelease (t : Trans) : Trans :=
  if t.qpPtr then (((t.release .qp).release .cq).delEventFd .compWatch).release .dcq else t

/-- `dhmp_destroy_source` -/
def destroySource (t : Trans) : Trans :=
  (((((t.release .sendMr).release .sendAddr).release .recvMr).release .recvAddr).release
    .qp).delEventFd .compWatch |>.delEventFd .eventWatch

/-- `free_trans`, and `free(conn)` in its caller. -/
def freeTrans (t : Trans) : Trans :=
  let t := ((t.release .sendMr).release .recvMr).release .sendAddr
  let t := ((qpRelease t).release .cmId).delEventFd .eventWatch
  { (t.release .eventChannel).release .transport with cm := .freed }

inductive CmEvent
  | addrResolved (routeOk : Bool)
  | routeResolved (o : CqOk) (qpOk connectOk : Bool)
  | established
  | rejected
  | connectError
  | disconnected
  /-- An event for which there is no case. -/
  | unreachable
  deriving DecidableEq

/-- What a handler leaves: the transport, whether it returned zero, and whether it set `stop`
in the context. -/
structure Handled where
  trans : Trans
  ok : Bool
  stop : Bool
  deriving DecidableEq

/-- `on_cm_addr_resolved` -/
def onCmAddrResolved (t : Trans) (routeOk : Bool) : Handled :=
  if routeOk then ⟨{ t with cm := .routing }, true, false⟩
  else ⟨{ t with cm := .stalled }, false, false⟩

/-- `on_cm_route_resolved` -/
def onCmRouteResolved (t : Trans) (o : CqOk) (qpOk connectOk : Bool) : Handled :=
  let (t, ok) := qpCreate t o qpOk
  if !ok then ⟨{ t with cm := .stalled }, false, false⟩
  else if !connectOk then ⟨{ qpRelease t with transState := .ERROR, cm := .stalled }, false, true⟩
  else ⟨{ t with cm := .connecting }, true, false⟩

/-- `dhmp_handle_ec_event` for a transport of the client, each event where it can come. -/
def handleEcEvent (t : Trans) : CmEvent → Option Handled
  | .addrResolved routeOk =>
    if t.cm = .resolving then some (onCmAddrResolved t routeOk) else none
  | .routeResolved o qpOk connectOk =>
    if t.cm = .routing then some (onCmRouteResolved t o qpOk connectOk) else none
  | .established =>
    if t.cm = .connecting then
      some ⟨{ t with transState := .CONNECTED, cm := .established }, true, false⟩
    else none
  | .rejected =>
    if t.cm = .connecting then
      some ⟨{ t with transState := .REJECT, cm := .rejected }, true, false⟩
    else none
  | .connectError =>
    if t.cm = .connecting then
      some ⟨{ destroySource t with transState := .ERROR, cm := .destroyed }, true, false⟩
    else none
  | .disconnected =>
    if t.cm = .established then
      some ⟨{ destroySource t with transState := .DISCONNECTED, cm := .destroyed }, true, false⟩
    else none
  | .unreachable =>
    if t.cm = .resolving ∨ t.cm = .routing ∨ t.cm = .connecting then
      some ⟨{ t with cm := .stalled }, false, false⟩
    else none

/-! ## The ledgers -/

/-- After `dhmp_transport_create`; `watched` is whether epoll took the event channel. -/
def createdHeld (watched : Bool) : List Resource :=
  [.recvMr, .recvAddr, .sendMr, .sendAddr] ++ (if watched then [.eventWatch, .eventData] else []) ++
    [.eventChannel, .transport]

/-- After `rdma_connect`. -/
def connectedHeld (watched : Bool) : List Resource :=
  [.qp, .cq, .compWatch, .compData, .compChannel, .dcq, .cmId] ++ createdHeld watched

/-- The order in which an event can move a `cm_id`. -/
inductive Cm.Next : Cm → Cm → Prop
  | route : Next .resolving .routing
  | connect : Next .routing .connecting
  | establish : Next .connecting .established
  | reject : Next .connecting .rejected
  | fail : Next .connecting .destroyed
  | disconnect : Next .established .destroyed
  | giveUp {cm : Cm} (h : cm = .resolving ∨ cm = .routing ∨ cm = .connecting) : Next cm .stalled

theorem Cm.Next.ne_freed {cm cm' : Cm} (h : Next cm cm') : cm' ≠ .freed := by
  rintro rfl
  cases h

/-- A connection can only break. -/
theorem Cm.Next.of_settled {cm cm' : Cm} (h : Next cm cm')
    (hcm : cm = .established ∨ cm = .destroyed) : cm' = .destroyed := by
  cases h with
  | fail | disconnect => rfl
  | route | connect | establish | reject => simp at hcm
  | giveUp hphase => rcases hcm with rfl | rfl <;> simp at hphase

theorem onCmRouteResolved_cm (t : Trans) (o : CqOk) (qpOk connectOk : Bool) :
    (onCmRouteResolved t o qpOk connectOk).trans.cm = .stalled ∨
      (onCmRouteResolved t o qpOk connectOk).trans.cm = .connecting := by
  unfold onCmRouteResolved
  split
  split_ifs
  · exact .inl rfl
  · exact .inl rfl
  · exact .inr rfl

/-- Which event a handler took, in which phase, and what it left. -/
inductive Handles (t : Trans) : CmEvent → Handled → Prop
  | addrResolved {routeOk : Bool} (hphase : t.cm = .resolving) :
      Handles t (.addrResolved routeOk) (onCmAddrResolved t routeOk)
  | routeResolved {o : CqOk} {qpOk connectOk : Bool} (hphase : t.cm = .routing) :
      Handles t (.routeResolved o qpOk connectOk) (onCmRouteResolved t o qpOk connectOk)
  | established (hphase : t.cm = .connecting) :
      Handles t .established ⟨{ t with transState := .CONNECTED, cm := .established }, true, false⟩
  | rejected (hphase : t.cm = .connecting) :
      Handles t .rejected ⟨{ t with transState := .REJECT, cm := .rejected }, true, false⟩
  | connectError (hphase : t.cm = .connecting) :
      Handles t .connectError
        ⟨{ destroySource t with transState := .ERROR, cm := .destroyed }, true, false⟩
  | disconnected (hphase : t.cm = .established) :
      Handles t .disconnected
        ⟨{ destroySource t with transState := .DISCONNECTED, cm := .destroyed }, true, false⟩
  | unreachable (hphase : t.cm = .resolving ∨ t.cm = .routing ∨ t.cm = .connecting) :
      Handles t .unreachable ⟨{ t with cm := .stalled }, false, false⟩

theorem handles_of_handleEcEvent {t : Trans} {e : CmEvent} {r : Handled}
    (hr : handleEcEvent t e = some r) : Handles t e r := by
  cases e with
  | addrResolved routeOk =>
    obtain ⟨hphase, hr⟩ := Option.ite_none_right_eq_some.1 hr
    exact Option.some.inj hr ▸ .addrResolved hphase
  | routeResolved o qpOk connectOk =>
    obtain ⟨hphase, hr⟩ := Option.ite_none_right_eq_some.1 hr
    exact Option.some.inj hr ▸ .routeResolved hphase
  | established =>
    obtain ⟨hphase, hr⟩ := Option.ite_none_right_eq_some.1 hr
    exact Option.some.inj hr ▸ .established hphase
  | rejected =>
    obtain ⟨hphase, hr⟩ := Option.ite_none_right_eq_some.1 hr
    exact Option.some.inj hr ▸ .rejected hphase
  | connectError =>
    obtain ⟨hphase, hr⟩ := Option.ite_none_right_eq_some.1 hr
    exact Option.some.inj hr ▸ .connectError hphase
  | disconnected =>
    obtain ⟨hphase, hr⟩ := Option.ite_none_right_eq_some.1 hr
    exact Option.some.inj hr ▸ .disconnected hphase
  | unreachable =>
    obtain ⟨hphase, hr⟩ := Option.ite_none_right_eq_some.1 hr
    exact Option.some.inj hr ▸ .unreachable hphase

theorem next_of_handleEcEvent {t : Trans} {e : CmEvent} {r : Handled}
    (hr : handleEcEvent t e = some r) : Cm.Next t.cm r.trans.cm := by
  cases handles_of_handleEcEvent hr with
  | @addrResolved routeOk hphase =>
    rw [hphase]
    cases routeOk with
    | true => exact .route
    | false => exact .giveUp (.inl rfl)
  | @routeResolved o qpOk connectOk hphase =>
    rw [hphase]
    rcases onCmRouteResolved_cm t o qpOk connectOk with h | h
    · rw [h]
      exact .giveUp (.inr (.inl rfl))
    · rw [h]
      exact .connect
  | established hphase => exact hphase ▸ .establish
  | rejected hphase => exact hphase ▸ .reject
  | connectError hphase => exact hphase ▸ .fail
  | disconnected hphase => exact hphase ▸ .disconnect
  | unreachable hphase => exact .giveUp hphase

/-- What `free_trans` forgets. -/
def forgotten (watched : Bool) : List Resource :=
  [.compData, .compChannel, .recvAddr] ++ if watched then [.eventData] else []

/-- The regions held, of `SEND_REGION_SIZE` and `RECV_REGION_SIZE` bytes. -/
def Trans.regions (t : Trans) : ℕ := t.held.count .sendAddr + t.held.count .recvAddr

/-- The regions that a transport keeps. -/
def Cm.kept : Cm → ℕ
  | .destroyed => 0
  | .freed => 1
  | _ => 2

/-- A transport that could not be created leaves no more than the data of an event. -/
theorem transportCreate_cases (o : CreateOk) :
    transportCreate o = (⟨.INIT, .idle, o.qpMemory, createdHeld o.watch, false⟩, true) ∨
      ∃ held, (held = [] ∨ held = [.eventData]) ∧
        transportCreate o = (⟨.INIT, .idle, o.qpMemory, held, false⟩, false) := by
  obtain ⟨alloc, channel, nonblock, watch, sendAlloc, sendReg, recvAlloc, recvReg, ptr⟩ := o
  cases alloc with
  | false => exact .inr ⟨[], .inl rfl, rfl⟩
  | true =>
  cases channel with
  | false => exact .inr ⟨[], .inl rfl, rfl⟩
  | true =>
  cases nonblock with
  | false => exact .inr ⟨[], .inl rfl, rfl⟩
  | true =>
  -- from here on the event data, if there are any, stay
  have hleft : ∀ w : Bool, (if w then [Resource.eventData] else []) = [] ∨
      (if w then [Resource.eventData] else []) = [.eventData] := by decide
  cases sendAlloc with
  | false => exact .inr ⟨_, hleft watch, by cases watch <;> rfl⟩
  | true =>
  cases sendReg with
  | false => exact .inr ⟨_, hleft watch, by cases watch <;> rfl⟩
  | true =>
  cases recvAlloc with
  | false => exact .inr ⟨_, hleft watch, by cases watch <;> rfl⟩
  | true =>
  cases recvReg with
  | false => exact .inr ⟨_, hleft watch, by cases watch <;> rfl⟩
  | true => exact .inl (by cases watch <;> rfl)

/-- The states that send `dhmp_connect` into another round and leave the transport behind. -/
def Unsettled (st : TransState) : Prop := st ≠ .REJECT ∧ st ≠ .CONNECTED

theorem unsettled_connecting : Unsettled .CONNECTING := ⟨by decide, by decide⟩

theorem unsettled_error : Unsettled .ERROR := ⟨by decide, by decide⟩

theorem unsettled_disconnected : Unsettled .DISCONNECTED := ⟨by decide, by decide⟩

/-- What a transport holds in each phase, as far as a later step frees it. -/
def Ledger (t : Trans) : Prop :=
  t.fault = false ∧ t.regions = t.cm.kept ∧ match t.cm with
    | .idle => t.transState = .INIT
    | .resolving | .routing => t.transState = .CONNECTING ∧
        ∃ w, t.held = .cmId :: createdHeld w
    | .connecting => t.transState = .CONNECTING ∧ t.qpPtr = true ∧ ∃ w, t.held = connectedHeld w
    | .established => t.transState = .CONNECTED ∧ t.qpPtr = true ∧ ∃ w, t.held = connectedHeld w
    | .rejected => t.transState = .REJECT ∧ t.qpPtr = true ∧ ∃ w, t.held = connectedHeld w
    | .stalled | .destroyed => Unsettled t.transState
    | .freed => ∃ w, t.held = forgotten w

namespace Ledger
variable {t : Trans}

/-- A transport that has just been created goes through `dhmp_transport_connect`. -/
theorem connect (ptr w : Bool) (o : ConnectOk) :
    Ledger (transportConnect ⟨.INIT, .idle, ptr, createdHeld w, false⟩ o) := by
  obtain ⟨url, id, resolve⟩ := o
  cases url with
  | false => exact ⟨rfl, by cases w <;> rfl, rfl⟩
  | true =>
  cases id with
  | false => exact ⟨rfl, by cases w <;> rfl, rfl⟩
  | true =>
  cases resolve with
  | false => exact ⟨by cases w <;> rfl, by cases w <;> rfl, by cases w <;> rfl⟩
  | true => exact ⟨rfl, by cases w <;> rfl, rfl, w, rfl⟩

/-- `on_cm_route_resolved` ends with all the parts of a connection, or with none that a later
step would free. -/
theorem routeResolved (o : CqOk) (qpOk connectOk ptr w : Bool) :
    Ledger (onCmRouteResolved ⟨.CONNECTING, .routing, ptr, .cmId :: createdHeld w, false⟩ o qpOk
      connectOk).trans := by
  obtain ⟨alloc, channel, nonblock, watch, cq, notify⟩ := o
  cases alloc with
  | false => cases w <;> exact ⟨rfl, rfl, unsettled_connecting⟩
  | true =>
  cases channel with
  | false => cases w <;> exact ⟨rfl, rfl, unsettled_connecting⟩
  | true =>
  cases nonblock with
  | false => cases w <;> exact ⟨rfl, rfl, unsettled_connecting⟩
  | true =>
  cases watch with
  | false => cases w <;> exact ⟨rfl, rfl, unsettled_connecting⟩
  | true =>
  cases cq with
  | false => cases w <;> exact ⟨rfl, rfl, unsettled_connecting⟩
  | true =>
  cases notify with
  | false => cases w <;> exact ⟨rfl, rfl, unsettled_connecting⟩
  | true =>
  cases qpOk with
  | false => cases w <;> exact ⟨rfl, rfl, unsettled_connecting⟩
  | true =>
  cases connectOk with
  | false => cases w <;> exact ⟨rfl, rfl, unsettled_error⟩
  | true => exact ⟨rfl, by cases w <;> rfl, rfl, rfl, w, rfl⟩

theorem of_handleEcEvent (h : Ledger t) {e : CmEvent} {r : Handled}
    (hr : handleEcEvent t e = some r) : Ledger r.trans := by
  obtain ⟨transState, cm, ptr, held, fault⟩ := t
  obtain ⟨rfl, hregions, hcm⟩ := h
  cases handles_of_handleEcEvent hr with
  | @addrResolved routeOk hphase =>
    obtain rfl : cm = .resolving := hphase
    obtain ⟨rfl, w, rfl⟩ := hcm
    cases routeOk with
    | true => exact ⟨rfl, hregions, rfl, w, rfl⟩
    | false => exact ⟨rfl, hregions, unsettled_connecting⟩
  | @routeResolved o qpOk connectOk hphase =>
    obtain rfl : cm = .routing := hphase
    obtain ⟨rfl, w, rfl⟩ := hcm
    exact routeResolved o qpOk connectOk ptr w
  | established hphase =>
    obtain rfl : cm = .connecting := hphase
    obtain ⟨-, hptr, w, rfl⟩ := hcm
    exact ⟨rfl, hregions, rfl, hptr, w, rfl⟩
  | rejected hphase =>
    obtain rfl : cm = .connecting := hphase
    obtain ⟨-, hptr, w, rfl⟩ := hcm
    exact ⟨rfl, hregions, rfl, hptr, w, rfl⟩
  | connectError hphase =>
    obtain rfl : cm = .connecting := hphase
    obtain ⟨-, hptr, w, rfl⟩ := hcm
    exact ⟨by cases w <;> rfl, by cases w <;> rfl, unsettled_error⟩
  | disconnected hphase =>
    obtain rfl : cm = .established := hphase
    obtain ⟨-, hptr, w, rfl⟩ := hcm
    exact ⟨by cases w <;> rfl, by cases w <;> rfl, unsettled_disconnected⟩
  | unreachable hphase =>
    -- only the state matters, and in each of the three phases it is still `CONNECTING`
    have hkept : cm.kept = 2 ∧ transState = .CONNECTING := by
      rcases hphase with hp | hp | hp
      · obtain rfl : cm = .resolving := hp
        exact ⟨rfl, hcm.1⟩
      · obtain rfl : cm = .routing := hp
        exact ⟨rfl, hcm.1⟩
      · obtain rfl : cm = .connecting := hp
        exact ⟨rfl, hcm.1⟩
    obtain ⟨hkept, rfl⟩ := hkept
    exact ⟨rfl, hregions.trans hkept, unsettled_connecting⟩

theorem connected (h : Ledger t) (hstate : t.transState = .CONNECTED) (hfree : t.cm ≠ .freed) :
    t.cm = .established := by
  obtain ⟨transState, cm, ptr, held, fault⟩ := t
  obtain rfl : transState = .CONNECTED := hstate
  obtain ⟨-, -, hcm⟩ := h
  cases cm with
  | established => rfl
  | idle => cases hcm
  | resolving | routing | connecting | rejected => cases hcm.1
  | stalled | destroyed => exact absurd rfl hcm.2
  | freed => exact absurd rfl hfree

theorem rejected (h : Ledger t) (hstate : t.transState = .REJECT) (hfree : t.cm ≠ .freed) :
    t.cm = .rejected := by
  obtain ⟨transState, cm, ptr, held, fault⟩ := t
  obtain rfl : transState = .REJECT := hstate
  obtain ⟨-, -, hcm⟩ := h
  cases cm with
  | rejected => rfl
  | idle => cases hcm
  | resolving | routing | connecting | established => cases hcm.1
  | stalled | destroyed => exact absurd rfl hcm.1
  | freed => exact absurd rfl hfree

/-- `free_trans` leaves the receive region, the completion channel and the event data. -/
theorem free (h : Ledger t) (hphase : t.cm = .rejected) : Ledger (freeTrans t) := by
  obtain ⟨transState, cm, ptr, held, fault⟩ := t
  obtain ⟨rfl, -, hcm⟩ := h
  obtain rfl : cm = .rejected := hphase
  obtain ⟨-, hptr, w, rfl⟩ := hcm
  obtain rfl : ptr = true := hptr
  exact ⟨by cases w <;> rfl, by cases w <;> rfl, w, by cases w <;> rfl⟩

end Ledger

end RdmaMiddleware.TransportResources
