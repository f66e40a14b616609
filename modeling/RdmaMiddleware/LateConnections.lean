import RdmaMiddleware.ConnectRounds
import RdmaMiddleware.ConnectionLists

/-!
# Connections that come too late

A client whose calls of `dhmp_connect` all lead to one server, the server, and the connection
requests on the way between them. `on_cm_connect_request` refuses a request by returning: it
calls neither `rdma_accept` nor `rdma_reject`.
-/
namespace RdmaMiddleware.LateConnections
open TransitionSystem Connection TransportResources

/-- `accepted` holds the transports of the client whose request the server has accepted. -/
structure State where
  client : ConnectRounds.State
  server : Connection.State
  requests : List ℕ
  accepted : List ℕ

def start : State := ⟨ConnectRounds.start, Connection.start, [], []⟩

/-- The request that a successful `rdma_connect` sends. -/
def sent (client : ConnectRounds.State) : ConnectRounds.Action → List ℕ
  | .getCmEvent i (.routeResolved _ _ _) =>
    if (client.trans[i]?).any (·.cm = .connecting) then [i] else []
  | _ => []

/-- A connection is established only after the server has accepted it. -/
def possible (accepted : List ℕ) : ConnectRounds.Action → Bool
  | .getCmEvent i .established => i ∈ accepted
  | _ => true

/-- Whether `on_cm_connect_request` gets as far as a successful `rdma_accept`. -/
def accepts (server : Connection.State) (addr : InAddr) (memory : Option InAddr)
    (qpOk acceptOk : Bool) : Bool :=
  !isExistConnection server addr && memory.isSome && qpOk && acceptOk

/-- An event of the server that is no request of this client. -/
def foreign (addr : InAddr) : Connection.Event → Bool
  | .connectRequest sock _ _ _ => sock ≠ addr
  | _ => true

inductive Action
  | client (a : ConnectRounds.Action)
  /-- The request of transport `i` comes in at the server. -/
  | request (i : ℕ) (memory : Option InAddr) (qpOk acceptOk : Bool)
  | server (e : Connection.Event)

/-- `addr` is the client's address. -/
def step (addr : InAddr) (s : State) : Action → Option State
  | .client a =>
    if possible s.accepted a then
      (ConnectRounds.step s.client a).map fun client =>
        { s with client := client, requests := s.requests ++ sent client a }
    else none
  | .request i memory qpOk acceptOk =>
    if i ∈ s.requests then
      some { s with
        server := onCmConnectRequest s.server addr memory qpOk acceptOk
        requests := s.requests.erase i
        accepted :=
          if accepts s.server addr memory qpOk acceptOk then i :: s.accepted else s.accepted }
    else none
  | .server e =>
    if foreign addr e then
      (Connection.step s.server e).map fun server => { s with server := server }
    else none

def lateSystem (addr : InAddr) : System State Action where
  init s := s = start
  step := step addr

theorem reachable_start (addr : InAddr) : Reachable (lateSystem addr) start := .start rfl

/-! ## What both sides know -/

/-- Before the request. -/
def Unsent (cm : Cm) : Prop := cm = .idle ∨ cm = .resolving ∨ cm = .routing

theorem Unsent.of_next {cm cm' : Cm} (h : Unsent cm') (hnext : Cm.Next cm cm') : Unsent cm := by
  cases hnext with
  | route => exact .inr (.inl rfl)
  | connect | establish | reject | fail | disconnect | giveUp => simp [Unsent] at h

/-- Each transport sends at most one request, which is accepted at most once; what the client
takes for established was accepted. -/
structure Linked (s : State) : Prop where
  client : ConnectRounds.Sound s.client
  server : TransportInv s.server
  nodup : (s.requests ++ s.accepted).Nodup
  lt_length : ∀ i ∈ s.requests ++ s.accepted, i < s.client.trans.length
  unsent : ∀ i t, s.client.trans[i]? = some t → Unsent t.cm → i ∉ s.requests ++ s.accepted
  established : ∀ i t, s.client.trans[i]? = some t → t.cm = .established → i ∈ s.accepted
  returned : ∀ i, s.client.main = .returned (some i) → i ∈ s.accepted

variable {addr : InAddr} {s u : State}

/-- Only the handler of `RDMA_CM_EVENT_ESTABLISHED` establishes a connection. -/
theorem eq_established {t : Trans} {e : CmEvent} {r : Handled} (hr : handleEcEvent t e = some r)
    (hcm : r.trans.cm = .established) : e = .established := by
  cases handles_of_handleEcEvent hr with
  | established => rfl
  | @addrResolved routeOk => cases routeOk <;> cases hcm
  | @routeResolved o qpOk connectOk =>
    rcases onCmRouteResolved_cm t o qpOk connectOk with h | h <;> cases h.symm.trans hcm
  | rejected | connectError | disconnected | unreachable => cases hcm

/-- Only `on_cm_route_resolved` sends a request, for a transport that has sent none. -/
theorem sent_cases {c c' : ConnectRounds.State} {a : ConnectRounds.Action}
    (hu : ConnectRounds.step c a = some c') :
    sent c' a = [] ∨ ∃ i x t, sent c' a = [i] ∧ c.trans[i]? = some x ∧ x.cm = .routing ∧
      c'.trans[i]? = some t ∧ t.cm = .connecting := by
  cases ConnectRounds.effect_of_step hu with
  | connect | connected | rejected | again | noEvent | leave => exact .inl rfl
  | @getCmEvent i e x r hx hlisten hr =>
    have hlookup := ConnectRounds.lookup_set_self hx r.trans
    cases handles_of_handleEcEvent hr with
    | @routeResolved o qpOk connectOk hphase =>
      rcases onCmRouteResolved_cm x o qpOk connectOk with h | h
      · exact .inl (by simp [sent, hlookup, h])
      · exact .inr ⟨i, x, _, by simp [sent, hlookup, h], hx, hphase, hlookup, h⟩
    | addrResolved | established | rejected | connectError | disconnected | unreachable =>
      exact .inl rfl

namespace Linked

/-- A transport that has sent no request had sent none before the step. -/
theorem unsent_of_step (h : Linked s) {c : ConnectRounds.State} {a : ConnectRounds.Action}
    (hu : ConnectRounds.step s.client a = some c) {i : ℕ} {t : Trans}
    (ht : c.trans[i]? = some t) (hunsent : Unsent t.cm) : i ∉ s.requests ++ s.accepted := by
  rcases ConnectRounds.origin_of_step hu ht with hold | hfresh | hfreed |
    ⟨e, x, r, -, hx, hr, rfl⟩
  · exact h.unsent i t hold hunsent
  · exact fun hi => absurd (h.lt_length i hi) (Nat.not_lt.2 hfresh.1)
  · simp [Unsent, hfreed] at hunsent
  · exact h.unsent i x hx (hunsent.of_next (next_of_handleEcEvent hr))

theorem established_of_step (h : Linked s) {c : ConnectRounds.State} {a : ConnectRounds.Action}
    (hposs : possible s.accepted a = true) (hu : ConnectRounds.step s.client a = some c) {i : ℕ}
    {t : Trans} (ht : c.trans[i]? = some t) (hcm : t.cm = .established) : i ∈ s.accepted := by
  rcases ConnectRounds.origin_of_step hu ht with hold | hfresh | hfreed |
    ⟨e, x, r, rfl, hx, hr, rfl⟩
  · exact h.established i t hold hcm
  · rcases hfresh.2 with hphase | hphase <;> cases hphase.symm.trans hcm
  · cases hfreed.symm.trans hcm
  · obtain rfl := eq_established hr hcm
    simpa [possible] using hposs

/-- What `dhmp_connect` takes for connected was accepted. -/
theorem accepted_of_connected (h : Linked s) {i : ℕ} {t : Trans}
    (hmain : s.client.main = .sleeping i) (ht : s.client.trans[i]? = some t)
    (hstate : t.transState = .CONNECTED) : i ∈ s.accepted := by
  obtain ⟨x, hx, hfree⟩ := h.client.sleeping i hmain
  obtain rfl := Option.some.inj (ht.symm.trans hx)
  exact h.established i t ht ((h.client.lookup ht).connected hstate hfree)

theorem clientStep (h : Linked s) {c : ConnectRounds.State} {a : ConnectRounds.Action}
    (hposs : possible s.accepted a = true) (hu : ConnectRounds.step s.client a = some c) :
    Linked { s with client := c, requests := s.requests ++ sent c a } := by
  have hperm : ((s.requests ++ sent c a) ++ s.accepted).Perm
      (sent c a ++ (s.requests ++ s.accepted)) := by
    rw [← List.append_assoc]
    exact List.perm_append_comm.append_right _
  refine ⟨h.client.of_step hu, h.server, ?_, ?_, ?_, ?_, ?_⟩
  · rw [hperm.nodup_iff]
    rcases sent_cases hu with hsent | ⟨i, x, t, hsent, hx, hcm, -, -⟩
    · rw [hsent]
      exact h.nodup
    · rw [hsent]
      exact List.nodup_cons.2 ⟨h.unsent i x hx (.inr (.inr hcm)), h.nodup⟩
  · intro j hj
    rcases List.mem_append.1 (hperm.subset hj) with hj | hj
    · rcases sent_cases hu with hsent | ⟨i, x, t, hsent, -, -, ht, -⟩
      · simp [hsent] at hj
      · obtain rfl : j = i := by simpa [hsent] using hj
        exact (List.getElem?_eq_some_iff.1 ht).1
    · exact Nat.lt_of_lt_of_le (h.lt_length j hj) (ConnectRounds.length_of_step hu)
  · intro j t ht hunsent hj
    rcases List.mem_append.1 (hperm.subset hj) with hj | hj
    · rcases sent_cases hu with hsent | ⟨i, x, t', hsent, -, -, ht', hcm⟩
      · simp [hsent] at hj
      · obtain rfl : j = i := by simpa [hsent] using hj
        obtain rfl := Option.some.inj (ht.symm.trans ht')
        simp [Unsent, hcm] at hunsent
    · exact h.unsent_of_step hu ht hunsent hj
  · exact fun j t ht hcm => h.established_of_step hposs hu ht hcm
  · intro j hj
    rcases ConnectRounds.main_of_step hu with hm | hm | ⟨n, -, hm⟩ | ⟨i, t, hmain, ht, hstate, hm⟩
    · exact h.returned j (hm.symm.trans hj)
    · cases hm.symm.trans hj
    · cases hm.symm.trans hj
    · cases hm.symm.trans hj
      exact h.accepted_of_connected hmain ht hstate

theorem request (h : Linked s) {i : ℕ} (hi : i ∈ s.requests) (addr : InAddr)
    (memory : Option InAddr) (qpOk acceptOk accepted : Bool) : Linked { s with
      server := onCmConnectRequest s.server addr memory qpOk acceptOk
      requests := s.requests.erase i
      accepted := if accepted then i :: s.accepted else s.accepted } := by
  have hserver : TransportInv (onCmConnectRequest s.server addr memory qpOk acceptOk) :=
    h.server.step (e := .connectRequest addr memory qpOk acceptOk) rfl
  have hsub : (s.requests.erase i ++ if accepted then i :: s.accepted else s.accepted).Subperm
      (s.requests ++ s.accepted) := by
    cases accepted with
    | true =>
      have hperm : (s.requests.erase i ++ i :: s.accepted).Perm (s.requests ++ s.accepted) :=
        List.perm_middle.trans ((List.perm_cons_erase hi).symm.append_right _)
      exact hperm.subperm
    | false => exact ((List.erase_sublist ..).append_right _).subperm
  have hnodup : (s.requests.erase i ++ if accepted then i :: s.accepted else s.accepted).Nodup := by
    obtain ⟨l, hl, hl'⟩ := hsub
    exact hl.nodup_iff.1 (h.nodup.sublist hl')
  have hmem : ∀ j ∈ s.accepted, j ∈ if accepted then i :: s.accepted else s.accepted := by
    intro j hj
    split_ifs
    · exact List.mem_cons_of_mem _ hj
    · exact hj
  exact ⟨h.client, hserver, hnodup, fun j hj => h.lt_length j (hsub.subset hj),
    fun j t ht hunsent hj => h.unsent j t ht hunsent (hsub.subset hj),
    fun j t ht hcm => hmem j (h.established j t ht hcm), fun j hj => hmem j (h.returned j hj)⟩

theorem of_step (h : Linked s) {a : Action} (hu : step addr s a = some u) : Linked u := by
  cases a with
  | client a =>
    simp only [step] at hu
    split_ifs at hu with hposs
    obtain ⟨c, hc, rfl⟩ := Option.map_eq_some_iff.1 hu
    exact h.clientStep hposs hc
  | request i memory qpOk acceptOk =>
    simp only [step] at hu
    split at hu
    next hi =>
      cases hu
      exact h.request hi addr memory qpOk acceptOk _
    next => cases hu
  | server e =>
    simp only [step] at hu
    split_ifs at hu with hforeign
    obtain ⟨server, hserver, rfl⟩ := Option.map_eq_some_iff.1 hu
    exact { h with server := h.server.step hserver }

end Linked

theorem linked_of_reachable (hs : Reachable (lateSystem addr) s) : Linked s := by
  refine hs.invariant (P := Linked) ?_ fun _ _ _ h _ hu => h.of_step hu
  rintro _ rfl
  exact ⟨ConnectRounds.sound_of_reachable ConnectRounds.reachable_start,
    transportInv_of_reach (.start rfl : Reachable connectionSystem _), .nil, nofun, nofun, nofun,
    nofun⟩

/-- `dhmp_connect` returns a connection only when the server has accepted it, and the server
accepts each transport's request at most once. -/
theorem returned_accepted (hs : Reachable (lateSystem addr) s) :
    (s.requests ++ s.accepted).Nodup ∧
      ∀ i, s.client.main = .returned (some i) → i ∈ s.accepted :=
  ⟨(linked_of_reachable hs).nodup, (linked_of_reachable hs).returned⟩

def loopback : InAddr := ⟨127, 0, 0, 1⟩

/-- A request that is answered in time. -/
def timelyRun : List Action :=
  [.client (.connect ConnectRounds.createOk ConnectRounds.connectOk)] ++
    (ConnectRounds.toConnect 0 true).map .client ++
    [.request 0 (some loopback) true true, .client (.getCmEvent 0 .established),
      .client .noEvent, .client ConnectRounds.wakeOk]

theorem returned_accepted_timelyRun : ∃ s : State, s.client.main = .returned (some 0) ∧
    0 ∈ s.accepted := by
  obtain ⟨s, _, hs, hcheck⟩ := reach_of_run_any (fun _ _ _ => trivial) (reachable_start loopback)
    (show (run (lateSystem loopback) (fun _ _ => true) start timelyRun).any
      (fun s => s.client.main = .returned (some 0)) = true by decide +kernel)
  rw [decide_eq_true_eq] at hcheck
  exact ⟨s, hcheck, (returned_accepted hs).2 0 hcheck⟩

/-! ## The refused client -/

/-- Transport `j` of the server is a listed connection of the client. -/
def Listed (addr : InAddr) (server : Connection.State) (j : ℕ) : Prop :=
  j ∈ server.clientList ∧
    ∃ x, server.transports j = some x ∧ x.peerAddr = addr ∧ x.routeAddr = addr

/-- The connection lasts: the server sees neither its end nor an error on it. -/
def Lasting (j : ℕ) : Action → Prop
  | .server e => e ≠ .disconnected j ∧ e ≠ .connectError j
  | _ => True

namespace Listed
variable {server server' : Connection.State} {j : ℕ}

theorem exists_connection (h : Listed addr server j) : isExistConnection server addr = true := by
  obtain ⟨hlist, x, hx, hpeer, -⟩ := h
  exact isExistConnection_iff.2 ⟨x, List.mem_filterMap.2 ⟨j, hlist, hx⟩, hpeer⟩

theorem set (h : Listed addr server j) {id : ℕ} {x y : Transport}
    (hx : server.transports id = some x) (hroute : y.routeAddr = x.routeAddr)
    (hpeer : y.peerAddr = x.peerAddr ∨ y.peerAddr = x.routeAddr) :
    Listed addr (server.set id y) j := by
  obtain ⟨hlist, z, hz, hzpeer, hzroute⟩ := h
  refine ⟨hlist, ?_⟩
  rw [set_transports]
  split_ifs with hj
  · subst hj
    obtain rfl := Option.some.inj (hx.symm.trans hz)
    exact ⟨y, rfl, hpeer.elim (·.trans hzpeer) (·.trans hzroute), hroute.trans hzroute⟩
  · exact ⟨z, hz, hzpeer, hzroute⟩

theorem unlink (h : Listed addr server j) {id : ℕ} (hid : id ≠ j) :
    Listed addr (server.unlink id) j :=
  ⟨(List.mem_erase_of_ne hid.symm).2 h.1, h.2⟩

theorem of_step (h : Listed addr server j) (hinv : TransportInv server) {e : Connection.Event}
    (hlast : e ≠ .disconnected j ∧ e ≠ .connectError j)
    (hu : Connection.step server e = some server') : Listed addr server' j := by
  obtain ⟨hlist, x, hx, hpeer, hroute⟩ := id h
  cases stepEffect_of_step hinv hu with
  | same hsame =>
    obtain ⟨y, hy, hside⟩ := hinv.listed_server j hlist
    obtain rfl := Option.some.inj (hx.symm.trans hy)
    exact ⟨hsame.clientList ▸ hlist, x, (hsame.transports j x hside).2 hx, hpeer, hroute⟩
  | refuse hexist => exact h
  | enlist hexist =>
    refine ⟨List.mem_append_left _ hlist, x, ?_, hpeer, hroute⟩
    have hne : j ≠ server.next := Nat.ne_of_lt (hinv.lt_next j x hx)
    exact (add_transports ..).trans ((if_neg hne).trans hx)
  | established hy hside => exact h.set hy rfl (.inr rfl)
  | disconnected hy hflag =>
    apply unlink
    · exact h.set hy rfl (.inl rfl)
    · rintro rfl
      exact hlast.1 rfl
  | connectError hy =>
    unfold onCmError
    apply unlink
    · exact h.set hy rfl (.inl rfl)
    · rintro rfl
      exact hlast.2 rfl
  | rejected hy hside => exact h.set hy rfl (.inl rfl)

end Listed

/-- From `s` on the server accepts nothing more of the client, and `dhmp_connect` is at a
transport that was not accepted. -/
structure Refused (addr : InAddr) (j : ℕ) (s t : State) : Prop where
  listed : Listed addr t.server j
  accepted : t.accepted = s.accepted
  sleeping : ∀ i, t.client.main = .sleeping i → i ∉ t.accepted
  returned : ∀ i, t.client.main = .returned (some i) → s.client.main = .returned (some i)

theorem Refused.of_step {t : State} {j : ℕ} (h : Refused addr j s t) (hlinked : Linked t)
    {a : Action} (hlast : Lasting j a) (hu : step addr t a = some u) : Refused addr j s u := by
  cases a with
  | client a =>
    simp only [step] at hu
    split_ifs at hu with hposs
    obtain ⟨c, hc, rfl⟩ := Option.map_eq_some_iff.1 hu
    rcases ConnectRounds.main_of_step hc with hm | hm | ⟨n, hn, hm⟩ | ⟨i, x, hmain, hx, hstate, -⟩
    · exact ⟨h.listed, h.accepted, fun i hi => h.sleeping i (hm.symm.trans hi),
        fun i hi => h.returned i (hm.symm.trans hi)⟩
    · refine ⟨h.listed, h.accepted, fun i hi => ?_, fun i hi => ?_⟩ <;> cases hm.symm.trans hi
    · refine ⟨h.listed, h.accepted, fun i hi hacc => ?_, fun i hi => ?_⟩
      · cases hm.symm.trans hi
        exact absurd (hlinked.lt_length n (List.mem_append_right _ hacc)) (Nat.not_lt.2 hn)
      · cases hm.symm.trans hi
    · exact absurd (hlinked.accepted_of_connected hmain hx hstate) (h.sleeping i hmain)
  | request i memory qpOk acceptOk =>
    simp only [step] at hu
    split at hu
    next hi =>
      cases hu
      have hrefuse : accepts t.server addr memory qpOk acceptOk = false := by
        simp [accepts, h.listed.exists_connection]
      rw [hrefuse]
      refine ⟨?_, h.accepted, h.sleeping, h.returned⟩
      exact h.listed.of_step (e := .connectRequest addr memory qpOk acceptOk) hlinked.server
        ⟨nofun, nofun⟩ rfl
    next => cases hu
  | server e =>
    simp only [step] at hu
    split_ifs at hu with hforeign
    obtain ⟨server, hserver, rfl⟩ := Option.map_eq_some_iff.1 hu
    exact ⟨h.listed.of_step hlinked.server hlast hserver, h.accepted, h.sleeping, h.returned⟩

/-- `dhmp_connect` gives the first transport up before its request is answered. -/
def lateRun : List Action :=
  [.client (.connect ConnectRounds.createOk ConnectRounds.connectOk)] ++
    (ConnectRounds.toConnect 0 true).map .client ++
    [.client .noEvent, .client ConnectRounds.wakeOk, .request 0 (some loopback) true true,
      .server (.established 0), .client (.getCmEvent 0 .established)]

section Progress
open ConnectRounds (createOk connectOk cqOk wakeOk connectRound)

/-- A transport in the phases of a round in which nothing fails. -/
def resolving : Trans := ⟨.CONNECTING, .resolving, false, .cmId :: createdHeld true, false⟩

def routing : Trans := { resolving with cm := .routing }

def connecting : Trans := ⟨.CONNECTING, .connecting, true, connectedHeld true, false⟩

def established : Trans := { connecting with transState := .CONNECTED, cm := .established }

/-- `dhmp_connect` sleeps on transport `n`. -/
structure At (c : ConnectRounds.State) (n : ℕ) (t : Trans) (thread : ConnectRounds.Epoll) :
    Prop where
  lookup : c.trans[n]? = some t
  main : c.main = .sleeping n
  epoll : c.epoll = thread

variable {c : ConnectRounds.State} {n : ℕ} {x : Trans} {thread : ConnectRounds.Epoll}

theorem At.getCmEvent (h : At c n x thread)
    (hlisten : thread = .inLoop n ∨ thread = .waiting ∧ .eventWatch ∈ x.held) {e : CmEvent}
    {r : Handled} (hr : handleEcEvent x e = some r) (hok : r.ok = true) :
    ∃ c', ConnectRounds.step c (.getCmEvent n e) = some c' ∧ At c' n r.trans (.inLoop n) := by
  have hlistens : ConnectRounds.listens c n x = true := by
    rw [ConnectRounds.listens, h.epoll]
    rcases hlisten with rfl | ⟨rfl, hwatch⟩
    · simp
    · simp [hwatch]
  refine ⟨{ c with trans := c.trans.set n r.trans, stop := c.stop || r.stop, epoll := .inLoop n },
    ?_, ConnectRounds.lookup_set_self h.lookup _, h.main, rfl⟩
  simp only [ConnectRounds.step, ConnectRounds.getCmEvent, h.lookup, hlistens, hr, hok, if_true,
    Option.map_some]

theorem exists_noEvent {i : ℕ} (h : c.epoll = .inLoop i) :
    ∃ c', ConnectRounds.step c .noEvent = some c' ∧ c'.trans = c.trans ∧ c'.main = c.main ∧
      c'.epoll = .waiting := by
  refine ⟨{ c with epoll := .waiting
                   staleGet := c.staleGet || (c.trans[i]?).any (·.cm = .freed) },
    ?_, rfl, rfl, rfl⟩
  simp only [ConnectRounds.step, h]

theorem at_connectRound (c : ConnectRounds.State) :
    At (connectRound c createOk connectOk) c.trans.length resolving c.epoll :=
  ⟨List.getElem?_concat_length, rfl, rfl⟩

/-- `dhmp_connect` has a connection, or is in a new round. -/
def Begun (c c' : ConnectRounds.State) : Prop :=
  (∃ n x, c'.main = .returned (some n) ∧ c'.trans[n]? = some x ∧ x.transState = .CONNECTED) ∨
    ∃ n, At c' n resolving c.epoll

theorem exists_wake {i : ℕ} (hx : c.trans[i]? = some x) : ∃ c',
    ConnectRounds.connectWake c i createOk createOk connectOk = some c' ∧ Begun c c' := by
  unfold ConnectRounds.connectWake
  rw [hx]
  dsimp only
  split
  next hstate => exact ⟨_, rfl, .inl ⟨i, x, rfl, hx, hstate⟩⟩
  next => exact ⟨_, rfl, .inr ⟨_, at_connectRound _⟩⟩
  next => exact ⟨_, rfl, .inr ⟨_, at_connectRound _⟩⟩

theorem exists_round (h : ConnectRounds.Sound c) : ∃ a c',
    (∀ accepted, possible accepted a = true) ∧ ConnectRounds.step c a = some c' ∧ Begun c c' := by
  by_cases hmain : ∃ i, c.main = .sleeping i
  · obtain ⟨i, hmain⟩ := hmain
    obtain ⟨x, hx, -⟩ := h.sleeping i hmain
    obtain ⟨c', hc', hbegun⟩ := exists_wake hx
    refine ⟨wakeOk, c', fun _ => rfl, ?_, hbegun⟩
    simp only [ConnectRounds.step, wakeOk, hmain, hc']
  · refine ⟨.connect createOk connectOk, _, fun _ => rfl, ?_, .inr ⟨_, at_connectRound c⟩⟩
    simp only [ConnectRounds.step]
    split
    next i hsleeping => exact absurd ⟨i, hsleeping⟩ hmain
    next => rfl

theorem reach_client {t : State} (h : Reachable ((lateSystem addr).after s) t)
    {a : ConnectRounds.Action} (hposs : possible t.accepted a = true)
    (hc : ConnectRounds.step t.client a = some c) :
    Reachable ((lateSystem addr).after s)
      { t with client := c, requests := t.requests ++ sent c a } := by
  refine h.next trivial (a := .client a) ?_
  show step addr t (.client a) = _
  simp only [step, hposs, if_true, hc, Option.map_some]

/-- The server accepts a request when it lists no transport of the client. -/
theorem exists_accepted {t : State} (h : Reachable ((lateSystem addr).after s) t)
    (hn : n ∈ t.requests) (hfree : isExistConnection t.server addr = false) :
    ∃ u, Reachable ((lateSystem addr).after s) u ∧ u.client = t.client ∧ n ∈ u.accepted := by
  have haccepts : accepts t.server addr (some addr) true true = true := by simp [accepts, hfree]
  let u : State := { t with
    server := onCmConnectRequest t.server addr (some addr) true true
    requests := t.requests.erase n
    accepted := n :: t.accepted }
  have hu : step addr t (.request n (some addr) true true) = some u := by
    simp only [step, hn, haccepts, if_true, u]
  exact ⟨u, h.next (a := .request n (some addr) true true) trivial hu, rfl, List.mem_cons_self⟩

end Progress

/-- The first transport is rejected, the next one does not reach the server. -/
def failures : List Action :=
  [.client (.connect ConnectRounds.createOk ConnectRounds.connectOk)] ++
    (ConnectRounds.toConnect 0 true).map .client ++
    [.client (.getCmEvent 0 .rejected), .client .noEvent, .client ConnectRounds.wakeOk,
      .client (.getCmEvent 2 .unreachable)]

end RdmaMiddleware.LateConnections
