import Mathlib.Data.Int.Notation
import Mathlib.Data.List.GetD
import Mathlib.Logic.Function.Basic
import RdmaMiddleware.TransitionSystem

/-!
# Connection management

The handlers of `dhmp_handle_ec_event` for a node that runs a server, and `dhmp_connect`
of the same node's client. A transport is named by the order of its creation.
Each handler runs as one step; address and route resolution change neither the client
list nor the counter and are left out, as are queue pairs and memory regions.
-/
namespace RdmaMiddleware.Connection
open TransitionSystem

/-! ## Addresses -/

/-- An IPv4 address. -/
structure InAddr where
  b0 : UInt8
  b1 : UInt8
  b2 : UInt8
  b3 : UInt8
  deriving DecidableEq

/-- A byte in decimal digits. -/
def decimal (n : ℕ) : List UInt8 :=
  (if 100 ≤ n then [UInt8.ofNat (48 + n / 100)] else []) ++
    (if 10 ≤ n then [UInt8.ofNat (48 + n / 10 % 10)] else []) ++ [UInt8.ofNat (48 + n % 10)]

/-- The text that `inet_ntop` makes of an address. -/
def inetNtop (a : InAddr) : List UInt8 :=
  decimal a.b0.toNat ++ 46 :: (decimal a.b1.toNat ++ 46 :: (decimal a.b2.toNat ++
    46 :: decimal a.b3.toNat))

/-- `memcmp` of two texts over the length of the longer one; the byte after the shorter one
is its terminator. -/
def sameText (cur travers : List UInt8) : Bool :=
  (List.range (max cur.length travers.length)).all fun i =>
    cur.getD i 0 == travers.getD i 0

/-! ## Transports -/

inductive TransState
  | INIT
  | LISTEN
  | CONNECTING
  | CONNECTED
  | DISCONNECTED
  | RECONNECT
  | CLOSED
  | DESTROYED
  | ERROR
  | REJECT
  deriving DecidableEq

/-- Created in `on_cm_connect_request` or in `dhmp_connect`. -/
inductive Side
  | server
  | client
  deriving DecidableEq

/-- `routeAddr` is the destination in `cm_id->route`. The last two fields record whether
`rdma_accept` succeeded and whether the transport was disconnected or failed. -/
structure Transport where
  side : Side
  routeAddr : InAddr
  peerAddr : InAddr
  transState : TransState
  isServer : Bool
  accepted : Bool
  ended : Bool

/-- `dhmp_transport_create`: `peer_addr` is what `malloc` left there. -/
def transportCreate (side : Side) (routeAddr memory : InAddr) : Transport :=
  { side := side, routeAddr := routeAddr, peerAddr := memory, transState := .INIT
    isServer := true, accepted := false, ended := false }

/-- Where the main thread stands in `dhmp_client_init`: in the `sleep` of `dhmp_connect`, or
past its return. -/
inductive ConnectPhase
  | idle
  | waiting (target : InAddr) (conn : ℕ)
  | returned (conn : ℕ)

/-- `refused` records the refused requests with the addresses listed at that time,
`wildUnlinks` the calls of `list_del` on an entry that is in no list. Such a call writes
through whatever the entry's pointers hold; the model only records it. -/
structure State where
  transports : ℕ → Option Transport
  next : ℕ
  clientList : List ℕ
  curConnections : ℤ
  phase : ConnectPhase
  refused : List (InAddr × List InAddr)
  wildUnlinks : List ℕ

namespace State

def listed (s : State) : List Transport := s.clientList.filterMap s.transports

/-- Where the listed transports really come from. -/
def listedAddrs (s : State) : List InAddr := s.listed.map (·.routeAddr)

def set (s : State) (id : ℕ) (x : Transport) : State :=
  { s with transports := Function.update s.transports id (some x) }

/-- The next transport. -/
def add (s : State) (x : Transport) : State :=
  { s.set s.next x with next := s.next + 1 }

/-- The unlinking in `on_cm_disconnected` and `on_cm_error`. -/
def unlink (s : State) (id : ℕ) : State :=
  { s with
    curConnections := s.curConnections - 1
    clientList := s.clientList.erase id
    wildUnlinks := if id ∈ s.clientList then s.wildUnlinks else s.wildUnlinks ++ [id] }

end State

/-! ## Events -/

/-- `dhmp_is_exist_connection`. -/
def isExistConnection (s : State) (sock : InAddr) : Bool :=
  s.listed.any fun x => sameText (inetNtop sock) (inetNtop x.peerAddr)

/-- The new transport is counted and listed before `rdma_accept` is called, and stays so
when that fails. -/
def enlist (s : State) (sock memory : InAddr) (acceptOk : Bool) : State :=
  { s.add { transportCreate .server sock memory with
      transState := if acceptOk then .CONNECTING else .INIT
      accepted := acceptOk } with
    curConnections := s.curConnections + 1
    clientList := s.clientList ++ [s.next] }

/-- `memory` is what the new transport's `peer_addr` holds, or `none` when it cannot be
created. -/
def onCmConnectRequest (s : State) (sock : InAddr) (memory : Option InAddr)
    (qpOk acceptOk : Bool) : State :=
  if isExistConnection s sock then { s with refused := s.refused ++ [(sock, s.listedAddrs)] }
  else match memory with
  | none => s
  | some memory => if qpOk then enlist s sock memory acceptOk else s

def onCmEstablished (s : State) (id : ℕ) (x : Transport) : State :=
  s.set id { x with peerAddr := x.routeAddr, transState := .CONNECTED }

def onCmDisconnected (s : State) (id : ℕ) (x : Transport) : State :=
  let s := s.set id { x with transState := .DISCONNECTED, ended := true }
  if x.isServer then s.unlink id else s

def onCmError (s : State) (id : ℕ) (x : Transport) : State :=
  (s.set id { x with transState := .ERROR, ended := true }).unlink id

def onCmRejected (s : State) (id : ℕ) (x : Transport) : State :=
  s.set id { x with transState := .REJECT, ended := true }

/-- One round of `dhmp_connect` up to its `sleep`. -/
def connectRound (s : State) (target : InAddr) (memory : Option InAddr) : State :=
  match memory with
  | none => { s with phase := .idle }
  | some memory =>
    { s.add (transportCreate .client target memory) with phase := .waiting target s.next }

/-- `dhmp_connect` after its `sleep`. A rejected transport is freed, and the one created in
its place is dropped by the next round. -/
def connectWake (s : State) (target : InAddr) (conn : ℕ) (spare memory : Option InAddr) :
    Option State :=
  match s.transports conn with
  | none => none
  | some x =>
    match x.transState with
    | .CONNECTED => some { s with phase := .returned conn }
    | .REJECT =>
      let s := { s with transports := Function.update s.transports conn none }
      let s := match spare with
        | none => s
        | some spare => s.add { transportCreate .client target spare with isServer := false }
      some (connectRound s target memory)
    | _ => some (connectRound s target memory)

inductive Event
  | connectRequest (sock : InAddr) (memory : Option InAddr) (qpOk acceptOk : Bool)
  | established (id : ℕ)
  | disconnected (id : ℕ)
  | connectError (id : ℕ)
  | rejected (id : ℕ)
  /-- The main thread calls `dhmp_connect`. -/
  | connect (target : InAddr) (memory : Option InAddr)
  /-- Its `sleep` ends. -/
  | wake (spare memory : Option InAddr)
  /-- After `dhmp_connect` has returned, `is_server` is cleared. -/
  | clearServer

/-- A handler on an existing transport. -/
def handle (s : State) (id : ℕ) (f : State → ℕ → Transport → State) : Option State :=
  (s.transports id).map (f s id)

def step (s : State) : Event → Option State
  | .connectRequest sock memory qpOk acceptOk =>
    some (onCmConnectRequest s sock memory qpOk acceptOk)
  | .established id => handle s id onCmEstablished
  | .disconnected id => handle s id onCmDisconnected
  | .connectError id => handle s id onCmError
  | .rejected id => handle s id onCmRejected
  | .connect target memory =>
    match s.phase with
    | .idle => some (connectRound s target memory)
    | _ => none
  | .wake spare memory =>
    match s.phase with
    | .waiting target conn => connectWake s target conn spare memory
    | _ => none
  | .clearServer =>
    match s.phase with
    | .returned conn => (s.transports conn).map fun x =>
        { s.set conn { x with isServer := false } with phase := .idle }
    | _ => none

def start : State where
  transports := fun _ => none
  next := 0
  clientList := []
  curConnections := 0
  phase := .idle
  refused := []
  wildUnlinks := []

def connectionSystem : System State Event where
  init := fun s => s = start
  step := step

/-! ## Comparing addresses -/

/-- The number a decimal text stands for. -/
def ofDecimal (text : List UInt8) : ℕ := text.foldl (fun v c => 10 * v + (c.toNat - 48)) 0

theorem ofDecimal_decimal : ∀ n < 256, ofDecimal (decimal n) = n := by decide +kernel

theorem decimal_bytes : ∀ n < 256, ∀ c ∈ decimal n, c ≠ 46 ∧ c ≠ 0 := by
  have hall : ∀ n < 256, ((decimal n).all fun c => c != 46 && c != 0) = true := by
    decide +kernel
  intro n hn c hc
  simpa using List.all_eq_true.mp (hall n hn) c hc

theorem append_separator_inj {c : UInt8} {l l' r r' : List UInt8} (hl : c ∉ l) (hl' : c ∉ l')
    (h : l ++ c :: r = l' ++ c :: r') : l = l' ∧ r = r' := by
  induction l generalizing l' with
  | nil =>
    cases l' with
    | nil => exact ⟨rfl, (List.cons.inj h).2⟩
    | cons x l' =>
      rw [List.nil_append, List.cons_append] at h
      exact absurd (by rw [(List.cons.inj h).1]; exact List.mem_cons_self) hl'
  | cons x l ih =>
    cases l' with
    | nil =>
      rw [List.nil_append, List.cons_append] at h
      exact absurd (by rw [← (List.cons.inj h).1]; exact List.mem_cons_self) hl
    | cons y l' =>
      rw [List.cons_append, List.cons_append] at h
      obtain ⟨rfl, htail⟩ := List.cons.inj h
      obtain ⟨rfl, hr⟩ := ih (fun hm => hl (List.mem_cons_of_mem _ hm))
        (fun hm => hl' (List.mem_cons_of_mem _ hm)) htail
      exact ⟨rfl, hr⟩

theorem decimal_inj {a b : UInt8} (h : decimal a.toNat = decimal b.toNat) : a = b := by
  have ha := ofDecimal_decimal a.toNat a.toNat_lt
  have hb := ofDecimal_decimal b.toNat b.toNat_lt
  exact UInt8.toNat_inj.mp (by rw [← ha, ← hb, h])

theorem inetNtop_inj {a b : InAddr} (h : inetNtop a = inetNtop b) : a = b := by
  have hdot : ∀ c : UInt8, (46 : UInt8) ∉ decimal c.toNat := fun c hm =>
    (decimal_bytes c.toNat c.toNat_lt 46 hm).1 rfl
  obtain ⟨h0, h⟩ := append_separator_inj (hdot _) (hdot _) h
  obtain ⟨h1, h⟩ := append_separator_inj (hdot _) (hdot _) h
  obtain ⟨h2, h3⟩ := append_separator_inj (hdot _) (hdot _) h
  cases a
  cases b
  simp only [InAddr.mk.injEq]
  exact ⟨decimal_inj h0, decimal_inj h1, decimal_inj h2, decimal_inj h3⟩

theorem inetNtop_ne_zero {a : InAddr} {c : UInt8} (h : c ∈ inetNtop a) : c ≠ 0 := by
  have hbyte : ∀ b : UInt8, c ∈ decimal b.toNat → c ≠ 0 := fun b hc =>
    (decimal_bytes b.toNat b.toNat_lt c hc).2
  simp only [inetNtop, List.mem_append, List.mem_cons] at h
  rcases h with h | rfl | h | rfl | h | rfl | h
  · exact hbyte _ h
  · decide
  · exact hbyte _ h
  · decide
  · exact hbyte _ h
  · decide
  · exact hbyte _ h

/-- Texts without a zero byte are compared in full. -/
theorem sameText_iff {l l' : List UInt8} (hl : ∀ c ∈ l, c ≠ 0) (hl' : ∀ c ∈ l', c ≠ 0) :
    sameText l l' = true ↔ l = l' := by
  rw [sameText, List.all_eq_true]
  refine ⟨fun h => ?_, fun h _ _ => by rw [h]; exact beq_self_eq_true _⟩
  have hat : ∀ i < max l.length l'.length, l.getD i 0 = l'.getD i 0 := fun i hi =>
    eq_of_beq (h i (List.mem_range.mpr hi))
  -- at the end of the shorter text the other one has a byte other than the terminator
  have hlen : l.length = l'.length := by
    rcases Nat.lt_trichotomy l.length l'.length with hlt | heq | hgt
    · have := hat l.length (by omega)
      rw [List.getD_eq_default _ _ (Nat.le_refl _), List.getD_eq_getElem _ _ hlt] at this
      exact absurd this.symm (hl' _ (List.getElem_mem hlt))
    · exact heq
    · have := hat l'.length (by omega)
      rw [List.getD_eq_default _ _ (Nat.le_refl _), List.getD_eq_getElem _ _ hgt] at this
      exact absurd this (hl _ (List.getElem_mem hgt))
  apply List.ext_getElem hlen
  intro i hi hi'
  have := hat i (by omega)
  rwa [List.getD_eq_getElem _ _ hi, List.getD_eq_getElem _ _ hi'] at this

/-- The texts of two addresses compare equal only for one address. -/
theorem isExistConnection_iff {s : State} {sock : InAddr} :
    isExistConnection s sock = true ↔ ∃ x ∈ s.listed, x.peerAddr = sock := by
  rw [isExistConnection, List.any_eq_true]
  refine exists_congr fun x => and_congr_right fun _ => ?_
  rw [sameText_iff (fun _ => inetNtop_ne_zero) fun _ => inetNtop_ne_zero]
  exact ⟨fun h => (inetNtop_inj h).symm, fun h => by rw [h]⟩

end RdmaMiddleware.Connection
