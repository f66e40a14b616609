import Mathlib.Data.List.Nodup
import RdmaMiddleware.Connection

/-!
# The client list

Which transports are listed and counted, and which addresses they come from. A failing
`rdma_accept`, an error on a client-side transport, a disconnect before `is_server` is
cleared and a second disconnect each break the accounting; a request that arrives before
the last one of its peer is established escapes the duplicate check.
-/
namespace RdmaMiddleware.Connection
open TransitionSystem

/-! ## The properties -/

/-- Created by the server, accepted, and neither disconnected nor failed. -/
def Transport.Live (x : Transport) : Prop :=
  x.side = .server ∧ x.accepted = true ∧ x.ended = false

/-- The client list holds exactly the live transports, each once, and is counted right. -/
structure Accounted (s : State) : Prop where
  nodup : s.clientList.Nodup
  mem_iff : ∀ id, id ∈ s.clientList ↔ ∃ x, s.transports id = some x ∧ x.Live
  count_eq : s.curConnections = s.clientList.length
  no_wild : s.wildUnlinks = []

/-- The transport whose handler an event calls. -/
def Event.transport : Event → Option ℕ
  | .established id | .disconnected id | .connectError id | .rejected id => some id
  | _ => none

/-- `rdma_accept` succeeds where it is called; a server-side transport that is disconnected
or fails is listed, and is not rejected while it is; a client-side transport is
disconnected only after `is_server` is cleared, and has no connect error. -/
def EventsRegular (s : State) : Event → Prop
  | .connectRequest sock memory qpOk acceptOk =>
    isExistConnection s sock = false → memory ≠ none → qpOk = true → acceptOk = true
  | .disconnected id => ∀ x, s.transports id = some x →
    match x.side with
    | .server => id ∈ s.clientList
    | .client => x.isServer = false
  | .connectError id => ∀ x, s.transports id = some x → x.side = .server ∧ id ∈ s.clientList
  | .rejected id => ∀ x, s.transports id = some x → x.side = .server → id ∉ s.clientList
  | _ => True

/-- No two listed transports come from one address, and a request was refused only if its
address was listed. -/
structure OnePerPeer (s : State) : Prop where
  addrs_nodup : s.listedAddrs.Nodup
  refused_listed : ∀ p ∈ s.refused, p.1 ∈ p.2

/-- At a request, every listed transport that is not connected yet has the requesting
address in its `peer_addr` just if it comes from there. -/
def PeerAddrsKnown (s : State) : Event → Prop
  | .connectRequest sock _ _ _ => ∀ x ∈ s.listed, x.transState ≠ .CONNECTED →
    (x.peerAddr = sock ↔ x.routeAddr = sock)
  | _ => True

variable {s t : State} {id : ℕ} {x : Transport}

/-! ## Transports and the main thread -/

def ConnectPhase.conn : ConnectPhase → Option ℕ
  | .idle => none
  | .waiting _ conn => some conn
  | .returned conn => some conn

/-- What holds of the transports in every run. -/
structure TransportInv (s : State) : Prop where
  lt_next : ∀ (id : ℕ) (x : Transport), s.transports id = some x → id < s.next
  server_flag : ∀ (id : ℕ) (x : Transport), s.transports id = some x → x.side = .server →
    x.isServer = true
  conn_lt : ∀ conn, s.phase.conn = some conn → conn < s.next
  conn_client : ∀ (conn : ℕ) (x : Transport), s.phase.conn = some conn →
    s.transports conn = some x → x.side = .client
  listed_server : ∀ id ∈ s.clientList, ∃ x, s.transports id = some x ∧ x.side = .server

theorem set_transports (s : State) (id : ℕ) (y : Transport) (j : ℕ) :
    (s.set id y).transports j = if j = id then some y else s.transports j :=
  Function.update_apply ..

theorem add_transports (s : State) (y : Transport) (j : ℕ) :
    (s.add y).transports j = if j = s.next then some y else s.transports j :=
  Function.update_apply ..

namespace TransportInv

/-- Replacing a transport by one of the same side. -/
theorem set (h : TransportInv s) (hx : s.transports id = some x) {y : Transport}
    (hside : y.side = x.side) (hflag : x.side = .server → y.isServer = true) :
    TransportInv (s.set id y) := by
  refine ⟨?_, ?_, h.conn_lt, ?_, ?_⟩
  · intro j z hz
    rw [set_transports] at hz
    split_ifs at hz with hj
    · exact hj ▸ h.lt_next id x hx
    · exact h.lt_next j z hz
  · intro j z hz hserver
    rw [set_transports] at hz
    split_ifs at hz with hj
    · cases hz
      exact hflag (hside ▸ hserver)
    · exact h.server_flag j z hz hserver
  · intro conn z hphase hz
    rw [set_transports] at hz
    split_ifs at hz with hj
    · cases hz
      subst hj
      exact hside.trans (h.conn_client conn x hphase hx)
    · exact h.conn_client conn z hphase hz
  · intro j hj
    obtain ⟨z, hz, hserver⟩ := h.listed_server j hj
    simp only [set_transports]
    split_ifs with hji
    · subst hji
      obtain rfl := Option.some.inj (hx.symm.trans hz)
      exact ⟨y, rfl, hside.trans hserver⟩
    · exact ⟨z, hz, hserver⟩

theorem unlink (h : TransportInv s) (id : ℕ) : TransportInv (s.unlink id) :=
  { h with listed_server := fun j hj => h.listed_server j (List.mem_of_mem_erase hj) }

/-- A new transport, not listed. -/
theorem add (h : TransportInv s) {y : Transport} (hflag : y.isServer = true ∨ y.side = .client) :
    TransportInv (s.add y) := by
  refine ⟨?_, ?_, fun conn hc => Nat.lt_succ_of_lt (h.conn_lt conn hc), ?_, ?_⟩
  · intro j z hz
    show j < s.next + 1
    rw [add_transports] at hz
    split_ifs at hz with hj
    · omega
    · exact Nat.lt_succ_of_lt (h.lt_next j z hz)
  · intro j z hz hserver
    rw [add_transports] at hz
    split_ifs at hz with hj
    · cases hz
      exact hflag.resolve_right fun hclient => by rw [hclient] at hserver; cases hserver
    · exact h.server_flag j z hz hserver
  · intro conn z hphase hz
    have := h.conn_lt conn hphase
    rw [add_transports, if_neg (by omega)] at hz
    exact h.conn_client conn z hphase hz
  · intro j hj
    obtain ⟨z, hz, hserver⟩ := h.listed_server j hj
    have := h.lt_next j z hz
    refine ⟨z, ?_, hserver⟩
    rw [add_transports, if_neg (by omega)]
    exact hz

/-- `free_trans` on the transport of the main thread. -/
theorem free (h : TransportInv s) {conn : ℕ} (hconn : s.phase.conn = some conn) :
    TransportInv { s with transports := Function.update s.transports conn none } := by
  have hold : ∀ (j : ℕ) (z : Transport),
      Function.update s.transports conn none j = some z → s.transports j = some z := by
    intro j z hz
    rw [Function.update_apply] at hz
    split_ifs at hz
    exact hz
  refine ⟨fun j z hz => h.lt_next j z (hold j z hz),
    fun j z hz => h.server_flag j z (hold j z hz), h.conn_lt,
    fun c z hc hz => h.conn_client c z hc (hold c z hz), ?_⟩
  intro j hj
  obtain ⟨z, hz, hserver⟩ := h.listed_server j hj
  refine ⟨z, (Function.update_of_ne ?_ _ _).trans hz, hserver⟩
  rintro rfl
  rw [h.conn_client j z hconn hz] at hserver
  cases hserver

theorem connectRound (h : TransportInv s) (target : InAddr) (memory : Option InAddr) :
    TransportInv (connectRound s target memory) := by
  cases memory with
  | none => exact { h with conn_lt := by simp [Connection.connectRound, ConnectPhase.conn]
                           conn_client := by simp [Connection.connectRound, ConnectPhase.conn] }
  | some memory =>
    have hadd := h.add (y := transportCreate .client target memory) (.inr rfl)
    refine { hadd with conn_lt := ?_, conn_client := ?_ }
    · intro conn hc
      obtain rfl : s.next = conn := Option.some.inj hc
      exact Nat.lt_succ_self _
    · intro conn z hc hz
      obtain rfl : s.next = conn := Option.some.inj hc
      have hz' : (s.add (transportCreate .client target memory)).transports s.next = some z := hz
      rw [add_transports, if_pos rfl] at hz'
      cases hz'
      rfl

theorem enlist (h : TransportInv s) (sock memory : InAddr) (acceptOk : Bool) :
    TransportInv (enlist s sock memory acceptOk) := by
  have hadd := h.add (y := { transportCreate .server sock memory with
    transState := if acceptOk then .CONNECTING else .INIT, accepted := acceptOk }) (.inl rfl)
  refine { hadd with listed_server := ?_ }
  intro j hj
  rcases List.mem_append.mp hj with hj | hj
  · exact hadd.listed_server j hj
  · obtain rfl := List.mem_singleton.mp hj
    exact ⟨_, Function.update_self .., rfl⟩

/-- The flags of a server-side transport are kept by every handler on it. -/
theorem handler (h : TransportInv s) (hx : s.transports id = some x) {y : Transport}
    (hside : y.side = x.side) (hflag : y.isServer = x.isServer) : TransportInv (s.set id y) :=
  h.set hx hside fun hserver => hflag.trans (h.server_flag id x hx hserver)

theorem step (h : TransportInv s) {e : Event} (ht : step s e = some t) : TransportInv t := by
  cases e with
  | connectRequest sock memory qpOk acceptOk =>
    simp only [Connection.step, onCmConnectRequest, Option.some.injEq] at ht
    subst ht
    by_cases hexist : isExistConnection s sock = true
    · rw [if_pos hexist]
      exact { h with }
    · rw [if_neg hexist]
      cases memory with
      | none => exact h
      | some memory =>
        cases qpOk with
        | false => exact h
        | true => exact h.enlist sock memory acceptOk
  | established id =>
    obtain ⟨x, hx, rfl⟩ := Option.map_eq_some_iff.mp ht
    exact h.handler hx rfl rfl
  | disconnected id =>
    obtain ⟨x, hx, rfl⟩ := Option.map_eq_some_iff.mp ht
    have hset := h.handler hx (y := { x with transState := .DISCONNECTED, ended := true }) rfl rfl
    unfold onCmDisconnected
    dsimp only
    split_ifs
    · exact hset.unlink id
    · exact hset
  | connectError id =>
    obtain ⟨x, hx, rfl⟩ := Option.map_eq_some_iff.mp ht
    exact (h.handler hx (y := { x with transState := .ERROR, ended := true }) rfl rfl).unlink id
  | rejected id =>
    obtain ⟨x, hx, rfl⟩ := Option.map_eq_some_iff.mp ht
    exact h.handler hx rfl rfl
  | connect target memory =>
    simp only [Connection.step] at ht
    split at ht <;> cases ht
    exact h.connectRound target memory
  | wake spare memory =>
    simp only [Connection.step] at ht
    split at ht
    · rename_i target conn hphase
      have hconn : s.phase.conn = some conn := by rw [hphase]; rfl
      simp only [connectWake] at ht
      split at ht
      · cases ht
      · rename_i x hx
        split at ht
        · cases ht
          exact { h with
            conn_lt := fun c hc => h.conn_lt c (hconn.trans hc)
            conn_client := fun c z hc hz => h.conn_client c z (hconn.trans hc) hz }
        · cases ht
          have hfree := h.free hconn
          cases spare with
          | none => exact hfree.connectRound target memory
          | some spare =>
            exact (hfree.add (.inr rfl)).connectRound target memory
        · cases ht
          exact h.connectRound target memory
    · cases ht
  | clearServer =>
    simp only [Connection.step] at ht
    split at ht
    · rename_i conn hphase
      have hconn : s.phase.conn = some conn := by rw [hphase]; rfl
      obtain ⟨x, hx, rfl⟩ := Option.map_eq_some_iff.mp ht
      have hset := h.set hx (y := { x with isServer := false }) rfl fun hserver => by
        rw [h.conn_client conn x hconn hx] at hserver
        cases hserver
      exact { hset with
        conn_lt := by simp [ConnectPhase.conn]
        conn_client := by simp [ConnectPhase.conn] }
    · cases ht

end TransportInv

theorem reach_start {cond : State → Event → Prop} : Reach connectionSystem cond start :=
  .start rfl

theorem transportInv_of_reach {cond : State → Event → Prop}
    (h : Reach connectionSystem cond s) : TransportInv s := by
  refine h.invariant (P := TransportInv) ?_ fun s e t hs _ ht => hs.step ht
  rintro s rfl
  exact ⟨by simp [start], by simp [start], by simp [start, ConnectPhase.conn],
    by simp [start, ConnectPhase.conn], by simp [start]⟩

/-! ## Effects of a step -/

/-- A step that touches nothing of the server's. -/
structure SameServerSide (s t : State) : Prop where
  clientList : t.clientList = s.clientList
  curConnections : t.curConnections = s.curConnections
  refused : t.refused = s.refused
  wildUnlinks : t.wildUnlinks = s.wildUnlinks
  transports : ∀ (id : ℕ) (x : Transport), x.side = .server →
    (t.transports id = some x ↔ s.transports id = some x)

/-- What a step does to the server's transports and its list. -/
inductive StepEffect (s : State) : Event → State → Prop
  | same {e : Event} {t : State} (h : SameServerSide s t) : StepEffect s e t
  | refuse {sock : InAddr} {memory : Option InAddr} {qpOk acceptOk : Bool}
      (hexist : isExistConnection s sock = true) :
      StepEffect s (.connectRequest sock memory qpOk acceptOk)
        { s with refused := s.refused ++ [(sock, s.listedAddrs)] }
  | enlist {sock memory : InAddr} {acceptOk : Bool} (hexist : isExistConnection s sock = false) :
      StepEffect s (.connectRequest sock (some memory) true acceptOk)
        (enlist s sock memory acceptOk)
  | established {id : ℕ} {x : Transport} (hx : s.transports id = some x)
      (hside : x.side = .server) : StepEffect s (.established id) (onCmEstablished s id x)
  | disconnected {id : ℕ} {x : Transport} (hx : s.transports id = some x)
      (hflag : x.isServer = true) : StepEffect s (.disconnected id)
        ((s.set id { x with transState := .DISCONNECTED, ended := true }).unlink id)
  | connectError {id : ℕ} {x : Transport} (hx : s.transports id = some x) :
      StepEffect s (.connectError id) (onCmError s id x)
  | rejected {id : ℕ} {x : Transport} (hx : s.transports id = some x)
      (hside : x.side = .server) : StepEffect s (.rejected id) (onCmRejected s id x)

namespace SameServerSide

theorem refl (s : State) : SameServerSide s s := ⟨rfl, rfl, rfl, rfl, fun _ _ _ => Iff.rfl⟩

theorem trans {u : State} (h : SameServerSide s t) (h' : SameServerSide t u) :
    SameServerSide s u :=
  ⟨h'.clientList.trans h.clientList, h'.curConnections.trans h.curConnections,
    h'.refused.trans h.refused, h'.wildUnlinks.trans h.wildUnlinks,
    fun id x hx => (h'.transports id x hx).trans (h.transports id x hx)⟩

/-- Writing a client-side transport over another or over an unused place. -/
theorem set_client {y : Transport} (hx : ∀ x, s.transports id = some x → x.side = .client)
    (hy : y.side = .client) : SameServerSide s (s.set id y) := by
  refine ⟨rfl, rfl, rfl, rfl, fun j z hz => ?_⟩
  rw [set_transports]
  split_ifs with hj
  · subst hj
    refine ⟨fun h => ?_, fun h => ?_⟩
    · cases h
      rw [hy] at hz
      cases hz
    · rw [hx z h] at hz
      cases hz
  · exact Iff.rfl

theorem add_client (hinv : TransportInv s) {y : Transport} (hy : y.side = .client) :
    SameServerSide s (s.add y) := by
  have hset : SameServerSide s (s.set s.next y) := set_client
    (fun x hx => absurd (hinv.lt_next _ x hx) (Nat.lt_irrefl _)) hy
  exact ⟨rfl, rfl, rfl, rfl, hset.transports⟩

theorem free_client {conn : ℕ} (hx : ∀ x, s.transports conn = some x → x.side = .client) :
    SameServerSide s { s with transports := Function.update s.transports conn none } := by
  refine ⟨rfl, rfl, rfl, rfl, fun j z hz => ?_⟩
  show Function.update s.transports conn none j = some z ↔ _
  rw [Function.update_apply]
  split_ifs with hj
  · subst hj
    refine ⟨(fun h => by cases h), fun h => ?_⟩
    rw [hx z h] at hz
    cases hz
  · exact Iff.rfl

theorem connectRound (hinv : TransportInv s) (target : InAddr) (memory : Option InAddr) :
    SameServerSide s (connectRound s target memory) := by
  cases memory with
  | none => exact ⟨rfl, rfl, rfl, rfl, fun _ _ _ => Iff.rfl⟩
  | some memory =>
    have hadd := add_client hinv (y := transportCreate .client target memory) rfl
    exact ⟨rfl, rfl, rfl, rfl, hadd.transports⟩

end SameServerSide

theorem stepEffect_of_step (hinv : TransportInv s) {e : Event} (ht : step s e = some t) :
    StepEffect s e t := by
  have hclient : ∀ {id : ℕ} {x : Transport}, s.transports id = some x → x.side ≠ .server →
      ∀ z, s.transports id = some z → z.side = .client := by
    intro id x hx hside z hz
    obtain rfl := Option.some.inj (hx.symm.trans hz)
    cases hs : x.side with
    | server => exact absurd hs hside
    | client => rfl
  cases e with
  | connectRequest sock memory qpOk acceptOk =>
    simp only [step, onCmConnectRequest, Option.some.injEq] at ht
    subst ht
    by_cases hexist : isExistConnection s sock = true
    · rw [if_pos hexist]
      exact .refuse hexist
    · rw [if_neg hexist]
      cases memory with
      | none => exact .same (.refl s)
      | some memory =>
        cases qpOk with
        | false => exact .same (.refl s)
        | true => exact .enlist (by simpa using hexist)
  | established id =>
    obtain ⟨x, hx, rfl⟩ := Option.map_eq_some_iff.mp ht
    by_cases hside : x.side = .server
    · exact .established hx hside
    · exact .same (.set_client (hclient hx hside) (hclient hx hside x hx))
  | disconnected id =>
    obtain ⟨x, hx, rfl⟩ := Option.map_eq_some_iff.mp ht
    unfold onCmDisconnected
    dsimp only
    split_ifs with hflag
    · exact .disconnected hx hflag
    · have hside : x.side ≠ .server := fun hs => hflag (hinv.server_flag id x hx hs)
      exact .same (.set_client (hclient hx hside) (hclient hx hside x hx))
  | connectError id =>
    obtain ⟨x, hx, rfl⟩ := Option.map_eq_some_iff.mp ht
    exact .connectError hx
  | rejected id =>
    obtain ⟨x, hx, rfl⟩ := Option.map_eq_some_iff.mp ht
    by_cases hside : x.side = .server
    · exact .rejected hx hside
    · exact .same (.set_client (hclient hx hside) (hclient hx hside x hx))
  | connect target memory =>
    simp only [step] at ht
    split at ht <;> cases ht
    exact .same (.connectRound hinv target memory)
  | wake spare memory =>
    simp only [step] at ht
    split at ht
    · rename_i target conn hphase
      have hconn : s.phase.conn = some conn := by rw [hphase]; rfl
      have hcl := fun z => hinv.conn_client conn z hconn
      simp only [connectWake] at ht
      split at ht
      · cases ht
      · split at ht
        · cases ht
          exact .same ⟨rfl, rfl, rfl, rfl, fun _ _ _ => Iff.rfl⟩
        · cases ht
          have hfree := hinv.free hconn
          have hsame := SameServerSide.free_client hcl
          cases spare with
          | none => exact .same (hsame.trans (.connectRound hfree target memory))
          | some spare =>
            have hadd := SameServerSide.add_client hfree
              (y := { transportCreate .client target spare with isServer := false }) rfl
            exact .same ((hsame.trans hadd).trans
              (.connectRound (hfree.add (.inr rfl)) target memory))
        · cases ht
          exact .same (.connectRound hinv target memory)
    · cases ht
  | clearServer =>
    simp only [step] at ht
    split at ht
    · rename_i conn hphase
      have hconn : s.phase.conn = some conn := by rw [hphase]; rfl
      obtain ⟨x, hx, rfl⟩ := Option.map_eq_some_iff.mp ht
      have hset := SameServerSide.set_client (fun z => hinv.conn_client conn z hconn)
        (y := { x with isServer := false }) (hinv.conn_client conn x hconn hx)
      exact .same ⟨rfl, rfl, rfl, rfl, hset.transports⟩
    · cases ht

/-! ## Accounting -/

namespace Accounted

/-- A handler that neither makes nor ends a live transport. -/
theorem set (h : Accounted s) (hx : s.transports id = some x) {y : Transport}
    (hlive : y.Live ↔ x.Live) : Accounted (s.set id y) := by
  refine ⟨h.nodup, fun j => (h.mem_iff j).trans ?_, h.count_eq, h.no_wild⟩
  simp only [set_transports]
  split_ifs with hj
  · subst hj
    simp [hx, hlive]
  · exact Iff.rfl

/-- A listed transport ends and is unlinked. -/
theorem leave (h : Accounted s) (hlisted : id ∈ s.clientList) {y : Transport}
    (hy : ¬ y.Live) : Accounted ((s.set id y).unlink id) := by
  have hpos := List.length_pos_of_mem hlisted
  refine ⟨h.nodup.erase id, fun j => ?_, ?_, ?_⟩
  · show j ∈ s.clientList.erase id ↔ ∃ z, (s.set id y).transports j = some z ∧ z.Live
    rw [h.nodup.mem_erase_iff, h.mem_iff, set_transports]
    split_ifs with hj
    · simp [hj, hy]
    · simp [hj]
  · show s.curConnections - 1 = (s.clientList.erase id).length
    rw [h.count_eq, List.length_erase_of_mem hlisted]
    omega
  · show (if id ∈ s.clientList then s.wildUnlinks else _) = []
    rw [if_pos hlisted]
    exact h.no_wild

theorem enlist (h : Accounted s) (hinv : TransportInv s) (sock memory : InAddr) :
    Accounted (enlist s sock memory true) := by
  have hnew : s.next ∉ s.clientList := by
    intro hmem
    obtain ⟨x, hx, _⟩ := hinv.listed_server _ hmem
    exact absurd (hinv.lt_next _ x hx) (Nat.lt_irrefl _)
  refine ⟨?_, fun j => ?_, ?_, h.no_wild⟩
  · exact List.nodup_append.mpr ⟨h.nodup, List.nodup_singleton _, by
      intro a ha b hb
      rw [List.mem_singleton.mp hb]
      rintro rfl
      exact hnew ha⟩
  · show j ∈ s.clientList ++ [s.next] ↔ ∃ z, (s.add _).transports j = some z ∧ z.Live
    rw [List.mem_append, List.mem_singleton, h.mem_iff, add_transports]
    by_cases hj : j = s.next
    · rw [if_pos hj]
      simp [hj, Transport.Live, transportCreate]
    · rw [if_neg hj]
      simp [hj]
  · show s.curConnections + 1 = ((s.clientList ++ [s.next]).length : ℤ)
    rw [h.count_eq, List.length_append, List.length_singleton]
    push_cast
    rfl

theorem same (h : Accounted s) (hs : SameServerSide s t) : Accounted t := by
  refine ⟨by rw [hs.clientList]; exact h.nodup, fun id => ?_,
    by rw [hs.curConnections, hs.clientList]; exact h.count_eq,
    by rw [hs.wildUnlinks]; exact h.no_wild⟩
  rw [hs.clientList, h.mem_iff]
  exact exists_congr fun x => and_congr_left fun hlive => (hs.transports id x hlive.1).symm

theorem step (h : Accounted s) (hinv : TransportInv s) {e : Event} (hreg : EventsRegular s e)
    (ht : step s e = some t) : Accounted t := by
  cases stepEffect_of_step hinv ht with
  | same hs => exact h.same hs
  | refuse hexist => exact ⟨h.nodup, h.mem_iff, h.count_eq, h.no_wild⟩
  | @enlist sock memory acceptOk hexist =>
    obtain rfl : acceptOk = true := hreg hexist (by simp) rfl
    exact h.enlist hinv sock memory
  | established hx hside => exact h.set hx Iff.rfl
  | @disconnected id x hx hflag =>
    have hlisted := hreg x hx
    cases hside : x.side with
    | server =>
      rw [hside] at hlisted
      exact h.leave hlisted (by simp [Transport.Live])
    | client =>
      rw [hside] at hlisted
      exact absurd (hflag.symm.trans hlisted) (by simp)
  | @connectError id x hx => exact h.leave (hreg x hx).2 (by simp [Transport.Live])
  | @rejected id x hx hside =>
    have hnot := hreg x hx hside
    rw [h.mem_iff] at hnot
    refine h.set hx ⟨?_, fun hlive => absurd ⟨x, hx, hlive⟩ hnot⟩
    simp [Transport.Live]

end Accounted

/-- An event on a client-side transport leaves list and counter alone. -/
theorem client_event_unchanged (hinv : TransportInv s) {e : Event} (hreg : EventsRegular s e)
    (ht : step s e = some t) (he : e.transport = some id) (hx : s.transports id = some x)
    (hside : x.side = .client) :
    t.clientList = s.clientList ∧ t.curConnections = s.curConnections := by
  cases stepEffect_of_step hinv ht with
  | same hs => exact ⟨hs.clientList, hs.curConnections⟩
  | refuse hexist => exact ⟨rfl, rfl⟩
  | enlist hexist => cases he
  | established hx' hside' => exact ⟨rfl, rfl⟩
  | disconnected hx' hflag =>
    cases he
    obtain rfl := Option.some.inj (hx.symm.trans hx')
    have hlisted := hreg x hx
    rw [hside] at hlisted
    exact absurd (hflag.symm.trans hlisted) (by simp)
  | connectError hx' =>
    cases he
    rw [(hreg x hx).1] at hside
    cases hside
  | rejected hx' hside' => exact ⟨rfl, rfl⟩

/-- In every regular run the client list and the counter are right, and events on
client-side transports leave them alone. -/
theorem accounted_of_eventsRegular (h : Reach connectionSystem EventsRegular s) :
    Accounted s ∧ ∀ (e : Event) (t : State) (id : ℕ) (x : Transport), EventsRegular s e →
      step s e = some t → e.transport = some id → s.transports id = some x → x.side = .client →
      t.clientList = s.clientList ∧ t.curConnections = s.curConnections := by
  refine ⟨?_, fun e t id x hreg ht => client_event_unchanged (transportInv_of_reach h) hreg ht⟩
  refine h.invariant_of (Q := TransportInv) (P := Accounted)
    (fun s hs => transportInv_of_reach hs) ?_ fun s e t hinv hs hreg ht => hs.step hinv hreg ht
  rintro s rfl
  exact ⟨List.nodup_nil, by simp [start], rfl, rfl⟩

def eventsRegular (s : State) : Event → Bool
  | .connectRequest sock memory qpOk acceptOk =>
    isExistConnection s sock || memory.isNone || !qpOk || acceptOk
  | .disconnected id => (s.transports id).all fun x =>
    match x.side with
    | .server => decide (id ∈ s.clientList)
    | .client => !x.isServer
  | .connectError id => (s.transports id).all fun x =>
    decide (x.side = .server ∧ id ∈ s.clientList)
  | .rejected id => (s.transports id).all fun x => decide (x.side = .server → id ∉ s.clientList)
  | _ => true

theorem eventsRegular_sound {e : Event} (h : eventsRegular s e = true) : EventsRegular s e := by
  cases e with
  | connectRequest sock memory qpOk acceptOk =>
    intro hexist hmemory hqp
    simpa [eventsRegular, hexist, hmemory, hqp] using h
  | disconnected id =>
    intro x hx
    simp only [eventsRegular, hx, Option.all_some] at h
    cases hside : x.side with
    | server => simpa [hside] using h
    | client => simpa [hside] using h
  | connectError id =>
    intro x hx
    simpa [eventsRegular, hx] using h
  | rejected id =>
    intro x hx
    simp only [eventsRegular, hx, Option.all_some] at h
    exact of_decide_eq_true h
  | _ => trivial

/-- A peer connects, the node connects to another and both connections end; the peer
connects again. -/
def regularRun : List Event :=
  let peer : InAddr := ⟨10, 10, 10, 1⟩
  let next : InAddr := ⟨10, 10, 10, 3⟩
  [.connectRequest peer (some next) true true, .established 0, .connect next (some peer),
    .established 1, .wake none none, .clearServer, .disconnected 1, .disconnected 0,
    .connectRequest peer (some next) true true]

theorem accounted_of_eventsRegular_regularRun :
    ∃ s, run connectionSystem eventsRegular start regularRun = some s ∧ s.clientList = [2] ∧
      Accounted s ∧ ∀ (e : Event) (t : State) (id : ℕ) (x : Transport), EventsRegular s e →
        step s e = some t → e.transport = some id → s.transports id = some x →
        x.side = .client → t.clientList = s.clientList ∧ t.curConnections = s.curConnections := by
  have hsome : ((run connectionSystem eventsRegular start regularRun).any fun s =>
      decide (s.clientList = [2])) = true := by decide +kernel
  obtain ⟨s, hrun, hreach, hs⟩ := reach_of_run_any
    (fun _ _ => eventsRegular_sound) reach_start hsome
  exact ⟨s, hrun, of_decide_eq_true hs, accounted_of_eventsRegular hreach⟩

/-- After a failing `rdma_accept` the transport is listed and counted. -/
theorem not_accounted_acceptFailed : ∃ s, Reachable connectionSystem s ∧ ¬ Accounted s := by
  refine ⟨enlist start ⟨10, 10, 10, 1⟩ ⟨0, 0, 0, 0⟩ false,
    .next (a := .connectRequest ⟨10, 10, 10, 1⟩ (some ⟨0, 0, 0, 0⟩) true false) (.start rfl)
      trivial rfl, ?_⟩
  intro h
  obtain ⟨x, hx, -, haccepted, -⟩ := (h.mem_iff 0).mp (List.mem_singleton.mpr rfl)
  cases hx
  cases haccepted

/-! ## One connection for each peer -/

structure PeerInv (s : State) : Prop where
  known : ∀ x ∈ s.listed, x.transState = .CONNECTED → x.peerAddr = x.routeAddr
  one : OnePerPeer s

theorem mem_listed : x ∈ s.listed ↔ ∃ id ∈ s.clientList, s.transports id = some x := by
  rw [State.listed, List.mem_filterMap]

theorem listedAddrs_eq (s : State) : s.listedAddrs =
    s.clientList.filterMap fun id => (s.transports id).map (·.routeAddr) := by
  rw [State.listedAddrs, State.listed, List.map_filterMap]

namespace PeerInv

theorem same (h : PeerInv s) (hinv : TransportInv s) (hs : SameServerSide s t) : PeerInv t := by
  have hlisted : t.listed = s.listed := by
    unfold State.listed
    rw [hs.clientList]
    apply List.filterMap_congr
    intro id hid
    obtain ⟨x, hx, hserver⟩ := hinv.listed_server id hid
    rw [hx, (hs.transports id x hserver).mpr hx]
  refine ⟨by rw [hlisted]; exact h.known, ?_, ?_⟩
  · rw [State.listedAddrs, hlisted]
    exact h.one.addrs_nodup
  · rw [hs.refused]
    exact h.one.refused_listed

/-- A handler that keeps the route. -/
theorem set (h : PeerInv s) (hx : s.transports id = some x) {y : Transport}
    (hroute : y.routeAddr = x.routeAddr)
    (hpeer : y.transState = .CONNECTED → y.peerAddr = y.routeAddr) : PeerInv (s.set id y) := by
  refine ⟨?_, ?_, h.one.refused_listed⟩
  · intro z hz
    obtain ⟨j, hj, hz⟩ := mem_listed.mp hz
    rw [set_transports] at hz
    split_ifs at hz with hji
    · cases hz
      exact hpeer
    · exact h.known z (mem_listed.mpr ⟨j, hj, hz⟩)
  · have haddrs : (s.set id y).listedAddrs = s.listedAddrs := by
      rw [listedAddrs_eq, listedAddrs_eq]
      apply List.filterMap_congr
      intro j _
      rw [set_transports]
      split_ifs with hj
      · rw [hj, hx, Option.map_some, Option.map_some, hroute]
      · rfl
    rw [haddrs]
    exact h.one.addrs_nodup

theorem unlink (h : PeerInv s) (id : ℕ) : PeerInv (s.unlink id) := by
  have hsub : List.Sublist (s.unlink id).listed s.listed :=
    List.erase_sublist.filterMap s.transports
  refine ⟨fun x hx => h.known x (hsub.subset hx), ?_, h.one.refused_listed⟩
  exact h.one.addrs_nodup.sublist (hsub.map _)

/-- The listed transports with the address that is compared are those that have it. -/
theorem exist_iff (h : PeerInv s) {sock : InAddr} (hknown : ∀ x ∈ s.listed,
    x.transState ≠ .CONNECTED → (x.peerAddr = sock ↔ x.routeAddr = sock)) :
    isExistConnection s sock = true ↔ sock ∈ s.listedAddrs := by
  rw [isExistConnection_iff, State.listedAddrs, List.mem_map]
  refine exists_congr fun x => and_congr_right fun hx => ?_
  by_cases hstate : x.transState = .CONNECTED
  · rw [h.known x hx hstate]
  · exact hknown x hx hstate

theorem step (h : PeerInv s) (hinv : TransportInv s) {e : Event} (hknown : PeerAddrsKnown s e)
    (ht : step s e = some t) : PeerInv t := by
  cases stepEffect_of_step hinv ht with
  | same hs => exact h.same hinv hs
  | @refuse sock memory qpOk acceptOk hexist =>
    refine ⟨h.known, h.one.addrs_nodup, ?_⟩
    intro p hp
    rcases List.mem_append.mp hp with hp | hp
    · exact h.one.refused_listed p hp
    · rw [List.mem_singleton.mp hp]
      exact (h.exist_iff hknown).mp hexist
  | @enlist sock memory acceptOk hexist =>
    have hnot : sock ∉ s.listedAddrs := by
      rw [← h.exist_iff hknown, hexist]
      simp
    have hlisted : (enlist s sock memory acceptOk).listed = s.listed ++
        [{ transportCreate .server sock memory with
            transState := if acceptOk then .CONNECTING else .INIT, accepted := acceptOk }] := by
      show (s.clientList ++ [s.next]).filterMap (s.add _).transports = _
      rw [List.filterMap_append]
      refine congrArg₂ _ (List.filterMap_congr fun j hj => ?_) ?_
      · obtain ⟨z, hz, _⟩ := hinv.listed_server j hj
        have := hinv.lt_next j z hz
        rw [add_transports, if_neg (by omega)]
      · simp [add_transports]
    refine ⟨?_, ?_, h.one.refused_listed⟩
    · intro x hx
      rw [hlisted] at hx
      rcases List.mem_append.mp hx with hx | hx
      · exact h.known x hx
      · rw [List.mem_singleton.mp hx]
        intro hstate
        dsimp only at hstate
        split_ifs at hstate
    · rw [State.listedAddrs, hlisted, List.map_append]
      refine List.nodup_append.mpr ⟨h.one.addrs_nodup, List.nodup_singleton _, ?_⟩
      intro a ha b hb
      rw [List.mem_singleton.mp hb]
      rintro rfl
      exact hnot ha
  | established hx hside => exact h.set hx rfl fun _ => rfl
  | @disconnected id x hx hflag =>
    exact (h.set hx (y := { x with transState := .DISCONNECTED, ended := true }) rfl
      (by simp)).unlink id
  | @connectError id x hx =>
    exact (h.set hx (y := { x with transState := .ERROR, ended := true }) rfl
      (by simp)).unlink id
  | @rejected id x hx hside =>
    exact h.set hx (y := { x with transState := .REJECT, ended := true }) rfl (by simp)

end PeerInv

/-- While pending transports do not confuse the check, each peer is listed once. -/
theorem onePerPeer_of_peerAddrsKnown (h : Reach connectionSystem PeerAddrsKnown s) :
    OnePerPeer s := by
  have hpeer : PeerInv s := by
    refine h.invariant_of (Q := TransportInv) (P := PeerInv)
      (fun s hs => transportInv_of_reach hs) ?_ fun s e t hinv hs hc ht => hs.step hinv hc ht
    rintro s rfl
    exact ⟨by simp [State.listed, start], ⟨by simp [State.listedAddrs, State.listed, start],
      by simp [start]⟩⟩
  exact hpeer.one

def peerAddrsKnown (s : State) : Event → Bool
  | .connectRequest sock _ _ _ => s.listed.all fun x =>
    decide (x.transState ≠ .CONNECTED → (x.peerAddr = sock ↔ x.routeAddr = sock))
  | _ => true

theorem peerAddrsKnown_sound {e : Event} (h : peerAddrsKnown s e = true) :
    PeerAddrsKnown s e := by
  cases e with
  | connectRequest sock memory qpOk acceptOk =>
    intro x hx
    simp only [peerAddrsKnown, List.all_eq_true] at h
    exact of_decide_eq_true (h x hx)
  | _ => trivial

/-- Two peers connect, and a repeated request of the first is refused. -/
def repeatedRequestRun : List Event :=
  let first : InAddr := ⟨10, 10, 10, 1⟩
  let second : InAddr := ⟨10, 10, 10, 2⟩
  let memory : InAddr := ⟨0, 0, 0, 0⟩
  [.connectRequest first (some memory) true true,
    .connectRequest second (some memory) true true, .established 0, .established 1,
    .connectRequest first (some memory) true true]

theorem onePerPeer_of_peerAddrsKnown_repeatedRequestRun :
    ∃ s, run connectionSystem peerAddrsKnown start repeatedRequestRun = some s ∧
      s.refused.length = 1 ∧ OnePerPeer s := by
  have hsome : ((run connectionSystem peerAddrsKnown start repeatedRequestRun).any fun s =>
      decide (s.refused.length = 1)) = true := by decide +kernel
  obtain ⟨s, hrun, hreach, hs⟩ := reach_of_run_any
    (fun _ _ => peerAddrsKnown_sound) reach_start hsome
  exact ⟨s, hrun, of_decide_eq_true hs, onePerPeer_of_peerAddrsKnown hreach⟩

/-- Two requests of one peer before the first connection is established are both accepted. -/
theorem not_onePerPeer_pending : ∃ s, Reachable connectionSystem s ∧ ¬ OnePerPeer s := by
  let sock : InAddr := ⟨10, 10, 10, 1⟩
  let memory : InAddr := ⟨0, 0, 0, 0⟩
  have hsome : ((run connectionSystem (fun _ _ => true) start
      [.connectRequest sock (some memory) true true,
        .connectRequest sock (some memory) true true]).any fun s =>
      decide (s.listedAddrs = [sock, sock])) = true := by decide +kernel
  obtain ⟨s, -, hreach, hs⟩ := reach_of_run_any
    (fun _ _ _ => trivial) reach_start hsome
  refine ⟨s, hreach, fun h => ?_⟩
  have hnodup := h.addrs_nodup
  rw [of_decide_eq_true hs] at hnodup
  simp at hnodup

end RdmaMiddleware.Connection
