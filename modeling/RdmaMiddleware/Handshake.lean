import RdmaMiddleware.Chain

/-!
# The buffer handshake

A node asks the next one for its receive buffer with `DHMP_BUFF_MALLOC` and then sets up
`remote_buff`. The receiving node allocates the buffer on the first request and hands out
the same one ever after, with whatever pointers it has by then.
-/
namespace RdmaMiddleware.Handshake
open LogBuffer Chain TransitionSystem

def TOTAL_SIZE : ℕ := 64

/-! ## The receiving node -/

/-- `local_recv_buff`, with the address of its registered data region. -/
structure RecvBuff extends LocalRingbuff where
  buffMr : ℕ

/-- `local_recv_buff_mate` is represented by the address of its region. -/
structure Node where
  localRecvBuff : Option RecvBuff
  localRecvBuffMate : Option ℕ

/-- What `malloc` and the two registrations do: `none` where the registration fails.
`junk` is what new memory holds. -/
structure AllocOutcome where
  mateOk : Bool
  mateMr : Option ℕ
  dataMr : Option ℕ
  junk : ℕ → UInt8

structure BuffResponse where
  mrBuff : ℕ
  mrData : ℕ

/-- The ring as the handler initialises it. -/
def freshRing (junk : ℕ → UInt8) : LocalRingbuff where
  wrPointer := 0
  rdPointer := 0
  size := TOTAL_SIZE
  rdKeyPointer := 0
  buff := fun c => if c < TOTAL_SIZE then 0 else junk c

/-- The reply copies both regions, through NULL pointers if one is missing. -/
def successReply (n : Node) : Option (Node × Option BuffResponse) :=
  match n.localRecvBuffMate, n.localRecvBuff with
  | some mate, some buff => some (n, some ⟨mate, buff.buffMr⟩)
  | _, _ => none

/-- `dhmp_malloc_buff_request_handler`: the new state of the node and the reply, which is
`none` for `DHMP_BUFF_MALLOC_ERROR`. The result of `malloc` is not tested. -/
def mallocBuffRequestHandler (n : Node) (o : AllocOutcome) :
    Option (Node × Option BuffResponse) :=
  match n.localRecvBuff, n.localRecvBuffMate with
  | none, none =>
    if o.mateOk then
      match o.mateMr with
      | none => some ({ localRecvBuff := none, localRecvBuffMate := none }, none)
      | some mate =>
        match o.dataMr with
        | none => some ({ localRecvBuff := none, localRecvBuffMate := none }, none)
        | some data => successReply
            { localRecvBuff := some { freshRing o.junk with buffMr := data }
              localRecvBuffMate := some mate }
    else none
  | _, _ => successReply n

/-! ## The requesting node -/

/-- Where `buff_init` of the upstream node stands, and what comes behind it. -/
inductive Upstream
  | starting
  | requested
  /-- The reply is under way. `before` was the ring when the request was handled. -/
  | replied (before : Option LocalRingbuff) (response : BuffResponse)
  /-- Waiting for a reply that will not come. -/
  | refused
  | exited
  | ready (w : Writer)

/-- `buff_init` with a zeroed `remote_buff`, behind `dhmp_buff_malloc`. -/
def buffInit (response : BuffResponse) : Upstream :=
  if response.mrBuff = 0 ∨ response.mrData = 0 then .exited
  else .ready
    { remote := ⟨{ wrPointer := 0, rdPointer := 0, size := TOTAL_SIZE }⟩
      pc := .idle
      logs := []
      published := 0 }

/-! ## Histories -/

/-- What is recorded of a request: the ring before it and both sides after `buff_init`, or
the receiving node before and after a failure. -/
inductive Record
  | done (before : Option LocalRingbuff) (remote : RemoteRingbuff) (ring : LocalRingbuff)
  | failed (before after : Node)

/-- `receiver` are the queues and the table of the receiving node; its ring is the one of
`node`. -/
structure State where
  node : Node
  receiver : Receiver
  upstream : Upstream
  handshakes : List Record

inductive Action
  /-- `buff_init` posts its request, or finds no transport or no memory. -/
  | request (posted : Bool)
  | handle (o : AllocOutcome)
  /-- A request is handled whose sender is gone. -/
  | handleStray (o : AllocOutcome)
  | buffInit
  /-- The upstream node starts again. -/
  | restart
  | write (a : WriterAction)
  /-- The upstream node writes a byte of a value. -/
  | writeData (c : ℕ) (byte : UInt8)
  | read (a : ReaderAction)

def failures (before after : Node) : Option BuffResponse → List Record
  | none => [.failed before after]
  | some _ => []

def step (s : State) : Action → Option State
  | .request posted =>
    match s.upstream with
    | .starting => some { s with upstream := if posted then .requested else .exited }
    | _ => none
  | .handle o =>
    match s.upstream, mallocBuffRequestHandler s.node o with
    | .requested, some (node, reply) => some { s with
        node := node
        upstream :=
          match reply with
          | some response => .replied (s.node.localRecvBuff.map (·.toLocalRingbuff)) response
          | none => .refused
        handshakes := s.handshakes ++ failures s.node node reply }
    | _, _ => none
  | .handleStray o =>
    match mallocBuffRequestHandler s.node o with
    | some (node, reply) => some { s with
        node := node
        handshakes := s.handshakes ++ failures s.node node reply }
    | none => none
  | .buffInit =>
    match s.upstream, s.node.localRecvBuff with
    | .replied before response, some buff => some { s with
        upstream := buffInit response
        handshakes := s.handshakes ++
          match buffInit response with
          | .ready w => [.done before w.remote buff.toLocalRingbuff]
          | _ => [] }
    | _, _ => none
  | .restart => some { s with upstream := .starting }
  | .write a =>
    match s.upstream, s.node.localRecvBuff with
    | .ready w, some buff =>
      match writerStep w buff.toLocalRingbuff a with
      | some (w, ring) => some { s with
          node := { s.node with localRecvBuff := some { buff with toLocalRingbuff := ring } }
          upstream := .ready w }
      | none => none
    | _, _ => none
  | .writeData c byte =>
    match s.upstream, s.node.localRecvBuff with
    | .ready _, some buff => some { s with
        node := { s.node with
          localRecvBuff := some { buff with buff := Function.update buff.buff c byte } } }
    | _, _ => none
  | .read a =>
    match s.node.localRecvBuff with
    | some buff =>
      match readerStep { s.receiver with ring := buff.toLocalRingbuff } a with
      | some (.next r _) => some { s with
          node := { s.node with localRecvBuff := some { buff with toLocalRingbuff := r.ring } }
          receiver := r }
      | _ => none
    | none => none

def start (receiver : Receiver) : State where
  node := { localRecvBuff := none, localRecvBuffMate := none }
  receiver := receiver
  upstream := .starting
  handshakes := []

def handshakeSystem : System State Action where
  init := fun s => ∃ buff junk, s = start (freshNode TOTAL_SIZE buff junk).receiver
  step := step

/-! ## The property -/

namespace Record

/-- Both sides agree, or the failure has left nothing behind. -/
def Agrees : Record → Prop
  | .done _ remote ring => remote.wrPointer = ring.wrPointer ∧ remote.size = ring.size
  | .failed before after => after = before

/-- The request found no buffer, or one whose write pointer stands at 0. -/
def FirstOrUnused : Record → Prop
  | .done before _ _ => ∀ ring, before = some ring → ring.wrPointer = 0
  | .failed _ _ => True

end Record

/-! ## Proof -/

/-- What a request does to the node: nothing, or it gets a fresh buffer. -/
theorem mallocBuffRequestHandler_cases {n n' : Node} {o : AllocOutcome}
    {reply : Option BuffResponse} (h : mallocBuffRequestHandler n o = some (n', reply)) :
    (reply = none ∧ n' = n) ∨
      (reply ≠ none ∧ n' = n ∧ ∃ buff, n.localRecvBuff = some buff) ∨
      (reply ≠ none ∧ n.localRecvBuff = none ∧ ∃ data, n'.localRecvBuff =
        some { freshRing o.junk with buffMr := data }) := by
  obtain ⟨buff, mate⟩ := n
  unfold mallocBuffRequestHandler at h
  cases buff with
  | none =>
    cases mate with
    | none =>
      dsimp only at h
      split_ifs at h
      cases hmate : o.mateMr with
      | none =>
        rw [hmate] at h
        cases h
        exact .inl ⟨rfl, rfl⟩
      | some mate =>
        cases hdata : o.dataMr with
        | none =>
          rw [hmate, hdata] at h
          cases h
          exact .inl ⟨rfl, rfl⟩
        | some data =>
          rw [hmate, hdata] at h
          cases h
          exact .inr (.inr ⟨Option.some_ne_none _, rfl, data, rfl⟩)
    | some mate => cases h
  | some buff =>
    cases mate with
    | none => cases h
    | some mate =>
      cases h
      exact .inr (.inl ⟨Option.some_ne_none _, rfl, buff, rfl⟩)

/-- A failed registration leaves the node as it was. -/
theorem mallocBuffRequestHandler_failed {n n' : Node} {o : AllocOutcome}
    (h : mallocBuffRequestHandler n o = some (n', none)) : n' = n := by
  rcases mallocBuffRequestHandler_cases h with ⟨-, hsame⟩ | ⟨hne, -⟩ | ⟨hne, -⟩
  · exact hsame
  · exact absurd rfl hne
  · exact absurd rfl hne

/-- While a reply is under way, the write pointer is 0 if the request found it there or
found no buffer. -/
def ReplyInv (node : Node) : Upstream → Prop
  | .replied before _ => ∃ buff, node.localRecvBuff = some buff ∧
      (buff.wrPointer = 0 ↔ ∀ ring, before = some ring → ring.wrPointer = 0)
  | _ => True

structure HandshakeInv (s : State) : Prop where
  sized : ∀ buff, s.node.localRecvBuff = some buff → buff.size = TOTAL_SIZE
  reply : ReplyInv s.node s.upstream
  recorded : ∀ h ∈ s.handshakes, h.Agrees ↔ h.FirstOrUnused

namespace HandshakeInv
variable {s t : State}

/-- Steps that neither replace the buffer nor move its write pointer. -/
theorem of_same_pointer (h : HandshakeInv s) {buff : RecvBuff} (buff' : RecvBuff)
    (hbuff : s.node.localRecvBuff = some buff) (hwr : buff'.wrPointer = buff.wrPointer)
    (hsize : buff'.size = buff.size) (receiver : Receiver) :
    HandshakeInv { s with
      node := { s.node with localRecvBuff := some buff' }
      receiver := receiver } where
  sized := by
    rintro b ⟨⟩
    exact hsize.trans (h.sized buff hbuff)
  reply := by
    have hreply := h.reply
    cases hup : s.upstream with
    | replied before response =>
      rw [hup] at hreply
      obtain ⟨b, hb, hiff⟩ := hreply
      obtain rfl : b = buff := Option.some.inj (hb.symm.trans hbuff)
      exact ⟨buff', rfl, by rw [hwr]; exact hiff⟩
    | _ => trivial
  recorded := h.recorded

theorem recorded_append (h : HandshakeInv s) {node : Node} {reply : Option BuffResponse}
    {o : AllocOutcome} (hreq : mallocBuffRequestHandler s.node o = some (node, reply)) :
    ∀ r ∈ s.handshakes ++ failures s.node node reply, r.Agrees ↔ r.FirstOrUnused := by
  intro r hr
  rcases List.mem_append.mp hr with hr | hr
  · exact h.recorded r hr
  · cases reply with
    | none =>
      rw [failures, List.mem_singleton] at hr
      subst hr
      exact iff_of_true (mallocBuffRequestHandler_failed hreq) trivial
    | some response => cases hr

theorem sized_handle (h : HandshakeInv s) {node : Node} {reply : Option BuffResponse}
    {o : AllocOutcome} (hreq : mallocBuffRequestHandler s.node o = some (node, reply)) :
    ∀ buff, node.localRecvBuff = some buff → buff.size = TOTAL_SIZE := by
  rcases mallocBuffRequestHandler_cases hreq with ⟨-, rfl⟩ | ⟨-, rfl, -⟩ | ⟨-, -, data, hnew⟩
  · exact h.sized
  · exact h.sized
  · intro buff hbuff
    rw [hnew] at hbuff
    cases hbuff
    rfl

theorem handle (h : HandshakeInv s) {o : AllocOutcome} (ht : step s (.handle o) = some t) :
    HandshakeInv t := by
  unfold step at ht
  dsimp only at ht
  split at ht
  · rename_i node reply hup hreq
    cases ht
    refine ⟨h.sized_handle hreq, ?_, h.recorded_append hreq⟩
    cases reply with
    | none => trivial
    | some response =>
      rcases mallocBuffRequestHandler_cases hreq with
        ⟨hnone, -⟩ | ⟨-, rfl, buff, hbuff⟩ | ⟨-, hold, data, hnew⟩
      · cases hnone
      · refine ⟨buff, hbuff, ?_⟩
        rw [hbuff]
        constructor
        · rintro hwr ring ⟨⟩
          exact hwr
        · intro hring
          exact hring _ rfl
      · refine ⟨_, hnew, ?_⟩
        rw [hold]
        refine iff_of_true rfl ?_
        intro ring hring
        cases hring
  · cases ht

theorem handleStray (h : HandshakeInv s) {o : AllocOutcome}
    (ht : step s (.handleStray o) = some t) : HandshakeInv t := by
  unfold step at ht
  dsimp only at ht
  split at ht
  · rename_i node reply hreq
    cases ht
    refine ⟨h.sized_handle hreq, ?_, h.recorded_append hreq⟩
    have hreply := h.reply
    cases hup : s.upstream with
    | replied before response =>
      rw [hup] at hreply
      obtain ⟨buff, hbuff, hiff⟩ := hreply
      rcases mallocBuffRequestHandler_cases hreq with ⟨-, rfl⟩ | ⟨-, rfl, -⟩ | ⟨-, hold, -⟩
      · exact ⟨buff, hbuff, hiff⟩
      · exact ⟨buff, hbuff, hiff⟩
      · rw [hold] at hbuff
        cases hbuff
    | _ => trivial
  · cases ht

/-- `buff_init` starts at 0, so it agrees with a write pointer that stands there. -/
theorem buffInit (h : HandshakeInv s) (ht : step s .buffInit = some t) : HandshakeInv t := by
  unfold step at ht
  dsimp only at ht
  split at ht
  · rename_i before response buff hup hbuff
    cases ht
    have hreply := h.reply
    rw [hup] at hreply
    obtain ⟨b, hb, hiff⟩ := hreply
    obtain rfl : b = buff := Option.some.inj (hb.symm.trans hbuff)
    unfold Handshake.buffInit
    split_ifs with haddr
    · exact ⟨h.sized, trivial, by simpa using h.recorded⟩
    · refine ⟨h.sized, trivial, fun r hr => ?_⟩
      rcases List.mem_append.mp hr with hr | hr
      · exact h.recorded r hr
      · rw [List.mem_singleton.mp hr]
        refine Iff.trans ?_ hiff
        constructor
        · intro hagree
          exact hagree.1.symm
        · intro hwr
          exact ⟨hwr.symm, (h.sized b hbuff).symm⟩
  · cases ht

theorem write (h : HandshakeInv s) {a : WriterAction} (ht : step s (.write a) = some t) :
    HandshakeInv t := by
  unfold step at ht
  dsimp only at ht
  split at ht
  · rename_i w buff hup hbuff
    split at ht
    · rename_i w' ring hstep
      cases ht
      obtain ⟨-, -, -, hsize⟩ := writerStep_frame hstep
      refine ⟨?_, trivial, h.recorded⟩
      rintro b ⟨⟩
      exact hsize.trans (h.sized buff hbuff)
    · cases ht
  · cases ht

theorem writeData (h : HandshakeInv s) {c : ℕ} {byte : UInt8}
    (ht : step s (.writeData c byte) = some t) : HandshakeInv t := by
  unfold step at ht
  dsimp only at ht
  split at ht
  · rename_i buff hup hbuff
    cases ht
    exact h.of_same_pointer { buff with buff := Function.update buff.buff c byte } hbuff rfl rfl
      s.receiver
  · cases ht

theorem read (h : HandshakeInv s) {a : ReaderAction} (ht : step s (.read a) = some t) :
    HandshakeInv t := by
  unfold step at ht
  dsimp only at ht
  split at ht
  · rename_i buff hbuff
    split at ht
    · rename_i r handed hstep
      cases ht
      obtain ⟨hwr, hsize⟩ := readerStep_ring hstep
      exact h.of_same_pointer { buff with toLocalRingbuff := r.ring } hbuff hwr hsize r
    · cases ht
  · cases ht

theorem of_step (h : HandshakeInv s) {a : Action} (ht : step s a = some t) :
    HandshakeInv t := by
  cases a with
  | request posted =>
    unfold step at ht
    dsimp only at ht
    split at ht
    · cases ht
      refine ⟨h.sized, ?_, h.recorded⟩
      cases posted <;> trivial
    · cases ht
  | handle o => exact h.handle ht
  | handleStray o => exact h.handleStray ht
  | buffInit => exact h.buffInit ht
  | restart =>
    cases ht
    exact ⟨h.sized, trivial, h.recorded⟩
  | write a => exact h.write ht
  | writeData c byte => exact h.writeData ht
  | read a => exact h.read ht

theorem of_reachable (h : Reachable handshakeSystem s) : HandshakeInv s := by
  refine h.invariant (P := HandshakeInv) ?_ fun _ _ _ hs _ ht => hs.of_step ht
  rintro s ⟨buff, junk, rfl⟩
  refine ⟨?_, trivial, ?_⟩
  · intro b hb
    cases hb
  · intro r hr
    cases hr

end HandshakeInv

/-- A log of 37 bytes. -/
def shortLog : HeadLog := .plain letterK letterV

def granted : AllocOutcome := ⟨true, some 4096, some 8192, fun _ => 0⟩

/-- The first handshake, one log, and the handshake after a restart of the upstream node. -/
def restartBehindLog : List Action :=
  [.request true, .handle ⟨true, some 4096, none, fun _ => 0⟩, .restart, .request true,
    .handle granted, .buffInit, .write (.write shortLog), .write (.check true),
    .write (.recheck true), .write .writeMate, .write .advance, .write .publish, .restart,
    .request true, .handle granted, .buffInit]

/-- The last write pointers differ. -/
def State.lastDisagrees (s : State) : Bool :=
  match s.handshakes with
  | [.failed _ _, .done none _ _, .done (some _) remote ring] =>
    remote.wrPointer == 0 && ring.wrPointer == 37
  | _ => false

theorem reachable_lastDisagrees :
    ∃ s, Reachable handshakeSystem s ∧ s.lastDisagrees = true := by
  have hstart : Reachable handshakeSystem
      (start (freshNode TOTAL_SIZE (fun _ => 0) fun _ _ => 0).receiver) := .start ⟨_, _, rfl⟩
  obtain ⟨s, _, hs, hlast⟩ := reach_of_run_any (fun _ _ _ => trivial) hstart
    (show (run handshakeSystem (fun _ _ => true)
      (start (freshNode TOTAL_SIZE (fun _ => 0) fun _ _ => 0).receiver) restartBehindLog).any
      State.lastDisagrees = true by decide +kernel)
  exact ⟨s, hs, hlast⟩

end RdmaMiddleware.Handshake
