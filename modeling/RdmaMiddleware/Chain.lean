import RdmaMiddleware.LogBuffer
import RdmaMiddleware.UnlockQueue
import RdmaMiddleware.TransitionSystem

/-!
# The chain of nodes

Node 0 is the head, the last node the tail. The head runs the writer thread and
`NIC_thread`, a normal node `reader_thread` and `NIC_thread`, the tail `reader_thread`.
A step is one `dhmp_read`, `dhmp_write` or queue operation of a sending thread, one
pass of a loop of `read_log_key` or `read_log_value`, or one call of `send_log` or
`clean_log`. The reader's limits are arbitrary, and the demonstration's stop after
`REPEAT` logs is left out.

A log of a node is named by its number: the head's logs in the order of their
reservation, a receiver's entries in the order in which `read_log_key` allocates them.
A queue of logs is the list it represents. `exit(0)` ends all threads of a node and
leaves its memory as it was.
-/
namespace RdmaMiddleware.Chain
open CInt CircularMemory LogBuffer MidHashmap UnlockQueue TransitionSystem

inductive NodeClass
  | HEAD
  | NORMAL
  | TAIL
  deriving DecidableEq

/-! ## The receiving side of a node -/

/-- Where `reader_thread` stands. -/
inductive Phase
  /-- At the top of its loop. -/
  | parse
  /-- In `read_log_key`. -/
  | keys (limits readNum pos : ℕ)
  /-- Between `read_log_key` and `read_log_value`. -/
  | keysRead
  /-- In `read_log_value`. -/
  | value (limits readNum : ℕ)
  /-- About to take a log from `executing_queue`, with `num` logs left to do. -/
  | exec (num : ℕ)
  /-- Past `send_log`, about to call `clean_log`. -/
  | sent (num : ℕ)

/-- The memory and the queues of a receiving node. `junk` is what memory holds that is
not allocated or not written. The last four fields record what has happened: the key
string of each log read, the number of logs cleaned, the value bytes of each log when it
was moved to `executing_queue`, and what the reader took from there. -/
structure Receiver where
  ring : LocalRingbuff
  entries : ℕ → Option LogEntry
  keyCopies : ℕ → Option (List UInt8)
  valueCopies : ℕ → Option (List UInt8)
  nextEntry : ℕ
  dirtyMap : HashMap Addr ℕ
  valuePeeding : List ℕ
  executing : List ℕ
  dirty : List ℕ
  phase : Phase
  junk : Addr → ℕ → UInt8
  keys : List Str
  cleaned : ℕ
  received : List (List UInt8)
  obtained : List (List UInt8 × List UInt8)

namespace Receiver

/-- The byte at an address plus an index. -/
def byteAt (r : Receiver) (a : Addr) (j : ℕ) : UInt8 :=
  match a with
  | .ring pos => r.ring.buff (pos + j)
  | .keyCopy owner => ((r.keyCopies owner).bind (·[j]?)).getD (r.junk a j)
  | .valueCopy owner => ((r.valueCopies owner).bind (·[j]?)).getD (r.junk a j)

def str (r : Receiver) (a : Addr) : Str := cStringAt (r.byteAt a) 0

def bytes (r : Receiver) (a : Addr) (len : ℕ) : List UInt8 := readBytes (r.byteAt a) 0 len

def getKeyAddr (r : Receiver) (e : LogEntry) : Addr :=
  e.keyAddr.getD (.ring (ringPos r.ring e.logPos e.mateData.keyOffset))

def getValueAddr (r : Receiver) (e : LogEntry) : Addr :=
  e.valueAddr.getD (.ring (ringPos r.ring e.logPos e.mateData.valueOffset))

def keyBytes (r : Receiver) (e : LogEntry) : List UInt8 :=
  r.bytes (r.getKeyAddr e) e.mateData.keyLength.toNat

def valueBytes (r : Receiver) (e : LogEntry) : List UInt8 :=
  r.bytes (r.getValueAddr e) e.mateData.valueLength.toNat

def judgeKeyDirty (r : Receiver) (k : Str) : Bool :=
  defaultExists defaultHashCode r.str r.dirtyMap k

end Receiver

/-- The result of a step of the reader, with the log that `send_log` hands over. -/
inductive Outcome
  | next (r : Receiver) (handed : Option ℕ)
  | exit
  | crash

/-- Nesting bound for the resizing of the dirty table. -/
def resizeDepth : ℕ := 2

/-- The new dirty table after `read_log_key` has counted a key. -/
def countKey (r : Receiver) (a : Addr) : Option (HashMap Addr ℕ) :=
  if defaultExists defaultHashCode r.str r.dirtyMap (r.str a) then
    defaultPut defaultHashCode r.str resizeDepth r.dirtyMap a
      (defaultGet defaultHashCode r.str r.dirtyMap (r.str a) + 1)
  else defaultPut defaultHashCode r.str resizeDepth r.dirtyMap a 1

/-- The new dirty table after `clean_log` has discounted a key that is in it. -/
def uncountKey (r : Receiver) (a : Addr) : Option (HashMap Addr ℕ) :=
  let count := defaultGet defaultHashCode r.str r.dirtyMap (r.str a) - 1
  if count = 0 then
    (defaultRemove defaultHashCode r.str resizeDepth r.dirtyMap (r.str a)).map Prod.snd
  else defaultPut defaultHashCode r.str resizeDepth r.dirtyMap a count

/-- Memory after `read_log_key` has built the entry for the log at `pos`. -/
def allocEntry (r : Receiver) (pos : ℕ) : Receiver :=
  let e := readLogEntry r.ring pos r.nextEntry
  { r with
    entries := Function.update r.entries r.nextEntry (some e)
    keyCopies := if e.keyIsCut then
      Function.update r.keyCopies r.nextEntry (some (readKeyCopy r.ring e)) else r.keyCopies
    nextEntry := r.nextEntry + 1 }

theorem allocEntry_entries_self (r : Receiver) (pos : ℕ) :
    (allocEntry r pos).entries r.nextEntry = some (readLogEntry r.ring pos r.nextEntry) :=
  Function.update_self ..

theorem allocEntry_entries_of_ne (r : Receiver) (pos : ℕ) {j : ℕ} (hj : j ≠ r.nextEntry) :
    (allocEntry r pos).entries j = r.entries j :=
  Function.update_of_ne hj ..

theorem allocEntry_keyCopies_self {r : Receiver} {pos : ℕ}
    (hcut : (readLogEntry r.ring pos r.nextEntry).keyIsCut = true) :
    (allocEntry r pos).keyCopies r.nextEntry =
      some (readKeyCopy r.ring (readLogEntry r.ring pos r.nextEntry)) := by
  simp only [allocEntry, hcut, if_true, Function.update_self]

theorem allocEntry_keyCopies_of_ne (r : Receiver) (pos : ℕ) {j : ℕ} (hj : j ≠ r.nextEntry) :
    (allocEntry r pos).keyCopies j = r.keyCopies j := by
  unfold allocEntry
  dsimp only
  split_ifs
  · exact Function.update_of_ne hj ..
  · rfl

/-- One pass of the loop in `read_log_key`, or its return. The result of putting the log
on `dirty_queue` is ignored. -/
def readLogKeyPass (r : Receiver) (limits readNum pos : ℕ) : Outcome :=
  if limits ≤ readNum ∨ r.ring.countSize pos < sizeofLogMateData then
    .next { r with ring := { r.ring with rdKeyPointer := pos }, phase := .keysRead } none
  else
    let e := readLogEntry r.ring pos r.nextEntry
    let r' := allocEntry r pos
    let keyAddr := r'.getKeyAddr e
    match countKey r' keyAddr with
    | none => .crash
    | some dirtyMap =>
      match boundedPut QUEUE_SIZE r.valuePeeding r.nextEntry with
      | none => .exit
      | some valuePeeding => .next { r' with
          dirtyMap := dirtyMap
          dirty := (boundedPut QUEUE_SIZE r.dirty r.nextEntry).getD r.dirty
          valuePeeding := valuePeeding
          phase := .keys limits (readNum + 1) (ringPos r.ring pos e.mateData.nextOffset)
          keys := r.keys ++ [r'.str keyAddr] } none

/-- The phase after `num` logs have been found or are left. -/
def afterRead (num : ℕ) : Phase := if num = 0 then .parse else .exec num

/-- `read_log_value` sets the value address of a log, copying the value if it wraps. -/
def setValue (r : Receiver) (id : ℕ) (e : LogEntry) : LogEntry × Receiver :=
  let valuePos := ringPos r.ring e.logPos e.mateData.valueOffset
  let cut := decide ((r.ring.size : ℤ) ≤ valuePos + e.mateData.valueLength)
  let e' := { e with
    valueIsCut := cut
    valueAddr := some (if cut then Addr.valueCopy id else .ring valuePos) }
  (e', { r with
    entries := Function.update r.entries id (some e')
    valueCopies := if cut then
      Function.update r.valueCopies id
        (some (copyOut r.ring valuePos e.mateData.valueLength.toNat))
      else r.valueCopies })

theorem setValue_entries_self (r : Receiver) (id : ℕ) (e : LogEntry) :
    (setValue r id e).2.entries id = some (setValue r id e).1 :=
  Function.update_self ..

theorem setValue_entries_of_ne (r : Receiver) {id j : ℕ} (e : LogEntry) (hj : j ≠ id) :
    (setValue r id e).2.entries j = r.entries j :=
  Function.update_of_ne hj ..

theorem setValue_valueCopies_of_ne (r : Receiver) {id j : ℕ} (e : LogEntry) (hj : j ≠ id) :
    (setValue r id e).2.valueCopies j = r.valueCopies j := by
  unfold setValue
  dsimp only
  split_ifs
  · exact Function.update_of_ne hj ..
  · rfl

/-- One pass of the loop in `read_log_value`, or its return. Without the tag byte the
loop goes round again. -/
def readLogValuePass (r : Receiver) (limits readNum : ℕ) : Outcome :=
  match r.valuePeeding with
  | [] => .next { r with phase := afterRead readNum } none
  | id :: rest =>
    if limits ≤ readNum then .next { r with phase := afterRead readNum } none
    else match r.entries id with
      | none => .crash
      | some e =>
        if r.ring.buff (ringPos r.ring e.logPos e.mateData.valueTagOffset) = 1 then
          let (e', r') := setValue r id e
          match boundedPut QUEUE_SIZE r.executing id with
          | none => .exit
          | some executing => .next { r' with
              executing := executing
              valuePeeding := rest
              phase := .value limits (readNum + 1)
              received := r.received ++ [r'.valueBytes e'] } none
        else .next r none

/-- `top_log` and `send_log`. -/
def sendLog (r : Receiver) (num : ℕ) : Outcome :=
  match r.executing with
  | [] => .next { r with phase := .sent num } none
  | id :: rest =>
    match r.entries id with
    | none => .crash
    | some e => .next { r with
        executing := rest
        phase := .sent num
        obtained := r.obtained ++ [(r.keyBytes e, r.valueBytes e)] } (some id)

/-- `free_log` on a node that is not the head. -/
def freeLog (r : Receiver) (id : ℕ) (e : LogEntry) : Receiver :=
  { r with
    ring := freeRing r.ring e
    entries := Function.update r.entries id none
    keyCopies := if e.keyIsCut then Function.update r.keyCopies id none else r.keyCopies
    valueCopies := if e.valueIsCut then Function.update r.valueCopies id none
      else r.valueCopies }

theorem freeLog_entries_of_ne (r : Receiver) {id j : ℕ} (e : LogEntry) (hj : j ≠ id) :
    (freeLog r id e).entries j = r.entries j :=
  Function.update_of_ne hj ..

theorem freeLog_keyCopies_of_ne (r : Receiver) {id j : ℕ} {e : LogEntry}
    (hj : e.keyIsCut = true → j ≠ id) : (freeLog r id e).keyCopies j = r.keyCopies j := by
  unfold freeLog
  dsimp only
  split_ifs with hcut
  · exact Function.update_of_ne (hj hcut) ..
  · rfl

theorem freeLog_valueCopies_of_ne (r : Receiver) {id j : ℕ} (e : LogEntry) (hj : j ≠ id) :
    (freeLog r id e).valueCopies j = r.valueCopies j := by
  unfold freeLog
  dsimp only
  split_ifs
  · exact Function.update_of_ne hj ..
  · rfl

def cleanLog (r : Receiver) (num : ℕ) : Outcome :=
  match r.dirty with
  | [] => .next { r with phase := afterRead (num - 1) } none
  | id :: rest =>
    match r.entries id with
    | none => .crash
    | some e =>
      if r.judgeKeyDirty (r.str (r.getKeyAddr e)) then
        match uncountKey r (r.getKeyAddr e) with
        | none => .crash
        | some dirtyMap => .next { freeLog r id e with
            dirtyMap := dirtyMap
            dirty := rest
            phase := afterRead (num - 1)
            cleaned := r.cleaned + 1 } none
      else .exit

inductive ReaderAction
  | readLogKey (limits : ℕ)
  | readLogKeyPass
  | readLogValue (limits : ℕ)
  | readLogValuePass
  | sendLog
  | cleanLog

def readerStep (r : Receiver) : ReaderAction → Option Outcome
  | .readLogKey limits =>
    match r.phase with
    | .parse => some (.next { r with phase := .keys limits 0 r.ring.rdKeyPointer } none)
    | _ => none
  | .readLogKeyPass =>
    match r.phase with
    | .keys limits readNum pos => some (readLogKeyPass r limits readNum pos)
    | _ => none
  | .readLogValue limits =>
    match r.phase with
    | .keysRead => some (.next { r with phase := .value limits 0 } none)
    | _ => none
  | .readLogValuePass =>
    match r.phase with
    | .value limits readNum => some (readLogValuePass r limits readNum)
    | _ => none
  | .sendLog =>
    match r.phase with
    | .exec num => some (sendLog r num)
    | _ => none
  | .cleanLog =>
    match r.phase with
    | .sent num => some (cleanLog r num)
    | _ => none

/-- The reader leaves the write pointer and the size of its ring alone. -/
theorem readerStep_ring {r r' : Receiver} {a : ReaderAction} {handed : Option ℕ}
    (h : readerStep r a = some (.next r' handed)) :
    r'.ring.wrPointer = r.ring.wrPointer ∧ r'.ring.size = r.ring.size := by
  cases a <;> cases hphase : r.phase <;> simp only [readerStep, hphase, reduceCtorEq,
    Option.some.injEq, Outcome.next.injEq] at h
  case readLogKey.parse =>
    obtain ⟨rfl, -⟩ := h
    exact ⟨rfl, rfl⟩
  case readLogKeyPass.keys =>
    unfold readLogKeyPass at h
    split_ifs at h
    · cases h
      exact ⟨rfl, rfl⟩
    · dsimp only at h
      split at h
      · cases h
      · split at h <;> cases h
        exact ⟨rfl, rfl⟩
  case readLogValue.keysRead =>
    obtain ⟨rfl, -⟩ := h
    exact ⟨rfl, rfl⟩
  case readLogValuePass.value =>
    unfold readLogValuePass at h
    split at h
    · cases h
      exact ⟨rfl, rfl⟩
    · split_ifs at h
      · cases h
        exact ⟨rfl, rfl⟩
      · split at h
        · cases h
        · split_ifs at h
          · dsimp only at h
            split at h <;> cases h
            exact ⟨rfl, rfl⟩
          · cases h
            exact ⟨rfl, rfl⟩
  case sendLog.exec =>
    unfold sendLog at h
    split at h
    · cases h
      exact ⟨rfl, rfl⟩
    · split at h <;> cases h
      exact ⟨rfl, rfl⟩
  case cleanLog.sent =>
    unfold cleanLog at h
    split at h
    · cases h
      exact ⟨rfl, rfl⟩
    · split at h
      · cases h
      · split_ifs at h
        split at h <;> cases h
        exact ⟨rfl, rfl⟩

/-! ## The sending side of a node -/

/-- Where the bytes of a value come from: the head's own copy or a receiver's memory. -/
inductive Source
  | own (value : List UInt8)
  | received (a : Addr)

/-- Where `NIC_thread` stands. In `rb_write_data`, `passed` bytes have been written and
`len` bytes are still to be written at `pos`. -/
inductive Nic
  | idle
  | taken (id : ℕ)
  | writing (id : ℕ) (src : Source) (passed : List UInt8) (len pos : ℕ)

/-- `handed` are the logs given to `NIC_thread` by `head_node_write_log` or `send_log`,
`taken` those it has taken from `sending_queue`, `finished` those whose `rb_write_data`
has completed, with the bytes passed. -/
structure Sender where
  writer : Writer
  sending : List ℕ
  nic : Nic
  handed : List ℕ
  taken : List ℕ
  finished : List (ℕ × List UInt8)

/-- `head_node_write_log` after `rb_write_mate`: a log that finds the queue full is not
accepted. -/
def enqueue (sd : Sender) : Option Sender :=
  match sd.writer.pc with
  | .enqueueing =>
    let id := sd.writer.logs.length - 1
    match boundedPut QUEUE_SIZE sd.sending id with
    | none => some { sd with writer := { sd.writer with pc := .idle } }
    | some sending => some { sd with
        writer := { sd.writer with pc := .idle }
        sending := sending
        handed := sd.handed ++ [id] }
  | _ => none

/-- `send_log` ignores the result of `putQueue`. -/
def handOver (sd : Sender) (id : ℕ) : Sender :=
  { sd with
    sending := (boundedPut QUEUE_SIZE sd.sending id).getD sd.sending
    handed := sd.handed ++ [id] }

inductive NicAction
  | take
  | start
  | write

/-- What `NIC_thread` reads from the log it has taken: `log_pos`, the metadata and the
place of the value. -/
def nicLog (cls : NodeClass) (r : Receiver) (sd : Sender) (id : ℕ) :
    Option (ℕ × LogMateData × Source) :=
  match cls with
  | .HEAD => (sd.writer.logs[id]?).map fun l => (l.2, l.1.mateData, .own l.1.valueBytes)
  | _ => (r.entries id).bind fun e =>
    e.valueAddr.map fun a => (e.logPos, e.mateData, .received a)

/-- The bytes of a value from the one numbered `done` on. -/
def sourceBytes (r : Receiver) (src : Source) (done len : ℕ) : List UInt8 :=
  match src with
  | .own value => (value.drop done).take len
  | .received a => readBytes (r.byteAt a) done len

/-- One step of `NIC_thread`; `buff` is the ring of the next node. -/
def nicStep (cls : NodeClass) (r : Receiver) (sd : Sender) (buff : ℕ → UInt8) :
    NicAction → Option (Sender × (ℕ → UInt8))
  | .take =>
    match sd.nic, sd.sending with
    | .idle, id :: rest =>
      some ({ sd with sending := rest, nic := .taken id, taken := sd.taken ++ [id] }, buff)
    | _, _ => none
  | .start =>
    match sd.nic with
    | .taken id =>
      match nicLog cls r sd id with
      | none => none
      | some (logPos, mateData, src) =>
        let valuePos := mask (logPos + mateData.valueOffset) sd.writer.remote.size
        some ({ sd with nic := .writing id src [] mateData.valueLength.toNat valuePos }, buff)
    | _ => none
  | .write =>
    match sd.nic with
    | .writing id src passed len pos =>
      if sd.writer.remote.size < pos + len then
        let leftSize := sd.writer.remote.size - pos
        let bs := sourceBytes r src passed.length leftSize
        some ({ sd with nic := .writing id src (passed ++ bs) (len - leftSize) 0 },
          writeBytes buff pos bs)
      else
        let bs := sourceBytes r src passed.length len
        some ({ sd with nic := .idle, finished := sd.finished ++ [(id, passed ++ bs)] },
          writeBytes buff pos bs)
    | _ => none

/-! ## The chain -/

structure Node where
  receiver : Receiver
  sender : Sender
  exited : Bool

def nodeClass (n i : ℕ) : NodeClass :=
  if i + 1 = n then .TAIL else if i = 0 then .HEAD else .NORMAL

inductive Action
  /-- The writer thread of the head. -/
  | head (a : WriterAction)
  /-- Its call of `putQueue`. -/
  | enqueue
  | nic (i : ℕ) (a : NicAction)
  | reader (i : ℕ) (a : ReaderAction)

abbrev State := ℕ → Node

/-- Replace the ring bytes of a receiver. -/
def Receiver.withBuff (r : Receiver) (buff : ℕ → UInt8) : Receiver :=
  { r with ring := { r.ring with buff := buff } }

def step (n : ℕ) (s : State) : Action → Option State
  | .head a =>
    if (s 0).exited then none
    else match writerStep (s 0).sender.writer (s 1).receiver.ring a with
      | none => none
      | some (w, b) => some (Function.update
          (Function.update s 0 { s 0 with sender := { (s 0).sender with writer := w } })
          1 { s 1 with receiver := { (s 1).receiver with ring := b } })
  | .enqueue =>
    if (s 0).exited then none
    else match enqueue (s 0).sender with
      | none => none
      | some sd => some (Function.update s 0 { s 0 with sender := sd })
  | .nic i a =>
    if (s i).exited ∨ n ≤ i + 1 then none
    else match nicStep (nodeClass n i) (s i).receiver (s i).sender
        (s (i + 1)).receiver.ring.buff a with
      | none => none
      | some (sd, buff) => some (Function.update
          (Function.update s i { s i with sender := sd })
          (i + 1) { s (i + 1) with receiver := (s (i + 1)).receiver.withBuff buff })
  | .reader i a =>
    if (s i).exited ∨ i = 0 ∨ n ≤ i then none
    else match readerStep (s i).receiver a with
      | none => none
      | some .crash => none
      | some .exit => some (Function.update s i { s i with exited := true })
      | some (.next r handed) => some (Function.update s i { s i with
          receiver := r
          sender := match handed with
            | some id => if nodeClass n i = .TAIL then (s i).sender
              else handOver (s i).sender id
            | none => (s i).sender })

/-- A node after start-up and the buffer handshake: its ring is zeroed. -/
def freshNode (size : ℕ) (buff : ℕ → UInt8) (junk : Addr → ℕ → UInt8) : Node where
  receiver :=
    { ring := { wrPointer := 0, rdPointer := 0, size := size, rdKeyPointer := 0
                buff := fun i => if i < size then 0 else buff i }
      entries := fun _ => none
      keyCopies := fun _ => none
      valueCopies := fun _ => none
      nextEntry := 0
      dirtyMap := createHashMap 1024
      valuePeeding := []
      executing := []
      dirty := []
      phase := .parse
      junk := junk
      keys := []
      cleaned := 0
      received := []
      obtained := [] }
  sender :=
    { writer :=
        { remote := { wrPointer := 0, rdPointer := 0, size := size }, pc := .idle, logs := []
          published := 0 }
      sending := []
      nic := .idle
      handed := []
      taken := []
      finished := [] }
  exited := false

/-- A chain of `n` nodes with rings of one size. -/
def chainSystem (n size : ℕ) : System State Action where
  init := fun s => ∃ (buff : ℕ → ℕ → UInt8) (junk : ℕ → Addr → ℕ → UInt8),
    s = fun i => freshNode size (buff i) (junk i)
  step := step n

/-! ## Fragments of runs -/

/-- A chain at start-up. -/
def freshChain (size : ℕ) : State := fun _ => freshNode size (fun _ => 0) (fun _ _ => 0)

theorem reach_freshChain {n size : ℕ} {cond : State → Action → Prop} :
    Reach (chainSystem n size) cond (freshChain size) :=
  .start ⟨fun _ _ => 0, fun _ _ _ => 0, rfl⟩

/-- `head_node_write_log` on a log whose metadata is written in `chunks` parts. -/
def writeLog (log : HeadLog) (chunks : ℕ) : List Action :=
  [.head (.write log), .head (.check true), .head (.recheck true)] ++
    List.replicate chunks (.head .writeMate) ++ [.head .advance, .head .publish, .enqueue]

/-- `NIC_thread` of node `i` on one log whose value is written in `chunks` parts. -/
def forwardLog (i chunks : ℕ) : List Action :=
  [.nic i .take, .nic i .start] ++ List.replicate chunks (.nic i .write)

/-- `reader_thread` of node `i` from the top of its loop, up to `count` key passes and
one value pass that moves a log, to the hand-over of that log. -/
def readLog (i count : ℕ) : List Action :=
  [.reader i (.readLogKey 1024)] ++ List.replicate count (.reader i .readLogKeyPass) ++
    [.reader i (.readLogValue 1), .reader i .readLogValuePass, .reader i .readLogValuePass,
      .reader i .sendLog]

end RdmaMiddleware.Chain
