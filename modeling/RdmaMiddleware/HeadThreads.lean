import RdmaMiddleware.Delivery

/-!
# The two threads of the head

The writer thread runs `head_node_write_log`, `NIC_thread` runs `rb_write_data` on the
logs whose `rb_write_mate` has returned; every `dhmp_write` is a step of its own. All of
them place pieces of one fixed text, the concatenated entries, where these belong in the
ring. A piece never undoes another one, so the order does not matter.
-/
namespace RdmaMiddleware.HeadThreads
open TransitionSystem CInt CircularMemory LogBuffer RingReservation Chain

/-! ## The text of a list of logs -/

/-- The bytes of a log as they stand in the ring. -/
def entry (log : HeadLog) : List UInt8 := log.mateBytes ++ log.valueBytes

def entries (logs : List HeadLog) : List UInt8 := logs.flatMap entry

/-- Where the entry with index `j` starts. -/
def entryStart (logs : List HeadLog) (j : ℕ) : ℕ := (entries (logs.take j)).length

@[simp] theorem length_entry (log : HeadLog) : (entry log).length = log.totalLen := by
  simp [entry, HeadLog.totalLen]

theorem entries_append (as bs : List HeadLog) : entries (as ++ bs) = entries as ++ entries bs :=
  List.flatMap_append

theorem entryStart_succ {logs : List HeadLog} {j : ℕ} {log : HeadLog} (h : logs[j]? = some log) :
    entryStart logs (j + 1) = entryStart logs j + log.totalLen := by
  rw [entryStart, List.take_add_one, h, entries_append, List.length_append]
  simp [entryStart, entries]

theorem entries_split (logs : List HeadLog) (j : ℕ) :
    entries logs = entries (logs.take j) ++ entries (logs.drop j) := by
  rw [← entries_append, List.take_append_drop]

theorem entryStart_le (logs : List HeadLog) (j : ℕ) :
    entryStart logs j ≤ (entries logs).length := by
  have h := congrArg List.length (entries_split logs j)
  rw [List.length_append] at h
  unfold entryStart
  omega

theorem entryStart_length (logs : List HeadLog) :
    entryStart logs logs.length = (entries logs).length := by
  rw [entryStart, List.take_length]

theorem totalLen_le {logs : List HeadLog} {j : ℕ} {log : HeadLog} (h : logs[j]? = some log) :
    entryStart logs j + log.totalLen ≤ (entries logs).length :=
  entryStart_succ h ▸ entryStart_le logs (j + 1)

/-- What a ring can take fits an `int`. -/
theorem fits_of_le {logs : List HeadLog} {n j : ℕ} {log : HeadLog} (hn : IsRingSize n)
    (hroom : (entries logs).length ≤ n) (h : logs[j]? = some log) : log.Fits := by
  have := hn.le
  have := totalLen_le h
  unfold HeadLog.Fits
  omega

/-- From its start on, the text is the entry and what follows. -/
theorem drop_entries {logs : List HeadLog} {j : ℕ} {log : HeadLog} (h : logs[j]? = some log) :
    (entries logs).drop (entryStart logs j) = entry log ++ entries (logs.drop (j + 1)) := by
  obtain ⟨hj, hget⟩ := List.getElem?_eq_some_iff.mp h
  rw [entries_split logs j, entryStart, List.drop_left, List.drop_eq_getElem_cons hj, hget]
  rfl

/-- The rest of an entry stands in the text behind its first part. -/
theorem piece_of_entry {logs : List HeadLog} {j : ℕ} {log : HeadLog} (h : logs[j]? = some log)
    {front back piece : List UInt8} (hsplit : entry log = front ++ back)
    (hpiece : piece <+: back) :
    piece <+: (entries logs).drop (entryStart logs j + front.length) := by
  rw [← List.drop_drop, drop_entries h, hsplit, List.append_assoc, List.drop_left]
  exact hpiece.trans (List.prefix_append _ _)

/-! ## Steps -/

structure State where
  sender : Sender
  ring : LocalRingbuff

inductive Action
  /-- `head_node_write_log` is called with the next log. -/
  | write
  /-- Its other steps up to the return of `rb_write_mate`. -/
  | head (a : WriterAction)
  /-- The log is handed to `NIC_thread`. -/
  | handOver
  /-- The order in which `NIC_thread` takes the logs is left open. -/
  | order (id : ℕ)
  | nic (a : NicAction)

def headStep (s : State) (a : WriterAction) : Option State :=
  (writerStep s.sender.writer s.ring a).map fun p =>
    { sender := { s.sender with writer := p.1 }, ring := p.2 }

/-- `r` is the head's own receiving side, which is not used. A call that fails is repeated
with the same log, as in `writer_thread`. -/
def step (logs : List HeadLog) (r : Receiver) (s : State) : Action → Option State
  | .write =>
    match logs[s.sender.writer.logs.length]? with
    | some log => headStep s (.write log)
    | none => none
  | .head (.write _) => none
  | .head a => headStep s a
  | .handOver =>
    match s.sender.writer.pc with
    | .enqueueing => some { s with sender := { s.sender with
        writer := { s.sender.writer with pc := .idle }
        sending := s.sender.sending ++ [s.sender.writer.logs.length - 1] } }
    | _ => none
  | .order id =>
    if id ∈ s.sender.sending then
      some { s with sender := { s.sender with sending := id :: s.sender.sending.erase id } }
    else none
  | .nic a =>
    match nicStep .HEAD r s.sender s.ring.buff a with
    | some (sd, buff) => some { sender := sd, ring := { s.ring with buff := buff } }
    | none => none

/-- The threads start on a ring in any state; `cache` is the stale copy of `rd_pointer`. -/
def start (ring : LocalRingbuff) (cache : ℕ) : State where
  sender :=
    { writer :=
        { remote :=
            { wrPointer := ring.wrPointer, rdPointer := cache, size := ring.size }
          pc := .idle
          logs := []
          published := 0 }
      sending := []
      nic := .idle
      handed := []
      taken := []
      finished := [] }
  ring := ring

def headSystem (logs : List HeadLog) (r : Receiver) (ring : LocalRingbuff) :
    System State Action where
  init := fun s => ∃ cache, s = start ring cache
  step := step logs r

/-- All logs are written and sent, and no call is running. -/
def State.complete (logs : List HeadLog) (s : State) : Bool :=
  (match s.sender.writer.pc with
    | .idle => true
    | _ => false) &&
  (match s.sender.nic with
    | .idle => true
    | _ => false) &&
  s.sender.sending.isEmpty && decide (s.sender.writer.logs.length = logs.length)

section Complete
variable {logs : List HeadLog} {s : State}

theorem complete_pc (h : s.complete logs = true) : s.sender.writer.pc = .idle := by
  cases hpc : s.sender.writer.pc <;> simp_all [State.complete]

theorem complete_nic (h : s.complete logs = true) : s.sender.nic = .idle := by
  cases hn : s.sender.nic <;> simp_all [State.complete]

theorem complete_sending (h : s.complete logs = true) : s.sender.sending = [] := by
  simp only [State.complete, Bool.and_eq_true] at h
  exact List.isEmpty_iff.mp h.1.2

theorem complete_length (h : s.complete logs = true) :
    s.sender.writer.logs.length = logs.length := by
  simp only [State.complete, Bool.and_eq_true, decide_eq_true_eq] at h
  exact h.2

end Complete

/-! ## The property -/

/-- The entries of `logs` stand in the ring from where the write pointer was, nothing else
has changed, and the write pointer stands behind them. -/
structure Written (logs : List HeadLog) (before after : LocalRingbuff) : Prop where
  entry_bytes : ∀ i < (entries logs).length,
    (entries logs)[i]? = some (after.buff ((before.wrPointer + i) % before.size))
  other_bytes : ∀ c ∉ cells before.size before.wrPointer (entries logs).length,
    after.buff c = before.buff c
  wr_pointer : after.wrPointer % before.size =
    (before.wrPointer + (entries logs).length) % before.size

/-! ## The invariant -/

section Invariant
variable (logs : List HeadLog) (ring₀ : LocalRingbuff)

/-- Byte `i` of the text is in the ring. -/
def InPlace (buff : ℕ → UInt8) (i : ℕ) : Prop :=
  Agrees buff ring₀.size ring₀.wrPointer (entries logs) i

/-- A pointer stands for index `i` of the text. -/
def StandsFor (pos i : ℕ) : Prop :=
  pos ≤ ring₀.size ∧ pos % ring₀.size = (ring₀.wrPointer + i) % ring₀.size

/-- A write pointer stands behind the first `k` logs. It is 0 only where it started. -/
def Behind (pos k : ℕ) : Prop :=
  StandsFor ring₀ pos (entryStart logs k) ∧ if k = 0 then pos = ring₀.wrPointer else 0 < pos

def PcInv (w : Writer) (ring : LocalRingbuff) : Prop :=
  match w.pc with
  | .idle => ring.wrPointer = w.remote.wrPointer ∧
      Behind logs ring₀ w.remote.wrPointer w.logs.length
  | .started log | .checked log => logs[w.logs.length]? = some log ∧
      ring.wrPointer = w.remote.wrPointer ∧ Behind logs ring₀ w.remote.wrPointer w.logs.length
  | .mateWriting log logPos pos rest => logs[w.logs.length]? = some log ∧
      StandsFor ring₀ logPos (entryStart logs w.logs.length) ∧
      ∃ written, log.mateBytes = written ++ rest ∧
        StandsFor ring₀ pos (entryStart logs w.logs.length + written.length) ∧
        ∀ i < written.length, InPlace logs ring₀ ring.buff (entryStart logs w.logs.length + i)
  | .mateWritten log logPos => logs[w.logs.length]? = some log ∧
      StandsFor ring₀ logPos (entryStart logs w.logs.length) ∧
      StandsFor ring₀ w.remote.wrPointer (entryStart logs w.logs.length + log.sendLen) ∧
      ∀ i < log.sendLen, InPlace logs ring₀ ring.buff (entryStart logs w.logs.length + i)
  | .publishing => 0 < w.logs.length ∧ Behind logs ring₀ w.remote.wrPointer w.logs.length
  | .enqueueing => 0 < w.logs.length ∧ ring.wrPointer = w.remote.wrPointer ∧
      Behind logs ring₀ w.remote.wrPointer w.logs.length

def NicInv (count : ℕ) (nic : Nic) (buff : ℕ → UInt8) : Prop :=
  match nic with
  | .idle => True
  | .taken id => id < count
  | .writing id src passed len pos => id < count ∧ ∃ log, logs[id]? = some log ∧
      src = .own log.valueBytes ∧ log.valueBytes.take passed.length = passed ∧
      passed.length + len = log.valueLen ∧
      StandsFor ring₀ pos (entryStart logs id + log.sendLen + passed.length) ∧
      ∀ i < passed.length, InPlace logs ring₀ buff (entryStart logs id + log.sendLen + i)

/-- The logs written whose value still is to be sent: those handed over and the last one
before that. -/
def unsent (sd : Sender) : List ℕ :=
  sd.sending ++ sd.nic.current ++
    match sd.writer.pc with
    | .publishing | .enqueueing => [sd.writer.logs.length - 1]
    | _ => []

theorem complete_unsent {logs : List HeadLog} {s : State} (h : s.complete logs = true) :
    unsent s.sender = [] := by
  rw [unsent, complete_sending h, complete_nic h, complete_pc h]
  rfl

structure Inv (s : State) : Prop where
  remote_size : s.sender.writer.remote.size = ring₀.size
  ring_eq : s.ring = { ring₀ with wrPointer := s.ring.wrPointer, buff := s.ring.buff }
  logs_eq : ∀ (j : ℕ) (l : HeadLog × ℕ), s.sender.writer.logs[j]? = some l →
    logs[j]? = some l.1 ∧ l.2 % ring₀.size = (ring₀.wrPointer + entryStart logs j) % ring₀.size
  pc : PcInv logs ring₀ s.sender.writer s.ring
  nic : NicInv logs ring₀ s.sender.writer.logs.length s.sender.nic s.ring.buff
  sending_lt : ∀ id ∈ s.sender.sending, id < s.sender.writer.logs.length
  mate : ∀ (j : ℕ) (log : HeadLog), j < s.sender.writer.logs.length → logs[j]? = some log →
    ∀ i < log.sendLen, InPlace logs ring₀ s.ring.buff (entryStart logs j + i)
  value : ∀ (j : ℕ) (log : HeadLog), j ∈ s.sender.finishedIds → logs[j]? = some log →
    ∀ i < log.valueLen, InPlace logs ring₀ s.ring.buff (entryStart logs j + log.sendLen + i)
  sent : ∀ j < s.sender.writer.logs.length, j ∈ s.sender.finishedIds ∨ j ∈ unsent s.sender
  other : ∀ c ∉ cells ring₀.size ring₀.wrPointer (entries logs).length,
    s.ring.buff c = ring₀.buff c

end Invariant

variable {logs : List HeadLog} {ring₀ : LocalRingbuff} {r : Receiver} {s t : State}
  {buff buff' : ℕ → UInt8}

theorem StandsFor.add {pos i len : ℕ} (h : StandsFor ring₀ pos i)
    (hfit : pos + len ≤ ring₀.size) : StandsFor ring₀ (pos + len) (i + len) :=
  ⟨hfit, by rw [← Nat.mod_add_mod, h.2, Nat.mod_add_mod, Nat.add_assoc]⟩

/-- Running to the ring end, a pointer goes on at 0. -/
theorem StandsFor.wrap {pos i : ℕ} (h : StandsFor ring₀ pos i) :
    StandsFor ring₀ 0 (i + (ring₀.size - pos)) := by
  refine ⟨Nat.zero_le _, ?_⟩
  rw [← Nat.add_assoc, ← Nat.mod_add_mod, ← h.2, Nat.mod_add_mod, Nat.add_sub_cancel' h.1,
    Nat.mod_self, Nat.zero_mod]

/-- Two write pointers behind the same logs are equal. -/
theorem Behind.unique {pos pos' k : ℕ} (h : Behind logs ring₀ pos k)
    (h' : Behind logs ring₀ pos' k) : pos = pos' := by
  obtain ⟨⟨hle, hmod⟩, hzero⟩ := h
  obtain ⟨⟨hle', hmod'⟩, hzero'⟩ := h'
  split_ifs at hzero hzero'
  · rw [hzero, hzero']
  · exact eq_of_mod_eq 1 hzero (by omega) hzero' (by omega) (hmod.trans hmod'.symm)

/-- What a write that places a piece of the text does to the ring. -/
structure Kept (logs : List HeadLog) (ring₀ : LocalRingbuff) (buff buff' : ℕ → UInt8) : Prop where
  in_place : ∀ i, InPlace logs ring₀ buff i → InPlace logs ring₀ buff' i
  other : ∀ c ∉ cells ring₀.size ring₀.wrPointer (entries logs).length, buff' c = buff c

theorem kept_of_piece (buff : ℕ → UInt8) (hsize : 0 < ring₀.size)
    (hroom : (entries logs).length ≤ ring₀.size) {pos k : ℕ} {piece : List UInt8}
    (hpos : StandsFor ring₀ pos k)
    (hfit : pos + piece.length ≤ ring₀.size) (hpiece : piece <+: (entries logs).drop k) :
    Kept logs ring₀ buff (writeBytes buff pos piece) ∧
      ∀ j < piece.length, InPlace logs ring₀ (writeBytes buff pos piece) (k + j) := by
  obtain ⟨hkeep, hother, hnew⟩ := write_piece_pos buff hsize hroom hpiece hpos.2 hfit
  exact ⟨⟨hkeep, hother⟩, hnew⟩

/-- A piece behind a range in place makes the range longer. -/
theorem Kept.extend (h : Kept logs ring₀ buff buff') {k a b : ℕ}
    (hold : ∀ i < a, InPlace logs ring₀ buff (k + i))
    (hnew : ∀ j < b, InPlace logs ring₀ buff' (k + a + j)) :
    ∀ i < a + b, InPlace logs ring₀ buff' (k + i) := by
  intro i hi
  rcases Nat.lt_or_ge i a with hlt | hge
  · exact h.in_place _ (hold i hlt)
  · obtain ⟨j, rfl⟩ := Nat.exists_eq_add_of_le hge
    rw [← Nat.add_assoc]
    exact hnew j (by omega)

theorem NicInv.kept {count count' : ℕ} {nic : Nic} (h : NicInv logs ring₀ count nic buff)
    (hcount : count ≤ count')
    (hkept : ∀ i, InPlace logs ring₀ buff i → InPlace logs ring₀ buff' i) :
    NicInv logs ring₀ count' nic buff' := by
  unfold NicInv at h ⊢
  cases nic with
  | idle => trivial
  | taken id =>
    have hid : id < count := h
    exact hid.trans_le hcount
  | writing id src passed len pos =>
    obtain ⟨hid, log, hlog, hsrc, htake, hlen, hpos, hplaced⟩ := h
    exact ⟨hid.trans_le hcount, log, hlog, hsrc, htake, hlen, hpos,
      fun i hi => hkept _ (hplaced i hi)⟩

theorem PcInv.kept {w : Writer} {ring : LocalRingbuff} (h : PcInv logs ring₀ w ring)
    (hkept : ∀ i, InPlace logs ring₀ ring.buff i → InPlace logs ring₀ buff' i) :
    PcInv logs ring₀ w { ring with buff := buff' } := by
  unfold PcInv at h ⊢
  cases hpc : w.pc with
  | mateWriting log logPos pos rest =>
    simp only [hpc] at h ⊢
    obtain ⟨hlog, hlogPos, written, hbytes, hpos, hplaced⟩ := h
    exact ⟨hlog, hlogPos, written, hbytes, hpos, fun i hi => hkept _ (hplaced i hi)⟩
  | mateWritten log logPos =>
    simp only [hpc] at h ⊢
    obtain ⟨hlog, hlogPos, hwr, hplaced⟩ := h
    exact ⟨hlog, hlogPos, hwr, fun i hi => hkept _ (hplaced i hi)⟩
  | _ =>
    simp only [hpc] at h ⊢
    exact h

namespace Inv

/-- The ring changes by placing a piece, or not at all. -/
theorem with_buff (h : Inv logs ring₀ s) (hkept : Kept logs ring₀ s.ring.buff buff') :
    Inv logs ring₀ { s with ring := { s.ring with buff := buff' } } where
  remote_size := h.remote_size
  ring_eq := by
    show ({ s.ring with buff := buff' } : LocalRingbuff) = _
    conv_lhs => rw [h.ring_eq]
  logs_eq := h.logs_eq
  pc := h.pc.kept hkept.in_place
  nic := h.nic.kept le_rfl hkept.in_place
  sending_lt := h.sending_lt
  mate := fun j log hj hlog i hi => hkept.in_place _ (h.mate j log hj hlog i hi)
  value := fun j log hj hlog i hi => hkept.in_place _ (h.value j log hj hlog i hi)
  sent := h.sent
  other := fun c hc => (hkept.other c hc).trans (h.other c hc)

/-- The writer moves between two logs: only its place and the cached pointer change. -/
theorem with_pc (h : Inv logs ring₀ s) (pc : WriterPc) (cache : ℕ)
    (hpc : PcInv logs ring₀ { s.sender.writer with
      remote := { s.sender.writer.remote with rdPointer := cache }, pc := pc } s.ring)
    (hunsent : ∀ j, j ∈ unsent s.sender →
      j ∈ unsent { s.sender with writer := { s.sender.writer with
        remote := { s.sender.writer.remote with rdPointer := cache }, pc := pc } }) :
    Inv logs ring₀ { s with sender := { s.sender with writer := { s.sender.writer with
      remote := { s.sender.writer.remote with rdPointer := cache }, pc := pc } } } :=
  { h with
    pc := hpc
    sent := fun j hj => (h.sent j hj).imp_right (hunsent j) }

theorem write (h : Inv logs ring₀ s) {log : HeadLog}
    (hlog : logs[s.sender.writer.logs.length]? = some log)
    (hstep : headStep s (.write log) = some t) : Inv logs ring₀ t := by
  have hinv := h.pc
  unfold headStep at hstep
  cases hpc : s.sender.writer.pc with
  | idle =>
    simp only [PcInv, hpc] at hinv
    simp only [writerStep, hpc, Option.map_some, Option.some.injEq] at hstep
    subst hstep
    exact h.with_pc (.started log) s.sender.writer.remote.rdPointer
      ⟨hlog, hinv.1, hinv.2⟩ fun j hj => by simpa [unsent, hpc] using hj
  | _ => simp [writerStep, hpc] at hstep

theorem checkRemoteSize_remote (rb : RemoteRingbuff) (rd : Option ℕ) (len : ℤ) :
    ∃ cache, (checkRemoteSize rb rd len).1 = { rb with rdPointer := cache } := by
  cases rd with
  | none => exact ⟨rb.rdPointer, rfl⟩
  | some rd => exact ⟨rd, rfl⟩

theorem check (h : Inv logs ring₀ s) {readOk : Bool}
    (hstep : headStep s (.check readOk) = some t) : Inv logs ring₀ t := by
  have hinv := h.pc
  unfold headStep at hstep
  cases hpc : s.sender.writer.pc with
  | started log =>
    simp only [PcInv, hpc] at hinv
    simp only [writerStep, hpc, Option.map_some, Option.some.injEq] at hstep
    subst hstep
    generalize (if readOk = true then some s.ring.rdPointer else none) = rd
    obtain ⟨cache, hcache⟩ := checkRemoteSize_remote s.sender.writer.remote rd (cInt log.totalLen)
    rw [hcache]
    by_cases hok : (checkRemoteSize s.sender.writer.remote rd (cInt log.totalLen)).2 = true
    · rw [if_pos hok]
      exact h.with_pc (.checked log) _ hinv fun j hj => by simpa [unsent, hpc] using hj
    · rw [if_neg hok]
      exact h.with_pc .idle _ hinv.2 fun j hj => by simpa [unsent, hpc] using hj
  | _ => simp [writerStep, hpc] at hstep

theorem recheck (h : Inv logs ring₀ s) {readOk : Bool}
    (hstep : headStep s (.recheck readOk) = some t) : Inv logs ring₀ t := by
  have hinv := h.pc
  unfold headStep at hstep
  cases hpc : s.sender.writer.pc with
  | checked log =>
    simp only [PcInv, hpc] at hinv
    obtain ⟨hlog, hring, hbehind⟩ := hinv
    simp only [writerStep, hpc] at hstep
    by_cases hfits : log.Fits
    · rw [if_pos hfits, Option.map_some, Option.some.injEq] at hstep
      subst hstep
      generalize (if readOk = true then some s.ring.rdPointer else none) = rd
      obtain ⟨cache, hcache⟩ := checkRemoteSize_remote s.sender.writer.remote rd log.totalLen
      rw [hcache]
      by_cases hok : (checkRemoteSize s.sender.writer.remote rd log.totalLen).2 = true
      · rw [if_pos hok]
        exact h.with_pc _ _
          ⟨hlog, hbehind.1, [], rfl, hbehind.1, fun i hi => absurd hi (Nat.not_lt_zero i)⟩
          fun j hj => by simpa [unsent, hpc] using hj
      · rw [if_neg hok]
        exact h.with_pc .idle _ ⟨hring, hbehind⟩
          fun j hj => by simpa [unsent, hpc] using hj
    · rw [if_neg hfits] at hstep
      cases hstep
  | _ => simp [writerStep, hpc] at hstep

/-- One `dhmp_write` of metadata and key. -/
theorem writeMate (hsize : 0 < ring₀.size) (hroom : (entries logs).length ≤ ring₀.size)
    (h : Inv logs ring₀ s) (hstep : headStep s .writeMate = some t) : Inv logs ring₀ t := by
  have hinv := h.pc
  unfold headStep at hstep
  cases hpc : s.sender.writer.pc with
  | mateWriting log logPos pos rest =>
    simp only [PcInv, hpc] at hinv
    obtain ⟨hlog, hlogPos, written, hbytes, hpos, hplaced⟩ := hinv
    have hsplit : entry log = written ++ (rest ++ log.valueBytes) := by
      rw [entry, hbytes, List.append_assoc]
    have hlen : written.length + rest.length = log.sendLen := by
      rw [← log.length_mateBytes, hbytes, List.length_append]
    simp only [writerStep, hpc, h.remote_size] at hstep
    by_cases hwrap : ring₀.size < pos + rest.length
    · rw [if_pos hwrap, Option.map_some, Option.some.injEq] at hstep
      subst hstep
      have htake : (rest.take (ring₀.size - pos)).length = ring₀.size - pos := by
        rw [List.length_take]
        omega
      have hle := hpos.1
      obtain ⟨hkept, hnew⟩ := kept_of_piece s.ring.buff hsize hroom hpos (by omega)
        (piece_of_entry hlog hsplit
          ((List.take_prefix (ring₀.size - pos) rest).trans (List.prefix_append _ _)))
      refine { h.with_buff hkept with
        pc := ⟨hlog, hlogPos, written ++ rest.take (ring₀.size - pos), ?_, ?_, ?_⟩
        sent := ?_ }
      · rw [hbytes, List.append_assoc, List.take_append_drop]
      · rw [List.length_append, htake, ← Nat.add_assoc]
        exact hpos.wrap
      · rw [List.length_append]
        exact hkept.extend hplaced hnew
      · intro j hj
        exact (h.sent j hj).imp_right fun hmem => by simpa [unsent, hpc] using hmem
    · rw [if_neg hwrap, Option.map_some, Option.some.injEq] at hstep
      subst hstep
      obtain ⟨hkept, hnew⟩ := kept_of_piece s.ring.buff hsize hroom hpos (by omega)
        (piece_of_entry hlog hsplit (List.prefix_append rest _))
      refine { h.with_buff hkept with
        remote_size := rfl
        pc := ⟨hlog, hlogPos, ?_, ?_⟩
        sent := ?_ }
      · rw [← hlen, ← Nat.add_assoc]
        exact hpos.add (by omega)
      · rw [← hlen]
        exact hkept.extend hplaced hnew
      · intro j hj
        exact (h.sent j hj).imp_right fun hmem => by simpa [unsent, hpc] using hmem
  | _ => simp [writerStep, hpc] at hstep

/-- The space of the value is reserved: the log counts as written. -/
theorem advance (hroom : (entries logs).length ≤ ring₀.size) (h : Inv logs ring₀ s)
    (hstep : headStep s .advance = some t) : Inv logs ring₀ t := by
  have hinv := h.pc
  unfold headStep at hstep
  cases hpc : s.sender.writer.pc with
  | mateWritten log logPos =>
    simp only [PcInv, hpc] at hinv
    obtain ⟨hlog, hlogPos, hwr, hplaced⟩ := hinv
    simp only [writerStep, hpc, h.remote_size, Option.map_some, Option.some.injEq] at hstep
    subst hstep
    have htotal : log.totalLen = log.sendLen + log.valueLen := rfl
    have hlen := totalLen_le hlog
    have hpos := log.valueLen_ge
    obtain ⟨hle, hmod⟩ := pointer_advance hwr.1 (show log.valueLen ≤ ring₀.size by omega)
    refine { h with
      remote_size := rfl
      logs_eq := ?_
      pc := ⟨by simp, ⟨⟨hle, ?_⟩, ?_⟩⟩
      nic := h.nic.kept (by simp) fun i hi => hi
      sending_lt := ?_
      mate := ?_
      sent := ?_ }
    · intro j l hl
      rcases getElem?_concat_cases hl with hold | ⟨rfl, rfl⟩
      · exact h.logs_eq j l hold
      · exact ⟨hlog, hlogPos.2⟩
    · rw [hmod, ← Nat.mod_add_mod, hwr.2, Nat.mod_add_mod, List.length_append,
        List.length_singleton, entryStart_succ hlog, htotal]
      congr 1
      omega
    · rw [if_neg (by simp)]
      dsimp only
      split_ifs <;> omega
    · intro id hid
      have := h.sending_lt id hid
      rw [List.length_append, List.length_singleton]
      omega
    · intro j log' hj hlog' i hi
      rw [List.length_append, List.length_singleton] at hj
      rcases Nat.lt_or_ge j s.sender.writer.logs.length with hlt | hge
      · exact h.mate j log' hlt hlog' i hi
      · obtain rfl : j = s.sender.writer.logs.length := by omega
        rw [hlog, Option.some.injEq] at hlog'
        exact hplaced i (hlog' ▸ hi)
    · intro j hj
      rw [List.length_append, List.length_singleton] at hj
      rcases Nat.lt_or_ge j s.sender.writer.logs.length with hlt | hge
      · exact (h.sent j hlt).imp_right fun hmem => by
          simp only [unsent, hpc, List.append_nil] at hmem
          exact List.mem_append_left _ hmem
      · obtain rfl : j = s.sender.writer.logs.length := by omega
        exact .inr (by simp [unsent])
  | _ => simp [writerStep, hpc] at hstep

theorem publish (h : Inv logs ring₀ s) (hstep : headStep s .publish = some t) :
    Inv logs ring₀ t := by
  have hinv := h.pc
  unfold headStep at hstep
  cases hpc : s.sender.writer.pc with
  | publishing =>
    simp only [PcInv, hpc] at hinv
    simp only [writerStep, hpc, Option.map_some, Option.some.injEq] at hstep
    subst hstep
    exact { h with
      ring_eq := by
        conv_lhs => rw [h.ring_eq]
      pc := ⟨hinv.1, rfl, hinv.2⟩
      sent := fun j hj => (h.sent j hj).imp_right fun hmem => by simpa [unsent, hpc] using hmem }
  | _ => simp [writerStep, hpc] at hstep

theorem handOver (h : Inv logs ring₀ s) (hstep : step logs r s .handOver = some t) :
    Inv logs ring₀ t := by
  have hinv := h.pc
  cases hpc : s.sender.writer.pc with
  | enqueueing =>
    simp only [PcInv, hpc] at hinv
    simp only [step, hpc, Option.some.injEq] at hstep
    subst hstep
    exact { h with
      pc := hinv.2
      sending_lt := fun id hid => by
        rcases List.mem_append.mp hid with hold | hnew
        · exact h.sending_lt id hold
        · have := hinv.1
          rw [List.mem_singleton.mp hnew]
          dsimp only
          omega
      sent := fun j hj => (h.sent j hj).imp_right fun hmem => by
        simp only [unsent, hpc, List.mem_append, List.append_nil] at hmem ⊢
        rcases hmem with (hmem | hmem) | hmem
        · exact .inl (.inl hmem)
        · exact .inr hmem
        · exact .inl (.inr hmem) }
  | _ => simp [step, hpc] at hstep

theorem order (h : Inv logs ring₀ s) {id : ℕ} (hstep : step logs r s (.order id) = some t) :
    Inv logs ring₀ t := by
  unfold step at hstep
  by_cases hid : id ∈ s.sender.sending
  · simp only [if_pos hid, Option.some.injEq] at hstep
    subst hstep
    have hperm : ∀ j, j ∈ s.sender.sending ↔ j ∈ id :: s.sender.sending.erase id :=
      fun j => (List.perm_cons_erase hid).mem_iff
    exact { h with
      sending_lt := fun j hj => h.sending_lt j ((hperm j).mpr hj)
      sent := fun j hj => (h.sent j hj).imp_right fun hmem => by
        unfold unsent at hmem ⊢
        simp only [List.mem_append] at hmem ⊢
        exact hmem.imp_left (Or.imp_left (hperm j).mp) }
  · simp [if_neg hid] at hstep

/-- One `dhmp_write` of a value: up to the ring end, or the rest. -/
theorem nicWrite (hsize : 0 < ring₀.size) (hroom : (entries logs).length ≤ ring₀.size)
    (h : Inv logs ring₀ s) (hstep : step logs r s (.nic .write) = some t) :
    Inv logs ring₀ t := by
  have hinv := h.nic
  cases hn : s.sender.nic with
  | writing id src passed len pos =>
    simp only [NicInv, hn] at hinv
    obtain ⟨hid, log, hlog, rfl, htake, hlen, hpos, hplaced⟩ := hinv
    have hsplit : entry log = (log.mateBytes ++ passed) ++ log.valueBytes.drop passed.length := by
      have hvalue := List.take_append_drop passed.length log.valueBytes
      rw [htake] at hvalue
      rw [entry, List.append_assoc, hvalue]
    have hfront : entryStart logs id + (log.mateBytes ++ passed).length =
        entryStart logs id + log.sendLen + passed.length := by
      rw [List.length_append, log.length_mateBytes, Nat.add_assoc]
    have hbs : ∀ m ≤ len, ((log.valueBytes.drop passed.length).take m).length = m := by
      intro m hm
      rw [List.length_take, List.length_drop, log.length_valueBytes]
      omega
    -- the bytes of this write go behind those passed so far
    have hpiece : ∀ m, ((log.valueBytes.drop passed.length).take m) <+:
        (entries logs).drop (entryStart logs id + log.sendLen + passed.length) :=
      fun m => hfront ▸ piece_of_entry hlog hsplit (List.take_prefix m _)
    have hle := hpos.1
    simp only [step, nicStep, hn, h.remote_size, sourceBytes] at hstep
    by_cases hwrap : ring₀.size < pos + len
    · rw [if_pos hwrap] at hstep
      simp only [Option.some.injEq] at hstep
      subst hstep
      have hlen' := hbs (ring₀.size - pos) (by omega)
      obtain ⟨hkept, hnew⟩ := kept_of_piece s.ring.buff hsize hroom hpos (by omega)
        (hpiece (ring₀.size - pos))
      refine { h.with_buff hkept with
        nic := ⟨hid, log, hlog, rfl, ?_, ?_, ?_, ?_⟩
        sent := fun j hj => (h.sent j hj).imp_right fun hmem => by
          simpa [unsent, hn, Nic.current] using hmem }
      · rw [List.length_append, hlen', List.take_add, htake]
      · rw [List.length_append, hlen']
        omega
      · rw [List.length_append, hlen', ← Nat.add_assoc]
        exact hpos.wrap
      · rw [List.length_append]
        exact hkept.extend hplaced hnew
    · rw [if_neg hwrap] at hstep
      simp only [Option.some.injEq] at hstep
      subst hstep
      have hlen' := hbs len le_rfl
      obtain ⟨hkept, hnew⟩ := kept_of_piece s.ring.buff hsize hroom hpos (by omega) (hpiece len)
       
      refine { h.with_buff hkept with
        nic := trivial
        value := ?_
        sent := ?_ }
      · intro j log' hj hlog' i hi
        simp only [Sender.finishedIds, List.map_append, List.map_cons, List.map_nil,
          List.mem_append, List.mem_singleton] at hj
        rcases hj with hold | rfl
        · exact hkept.in_place _ (h.value j log' hold hlog' i hi)
        · rw [hlog, Option.some.injEq] at hlog'
          subst hlog'
          rw [← hlen, ← hlen'] at hi
          exact hkept.extend hplaced hnew i hi
      · intro j hj
        have hids : ∀ x, x ∈ s.sender.finishedIds ∨ x = id → x ∈ Sender.finishedIds
            { s.sender with nic := .idle, finished := s.sender.finished ++
              [(id, passed ++ (log.valueBytes.drop passed.length).take len)] } := by
          intro x hx
          simp only [Sender.finishedIds, List.map_append, List.map_cons, List.map_nil,
            List.mem_append, List.mem_singleton]
          exact hx
        rcases h.sent j hj with hold | hmem
        · exact .inl (hids j (.inl hold))
        · simp only [unsent, hn, Nic.current, List.append_nil, List.mem_append,
            List.mem_singleton] at hmem ⊢
          rcases hmem with (hmem | hmem) | hmem
          · exact .inr (.inl hmem)
          · exact .inl (hids j (.inr hmem))
          · exact .inr (.inr hmem)
  | _ => simp [step, nicStep, hn] at hstep

theorem nicAction (hsize : IsRingSize ring₀.size) (hroom : (entries logs).length ≤ ring₀.size)
    (h : Inv logs ring₀ s) {a : NicAction} (hstep : step logs r s (.nic a) = some t) :
    Inv logs ring₀ t := by
  cases a with
  | take =>
    cases hn : s.sender.nic with
    | idle =>
      cases hq : s.sender.sending with
      | nil => simp [step, nicStep, hn, hq] at hstep
      | cons id rest =>
        simp only [step, nicStep, hn, hq, Option.some.injEq] at hstep
        subst hstep
        have hlt := h.sending_lt
        rw [hq] at hlt
        exact { h with
          nic := hlt id List.mem_cons_self
          sending_lt := fun j hj => hlt j (List.mem_cons_of_mem _ hj)
          sent := fun j hj => (h.sent j hj).imp_right fun hmem => by
            simpa [unsent, hq, hn, Nic.current, or_left_comm] using hmem }
    | _ => simp [step, nicStep, hn] at hstep
  | start =>
    have hinv := h.nic
    cases hn : s.sender.nic with
    | taken id =>
      simp only [NicInv, hn] at hinv
      obtain ⟨l, hl⟩ : ∃ l, s.sender.writer.logs[id]? = some l :=
        ⟨_, List.getElem?_eq_getElem hinv⟩
      obtain ⟨hlog, hlogPos⟩ := h.logs_eq id l hl
      have hfits := fits_of_le hsize hroom hlog
      simp only [step, nicStep, hn, nicLog, hl, Option.map_some, Option.some.injEq] at hstep
      subst hstep
      refine { h with
        nic := ⟨hinv, l.1, hlog, rfl, rfl, ?_, ⟨?_, ?_⟩,
          fun i hi => absurd hi (Nat.not_lt_zero i)⟩
        sent := fun j hj => (h.sent j hj).imp_right fun hmem => by
          simpa [unsent, hn, Nic.current] using hmem }
      · rw [HeadLog.mateData_of_fits hfits]
        simp
      · rw [h.remote_size]
        exact (mask_lt hsize _).le
      · rw [h.remote_size, valueOffset_eq hfits, ← Nat.cast_add, mask_natCast hsize, Nat.mod_mod,
          ← Nat.mod_add_mod, hlogPos, Nat.mod_add_mod, List.length_nil, Nat.add_zero,
          Nat.add_assoc]
    | _ => simp [step, nicStep, hn] at hstep
  | write => exact h.nicWrite hsize.pos hroom hstep

theorem start (hwr : ring₀.wrPointer ≤ ring₀.size) (cache : ℕ) :
    Inv logs ring₀ (start ring₀ cache) where
  remote_size := rfl
  ring_eq := rfl
  logs_eq := fun j l hl => by simp [HeadThreads.start] at hl
  pc := ⟨rfl, ⟨hwr, rfl⟩, rfl⟩
  nic := trivial
  sending_lt := fun id hid => by simp [HeadThreads.start] at hid
  mate := fun j log hj => absurd hj (Nat.not_lt_zero j)
  value := fun j log hj => by simp [HeadThreads.start, Sender.finishedIds] at hj
  sent := fun j hj => absurd hj (Nat.not_lt_zero j)
  other := fun _ _ => rfl

/-- One step of either thread. -/
theorem step (hsize : IsRingSize ring₀.size) (hroom : (entries logs).length ≤ ring₀.size)
    (h : Inv logs ring₀ s) {a : Action} (hstep : step logs r s a = some t) :
    Inv logs ring₀ t := by
  cases a with
  | write =>
    cases hlog : logs[s.sender.writer.logs.length]? with
    | none => simp [HeadThreads.step, hlog] at hstep
    | some log =>
      simp only [HeadThreads.step, hlog] at hstep
      exact h.write hlog hstep
  | head a =>
    cases a with
    | write log => cases hstep
    | check readOk => exact h.check hstep
    | recheck readOk => exact h.recheck hstep
    | writeMate => exact h.writeMate hsize.pos hroom hstep
    | advance => exact h.advance hroom hstep
    | publish => exact h.publish hstep
  | handOver => exact h.handOver hstep
  | order id => exact h.order hstep
  | nic a => exact h.nicAction hsize hroom hstep

/-- When both threads have come to their end, the write pointer stands behind all logs. -/
theorem behind (h : Inv logs ring₀ s) (hdone : s.complete logs = true) :
    Behind logs ring₀ s.ring.wrPointer logs.length := by
  have hpc := h.pc
  rw [PcInv, complete_pc hdone] at hpc
  rw [hpc.1, ← complete_length hdone]
  exact hpc.2

/-- All values have been written then. -/
theorem finished (h : Inv logs ring₀ s) (hdone : s.complete logs = true) {j : ℕ}
    (hj : j < logs.length) : j ∈ s.sender.finishedIds := by
  have hsent := h.sent j (complete_length hdone ▸ hj)
  rw [complete_unsent hdone] at hsent
  exact hsent.resolve_right List.not_mem_nil

/-- The whole text is in place then. -/
theorem all_in_place (h : Inv logs ring₀ s) (hdone : s.complete logs = true) {k : ℕ}
    (hk : k ≤ logs.length) : ∀ i < entryStart logs k, InPlace logs ring₀ s.ring.buff i := by
  have hlen := complete_length hdone
  induction k with
  | zero =>
    intro i hi
    exact absurd hi (Nat.not_lt_zero i)
  | succ k ih =>
    intro i hi
    have hlog : logs[k]? = some logs[k] := List.getElem?_eq_getElem (by omega)
    have htotal : logs[k].totalLen = logs[k].sendLen + logs[k].valueLen := rfl
    rw [entryStart_succ hlog] at hi
    rcases Nat.lt_or_ge i (entryStart logs k) with hlt | hge
    · exact ih (by omega) i hlt
    obtain ⟨j, rfl⟩ := Nat.exists_eq_add_of_le hge
    rcases Nat.lt_or_ge j logs[k].sendLen with hmate | hvalue
    · exact h.mate k _ (by omega) hlog j hmate
    · obtain ⟨m, rfl⟩ := Nat.exists_eq_add_of_le hvalue
      rw [← Nat.add_assoc]
      exact h.value k _ (h.finished hdone hk) hlog m (by omega)

theorem written (h : Inv logs ring₀ s) (hdone : s.complete logs = true) :
    Written logs ring₀ s.ring where
  entry_bytes := fun i hi => by
    rw [← entryStart_length] at hi
    exact h.all_in_place hdone le_rfl i hi
  other_bytes := h.other
  wr_pointer := by
    rw [← entryStart_length, (h.behind hdone).1.2]

end Inv

/-! ## Every interleaving -/

theorem inv_of_reachable (hsize : IsRingSize ring₀.size) (hwr : ring₀.wrPointer ≤ ring₀.size)
    (hroom : (entries logs).length ≤ ring₀.size) (h : Reachable (headSystem logs r ring₀) s) :
    Inv logs ring₀ s :=
  h.invariant (fun _ ⟨cache, hstart⟩ => hstart ▸ Inv.start hwr cache)
    (fun _ _ _ hinv _ hstep => hinv.step hsize hroom hstep)

/-- The cells of the text hold the text, the others what they held, in either state. -/
theorem Written.buff_unique {before after after' : LocalRingbuff} (h : Written logs before after)
    (h' : Written logs before after') : after.buff = after'.buff := by
  funext c
  by_cases hc : c ∈ cells before.size before.wrPointer (entries logs).length
  · obtain ⟨i, hi, rfl⟩ := hc
    exact Option.some.inj ((h.entry_bytes i hi).symm.trans (h'.entry_bytes i hi))
  · rw [h.other_bytes c hc, h'.other_bytes c hc]

theorem Inv.ring_unique (h : Inv logs ring₀ s) (hdone : s.complete logs = true)
    (h' : Inv logs ring₀ t) (hdone' : t.complete logs = true) : s.ring = t.ring := by
  rw [h.ring_eq, h'.ring_eq, (h.behind hdone).unique (h'.behind hdone'),
    (h.written hdone).buff_unique (h'.written hdone')]

/-- A ring of 128 bytes whose write pointer stands near the end, with zeroed bytes. -/
def nearEnd : LocalRingbuff where
  wrPointer := 100
  rdPointer := 100
  size := 128
  rdKeyPointer := 100
  buff := fun _ => 0

def twoLogs : List HeadLog := [.plain ⟨[1], by decide⟩ ⟨[2, 3], by decide⟩,
  .plain ⟨[4, 5], by decide⟩ ⟨[6], by decide⟩]

/-- The writer is past its second log before the value of the first one is sent. -/
def mixed : List Action :=
  [.write, .head (.check true), .head (.recheck true), .head .writeMate, .head .writeMate,
    .head .advance, .head .publish, .handOver, .write, .nic .take, .head (.check true),
    .head (.recheck true), .nic .start, .head .writeMate, .head .advance, .nic .write,
    .head .publish, .handOver, .nic .take, .nic .start, .nic .write]

end RdmaMiddleware.HeadThreads
