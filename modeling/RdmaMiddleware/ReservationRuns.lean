import RdmaMiddleware.RingReservation
import Mathlib.Order.Interval.Set.Basic

/-!
# Runs of the reservation protocol

The upstream writer against `read_log_key` and `free_log` downstream, value bytes
left aside. The dirty table and the queues have no influence on the pointers and are
not part of this system; `live` lists the entries that are scanned and not freed.
-/
namespace RdmaMiddleware.RingReservation
open TransitionSystem CInt CircularMemory LogBuffer

/-- `scanning` holds `limits`, `read_num` and `pos` of a running `read_log_key`;
`scanned` counts the logs read by the calls that have returned. -/
structure State where
  writer : Writer
  ring : LocalRingbuff
  live : List LogEntry
  freed : ℕ
  scanned : ℕ
  scanning : Option (ℕ × ℕ × ℕ)

inductive Action
  | writer (a : WriterAction)
  /-- `head_node_write_log` returns after `rb_write_mate`. -/
  | enqueue
  | readLogKey (limits : ℕ)
  /-- One pass of the loop in `read_log_key`, or its return. -/
  | scan
  | freeLog

def step (s : State) : Action → Option State
  | .writer a =>
    match writerStep s.writer s.ring a with
    | some (w, b) => some { s with writer := w, ring := b }
    | none => none
  | .enqueue =>
    match s.writer.pc with
    | .enqueueing => some { s with writer := { s.writer with pc := .idle } }
    | _ => none
  | .readLogKey limits =>
    match s.scanning with
    | none => some { s with scanning := some (limits, 0, s.ring.rdKeyPointer) }
    | some _ => none
  | .scan =>
    match s.scanning with
    | some (limits, readNum, pos) =>
      if limits ≤ readNum ∨ s.ring.countSize pos < sizeofLogMateData then
        some { s with
          ring := { s.ring with rdKeyPointer := pos }
          scanned := s.freed + s.live.length
          scanning := none }
      else
        let e := readLogEntry s.ring pos (s.freed + s.live.length)
        some { s with
          live := s.live ++ [e]
          scanning := some (limits, readNum + 1, ringPos s.ring pos e.mateData.nextOffset) }
    | none => none
  | .freeLog =>
    match s.scanning, s.live with
    | none, e :: rest =>
      some { s with ring := freeRing s.ring e, live := rest, freed := s.freed + 1 }
    | _, _ => none

/-- What each step needs and does, one branch of the code after the other. -/
inductive Step (s : State) : Action → State → Prop
  | writer {a : WriterAction} {w : Writer} {b : LocalRingbuff}
      (hw : writerStep s.writer s.ring a = some (w, b)) :
      Step s (.writer a) { s with writer := w, ring := b }
  | enqueue (hpc : s.writer.pc = .enqueueing) :
      Step s .enqueue { s with writer := { s.writer with pc := .idle } }
  | readLogKey {limits : ℕ} (hs : s.scanning = none) :
      Step s (.readLogKey limits) { s with scanning := some (limits, 0, s.ring.rdKeyPointer) }
  | stop {limits readNum pos : ℕ} (hs : s.scanning = some (limits, readNum, pos))
      (hstop : limits ≤ readNum ∨ s.ring.countSize pos < sizeofLogMateData) :
      Step s .scan { s with
        ring := { s.ring with rdKeyPointer := pos }
        scanned := s.freed + s.live.length
        scanning := none }
  | scan {limits readNum pos : ℕ} {e : LogEntry} (hs : s.scanning = some (limits, readNum, pos))
      (hlimit : readNum < limits) (hcount : sizeofLogMateData ≤ s.ring.countSize pos)
      (he : e = readLogEntry s.ring pos (s.freed + s.live.length)) :
      Step s .scan { s with
        live := s.live ++ [e]
        scanning := some (limits, readNum + 1, ringPos s.ring pos e.mateData.nextOffset) }
  | freeLog {e : LogEntry} {rest : List LogEntry} (hs : s.scanning = none)
      (hl : s.live = e :: rest) :
      Step s .freeLog { s with ring := freeRing s.ring e, live := rest, freed := s.freed + 1 }

theorem Step.of_step {s t : State} {a : Action} (ht : step s a = some t) : Step s a t := by
  cases a with
  | scan =>
    simp only [step] at ht
    split at ht
    · split_ifs at ht with hstop
      · cases ht
        exact .stop ‹_› hstop
      · cases ht
        push Not at hstop
        exact .scan ‹_› hstop.1 hstop.2 rfl
    · cases ht
  | writer a | enqueue | readLogKey limits | freeLog =>
    simp only [step] at ht
    split at ht
    · cases ht
      constructor <;> assumption
    · cases ht

/-- Both ends after the handshake; the ring may hold anything. -/
def start (size : ℕ) (buff : ℕ → UInt8) : State where
  writer :=
    { remote := { wrPointer := 0, rdPointer := 0, size := size }, pc := .idle, logs := [],
      published := 0 }
  ring := { wrPointer := 0, rdPointer := 0, size := size, rdKeyPointer := 0, buff := buff }
  live := []
  freed := 0
  scanned := 0
  scanning := none

def reservationSystem (size : ℕ) : System State Action where
  init := fun s => ∃ buff, s = start size buff
  step := step

/-- Logs whose total length fits an `int`. -/
def WritesFit (_ : State) (a : Action) : Prop := ∀ log, a = .writer (.write log) → log.Fits

/-- The three true counts and the published one, in bytes. -/
def State.freedBytes (s : State) : ℕ := offset s.writer.logs s.freed
def State.scannedBytes (s : State) : ℕ := offset s.writer.logs s.scanned
def State.publishedBytes (s : State) : ℕ := offset s.writer.logs s.writer.published

/-- The cells of the metadata write that `rb_write_mate` issues next. -/
def mateWriteCells (w : Writer) : Set ℕ :=
  match w.pc with
  | .mateWriting _ _ pos rest => Set.Ico pos (pos + min rest.length (w.remote.size - pos))
  | _ => ∅

/-- Reservation is safe: the counts are ordered and within the ring, the pointers stand
for them, and the logs that are not freed have their bytes for themselves. -/
structure Safe (N : ℕ) (s : State) : Prop where
  freed_le : s.freedBytes ≤ s.scannedBytes
  scanned_le : s.scannedBytes ≤ s.publishedBytes
  published_le : s.publishedBytes ≤ reservedBytes s.writer
  reserved_le : reservedBytes s.writer ≤ claimedBytes s.writer
  room : claimedBytes s.writer - s.freedBytes ≤ N - 1
  wr_pointer : s.writer.remote.wrPointer % N = reservedBytes s.writer % N
  wr_pointer_received : s.ring.wrPointer % N = s.publishedBytes % N
  rd_key_pointer : s.ring.rdKeyPointer % N = s.scannedBytes % N
  rd_pointer : s.ring.rdPointer % N = s.freedBytes % N
  disjoint : ∀ (i j : ℕ) (l m : HeadLog × ℕ), s.freed ≤ i → i < j →
    (claimedLogs s.writer)[i]? = some l → (claimedLogs s.writer)[j]? = some m →
    Disjoint (cells N l.2 l.1.totalLen) (cells N m.2 m.1.totalLen)
  write_safe : ∀ (j : ℕ) (l : HeadLog × ℕ), s.freed ≤ j → s.writer.logs[j]? = some l →
    Disjoint (mateWriteCells s.writer) (cells N l.2 l.1.totalLen)

/-! ## The invariant of runs -/

/-- Where `read_log_key` goes on, or will start. -/
def State.scanPos (s : State) : ℕ :=
  match s.scanning with
  | some (_, _, pos) => pos
  | none => s.ring.rdKeyPointer

theorem scanPos_of_none {s : State} (hs : s.scanning = none) :
    s.scanPos = s.ring.rdKeyPointer := by
  unfold State.scanPos
  rw [hs]

theorem scanPos_of_some {s : State} {limits readNum pos : ℕ}
    (hs : s.scanning = some (limits, readNum, pos)) : s.scanPos = pos := by
  unfold State.scanPos
  rw [hs]

structure Inv (N : ℕ) (s : State) : Prop where
  ring_inv : RingInv N s.writer s.ring s.scanPos s.freed s.live
  rd_key : s.ring.rdKeyPointer = offset s.writer.logs s.scanned % N
  freed_le : s.freed ≤ s.scanned
  scanned_le : s.scanned ≤ s.freed + s.live.length
  all_scanned : s.scanning = none → s.scanned = s.freed + s.live.length

variable {N : ℕ} {s t : State}

theorem inv_start (hN : IsRingSize N) (buff : ℕ → UInt8) : Inv N (start N buff) where
  ring_inv := {
    ring_size := hN
    local_size := rfl
    remote_size := rfl
    fits := by intro j l hl; simp [start] at hl
    log_pos := by intro j l hl; simp [start] at hl
    mate_holds := by intro j l _ hl; simp [start] at hl
    pc_inv := rfl
    published_le := le_rfl
    scanned_le := le_rfl
    window := by simpa [start, claimedBytes, claimedLogs, WriterPc.current] using hN.pos
    remote_wr_le := Nat.zero_le _
    remote_wr := rfl
    local_wr_le := Nat.zero_le _
    local_wr := rfl
    local_rd := (Nat.zero_mod N).symm
    pos_eq := (Nat.zero_mod N).symm
    live_eq := by intro i e he; simp [start] at he }
  rd_key := (Nat.zero_mod N).symm
  freed_le := le_rfl
  scanned_le := le_rfl
  all_scanned := fun _ => rfl

theorem Inv.writer (h : Inv N s) {a : WriterAction} {w : Writer} {b : LocalRingbuff}
    (hw : writerStep s.writer s.ring a = some (w, b)) :
    Inv N { s with writer := w, ring := b } := by
  obtain ⟨⟨ls, hlogs⟩, hkey, _, _⟩ := writerStep_frame hw
  have hring := h.ring_inv
  have hle : s.scanned ≤ s.writer.logs.length := by
    have := hring.scanned_le
    have := hring.published_le
    have := h.scanned_le
    omega
  have hpos : State.scanPos { s with writer := w, ring := b } = s.scanPos := by
    unfold State.scanPos
    cases hs : s.scanning <;> simp [hkey]
  refine ⟨?_, ?_, h.freed_le, h.scanned_le, h.all_scanned⟩
  · rw [hpos]
    exact hring.writer hw
  · show b.rdKeyPointer = offset w.logs s.scanned % N
    rw [hkey, hlogs, offset_append hle]
    exact h.rd_key

theorem Inv.enqueue (h : Inv N s) (hpc : s.writer.pc = .enqueueing) :
    Inv N { s with writer := { s.writer with pc := .idle } } := by
  have hring := h.ring_inv.calm (by rw [hpc]; rfl) .idle rfl (by simp)
    s.writer.remote.rdPointer
  exact ⟨hring, h.rd_key, h.freed_le, h.scanned_le, h.all_scanned⟩

theorem Inv.readLogKey (h : Inv N s) (hs : s.scanning = none) (limits : ℕ) :
    Inv N { s with scanning := some (limits, 0, s.ring.rdKeyPointer) } := by
  have hring := h.ring_inv
  rw [scanPos_of_none hs] at hring
  exact ⟨hring, h.rd_key, h.freed_le, h.scanned_le, by simp⟩

theorem Inv.stop (h : Inv N s) {limits readNum pos : ℕ}
    (hs : s.scanning = some (limits, readNum, pos)) : Inv N { s with
      ring := { s.ring with rdKeyPointer := pos }
      scanned := s.freed + s.live.length
      scanning := none } := by
  have hring := h.ring_inv
  rw [scanPos_of_some hs] at hring
  exact ⟨hring.setRdKey pos, hring.pos_eq, Nat.le_add_right _ _, le_rfl, fun _ => rfl⟩

theorem Inv.scan (h : Inv N s) {limits readNum pos : ℕ} {e : LogEntry}
    (hs : s.scanning = some (limits, readNum, pos))
    (hcount : sizeofLogMateData ≤ s.ring.countSize pos)
    (he : e = readLogEntry s.ring pos (s.freed + s.live.length)) : Inv N { s with
      live := s.live ++ [e]
      scanning := some (limits, readNum + 1, ringPos s.ring pos e.mateData.nextOffset) } := by
  subst he
  have hring := h.ring_inv
  rw [scanPos_of_some hs] at hring
  refine ⟨hring.scan hcount _, h.rd_key, h.freed_le, ?_, by simp⟩
  have := h.scanned_le
  show s.scanned ≤ s.freed + (s.live ++ [_]).length
  simp
  omega

theorem Inv.freeLog (h : Inv N s) {e : LogEntry} {rest : List LogEntry} (hs : s.scanning = none)
    (hl : s.live = e :: rest) :
    Inv N { s with ring := freeRing s.ring e, live := rest, freed := s.freed + 1 } := by
  have hring := h.ring_inv
  have hall := h.all_scanned hs
  rw [scanPos_of_none hs, hl] at hring
  rw [hl, List.length_cons] at hall
  refine ⟨?_, h.rd_key, ?_, ?_, fun _ => ?_⟩
  · rw [scanPos_of_none (by exact hs)]
    exact hring.free
  · show s.freed + 1 ≤ s.scanned
    omega
  · show s.scanned ≤ s.freed + 1 + rest.length
    omega
  · show s.scanned = s.freed + 1 + rest.length
    omega

theorem Inv.step (h : Inv N s) {a : Action} (ht : step s a = some t) : Inv N t := by
  cases Step.of_step ht with
  | writer hw => exact h.writer hw
  | enqueue hpc => exact h.enqueue hpc
  | readLogKey hs => exact h.readLogKey hs _
  | stop hs _ => exact h.stop hs
  | scan hs _ hcount he => exact h.scan hs hcount he
  | freeLog hs hl => exact h.freeLog hs hl

theorem claimedLogs_offset {w : Writer} {j : ℕ} (h : j ≤ w.logs.length) :
    offset (claimedLogs w) j = offset w.logs j := offset_append h _

/-- Every log with space in the ring starts at its stream position. -/
theorem claimed_log_pos {w : Writer} {b : LocalRingbuff} {pos freed : ℕ} {live : List LogEntry}
    (h : RingInv N w b pos freed live) {j : ℕ} {l : HeadLog × ℕ}
    (hl : (claimedLogs w)[j]? = some l) : l.2 % N = offset (claimedLogs w) j % N := by
  rcases Nat.lt_or_ge j w.logs.length with hlt | hge
  · rw [claimedLogs_offset hlt.le]
    exact h.log_pos j l (by rwa [claimedLogs, List.getElem?_append_left hlt] at hl)
  · cases hc : w.pc.current with
    | none =>
      rw [claimedLogs, hc, List.getElem?_append_right hge] at hl
      simp at hl
    | some c =>
      have hj : j = w.logs.length := by
        have := (List.getElem?_eq_some_iff.mp hl).1
        simp [claimedLogs, hc] at this
        omega
      subst hj
      have hcl : c = l := by simpa [claimedLogs, hc] using hl
      subst hcl
      rw [claimedLogs_offset le_rfl]
      have hinv := h.pc_inv
      cases hpc : w.pc <;> simp only [hpc, WriterPc.current, Option.some.injEq,
        reduceCtorEq] at hc <;> subst hc <;> simp only [PcInv, hpc] at hinv
      · exact hinv.2.2.1
      · exact hinv.2.2.1

theorem Inv.safe (h : Inv N s) : Safe N s := by
  have hring := h.ring_inv
  have hscan := hring.scanned_le
  have hpub := hring.published_le
  have hle := h.scanned_le
  have hN := hring.size_pos
  have hwin := hring.window
  have hres : offset s.writer.logs s.writer.logs.length ≤ reservedBytes s.writer := by
    simp [reservedBytes]
  refine ⟨offset_mono _ h.freed_le, offset_mono _ (by omega),
    (offset_mono _ hpub).trans hres, ?_, ?_, hring.remote_wr, hring.local_wr, ?_, ?_, ?_, ?_⟩
  · cases hpc : s.writer.pc with
    | mateWritten log logPos =>
      rw [claimedBytes_of_some (l := (log, logPos)) (by rw [hpc]; rfl)]
      simp only [reservedBytes, hpc, HeadLog.totalLen]
      omega
    | mateWriting log logPos _ _ =>
      rw [claimedBytes_of_some (l := (log, logPos)) (by rw [hpc]; rfl)]
      simp only [reservedBytes, hpc]
      omega
    | _ =>
      rw [claimedBytes_of_none (by rw [hpc]; rfl)]
      simp [reservedBytes, hpc]
  · unfold State.freedBytes
    omega
  · rw [h.rd_key, Nat.mod_mod]
    rfl
  · rw [hring.local_rd, Nat.mod_mod]
    rfl
  · intro i j l m hi hij hl hm
    rw [cells_congr (claimed_log_pos hring hl), cells_congr (claimed_log_pos hring hm)]
    have hfreed : offset s.writer.logs s.freed ≤ offset (claimedLogs s.writer) i := by
      rw [← claimedLogs_offset (show s.freed ≤ s.writer.logs.length by omega)]
      exact offset_mono _ hi
    have hend : offset (claimedLogs s.writer) j + m.1.totalLen ≤ claimedBytes s.writer :=
      offset_add_le hm (List.getElem?_eq_some_iff.mp hm).1
    exact cells_disjoint (offset s.writer.logs s.freed) hfreed (offset_add_le hl hij) (by omega)
  · intro j l hj hl
    have hlt := (List.getElem?_eq_some_iff.mp hl).1
    cases hpc : s.writer.pc with
    | mateWriting log logPos p rest =>
      have hinv := hring.pc_inv
      simp only [PcInv, hpc] at hinv
      obtain ⟨_, _, _, written, hbytes, hp, hpmod, _⟩ := hinv
      rw [claimedBytes_of_some (l := (log, logPos)) (by rw [hpc]; rfl)] at hwin
      simp only at hwin
      have hlen : written.length + rest.length = log.sendLen := by
        rw [← log.length_mateBytes, hbytes, List.length_append]
      have htotal : log.sendLen ≤ log.totalLen := by simp [HeadLog.totalLen]
      simp only [mateWriteCells, hpc, hring.remote_size]
      rw [cells_congr (hring.log_pos j l hl)]
      have hdis : Disjoint (cells N (offset s.writer.logs j) l.1.totalLen)
          (cells N (offset s.writer.logs s.writer.logs.length) log.sendLen) :=
        cells_disjoint (offset s.writer.logs s.freed) (offset_mono _ hj) (offset_add_le hl hlt)
          (by omega)
      rw [Set.disjoint_left]
      intro x hx hx'
      rw [Set.mem_Ico] at hx
      refine Set.disjoint_left.mp hdis hx' ?_
      have hpN : p % N = p := Nat.mod_eq_of_lt (by omega)
      rw [hpN] at hpmod
      refine ⟨written.length + (x - p), by omega, ?_⟩
      rw [← Nat.add_assoc, ← Nat.mod_add_mod, ← hpmod, show p + (x - p) = x by omega,
        Nat.mod_eq_of_lt (by omega)]
    | _ => simp [mateWriteCells, hpc]

/-- In every run, whatever the cached read pointer says, reservation is safe. -/
theorem reservation_safe (hN : IsRingSize N) (h : Reach (reservationSystem N) WritesFit s) :
    Safe N s := by
  have hinv : Inv N s := by
    refine h.invariant (P := Inv N) ?_ ?_
    · rintro s ⟨buff, rfl⟩
      exact inv_start hN buff
    · intro s a t hs _ ht
      exact hs.step ht
  exact hinv.safe

/-- A ring of 64 bytes: a log of 37 bytes is read and freed, the metadata of the next one
is cut by the ring end. -/
def wrappingRun : List Action :=
  let log := HeadLog.plain letterK letterV
  [.writer (.write log), .writer (.check true), .writer (.recheck true), .writer .writeMate,
    .writer .advance, .writer .publish, .enqueue, .readLogKey 1024, .scan, .scan, .freeLog,
    .writer (.write log), .writer (.check true), .writer (.recheck true), .writer .writeMate]

def writesFit (_ : State) : Action → Bool
  | .writer (.write log) => decide log.Fits
  | _ => true

theorem reservation_safe_wrappingRun :
    ∃ s, run (reservationSystem 64) writesFit (start 64 fun _ => 0) wrappingRun = some s ∧
      Safe 64 s := by
  have hsome : (run (reservationSystem 64) writesFit (start 64 fun _ => 0)
      wrappingRun).isSome = true := by decide +kernel
  obtain ⟨s, hs⟩ := Option.isSome_iff_exists.mp hsome
  have hreach : Reach (reservationSystem 64) WritesFit s := by
    refine reach_of_run ?_ (.start ⟨fun _ => 0, rfl⟩) hs
    intro s a ha log hlog
    subst hlog
    simpa [writesFit] using ha
  exact ⟨s, hs, reservation_safe ⟨6, by omega, by norm_num⟩ hreach⟩

end RdmaMiddleware.RingReservation
