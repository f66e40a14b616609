import RdmaMiddleware.CInt
import RdmaMiddleware.CircularMemory
import RdmaMiddleware.MidHashmap

/-!
# Logs and the two ends of a ring

A log is a `logEntry` struct followed by the key string, then the value string and
one tag byte with value 1. The struct, the key and the reserved space are written
by `rb_write_mate`, the value and the tag later by `rb_write_data`. Both sides keep
positions in the ring as integers in `[0, size]`; `wr_pointer` may equal `size`.

The writer thread is a sequence of steps because the receiving side moves between
them: one step for each `dhmp_read`, `dhmp_write` and pointer update.
-/
namespace RdmaMiddleware.LogBuffer
open CInt CircularMemory MidHashmap

def TAG : ℕ := 1
def QUEUE_SIZE : ℕ := 2048
def sizeofLogMateData : ℕ := 8
def sizeofLogEntry : ℕ := 32

/-- A C string, without the terminator. -/
structure CString where
  bytes : Str
  nul_free : 0 ∉ bytes

/-- A key and a value for examples. -/
def letterK : CString := ⟨[107], by decide⟩
def letterV : CString := ⟨[118], by decide⟩

/-- The string at an address: the bytes up to the first NUL. -/
def cStringFrom (mem : ℕ → UInt8) : ℕ → ℕ → Str
  | 0, _ => []
  | fuel + 1, pos => if mem pos = 0 then [] else mem pos :: cStringFrom mem fuel (pos + 1)

/-- No object is larger than this. -/
def addressSpace : ℕ := 2 ^ 64

def cStringAt (mem : ℕ → UInt8) (pos : ℕ) : Str := cStringFrom mem addressSpace pos

structure LogMateData where
  keyLength : ℤ
  valueLength : ℤ
  deriving DecidableEq

namespace LogMateData

def encode (m : LogMateData) : List UInt8 := intBytes m.keyLength ++ intBytes m.valueLength

def decode (bs : List UInt8) : LogMateData := ⟨intOfBytes bs, intOfBytes (bs.drop 4)⟩

/-- `LOG_KEY_OFFSET`, `LOG_VALUE_OFFSET`, `LOG_VALUE_TAG_OFFSET`, `LOG_NEXT_OFFSET`. -/
def keyOffset (_ : LogMateData) : ℤ := sizeofLogEntry
def valueOffset (m : LogMateData) : ℤ := sizeofLogEntry + m.keyLength
def valueTagOffset (m : LogMateData) : ℤ := sizeofLogEntry + m.keyLength + m.valueLength - 1
def nextOffset (m : LogMateData) : ℤ := sizeofLogEntry + m.keyLength + m.valueLength

@[simp] theorem length_encode (m : LogMateData) : m.encode.length = sizeofLogMateData := by
  simp [encode, sizeofLogMateData]

theorem decode_encode {m : LogMateData} (hk : 0 ≤ m.keyLength) (hk' : m.keyLength < 2 ^ 31)
    (hv : 0 ≤ m.valueLength) (hv' : m.valueLength < 2 ^ 31) : decode m.encode = m := by
  have hkey : intOfBytes m.encode = m.keyLength := intOfBytes_intBytes (by omega) hk' _
  have hdrop : m.encode.drop 4 = intBytes m.valueLength ++ [] := by
    rw [encode, List.drop_append_of_le_length (by simp), List.drop_of_length_le (by simp)]
    simp
  have hvalue : intOfBytes (m.encode.drop 4) = m.valueLength := by
    rw [hdrop]
    exact intOfBytes_intBytes (by omega) hv' _
  rw [decode, hkey, hvalue]

end LogMateData

/-- What `head_node_write_log` builds. `rest` are the bytes of the struct behind
`mateData`: they travel with the log but nobody reads them. -/
structure HeadLog where
  key : CString
  value : CString
  rest : Vector UInt8 24

namespace HeadLog

def keyLen (log : HeadLog) : ℕ := log.key.bytes.length + 1
def valueLen (log : HeadLog) : ℕ := log.value.bytes.length + 1 + TAG
def sendLen (log : HeadLog) : ℕ := sizeofLogEntry + log.keyLen
def totalLen (log : HeadLog) : ℕ := log.sendLen + log.valueLen

def mateData (log : HeadLog) : LogMateData := ⟨cInt log.keyLen, cInt log.valueLen⟩

def keyBytes (log : HeadLog) : List UInt8 := log.key.bytes ++ [0]
def valueBytes (log : HeadLog) : List UInt8 := log.value.bytes ++ [0, 1]

/-- What `rb_write_mate` transfers. -/
def mateBytes (log : HeadLog) : List UInt8 :=
  log.mateData.encode ++ log.rest.toList ++ log.keyBytes

/-- A log whose struct is otherwise zero. -/
def plain (key value : CString) : HeadLog := ⟨key, value, Vector.replicate 24 0⟩

/-- The total length fits a C `int`. -/
def Fits (log : HeadLog) : Prop := log.totalLen < 2 ^ 31

instance (log : HeadLog) : Decidable log.Fits := inferInstanceAs (Decidable (_ < _))

@[simp] theorem length_keyBytes (log : HeadLog) : log.keyBytes.length = log.keyLen := by
  simp [keyBytes, keyLen]

@[simp] theorem length_valueBytes (log : HeadLog) : log.valueBytes.length = log.valueLen := by
  simp [valueBytes, valueLen, TAG]

@[simp] theorem length_mateBytes (log : HeadLog) : log.mateBytes.length = log.sendLen := by
  simp [mateBytes, sendLen, sizeofLogEntry, sizeofLogMateData]
  omega

theorem keyLen_pos (log : HeadLog) : 0 < log.keyLen := by simp [keyLen]

theorem valueLen_ge (log : HeadLog) : 2 ≤ log.valueLen := by simp [valueLen, TAG]

theorem mateData_of_fits {log : HeadLog} (h : log.Fits) :
    log.mateData = ⟨log.keyLen, log.valueLen⟩ := by
  have hlt : log.totalLen < 2 ^ 31 := h
  unfold totalLen sendLen at hlt
  rw [mateData, cInt_natCast (by omega), cInt_natCast (by omega)]

theorem decode_mateBytes {log : HeadLog} (h : log.Fits) :
    LogMateData.decode (log.mateBytes.take sizeofLogMateData) = log.mateData := by
  have hlt : log.totalLen < 2 ^ 31 := h
  unfold totalLen sendLen at hlt
  rw [mateBytes, List.append_assoc, List.take_append_of_le_length (by simp),
    List.take_of_length_le (by simp), mateData_of_fits h]
  exact LogMateData.decode_encode (Int.natCast_nonneg _) (by simp; omega)
    (Int.natCast_nonneg _) (by simp; omega)

end HeadLog

/-! ## Pointers -/

structure Ringbuff where
  wrPointer : ℕ
  rdPointer : ℕ
  size : ℕ

/-- The upstream side's cache of the pointers. -/
structure RemoteRingbuff extends Ringbuff

/-- The receiving side. `buff` is the memory at `buff_addr`, also beyond `size`. -/
structure LocalRingbuff extends Ringbuff where
  rdKeyPointer : ℕ
  buff : ℕ → UInt8

namespace Ringbuff

def dataSize (rb : Ringbuff) : ℕ := mask ((rb.wrPointer : ℤ) - rb.rdPointer) rb.size
def freeSize (rb : Ringbuff) : ℤ := (rb.size : ℤ) - 1 - rb.dataSize
def countSize (rb : Ringbuff) (pos : ℕ) : ℕ := mask ((rb.wrPointer : ℤ) - pos) rb.size

end Ringbuff

/-! ## The writing side -/

/-- Where the thread in `head_node_write_log` stands. -/
inductive WriterPc
  | idle
  /-- The log is built. -/
  | started (log : HeadLog)
  /-- Past the first `check_remote_size`. -/
  | checked (log : HeadLog)
  /-- Past the second one, in `rb_write_mate`: `rest` is still to be written at `pos`. -/
  | mateWriting (log : HeadLog) (logPos pos : ℕ) (rest : List UInt8)
  /-- `wr_pointer` stands behind the metadata. -/
  | mateWritten (log : HeadLog) (logPos : ℕ)
  /-- `wr_pointer` stands behind the reserved value space. -/
  | publishing
  /-- `rb_write_mate` has returned, the log is to be put on `sending_queue`. -/
  | enqueueing

namespace WriterPc

/-- The log whose space is claimed but not yet counted by the write pointer. -/
def current : WriterPc → Option (HeadLog × ℕ)
  | mateWriting log logPos _ _ => some (log, logPos)
  | mateWritten log logPos => some (log, logPos)
  | _ => none

/-- No claim is under way and none waits to be published. -/
def calm : WriterPc → Bool
  | idle | started _ | checked _ | enqueueing => true
  | _ => false

theorem current_of_calm {pc : WriterPc} (h : pc.calm = true) : pc.current = none := by
  cases pc <;> simp_all [calm, current]

end WriterPc

/-- `logs` are the logs for which `rb_write_mate` has moved the write pointer, with
their `log_pos`; the first `published` of them are covered by the receiver's pointer. -/
structure Writer where
  remote : RemoteRingbuff
  pc : WriterPc
  logs : List (HeadLog × ℕ)
  published : ℕ

inductive WriterAction
  | write (log : HeadLog)
  | check (readOk : Bool)
  | recheck (readOk : Bool)
  | writeMate
  | advance
  | publish

/-- `check_remote_size`; `rd` is what `dhmp_read` delivers, or `none` when it returns -1. -/
def checkRemoteSize (rb : RemoteRingbuff) (rd : Option ℕ) (waitWriteLen : ℤ) :
    RemoteRingbuff × Bool :=
  match rd with
  | none => (rb, false)
  | some rd =>
    let rb := { rb with rdPointer := rd }
    (rb, !decide (rb.freeSize < waitWriteLen))

/-- One step of `head_node_write_log` up to the end of `rb_write_mate`. A log that
does not fit an `int` would go on with negative lengths; the model stops it there. -/
def writerStep (w : Writer) (b : LocalRingbuff) : WriterAction → Option (Writer × LocalRingbuff)
  | .write log =>
    match w.pc with
    | .idle => some ({ w with pc := .started log }, b)
    | _ => none
  | .check readOk =>
    match w.pc with
    | .started log =>
      let (remote, ok) := checkRemoteSize w.remote (if readOk then some b.rdPointer else none)
        (cInt log.totalLen)
      some ({ w with remote := remote, pc := if ok then .checked log else .idle }, b)
    | _ => none
  | .recheck readOk =>
    match w.pc with
    | .checked log =>
      if log.Fits then
        let (remote, ok) := checkRemoteSize w.remote (if readOk then some b.rdPointer else none)
          log.totalLen
        some ({ w with
          remote := remote
          pc := if ok then .mateWriting log remote.wrPointer remote.wrPointer log.mateBytes
            else .idle }, b)
      else none
    | _ => none
  | .writeMate =>
    match w.pc with
    | .mateWriting log logPos pos rest =>
      if w.remote.size < pos + rest.length then
        let leftSize := w.remote.size - pos
        some ({ w with pc := .mateWriting log logPos 0 (rest.drop leftSize) },
          { b with buff := writeBytes b.buff pos (rest.take leftSize) })
      else
        some ({ w with
          remote := { w.remote with wrPointer := pos + rest.length }
          pc := .mateWritten log logPos },
          { b with buff := writeBytes b.buff pos rest })
    | _ => none
  | .advance =>
    match w.pc with
    | .mateWritten log logPos =>
      let pos := w.remote.wrPointer
      let next := if w.remote.size < pos + log.valueLen then log.valueLen - (w.remote.size - pos)
        else pos + log.valueLen
      some ({ w with
        remote := { w.remote with wrPointer := next }
        pc := .publishing
        logs := w.logs ++ [(log, logPos)] }, b)
    | _ => none
  | .publish =>
    match w.pc with
    | .publishing =>
      some ({ w with pc := .enqueueing, published := w.logs.length },
        { b with wrPointer := w.remote.wrPointer })
    | _ => none

/-- The writer only appends to `logs` and never moves the reader's pointers. -/
theorem writerStep_frame {w w' : Writer} {b b' : LocalRingbuff} {a : WriterAction}
    (h : writerStep w b a = some (w', b')) :
    (∃ ls, w'.logs = w.logs ++ ls) ∧ b'.rdKeyPointer = b.rdKeyPointer ∧
      b'.rdPointer = b.rdPointer ∧ b'.size = b.size := by
  cases a <;> cases hpc : w.pc <;> simp only [writerStep, hpc, reduceCtorEq] at h
  case recheck.checked =>
    split_ifs at h <;> cases h <;> exact ⟨⟨[], by simp⟩, rfl, rfl, rfl⟩
  case writeMate.mateWriting =>
    split_ifs at h <;> cases h <;> exact ⟨⟨[], by simp⟩, rfl, rfl, rfl⟩
  case advance.mateWritten =>
    cases h
    exact ⟨⟨_, rfl⟩, rfl, rfl, rfl⟩
  all_goals
    cases h
    exact ⟨⟨[], by simp⟩, rfl, rfl, rfl⟩

/-! ## The reading side -/

/-- `rb_read`. The copied bytes come with the ring afterwards: when not copying, the
bytes read are zeroed and the read pointer moves. -/
def rbRead (b : LocalRingbuff) (hasBuf : Bool) (start : ℤ) (len : ℕ) (isCopy : Bool) :
    Option (List UInt8 × LocalRingbuff) :=
  if b.dataSize < len then none
  else
    let pos := if start = -1 then b.rdPointer else start.toNat
    let leftSize := if b.size < pos + len then b.size - pos else 0
    let pos' := if b.size < pos + len then 0 else pos
    let clear := fun (buff : ℕ → UInt8) (p n : ℕ) =>
      if hasBuf && !isCopy then writeBytes buff p (List.replicate n 0) else buff
    let buff' := clear b.buff pos leftSize
    let copied := if hasBuf then
      readBytes b.buff pos leftSize ++ readBytes buff' pos' (len - leftSize) else []
    some (copied, { b with
      buff := clear buff' pos' (len - leftSize)
      rdPointer := if isCopy then b.rdPointer else pos' + (len - leftSize) })

/-- Where it starts to read. -/
def startPos (b : LocalRingbuff) (start : ℤ) : ℕ := if start = -1 then b.rdPointer else start.toNat

/-- The two pieces of a read that is let through, put together: `buf` and the ring are those
of one access that goes on at 0 behind the ring end. -/
theorem rbRead_eq {b : LocalRingbuff} (hsize : IsRingSize b.size) {start : ℤ}
    (hpos : startPos b start ≤ b.size) {len : ℕ} (hlen : len ≤ b.dataSize)
    (hasBuf isCopy : Bool) :
    rbRead b hasBuf start len isCopy =
      some (if hasBuf then circRead b.buff b.size (startPos b start) len else [],
        { b with
          buff := if hasBuf && !isCopy then
              circWrite b.buff b.size (startPos b start) (List.replicate len 0)
            else b.buff
          rdPointer := if isCopy then b.rdPointer
            else if b.size < startPos b start + len then len - (b.size - startPos b start)
            else startPos b start + len }) := by
  have hdata : b.dataSize < b.size := mask_lt hsize _
  unfold rbRead circWrite
  rw [if_neg (by omega)]
  rw [show (if start = -1 then b.rdPointer else start.toNat) = startPos b start from rfl]
  generalize startPos b start = pos at hpos ⊢
  rw [circRead_eq_pieces b.buff hsize.pos hpos (by omega)]
  by_cases hwrap : b.size < pos + len
  · -- clearing the first piece leaves the second one alone
    have hsecond : readBytes (writeBytes b.buff pos (List.replicate (b.size - pos) 0)) 0
        (len - (b.size - pos)) = readBytes b.buff 0 (len - (b.size - pos)) := by
      apply List.map_congr_left
      intro j hj
      rw [List.mem_range] at hj
      exact writeBytes_of_lt _ _ _ _ (by omega)
    have htake : min (b.size - pos) len = b.size - pos := by omega
    cases hasBuf <;> cases isCopy <;> simp [hwrap, hsecond, htake]
  · cases hasBuf <;> cases isCopy <;> simp [hwrap]

/-- Memory a reader can point to: the ring, or the copies made of wrapped strings. -/
inductive Addr
  | ring (pos : ℕ)
  | keyCopy (owner : ℕ)
  | valueCopy (owner : ℕ)
  deriving DecidableEq

/-- `logEntry` on a receiving node. -/
structure LogEntry where
  mateData : LogMateData
  logPos : ℕ
  keyIsCut : Bool
  valueIsCut : Bool
  keyAddr : Option Addr
  valueAddr : Option Addr

/-- The bytes `rb_read` leaves in freshly allocated memory. -/
def copyOut (b : LocalRingbuff) (start len : ℕ) : List UInt8 :=
  ((rbRead b true start len true).map Prod.fst).getD []

/-- The position of a part of the log at `pos`. -/
def ringPos (b : LocalRingbuff) (pos : ℕ) (offset : ℤ) : ℕ := mask (pos + offset) b.size

/-- The metadata read into the zeroed struct. -/
def readMateData (b : LocalRingbuff) (pos : ℕ) : LogMateData :=
  match rbRead b true pos sizeofLogMateData true with
  | some (bs, _) => .decode bs
  | none => ⟨0, 0⟩

/-- The entry that `read_log_key` builds for the log at `pos`; `owner` names the copy. -/
def readLogEntry (b : LocalRingbuff) (pos owner : ℕ) : LogEntry :=
  let mateData := readMateData b pos
  let keyPos := ringPos b pos mateData.keyOffset
  let cut := decide ((b.size : ℤ) ≤ keyPos + mateData.keyLength)
  { mateData := mateData, logPos := pos, keyIsCut := cut, valueIsCut := false
    keyAddr := some (if cut then .keyCopy owner else .ring keyPos), valueAddr := none }

/-- The copy of the key that goes with it. -/
def readKeyCopy (b : LocalRingbuff) (e : LogEntry) : List UInt8 :=
  copyOut b (ringPos b e.logPos e.mateData.keyOffset) e.mateData.keyLength.toNat

/-- `free_log` moves the read pointer behind the log. -/
def freeRing (b : LocalRingbuff) (e : LogEntry) : LocalRingbuff :=
  { b with rdPointer := ringPos b b.rdPointer e.mateData.nextOffset }

end RdmaMiddleware.LogBuffer
