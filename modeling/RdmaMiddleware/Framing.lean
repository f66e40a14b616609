import RdmaMiddleware.AddressTable
import RdmaMiddleware.CInt
import RdmaMiddleware.CircularMemory

/-!
# Frames of the two-sided path

A frame is the message type as an `enum`, the size of the data as a `size_t`, and the data.
`dhmp_send_task_create` lays it out in the send region, which starts again at 0 when the
next frame does not fit; `dhmp_wc_success_handler` reads it from a receive buffer.
-/
namespace RdmaMiddleware.Framing
open CInt CircularMemory AddressTable

def SEND_REGION_SIZE : ℕ := 512 * 1024 * 1024
def SINGLE_NORM_RECV_REGION : ℕ := 64 * 1024
def sizeofMsgType : ℕ := 4
def sizeofSizeT : ℕ := 8

/-! ## Messages -/

inductive MsgType
  | MALLOC_REQUEST
  | MALLOC_RESPONSE
  | MALLOC_ERROR
  | FREE_REQUEST
  | FREE_RESPONSE
  | APPLY_DRAM_REQUEST
  | APPLY_DRAM_RESPONSE
  | CLEAR_DRAM_REQUEST
  | CLEAR_DRAM_RESPONSE
  | MEM_CHANGE
  | SERVER_INFO_REQUEST
  | SERVER_INFO_RESPONSE
  | CLOSE_CONNECTION
  | SEND_REQUEST
  | SEND_RESPONSE
  | BUFF_MALLOC_REQUEST
  | BUFF_MALLOC_RESPONSE
  | BUFF_MALLOC_ERROR
  deriving DecidableEq

namespace MsgType

def all : List MsgType :=
  [MALLOC_REQUEST, MALLOC_RESPONSE, MALLOC_ERROR, FREE_REQUEST, FREE_RESPONSE,
    APPLY_DRAM_REQUEST, APPLY_DRAM_RESPONSE, CLEAR_DRAM_REQUEST, CLEAR_DRAM_RESPONSE,
    MEM_CHANGE, SERVER_INFO_REQUEST, SERVER_INFO_RESPONSE, CLOSE_CONNECTION, SEND_REQUEST,
    SEND_RESPONSE, BUFF_MALLOC_REQUEST, BUFF_MALLOC_RESPONSE, BUFF_MALLOC_ERROR]

/-- The value of the enumerator. -/
def code (t : MsgType) : ℕ := all.idxOf t

def ofCode (n : ℕ) : Option MsgType := all[n]?

theorem ofCode_code (t : MsgType) : ofCode t.code = some t := by cases t <;> rfl

theorem code_lt (t : MsgType) : t.code < 256 ^ sizeofMsgType := by cases t <;> decide

end MsgType

/-- A message to be sent; `data_size` is the length of `data`. -/
structure Msg where
  msgType : MsgType
  data : List UInt8

def Msg.frame (m : Msg) : List UInt8 :=
  leBytes sizeofMsgType m.msgType.code ++ leBytes sizeofSizeT m.data.length ++ m.data

@[simp] theorem Msg.length_frame (m : Msg) :
    m.frame.length = sizeofMsgType + sizeofSizeT + m.data.length := by
  simp [Msg.frame, Nat.add_assoc]

/-- `send_mr` of a transport. -/
structure SendMr where
  curPos : ℕ
  mem : ℕ → UInt8

/-- `dhmp_send_task_create`, with the position and the length of the frame. -/
def sendTaskCreate (sendMr : SendMr) (m : Msg) : SendMr × ℕ × ℕ :=
  let length := sizeofMsgType + sizeofSizeT + m.data.length
  let curPos := if SEND_REGION_SIZE < sendMr.curPos + length then 0 else sendMr.curPos
  let mem := writeBytes sendMr.mem curPos (leBytes sizeofMsgType m.msgType.code)
  let mem := writeBytes mem (curPos + sizeofMsgType) (leBytes sizeofSizeT m.data.length)
  let mem := writeBytes mem (curPos + sizeofMsgType + sizeofSizeT) m.data
  ({ curPos := curPos + length, mem := mem }, curPos, length)

/-- The bytes that the transport takes from the send region. -/
def sentFrame (sendMr : SendMr) (m : Msg) : List UInt8 :=
  let (sendMr, pos, length) := sendTaskCreate sendMr m
  readBytes sendMr.mem pos length

/-- A message in a receive buffer; `data` is the memory at `msg.data`. -/
structure RecvMsg where
  msgType : Option MsgType
  dataSize : ℕ
  data : ℕ → UInt8

/-- What `dhmp_wc_success_handler` reads from `task_ptr->sge.addr`. -/
def parse (buffer : ℕ → UInt8) : RecvMsg where
  msgType := MsgType.ofCode (leValue (readBytes buffer 0 sizeofMsgType))
  dataSize := leValue (readBytes buffer sizeofMsgType sizeofSizeT)
  data := fun j => buffer (sizeofMsgType + sizeofSizeT + j)

/-- The receive buffer after the transport has put a frame into it. -/
def received (buffer : ℕ → UInt8) (frame : List UInt8) : RecvMsg :=
  parse (writeBytes buffer 0 frame)

/-- A parsed message is the one that was sent. -/
structure ParsesTo (r : RecvMsg) (m : Msg) : Prop where
  msg_type : r.msgType = some m.msgType
  data_size : r.dataSize = m.data.length
  data : readBytes r.data 0 m.data.length = m.data

theorem sentFrame_eq (sendMr : SendMr) (m : Msg) : sentFrame sendMr m = m.frame := by
  have hlength : sizeofMsgType + sizeofSizeT + m.data.length = m.frame.length :=
    m.length_frame.symm
  unfold sentFrame sendTaskCreate
  dsimp only
  generalize (if SEND_REGION_SIZE < _ then 0 else sendMr.curPos) = pos
  have hfirst := writeBytes_writeBytes sendMr.mem pos (leBytes sizeofMsgType m.msgType.code)
    (leBytes sizeofSizeT m.data.length)
  have hsecond := writeBytes_writeBytes sendMr.mem pos
    (leBytes sizeofMsgType m.msgType.code ++ leBytes sizeofSizeT m.data.length) m.data
  rw [length_leBytes] at hfirst
  rw [List.length_append, length_leBytes, length_leBytes, ← Nat.add_assoc] at hsecond
  rw [hfirst, hsecond, hlength]
  exact readBytes_writeBytes sendMr.mem pos m.frame

theorem parsesTo_frame {m : Msg} (h : m.data.length < 2 ^ 64) (buffer : ℕ → UInt8) :
    ParsesTo (received buffer m.frame) m := by
  have hread : readBytes (writeBytes buffer 0 m.frame) 0 m.frame.length = m.frame :=
    readBytes_writeBytes _ _ _
  unfold Msg.frame at hread
  rw [readBytes_eq_append, readBytes_eq_append, List.length_append, length_leBytes,
    length_leBytes, Nat.zero_add] at hread
  obtain ⟨⟨htype, hsize⟩, hdata⟩ := hread
  refine ⟨?_, ?_, ?_⟩
  · show MsgType.ofCode (leValue (readBytes (writeBytes buffer 0 m.frame) 0 sizeofMsgType)) = _
    unfold Msg.frame
    rw [htype, leValue_leBytes, Nat.mod_eq_of_lt m.msgType.code_lt, MsgType.ofCode_code]
  · show leValue (readBytes (writeBytes buffer 0 m.frame) sizeofMsgType sizeofSizeT) = _
    unfold Msg.frame
    rw [hsize, leValue_leBytes, Nat.mod_eq_of_lt (lt_of_lt_of_eq h (by decide))]
  · rw [Nat.zero_add] at hdata
    refine Eq.trans ?_ hdata
    apply List.map_congr_left
    intro j _
    show writeBytes buffer 0 m.frame (_ + (0 + j)) = _
    rw [Nat.zero_add]
    rfl

/-- A frame that fits a receive buffer is laid out within the send region. -/
theorem sendTaskCreate_within (sendMr : SendMr) {m : Msg}
    (h : m.frame.length ≤ SINGLE_NORM_RECV_REGION) :
    (sendTaskCreate sendMr m).2.1 + (sendTaskCreate sendMr m).2.2 ≤ SEND_REGION_SIZE := by
  rw [m.length_frame] at h
  unfold sendTaskCreate SEND_REGION_SIZE
  unfold SINGLE_NORM_RECV_REGION at h
  dsimp only
  split_ifs <;> omega

/-- Framing and parsing are inverse, wherever the send region stands and whatever the
receive buffer held. -/
theorem parsesTo_received (sendMr : SendMr) {m : Msg} (h : m.data.length < 2 ^ 64)
    (buffer : ℕ → UInt8) : ParsesTo (received buffer (sentFrame sendMr m)) m := by
  rw [sentFrame_eq]
  exact parsesTo_frame h buffer

/-! ## The request structure -/

def sizeofSendRequest : ℕ := 40

/-- `dhmp_send_request`; a `dhmp_send_response` is nothing else. `pad` are the bytes behind
the `bool`. -/
structure SendRequest where
  reqSize : ℕ
  serverAddr : Address
  task : Address
  localAddr : Address
  isWrite : Bool
  pad : Vector UInt8 7

namespace SendRequest

def word (a : Address) : List UInt8 := leBytes 8 a.toNat

def readWord (mem : ℕ → UInt8) (pos : ℕ) : Address :=
  BitVec.ofNat 64 (leValue (readBytes mem pos 8))

def encode (r : SendRequest) : List UInt8 :=
  leBytes 8 r.reqSize ++ word r.serverAddr ++ word r.task ++ word r.localAddr ++
    [if r.isWrite then 1 else 0] ++ r.pad.toList

/-- The structure that stands at the start of a memory. -/
def read (mem : ℕ → UInt8) : SendRequest where
  reqSize := leValue (readBytes mem 0 8)
  serverAddr := readWord mem 8
  task := readWord mem 16
  localAddr := readWord mem 24
  isWrite := mem 32 != 0
  pad := Vector.ofFn fun i => mem (33 + i)

@[simp] theorem length_encode (r : SendRequest) : r.encode.length = sizeofSendRequest := by
  simp [encode, word, sizeofSendRequest]

theorem readWord_eq {mem : ℕ → UInt8} {pos : ℕ} {a : Address}
    (h : readBytes mem pos (word a).length = word a) : readWord mem pos = a := by
  rw [word, length_leBytes] at h
  rw [readWord, h, leValue_leBytes]
  apply BitVec.eq_of_toNat_eq
  rw [BitVec.toNat_ofNat]
  have hlt := a.isLt
  omega

theorem read_encode {r : SendRequest} {mem : ℕ → UInt8} (hsize : r.reqSize < 2 ^ 64)
    (h : readBytes mem 0 sizeofSendRequest = r.encode) : read mem = r := by
  rw [← r.length_encode] at h
  unfold encode at h
  iterate 5 rw [readBytes_eq_append] at h
  obtain ⟨⟨⟨⟨⟨hreq, hserver⟩, htask⟩, hlocal⟩, hwrite⟩, hpad⟩ := h
  simp only [List.length_append, length_leBytes, word, List.length_singleton, Nat.zero_add]
    at hreq hserver htask hlocal hwrite hpad
  have hreq' : leValue (readBytes mem 0 8) = r.reqSize := by
    rw [hreq, leValue_leBytes, Nat.mod_eq_of_lt (lt_of_lt_of_eq hsize (by decide))]
  have hflag : mem 32 = if r.isWrite then 1 else 0 := by
    have hone : readBytes mem 32 [if r.isWrite then (1 : UInt8) else 0].length =
        [if r.isWrite then 1 else 0] := hwrite
    simpa using readBytes_eq_iff.mp hone 0 (by simp)
  have hpad' : (Vector.ofFn fun i : Fin 7 => mem (33 + i)) = r.pad := by
    apply Vector.ext
    intro i hi
    have hget := readBytes_eq_iff.mp hpad i (by simpa using hi)
    simpa using hget
  have hisWrite : (mem 32 != 0) = r.isWrite := by
    rw [hflag]
    cases r.isWrite <;> rfl
  unfold read
  rw [hreq', readWord_eq (by simpa [word] using hserver), readWord_eq (by simpa [word] using htask),
    readWord_eq (by simpa [word] using hlocal), hisWrite, hpad']

end SendRequest

/-- A request structure in front of other bytes is read back with them. -/
theorem ParsesTo.read_request {r : RecvMsg} {m : Msg} {req : SendRequest} {rest : List UInt8}
    (h : ParsesTo r m) (hdata : m.data = req.encode ++ rest) (hsize : req.reqSize < 2 ^ 64) :
    SendRequest.read r.data = req ∧
      readBytes r.data sizeofSendRequest rest.length = rest := by
  have hread := h.data
  rw [hdata, readBytes_eq_append, req.length_encode, Nat.zero_add] at hread
  exact ⟨SendRequest.read_encode hsize hread.1, hread.2⟩

end RdmaMiddleware.Framing
