import RdmaMiddleware.TwoSided

/-!
# The bounds of frames

`dhmp_send_task_create` in `size_t` arithmetic, for messages of any size. The send region
starts again at 0 when the next frame does not fit behind the previous one; that the frame
fits the region or the peer's receive buffer at all is tested nowhere.
-/
namespace RdmaMiddleware.FrameBounds
open Framing TwoSided

/-- A frame in the send region: where it starts, `sge.length`, and the number of bytes that
the three `memcpy` store. -/
structure Frame where
  pos : ℕ
  length : ℕ
  stored : ℕ

/-- `send_mr` of a transport and the frames built there so far. -/
structure Region where
  curPos : ℕ
  frames : List Frame

def sizeT (n : ℕ) : ℕ := n % 2 ^ 64

def sendTaskCreate (r : Region) (m : Msg) : Region :=
  let length := sizeT (sizeofMsgType + sizeofSizeT + m.data.length)
  let curPos := if SEND_REGION_SIZE < sizeT (r.curPos + length) then 0 else r.curPos
  { curPos := sizeT (curPos + length)
    frames := r.frames ++ [⟨curPos, length, sizeofMsgType + sizeofSizeT + m.data.length⟩] }

/-- A message handed to `dhmp_post_send`, with the state of the transport. -/
structure Handed where
  msg : Msg
  connected : Bool
  outcome : PostOutcome

/-- A frame is built for the message. -/
def Handed.built (h : Handed) : Bool :=
  h.connected && match h.outcome with
    | .noTask => false
    | .notPosted | .posted => true

def postSend (r : Region) (h : Handed) : Region :=
  if h.built then sendTaskCreate r h.msg else r

namespace Frame

/-- The frame lies inside the send region. -/
def Inside (f : Frame) : Prop := f.pos + f.stored ≤ SEND_REGION_SIZE

/-- It fits the receive buffer as well. -/
def Proper (f : Frame) : Prop := f.Inside ∧ f.length ≤ SINGLE_NORM_RECV_REGION

instance (f : Frame) : Decidable f.Inside := inferInstanceAs (Decidable (_ ≤ _))

end Frame

/-- All messages in turn. A frame that runs out of the region overwrites other memory, and
nothing is known of the program behind it. -/
def postAll : Region → List Handed → Region
  | r, [] => r
  | r, h :: rest =>
    if ∀ f ∈ (postSend r h).frames, f.Inside then postAll (postSend r h) rest else postSend r h

/-- The frame of the message fits a receive buffer. -/
def Receivable (m : Msg) : Prop := m.frame.length ≤ SINGLE_NORM_RECV_REGION

def start : Region := ⟨0, []⟩

/-! ## One message -/

variable {r : Region} {m : Msg} {h : Handed}

theorem sizeT_of_lt {n : ℕ} (h : n < 2 ^ 64) : sizeT n = n := Nat.mod_eq_of_lt h

/-- A frame that a receive buffer can take is laid out behind the last one or at 0. -/
theorem sendTaskCreate_of_receivable (hcur : r.curPos ≤ SEND_REGION_SIZE) (hm : Receivable m) :
    (sendTaskCreate r m).curPos ≤ SEND_REGION_SIZE ∧
      ∃ f : Frame, (sendTaskCreate r m).frames = r.frames ++ [f] ∧ f.Proper := by
  have hle : sizeofMsgType + sizeofSizeT + m.data.length ≤ SINGLE_NORM_RECV_REGION :=
    m.length_frame ▸ hm
  unfold sendTaskCreate
  generalize sizeofMsgType + sizeofSizeT + m.data.length = n at hle
  have hregion : SINGLE_NORM_RECV_REGION ≤ SEND_REGION_SIZE := by decide
  have hlt : SEND_REGION_SIZE + SINGLE_NORM_RECV_REGION < 2 ^ 64 := by decide
  dsimp only
  rw [sizeT_of_lt (show n < 2 ^ 64 by omega), sizeT_of_lt (show r.curPos + n < 2 ^ 64 by omega)]
  by_cases hrestart : SEND_REGION_SIZE < r.curPos + n
  · rw [if_pos hrestart, Nat.zero_add, sizeT_of_lt (by omega)]
    exact ⟨hle.trans hregion, _, rfl, by simpa [Frame.Inside] using hle.trans hregion, hle⟩
  · rw [if_neg hrestart, sizeT_of_lt (by omega)]
    exact ⟨not_lt.mp hrestart, _, rfl, not_lt.mp hrestart, hle⟩

/-- A longer one is laid out all the same; when its length does not even fit a `size_t`, the
copy of the data leaves the region. -/
theorem sendTaskCreate_of_not_receivable (r : Region) (hm : ¬ Receivable m) :
    ∃ f : Frame, (sendTaskCreate r m).frames = r.frames ++ [f] ∧ ¬ f.Proper := by
  have hgt : SINGLE_NORM_RECV_REGION < sizeofMsgType + sizeofSizeT + m.data.length :=
    m.length_frame ▸ not_le.mp hm
  refine ⟨_, rfl, ?_⟩
  rintro ⟨hinside, hle⟩
  dsimp only [Frame.Inside] at hinside hle
  have hlt : SEND_REGION_SIZE < 2 ^ 64 := by decide
  rw [sizeT_of_lt (by omega)] at hle
  omega

/-! ## Sequences of messages -/

theorem frames_postSend (r : Region) (h : Handed) : r.frames <+: (postSend r h).frames := by
  unfold postSend
  split_ifs
  · exact List.prefix_append ..
  · exact List.prefix_refl _

/-- Frames that have been built stay in the record. -/
theorem frames_postAll (r : Region) (hs : List Handed) : r.frames <+: (postAll r hs).frames := by
  induction hs generalizing r with
  | nil => exact List.prefix_refl _
  | cons h rest ih =>
    unfold postAll
    split_ifs
    · exact (frames_postSend r h).trans (ih _)
    · exact frames_postSend r h

/-- A long message leaves an improper frame. -/
theorem not_proper_of_built (r : Region) (rest : List Handed) (hbuilt : h.built = true)
    (hm : ¬ Receivable h.msg) : ¬ ∀ f ∈ (postAll r (h :: rest)).frames, f.Proper := by
  intro hall
  obtain ⟨f, hf, hbad⟩ := sendTaskCreate_of_not_receivable r hm
  have hsend : postSend r h = sendTaskCreate r h.msg := if_pos hbuilt
  have hmem : f ∈ (postSend r h).frames := by
    rw [hsend, hf]
    exact List.mem_concat_self
  refine hbad (hall f ?_)
  unfold postAll
  split_ifs
  · exact (frames_postAll _ rest).subset hmem
  · exact hmem

/-- Every frame of a sequence of messages is proper exactly when every message for which one
is built fits a receive buffer. -/
theorem frames_proper_iff_from (hs : List Handed) (hcur : r.curPos ≤ SEND_REGION_SIZE)
    (hframes : ∀ f ∈ r.frames, f.Proper) :
    (∀ f ∈ (postAll r hs).frames, f.Proper) ↔
      ∀ h ∈ hs, h.built = true → Receivable h.msg := by
  induction hs generalizing r with
  | nil => simpa [postAll] using hframes
  | cons h rest ih =>
    by_cases hbad : h.built = true ∧ ¬ Receivable h.msg
    · refine iff_of_false (not_proper_of_built r rest hbad.1 hbad.2) ?_
      intro hall
      exact hbad.2 (hall h List.mem_cons_self hbad.1)
    -- otherwise the region is as good as before
    have hgood : h.built = true → Receivable h.msg := by
      intro hbuilt
      by_contra hm
      exact hbad ⟨hbuilt, hm⟩
    have hnext : (postSend r h).curPos ≤ SEND_REGION_SIZE ∧
        ∀ f ∈ (postSend r h).frames, f.Proper := by
      unfold postSend
      split_ifs with hbuilt
      · obtain ⟨hcur', f, hf, hproper⟩ := sendTaskCreate_of_receivable hcur (hgood hbuilt)
        refine ⟨hcur', fun g hg => ?_⟩
        rw [hf] at hg
        rcases List.mem_append.mp hg with hg | hg
        · exact hframes g hg
        · exact List.mem_singleton.mp hg ▸ hproper
      · exact ⟨hcur, hframes⟩
    rw [postAll, if_pos (fun f hf => (hnext.2 f hf).1), ih hnext.1 hnext.2,
      List.forall_mem_cons]
    exact (and_iff_right hgood).symm

/-- From a fresh send region, every frame of every sequence of messages is proper exactly
when every message for which one is built fits a receive buffer. -/
theorem frames_proper_iff (hs : List Handed) :
    (∀ f ∈ (postAll start hs).frames, f.Proper) ↔
      ∀ h ∈ hs, h.built = true → Receivable h.msg := by
  apply frames_proper_iff_from hs (Nat.zero_le _)
  intro f hf
  cases hf

/-- `dhmp_send(addr, buf, length, true)`, as a message handed over on a working connection. -/
def sendWrite (length : ℕ) : Handed where
  msg := requestMsg { dhmpAddr := 0, localBuf := 0, length := length, isWrite := true, task := 0
                      rdmaTrans := () : Work Unit } 0 (Vector.replicate 7 0) (fun _ => 0)
  connected := true
  outcome := .posted

theorem length_sendWrite (length : ℕ) :
    (sendWrite length).msg.frame.length =
      sizeofMsgType + sizeofSizeT + (sizeofSendRequest + length) := by
  rw [Msg.length_frame, sendWrite, requestMsg, List.length_append, SendRequest.length_encode,
    if_pos rfl, CircularMemory.length_readBytes]

/-- A write of 64 KB does not fit the receive buffer by its header. -/
theorem not_frames_proper_sendWrite :
    ¬ ∀ hs : List Handed, ∀ f ∈ (postAll start hs).frames, f.Proper := by
  intro hclaim
  have hlong : ¬ Receivable (sendWrite (64 * 1024)).msg := by
    unfold Receivable
    rw [length_sendWrite]
    decide
  exact not_proper_of_built start [] rfl hlong (hclaim [sendWrite (64 * 1024)])

/-! ## What the bound means for `dhmp_send` -/

/-- Both frames of a `dhmp_send` fit the receive buffers exactly when its bytes and the
headers do. -/
theorem receivable_iff_fitsBuffer {T : Type*} (w : Work T) (addr : AddressTable.Address)
    (pad : Vector UInt8 7) (mem : Memories T) :
    Receivable (requestMsg w addr pad mem.client) ∧ Receivable (replyMsg w addr pad mem) ↔
      FitsBuffer w := by
  have hheader : sizeofMsgType + sizeofSizeT + sizeofSendRequest ≤ SINGLE_NORM_RECV_REGION := by
    decide
  unfold Receivable FitsBuffer
  rw [Msg.length_frame, Msg.length_frame, requestMsg, replyMsg]
  cases hw : w.isWrite with
  | true => simp; omega
  | false => simp; omega

/-- Within the bound the builder is the one of `Framing`. -/
theorem sendTaskCreate_agrees (sendMr : SendMr) (r : Region) {m : Msg}
    (hcur : sendMr.curPos = r.curPos) (hle : r.curPos ≤ SEND_REGION_SIZE) (hm : Receivable m) :
    (sendTaskCreate r m).curPos = (Framing.sendTaskCreate sendMr m).1.curPos ∧
      (sendTaskCreate r m).frames = r.frames ++ [⟨(Framing.sendTaskCreate sendMr m).2.1,
        (Framing.sendTaskCreate sendMr m).2.2, m.frame.length⟩] := by
  have hlen : sizeofMsgType + sizeofSizeT + m.data.length ≤ SINGLE_NORM_RECV_REGION :=
    m.length_frame ▸ hm
  have hlt : SEND_REGION_SIZE + SINGLE_NORM_RECV_REGION < 2 ^ 64 := by decide
  unfold sendTaskCreate Framing.sendTaskCreate
  rw [m.length_frame, hcur]
  generalize sizeofMsgType + sizeofSizeT + m.data.length = n at hlen
  dsimp only
  rw [sizeT_of_lt (show n < 2 ^ 64 by omega), sizeT_of_lt (show r.curPos + n < 2 ^ 64 by omega)]
  refine ⟨sizeT_of_lt ?_, rfl⟩
  split_ifs <;> omega

end RdmaMiddleware.FrameBounds
