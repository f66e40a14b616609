import RdmaMiddleware.TransitionSystem
import RdmaMiddleware.HeadCalls

/-!
# The remote writes of the head, in C integers

`head_node_write_log` computes the length of a log in `size_t`, hands it on as an `int`
and stores it in `int` fields. Here logs have any length, the pointers are any `int`s
and signed overflow wraps. Every `dhmp_write` into the ring of the next node is recorded
with the arguments it is called with; a call whose `dhmp_write` does not return issues
only the first of them.
-/
namespace RdmaMiddleware.RemoteWrites
open CInt CircularMemory LogBuffer UnlockQueue TransitionSystem

/-- `remote_buff` as it is declared. -/
structure RemoteInts where
  wrPointer : ℤ
  rdPointer : ℤ
  size : ℕ
  size_int : size < 2 ^ 31

namespace RemoteInts

/-- `rb_data_size` and `rb_free_size`. -/
def dataSize (rb : RemoteInts) : ℕ := mask (rb.wrPointer - rb.rdPointer) rb.size
def freeSize (rb : RemoteInts) : ℤ := (rb.size : ℤ) - 1 - rb.dataSize

def withRd (rb : RemoteInts) (rd : ℤ) : RemoteInts := { rb with rdPointer := rd }
def withWr (rb : RemoteInts) (wr : ℤ) : RemoteInts := { rb with wrPointer := wr }

@[simp] theorem size_withRd (rb : RemoteInts) (rd : ℤ) : (rb.withRd rd).size = rb.size := rfl
@[simp] theorem wrPointer_withRd (rb : RemoteInts) (rd : ℤ) :
    (rb.withRd rd).wrPointer = rb.wrPointer := rfl
@[simp] theorem size_withWr (rb : RemoteInts) (wr : ℤ) : (rb.withWr wr).size = rb.size := rfl
@[simp] theorem wrPointer_withWr (rb : RemoteInts) (wr : ℤ) : (rb.withWr wr).wrPointer = wr := rfl
@[simp] theorem withRd_withRd (rb : RemoteInts) (rd rd' : ℤ) :
    (rb.withRd rd).withRd rd' = rb.withRd rd' := rfl

theorem freeSize_lt (rb : RemoteInts) : rb.freeSize < rb.size := by
  unfold freeSize
  omega

end RemoteInts

/-- One `dhmp_write` to `remote_buff->buff`: `length` bytes from `source` of the local
buffer to `offset` of the ring. -/
structure RingWrite where
  source : ℤ
  offset : ℤ
  length : ℤ
  deriving DecidableEq

/-- Positive length and inside the ring. -/
def RingWrite.Proper (size : ℕ) (w : RingWrite) : Prop :=
  0 < w.length ∧ 0 ≤ w.offset ∧ w.offset + w.length ≤ size

instance (size : ℕ) (w : RingWrite) : Decidable (w.Proper size) :=
  inferInstanceAs (Decidable (_ ∧ _ ∧ _))

/-- The transfer that `rb_write_mate` and `rb_write_data` share: two pieces when it goes
beyond the ring end. -/
def ringWrites (size : ℕ) (pos len : ℤ) : List RingWrite :=
  if size < cInt (pos + len) then
    let leftSize := cInt (size - pos)
    [⟨0, pos, leftSize⟩, ⟨leftSize, 0, cInt (len - leftSize)⟩]
  else [⟨0, pos, len⟩]

/-- The position behind `len` bytes from `pos` on, as `rb_write_mate` moves the pointer. -/
def nextPos (size : ℕ) (pos len : ℤ) : ℤ :=
  if size < cInt (pos + len) then cInt (len - cInt (size - pos)) else cInt (pos + len)

/-- `check_remote_size`; `rd` is what `dhmp_read` delivers, or `none` when it returns -1. -/
def checkRemoteSize (rb : RemoteInts) (rd : Option ℤ) (waitWriteLen : ℤ) : RemoteInts × Bool :=
  match rd with
  | none => (rb, false)
  | some rd => (rb.withRd rd, !decide ((rb.withRd rd).freeSize < waitWriteLen))

/-- The decision of `check_remote_size` alone. -/
def passes (rb : RemoteInts) (rd : Option ℤ) (waitWriteLen : ℤ) : Bool :=
  (checkRemoteSize rb rd waitWriteLen).2

/-- A log that `update_wr_remote` has published, with the free space found by the check
in front of it. -/
structure Publication where
  log : HeadLog
  freeSpace : ℤ

/-- The head: `remote_buff`, `sending_queue` with the `log_pos` of each log, the writes
into the ring issued so far and the publications. -/
structure Head where
  remote : RemoteInts
  sendingQueue : List (HeadLog × ℤ)
  ringWrites : List RingWrite
  published : List Publication

/-- `rb_write_mate` with its `int` parameters; the result is `log_pos` or -1. -/
def rbWriteMate (h : Head) (log : HeadLog) (rd : Option ℤ) (mateLen dataLen : ℤ) : Head × ℤ :=
  let check := checkRemoteSize h.remote rd (cInt (mateLen + dataLen))
  let remote := check.1
  if check.2 then
    let logPos := remote.wrPointer
    let mateEnd := nextPos remote.size logPos mateLen
    ({ h with
        remote := remote.withWr (nextPos remote.size mateEnd dataLen)
        ringWrites := h.ringWrites ++ ringWrites remote.size logPos mateLen
        published := h.published ++ [⟨log, remote.freeSize⟩] }, logPos)
  else ({ h with remote := remote }, -1)

/-- `head_node_write_log`. Without memory for the log it stores through a null pointer. -/
def headNodeWriteLog (h : Head) (log : HeadLog) (allocated : Bool) (rd rd' : Option ℤ) :
    Option (Head × Bool) :=
  if allocated then
    let check := checkRemoteSize h.remote rd (cInt log.totalLen)
    let h := { h with remote := check.1 }
    if check.2 then
      let mate := rbWriteMate h log rd' (cInt log.sendLen) (cInt log.valueLen)
      if mate.2 = -1 then some (mate.1, false)
      else
        match boundedPut QUEUE_SIZE mate.1.sendingQueue (log, mate.2) with
        | none => some (mate.1, false)
        | some sendingQueue => some ({ mate.1 with sendingQueue := sendingQueue }, true)
    else some (h, false)
  else none

/-- One round of `NIC_thread`: `rb_write_data` at `value_pos`. -/
def nicThread (h : Head) : Option Head :=
  match h.sendingQueue with
  | [] => none
  | (log, logPos) :: rest =>
    let size := h.remote.size
    let valuePos : ℤ := mask (logPos + log.mateData.valueOffset) size
    some { h with
      sendingQueue := rest
      ringWrites := h.ringWrites ++ ringWrites size valuePos log.mateData.valueLength }

/-! ## The properties -/

/-- A call of `head_node_write_log` with the results of its calls, or a round of
`NIC_thread`. -/
inductive Action
  | writeLog (log : HeadLog) (allocated : Bool) (rd rd' : Option ℤ)
  | send

/-- The two threads of the head with a ring of any size. -/
def head : System Head Action where
  init h := IsRingSize h.remote.size ∧ h.remote.wrPointer = 0 ∧ h.sendingQueue = [] ∧
    h.ringWrites = []
  step h
    | .writeLog log allocated rd rd' => (headNodeWriteLog h log allocated rd rd').map Prod.fst
    | .send => nicThread h

/-- Every write into the ring issued so far is proper. -/
def WritesProper (h : Head) : Prop := ∀ w ∈ h.ringWrites, w.Proper h.remote.size

/-- The pointer is not at the ring end, and the two lengths are positive also as `int`s,
with a sum that is one. -/
def Regular (h : Head) (log : HeadLog) : Prop :=
  h.remote.wrPointer < h.remote.size ∧ 0 < cInt log.sendLen ∧ 0 < cInt log.valueLen ∧
    cInt log.sendLen + cInt log.valueLen < 2 ^ 31

instance (h : Head) (log : HeadLog) : Decidable (Regular h log) :=
  inferInstanceAs (Decidable (_ ∧ _ ∧ _ ∧ _))

/-- `head_node_write_log` accepts only regular logs. -/
def AcceptsRegular (h : Head) : Action → Prop
  | .writeLog log _ rd rd' => passes h.remote rd (cInt log.totalLen) = true →
      passes h.remote rd' (cInt log.totalLen) = true → Regular h log
  | .send => True

/-- The log fits the space and its metadata are the lengths. -/
def Publication.Sound (p : Publication) : Prop :=
  (p.log.totalLen : ℤ) ≤ p.freeSpace ∧ p.log.mateData = ⟨p.log.keyLen, p.log.valueLen⟩

/-- Whatever the call publishes is sound. -/
def SpaceChecked (h : Head) (log : HeadLog) (allocated : Bool) (rd rd' : Option ℤ) : Prop :=
  ∀ t ok, headNodeWriteLog h log allocated rd rd' = some (t, ok) →
    ∀ p, t.published = h.published ++ [p] → p.Sound

/-! ## One call -/

/-- The conversion of a sum is the sum of the conversions. -/
theorem cInt_add (x y : ℤ) : cInt (cInt x + cInt y) = cInt (x + y) := by
  simp [cInt]

theorem valueLength_mateData (log : HeadLog) :
    log.mateData.valueLength = cInt log.valueLen := by
  rw [HeadLog.mateData]

theorem cInt_lens (log : HeadLog) :
    cInt (cInt log.sendLen + cInt log.valueLen) = cInt log.totalLen := by
  rw [cInt_add, HeadLog.totalLen]
  push_cast
  rfl

theorem passes_iff {rb : RemoteInts} {rd : Option ℤ} {len : ℤ} :
    passes rb rd len = true ↔ ∃ r, rd = some r ∧ len ≤ (rb.withRd r).freeSize := by
  cases rd with
  | none => simp [passes, checkRemoteSize]
  | some r => simp [passes, checkRemoteSize]

theorem checkRemoteSize_eq (rb : RemoteInts) (rd : Option ℤ) (len : ℤ) :
    ∃ r, checkRemoteSize rb rd len = (rb.withRd r, passes rb rd len) := by
  cases rd with
  | none => exact ⟨rb.rdPointer, rfl⟩
  | some r => exact ⟨r, rfl⟩

/-- Every check reads the pointer anew. -/
theorem passes_withRd (rb : RemoteInts) (r : ℤ) (rd : Option ℤ) (len : ℤ) :
    passes (rb.withRd r) rd len = passes rb rd len := by
  cases rd <;> rfl

/-- The head behind an accepted log, but for the queue. -/
def accept (h : Head) (log : HeadLog) (rd : ℤ) : Head :=
  let pos := h.remote.wrPointer
  let size := h.remote.size
  { h with
    remote := (h.remote.withRd rd).withWr
      (nextPos size (nextPos size pos (cInt log.sendLen)) (cInt log.valueLen))
    ringWrites := h.ringWrites ++ RemoteWrites.ringWrites size pos (cInt log.sendLen)
    published := h.published ++ [⟨log, (h.remote.withRd rd).freeSize⟩] }

variable {h t : Head} {log : HeadLog} {allocated ok : Bool} {rd rd' : Option ℤ}

/-- Behind a first check that has read `r₀`. -/
theorem rbWriteMate_of_passes (r₀ : ℤ) {r : ℤ}
    (hp : passes h.remote (some r) (cInt log.totalLen) = true) :
    rbWriteMate { h with remote := h.remote.withRd r₀ } log (some r) (cInt log.sendLen)
      (cInt log.valueLen) = (accept h log r, h.remote.wrPointer) := by
  have hlen : cInt log.totalLen ≤ (h.remote.withRd r).freeSize := by simpa [passes_iff] using hp
  simp [rbWriteMate, cInt_lens, checkRemoteSize, hlen, accept]

theorem rbWriteMate_of_not_passes (hp : passes h.remote rd (cInt log.totalLen) = false) :
    ∃ r, rbWriteMate h log rd (cInt log.sendLen) (cInt log.valueLen) =
      ({ h with remote := h.remote.withRd r }, -1) := by
  obtain ⟨r, hr⟩ := checkRemoteSize_eq h.remote rd (cInt log.totalLen)
  exact ⟨r, by simp [rbWriteMate, cInt_lens, hr, hp]⟩

theorem mem_of_boundedPut {α : Type*} {len : ℕ} {held q : List α} {e x : α}
    (hput : boundedPut len held e = some q) (hx : x ∈ q) : x ∈ held ∨ x = e := by
  unfold boundedPut at hput
  split_ifs at hput
  cases hput
  simpa using hx

/-- A log that passes both checks is written, and then put on the queue or not. -/
theorem headNodeWriteLog_of_passes {r : ℤ} (hp : passes h.remote rd (cInt log.totalLen) = true)
    (hp' : passes h.remote (some r) (cInt log.totalLen) = true) :
    ∃ q ok, headNodeWriteLog h log true rd (some r) =
        some ({ accept h log r with sendingQueue := q }, ok) ∧
      ∀ e ∈ q, e ∈ h.sendingQueue ∨ e.1 = log := by
  obtain ⟨r₀, hr₀⟩ := checkRemoteSize_eq h.remote rd (cInt log.totalLen)
  simp only [headNodeWriteLog, hr₀, hp, ↓reduceIte, rbWriteMate_of_passes r₀ hp']
  by_cases hneg : h.remote.wrPointer = -1
  · rw [if_pos hneg]
    exact ⟨h.sendingQueue, false, rfl, fun e he => .inl he⟩
  rw [if_neg hneg]
  generalize hput : boundedPut QUEUE_SIZE _ _ = put
  cases put with
  | none => exact ⟨h.sendingQueue, false, rfl, fun e he => .inl he⟩
  | some q =>
    refine ⟨q, true, rfl, fun e he => ?_⟩
    rcases mem_of_boundedPut hput he with he | rfl
    · exact .inl he
    · exact .inr rfl

/-- A log that one of the checks refuses leaves only another `rd_pointer`. -/
theorem headNodeWriteLog_of_refused (hnot : ¬ (passes h.remote rd (cInt log.totalLen) = true ∧
      passes h.remote rd' (cInt log.totalLen) = true)) :
    ∃ r, headNodeWriteLog h log true rd rd' =
      some ({ h with remote := h.remote.withRd r }, false) := by
  obtain ⟨r₀, hr₀⟩ := checkRemoteSize_eq h.remote rd (cInt log.totalLen)
  simp only [headNodeWriteLog, hr₀, ↓reduceIte]
  by_cases hp : passes h.remote rd (cInt log.totalLen) = true
  · have hsecond : passes (h.remote.withRd r₀) rd' (cInt log.totalLen) = false := by
      rw [passes_withRd]
      exact Bool.eq_false_iff.mpr (fun hp' => hnot ⟨hp, hp'⟩)
    obtain ⟨r, hr⟩ := rbWriteMate_of_not_passes
      (h := { h with remote := h.remote.withRd r₀ }) hsecond
    exact ⟨r, by simp [hp, hr]⟩
  · exact ⟨r₀, by simp [hp]⟩

/-- What a returning call did. -/
theorem headNodeWriteLog_cases
    (hcall : headNodeWriteLog h log allocated rd rd' = some (t, ok)) :
    (∃ r, t = { h with remote := h.remote.withRd r }) ∨
      (allocated = true ∧ passes h.remote rd (cInt log.totalLen) = true ∧
        ∃ r q, rd' = some r ∧ passes h.remote (some r) (cInt log.totalLen) = true ∧
          t = { accept h log r with sendingQueue := q } ∧
          ∀ e ∈ q, e ∈ h.sendingQueue ∨ e.1 = log) := by
  cases allocated with
  | false => simp [headNodeWriteLog] at hcall
  | true =>
    by_cases hpass : passes h.remote rd (cInt log.totalLen) = true ∧
        passes h.remote rd' (cInt log.totalLen) = true
    · obtain ⟨hp, hp'⟩ := hpass
      obtain ⟨r, rfl, -⟩ := passes_iff.mp hp'
      obtain ⟨q, ok', heq, hq⟩ := headNodeWriteLog_of_passes hp hp'
      rw [heq] at hcall
      cases hcall
      exact .inr ⟨rfl, hp, r, q, rfl, hp', rfl, hq⟩
    · obtain ⟨r, heq⟩ := headNodeWriteLog_of_refused hpass
      rw [heq] at hcall
      cases hcall
      exact .inl ⟨r, rfl⟩

/-! ## Transfers in the ring -/

variable {size : ℕ} {pos len : ℤ}

/-- The sums of a transfer fit an `int`. -/
theorem cInt_transfer (hsize : size ≤ 2 ^ 30) (hpos : 0 ≤ pos) (hle : pos ≤ size)
    (hlen : 0 < len) (hsum : pos + len < 2 * size) :
    cInt (pos + len) = pos + len ∧ cInt (size - pos) = size - pos ∧
      cInt (len - (size - pos)) = len - (size - pos) := by
  refine ⟨?_, ?_, ?_⟩
  · exact cInt_of_range (by omega) (by omega)
  · exact cInt_of_range (by omega) (by omega)
  · exact cInt_of_range (by omega) (by omega)

theorem ringWrites_proper (hsize : size ≤ 2 ^ 30) (hpos : 0 ≤ pos) (hlt : pos < size)
    (hlen : 0 < len) (hle : len ≤ size) : ∀ w ∈ ringWrites size pos len, w.Proper size := by
  obtain ⟨hend, hleft, hrest⟩ := cInt_transfer hsize hpos hlt.le hlen (by omega)
  intro w hw
  unfold ringWrites at hw
  rw [hend, hleft] at hw
  split_ifs at hw with hwrap
  · rcases List.mem_pair.mp hw with rfl | rfl
    · exact ⟨by dsimp only; omega, hpos, by dsimp only; omega⟩
    · exact ⟨by dsimp only; omega, le_rfl, by dsimp only; omega⟩
  · rw [List.mem_singleton.mp hw]
    exact ⟨hlen, hpos, by dsimp only; omega⟩

/-- A transfer that starts at the ring end begins with an empty write there. -/
theorem ringWrites_proper_iff (hsize : size ≤ 2 ^ 30) (hpos : 0 ≤ pos) (hle : pos ≤ size)
    (hlen : 0 < len) (hlt : len < size) :
    (∀ w ∈ ringWrites size pos len, w.Proper size) ↔ pos < size := by
  constructor
  · intro hall
    by_contra hge
    obtain rfl : pos = size := by omega
    obtain ⟨hend, hleft, -⟩ := cInt_transfer hsize hpos hle hlen (by omega)
    have hempty : (⟨0, size, 0⟩ : RingWrite) ∈ ringWrites size size len := by
      rw [ringWrites, hend, hleft, sub_self, if_pos (by omega)]
      exact List.mem_cons_self
    exact absurd (hall _ hempty).1 (lt_irrefl 0)
  · intro hin
    exact ringWrites_proper hsize hpos hin hlen hlt.le

theorem nextPos_range (hsize : size ≤ 2 ^ 30) (hpos : 0 ≤ pos) (hle : pos ≤ size)
    (hlen : 0 < len) (hlt : len < size) :
    0 < nextPos size pos len ∧ nextPos size pos len ≤ size := by
  obtain ⟨hend, hleft, hrest⟩ := cInt_transfer hsize hpos hle hlen (by omega)
  unfold nextPos
  rw [hend, hleft, hrest]
  split_ifs <;> omega

/-! ## Runs -/

/-- What every run with regular logs keeps. -/
structure Inv (h : Head) : Prop where
  ring_size : IsRingSize h.remote.size
  wr_nonneg : 0 ≤ h.remote.wrPointer
  wr_le : h.remote.wrPointer ≤ h.remote.size
  queued : ∀ e ∈ h.sendingQueue, 0 < e.1.mateData.valueLength ∧
    e.1.mateData.valueLength < h.remote.size
  proper : WritesProper h

/-- An accepted regular log keeps the invariant. -/
theorem Inv.accept {r : ℤ} (hi : Inv h) (hreg : Regular h log)
    (hp : passes h.remote (some r) (cInt log.totalLen) = true) {q : List (HeadLog × ℤ)}
    (hq : ∀ e ∈ q, e ∈ h.sendingQueue ∨ e.1 = log) :
    Inv { accept h log r with sendingQueue := q } := by
  obtain ⟨hend, hmate, hdata, hsum⟩ := hreg
  have hsize := hi.ring_size.le
  have hfree : cInt log.totalLen < h.remote.size := by
    obtain ⟨r', -, hle⟩ := passes_iff.mp hp
    exact lt_of_le_of_lt hle (h.remote.withRd r').freeSize_lt
  -- the two lengths together fit the ring
  rw [← cInt_lens, cInt_of_range (by omega) hsum] at hfree
  have hpos := hi.wr_nonneg
  have hwr := hi.wr_le
  obtain ⟨hpos', hwr'⟩ := nextPos_range hsize hpos hwr hmate (by omega)
  obtain ⟨hpos'', hwr''⟩ := nextPos_range hsize hpos'.le hwr' hdata (by omega)
  constructor
  · exact hi.ring_size
  · exact hpos''.le
  · exact hwr''
  · intro e he
    rcases hq e he with he | he
    · exact hi.queued e he
    · have hvalue : cInt log.valueLen < h.remote.size := by omega
      rw [he, valueLength_mateData]
      exact ⟨hdata, hvalue⟩
  · intro w hw
    rcases List.mem_append.mp hw with hw | hw
    · exact hi.proper w hw
    · exact (ringWrites_proper_iff hsize hpos hwr hmate (by omega)).mpr hend w hw

/-- `NIC_thread` writes to a masked position. -/
theorem Inv.nicThread (hi : Inv h) (hstep : nicThread h = some t) : Inv t := by
  unfold RemoteWrites.nicThread at hstep
  cases hq : h.sendingQueue with
  | nil => simp [hq] at hstep
  | cons e rest =>
    obtain ⟨hlen, hlt⟩ := hi.queued e (by simp [hq])
    rw [hq] at hstep
    cases hstep
    constructor
    · exact hi.ring_size
    · exact hi.wr_nonneg
    · exact hi.wr_le
    · intro e' he'
      exact hi.queued e' (by simp [hq, he'])
    · intro w hw
      rcases List.mem_append.mp hw with hw | hw
      · exact hi.proper w hw
      · exact ringWrites_proper hi.ring_size.le (Int.natCast_nonneg _)
          (by exact_mod_cast mask_lt hi.ring_size _) hlen hlt.le w hw

theorem Inv.step {a : Action} (hi : Inv h) (hc : AcceptsRegular h a)
    (hstep : head.step h a = some t) : Inv t := by
  cases a with
  | writeLog log allocated rd rd' =>
    obtain ⟨⟨t', ok⟩, hcall, rfl⟩ := Option.map_eq_some_iff.mp hstep
    rcases headNodeWriteLog_cases hcall with ⟨r, rfl⟩ | ⟨-, hp, r, q, rfl, hp', rfl, hq⟩
    · exact ⟨hi.ring_size, hi.wr_nonneg, hi.wr_le, hi.queued, hi.proper⟩
    · exact hi.accept (hc hp hp') hp' hq
  | send => exact hi.nicThread hstep

/-- In every run that accepts regular logs only, each write into the ring is proper. -/
theorem writesProper_of_acceptsRegular {h : Head} (hrun : Reach head AcceptsRegular h) :
    WritesProper h := by
  have hi : Inv h := by
    refine hrun.invariant (fun s hs => ?_) (fun s a t hs hc ht => hs.step hc ht)
    obtain ⟨hsize, hwr, hq, hw⟩ := hs
    constructor
    · exact hsize
    · exact hwr.ge
    · rw [hwr]
      exact Int.natCast_nonneg _
    · simp [hq]
    · simp [WritesProper, hw]
  exact hi.proper

/-- A string of `n` bytes. -/
def repeated (n : ℕ) : CString where
  bytes := List.replicate n 1
  nul_free := by simp [List.mem_replicate]

def emptyHead : Head := ⟨⟨0, 0, 64, by norm_num⟩, [], [], []⟩

theorem reach_emptyHead (cond : Head → Action → Prop) : Reach head cond emptyHead :=
  .start ⟨⟨6, by norm_num, rfl⟩, rfl, rfl, rfl⟩

/-- A log with a key of one byte, accepted while the reader stands at `rd`. -/
def writeAt (rd : ℤ) (valueLen : ℕ) : Action :=
  .writeLog (.plain (repeated 1) (repeated valueLen)) true (some rd) (some rd)

/-- A test that accepts no fewer calls than `AcceptsRegular` requires. -/
def regularTest (h : Head) : Action → Bool
  | .writeLog log _ _ _ => Regular h log
  | .send => true

theorem acceptsRegular_of_test (h : Head) (a : Action) (ht : regularTest h a = true) :
    AcceptsRegular h a := by
  cases a with
  | writeLog log allocated rd rd' => exact fun _ _ => of_decide_eq_true ht
  | send => trivial

/-- The second log crosses the ring end with its header, the third with its value. -/
def wrappingRun : List Action := [writeAt 0 7, .send, writeAt 43 7, .send, writeAt 22 14, .send]

theorem writesProper_of_acceptsRegular_wrappingRun :
    ∃ h, h.ringWrites.length = 8 ∧ WritesProper h := by
  obtain ⟨h, -, hrun, hlength⟩ := reach_of_run_any acceptsRegular_of_test (reach_emptyHead _)
    (show (run head regularTest emptyHead wrappingRun).any
      (fun h => h.ringWrites.length == 8) = true by decide +kernel)
  exact ⟨h, beq_iff_eq.mp hlength, writesProper_of_acceptsRegular hrun⟩

/-- The third log ends at the ring end, so the fourth begins with an empty write there. -/
def ringEndRun : List Action :=
  [writeAt 0 7, .send, writeAt 43 7, .send, writeAt 22 6, .send, writeAt 0 7]

theorem not_writesProper_ringEnd : ¬ ∀ h, Reachable head h → WritesProper h := by
  intro hclaim
  obtain ⟨h, -, hrun, hempty⟩ := reach_of_run_any (fun _ _ _ => trivial) (reach_emptyHead _)
    (show (run head (fun _ _ => true) emptyHead ringEndRun).any
      (fun h => h.ringWrites.contains ⟨0, 64, 0⟩) = true by decide +kernel)
  have hproper := hclaim h hrun ⟨0, 64, 0⟩ (List.contains_iff_mem.mp hempty)
  exact absurd hproper.1 (lt_irrefl 0)

/-! ## The space check -/

theorem Publication.sound_of_fits {p : Publication} (hfits : p.log.Fits)
    (hfree : cInt p.log.totalLen ≤ p.freeSpace) : p.Sound := by
  rw [cInt_natCast hfits] at hfree
  exact ⟨hfree, HeadLog.mateData_of_fits hfits⟩

/-- No ring has room for a log whose length is not an `int`. -/
theorem Publication.not_sound_of_not_fits {rb : RemoteInts} (hfits : ¬ log.Fits) :
    ¬ Publication.Sound ⟨log, rb.freeSize⟩ := by
  intro hsound
  have hle : (log.totalLen : ℤ) ≤ rb.freeSize := hsound.1
  have hlt := rb.freeSize_lt
  have hint := rb.size_int
  have hge : 2 ^ 31 ≤ log.totalLen := not_lt.mp hfits
  omega

theorem not_spaceChecked (hfits : ¬ log.Fits)
    (hp : passes h.remote rd (cInt log.totalLen) = true)
    (hp' : passes h.remote rd' (cInt log.totalLen) = true) :
    ¬ SpaceChecked h log true rd rd' := by
  intro hsound
  obtain ⟨r, rfl, -⟩ := passes_iff.mp hp'
  obtain ⟨q, ok, hcall, -⟩ := headNodeWriteLog_of_passes hp hp'
  exact Publication.not_sound_of_not_fits hfits (hsound _ ok hcall _ rfl)

/-- A call publishes soundly exactly when the total length is an `int`, memory is missing or
one of the two checks refuses the converted length. -/
theorem spaceChecked_iff (h : Head) (log : HeadLog) (allocated : Bool) (rd rd' : Option ℤ) :
    SpaceChecked h log allocated rd rd' ↔
      log.Fits ∨ allocated = false ∨ passes h.remote rd (cInt log.totalLen) = false ∨
        passes h.remote rd' (cInt log.totalLen) = false := by
  constructor
  · intro hsound
    by_contra hnot
    simp only [not_or, Bool.not_eq_false] at hnot
    obtain ⟨hfits, rfl, hp, hp'⟩ := hnot
    exact not_spaceChecked hfits hp hp' hsound
  · intro hcond t ok hcall p hpub
    rcases headNodeWriteLog_cases hcall with ⟨r, rfl⟩ | ⟨halloc, hp, r, q, rfl, hp', rfl, -⟩
    · simp at hpub
    obtain rfl : (⟨log, (h.remote.withRd r).freeSize⟩ : Publication) = p := by
      simpa [accept] using hpub
    have hfits : log.Fits := by simpa [halloc, hp, hp'] using hcond
    obtain ⟨r', hr', hle⟩ := passes_iff.mp hp'
    cases hr'
    exact Publication.sound_of_fits hfits hle

theorem totalLen_repeated (k v : ℕ) :
    (HeadLog.plain (repeated k) (repeated v)).totalLen = k + v + 35 := by
  simp only [HeadLog.totalLen, HeadLog.sendLen, HeadLog.keyLen, HeadLog.valueLen, HeadLog.plain,
    repeated, List.length_replicate, TAG, sizeofLogEntry]
  omega

/-- A value of 2^32 bytes counts as two bytes. -/
theorem not_spaceChecked_hugeValue : ¬ ∀ h log allocated rd rd',
    SpaceChecked h log allocated rd rd' := by
  intro hclaim
  obtain ⟨n, hn⟩ : ∃ n, n = 2 ^ 32 := ⟨_, rfl⟩
  have hlen := totalLen_repeated 1 n
  have hpass : passes emptyHead.remote (some 0)
      (cInt (HeadLog.plain (repeated 1) (repeated n)).totalLen) = true := by
    rw [hlen, hn]
    rfl
  have hfits : ¬ (HeadLog.plain (repeated 1) (repeated n)).Fits := by
    unfold HeadLog.Fits
    omega
  exact not_spaceChecked hfits hpass hpass (hclaim _ _ _ _ _)

/-! ## Lengths that are `int`s

With pointers in the ring and a total length that is an `int`, the calls are those of
`HeadCalls`, and the recorded writes are what changes the ring there. -/

/-- The ring after a transfer of `bs`. -/
def applyWrites (mem : ℕ → UInt8) (bs : List UInt8) (ws : List RingWrite) : ℕ → UInt8 :=
  ws.foldl (fun mem w =>
    writeBytes mem w.offset.toNat ((bs.drop w.source.toNat).take w.length.toNat)) mem

theorem applyWrites_ringWrites {size pos : ℕ} (hsize : size ≤ 2 ^ 30) (hpos : pos ≤ size)
    {bs : List UInt8} (hlen : bs.length < size) (mem : ℕ → UInt8) :
    applyWrites mem bs (ringWrites size pos bs.length) = circWrite mem size pos bs := by
  have hend : cInt ((pos : ℤ) + bs.length) = ((pos + bs.length : ℕ) : ℤ) := by
    rw [cInt_of_range (by omega) (by omega), Nat.cast_add]
  have hleft : cInt ((size : ℤ) - pos) = ((size - pos : ℕ) : ℤ) := by
    rw [cInt_of_range (by omega) (by omega), Nat.cast_sub hpos]
  unfold ringWrites circWrite
  rw [hend, hleft]
  by_cases hwrap : size < pos + bs.length
  · have hrest : cInt ((bs.length : ℤ) - ((size - pos : ℕ) : ℤ)) =
        ((bs.length - (size - pos) : ℕ) : ℤ) := by
      rw [cInt_of_range (by omega) (by omega)]
      omega
    have hall : (bs.drop (size - pos)).take (bs.length - (size - pos)) = bs.drop (size - pos) :=
      List.take_of_length_le (by rw [List.length_drop])
    rw [if_pos (by exact_mod_cast hwrap), if_pos hwrap]
    dsimp only
    rw [hrest]
    simp [applyWrites, hall]
  · rw [if_neg (by exact_mod_cast hwrap), if_neg hwrap]
    simp [applyWrites]

/-- `nextPos` on positions in the ring. -/
theorem nextPos_natCast {size pos len : ℕ} (hsize : size ≤ 2 ^ 30) (hpos : pos ≤ size)
    (hlen : len < size) :
    nextPos size pos len =
      ((if size < pos + len then len - (size - pos) else pos + len : ℕ) : ℤ) := by
  have hend : cInt ((pos : ℤ) + len) = (pos : ℤ) + len := cInt_of_range (by omega) (by omega)
  have hleft : cInt ((size : ℤ) - pos) = (size : ℤ) - pos :=
    cInt_of_range (by omega) (by omega)
  have hrest : cInt (len - ((size : ℤ) - pos)) = len - ((size : ℤ) - pos) :=
    cInt_of_range (by omega) (by omega)
  unfold nextPos
  rw [hend, hleft, hrest]
  split_ifs <;> omega

/-- The pointers of the two models. -/
structure SamePointers (s : HeadCalls.Head) (h : Head) : Prop where
  size : h.remote.size = s.remote.size
  wrPointer : h.remote.wrPointer = s.remote.wrPointer

theorem passes_eq_hasRoom {s : HeadCalls.Head} (hsame : SamePointers s h) (rd : ℕ) :
    passes h.remote (some (rd : ℤ)) (cInt log.totalLen) = HeadCalls.hasRoom s log (some rd) := by
  simp only [passes, checkRemoteSize, HeadCalls.hasRoom, LogBuffer.checkRemoteSize,
    RemoteInts.freeSize, RemoteInts.dataSize, Ringbuff.freeSize, Ringbuff.dataSize,
    RemoteInts.size_withRd, RemoteInts.wrPointer_withRd, hsame.size, hsame.wrPointer]
  rfl

/-- A log that is let pass moves the pointer and changes the ring as in `HeadCalls`. -/
theorem rbWriteMate_reserve {s : HeadCalls.Head} (hsame : SamePointers s h)
    (hsize : s.remote.size ≤ 2 ^ 30) (hpos : s.remote.wrPointer ≤ s.remote.size)
    (hfits : log.Fits) {rd : ℕ} (hroom : HeadCalls.hasRoom s log (some rd) = true) :
    ∃ ws, (rbWriteMate h log (some rd) (cInt log.sendLen) (cInt log.valueLen)).1.ringWrites =
        h.ringWrites ++ ws ∧
      (HeadCalls.reserve s log).ring.buff = applyWrites s.ring.buff log.mateBytes ws ∧
      (rbWriteMate h log (some rd) (cInt log.sendLen) (cInt log.valueLen)).1.remote.wrPointer =
        (HeadCalls.reserve s log).remote.wrPointer := by
  have hlt : log.totalLen < s.remote.size := HeadCalls.totalLen_lt hfits hroom
  have htotal : log.totalLen = log.sendLen + log.valueLen := rfl
  have hmate : cInt (log.sendLen : ℤ) = log.sendLen := cInt_natCast (by omega)
  have hdata : cInt (log.valueLen : ℤ) = log.valueLen := cInt_natCast (by omega)
  have hpass : passes h.remote (some (rd : ℤ)) (cInt log.totalLen) = true := by
    rw [passes_eq_hasRoom hsame, hroom]
  have hcall := rbWriteMate_of_passes h.remote.rdPointer hpass
  have hmateEnd := nextPos_natCast hsize hpos (show log.sendLen < s.remote.size by omega)
  rw [← hmate] at hmateEnd
  rw [show rbWriteMate h log (some (rd : ℤ)) (cInt log.sendLen) (cInt log.valueLen) = _ from hcall]
  refine ⟨_, rfl, ?_, ?_⟩
  · rw [hsame.size, hsame.wrPointer, hmate, ← log.length_mateBytes,
      applyWrites_ringWrites hsize hpos (by rw [log.length_mateBytes]; omega)]
    rfl
  · rw [accept, RemoteInts.wrPointer_withWr, hsame.size, hsame.wrPointer, hmateEnd, hdata,
      nextPos_natCast hsize (by split_ifs <;> omega) (by omega)]
    rfl

end RdmaMiddleware.RemoteWrites
