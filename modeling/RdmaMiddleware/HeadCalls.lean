import RdmaMiddleware.RingReservation
import RdmaMiddleware.UnlockQueue

/-!
# Whole calls of the head

`head_node_write_log` as one call. Two of its failure exits stand before anything is
written; the third one, a full `sending_queue`, stands behind the publication of the log.
-/
namespace RdmaMiddleware.HeadCalls
open CInt CircularMemory LogBuffer RingReservation UnlockQueue

/-- The writer's copy of the pointers, the ring of the next node, and `sending_queue`, which
holds logs with their `log_pos`. -/
structure Head where
  remote : RemoteRingbuff
  ring : LocalRingbuff
  sending : List (HeadLog × ℕ)

/-- `rb_write_mate` behind its size test: the metadata is written, the space of the value
reserved and the new write pointer published. -/
def reserve (s : Head) (log : HeadLog) : Head :=
  let size := s.remote.size
  let pos := s.remote.wrPointer
  let mateEnd := if size < pos + log.sendLen then log.sendLen - (size - pos)
    else pos + log.sendLen
  let next := if size < mateEnd + log.valueLen then log.valueLen - (size - mateEnd)
    else mateEnd + log.valueLen
  { s with
    remote := { s.remote with wrPointer := next }
    ring := { s.ring with
      wrPointer := next
      buff := circWrite s.ring.buff size pos log.mateBytes } }

/-- `rb_write_mate`, with `none` for -1; `rd` is what its `dhmp_read` delivers. What happens
to a log that passes the test and does not fit an `int` is not modelled. -/
def rbWriteMate (s : Head) (log : HeadLog) (rd : Option ℕ) : Option (Head × Option ℕ) :=
  let (remote, ok) := checkRemoteSize s.remote rd (cInt log.totalLen)
  if ok then
    if log.Fits then some (reserve { s with remote := remote } log, some remote.wrPointer)
    else none
  else some ({ s with remote := remote }, none)

def headNodeWriteLog (s : Head) (log : HeadLog) (rd rd' : Option ℕ) : Option (Head × Bool) :=
  let (remote, ok) := checkRemoteSize s.remote rd (cInt log.totalLen)
  if ok then
    match rbWriteMate { s with remote := remote } log rd' with
    | none => none
    | some (s, none) => some (s, false)
    | some (s, some logPos) =>
      match boundedPut QUEUE_SIZE s.sending (log, logPos) with
      | none => some (s, false)
      | some sending => some ({ s with sending := sending }, true)
  else some ({ s with remote := remote }, false)

/-! ## The property -/

/-- Only the cached `rd_pointer` may differ. -/
structure Untouched (s t : Head) : Prop where
  ring : t.ring = s.ring
  wr_pointer : t.remote.wrPointer = s.remote.wrPointer
  sending : t.sending = s.sending

/-- One log is reserved, published and enqueued. -/
structure WrittenOnce (log : HeadLog) (s t : Head) : Prop where
  wr_pointer_le : t.remote.wrPointer ≤ s.remote.size
  wr_pointer : t.remote.wrPointer % s.remote.size =
    (s.remote.wrPointer + log.totalLen) % s.remote.size
  mate : Holds t.ring.buff s.remote.size s.remote.wrPointer log.mateBytes
  other_bytes : ∀ c ∉ cells s.remote.size s.remote.wrPointer log.sendLen,
    t.ring.buff c = s.ring.buff c
  published : t.ring =
    { s.ring with wrPointer := t.remote.wrPointer, buff := t.ring.buff }
  enqueued : t.sending = s.sending ++ [(log, s.remote.wrPointer)]

/-- A call that returns false leaves no trace, one that returns true writes one log. -/
def NoTrace (s : Head) (log : HeadLog) (rd rd' : Option ℕ) : Prop :=
  ∃ t ok, headNodeWriteLog s log rd rd' = some (t, ok) ∧
    if ok then WrittenOnce log s t else Untouched s t

/-- `check_remote_size` finds room for the log. -/
def hasRoom (s : Head) (log : HeadLog) (rd : Option ℕ) : Bool :=
  (checkRemoteSize s.remote rd (cInt log.totalLen)).2

/-! ## Proof -/

/-- The state after a test has read `rd_pointer`. -/
def Head.withCache (s : Head) (cache : ℕ) : Head :=
  { s with remote := { s.remote with rdPointer := cache } }

variable {s : Head} {log : HeadLog} {rd rd' : Option ℕ}

/-- A second test with the same `rd_pointer` comes out like the first one. -/
theorem checkRemoteSize_again {rb : RemoteRingbuff} {p : ℕ} {len : ℤ}
    (h : (checkRemoteSize rb (some p) len).2 = true) :
    checkRemoteSize rb (some p) len = ({ rb with rdPointer := p }, true) ∧
      checkRemoteSize { rb with rdPointer := p } (some p) len =
        ({ rb with rdPointer := p }, true) :=
  ⟨Prod.ext rfl h, Prod.ext rfl h⟩

/-- The cached `rd_pointer` does not matter, since every test reads it anew. -/
theorem hasRoom_cache (s : Head) (log : HeadLog) (rd : Option ℕ) (cache : ℕ) :
    hasRoom (s.withCache cache) log rd = hasRoom s log rd := by
  cases rd <;> rfl

theorem checkRemoteSize_eq (s : Head) (log : HeadLog) (rd : Option ℕ) :
    ∃ cache, checkRemoteSize s.remote rd (cInt log.totalLen) =
      ({ s.remote with rdPointer := cache }, hasRoom s log rd) := by
  unfold hasRoom
  generalize cInt log.totalLen = len
  cases rd with
  | none => exact ⟨s.remote.rdPointer, rfl⟩
  | some p => exact ⟨p, rfl⟩

/-- With room, a log that fits an `int` is shorter than the ring. -/
theorem totalLen_lt (hfits : log.Fits) (hroom : hasRoom s log rd = true) :
    log.totalLen < s.remote.size := by
  cases rd with
  | none => cases hroom
  | some p =>
    have hlen : log.totalLen < 2 ^ 31 := hfits
    rw [hasRoom, cInt_natCast hlen] at hroom
    have hle : (log.totalLen : ℤ) ≤
        ({ s.remote with rdPointer := p } : RemoteRingbuff).freeSize := by
      simpa [checkRemoteSize] using hroom
    unfold Ringbuff.freeSize at hle
    dsimp only at hle
    omega

/-- The four ways through the call. -/
theorem headNodeWriteLog_cases (s : Head) (log : HeadLog) (rd rd' : Option ℕ) :
    ∃ cache, headNodeWriteLog s log rd rd' =
      if hasRoom s log rd && hasRoom s log rd' then
        if log.Fits then
          if s.sending.length = QUEUE_SIZE - 1 then
            some (reserve (s.withCache cache) log, false)
          else some ({ reserve (s.withCache cache) log with
            sending := s.sending ++ [(log, s.remote.wrPointer)] }, true)
        else none
      else some (s.withCache cache, false) := by
  obtain ⟨cache, hcheck⟩ := checkRemoteSize_eq s log rd
  by_cases hroom : hasRoom s log rd = true
  · obtain ⟨cache', hcheck'⟩ := checkRemoteSize_eq (s.withCache cache) log rd'
    rw [hasRoom_cache] at hcheck'
    simp only [Head.withCache] at hcheck'
    refine ⟨cache', ?_⟩
    simp only [headNodeWriteLog, hcheck, hroom, if_true, rbWriteMate, hcheck', Bool.true_and,
      Head.withCache]
    by_cases hroom' : hasRoom s log rd' = true
    · simp only [hroom', if_true]
      by_cases hfits : log.Fits
      · simp only [if_pos hfits, boundedPut]
        have hsending : (reserve (s.withCache cache') log).sending = s.sending := rfl
        unfold Head.withCache at hsending
        by_cases hfull : s.sending.length = QUEUE_SIZE - 1
        · simp only [hsending, if_pos hfull]
        · simp only [hsending, if_neg hfull]
      · simp only [if_neg hfits]
    · simp [hroom']
  · refine ⟨cache, ?_⟩
    simp [headNodeWriteLog, hcheck, hroom, Head.withCache]

theorem reserve_wrPointer (s : Head) (log : HeadLog) (hwr : s.remote.wrPointer ≤ s.remote.size)
    (hlen : log.totalLen ≤ s.remote.size) :
    (reserve s log).remote.wrPointer ≤ s.remote.size ∧
      (reserve s log).remote.wrPointer % s.remote.size =
        (s.remote.wrPointer + log.totalLen) % s.remote.size := by
  have htotal : log.totalLen = log.sendLen + log.valueLen := rfl
  obtain ⟨hle, hmod⟩ := pointer_advance hwr (show log.sendLen ≤ s.remote.size by omega)
  obtain ⟨hle', hmod'⟩ := pointer_advance hle (show log.valueLen ≤ s.remote.size by omega)
  refine ⟨hle', hmod'.trans ?_⟩
  rw [← Nat.mod_add_mod, hmod, Nat.mod_add_mod, htotal, Nat.add_assoc]

/-- The log stands reserved and published, whatever happens to it afterwards. -/
theorem writtenOnce_reserve (hsize : IsRingSize s.remote.size)
    (hwr : s.remote.wrPointer ≤ s.remote.size) (hlen : log.totalLen ≤ s.remote.size)
    (sending : List (HeadLog × ℕ)) (hsending : sending = s.sending ++ [(log, s.remote.wrPointer)])
    (cache : ℕ) :
    WrittenOnce log s { reserve (s.withCache cache) log with sending := sending } := by
  have htotal : log.totalLen = log.sendLen + log.valueLen := rfl
  obtain ⟨hle, hmod⟩ := reserve_wrPointer (s.withCache cache) log hwr hlen
  have hmate : log.mateBytes.length ≤ s.remote.size := by
    rw [log.length_mateBytes]
    omega
  refine ⟨hle, hmod, holds_circWrite hsize.pos hwr hmate _, ?_, rfl, hsending⟩
  rw [← log.length_mateBytes]
  exact (circWrite_agrees hsize.pos hwr hmate s.ring.buff).2

/-- A reservation moves the write pointer. -/
theorem reserve_not_untouched (hwr : s.remote.wrPointer ≤ s.remote.size)
    (hlen : log.totalLen < s.remote.size) (cache : ℕ) :
    ¬ Untouched s (reserve (s.withCache cache) log) := by
  intro h
  obtain ⟨-, hmod⟩ := reserve_wrPointer (s.withCache cache) log hwr hlen.le
  have hpos := totalLen_pos log
  rw [h.wr_pointer] at hmod
  have := eq_of_mod_eq s.remote.wrPointer le_rfl (by omega) (by omega)
    (show s.remote.wrPointer + log.totalLen < s.remote.wrPointer + s.remote.size by omega) hmod
  omega

/-- A log that has been published finds the queue full: the call returns false all the same. -/
theorem not_noTrace_of_full (hwr : s.remote.wrPointer ≤ s.remote.size)
    (hroom : hasRoom s log rd = true ∧ hasRoom s log rd' = true) (hfits : log.Fits)
    (hfull : s.sending.length = QUEUE_SIZE - 1) : ¬ NoTrace s log rd rd' := by
  obtain ⟨cache, hcall⟩ := headNodeWriteLog_cases s log rd rd'
  rintro ⟨t, ok, ht, hp⟩
  rw [hcall, if_pos (by rw [hroom.1, hroom.2]; rfl), if_pos hfits, if_pos hfull] at ht
  cases ht
  exact reserve_not_untouched hwr (totalLen_lt hfits hroom.1) cache hp

/-- A log of 37 bytes. -/
def keyValue : HeadLog := .plain letterK letterV

/-- The head has written `n` logs, of which none has been sent. -/
def unsentHead (n size : ℕ) : Head where
  remote := { wrPointer := 37 * n, rdPointer := 0, size := size }
  ring :=
    { wrPointer := 37 * n, rdPointer := 0, size := size, rdKeyPointer := 0, buff := fun _ => 0 }
  sending := (List.range n).map fun i => (keyValue, 37 * i)

/-- Steps of the writer thread one after the other. -/
def writerRun : Writer → LocalRingbuff → List WriterAction → Option (Writer × LocalRingbuff)
  | w, b, [] => some (w, b)
  | w, b, a :: as =>
    match writerStep w b a with
    | some (w, b) => writerRun w b as
    | none => none

/-- The steps of a call that finds room, the metadata being written in `chunks` parts. -/
def callSteps (log : HeadLog) (chunks : ℕ) : List WriterAction :=
  [.write log, .check true, .recheck true] ++ List.replicate chunks .writeMate ++
    [.advance, .publish]

variable {w w' : Writer} {b b' : LocalRingbuff}

theorem writerRun_cons {a : WriterAction} (h : writerStep w b a = some (w', b'))
    (as : List WriterAction) : writerRun w b (a :: as) = writerRun w' b' as := by
  simp only [writerRun, h]

/-- The one or two writes of the metadata. -/
theorem writerRun_writeMate (hlen : log.sendLen ≤ w.remote.size) {p : ℕ}
    (hpc : w.pc = .mateWriting log p p log.mateBytes) (as : List WriterAction) :
    ∃ chunks, writerRun w b (List.replicate chunks .writeMate ++ as) =
      writerRun { w with
        remote := { w.remote with wrPointer :=
          if w.remote.size < p + log.sendLen then log.sendLen - (w.remote.size - p)
          else p + log.sendLen }
        pc := .mateWritten log p }
        { b with buff := circWrite b.buff w.remote.size p log.mateBytes } as := by
  unfold circWrite
  rw [log.length_mateBytes]
  by_cases hwrap : w.remote.size < p + log.sendLen
  · refine ⟨2, ?_⟩
    have hfirst : writerStep w b .writeMate = some
        ({ w with pc := .mateWriting log p 0 (log.mateBytes.drop (w.remote.size - p)) },
          { b with buff := writeBytes b.buff p (log.mateBytes.take (w.remote.size - p)) }) := by
      simp only [writerStep, hpc, log.length_mateBytes, if_pos hwrap]
    have hrest : (log.mateBytes.drop (w.remote.size - p)).length =
        log.sendLen - (w.remote.size - p) := by
      rw [List.length_drop, log.length_mateBytes]
    rw [if_pos hwrap, if_pos hwrap]
    refine (writerRun_cons hfirst _).trans (writerRun_cons ?_ as)
    simp only [writerStep, hrest, Nat.zero_add]
    rw [if_neg (by omega)]
  · refine ⟨1, ?_⟩
    rw [if_neg hwrap, if_neg hwrap]
    refine writerRun_cons ?_ as
    simp only [writerStep, hpc, log.length_mateBytes, if_neg hwrap]

/-- A call that finds room is the sequence of its steps with no step of the reader between. -/
theorem writerRun_callSteps (hidle : w.pc = .idle) (hfits : log.Fits)
    (hroom : hasRoom ⟨w.remote, b, []⟩ log (some b.rdPointer) = true) :
    ∃ chunks, writerRun w b (callSteps log chunks) =
      let s := reserve ((⟨w.remote, b, []⟩ : Head).withCache b.rdPointer) log
      some ({ w with
        remote := s.remote
        pc := .enqueueing
        logs := w.logs ++ [(log, w.remote.wrPointer)]
        published := w.logs.length + 1 }, s.ring) := by
  have hlen : log.totalLen < w.remote.size := totalLen_lt hfits hroom
  have htotal : log.totalLen = log.sendLen + log.valueLen := rfl
  have hint : cInt (log.totalLen : ℤ) = log.totalLen := cInt_natCast hfits
  obtain ⟨hcheck, hrecheck⟩ := checkRemoteSize_again hroom
  rw [hint] at hrecheck
  have hwrite : writerStep w b (.write log) = some ({ w with pc := .started log }, b) := by
    simp only [writerStep, hidle]
  have hstarted : writerStep { w with pc := .started log } b (.check true) = some
      ({ w with
        remote := { w.remote with rdPointer := b.rdPointer }
        pc := .checked log }, b) := by
    simp only [writerStep, if_true, hcheck]
  have hchecked : writerStep { w with
        remote := { w.remote with rdPointer := b.rdPointer }
        pc := .checked log } b (.recheck true) = some
      ({ w with
        remote := { w.remote with rdPointer := b.rdPointer }
        pc := .mateWriting log w.remote.wrPointer w.remote.wrPointer log.mateBytes }, b) := by
    simp only [writerStep, if_true, hrecheck, if_pos hfits]
  obtain ⟨chunks, hmate⟩ := writerRun_writeMate (w := { w with
      remote := { w.remote with rdPointer := b.rdPointer }
      pc := .mateWriting log w.remote.wrPointer w.remote.wrPointer log.mateBytes }) (b := b)
    (show log.sendLen ≤ w.remote.size by omega) rfl [.advance, .publish]
  refine ⟨chunks, ?_⟩
  rw [callSteps, List.append_assoc, List.cons_append, List.cons_append, List.cons_append,
    List.nil_append, writerRun_cons hwrite, writerRun_cons hstarted, writerRun_cons hchecked,
    hmate]
  refine (writerRun_cons rfl _).trans ((writerRun_cons rfl _).trans ?_)
  rw [writerRun, List.length_append, List.length_singleton]
  rfl

end RdmaMiddleware.HeadCalls
