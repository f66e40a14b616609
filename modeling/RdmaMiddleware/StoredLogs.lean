import RdmaMiddleware.RingReservation
import RdmaMiddleware.ReaderQueues

/-!
# Logs in the memory of the second node

What the steps of the head and of the reader do to the bytes of the logs in the ring:
which window positions a write can touch, and where the reader's entries keep the key
and the value of a log.
-/
namespace RdmaMiddleware.Chain
open CInt CircularMemory LogBuffer MidHashmap UnlockQueue TransitionSystem RingReservation

variable {N : ℕ} {w w' : Writer} {b b' : LocalRingbuff} {pos freed : ℕ} {live : List LogEntry}

/-! ## The writer's writes -/

/-- The log for which the size test in `rb_write_mate` is about to succeed. -/
def reserving (w : Writer) (b : LocalRingbuff) : WriterAction → Option HeadLog
  | .recheck readOk =>
    match w.pc with
    | .checked log =>
      if (checkRemoteSize w.remote (if readOk then some b.rdPointer else none)
          log.totalLen).2 then some log
      else none
    | _ => none
  | _ => none

/-- What a step of the writer does to its logs and to the ring bytes. -/
inductive WriterEffect (N : ℕ) (w : Writer) (b : LocalRingbuff) (a : WriterAction) :
    Writer → (ℕ → UInt8) → Prop
  | quiet {w' : Writer} (hlogs : w'.logs = w.logs)
      (hcur : w'.pc.current = none ∨ w'.pc.current = w.pc.current) :
      WriterEffect N w b a w' b.buff
  | reserve {w' : Writer} {log : HeadLog} {p : ℕ} (hlogs : w'.logs = w.logs)
      (hres : reserving w b a = some log) (hnew : w'.pc.current = some (log, p)) :
      WriterEffect N w b a w' b.buff
  | chunk {w' : Writer} {l : HeadLog × ℕ} {x : ℕ} {bs : List UInt8} (hlogs : w'.logs = w.logs)
      (hcur : w.pc.current = some l) (hnew : w'.pc.current = some l)
      (hx : offset w.logs w.logs.length ≤ x)
      (hx' : x + bs.length ≤ offset w.logs w.logs.length + l.1.sendLen)
      (hfit : x % N + bs.length ≤ N) :
      WriterEffect N w b a w' (writeBytes b.buff (x % N) bs)
  | count {w' : Writer} {l : HeadLog × ℕ} (hcur : w.pc.current = some l)
      (hnew : w'.pc.current = none) (hlogs : w'.logs = w.logs ++ [l]) :
      WriterEffect N w b a w' b.buff

theorem writerEffect_of_step (h : RingInv N w b pos freed live) {a : WriterAction}
    (ht : writerStep w b a = some (w', b')) : WriterEffect N w b a w' b'.buff := by
  cases a with
  | write log =>
    cases hpc : w.pc with
    | idle =>
      simp only [writerStep, hpc, Option.some.injEq, Prod.mk.injEq] at ht
      obtain ⟨rfl, rfl⟩ := ht
      exact .quiet rfl (.inl rfl)
    | _ => simp [writerStep, hpc] at ht
  | check readOk =>
    cases hpc : w.pc with
    | started log =>
      simp only [writerStep, hpc, Option.some.injEq, Prod.mk.injEq] at ht
      obtain ⟨rfl, rfl⟩ := ht
      refine .quiet rfl (.inl ?_)
      simp only
      split_ifs <;> rfl
    | _ => simp [writerStep, hpc] at ht
  | recheck readOk =>
    cases hpc : w.pc with
    | checked log =>
      simp only [writerStep, hpc] at ht
      by_cases hfits : log.Fits
      · rw [if_pos hfits, Option.some.injEq, Prod.mk.injEq] at ht
        obtain ⟨rfl, rfl⟩ := ht
        by_cases hok : (checkRemoteSize w.remote (if readOk then some b.rdPointer else none)
            log.totalLen).2 = true
        · have hres : reserving w b (.recheck readOk) = some log := by
            simp only [reserving, hpc, hok, if_true]
          exact .reserve rfl hres (by simp only [hok, if_true]; rfl)
        · refine .quiet rfl (.inl ?_)
          simp only [hok]
          rfl
      · rw [if_neg hfits] at ht
        cases ht
    | _ => simp [writerStep, hpc] at ht
  | writeMate =>
    cases hpc : w.pc with
    | mateWriting log logPos p rest =>
      have hinv := h.pc_inv
      have hN := h.size_pos
      simp only [PcInv, hpc] at hinv
      obtain ⟨_, _, _, written, hbytes, hp, hpmod, _⟩ := hinv
      have hlen : written.length + rest.length = log.sendLen := by
        rw [← log.length_mateBytes, hbytes, List.length_append]
      have hcur : w.pc.current = some (log, logPos) := by rw [hpc]; rfl
      simp only [writerStep, hpc] at ht
      split_ifs at ht with hwrap
      · obtain ⟨rfl, rfl⟩ := Prod.mk.inj (Option.some.inj ht)
        rw [h.remote_size] at hwrap ⊢
        obtain ⟨hfit, heq⟩ := writeBytes_pos hN b.buff (rest.take (N - p)) hpmod
          (by simp; omega)
        simp only [heq]
        exact .chunk (l := (log, logPos)) rfl hcur rfl (by omega) (by simp; omega) hfit
      · obtain ⟨rfl, rfl⟩ := Prod.mk.inj (Option.some.inj ht)
        rw [h.remote_size] at hwrap
        obtain ⟨hfit, heq⟩ := writeBytes_pos hN b.buff rest hpmod (by omega)
        simp only [heq]
        exact .chunk (l := (log, logPos)) rfl hcur rfl (by omega) (by simp; omega) hfit
    | _ => simp [writerStep, hpc] at ht
  | advance =>
    cases hpc : w.pc with
    | mateWritten log logPos =>
      simp only [writerStep, hpc, Option.some.injEq, Prod.mk.injEq] at ht
      obtain ⟨rfl, rfl⟩ := ht
      exact .count (l := (log, logPos)) (by rw [hpc]; rfl) rfl rfl
    | _ => simp [writerStep, hpc] at ht
  | publish =>
    cases hpc : w.pc with
    | publishing =>
      simp only [writerStep, hpc, Option.some.injEq, Prod.mk.injEq] at ht
      obtain ⟨rfl, rfl⟩ := ht
      exact .quiet rfl (.inl rfl)
    | _ => simp [writerStep, hpc] at ht

/-- The logs that can have been put on `sending_queue`. -/
def handedBound (w : Writer) : ℕ :=
  match w.pc with
  | .publishing | .enqueueing => w.logs.length - 1
  | _ => w.logs.length

theorem handedBound_le (w : Writer) : handedBound w ≤ w.logs.length := by
  unfold handedBound
  split <;> omega

theorem handedBound_mono {a : WriterAction} (ht : writerStep w b a = some (w', b')) :
    handedBound w ≤ handedBound w' := by
  obtain ⟨⟨ls, hlogs⟩, _⟩ := writerStep_frame ht
  have hlen : w'.logs.length = w.logs.length + ls.length := by rw [hlogs, List.length_append]
  cases a <;> cases hpc : w.pc <;> simp only [writerStep, hpc, reduceCtorEq] at ht
  case advance.mateWritten =>
    cases ht
    simp [handedBound, hpc]
  case publish.publishing =>
    cases ht
    simp [handedBound, hpc]
  case writeMate.mateWriting =>
    split_ifs at ht <;> cases ht <;> simp [handedBound, hpc]
  case recheck.checked readOk log =>
    by_cases hfits : log.Fits
    · rw [if_pos hfits] at ht
      cases ht
      simp only [handedBound, hpc]
      split_ifs <;> simp
    · rw [if_neg hfits] at ht
      cases ht
  case check.started =>
    cases ht
    simp only [handedBound, hpc]
    split_ifs <;> simp
  case write.idle =>
    cases ht
    simp [handedBound, hpc]

/-! ## Tags and values in the ring -/

/-- The stream position of the tag of log `j`. -/
def tagPos (logs : List (HeadLog × ℕ)) (j : ℕ) (l : HeadLog × ℕ) : ℕ :=
  offset logs j + l.1.totalLen - 1

/-- Of the logs that are not freed, those whose value has been written (`done`) have it in
the ring, and no other has a tag that reads 1. -/
structure RingBytes (N : ℕ) (w : Writer) (done : List ℕ) (freed : ℕ) (buff : ℕ → UInt8) :
    Prop where
  tag : ∀ (j : ℕ) (l : HeadLog × ℕ), freed ≤ j → w.logs[j]? = some l → j ∉ done →
    buff (tagPos w.logs j l % N) ≠ 1
  tag_current : ∀ l, w.pc.current = some l →
    buff (tagPos w.logs w.logs.length l % N) ≠ 1
  value : ∀ (j : ℕ) (l : HeadLog × ℕ), freed ≤ j → w.logs[j]? = some l → j ∈ done →
    Holds buff N (offset w.logs j + l.1.sendLen) l.1.valueBytes

variable {done : List ℕ} {buff buff' : ℕ → UInt8}

theorem RingBytes.free (h : RingBytes N w done freed buff) :
    RingBytes N w done (freed + 1) buff where
  tag := fun j l hj => h.tag j l (by omega)
  tag_current := h.tag_current
  value := fun j l hj => h.value j l (by omega)

/-- The writer disturbs no tag and no value, provided a reserved tag cell is not 1. -/
theorem RingBytes.writer (hring : RingInv N w b pos freed live)
    (h : RingBytes N w done freed b.buff) (hdone : ∀ id ∈ done, id < w.logs.length)
    {a : WriterAction} (he : WriterEffect N w b a w' buff')
    (hfresh : ∀ log, reserving w b a = some log →
      b.buff ((offset w.logs w.logs.length + log.totalLen - 1) % N) ≠ 1) :
    RingBytes N w' done freed buff' := by
  cases he with
  | quiet hlogs hcur =>
    refine ⟨by rw [hlogs]; exact h.tag, ?_, by rw [hlogs]; exact h.value⟩
    intro l hl
    rw [hlogs]
    rcases hcur with hcur | hcur
    · rw [hcur] at hl
      cases hl
    · exact h.tag_current l (hcur ▸ hl)
  | reserve hlogs hres hnew =>
    refine ⟨by rw [hlogs]; exact h.tag, ?_, by rw [hlogs]; exact h.value⟩
    intro l hl
    rw [hnew] at hl
    cases hl
    rw [hlogs]
    exact hfresh _ hres
  | @chunk c x bs hlogs hcur hnew hx hx' hfit =>
    have hwin := hring.window
    rw [claimedBytes_of_some hcur] at hwin
    have hfreed := hring.freed_le
    have hc : c.1.totalLen = c.1.sendLen + c.1.valueLen := rfl
    have hv := c.1.valueLen_ge
    refine ⟨?_, ?_, ?_⟩
    · rw [hlogs]
      intro j l hj hl hnot
      have hend := offset_add_le hl (List.getElem?_eq_some_iff.mp hl).1
      have hj' := offset_mono w.logs hj
      have hpos := totalLen_pos l.1
      unfold tagPos
      rw [write_at_other (offset w.logs freed) b.buff bs hfit (by omega) (by omega) (by omega)
        (by omega) (.inl (by omega))]
      exact h.tag j l hj hl hnot
    · intro l hl
      rw [hnew] at hl
      cases hl
      rw [hlogs]
      unfold tagPos
      rw [write_at_other (offset w.logs freed) b.buff bs hfit (by omega) (by omega) (by omega)
        (by omega) (.inr (by omega))]
      exact h.tag_current c hcur
    · rw [hlogs]
      intro j l hj hl hmem
      have hend := offset_add_le hl (List.getElem?_eq_some_iff.mp hl).1
      have hj' := offset_mono w.logs hj
      have hl' : l.1.totalLen = l.1.sendLen + l.1.valueLen := rfl
      exact (h.value j l hj hl hmem).write_other (offset w.logs freed) hfit (by omega) (by omega)
        (by omega) (by rw [HeadLog.length_valueBytes]; omega)
        (.inl (by rw [HeadLog.length_valueBytes]; omega))
  | @count c hcur hnew hlogs =>
    have hsplit : ∀ (j : ℕ) (l : HeadLog × ℕ), w'.logs[j]? = some l →
        w.logs[j]? = some l ∧ offset w'.logs j = offset w.logs j ∨
          j = w.logs.length ∧ l = c ∧ offset w'.logs j = offset w.logs j := by
      intro j l hl
      rw [hlogs] at hl ⊢
      rcases getElem?_concat_cases hl with hl | ⟨rfl, rfl⟩
      · exact .inl ⟨hl, offset_append (List.getElem?_eq_some_iff.mp hl).1.le _⟩
      · exact .inr ⟨rfl, rfl, offset_append le_rfl _⟩
    refine ⟨?_, ?_, ?_⟩
    · intro j l hj hl hnot
      unfold tagPos
      rcases hsplit j l hl with ⟨hl', hoff⟩ | ⟨rfl, rfl, hoff⟩
      · rw [hoff]
        exact h.tag j l hj hl' hnot
      · rw [hoff]
        exact h.tag_current l hcur
    · intro l hl
      rw [hnew] at hl
      cases hl
    · intro j l hj hl hmem
      rcases hsplit j l hl with ⟨hl', hoff⟩ | ⟨rfl, rfl, hoff⟩
      · rw [hoff]
        exact h.value j l hj hl' hmem
      · have := hdone _ hmem
        omega

/-- A value write changes tag and value of its own log only. -/
theorem RingBytes.value_write (h : RingBytes N w done freed b.buff) (done' : List ℕ)
    (hring : RingInv N w b pos freed live) {j : ℕ} {l : HeadLog × ℕ}
    (hj : freed ≤ j) (hl : w.logs[j]? = some l) {x : ℕ} {bs : List UInt8}
    (hx : offset w.logs j + l.1.sendLen ≤ x)
    (hx' : x + bs.length ≤ offset w.logs j + l.1.totalLen) (hfit : x % N + bs.length ≤ N)
    (hdone : ∀ k, k ≠ j → (k ∈ done' ↔ k ∈ done))
    (htag : j ∉ done' → writeBytes b.buff (x % N) bs (tagPos w.logs j l % N) ≠ 1)
    (hvalue : j ∈ done' →
      Holds (writeBytes b.buff (x % N) bs) N (offset w.logs j + l.1.sendLen) l.1.valueBytes) :
    RingBytes N w done' freed (writeBytes b.buff (x % N) bs) := by
  have hlt := (List.getElem?_eq_some_iff.mp hl).1
  have hend := offset_add_le hl hlt
  have hwin := hring.end_lt
  have hclaim := hring.window
  have hfreed := offset_mono w.logs hj
  have hout : ∀ (k : ℕ) (m : HeadLog × ℕ), k ≠ j → w.logs[k]? = some m →
      offset w.logs k + m.1.totalLen ≤ x ∨ x + bs.length ≤ offset w.logs k := by
    intro k m hk hm
    rcases Nat.lt_or_gt_of_ne hk with hkj | hkj
    · have := offset_add_le hm hkj
      omega
    · have := offset_add_le hl hkj
      omega
  refine ⟨?_, ?_, ?_⟩
  · intro k m hk hm hnot
    by_cases hkj : k = j
    · subst hkj
      obtain rfl : m = l := Option.some.inj (hm.symm.trans hl)
      exact htag hnot
    · have hmend := offset_add_le hm (List.getElem?_eq_some_iff.mp hm).1
      have hk' := offset_mono w.logs hk
      have hpos := totalLen_pos m.1
      have := hout k m hkj hm
      unfold tagPos
      rw [write_at_other (offset w.logs freed) b.buff bs hfit (by omega) (by omega) (by omega)
        (by omega) (by omega)]
      exact h.tag k m hk hm (fun hmem => hnot ((hdone k hkj).mpr hmem))
  · intro c hc
    rw [claimedBytes_of_some hc] at hclaim
    have hpos := totalLen_pos c.1
    unfold tagPos
    rw [write_at_other (offset w.logs freed) b.buff bs hfit (by omega) (by omega) (by omega)
      (by omega) (by omega)]
    exact h.tag_current c hc
  · intro k m hk hm hmem
    by_cases hkj : k = j
    · subst hkj
      obtain rfl : m = l := Option.some.inj (hm.symm.trans hl)
      exact hvalue hmem
    · have hmend := offset_add_le hm (List.getElem?_eq_some_iff.mp hm).1
      have hk' := offset_mono w.logs hk
      have hm' : m.1.totalLen = m.1.sendLen + m.1.valueLen := rfl
      have := hout k m hkj hm
      exact (h.value k m hk hm ((hdone k hkj).mp hmem)).write_other (offset w.logs freed) hfit
        (by omega) (by omega) (by omega) (by rw [HeadLog.length_valueBytes]; omega)
        (by rw [HeadLog.length_valueBytes]; omega)

/-! ## Keys and values of entries -/

/-- The entry of the log at stream position `x` with its key, in the ring or copied. -/
def KeyStored (N x : ℕ) (keyCopies : ℕ → Option (List UInt8)) (j : ℕ) (e : LogEntry)
    (log : HeadLog) : Prop :=
  e.mateData = log.mateData ∧ e.logPos = x % N ∧
    if e.keyIsCut then e.keyAddr = some (.keyCopy j) ∧ keyCopies j = some log.keyBytes
    else e.keyAddr = some (.ring ((x + sizeofLogEntry) % N)) ∧
      (x + sizeofLogEntry) % N + log.keyLen < N

/-- The value of an entry that has been moved to `executing_queue`. -/
def ValueStored (N x : ℕ) (valueCopies : ℕ → Option (List UInt8)) (j : ℕ) (e : LogEntry)
    (log : HeadLog) : Prop :=
  if e.valueIsCut then e.valueAddr = some (.valueCopy j) ∧ valueCopies j = some log.valueBytes
  else e.valueAddr = some (.ring ((x + log.sendLen) % N)) ∧
    (x + log.sendLen) % N + log.valueLen < N

variable {r : Receiver}

theorem bytes_ring (r : Receiver) (p len : ℕ) :
    r.bytes (.ring p) len = readBytes r.ring.buff p len := by
  simp [Receiver.bytes, Receiver.byteAt, readBytes]

theorem bytes_keyCopy {j : ℕ} {bs : List UInt8} (h : r.keyCopies j = some bs) :
    r.bytes (.keyCopy j) bs.length = bs := by
  apply List.ext_getElem (by simp [Receiver.bytes])
  intro i hi hi'
  simp [Receiver.bytes, Receiver.byteAt, readBytes, h, hi']

theorem bytes_valueCopy {j : ℕ} {bs : List UInt8} (h : r.valueCopies j = some bs) :
    r.bytes (.valueCopy j) bs.length = bs := by
  apply List.ext_getElem (by simp [Receiver.bytes])
  intro i hi hi'
  simp [Receiver.bytes, Receiver.byteAt, readBytes, h, hi']

/-- A string stored at a place where it does not wrap. -/
theorem bytes_ring_of_holds {x : ℕ} {bs : List UInt8} (h : Holds r.ring.buff N x bs)
    (hfit : x % N + bs.length ≤ N) : r.bytes (.ring (x % N)) bs.length = bs := by
  rw [bytes_ring, ← circRead_of_fit _ hfit, h.circRead_eq]

theorem holds_key {x : ℕ} {log : HeadLog} (h : Holds buff N x log.mateBytes) :
    Holds buff N (x + sizeofLogEntry) log.keyBytes := by
  have hkey := (holds_append.mp h).2
  have hlen : (log.mateData.encode ++ log.rest.toList).length = sizeofLogEntry := by
    simp [sizeofLogMateData, sizeofLogEntry]
  rwa [hlen] at hkey

theorem keyLength_toNat {log : HeadLog} (h : log.Fits) :
    log.mateData.keyLength.toNat = log.keyLen := by
  rw [HeadLog.mateData_of_fits h, Int.toNat_natCast]

theorem valueLength_toNat {log : HeadLog} (h : log.Fits) :
    log.mateData.valueLength.toNat = log.valueLen := by
  rw [HeadLog.mateData_of_fits h, Int.toNat_natCast]

theorem KeyStored.keyBytes_eq {x j : ℕ} {e : LogEntry} {log : HeadLog} (hfits : log.Fits)
    (h : KeyStored N x r.keyCopies j e log) (hmate : Holds r.ring.buff N x log.mateBytes) :
    r.keyBytes e = log.keyBytes := by
  obtain ⟨hm, _, hkey⟩ := h
  rw [Receiver.keyBytes, hm, keyLength_toNat hfits, ← log.length_keyBytes, Receiver.getKeyAddr]
  split_ifs at hkey
  · rw [hkey.1, Option.getD_some, bytes_keyCopy hkey.2]
  · rw [hkey.1, Option.getD_some]
    exact bytes_ring_of_holds (holds_key hmate) (by rw [log.length_keyBytes]; omega)

theorem ValueStored.valueBytes_eq {x j : ℕ} {e : LogEntry} {log : HeadLog} (hfits : log.Fits)
    (hm : e.mateData = log.mateData) (h : ValueStored N x r.valueCopies j e log)
    (hvalue : Holds r.ring.buff N (x + log.sendLen) log.valueBytes) :
    r.valueBytes e = log.valueBytes := by
  rw [Receiver.valueBytes, hm, valueLength_toNat hfits, ← log.length_valueBytes,
    Receiver.getValueAddr]
  unfold ValueStored at h
  split_ifs at h
  · rw [h.1, Option.getD_some, bytes_valueCopy h.2]
  · rw [h.1, Option.getD_some]
    exact bytes_ring_of_holds hvalue (by rw [log.length_valueBytes]; omega)

/-- What `read_log_key` builds for the next log. -/
theorem keyStored_read (h : RingInv N w b pos freed live) {l : HeadLog × ℕ}
    (hl : w.logs[freed + live.length]? = some l) (hlt : freed + live.length < w.published)
    {keyCopies : ℕ → Option (List UInt8)} {owner : ℕ}
    (hcopy : (readLogEntry b pos owner).keyIsCut = true →
      keyCopies owner = some (readKeyCopy b (readLogEntry b pos owner))) :
    KeyStored N (offset w.logs (freed + live.length)) keyCopies owner (readLogEntry b pos owner)
      l.1 := by
  have hmate : readMateData b pos = l.1.mateData := h.readMateData_eq hl hlt
  have hfits := h.fits _ l hl
  have hkeyPos : ringPos b pos l.1.mateData.keyOffset =
      (offset w.logs (freed + live.length) + sizeofLogEntry) % N :=
    h.ringPos_eq (by rw [h.pos_eq, Nat.mod_mod])
  have hlen : l.1.mateData.keyLength = l.1.keyLen := by rw [HeadLog.mateData_of_fits hfits]
  refine ⟨hmate, h.pos_eq, ?_⟩
  split_ifs with hcut
  · refine ⟨by simpa [readLogEntry] using hcut, ?_⟩
    have hdata := h.dataSize_eq
    have hend := offset_add_le hl hlt
    have hfreed := offset_mono w.logs (show freed ≤ freed + live.length by omega)
    have htotal : l.1.totalLen = sizeofLogEntry + l.1.keyLen + l.1.valueLen := rfl
    rw [hcopy hcut]
    simp only [readKeyCopy, readLogEntry, hmate, hkeyPos, hlen, Int.toNat_natCast]
    rw [h.copyOut_eq (by omega), ← l.1.length_keyBytes,
      (holds_key (h.mate_holds _ l (by omega) hl)).circRead_eq]
  · simp only [readLogEntry, hmate, hkeyPos, hlen, h.local_size, decide_eq_true_eq,
      not_le] at hcut ⊢
    have hcut' : ¬ (N : ℤ) ≤ ((offset w.logs (freed + live.length) + sizeofLogEntry) % N : ℕ) +
        (l.1.keyLen : ℤ) := by omega
    simp only [hcut']
    exact ⟨rfl, by omega⟩

/-- What `read_log_value` does to the entry of a log whose value is in the ring. -/
theorem valueStored_set (hring : RingInv N w r.ring pos freed live) {j : ℕ} {l : HeadLog × ℕ}
    (hl : w.logs[j]? = some l) (hj : freed ≤ j) (hlt : j < w.published) {e : LogEntry}
    (hm : e.mateData = l.1.mateData) (hpos : e.logPos = offset w.logs j % N)
    (hvalue : Holds r.ring.buff N (offset w.logs j + l.1.sendLen) l.1.valueBytes) (id : ℕ) :
    ValueStored N (offset w.logs j) (setValue r id e).2.valueCopies id (setValue r id e).1 l.1 := by
  have hfits := hring.fits _ l hl
  have hoff : e.mateData.valueOffset = (l.1.sendLen : ℕ) := hm ▸ valueOffset_eq hfits
  have hvaluePos : ringPos r.ring e.logPos e.mateData.valueOffset =
      (offset w.logs j + l.1.sendLen) % N := by
    rw [hoff]
    exact hring.ringPos_eq (by rw [hpos, Nat.mod_mod])
  have hlen : e.mateData.valueLength = l.1.valueLen := by
    rw [hm, HeadLog.mateData_of_fits hfits]
  unfold ValueStored setValue
  simp only [hvaluePos, hlen, hring.local_size, Int.toNat_natCast]
  by_cases hcut : (N : ℤ) ≤ ((offset w.logs j + l.1.sendLen) % N : ℕ) + (l.1.valueLen : ℤ)
  · have hdata := hring.dataSize_eq
    have hend := offset_add_le hl hlt
    have hfreed := offset_mono w.logs hj
    have htotal : l.1.totalLen = l.1.sendLen + l.1.valueLen := rfl
    simp only [hcut, decide_true, if_true, Function.update_self, true_and]
    rw [hring.copyOut_eq (by omega), ← l.1.length_valueBytes, hvalue.circRead_eq]
  · simp only [hcut, decide_false]
    exact ⟨rfl, by omega⟩

end RdmaMiddleware.Chain
