import RdmaMiddleware.LogBuffer
import RdmaMiddleware.TransitionSystem

/-!
# Reservation in the ring

Log `j` occupies the stream positions from `offset logs j` on, `totalLen` many, and
stream position `x` lives in cell `x % N`. `RingInv` says what the pointers of both
sides stand for, that everything reserved and not yet freed lies in one window of
`N - 1` positions, and that the metadata of these logs is in the ring. It is stated
for a writer and a receiving ring with the scanned, not yet freed entries, so that
the delivery proofs can use it as well.
-/
namespace RdmaMiddleware.RingReservation
open TransitionSystem CInt CircularMemory LogBuffer

/-! ## Stream positions of logs -/

/-- The total length of the first `j` logs. -/
def offset (logs : List (HeadLog × ℕ)) (j : ℕ) : ℕ :=
  ((logs.take j).map (fun l => l.1.totalLen)).sum

@[simp] theorem offset_zero (logs : List (HeadLog × ℕ)) : offset logs 0 = 0 := rfl

theorem offset_succ {logs : List (HeadLog × ℕ)} {j : ℕ} {l : HeadLog × ℕ}
    (h : logs[j]? = some l) : offset logs (j + 1) = offset logs j + l.1.totalLen := by
  simp [offset, List.take_add_one, h]

theorem offset_append {logs : List (HeadLog × ℕ)} {j : ℕ} (h : j ≤ logs.length)
    (ls : List (HeadLog × ℕ)) : offset (logs ++ ls) j = offset logs j := by
  rw [offset, List.take_append_of_le_length h, offset]

theorem offset_append_length (logs : List (HeadLog × ℕ)) (l : HeadLog × ℕ) :
    offset (logs ++ [l]) (logs.length + 1) = offset logs logs.length + l.1.totalLen := by
  rw [offset_succ (l := l) (by simp), offset_append le_rfl]

theorem offset_mono (logs : List (HeadLog × ℕ)) {i j : ℕ} (h : i ≤ j) :
    offset logs i ≤ offset logs j := by
  induction j, h using Nat.le_induction with
  | base => exact le_rfl
  | succ j _ ih =>
    cases hl : logs[j]? with
    | none => simpa [offset, List.take_add_one, hl] using ih
    | some l =>
      rw [offset_succ hl]
      omega

/-- An element of a list grown by one is an old one or the new one. -/
theorem getElem?_concat_cases {α : Type*} {l : List α} {a x : α} {j : ℕ}
    (h : (l ++ [a])[j]? = some x) : l[j]? = some x ∨ (j = l.length ∧ x = a) := by
  have hlt := (List.getElem?_eq_some_iff.mp h).1
  rw [List.length_append, List.length_singleton] at hlt
  rcases Nat.lt_or_ge j l.length with hj | hj
  · exact .inl (by rwa [List.getElem?_append_left hj] at h)
  · obtain rfl : j = l.length := by omega
    rw [List.getElem?_concat_length, Option.some.injEq] at h
    exact .inr ⟨rfl, h.symm⟩

theorem totalLen_pos (log : HeadLog) : 0 < log.totalLen := by
  have := log.keyLen_pos
  unfold HeadLog.totalLen HeadLog.sendLen
  omega

theorem valueOffset_eq {log : HeadLog} (h : log.Fits) :
    log.mateData.valueOffset = (log.sendLen : ℕ) := by
  rw [HeadLog.mateData_of_fits h]
  simp [LogMateData.valueOffset, HeadLog.sendLen]

theorem valueTagOffset_eq {log : HeadLog} (h : log.Fits) :
    log.mateData.valueTagOffset = (log.totalLen - 1 : ℕ) := by
  rw [HeadLog.mateData_of_fits h, Nat.cast_sub (totalLen_pos log)]
  simp [LogMateData.valueTagOffset, HeadLog.totalLen, HeadLog.sendLen]

theorem nextOffset_eq {log : HeadLog} (h : log.Fits) :
    log.mateData.nextOffset = (log.totalLen : ℕ) := by
  rw [HeadLog.mateData_of_fits h]
  simp only [LogMateData.nextOffset, HeadLog.totalLen, HeadLog.sendLen]
  push_cast
  ring

/-- Log `j` ends where the next one starts, before or at any later position. -/
theorem offset_add_le {logs : List (HeadLog × ℕ)} {j k : ℕ} {l : HeadLog × ℕ}
    (h : logs[j]? = some l) (hjk : j < k) : offset logs j + l.1.totalLen ≤ offset logs k := by
  rw [← offset_succ h]
  exact offset_mono logs hjk

/-- Copying from the ring gives the bytes of the stream, also across the ring end. -/
theorem rbRead_copy_of_le {b : LocalRingbuff} (hsize : IsRingSize b.size) {x len : ℕ}
    (hlen : len ≤ b.dataSize) :
    rbRead b true (x % b.size : ℕ) len true = some (circRead b.buff b.size x len, b) := by
  have hx := Nat.mod_lt x hsize.pos
  have hstart : startPos b (x % b.size : ℕ) = x % b.size := by
    unfold startPos
    rw [if_neg (by omega), Int.toNat_natCast]
  rw [rbRead_eq hsize (hstart ▸ hx.le) hlen, hstart]
  simp only [if_true, Bool.not_true, Bool.and_false, Bool.false_eq_true, if_false, circRead_mod]

/-! ## What the writer holds -/

/-- Bytes reserved by the updates of the local write pointer. -/
def reservedBytes (w : Writer) : ℕ :=
  offset w.logs w.logs.length +
    match w.pc with
    | .mateWritten log _ => log.sendLen
    | _ => 0

/-- All logs with space in the ring, the one being written included. -/
def claimedLogs (w : Writer) : List (HeadLog × ℕ) := w.logs ++ (w.pc.current).toList

def claimedBytes (w : Writer) : ℕ := offset (claimedLogs w) (claimedLogs w).length

/-- What is in the ring of the log being written. -/
def PcInv (N : ℕ) (w : Writer) (buff : ℕ → UInt8) : Prop :=
  match w.pc with
  | .mateWriting log logPos pos rest =>
    w.published = w.logs.length ∧ log.Fits ∧
      logPos % N = offset w.logs w.logs.length % N ∧
      ∃ written, log.mateBytes = written ++ rest ∧ pos ≤ N ∧
        pos % N = (offset w.logs w.logs.length + written.length) % N ∧
        Holds buff N (offset w.logs w.logs.length) written
  | .mateWritten log logPos =>
    w.published = w.logs.length ∧ log.Fits ∧
      logPos % N = offset w.logs w.logs.length % N ∧
      Holds buff N (offset w.logs w.logs.length) log.mateBytes
  | .publishing => w.published + 1 = w.logs.length
  | .enqueueing => w.published = w.logs.length ∧ w.logs ≠ []
  | _ => w.published = w.logs.length

/-- `pos` is where `read_log_key` continues, `freed` counts the logs freed so far and
`live` are the entries scanned and not yet freed. -/
structure RingInv (N : ℕ) (w : Writer) (b : LocalRingbuff) (pos freed : ℕ)
    (live : List LogEntry) : Prop where
  ring_size : IsRingSize N
  local_size : b.size = N
  remote_size : w.remote.size = N
  fits : ∀ (j : ℕ) (l : HeadLog × ℕ), w.logs[j]? = some l → l.1.Fits
  log_pos : ∀ (j : ℕ) (l : HeadLog × ℕ), w.logs[j]? = some l → l.2 % N = offset w.logs j % N
  mate_holds : ∀ (j : ℕ) (l : HeadLog × ℕ), freed ≤ j → w.logs[j]? = some l →
    Holds b.buff N (offset w.logs j) l.1.mateBytes
  pc_inv : PcInv N w b.buff
  published_le : w.published ≤ w.logs.length
  scanned_le : freed + live.length ≤ w.published
  window : claimedBytes w < offset w.logs freed + N
  remote_wr_le : w.remote.wrPointer ≤ N
  remote_wr : w.remote.wrPointer % N = reservedBytes w % N
  local_wr_le : b.wrPointer ≤ N
  local_wr : b.wrPointer % N = offset w.logs w.published % N
  local_rd : b.rdPointer = offset w.logs freed % N
  pos_eq : pos = offset w.logs (freed + live.length) % N
  live_eq : ∀ (i : ℕ) (e : LogEntry), live[i]? = some e →
    ∃ l : HeadLog × ℕ, w.logs[freed + i]? = some l ∧ e.mateData = l.1.mateData ∧
      e.logPos = offset w.logs (freed + i) % N

variable {N : ℕ} {w w' : Writer} {b b' : LocalRingbuff} {pos freed : ℕ} {live : List LogEntry}

theorem claimedBytes_of_none (h : w.pc.current = none) :
    claimedBytes w = offset w.logs w.logs.length := by
  simp [claimedBytes, claimedLogs, h]

theorem claimedBytes_of_some {l : HeadLog × ℕ} (h : w.pc.current = some l) :
    claimedBytes w = offset w.logs w.logs.length + l.1.totalLen := by
  simp [claimedBytes, claimedLogs, h, offset_append_length]

theorem reservedBytes_of_calm (h : w.pc.calm = true) :
    reservedBytes w = offset w.logs w.logs.length := by
  cases hpc : w.pc <;> simp_all [WriterPc.calm, reservedBytes]

/-- Moving a pointer over a string that may wrap. -/
theorem pointer_advance {N p len : ℕ} (hp : p ≤ N) (hlen : len ≤ N) :
    (if N < p + len then len - (N - p) else p + len) ≤ N ∧
      (if N < p + len then len - (N - p) else p + len) % N = (p + len) % N := by
  split_ifs with hwrap
  · refine ⟨by omega, ?_⟩
    rw [show p + len = len - (N - p) + N by omega, Nat.add_mod_right]
  · exact ⟨by omega, rfl⟩

/-- The metadata of the log being written only has to stay where it is. -/
theorem PcInv.with_buff {buff buff' : ℕ → UInt8} (h : PcInv N w buff)
    (hkeep : ∀ bs : List UInt8, offset w.logs w.logs.length + bs.length ≤ claimedBytes w →
      Holds buff N (offset w.logs w.logs.length) bs →
      Holds buff' N (offset w.logs w.logs.length) bs) : PcInv N w buff' := by
  cases hpc : w.pc with
  | mateWriting log logPos p rest =>
    have hclaim := claimedBytes_of_some (w := w) (l := (log, logPos)) (by rw [hpc]; rfl)
    simp only [PcInv, hpc] at h ⊢
    obtain ⟨hpub, hfits, hlogPos, written, hbytes, hp, hpmod, hheld⟩ := h
    have hlen : written.length + rest.length = log.sendLen := by
      rw [← log.length_mateBytes, hbytes, List.length_append]
    have htotal : log.totalLen = log.sendLen + log.valueLen := rfl
    exact ⟨hpub, hfits, hlogPos, written, hbytes, hp, hpmod,
      hkeep written (by rw [hclaim]; simp only; omega) hheld⟩
  | mateWritten log logPos =>
    have hclaim := claimedBytes_of_some (w := w) (l := (log, logPos)) (by rw [hpc]; rfl)
    simp only [PcInv, hpc] at h ⊢
    obtain ⟨hpub, hfits, hlogPos, hheld⟩ := h
    have htotal : log.totalLen = log.sendLen + log.valueLen := rfl
    exact ⟨hpub, hfits, hlogPos,
      hkeep _ (by rw [hclaim, log.length_mateBytes]; simp only; omega) hheld⟩
  | _ => simpa only [PcInv, hpc] using h

namespace RingInv

theorem size_pos (h : RingInv N w b pos freed live) : 0 < N := h.ring_size.pos

/-- All logs that are not freed lie in the window behind the freed bytes. -/
theorem end_lt (h : RingInv N w b pos freed live) :
    offset w.logs w.logs.length < offset w.logs freed + N := by
  have hwin := h.window
  cases hc : w.pc.current with
  | none => rwa [claimedBytes_of_none hc] at hwin
  | some l =>
    rw [claimedBytes_of_some hc] at hwin
    omega

theorem freed_le (h : RingInv N w b pos freed live) :
    offset w.logs freed ≤ offset w.logs w.logs.length :=
  offset_mono _ (by have := h.scanned_le; have := h.published_le; omega)

/-- The space test sees the true number of free bytes when it reads `rd_pointer`. -/
theorem freeSize_eq (h : RingInv N w b pos freed live)
    (hres : reservedBytes w = offset w.logs w.logs.length) :
    ({ w.remote with rdPointer := b.rdPointer } : RemoteRingbuff).freeSize =
      (N : ℤ) - 1 - (offset w.logs w.logs.length - offset w.logs freed : ℕ) := by
  have hmask : mask ((w.remote.wrPointer : ℤ) - b.rdPointer) N =
      offset w.logs w.logs.length - offset w.logs freed := by
    apply mask_sub h.ring_size (hres ▸ h.remote_wr) _ h.freed_le h.end_lt
    rw [h.local_rd, Nat.mod_mod]
  simp only [Ringbuff.freeSize, Ringbuff.dataSize, h.remote_size, hmask]

/-- Only the bytes of logs that are not freed matter. -/
theorem with_buff (h : RingInv N w b pos freed live) {buff : ℕ → UInt8}
    (hmate : ∀ (j : ℕ) (l : HeadLog × ℕ), freed ≤ j → w.logs[j]? = some l →
      Holds buff N (offset w.logs j) l.1.mateBytes)
    (hpc : PcInv N w buff) : RingInv N w { b with buff := buff } pos freed live :=
  { h with mate_holds := hmate, pc_inv := hpc }

/-! ### The writer's steps -/

/-- Between the writes of two logs only the cached read pointer and the place change. -/
theorem calm (h : RingInv N w b pos freed live) (hold : w.pc.calm = true) (pc : WriterPc)
    (hnew : pc.calm = true) (hne : pc ≠ .enqueueing) (rd : ℕ) :
    RingInv N { w with remote := { w.remote with rdPointer := rd }, pc := pc } b pos freed
      live := by
  have hinv := h.pc_inv
  have hwin := h.window
  have hwr := h.remote_wr
  have hpub : w.published = w.logs.length := by
    cases hpc : w.pc <;> simp_all [PcInv, WriterPc.calm]
  have hres := reservedBytes_of_calm hold
  have hcur := WriterPc.current_of_calm hold
  refine { h with
    pc_inv := ?_
    window := ?_
    remote_wr := ?_ }
  · cases pc <;> simp_all [PcInv, WriterPc.calm]
  · rw [claimedBytes_of_none hcur] at hwin
    rw [claimedBytes_of_none (WriterPc.current_of_calm hnew)]
    exact hwin
  · rw [hres] at hwr
    rw [reservedBytes_of_calm hnew]
    exact hwr

theorem write (h : RingInv N w b pos freed live) {log : HeadLog}
    (ht : writerStep w b (.write log) = some (w', b')) : RingInv N w' b' pos freed live := by
  cases hpc : w.pc with
  | idle =>
    simp only [writerStep, hpc, Option.some.injEq, Prod.mk.injEq] at ht
    obtain ⟨rfl, rfl⟩ := ht
    exact h.calm (by rw [hpc]; rfl) (.started log) rfl (by simp) w.remote.rdPointer
  | _ => simp [writerStep, hpc] at ht

theorem check (h : RingInv N w b pos freed live) {readOk : Bool}
    (ht : writerStep w b (.check readOk) = some (w', b')) : RingInv N w' b' pos freed live := by
  cases hpc : w.pc with
  | started log =>
    have hcalm : w.pc.calm = true := by rw [hpc]; rfl
    cases readOk with
    | false =>
      simp only [writerStep, hpc, checkRemoteSize, Option.some.injEq, Prod.mk.injEq] at ht
      obtain ⟨rfl, rfl⟩ := ht
      exact h.calm hcalm .idle rfl (by simp) w.remote.rdPointer
    | true =>
      simp only [writerStep, hpc, checkRemoteSize, if_true, Option.some.injEq,
        Prod.mk.injEq] at ht
      obtain ⟨rfl, rfl⟩ := ht
      refine h.calm hcalm _ ?_ ?_ b.rdPointer
      · split_ifs <;> rfl
      · split_ifs <;> simp
  | _ => simp [writerStep, hpc] at ht

/-- The second test is what makes the reservation safe: it bounds the whole log. -/
theorem recheck (h : RingInv N w b pos freed live) {readOk : Bool}
    (ht : writerStep w b (.recheck readOk) = some (w', b')) :
    RingInv N w' b' pos freed live := by
  cases hpc : w.pc with
  | checked log =>
    have hcalm : w.pc.calm = true := by rw [hpc]; rfl
    have hpub : w.published = w.logs.length := by simpa [PcInv, hpc] using h.pc_inv
    have hres := reservedBytes_of_calm hcalm
    by_cases hfits : log.Fits
    swap
    · simp [writerStep, hpc, hfits] at ht
    cases readOk with
    | false =>
      simp only [writerStep, hpc, checkRemoteSize, if_pos hfits, Option.some.injEq,
        Prod.mk.injEq] at ht
      obtain ⟨rfl, rfl⟩ := ht
      exact h.calm hcalm .idle rfl (by simp) w.remote.rdPointer
    | true =>
      have hfree := h.freeSize_eq hres
      have hend := h.end_lt
      have hfreed := h.freed_le
      simp only [writerStep, hpc, checkRemoteSize, if_pos hfits, if_true, Option.some.injEq,
        Prod.mk.injEq] at ht
      obtain ⟨rfl, rfl⟩ := ht
      by_cases hroom : ({ w.remote with rdPointer := b.rdPointer } : RemoteRingbuff).freeSize <
          (log.totalLen : ℤ)
      · simp only [hroom, decide_true, Bool.not_true]
        exact h.calm hcalm .idle rfl (by simp) b.rdPointer
      · simp only [hroom, decide_false, Bool.not_false, if_true]
        have hwr : w.remote.wrPointer % N = offset w.logs w.logs.length % N :=
          hres ▸ h.remote_wr
        refine { h with
          pc_inv := ⟨hpub, hfits, hwr, [], rfl, h.remote_wr_le, by simpa using hwr,
            holds_nil _ _ _⟩
          window := ?_
          remote_wr := hwr }
        rw [claimedBytes_of_some (l := (log, w.remote.wrPointer)) rfl]
        rw [hfree] at hroom
        show offset w.logs w.logs.length + log.totalLen < offset w.logs freed + N
        omega
  | _ => simp [writerStep, hpc] at ht

/-- A chunk written into the free part of the window leaves the logs in the ring alone. -/
theorem holds_write_free (h : RingInv N w b pos freed live) {a : ℕ} {bs : List UInt8}
    (ha : offset w.logs w.logs.length ≤ a) (ha' : a + bs.length ≤ offset w.logs freed + N)
    (hfit : a % N + bs.length ≤ N) {j : ℕ} {l : HeadLog × ℕ} (hj : freed ≤ j)
    (hl : w.logs[j]? = some l) :
    Holds (writeBytes b.buff (a % N) bs) N (offset w.logs j) l.1.mateBytes := by
  have hlen : j < w.logs.length := (List.getElem?_eq_some_iff.mp hl).1
  have hfreed := offset_mono w.logs hj
  have hend := offset_add_le hl hlen
  have hsend : l.1.mateBytes.length ≤ l.1.totalLen := by simp [HeadLog.totalLen]
  exact (h.mate_holds j l hj hl).write_other (offset w.logs freed) hfit (by omega) ha'
    hfreed (by omega) (.inl (by omega))

theorem writeMate (h : RingInv N w b pos freed live)
    (ht : writerStep w b .writeMate = some (w', b')) : RingInv N w' b' pos freed live := by
  cases hpc : w.pc with
  | mateWriting log logPos p rest =>
    have hinv := h.pc_inv
    have hwin := h.window
    have hsize := h.remote_size
    have hN := h.size_pos
    simp only [PcInv, hpc] at hinv
    rw [claimedBytes_of_some (l := (log, logPos)) (by rw [hpc]; rfl)] at hwin
    obtain ⟨hpub, hfits, hlogPos, written, hbytes, hp, hpmod, hholds⟩ := hinv
    have hlen : written.length + rest.length = log.sendLen := by
      rw [← log.length_mateBytes, hbytes, List.length_append]
    have htotal : log.sendLen ≤ log.totalLen := by simp [HeadLog.totalLen]
    simp only at hwin
    -- one chunk of the metadata, put where `rb_write_mate` stands
    have hchunk : ∀ bs : List UInt8, bs.length ≤ rest.length → p + bs.length ≤ N →
        (∀ (j : ℕ) (l : HeadLog × ℕ), freed ≤ j → w.logs[j]? = some l →
          Holds (writeBytes b.buff p bs) N (offset w.logs j) l.1.mateBytes) ∧
        Holds (writeBytes b.buff p bs) N (offset w.logs w.logs.length) (written ++ bs) := by
      intro bs hbs hfit
      obtain ⟨hfit', heq⟩ := writeBytes_pos hN b.buff bs hpmod hfit
      have hfreed := h.freed_le
      rw [heq]
      refine ⟨fun j l hj hl => h.holds_write_free (by omega) (by omega) hfit' hj hl, ?_⟩
      rw [holds_append]
      exact ⟨hholds.write_other (offset w.logs freed) hfit' (by omega) (by omega) (by omega)
        (by omega) (.inl le_rfl), Holds.write_self _ _ hfit'⟩
    by_cases hwrap : w.remote.size < p + rest.length
    · simp only [writerStep, hpc, if_pos hwrap, Option.some.injEq, Prod.mk.injEq] at ht
      obtain ⟨rfl, rfl⟩ := ht
      rw [hsize] at hwrap ⊢
      have htake : (rest.take (N - p)).length = N - p := by simp; omega
      obtain ⟨hmate, hheld⟩ := hchunk (rest.take (N - p)) (by omega) (by omega)
      refine { h with
        mate_holds := hmate
        pc_inv := ⟨hpub, hfits, hlogPos, written ++ rest.take (N - p), ?_, Nat.zero_le _, ?_,
          hheld⟩
        window := ?_
        remote_wr := ?_ }
      · rw [hbytes, List.append_assoc, List.take_append_drop]
      · rw [List.length_append, htake, ← Nat.add_assoc, ← Nat.mod_add_mod, ← hpmod,
          Nat.mod_add_mod, show p + (N - p) = N by omega, Nat.mod_self, Nat.zero_mod]
      · rw [claimedBytes_of_some (l := (log, logPos)) rfl]
        exact hwin
      · have := h.remote_wr
        simpa only [reservedBytes, hpc] using this
    · simp only [writerStep, hpc, if_neg hwrap, Option.some.injEq, Prod.mk.injEq] at ht
      obtain ⟨rfl, rfl⟩ := ht
      rw [hsize] at hwrap
      obtain ⟨hmate, hheld⟩ := hchunk rest le_rfl (by omega)
      refine { h with
        mate_holds := hmate
        pc_inv := ⟨hpub, hfits, hlogPos, hbytes ▸ hheld⟩
        window := ?_
        remote_wr_le := show p + rest.length ≤ N by omega
        remote_wr := ?_ }
      · rw [claimedBytes_of_some (l := (log, logPos)) rfl]
        exact hwin
      · show (p + rest.length) % N = (offset w.logs w.logs.length + log.sendLen) % N
        rw [← Nat.mod_add_mod, hpmod, Nat.mod_add_mod, ← hlen, Nat.add_assoc]
  | _ => simp [writerStep, hpc] at ht

theorem advance (h : RingInv N w b pos freed live)
    (ht : writerStep w b .advance = some (w', b')) : RingInv N w' b' pos freed live := by
  cases hpc : w.pc with
  | mateWritten log logPos =>
    have hinv := h.pc_inv
    have hwin := h.window
    have hwr := h.remote_wr
    have hwrle := h.remote_wr_le
    have hN := h.size_pos
    have hfreed := h.freed_le
    simp only [PcInv, hpc] at hinv
    obtain ⟨hpub, hfits, hlogPos, hheld⟩ := hinv
    rw [claimedBytes_of_some (l := (log, logPos)) (by rw [hpc]; rfl)] at hwin
    simp only [reservedBytes, hpc] at hwr hwin
    have htotal : log.totalLen = log.sendLen + log.valueLen := rfl
    simp only [writerStep, hpc, Option.some.injEq, Prod.mk.injEq] at ht
    obtain ⟨rfl, rfl⟩ := ht
    rw [h.remote_size]
    have hoff : ∀ j ≤ w.logs.length, offset (w.logs ++ [(log, logPos)]) j = offset w.logs j :=
      fun j hj => offset_append hj _
    have hlast : offset (w.logs ++ [(log, logPos)]) (w.logs ++ [(log, logPos)]).length =
        offset w.logs w.logs.length + log.totalLen := by
      rw [List.length_append, List.length_singleton, offset_append_length]
    have hscan := h.scanned_le
    have hnext := pointer_advance hwrle (show log.valueLen ≤ N by omega)
    exact {
      ring_size := h.ring_size
      local_size := h.local_size
      remote_size := rfl
      fits := by
        intro j l hl
        rcases getElem?_concat_cases hl with hl | ⟨rfl, rfl⟩
        · exact h.fits j l hl
        · exact hfits
      log_pos := by
        intro j l hl
        rcases getElem?_concat_cases hl with hl | ⟨rfl, rfl⟩
        · rw [hoff j (List.getElem?_eq_some_iff.mp hl).1.le]
          exact h.log_pos j l hl
        · rw [hoff _ le_rfl]
          exact hlogPos
      mate_holds := by
        intro j l hj hl
        rcases getElem?_concat_cases hl with hl | ⟨rfl, rfl⟩
        · rw [hoff j (List.getElem?_eq_some_iff.mp hl).1.le]
          exact h.mate_holds j l hj hl
        · rw [hoff _ le_rfl]
          exact hheld
      pc_inv := by simp [PcInv, hpub]
      published_le := by simp [hpub]
      scanned_le := hscan
      window := by
        rw [claimedBytes_of_none rfl, hlast, hoff freed (by omega)]
        exact hwin
      remote_wr_le := hnext.1
      remote_wr := by
        rw [reservedBytes, hlast, Nat.add_zero, htotal, ← Nat.add_assoc, ← Nat.mod_add_mod,
          ← hwr, Nat.mod_add_mod]
        exact hnext.2
      local_wr_le := h.local_wr_le
      local_wr := by
        rw [hoff _ hpub.le]
        exact h.local_wr
      local_rd := by
        rw [hoff _ (by omega)]
        exact h.local_rd
      pos_eq := by
        rw [hoff _ (by omega)]
        exact h.pos_eq
      live_eq := by
        intro i e he
        obtain ⟨l, hl, hm, hp⟩ := h.live_eq i e he
        have hlt := (List.getElem?_eq_some_iff.mp hl).1
        exact ⟨l, by rwa [List.getElem?_append_left hlt], hm, by rwa [hoff _ hlt.le]⟩ }
  | _ => simp [writerStep, hpc] at ht

theorem publish (h : RingInv N w b pos freed live)
    (ht : writerStep w b .publish = some (w', b')) : RingInv N w' b' pos freed live := by
  cases hpc : w.pc with
  | publishing =>
    have hwin := h.window
    have hwr := h.remote_wr
    have hscan := h.scanned_le
    have hpub := h.published_le
    simp only [claimedBytes, claimedLogs, WriterPc.current, hpc] at hwin
    simp only [reservedBytes, hpc] at hwr
    simp only [writerStep, hpc, Option.some.injEq, Prod.mk.injEq] at ht
    obtain ⟨rfl, rfl⟩ := ht
    have hone : w.published + 1 = w.logs.length := by simpa only [PcInv, hpc] using h.pc_inv
    have hne : w.logs ≠ [] := List.ne_nil_of_length_pos (by omega)
    exact { h with
      pc_inv := ⟨rfl, hne⟩
      published_le := le_rfl
      scanned_le := by show _ ≤ w.logs.length; omega
      window := hwin
      remote_wr := hwr
      local_wr_le := h.remote_wr_le
      local_wr := hwr }
  | _ => simp [writerStep, hpc] at ht

/-- Every step of the writer keeps the invariant. -/
theorem writer (h : RingInv N w b pos freed live) {a : WriterAction}
    (ht : writerStep w b a = some (w', b')) : RingInv N w' b' pos freed live := by
  cases a with
  | write log => exact h.write ht
  | check readOk => exact h.check ht
  | recheck readOk => exact h.recheck ht
  | writeMate => exact h.writeMate ht
  | advance => exact h.advance ht
  | publish => exact h.publish ht

/-! ### The reader's steps -/

/-- `rb_count_size` at the scan position counts the published bytes behind it. -/
theorem countSize_eq (h : RingInv N w b pos freed live) :
    b.countSize pos = offset w.logs w.published - offset w.logs (freed + live.length) := by
  have hend := h.end_lt
  have hscan := offset_mono w.logs h.scanned_le
  have hpub := offset_mono w.logs h.published_le
  have hfreed := offset_mono w.logs (show freed ≤ freed + live.length by omega)
  rw [Ringbuff.countSize, h.local_size]
  exact mask_sub h.ring_size h.local_wr (by rw [h.pos_eq, Nat.mod_mod]) hscan (by omega)

/-- With any byte behind the scan position, a whole published log starts there. -/
theorem scan_lt (h : RingInv N w b pos freed live) (hcount : 0 < b.countSize pos) :
    freed + live.length < w.published := by
  have hscan := h.scanned_le
  rcases Nat.lt_or_ge (freed + live.length) w.published with hlt | hge
  · exact hlt
  · rw [h.countSize_eq, show w.published = freed + live.length by omega] at hcount
    omega

theorem dataSize_eq (h : RingInv N w b pos freed live) :
    b.dataSize = offset w.logs w.published - offset w.logs freed := by
  have hend := h.end_lt
  have hscan := offset_mono w.logs (show freed ≤ w.published by have := h.scanned_le; omega)
  have hpub := offset_mono w.logs h.published_le
  rw [Ringbuff.dataSize, h.local_size]
  exact mask_sub h.ring_size h.local_wr (by rw [h.local_rd, Nat.mod_mod]) hscan (by omega)

theorem ringPos_eq (h : RingInv N w b pos freed live) {p x k : ℕ} (hp : p % N = x % N) :
    ringPos b p k = (x + k) % N := by
  rw [ringPos, h.local_size, ← Nat.cast_add, mask_natCast h.ring_size, ← Nat.mod_add_mod, hp,
    Nat.mod_add_mod]

theorem rbRead_copy (h : RingInv N w b pos freed live) {x len : ℕ} (hlen : len ≤ b.dataSize) :
    rbRead b true (x % N : ℕ) len true = some (circRead b.buff N x len, b) := by
  obtain rfl : N = b.size := h.local_size.symm
  exact rbRead_copy_of_le h.ring_size hlen

theorem copyOut_eq (h : RingInv N w b pos freed live) {x len : ℕ} (hlen : len ≤ b.dataSize) :
    copyOut b (x % N) len = circRead b.buff N x len := by
  rw [copyOut, h.rbRead_copy hlen]
  rfl

theorem readMateData_eq (h : RingInv N w b pos freed live) {l : HeadLog × ℕ}
    (hl : w.logs[freed + live.length]? = some l) (hlt : freed + live.length < w.published) :
    readMateData b pos = l.1.mateData := by
  have hdata := h.dataSize_eq
  have hend := offset_add_le hl hlt
  have hfreed := offset_mono w.logs (show freed ≤ freed + live.length by omega)
  have hlen : sizeofLogMateData ≤ l.1.sendLen := by
    simp [sizeofLogMateData, HeadLog.sendLen, sizeofLogEntry]
    omega
  have htotal : l.1.totalLen = l.1.sendLen + l.1.valueLen := rfl
  have hread := h.mate_holds _ l (by omega) hl
  rw [readMateData, h.pos_eq, h.rbRead_copy (by omega)]
  show LogMateData.decode (circRead _ _ _ _) = _
  rw [hread.circRead_take (by simpa using hlen), HeadLog.decode_mateBytes (h.fits _ l hl)]

/-- One pass of `read_log_key` scans exactly the next published log. -/
theorem scan (h : RingInv N w b pos freed live)
    (hcount : sizeofLogMateData ≤ b.countSize pos) (owner : ℕ) :
    RingInv N w b (ringPos b pos (readLogEntry b pos owner).mateData.nextOffset) freed
      (live ++ [readLogEntry b pos owner]) := by
  have hlt := h.scan_lt (by simp [sizeofLogMateData] at hcount; omega)
  have hpub := h.published_le
  obtain ⟨l, hl⟩ : ∃ l, w.logs[freed + live.length]? = some l :=
    ⟨_, List.getElem?_eq_getElem (by omega)⟩
  have hmate : (readLogEntry b pos owner).mateData = l.1.mateData := h.readMateData_eq hl hlt
  refine { h with
    scanned_le := by rw [List.length_append, List.length_singleton]; omega
    pos_eq := ?_
    live_eq := ?_ }
  · rw [hmate, nextOffset_eq (h.fits _ l hl), List.length_append, List.length_singleton,
      ← Nat.add_assoc, offset_succ hl]
    exact h.ringPos_eq (by rw [h.pos_eq, Nat.mod_mod])
  · intro i e he
    rcases getElem?_concat_cases he with he | ⟨rfl, rfl⟩
    · exact h.live_eq i e he
    · exact ⟨l, hl, hmate, h.pos_eq⟩

/-- `free_log` frees the oldest scanned log. -/
theorem free {e : LogEntry} (h : RingInv N w b pos freed (e :: live)) :
    RingInv N w (freeRing b e) pos (freed + 1) live := by
  obtain ⟨l, hl, hmate, _⟩ := h.live_eq 0 e rfl
  rw [Nat.add_zero] at hl
  have hoff := offset_succ hl
  have hscan := h.scanned_le
  have hwin := h.window
  rw [List.length_cons] at hscan
  exact {
    ring_size := h.ring_size
    local_size := h.local_size
    remote_size := h.remote_size
    fits := h.fits
    log_pos := h.log_pos
    mate_holds := fun j l hj hl => h.mate_holds j l (by omega) hl
    pc_inv := h.pc_inv
    published_le := h.published_le
    scanned_le := by omega
    window := by omega
    remote_wr_le := h.remote_wr_le
    remote_wr := h.remote_wr
    local_wr_le := h.local_wr_le
    local_wr := h.local_wr
    local_rd := by
      show ringPos b b.rdPointer e.mateData.nextOffset = _
      rw [hmate, nextOffset_eq (h.fits _ l hl), hoff]
      exact h.ringPos_eq (by rw [h.local_rd, Nat.mod_mod])
    pos_eq := by
      have := h.pos_eq
      rwa [List.length_cons, show freed + (live.length + 1) = freed + 1 + live.length by omega]
        at this
    live_eq := by
      intro i e' he
      have := h.live_eq (i + 1) e' he
      rwa [show freed + (i + 1) = freed + 1 + i by omega] at this }

/-- A value write inside the space of a log in the ring disturbs no metadata. -/
theorem value_write (h : RingInv N w b pos freed live) {j : ℕ} {l : HeadLog × ℕ}
    (hj : freed ≤ j) (hl : w.logs[j]? = some l) {x : ℕ} {bs : List UInt8}
    (hx : offset w.logs j + l.1.sendLen ≤ x)
    (hx' : x + bs.length ≤ offset w.logs j + l.1.totalLen) (hfit : x % N + bs.length ≤ N) :
    RingInv N w { b with buff := writeBytes b.buff (x % N) bs } pos freed live := by
  have hlt := (List.getElem?_eq_some_iff.mp hl).1
  have hend := offset_add_le hl hlt
  have hwin := h.end_lt
  have hclaim := h.window
  have hfreed := offset_mono w.logs hj
  refine h.with_buff ?_ (h.pc_inv.with_buff ?_)
  · intro k m hk hm
    have hmlt := (List.getElem?_eq_some_iff.mp hm).1
    have hmend := offset_add_le hm hmlt
    have hkfreed := offset_mono w.logs hk
    have hsend : m.1.mateBytes.length + m.1.valueLen = m.1.totalLen := by
      simp [HeadLog.totalLen]
    refine (h.mate_holds k m hk hm).write_other (offset w.logs freed) hfit (by omega) (by omega)
      hkfreed (by omega) ?_
    rcases Nat.lt_trichotomy k j with hkj | hkj | hkj
    · left
      have := offset_add_le hm hkj
      omega
    · subst hkj
      obtain rfl : m = l := Option.some.inj (hm.symm.trans hl)
      left
      rw [HeadLog.length_mateBytes]
      exact hx
    · right
      have := offset_add_le hl hkj
      omega
  · intro cs hcs hheld
    exact hheld.write_other (offset w.logs freed) hfit (by omega) (by omega) (by omega) (by omega)
      (.inr (by omega))

/-- The scan position becomes the read key pointer. -/
theorem setRdKey (h : RingInv N w b pos freed live) (p : ℕ) :
    RingInv N w { b with rdKeyPointer := p } pos freed live := { h with }

end RingInv
end RdmaMiddleware.RingReservation
