import RdmaMiddleware.ByteStream
import RdmaMiddleware.StoredLogs

/-!
# The single-step reader

`read_one_log` reads the log at `rd_pointer` in one call. It tests the tag byte behind
`buff_addr + rd_pointer` without masking, so also beyond the ring, and passes over the
header and the key without a buffer, so that `rb_read` does not clear them.
-/
namespace RdmaMiddleware.ReadOneLog
open CInt CircularMemory LogBuffer RingReservation ByteStream Chain

/-- `rb_read` whose result is ignored: when it fails, nothing happens. -/
def rbReadIgnored (b : LocalRingbuff) (hasBuf : Bool) (start : ℤ) (len : ℕ) (isCopy : Bool) :
    List UInt8 × LocalRingbuff :=
  (rbRead b hasBuf start len isCopy).getD ([], b)

/-- `read_one_log`: its result, what is stored from `upper_addr` on, and the ring. The
lengths are those of a whole log and hence positive. -/
def readOneLog (b : LocalRingbuff) (upperAddr : Bool) : Bool × List UInt8 × LocalRingbuff :=
  if !upperAddr then (false, [], b)
  else if b.dataSize < sizeofLogMateData then (false, [], b)
  else
    let log := LogMateData.decode (rbReadIgnored b true (-1) sizeofLogMateData true).1
    if b.buff (b.rdPointer + log.valueTagOffset.toNat) = 1 then
      let passed := (rbReadIgnored b false (-1) log.valueOffset.toNat false).2
      let value := rbReadIgnored passed true (-1) log.valueLength.toNat false
      (true, value.1, value.2)
    else (false, [], b)

/-! ## The property -/

/-- The metadata at `rd_pointer`, as the two-stage reader reads them. -/
def mateAt (b : LocalRingbuff) : LogMateData := readMateData b (b.rdPointer % b.size)

/-- A whole log stands at `rd_pointer`. -/
structure WholeLog (b : LocalRingbuff) : Prop where
  key_pos : 0 < (mateAt b).keyLength
  value_pos : 0 < (mateAt b).valueLength
  readable : (mateAt b).nextOffset ≤ b.dataSize

/-- The value that `read_log_key` and then `read_log_value` give for the log at
`rd_pointer`. -/
def twoStageValue (r : Receiver) : List UInt8 :=
  let pos := r.ring.rdPointer % r.ring.size
  let out := setValue (allocEntry r pos) r.nextEntry (readLogEntry r.ring pos r.nextEntry)
  out.2.valueBytes out.1

/-- The tag byte of the log, and the byte that `read_one_log` tests in its place. -/
def tagByte (b : LocalRingbuff) : UInt8 :=
  b.buff (ringPos b b.rdPointer (mateAt b).valueTagOffset)

def testedByte (b : LocalRingbuff) : UInt8 :=
  b.buff (b.rdPointer + (mateAt b).valueTagOffset.toNat)

/-- `read_one_log` on the ring of a receiver agrees with the two-stage reader. -/
structure AgreesTwoStage (r : Receiver) (upperAddr : Bool) : Prop where
  returns : (readOneLog r.ring upperAddr).1 = true ↔ tagByte r.ring = 1
  value : (readOneLog r.ring upperAddr).1 = true →
    (readOneLog r.ring upperAddr).2.1 = twoStageValue r
  rd_pointer : (readOneLog r.ring upperAddr).1 = true →
    (readOneLog r.ring upperAddr).2.2.rdPointer % r.ring.size =
      ringPos r.ring r.ring.rdPointer (mateAt r.ring).nextOffset
  zeroed : (readOneLog r.ring upperAddr).1 = true →
    ∀ c ∈ cells r.ring.size r.ring.rdPointer (mateAt r.ring).nextOffset.toNat,
      (readOneLog r.ring upperAddr).2.2.buff c = 0
  unchanged : (readOneLog r.ring upperAddr).1 = false →
    (readOneLog r.ring upperAddr).2 = ([], r.ring)

/-! ## What the call does -/

theorem valueOffset_toNat (k v : ℕ) :
    (⟨k, v⟩ : LogMateData).valueOffset.toNat = sizeofLogEntry + k := by
  unfold LogMateData.valueOffset
  dsimp only
  omega

theorem nextOffset_toNat (k v : ℕ) :
    (⟨k, v⟩ : LogMateData).nextOffset.toNat = sizeofLogEntry + k + v := by
  unfold LogMateData.nextOffset
  dsimp only
  omega

section Call
variable {b : LocalRingbuff} (hsize : IsRingSize b.size) (hrd : b.rdPointer ≤ b.size)
  (hlog : WholeLog b)

/-- The pointer behind the header and the key. -/
def valuePos (b : LocalRingbuff) : ℕ :=
  let len := (mateAt b).valueOffset.toNat
  if b.size < b.rdPointer + len then len - (b.size - b.rdPointer) else b.rdPointer + len

/-- The ring behind the header and the key. -/
def passed (b : LocalRingbuff) : LocalRingbuff := { b with rdPointer := valuePos b }

include hlog in
/-- The parts of a whole log fill it. -/
theorem WholeLog.lengths : ∃ k v : ℕ, 0 < k ∧ 0 < v ∧ sizeofLogEntry + k + v ≤ b.dataSize ∧
    mateAt b = ⟨k, v⟩ := by
  obtain ⟨hk, hv, hle⟩ := hlog
  unfold LogMateData.nextOffset at hle
  refine ⟨(mateAt b).keyLength.toNat, (mateAt b).valueLength.toNat, by omega, by omega,
    by omega, ?_⟩
  rw [Int.toNat_of_nonneg hk.le, Int.toNat_of_nonneg hv.le]

include hsize in
theorem mateAt_eq (hlen : sizeofLogMateData ≤ b.dataSize) :
    mateAt b = .decode (circRead b.buff b.size b.rdPointer sizeofLogMateData) := by
  unfold mateAt readMateData
  rw [rbRead_copy_of_le hsize hlen]

include hsize in
/-- A log of the writing side is a whole log, whether its value has arrived or not. -/
theorem wholeLog_of_holds {log : HeadLog} (hfits : log.Fits)
    (hheld : Holds b.buff b.size b.rdPointer log.mateBytes) (hle : log.totalLen ≤ b.dataSize) :
    WholeLog b := by
  have htotal : log.totalLen = sizeofLogEntry + log.keyLen + log.valueLen := rfl
  have hkey := log.keyLen_pos
  have hvalue := log.valueLen_ge
  have hdata : sizeofLogMateData ≤ b.dataSize := by
    unfold sizeofLogMateData
    unfold sizeofLogEntry at htotal
    omega
  have hlength : sizeofLogMateData ≤ log.mateBytes.length := by
    rw [log.length_mateBytes]
    simp only [sizeofLogMateData, HeadLog.sendLen, sizeofLogEntry]
    omega
  have hmate : mateAt b = ⟨log.keyLen, log.valueLen⟩ := by
    rw [mateAt_eq hsize hdata, hheld.circRead_take hlength, HeadLog.decode_mateBytes hfits,
      HeadLog.mateData_of_fits hfits]
  constructor
  · rw [hmate]
    exact Int.natCast_pos.mpr hkey
  · rw [hmate]
    exact Int.natCast_pos.mpr (by omega)
  · rw [hmate, ← HeadLog.mateData_of_fits hfits, nextOffset_eq hfits]
    exact_mod_cast hle

include hsize hrd hlog in
/-- A call finds the log or leaves everything as it is. -/
theorem readOneLog_eq (upperAddr : Bool) : readOneLog b upperAddr =
    if upperAddr = true ∧ testedByte b = 1 then
      let value := rbReadIgnored (passed b) true (-1) (mateAt b).valueLength.toNat false
      (true, value.1, value.2)
    else (false, [], b) := by
  obtain ⟨k, v, hk, hv, hle, hmate⟩ := hlog.lengths
  have hdata : sizeofLogMateData ≤ b.dataSize := by
    unfold sizeofLogMateData
    unfold sizeofLogEntry at hle
    omega
  have hhead : LogMateData.decode (rbReadIgnored b true (-1) sizeofLogMateData true).1 =
      mateAt b := by
    rw [rbReadIgnored, rbRead_copying hsize hrd hdata, mateAt_eq hsize hdata]
    rfl
  have hskip : (rbReadIgnored b false (-1) (mateAt b).valueOffset.toNat false).2 = passed b := by
    have hlen : (mateAt b).valueOffset.toNat ≤ b.dataSize := by
      rw [hmate, valueOffset_toNat]
      omega
    rw [rbReadIgnored, rbRead_skipping hsize hrd hlen]
    rfl
  unfold readOneLog
  rw [hhead, if_neg (not_lt.mpr hdata)]
  dsimp only
  rw [hskip]
  cases upperAddr with
  | false => simp
  | true => simp [testedByte]

include hsize hrd hlog in
theorem valuePos_advance : valuePos b ≤ b.size ∧
    valuePos b % b.size = (b.rdPointer + (mateAt b).valueOffset.toNat) % b.size := by
  obtain ⟨k, v, -, -, hle, hmate⟩ := hlog.lengths
  have hdata : b.dataSize < b.size := mask_lt hsize _
  have hlen : (mateAt b).valueOffset.toNat ≤ b.size := by
    rw [hmate, valueOffset_toNat]
    omega
  exact pointer_advance hrd hlen

/-- Moving the read pointer over `len` readable bytes leaves the others readable. -/
theorem dataSize_advance (hsize : IsRingSize b.size) {rd len : ℕ} (hlen : len ≤ b.dataSize)
    (hmod : rd % b.size = (b.rdPointer + len) % b.size) :
    ({ b with rdPointer := rd } : LocalRingbuff).dataSize = b.dataSize - len := by
  have hdata : b.dataSize < b.size := mask_lt hsize _
  have hend : b.wrPointer % b.size = (b.rdPointer + b.dataSize) % b.size := by
    have hmask : (b.dataSize : ℤ) = ((b.wrPointer : ℤ) - b.rdPointer) % b.size := by
      rw [Ringbuff.dataSize, mask_eq hsize]
      exact Int.toNat_of_nonneg (Int.emod_nonneg _ (by have := hsize.pos; omega))
    have hcast : (b.wrPointer : ℤ) % b.size = ((b.rdPointer + b.dataSize : ℕ) : ℤ) % b.size := by
      push_cast
      rw [hmask, Int.add_emod_emod, add_sub_cancel]
    exact_mod_cast hcast
  unfold Ringbuff.dataSize
  rw [mask_sub hsize hend hmod (by omega) (by omega)]
  unfold Ringbuff.dataSize
  omega

include hsize hrd hlog in
/-- The value is delivered and cleared. -/
theorem readValue_eq : ∃ rd,
    rd % b.size = ringPos b b.rdPointer (mateAt b).nextOffset ∧
    rbReadIgnored (passed b) true (-1) (mateAt b).valueLength.toNat false =
      (circRead b.buff b.size (b.rdPointer + (mateAt b).valueOffset.toNat)
          (mateAt b).valueLength.toNat,
        { b with
          rdPointer := rd
          buff := circWrite b.buff b.size (valuePos b)
            (List.replicate (mateAt b).valueLength.toNat 0) }) := by
  obtain ⟨k, v, hk, hv, hle, hmate⟩ := hlog.lengths
  obtain ⟨hpos, hmod⟩ := valuePos_advance hsize hrd hlog
  have hdata : b.dataSize < b.size := mask_lt hsize _
  rw [hmate, valueOffset_toNat] at hmod
  have hrest : (passed b).dataSize = b.dataSize - (sizeofLogEntry + k) :=
    dataSize_advance hsize (by omega) hmod
  have hread := rbRead_clearing (b := passed b) hsize hpos
    (show v ≤ (passed b).dataSize by omega)
  obtain ⟨-, hnext⟩ := pointer_advance hpos (show v ≤ b.size by omega)
  refine ⟨if b.size < valuePos b + v then v - (b.size - valuePos b) else valuePos b + v, ?_, ?_⟩
  · rw [hnext, Nat.add_mod, hmod, ← Nat.add_mod, ringPos, hmate, LogMateData.nextOffset,
      Nat.add_assoc, ← mask_natCast hsize]
    congr 1
  · rw [hmate, valueOffset_toNat, Int.toNat_natCast, rbReadIgnored, hread, Option.getD_some]
    have hvalue : circRead b.buff b.size (valuePos b) v =
        circRead b.buff b.size (b.rdPointer + (sizeofLogEntry + k)) v := by
      rw [← circRead_mod, hmod, circRead_mod]
    rw [← hvalue]
    rfl

end Call

/-! ## The two-stage reader -/

/-- The value of a log as `read_log_value` leaves it, in its copy or in the ring. -/
theorem valueBytes_setValue {r : Receiver} (hsize : IsRingSize r.ring.size) {id : ℕ}
    {e : LogEntry} {x v : ℕ} (hvalue : e.mateData.valueLength = v) (hle : v ≤ r.ring.dataSize)
    (hpos : ringPos r.ring e.logPos e.mateData.valueOffset = x % r.ring.size) :
    (setValue r id e).2.valueBytes (setValue r id e).1 =
      circRead r.ring.buff r.ring.size x v := by
  have hcopy : copyOut r.ring (x % r.ring.size) v = circRead r.ring.buff r.ring.size x v := by
    rw [copyOut, rbRead_copy_of_le hsize hle]
    rfl
  unfold setValue Receiver.valueBytes Receiver.getValueAddr
  simp only [hpos, hvalue, Int.toNat_natCast, Option.getD_some]
  by_cases hcut : (r.ring.size : ℤ) ≤ ((x % r.ring.size : ℕ) : ℤ) + v
  · simp only [hcut, decide_true, if_true]
    rw [hcopy]
    obtain ⟨bs, hbs⟩ : ∃ bs, circRead r.ring.buff r.ring.size x v = bs := ⟨_, rfl⟩
    have hlength : bs.length = v := by rw [← hbs, length_circRead]
    rw [hbs, ← hlength]
    exact bytes_valueCopy (by simp)
  · simp only [hcut, decide_false, Bool.false_eq_true, if_false]
    rw [bytes_ring, circRead_of_fit _ (by omega)]

/-- `read_log_key` and `read_log_value` give the value bytes of the log, wrapped or not. -/
theorem twoStageValue_eq {r : Receiver} (hsize : IsRingSize r.ring.size)
    (hlog : WholeLog r.ring) :
    twoStageValue r = circRead r.ring.buff r.ring.size
      (r.ring.rdPointer + (mateAt r.ring).valueOffset.toNat)
      (mateAt r.ring).valueLength.toNat := by
  obtain ⟨k, v, hk, hv, hle, hmate⟩ := hlog.lengths
  have hentry : (readLogEntry r.ring (r.ring.rdPointer % r.ring.size) r.nextEntry).mateData =
      ⟨k, v⟩ := hmate
  have hpos : ringPos r.ring (r.ring.rdPointer % r.ring.size : ℕ)
      (⟨k, v⟩ : LogMateData).valueOffset =
      (r.ring.rdPointer + (sizeofLogEntry + k)) % r.ring.size := by
    have hsum : ((r.ring.rdPointer % r.ring.size : ℕ) : ℤ) + (sizeofLogEntry + k) =
        ((r.ring.rdPointer % r.ring.size + (sizeofLogEntry + k) : ℕ) : ℤ) := by push_cast; ring
    rw [ringPos, LogMateData.valueOffset, hsum, mask_natCast hsize, Nat.mod_add_mod]
  rw [hmate, valueOffset_toNat, Int.toNat_natCast]
  exact valueBytes_setValue (r := allocEntry r (r.ring.rdPointer % r.ring.size)) hsize
    (by rw [hentry]) (show v ≤ r.ring.dataSize by omega) (by rw [hentry]; exact hpos)

/-! ## What is left in the ring -/

section Left
variable {r : Receiver} (hsize : IsRingSize r.ring.size) (hrd : r.ring.rdPointer ≤ r.ring.size)
  (hlog : WholeLog r.ring)
include hsize hrd hlog

/-- When the tested byte is 1, the value is delivered as by the two-stage reader and the
pointer moves behind the log, but only the value is cleared. -/
theorem readOneLog_found (htested : testedByte r.ring = 1) : ∃ b,
    readOneLog r.ring true = (true, twoStageValue r, b) ∧
      b.rdPointer % r.ring.size =
        ringPos r.ring r.ring.rdPointer (mateAt r.ring).nextOffset ∧
      (∀ c ∈ cells r.ring.size (r.ring.rdPointer + (mateAt r.ring).valueOffset.toNat)
        (mateAt r.ring).valueLength.toNat, b.buff c = 0) ∧
      ∀ c ∈ cells r.ring.size r.ring.rdPointer (mateAt r.ring).valueOffset.toNat,
        b.buff c = r.ring.buff c := by
  obtain ⟨k, v, hk, hv, hle, hmate⟩ := hlog.lengths
  have hdata : r.ring.dataSize < r.ring.size := mask_lt hsize _
  obtain ⟨rd, hmod, hvalue⟩ := readValue_eq hsize hrd hlog
  obtain ⟨hpos, hposmod⟩ := valuePos_advance hsize hrd hlog
  rw [readOneLog_eq hsize hrd hlog, if_pos ⟨rfl, htested⟩, twoStageValue_eq hsize hlog]
  dsimp only
  rw [hvalue]
  rw [hmate, valueOffset_toNat] at hposmod ⊢
  rw [Int.toNat_natCast]
  have hzeros : (List.replicate v (0 : UInt8)).length = v := List.length_replicate
  refine ⟨_, rfl, hmate ▸ hmod, ?_, ?_⟩
  · intro c hc
    rw [cells_congr hposmod.symm] at hc
    obtain ⟨j, hj, rfl⟩ := hc
    have hheld := holds_circWrite hsize.pos hpos (hzeros.trans_le (by omega)) r.ring.buff j
      (by rw [hzeros]; exact hj)
    rw [List.getElem_replicate] at hheld
    exact hheld
  · intro c hc
    have hout : c ∉ cells r.ring.size (valuePos r.ring) (List.replicate v (0 : UInt8)).length := by
      rw [hzeros, cells_congr hposmod]
      refine Set.disjoint_left.mp ?_ hc
      exact cells_disjoint r.ring.rdPointer le_rfl le_rfl (by omega)
    exact (circWrite_agrees hsize.pos hpos (hzeros.trans_le (by omega)) r.ring.buff).2 c hout

omit hrd in
/-- The key length of a whole log is a byte of the ring that is not 0. -/
theorem exists_nonzero_header : ∃ c ∈ cells r.ring.size r.ring.rdPointer sizeofLogMateData,
    r.ring.buff c ≠ 0 := by
  by_contra hnone
  push Not at hnone
  obtain ⟨k, v, hk, hv, hle, hmate⟩ := hlog.lengths
  have hzero : circRead r.ring.buff r.ring.size r.ring.rdPointer sizeofLogMateData =
      List.replicate sizeofLogMateData 0 := by
    rw [List.eq_replicate_iff]
    refine ⟨length_circRead .., fun c hc => ?_⟩
    obtain ⟨j, hj, rfl⟩ := List.mem_map.mp hc
    exact hnone _ ⟨j, List.mem_range.mp hj, rfl⟩
  have hdata : sizeofLogMateData ≤ r.ring.dataSize := by
    unfold sizeofLogMateData
    unfold sizeofLogEntry at hle
    omega
  have hkey := hlog.key_pos
  rw [mateAt_eq hsize hdata, hzero] at hkey
  exact absurd hkey (by decide)

/-- A header that is not 0 stays in the ring. -/
theorem not_agreesTwoStage_of_found (htested : testedByte r.ring = 1) :
    ¬ AgreesTwoStage r true := by
  intro hagree
  obtain ⟨k, v, hk, hv, hle, hmate⟩ := hlog.lengths
  obtain ⟨b, hfound, -, -, hkept⟩ := readOneLog_found hsize hrd hlog htested
  obtain ⟨c, ⟨j, hj, rfl⟩, hne⟩ := exists_nonzero_header hsize hlog
  have hj' : j < sizeofLogEntry := by
    unfold sizeofLogMateData at hj
    unfold sizeofLogEntry
    omega
  have hzero := hagree.zeroed (by rw [hfound]) _
    ⟨j, by rw [hmate, nextOffset_toNat]; omega, rfl⟩
  rw [hfound, hkept _ ⟨j, by rw [hmate, valueOffset_toNat]; omega, rfl⟩] at hzero
  exact hne hzero

/-- The call agrees with the two-stage reader exactly when the tag byte is not 1 and the
call does not take another byte for it. -/
theorem agreesTwoStage_iff (upperAddr : Bool) : AgreesTwoStage r upperAddr ↔
    tagByte r.ring ≠ 1 ∧ (upperAddr = true → testedByte r.ring ≠ 1) := by
  by_cases hfound : upperAddr = true ∧ testedByte r.ring = 1
  · obtain ⟨rfl, htested⟩ := hfound
    constructor
    · intro hagree
      exact absurd hagree (not_agreesTwoStage_of_found hsize hrd hlog htested)
    · rintro ⟨-, hnot⟩
      exact absurd htested (hnot rfl)
  · have hcall := readOneLog_eq hsize hrd hlog upperAddr
    rw [if_neg hfound] at hcall
    constructor
    · intro hagree
      refine ⟨fun htag => ?_, fun hupper htested => hfound ⟨hupper, htested⟩⟩
      have hreturns := hagree.returns.mpr htag
      rw [hcall] at hreturns
      cases hreturns
    · rintro ⟨htag, -⟩
      have hfalse : ¬ (readOneLog r.ring upperAddr).1 = true := by simp [hcall]
      constructor
      · exact iff_of_false hfalse htag
      · exact fun htrue => absurd htrue hfalse
      · exact fun htrue => absurd htrue hfalse
      · exact fun htrue => absurd htrue hfalse
      · exact fun _ => by rw [hcall]

end Left

/-- A log with key "k" and value "v" at the start of a ring of 64 bytes, its value sent or
not yet. -/
def logRing (sent : Bool) : LocalRingbuff where
  wrPointer := 37
  rdPointer := 0
  size := 64
  rdKeyPointer := 0
  buff := writeBytes (fun _ => 0) 0
    ((HeadLog.plain letterK letterV).mateBytes ++
      if sent then [118, 0, 1] else [])

def logReceiver (sent : Bool) : Receiver := { (freshChain 64 1).receiver with ring := logRing sent }

theorem wholeLog_logRing (sent : Bool) : WholeLog (logRing sent) := by
  cases sent
  · constructor <;> decide +kernel
  · constructor <;> decide +kernel

theorem agreesTwoStage_iff_unsent : tagByte (logRing false) ≠ 1 ∧
    AgreesTwoStage (logReceiver false) true := by
  have htag : tagByte (logRing false) ≠ 1 := by decide +kernel
  have htested : testedByte (logRing false) ≠ 1 := by decide +kernel
  refine ⟨htag, (agreesTwoStage_iff ?_ ?_ (wholeLog_logRing false) true).mpr
    ⟨htag, fun _ => htested⟩⟩
  · exact ⟨6, by norm_num, rfl⟩
  · exact Nat.zero_le _

/-- The log has arrived: its header and its key stay in the ring. -/
theorem not_agreesTwoStage_sent : ¬ ∀ (r : Receiver) (upperAddr : Bool),
    IsRingSize r.ring.size → r.ring.rdPointer ≤ r.ring.size → WholeLog r.ring →
      AgreesTwoStage r upperAddr := by
  intro hclaim
  have hsize : IsRingSize (logReceiver true).ring.size := ⟨6, by norm_num, rfl⟩
  have hlog := wholeLog_logRing true
  have htested : testedByte (logRing true) = 1 := by decide +kernel
  exact not_agreesTwoStage_of_found hsize (Nat.zero_le _) hlog htested
    (hclaim _ _ hsize (Nat.zero_le _) hlog)

end RdmaMiddleware.ReadOneLog
