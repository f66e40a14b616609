import RdmaMiddleware.RingReservation

/-!
# Reads from any position of the ring

`rb_read` compares the length with the bytes behind `rd_pointer`, also when it is told
to start further on. So a read from `start` can run over the write pointer. Without a
destination it clears nothing.
-/
namespace RdmaMiddleware.RingReads
open CInt CircularMemory LogBuffer RingReservation

/-- One call: the return value, the bytes put at `buf`, and the ring afterwards. -/
def rbReadCall (b : LocalRingbuff) (hasBuf : Bool) (start : ℤ) (len : ℕ) (isCopy : Bool) :
    Bool × List UInt8 × LocalRingbuff :=
  match rbRead b hasBuf start len isCopy with
  | some (bs, b') => (true, bs, b')
  | none => (false, [], b)

/-- `start` is -1 or a position of the ring, between the pointers or at the second one. -/
def InRange (b : LocalRingbuff) (start : ℤ) : Prop :=
  start = -1 ∨ ∃ p : ℕ, start = p ∧ p ≤ b.size ∧
    mask ((p : ℤ) - b.rdPointer) b.size ≤ b.dataSize

/-- What should come of a read from `start`. -/
structure ReadOutcome (b : LocalRingbuff) (hasBuf : Bool) (start : ℤ) (len : ℕ)
    (isCopy : Bool) (ok : Bool) (bs : List UInt8) (b' : LocalRingbuff) : Prop where
  returns : ok = true ↔ len ≤ b.countSize (startPos b start)
  refuses : ok = false → bs = [] ∧ b' = b
  delivers : ok = true → hasBuf = true → bs = circRead b.buff b.size (startPos b start) len
  copies : ok = true → isCopy = true → b' = b
  clears : ok = true → isCopy = false →
    (∀ c ∈ cells b.size (startPos b start) len, b'.buff c = 0) ∧
      ∀ c ∉ cells b.size (startPos b start) len, b'.buff c = b.buff c
  moves : ok = true → isCopy = false →
    b' = { b with buff := b'.buff, rdPointer := b'.rdPointer } ∧
      b'.rdPointer ≤ b.size ∧ b'.rdPointer % b.size = (startPos b start + len) % b.size

def ReadsReadable (b : LocalRingbuff) (hasBuf : Bool) (start : ℤ) (len : ℕ) (isCopy : Bool) :
    Prop :=
  let (ok, bs, b') := rbReadCall b hasBuf start len isCopy
  ReadOutcome b hasBuf start len isCopy ok bs b'

section Reads
variable {b : LocalRingbuff} {start : ℤ} {len : ℕ}

theorem startPos_le (hrd : b.rdPointer ≤ b.size) (hstart : InRange b start) :
    startPos b start ≤ b.size := by
  unfold startPos
  rcases hstart with rfl | ⟨p, rfl, hp, -⟩
  · exact hrd
  · rw [if_neg (by omega), Int.toNat_natCast]
    exact hp

/-- From a position in the range there are no more bytes than from `rd_pointer`. -/
theorem countSize_le (hsize : IsRingSize b.size) (hstart : InRange b start) :
    b.countSize (startPos b start) ≤ b.dataSize := by
  unfold startPos
  rcases hstart with rfl | ⟨p, rfl, -, hp⟩
  · exact le_rfl
  · rw [if_neg (by omega), Int.toNat_natCast]
    unfold Ringbuff.countSize
    rw [show (b.wrPointer : ℤ) - p = b.wrPointer - b.rdPointer - (p - b.rdPointer) by ring,
      mask_diff hsize hp]
    exact Nat.sub_le _ _

theorem rbReadCall_refused (hlen : b.dataSize < len) (hasBuf isCopy : Bool) :
    rbReadCall b hasBuf start len isCopy = (false, [], b) := by
  rw [rbReadCall, rbRead, if_pos hlen]

/-- A call that is let through, and where the two modes leave the ring. -/
theorem rbReadCall_done (hsize : IsRingSize b.size) (hpos : startPos b start ≤ b.size)
    (hlen : len ≤ b.dataSize) (hasBuf isCopy : Bool) : ∃ bs b',
      rbReadCall b hasBuf start len isCopy = (true, bs, b') ∧
      (hasBuf = true → bs = circRead b.buff b.size (startPos b start) len) ∧
      (isCopy = true → b' = b) ∧
      (isCopy = false →
        b' = { b with buff := b'.buff, rdPointer := b'.rdPointer } ∧ b'.rdPointer ≤ b.size ∧
          b'.rdPointer % b.size = (startPos b start + len) % b.size ∧
          b'.buff = if hasBuf then
            circWrite b.buff b.size (startPos b start) (List.replicate len 0) else b.buff) := by
  have hdata : b.dataSize < b.size := mask_lt hsize _
  obtain ⟨hle, hmod⟩ := pointer_advance hpos (show len ≤ b.size by omega)
  refine ⟨_, _, by rw [rbReadCall, rbRead_eq hsize hpos hlen], ?_, ?_, ?_⟩
  · rintro rfl
    rfl
  · rintro rfl
    simp
  · rintro rfl
    exact ⟨rfl, hle, hmod, by simp⟩

/-- What a clearing read leaves in the ring. -/
theorem circWrite_zeros (hsize : IsRingSize b.size) {pos : ℕ} (hpos : pos ≤ b.size)
    (hlen : len ≤ b.size) :
    (∀ c ∈ cells b.size pos len, circWrite b.buff b.size pos (List.replicate len 0) c = 0) ∧
      ∀ c ∉ cells b.size pos len,
        circWrite b.buff b.size pos (List.replicate len 0) c = b.buff c := by
  have hlen' : (List.replicate len (0 : UInt8)).length ≤ b.size := by
    rwa [List.length_replicate]
  obtain ⟨-, hout⟩ := circWrite_agrees hsize.pos hpos hlen' b.buff
  refine ⟨?_, by simpa using hout⟩
  rintro c ⟨j, hj, rfl⟩
  have hzero := holds_circWrite hsize.pos hpos hlen' b.buff j (by simpa using hj)
  simpa using hzero

/-- A read does what it should exactly if it is refused, or the bytes from its start on suffice
and it has somewhere to put them, leaves them, or finds them cleared. -/
theorem readsReadable_iff (hsize : IsRingSize b.size) (hrd : b.rdPointer ≤ b.size)
    (hstart : InRange b start) (len : ℕ) (hasBuf isCopy : Bool) :
    ReadsReadable b hasBuf start len isCopy ↔
      b.dataSize < len ∨ (len ≤ b.countSize (startPos b start) ∧
        (hasBuf = true ∨ isCopy = true ∨
          ∀ c ∈ cells b.size (startPos b start) len, b.buff c = 0)) := by
  have hcount := countSize_le hsize hstart
  have hpos := startPos_le hrd hstart
  have hdata : b.dataSize < b.size := mask_lt hsize _
  unfold ReadsReadable
  rcases Nat.lt_or_ge b.dataSize len with hlen | hlen
  · rw [rbReadCall_refused hlen]
    refine iff_of_true ⟨?_, ?_, ?_, ?_, ?_, ?_⟩ (.inl hlen)
    · exact iff_of_false (by simp) (by omega)
    all_goals simp
  · obtain ⟨bs, b', hr, hbs, hcopy, hconsume⟩ := rbReadCall_done hsize hpos hlen hasBuf isCopy
    rw [hr]
    constructor
    · intro h
      refine .inr ⟨h.returns.mp rfl, ?_⟩
      cases hasBuf with
      | true => exact .inl rfl
      | false =>
        cases isCopy with
        | true => exact .inr (.inl rfl)
        | false =>
          obtain ⟨-, -, -, hbuff⟩ := hconsume rfl
          have hclear := (h.clears rfl rfl).1
          rw [hbuff] at hclear
          exact .inr (.inr hclear)
    · rintro (hlt | ⟨hle, hclear⟩)
      · omega
      · refine ⟨iff_of_true rfl hle, by simp, fun _ => hbs, fun _ => hcopy, ?_, ?_⟩
        · intro _ hnot
          obtain ⟨-, -, -, hbuff⟩ := hconsume hnot
          rw [hbuff]
          cases hasBuf with
          | true => exact circWrite_zeros hsize hpos (by omega)
          | false =>
            rw [hnot] at hclear
            exact ⟨by simpa using hclear, fun _ _ => rfl⟩
        · intro _ hnot
          obtain ⟨hframe, hrd', hmod, -⟩ := hconsume hnot
          exact ⟨hframe, hrd', hmod⟩

end Reads

/-- A ring of eight bytes, none of them 0. -/
def eightBytes (rd wr : ℕ) : LocalRingbuff where
  wrPointer := wr
  rdPointer := rd
  size := 8
  rdKeyPointer := 0
  buff := fun i => UInt8.ofNat (i + 1)

theorem isRingSize_eightBytes (rd wr : ℕ) : IsRingSize (eightBytes rd wr).size :=
  ⟨3, by norm_num, rfl⟩

/-- Consuming four bytes across the ring end. -/
theorem readsReadable_iff_wrapped : ReadsReadable (eightBytes 6 2) true (-1) 4 false :=
  (readsReadable_iff (isRingSize_eightBytes 6 2) (by decide) (.inl rfl) 4 true false).mpr
    (.inr ⟨by decide +kernel, .inl rfl⟩)

/-- Five bytes are readable from 0 and two from 3, where a read of four is let through. A read
without a destination consumes a byte that stays in the ring. -/
theorem not_readsReadable_eightBytes :
    IsRingSize (eightBytes 0 5).size ∧ InRange (eightBytes 0 5) 3 ∧
    ¬ ReadsReadable (eightBytes 0 5) true 3 4 true ∧
    ¬ ReadsReadable (eightBytes 0 5) false (-1) 1 false := by
  refine ⟨isRingSize_eightBytes 0 5, .inr ⟨3, rfl, by decide, by decide +kernel⟩,
    fun h => ?_, fun h => ?_⟩
  · exact absurd (h.returns.mp (by decide +kernel)) (by decide +kernel)
  · exact absurd ((h.clears (by decide +kernel) rfl).1 0 ⟨0, by decide, by decide⟩)
      (by decide +kernel)

end RdmaMiddleware.RingReads
