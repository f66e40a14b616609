import RdmaMiddleware.LogBuffer

/-!
# The cursor functions over the ring

`memcpy_buffer`, `index_char`, `next_byte` and `get_char` give the upper layer a view of the
readable bytes from a ring address on. An address is its distance from `buff_addr`.
`memcpy_buffer` splits a copy at the ring end, the others mask the index.
-/
namespace RdmaMiddleware.RingCursor
open CInt CircularMemory LogBuffer

/-- What becomes of a `memcpy_buffer`: `exit(0)`, a `memcpy` with a negative length, or the
bytes at `dest`. -/
inductive CopyOutcome
  | exit
  | crash
  | done (dest : List UInt8)

/-- `memcpy_buffer`. The first piece of a copy across the ring end is taken from
`buff_addr` itself. -/
def memcpyBuffer (b : LocalRingbuff) (pos : ℕ) (len : ℤ) : CopyOutcome :=
  if (b.countSize pos : ℤ) < len then .exit
  else if (b.size : ℤ) < pos + len then
    let leftSize := b.size - pos
    .done (readBytes b.buff 0 leftSize ++ readBytes b.buff 0 (len.toNat - leftSize))
  else if len < 0 then .crash
  else .done (readBytes b.buff pos len.toNat)

def getChar (b : LocalRingbuff) (pos : ℕ) : UInt8 := b.buff pos

def nextByte (b : LocalRingbuff) (pos : ℕ) : ℕ := mask ((pos : ℤ) + 1) b.size

/-- `index_char`, with `none` for `exit(0)`. -/
def indexChar (b : LocalRingbuff) (pos : ℕ) (offset : ℤ) : Option UInt8 :=
  if (b.countSize pos : ℤ) < offset then none
  else some (b.buff (mask (pos + offset) b.size))

/-! ## The linear view -/

/-- The readable bytes from an address on. -/
def readable (b : LocalRingbuff) (pos : ℕ) : List UInt8 :=
  circRead b.buff b.size pos (b.countSize pos)

/-- The functions present `readable` as one sequence of bytes. -/
structure LinearView (b : LocalRingbuff) (pos : ℕ) (n i : ℤ) : Prop where
  copies : (∃ dest, memcpyBuffer b pos n = .done dest) ↔ n ≤ b.countSize pos
  indexes : (indexChar b pos i).isSome = true ↔ 0 ≤ i ∧ i < b.countSize pos
  agree : ∀ dest, memcpyBuffer b pos n = .done dest →
    ∀ j : ℕ, (j : ℤ) < n → dest[j]? = indexChar b pos j
  steps : ∀ j < b.countSize pos,
    indexChar b pos j = some (getChar b ((nextByte b)^[j] pos))

/-! ## Masking -/

variable {b : LocalRingbuff} {pos : ℕ} {n i : ℤ}

theorem countSize_lt (hsize : IsRingSize b.size) (pos : ℕ) : b.countSize pos < b.size :=
  mask_lt hsize _

/-- Stepping is counting modulo the size. -/
theorem iterate_nextByte (hsize : IsRingSize b.size) (hpos : pos < b.size) (j : ℕ) :
    (nextByte b)^[j] pos = (pos + j) % b.size := by
  induction j with
  | zero => exact (Nat.mod_eq_of_lt hpos).symm
  | succ j ih =>
    rw [Function.iterate_succ_apply', ih, nextByte]
    have hcast : (((pos + j) % b.size : ℕ) : ℤ) + 1 = (((pos + j) % b.size + 1 : ℕ) : ℤ) := by
      push_cast
      rfl
    rw [hcast, mask_natCast hsize, Nat.mod_add_mod, Nat.add_assoc]

theorem indexChar_natCast (hsize : IsRingSize b.size) {j : ℕ} (hj : j ≤ b.countSize pos) :
    indexChar b pos j = some (b.buff ((pos + j) % b.size)) := by
  rw [indexChar, if_neg (by omega), ← Nat.cast_add, mask_natCast hsize]

/-- Inside the readable range `index_char` reads the sequence. -/
theorem indexChar_eq_getElem? (hsize : IsRingSize b.size) {j : ℕ} (hj : j < b.countSize pos) :
    indexChar b pos j = (readable b pos)[j]? := by
  rw [indexChar_natCast hsize hj.le, readable, circRead, List.getElem?_map,
    List.getElem?_range hj, Option.map_some]

/-- `next_byte` and `get_char` do, too. -/
theorem indexChar_eq_steps (hsize : IsRingSize b.size) (hpos : pos < b.size) {j : ℕ}
    (hj : j < b.countSize pos) :
    indexChar b pos j = some (getChar b ((nextByte b)^[j] pos)) := by
  rw [indexChar_natCast hsize hj.le, iterate_nextByte hsize hpos, getChar]

/-- `index_char` refuses only offsets behind the byte after the range. -/
theorem isSome_indexChar : (indexChar b pos i).isSome = true ↔ i ≤ b.countSize pos := by
  unfold indexChar
  split_ifs with hlt
  · simp [hlt]
  · simpa using hlt

/-! ## Copying -/

theorem memcpyBuffer_done_iff (hpos : pos < b.size) :
    (∃ dest, memcpyBuffer b pos n = .done dest) ↔ 0 ≤ n ∧ n ≤ b.countSize pos := by
  unfold memcpyBuffer
  by_cases hle : n ≤ b.countSize pos
  case neg =>
    rw [if_pos (by omega)]
    simp [hle]
  rw [if_neg (by omega)]
  by_cases hwrap : (b.size : ℤ) < pos + n
  · rw [if_pos hwrap]
    exact iff_of_true ⟨_, rfl⟩ ⟨by omega, hle⟩
  rw [if_neg hwrap]
  by_cases hneg : n < 0
  · rw [if_pos hneg]
    simp [hneg]
  · rw [if_neg hneg]
    exact iff_of_true ⟨_, rfl⟩ ⟨by omega, hle⟩

/-- A copy in one piece takes the first bytes of the sequence. -/
theorem memcpyBuffer_of_fit (hpos : pos < b.size) {len : ℕ} (hle : len ≤ b.countSize pos)
    (hfit : pos + len ≤ b.size) :
    memcpyBuffer b pos len = .done ((readable b pos).take len) := by
  have hbytes : readBytes b.buff pos len = (readable b pos).take len := by
    have htake := (holds_circRead b.buff b.size pos (b.countSize pos)).circRead_take
      (hle.trans_eq (length_circRead ..).symm)
    have hmod := Nat.mod_eq_of_lt hpos
    rw [readable, ← htake, circRead_of_fit _ (by omega), hmod]
  rw [memcpyBuffer, if_neg (by omega), if_neg (by omega), if_neg (by omega), Int.toNat_natCast,
    hbytes]

theorem memcpyBuffer_of_wrap {len : ℕ} (hle : len ≤ b.countSize pos)
    (hwrap : b.size < pos + len) :
    memcpyBuffer b pos len = .done (readBytes b.buff 0 (b.size - pos) ++
      readBytes b.buff 0 (len - (b.size - pos))) := by
  rw [memcpyBuffer, if_neg (by omega), if_pos (by omega), Int.toNat_natCast]

/-- Across the ring end the copy is right when the start of the ring happens to hold what
stands at its end. -/
theorem wrapped_copy_iff (hpos : pos < b.size) {len : ℕ} (hlen : len < b.size)
    (hwrap : b.size < pos + len) :
    (∀ j < len, (readBytes b.buff 0 (b.size - pos) ++
        readBytes b.buff 0 (len - (b.size - pos)))[j]? = some (b.buff ((pos + j) % b.size))) ↔
      ∀ j < b.size - pos, b.buff j = b.buff (pos + j) := by
  have hfirst : ∀ j < b.size - pos, (readBytes b.buff 0 (b.size - pos) ++
      readBytes b.buff 0 (len - (b.size - pos)))[j]? = some (b.buff j) := by
    intro j hj
    rw [List.getElem?_append_left (by simpa using hj)]
    simp [readBytes, hj]
  constructor
  · intro hall j hj
    have hj' := hall j (by omega)
    rw [hfirst j hj, Nat.mod_eq_of_lt (by omega)] at hj'
    exact Option.some.inj hj'
  · intro hsame j hj
    by_cases hin : j < b.size - pos
    · rw [hfirst j hin, Nat.mod_eq_of_lt (by omega), hsame j hin]
    · have hsecond : (pos + j) % b.size = j - (b.size - pos) := by
        rw [show pos + j = j - (b.size - pos) + b.size by omega, Nat.add_mod_right,
          Nat.mod_eq_of_lt (by omega)]
      rw [List.getElem?_append_right (by simpa using hin), length_readBytes, hsecond]
      have hj' : j - (b.size - pos) < len - (b.size - pos) := by omega
      simp [readBytes, hj']

/-- A completed copy agrees with `index_char` exactly when it does not wrap or the ring is
lucky. -/
theorem copy_agrees_iff (hsize : IsRingSize b.size) (hpos : pos < b.size) {len : ℕ}
    (hle : len ≤ b.countSize pos) :
    (∀ dest, memcpyBuffer b pos len = .done dest →
        ∀ j : ℕ, (j : ℤ) < len → dest[j]? = indexChar b pos j) ↔
      (b.size < pos + len → ∀ j < b.size - pos, b.buff j = b.buff (pos + j)) := by
  have hlen := hle.trans_lt (countSize_lt hsize pos)
  by_cases hwrap : b.size < pos + len
  · rw [memcpyBuffer_of_wrap hle hwrap]
    constructor
    · intro hall _
      refine (wrapped_copy_iff hpos hlen hwrap).mp (fun j hj => ?_)
      rw [hall _ rfl j (by omega), indexChar_natCast hsize (by omega)]
    · rintro hsame dest hdest j hj
      cases hdest
      rw [(wrapped_copy_iff hpos hlen hwrap).mpr (hsame hwrap) j (by omega),
        indexChar_natCast hsize (by omega)]
  · rw [memcpyBuffer_of_fit hpos hle (by omega)]
    refine iff_of_true ?_ (fun h => absurd h hwrap)
    rintro dest hdest j hj
    cases hdest
    rw [List.getElem?_take_of_lt (by omega), indexChar_eq_getElem? hsize (by omega)]

/-! ## When the functions agree -/

/-- The four functions agree exactly when the count is not negative, a copy across the ring
end meets equal bytes, and the index is neither negative nor the first one behind the
readable range. -/
theorem linearView_iff (hsize : IsRingSize b.size) (hpos : pos < b.size) :
    LinearView b pos n i ↔ 0 ≤ n ∧ (n ≤ b.countSize pos → (b.size : ℤ) < pos + n →
        ∀ j < b.size - pos, b.buff j = b.buff (pos + j)) ∧
      0 ≤ i ∧ i ≠ b.countSize pos := by
  have hdone := memcpyBuffer_done_iff (n := n) hpos
  constructor
  · intro h
    have hn : 0 ≤ n := by
      by_contra hneg
      exact hneg (hdone.mp (h.copies.mpr (by omega))).1
    obtain ⟨len, rfl⟩ := Int.eq_ofNat_of_zero_le hn
    refine ⟨hn, fun hle hwrap => ?_, ?_, ?_⟩
    · exact (copy_agrees_iff hsize hpos (by omega)).mp h.agree (by omega)
    · by_contra hneg
      exact hneg (h.indexes.mp (isSome_indexChar.mpr (by omega))).1
    · intro hend
      exact (h.indexes.mp (isSome_indexChar.mpr hend.le)).2.ne hend
  · rintro ⟨hn, hsame, hi, hend⟩
    obtain ⟨len, rfl⟩ := Int.eq_ofNat_of_zero_le hn
    constructor
    · rw [hdone]
      exact and_iff_right hn
    · rw [isSome_indexChar]
      omega
    · intro dest hdest
      have hle := (hdone.mp ⟨dest, hdest⟩).2
      refine (copy_agrees_iff hsize hpos (by omega)).mpr (fun hwrap => ?_) dest hdest
      exact hsame hle (by omega)
    · intro j hj
      exact indexChar_eq_steps hsize hpos hj

/-- A full ring of eight bytes that holds its own positions. -/
def countingRing : LocalRingbuff where
  wrPointer := 5
  rdPointer := 6
  size := 8
  rdKeyPointer := 6
  buff := UInt8.ofNat

theorem isRingSize_countingRing : IsRingSize countingRing.size := ⟨3, by norm_num, rfl⟩

theorem linearView_iff_upToEnd : LinearView countingRing 6 2 1 :=
  (linearView_iff isRingSize_countingRing (by decide)).mpr
    ⟨by decide, fun _ hwrap => absurd hwrap (by decide), by decide, by decide +kernel⟩

/-- The copy of four bytes from position 6 holds 0, 1, 0, 1 instead of 6, 7, 0, 1, and
`index_char` returns the byte behind the seven readable ones. -/
theorem not_linearView_wrap :
    (¬ ∀ (b : LocalRingbuff) (pos : ℕ) (n i : ℤ), IsRingSize b.size → pos < b.size →
      LinearView b pos n i) ∧
    memcpyBuffer countingRing 6 4 = .done [0, 1, 0, 1] ∧
    (List.range 4).map (fun j => indexChar countingRing 6 j) = [some 6, some 7, some 0, some 1] ∧
    countingRing.countSize 6 = 7 ∧ indexChar countingRing 6 7 = some 5 := by
  refine ⟨fun hclaim => ?_, rfl, ?_, ?_, ?_⟩
  · have hview := hclaim countingRing 6 4 1 isRingSize_countingRing (by decide)
    have hbyte := hview.agree [0, 1, 0, 1] rfl 0 (by decide)
    exact absurd hbyte (by decide +kernel)
  · decide +kernel
  · decide +kernel
  · decide +kernel

end RdmaMiddleware.RingCursor
