import RdmaMiddleware.CInt
import RdmaMiddleware.CircularMemory

/-!
# The bounded queue of fixed-size entries

`unQueue` keeps `len` slots of `entry_size` bytes and two indices. One slot always
stays free, so equal indices mean empty. The slots are one block of memory: bytes
are addressed by their offset from `q->data`, which is signed because `topQueue`
computes it in `int` while `putQueue` computes it in `size_t`.

`Represents q p held` relates a queue to the list of entries it holds after `p`
removals. The operations are shown to be those of a list of at most `len - 1`
entries, as long as the last slot starts below offset `2 ^ 31`.
-/
namespace RdmaMiddleware.UnlockQueue
open CInt CircularMemory

abbrev Entry := List UInt8

/-- `unQueue`; `data` is the memory around the allocated block, by offset. -/
structure UnQueue where
  entrySize : ℕ
  len : ℕ
  wid : ℕ
  rid : ℕ
  data : ℤ → UInt8

/-- `memcpy` from the block. -/
def readAt (data : ℤ → UInt8) (off : ℤ) (len : ℕ) : List UInt8 :=
  (List.range len).map (fun j : ℕ => data (off + j))

/-- `memcpy` into the block. -/
def writeAt (data : ℤ → UInt8) (off : ℤ) (bs : List UInt8) : ℤ → UInt8 := fun i =>
  if off ≤ i then (bs[(i - off).toNat]?).getD (data i) else data i

def initQueue (entrySize nums : ℕ) (junk : ℤ → UInt8) : UnQueue :=
  { entrySize := entrySize, len := nums, wid := 0, rid := 0, data := junk }

/-- `q->entry_size * q->wid`, a `size_t` product. -/
def putOffset (q : UnQueue) : ℤ := (q.entrySize * q.wid % 2 ^ 64 : ℕ)

/-- `(int)q->entry_size * q->rid`, an `int` product. -/
def topOffset (q : UnQueue) : ℤ := cInt (cInt q.entrySize * q.rid)

def putQueue (q : UnQueue) (data : Entry) : ℕ × UnQueue :=
  if (q.wid + 1) % q.len = q.rid then (0, q)
  else (1, { q with data := writeAt q.data (putOffset q) data, wid := (q.wid + 1) % q.len })

def popQueue (q : UnQueue) : UnQueue :=
  if q.wid = q.rid then q else { q with rid := (q.rid + 1) % q.len }

def emptyQueue (q : UnQueue) : ℕ := if q.wid = q.rid then 1 else 0

def topQueue (q : UnQueue) : Entry := readAt q.data (topOffset q) q.entrySize

/-! ## The memory block -/

@[simp] theorem length_readAt (data : ℤ → UInt8) (off : ℤ) (len : ℕ) :
    (readAt data off len).length = len := by simp [readAt]

@[simp] theorem getElem_readAt (data : ℤ → UInt8) (off : ℤ) (len j : ℕ)
    (hj : j < (readAt data off len).length) : (readAt data off len)[j] = data (off + j) := by
  simp [readAt]

theorem readAt_succ (data : ℤ → UInt8) (off : ℤ) (len : ℕ) :
    readAt data off (len + 1) = readAt data off len ++ [data (off + len)] := by
  simp [readAt, List.range_succ]

theorem writeAt_inside (data : ℤ → UInt8) (off : ℤ) (bs : List UInt8) (j : ℕ)
    (hj : j < bs.length) : writeAt data off bs (off + j) = bs[j] := by
  simp [writeAt, hj]

theorem writeAt_outside (data : ℤ → UInt8) (off : ℤ) (bs : List UInt8) (i : ℤ)
    (hi : i < off ∨ off + bs.length ≤ i) : writeAt data off bs i = data i := by
  unfold writeAt
  split_ifs with hle
  · have hnone : bs[(i - off).toNat]? = none := List.getElem?_eq_none (by omega)
    simp [hnone]
  · rfl

@[simp] theorem writeAt_nil (data : ℤ → UInt8) (off : ℤ) : writeAt data off [] = data := by
  funext i
  simp [writeAt]

/-- Writing a string byte after byte is writing it at once. -/
theorem writeAt_append (data : ℤ → UInt8) (off : ℤ) (as bs : List UInt8) :
    writeAt (writeAt data off as) (off + as.length) bs = writeAt data off (as ++ bs) := by
  funext i
  by_cases hlt : i < off
  · simp [writeAt, Int.not_le.mpr hlt, show ¬ off + as.length ≤ i by omega]
  · obtain ⟨j, rfl⟩ : ∃ j : ℕ, i = off + j := ⟨(i - off).toNat, by omega⟩
    by_cases hja : j < as.length
    · rw [writeAt_outside _ _ _ _ (by omega), writeAt_inside _ _ _ _ hja,
        writeAt_inside _ _ _ _ (by simp; omega), List.getElem_append_left hja]
    by_cases hjb : j < as.length + bs.length
    · rw [show off + (j : ℤ) = off + as.length + ((j - as.length : ℕ) : ℤ) by omega,
        writeAt_inside _ _ _ _ (by omega),
        show off + (as.length : ℤ) + ((j - as.length : ℕ) : ℤ) = off + (j : ℤ) by omega,
        writeAt_inside _ _ _ _ (by simpa using hjb),
        List.getElem_append_right (by omega)]
    · rw [writeAt_outside _ _ _ _ (by omega), writeAt_outside _ _ _ _ (by omega),
        writeAt_outside _ _ _ _ (by simp; omega)]

theorem readAt_writeAt_self (data : ℤ → UInt8) (off : ℤ) (bs : List UInt8) :
    readAt (writeAt data off bs) off bs.length = bs := by
  apply List.ext_getElem (by simp)
  intro j hj hj'
  rw [getElem_readAt, writeAt_inside _ _ _ _ hj']

theorem readAt_congr {data data' : ℤ → UInt8} {off : ℤ} {len : ℕ}
    (h : ∀ j < len, data (off + j) = data' (off + j)) :
    readAt data off len = readAt data' off len := by
  apply List.map_congr_left
  intro j hj
  exact h j (List.mem_range.mp hj)

theorem readAt_writeAt_other (data : ℤ → UInt8) {off off' : ℤ} {len : ℕ} {bs : List UInt8}
    (h : off + len ≤ off' ∨ off' + bs.length ≤ off) :
    readAt (writeAt data off' bs) off len = readAt data off len := by
  apply readAt_congr
  intro j hj
  exact writeAt_outside _ _ _ _ (by omega)

/-! ## Slots -/

/-- The bytes of slot `i`. -/
def slot (q : UnQueue) (i : ℕ) : Entry := readAt q.data (q.entrySize * i : ℕ) q.entrySize

/-- Every slot can be addressed by an `int` offset. -/
def Addressable (entrySize len : ℕ) : Prop := entrySize * (len - 1) < 2 ^ 31

instance (entrySize len : ℕ) : Decidable (Addressable entrySize len) :=
  inferInstanceAs (Decidable (_ < _))

theorem slot_offsets {x y : ℕ} (size : ℕ) (h : x ≠ y) :
    size * x + size ≤ size * y ∨ size * y + size ≤ size * x := by
  rcases Nat.lt_or_gt_of_ne h with hlt | hlt
  · exact .inl (Nat.mul_le_mul_left size (show x + 1 ≤ y by omega))
  · exact .inr (Nat.mul_le_mul_left size (show y + 1 ≤ x by omega))

/-- A write inside one slot leaves every other slot alone. -/
theorem slot_writeAt_other (q : UnQueue) {x y k : ℕ} {bs : List UInt8} (h : x ≠ y)
    (hk : k + bs.length ≤ q.entrySize) :
    readAt (writeAt q.data ((q.entrySize * y : ℕ) + k) bs) (q.entrySize * x : ℕ) q.entrySize =
      slot q x := by
  apply readAt_writeAt_other
  rcases slot_offsets q.entrySize h with hlt | hlt
  · left; omega
  · right; omega

theorem putOffset_eq {q : UnQueue} (hA : Addressable q.entrySize q.len) (hw : q.wid < q.len) :
    putOffset q = (q.entrySize * q.wid : ℕ) := by
  have hle : q.entrySize * q.wid ≤ q.entrySize * (q.len - 1) :=
    Nat.mul_le_mul_left _ (by omega)
  unfold Addressable at hA
  unfold putOffset
  rw [Nat.mod_eq_of_lt (by omega)]

theorem topOffset_eq {q : UnQueue} (hA : Addressable q.entrySize q.len) (hr : q.rid < q.len) :
    topOffset q = (q.entrySize * q.rid : ℕ) := by
  have hle : q.entrySize * q.rid ≤ q.entrySize * (q.len - 1) :=
    Nat.mul_le_mul_left _ (by omega)
  unfold Addressable at hA
  unfold topOffset
  rcases Nat.eq_zero_or_pos q.rid with h0 | hpos
  · simp [h0, cInt]
  · have hsize : q.entrySize ≤ q.entrySize * q.rid := Nat.le_mul_of_pos_right _ hpos
    rw [cInt_natCast (by omega), ← Nat.cast_mul, cInt_natCast (by omega)]

/-! ## The list a queue stands for -/

/-- `q` holds the entries `held` after `p` entries have been removed. -/
structure Represents (q : UnQueue) (p : ℕ) (held : List Entry) : Prop where
  space : held.length < q.len
  rid_eq : q.rid = p % q.len
  wid_eq : q.wid = (p + held.length) % q.len
  slots : ∀ i (hi : i < held.length), slot q ((p + i) % q.len) = held[i]

namespace Represents

variable {q : UnQueue} {p : ℕ} {held : List Entry}

theorem wid_lt (h : Represents q p held) : q.wid < q.len := by
  rw [h.wid_eq]
  exact Nat.mod_lt _ (by have := h.space; omega)

theorem rid_lt (h : Represents q p held) : q.rid < q.len := by
  rw [h.rid_eq]
  exact Nat.mod_lt _ (by have := h.space; omega)

/-- The full test of `putQueue` is exact. -/
theorem full_iff (h : Represents q p held) :
    (q.wid + 1) % q.len = q.rid ↔ held.length + 1 = q.len := by
  have hspace := h.space
  rw [h.wid_eq, h.rid_eq, Nat.mod_add_mod]
  constructor
  · intro heq
    have hwin : (p + held.length + 1) % q.len = (p + q.len) % q.len := by
      rw [heq, Nat.add_mod_right]
    have := eq_of_mod_eq (p + 1) (by omega) (by omega) (by omega) (by omega) hwin
    omega
  · intro heq
    rw [show p + held.length + 1 = p + q.len by omega, Nat.add_mod_right]

/-- The empty test is exact. -/
theorem empty_iff (h : Represents q p held) : q.wid = q.rid ↔ held = [] := by
  have hspace := h.space
  rw [h.wid_eq, h.rid_eq]
  constructor
  · intro heq
    have := eq_of_mod_eq p (by omega) (by omega) (by omega) (by omega) heq
    exact List.eq_nil_of_length_eq_zero (by omega)
  · rintro rfl
    simp

/-- Memory that agrees on the held slots holds the same entries. -/
theorem with_data (h : Represents q p held) {data : ℤ → UInt8}
    (hdata : ∀ i < held.length,
      slot { q with data := data } ((p + i) % q.len) = slot q ((p + i) % q.len)) :
    Represents { q with data := data } p held where
  space := h.space
  rid_eq := h.rid_eq
  wid_eq := h.wid_eq
  slots := fun i hi => (hdata i hi).trans (h.slots i hi)

/-- The slot at `wid` is not one of the held slots. -/
theorem held_ne_wid (h : Represents q p held) {i : ℕ} (hi : i < held.length) :
    (p + i) % q.len ≠ q.wid := by
  have hspace := h.space
  intro heq
  rw [h.wid_eq] at heq
  have := eq_of_mod_eq p (by omega) (by omega) (by omega) (by omega) heq
  omega

/-- Filling the free slot at `wid`, wholly or in part, disturbs no held entry. -/
theorem write_free (h : Represents q p held) {k : ℕ} {bs : List UInt8}
    (hk : k + bs.length ≤ q.entrySize) :
    Represents { q with data := writeAt q.data ((q.entrySize * q.wid : ℕ) + k) bs } p held :=
  h.with_data fun _ hi => slot_writeAt_other q (h.held_ne_wid hi) hk

/-- Publishing the filled slot appends its entry. -/
theorem publish (h : Represents q p held) (hfull : held.length + 1 < q.len) {e : Entry}
    (he : slot q q.wid = e) :
    Represents { q with wid := (q.wid + 1) % q.len } p (held ++ [e]) where
  space := by simpa using hfull
  rid_eq := h.rid_eq
  wid_eq := by
    show (q.wid + 1) % q.len = (p + (held ++ [e]).length) % q.len
    rw [h.wid_eq, Nat.mod_add_mod, List.length_append, List.length_singleton, Nat.add_assoc]
  slots := by
    intro i hi
    by_cases hlt : i < held.length
    · rw [List.getElem_append_left hlt]
      exact h.slots i hlt
    · have hi' : i = held.length := by simp at hi; omega
      subst hi'
      rw [List.getElem_concat_length rfl, ← he, h.wid_eq]
      rfl

/-- Advancing `rid` removes the oldest entry. -/
theorem advance {e : Entry} (h : Represents q p (e :: held)) :
    Represents { q with rid := (q.rid + 1) % q.len } (p + 1) held where
  space := by have := h.space; simp at this ⊢; omega
  rid_eq := by
    show (q.rid + 1) % q.len = (p + 1) % q.len
    rw [h.rid_eq, Nat.mod_add_mod]
  wid_eq := by
    show q.wid = _
    rw [h.wid_eq, List.length_cons, show p + (held.length + 1) = p + 1 + held.length by omega]
  slots := by
    intro i hi
    have := h.slots (i + 1) (by simpa using hi)
    rw [show p + (i + 1) = p + 1 + i by omega, List.getElem_cons_succ] at this
    exact this

theorem slot_rid {e : Entry} (h : Represents q p (e :: held)) : slot q q.rid = e := by
  have := h.slots 0 (by simp)
  rw [h.rid_eq]
  simpa using this

end Represents

/-! ## The operations, one call at a time -/

/-- What `putQueue` does to the list of entries: `none` when the queue is full. -/
def boundedPut {α : Type*} (len : ℕ) (held : List α) (e : α) : Option (List α) :=
  if held.length = len - 1 then none else some (held ++ [e])

variable {q : UnQueue} {p : ℕ} {held : List Entry}

theorem initQueue_represents (entrySize : ℕ) {nums : ℕ} (hn : 1 ≤ nums) (junk : ℤ → UInt8) :
    Represents (initQueue entrySize nums junk) 0 [] where
  space := hn
  rid_eq := (Nat.zero_mod nums).symm
  wid_eq := (Nat.zero_mod nums).symm
  slots := by intro i hi; simp at hi

theorem putQueue_eq_zero_iff (h : Represents q p held) (e : Entry) :
    (putQueue q e).1 = 0 ↔ held.length = q.len - 1 := by
  have hspace := h.space
  unfold putQueue
  split_ifs with hfull
  · have := h.full_iff.mp hfull
    simp
    omega
  · have : held.length + 1 ≠ q.len := fun heq => hfull (h.full_iff.mpr heq)
    simp
    omega

theorem emptyQueue_ne_zero_iff (h : Represents q p held) : emptyQueue q ≠ 0 ↔ held = [] := by
  rw [← h.empty_iff]
  unfold emptyQueue
  split_ifs with heq <;> simp [heq]

/-- `putQueue` appends, unless `len - 1` entries are held. -/
theorem putQueue_represents (hA : Addressable q.entrySize q.len) (h : Represents q p held)
    {e : Entry} (he : e.length = q.entrySize) (hput : (putQueue q e).1 ≠ 0) :
    Represents (putQueue q e).2 p (held ++ [e]) := by
  have hspace := h.space
  have hfull : ¬ (q.wid + 1) % q.len = q.rid := fun heq => hput (by simp [putQueue, heq])
  have hfree : held.length + 1 < q.len := by
    have : held.length + 1 ≠ q.len := fun heq => hfull (h.full_iff.mpr heq)
    omega
  have hwrite := h.write_free (k := 0) (show 0 + e.length ≤ q.entrySize by omega)
  have hpub := hwrite.publish (e := e) hfree (by
    show readAt _ _ _ = e
    rw [Nat.cast_zero, Int.add_zero, ← he]
    exact readAt_writeAt_self _ _ _)
  rw [Nat.cast_zero, Int.add_zero, ← putOffset_eq hA h.wid_lt] at hpub
  simpa only [putQueue, if_neg hfull] using hpub

theorem putQueue_full (hput : (putQueue q e).1 = 0) : (putQueue q e).2 = q := by
  by_cases hfull : (q.wid + 1) % q.len = q.rid
  · simp only [putQueue, if_pos hfull]
  · simp [putQueue, hfull] at hput

theorem putQueue_refines (hA : Addressable q.entrySize q.len) (h : Represents q p held)
    {e : Entry} (he : e.length = q.entrySize) :
    match boundedPut q.len held e with
    | none => putQueue q e = (0, q)
    | some held' => (putQueue q e).1 ≠ 0 ∧ Represents (putQueue q e).2 p held' := by
  have hzero := putQueue_eq_zero_iff h e
  unfold boundedPut
  split_ifs with hfull
  · exact Prod.ext (hzero.mpr hfull) (putQueue_full (hzero.mpr hfull))
  · have hput : (putQueue q e).1 ≠ 0 := fun h0 => hfull (hzero.mp h0)
    exact ⟨hput, putQueue_represents hA h he hput⟩

/-- `topQueue` copies the oldest entry out. -/
theorem topQueue_eq {e : Entry} (hA : Addressable q.entrySize q.len)
    (h : Represents q p (e :: held)) : topQueue q = e := by
  unfold topQueue
  rw [topOffset_eq hA h.rid_lt]
  exact h.slot_rid

theorem popQueue_represents {e : Entry} (h : Represents q p (e :: held)) :
    Represents (popQueue q) (p + 1) held := by
  have hne : ¬ q.wid = q.rid := fun heq => by simpa using h.empty_iff.mp heq
  simpa only [popQueue, if_neg hne] using h.advance

end RdmaMiddleware.UnlockQueue
