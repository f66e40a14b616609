import Mathlib.Data.Nat.ModEq
import Mathlib.Data.Set.Lattice
import Mathlib.Data.List.TakeDrop
import Mathlib.Order.CompletePartialOrder

/-!
# Bytes in a circular memory

A memory is a function from cells to bytes. A circular buffer of `n` cells stores
position `x` of an unbounded stream in cell `x % n`. A window of `n` consecutive
stream positions meets every cell at most once, so a write inside a window leaves
every other position of the window alone. That is the only fact about wrapping
that the rest of the development uses.
-/
namespace RdmaMiddleware.CircularMemory

variable {β : Type*}

/-- The `len` cells from `pos` on, without wrapping. -/
def readBytes (mem : ℕ → β) (pos len : ℕ) : List β :=
  (List.range len).map (fun j => mem (pos + j))

/-- Store `bs` in the cells from `pos` on, without wrapping. -/
def writeBytes (mem : ℕ → β) (pos : ℕ) (bs : List β) : ℕ → β := fun i =>
  if pos ≤ i then (bs[i - pos]?).getD (mem i) else mem i

/-- The `len` stream positions from `x` on, read through an `n`-cell ring. -/
def circRead (mem : ℕ → β) (n x len : ℕ) : List β :=
  (List.range len).map (fun j => mem ((x + j) % n))

/-- The ring stores `bs` at the stream positions from `x` on. -/
def Holds (mem : ℕ → β) (n x : ℕ) (bs : List β) : Prop :=
  ∀ j (hj : j < bs.length), mem ((x + j) % n) = bs[j]

/-- The cells of `len` consecutive stream positions. -/
def cells (n x len : ℕ) : Set ℕ := {p | ∃ j < len, p = (x + j) % n}

@[simp] theorem length_readBytes (mem : ℕ → β) (pos len : ℕ) :
    (readBytes mem pos len).length = len := by simp [readBytes]

@[simp] theorem length_circRead (mem : ℕ → β) (n x len : ℕ) :
    (circRead mem n x len).length = len := by simp [circRead]

@[simp] theorem readBytes_zero (mem : ℕ → β) (pos : ℕ) : readBytes mem pos 0 = [] := rfl

@[simp] theorem writeBytes_nil (mem : ℕ → β) (pos : ℕ) : writeBytes mem pos [] = mem := by
  funext i
  simp [writeBytes]

theorem writeBytes_add (mem : ℕ → β) (pos : ℕ) (bs : List β) (j : ℕ) (hj : j < bs.length) :
    writeBytes mem pos bs (pos + j) = bs[j] := by
  simp [writeBytes, hj]

theorem writeBytes_of_lt (mem : ℕ → β) (pos : ℕ) (bs : List β) (i : ℕ) (hi : i < pos) :
    writeBytes mem pos bs i = mem i := by
  simp [writeBytes, Nat.not_le.mpr hi]

theorem writeBytes_of_ge (mem : ℕ → β) (pos : ℕ) (bs : List β) (i : ℕ)
    (hi : pos + bs.length ≤ i) : writeBytes mem pos bs i = mem i := by
  have hnone : bs[i - pos]? = none := List.getElem?_eq_none (by omega)
  simp [writeBytes, hnone]

/-- A window of `n` stream positions meets every cell at most once. -/
theorem eq_of_mod_eq {n x y : ℕ} (lo : ℕ) (hx : lo ≤ x) (hx' : x < lo + n) (hy : lo ≤ y)
    (hy' : y < lo + n) (h : x % n = y % n) : x = y := by
  rcases Nat.le_total x y with hxy | hxy
  · have hd : n ∣ y - x := (Nat.modEq_iff_dvd' hxy).mp h
    have := Nat.eq_zero_of_dvd_of_lt hd (by omega)
    omega
  · have hd : n ∣ x - y := (Nat.modEq_iff_dvd' hxy).mp h.symm
    have := Nat.eq_zero_of_dvd_of_lt hd (by omega)
    omega

theorem add_mod_of_fit {n a j k : ℕ} (hfit : a % n + k ≤ n) (hj : j < k) :
    (a + j) % n = a % n + j := by
  rw [Nat.add_mod, Nat.mod_eq_of_lt (show j < n by omega), Nat.mod_eq_of_lt (by omega)]

/-- A chunk that does not wrap puts its bytes at its stream positions. -/
theorem write_at_self {n a : ℕ} (mem : ℕ → β) (bs : List β) (hfit : a % n + bs.length ≤ n)
    (j : ℕ) (hj : j < bs.length) : writeBytes mem (a % n) bs ((a + j) % n) = bs[j] := by
  rw [add_mod_of_fit hfit hj, writeBytes_add]

/-- A chunk that does not wrap leaves the other positions of the window alone. -/
theorem write_at_other {n a x : ℕ} (lo : ℕ) (mem : ℕ → β) (bs : List β)
    (hfit : a % n + bs.length ≤ n) (ha : lo ≤ a) (ha' : a + bs.length ≤ lo + n)
    (hx : lo ≤ x) (hx' : x < lo + n) (hout : x < a ∨ a + bs.length ≤ x) :
    writeBytes mem (a % n) bs (x % n) = mem (x % n) := by
  by_cases hlt : x % n < a % n
  · exact writeBytes_of_lt mem _ _ _ hlt
  by_cases hge : a % n + bs.length ≤ x % n
  · exact writeBytes_of_ge mem _ _ _ hge
  -- otherwise cell `x % n` is the cell of some position of the chunk, hence `x` is in it
  exfalso
  have hj : x % n - a % n < bs.length := by omega
  have hcell : (a + (x % n - a % n)) % n = x % n := by
    rw [add_mod_of_fit hfit hj]
    omega
  have := eq_of_mod_eq lo (by omega) (by omega) hx hx' hcell
  omega

theorem holds_nil (mem : ℕ → β) (n x : ℕ) : Holds mem n x [] := by
  intro j hj
  simp at hj

theorem holds_append {mem : ℕ → β} {n x : ℕ} {as bs : List β} :
    Holds mem n x (as ++ bs) ↔ Holds mem n x as ∧ Holds mem n (x + as.length) bs := by
  constructor
  · intro h
    refine ⟨fun j hj => ?_, fun j hj => ?_⟩
    · have := h j (by simp; omega)
      rwa [List.getElem_append_left hj] at this
    · have := h (as.length + j) (by simp; omega)
      simpa [List.getElem_append_right, ← Nat.add_assoc] using this
  · rintro ⟨ha, hb⟩ j hj
    by_cases hlt : j < as.length
    · rw [List.getElem_append_left hlt]
      exact ha j hlt
    · have hj' : j - as.length < bs.length := by simp at hj; omega
      have := hb (j - as.length) hj'
      rw [List.getElem_append_right (by omega)]
      rwa [show x + as.length + (j - as.length) = x + j by omega] at this

theorem Holds.circRead_eq {mem : ℕ → β} {n x : ℕ} {bs : List β} (h : Holds mem n x bs) :
    circRead mem n x bs.length = bs := by
  apply List.ext_getElem (by simp)
  intro j hj hj'
  simpa [circRead] using h j hj'

theorem holds_circRead (mem : ℕ → β) (n x len : ℕ) : Holds mem n x (circRead mem n x len) := by
  intro j hj
  simp [circRead]

/-- Reading depends on the stream position only modulo the ring size. -/
theorem circRead_mod (mem : ℕ → β) (n x len : ℕ) :
    circRead mem n (x % n) len = circRead mem n x len := by
  simp [circRead]

theorem circRead_of_fit (mem : ℕ → β) {n x len : ℕ} (hfit : x % n + len ≤ n) :
    circRead mem n x len = readBytes mem (x % n) len := by
  apply List.map_congr_left
  intro j hj
  rw [add_mod_of_fit hfit (List.mem_range.mp hj)]

/-- A read that runs over the ring end is the piece up to the end and the piece from 0. -/
theorem circRead_of_wrap (mem : ℕ → β) {n x len : ℕ} (hn : 0 < n) (hlen : len ≤ n)
    (hwrap : n < x % n + len) :
    circRead mem n x len =
      readBytes mem (x % n) (n - x % n) ++ readBytes mem 0 (len - (n - x % n)) := by
  have hx : x % n < n := Nat.mod_lt x hn
  apply List.ext_getElem (by simp; omega)
  intro j hj hj'
  simp only [length_circRead] at hj
  by_cases hlt : j < n - x % n
  · rw [List.getElem_append_left (by simpa using hlt)]
    simp only [circRead, readBytes, List.getElem_map, List.getElem_range]
    rw [add_mod_of_fit (k := n - x % n) (by omega) hlt]
  · rw [List.getElem_append_right (by simpa using hlt)]
    have hj' : (x + j) % n = x % n + j - n := by
      rw [Nat.add_mod, Nat.mod_eq_of_lt (show j < n by omega), Nat.mod_eq_sub_mod (by omega),
        Nat.mod_eq_of_lt (by omega)]
    simp only [circRead, readBytes, List.getElem_map, List.getElem_range, List.length_map,
      List.length_range, hj']
    congr 1
    omega

/-- A chunk written elsewhere in the window leaves a stored string alone. -/
theorem Holds.write_other {mem : ℕ → β} {n a x : ℕ} {cs bs : List β}
    (h : Holds mem n x cs) (lo : ℕ) (hfit : a % n + bs.length ≤ n) (ha : lo ≤ a)
    (ha' : a + bs.length ≤ lo + n) (hx : lo ≤ x) (hx' : x + cs.length ≤ lo + n)
    (hout : x + cs.length ≤ a ∨ a + bs.length ≤ x) :
    Holds (writeBytes mem (a % n) bs) n x cs := by
  intro j hj
  rw [write_at_other lo mem bs hfit ha ha' (by omega) (by omega) (by omega)]
  exact h j hj

theorem Holds.write_self {n a : ℕ} (mem : ℕ → β) (bs : List β)
    (hfit : a % n + bs.length ≤ n) : Holds (writeBytes mem (a % n) bs) n a bs :=
  fun j hj => write_at_self mem bs hfit j hj

theorem cells_mod (n x len : ℕ) : cells n (x % n) len = cells n x len := by
  simp [cells]

theorem cells_congr {n x y : ℕ} (h : x % n = y % n) (len : ℕ) : cells n x len = cells n y len := by
  rw [← cells_mod n x, h, cells_mod]

/-- Separate ranges of one window occupy disjoint cells. -/
theorem cells_disjoint {n x y lx ly : ℕ} (lo : ℕ) (hx : lo ≤ x) (hxy : x + lx ≤ y)
    (hy : y + ly ≤ lo + n) : Disjoint (cells n x lx) (cells n y ly) := by
  rw [Set.disjoint_left]
  rintro p ⟨i, hi, rfl⟩ ⟨j, hj, h⟩
  have := eq_of_mod_eq lo (by omega) (by omega) (by omega) (by omega) h
  omega

/-- A pointer may stand at the ring end instead of at 0, as long as nothing is written there. -/
theorem writeBytes_pos {n pos a : ℕ} (hn : 0 < n) (mem : ℕ → β) (bs : List β)
    (hmod : pos % n = a % n) (hfit : pos + bs.length ≤ n) :
    a % n + bs.length ≤ n ∧ writeBytes mem pos bs = writeBytes mem (a % n) bs := by
  rcases Nat.lt_or_ge pos n with hlt | hge
  · rw [← hmod, Nat.mod_eq_of_lt hlt]
    exact ⟨hfit, rfl⟩
  · have hnil : bs = [] := List.eq_nil_of_length_eq_zero (by omega)
    subst hnil
    have := Nat.mod_lt a hn
    refine ⟨by simp; omega, by simp⟩

/-- Reading a stored string, or a first part of it. -/
theorem Holds.circRead_take {mem : ℕ → β} {n x k : ℕ} {bs : List β} (h : Holds mem n x bs)
    (hk : k ≤ bs.length) : circRead mem n x k = bs.take k := by
  apply List.ext_getElem (by simp; omega)
  intro j hj hj'
  simp only [length_circRead] at hj
  simpa [circRead] using h j (by omega)

/-! ## Runs of bytes -/

theorem readBytes_writeBytes (mem : ℕ → β) (pos : ℕ) (bs : List β) :
    readBytes (writeBytes mem pos bs) pos bs.length = bs := by
  apply List.ext_getElem (by simp)
  intro j hj hj'
  simpa [readBytes] using writeBytes_add mem pos bs j hj'

theorem readBytes_append (mem : ℕ → β) (pos k l : ℕ) :
    readBytes mem pos (k + l) = readBytes mem pos k ++ readBytes mem (pos + k) l := by
  simp [readBytes, List.range_add, Nat.add_assoc]

/-- Reading two strings that stand one behind the other. -/
theorem readBytes_eq_append {mem : ℕ → β} {pos : ℕ} {as bs : List β} :
    readBytes mem pos (as ++ bs).length = as ++ bs ↔
      readBytes mem pos as.length = as ∧ readBytes mem (pos + as.length) bs.length = bs := by
  rw [List.length_append, readBytes_append]
  constructor
  · intro h
    exact List.append_inj h (length_readBytes _ _ _)
  · rintro ⟨has, hbs⟩
    rw [has, hbs]

/-- A write to the end of a string appends to it. -/
theorem writeBytes_writeBytes (mem : ℕ → β) (pos : ℕ) (as bs : List β) :
    writeBytes (writeBytes mem pos as) (pos + as.length) bs = writeBytes mem pos (as ++ bs) := by
  funext i
  simp only [writeBytes]
  rcases Nat.lt_or_ge i (pos + as.length) with hi | hi
  · rw [if_neg (by omega)]
    split_ifs with hpos
    · rw [List.getElem?_append_left (by omega)]
    · rfl
  · rw [if_pos hi, if_pos (by omega), if_pos (by omega), List.getElem?_append_right (by omega),
      Nat.sub_sub, List.getElem?_eq_none (show as.length ≤ i - pos by omega), Option.getD_none]

theorem readBytes_eq_iff {mem : ℕ → β} {pos : ℕ} {bs : List β} :
    readBytes mem pos bs.length = bs ↔ ∀ j (hj : j < bs.length), mem (pos + j) = bs[j] := by
  constructor
  · intro h j hj
    have hget := congrArg (·[j]?) h
    simpa [readBytes, hj] using hget
  · intro h
    apply List.ext_getElem (by simp)
    intro j hj hj'
    simpa [readBytes] using h j hj'

/-! ## Pieces of a text in a ring -/

section Pieces
variable {mem : ℕ → β} {n p k i : ℕ} {text piece : List β}

/-- The ring holds the byte of `text` with index `i` when `text` starts at position `p`. -/
def Agrees (mem : ℕ → β) (n p : ℕ) (text : List β) (i : ℕ) : Prop :=
  text[i]? = some (mem ((p + i) % n))

theorem getElem?_of_piece (hpiece : piece <+: text.drop k) {j : ℕ} (hj : j < piece.length) :
    text[k + j]? = some piece[j] := by
  obtain ⟨rest, hrest⟩ := hpiece
  rw [← List.getElem?_drop, ← hrest, List.getElem?_append_left hj, List.getElem?_eq_getElem hj]

/-- A piece puts its own bytes in place. -/
theorem agrees_piece (hpiece : piece <+: text.drop k) (hfit : (p + k) % n + piece.length ≤ n)
    {j : ℕ} (hj : j < piece.length) :
    Agrees (writeBytes mem ((p + k) % n) piece) n p text (k + j) := by
  unfold Agrees
  rw [getElem?_of_piece hpiece hj, ← Nat.add_assoc, write_at_self mem piece hfit j hj]

/-- A piece undoes no other one: where it writes, it writes what is there. -/
theorem Agrees.write_piece (h : Agrees mem n p text i) (hlen : text.length ≤ n)
    (hpiece : piece <+: text.drop k) (hfit : (p + k) % n + piece.length ≤ n) :
    Agrees (writeBytes mem ((p + k) % n) piece) n p text i := by
  have hi : i < text.length := (List.getElem?_eq_some_iff.mp h).1
  have hk : k + piece.length ≤ text.length ∨ piece = [] := by
    have := hpiece.length_le
    rw [List.length_drop] at this
    rcases Nat.lt_or_ge k text.length with hk | hk
    · exact .inl (by omega)
    · exact .inr (List.eq_nil_of_length_eq_zero (by omega))
  rcases hk with hk | rfl
  · by_cases hin : k ≤ i ∧ i < k + piece.length
    · obtain ⟨j, rfl⟩ := Nat.exists_eq_add_of_le hin.1
      exact agrees_piece hpiece hfit (by omega)
    · unfold Agrees at h ⊢
      rw [write_at_other p mem piece hfit (by omega) (by omega) (by omega) (by omega) (by omega)]
      exact h
  · rwa [writeBytes_nil]

/-- A piece leaves the cells outside the text alone. -/
theorem write_piece_outside (hpiece : piece <+: text.drop k)
    (hfit : (p + k) % n + piece.length ≤ n) {c : ℕ} (hc : c ∉ cells n p text.length) :
    writeBytes mem ((p + k) % n) piece c = mem c := by
  rcases Nat.lt_or_ge c ((p + k) % n) with hlt | hge
  · exact writeBytes_of_lt mem _ _ _ hlt
  rcases Nat.lt_or_ge c ((p + k) % n + piece.length) with hin | hout
  · exfalso
    apply hc
    have hlen := hpiece.length_le
    rw [List.length_drop] at hlen
    refine ⟨k + (c - (p + k) % n), by omega, ?_⟩
    rw [← Nat.add_assoc, add_mod_of_fit hfit (by omega)]
    omega
  · exact writeBytes_of_ge mem _ _ _ hout

/-- The same for a pointer that may stand at the ring end. -/
theorem write_piece_pos (mem : ℕ → β) {pos : ℕ} (hn : 0 < n) (hlen : text.length ≤ n)
    (hpiece : piece <+: text.drop k) (hpos : pos % n = (p + k) % n)
    (hfit : pos + piece.length ≤ n) :
    (∀ i, Agrees mem n p text i → Agrees (writeBytes mem pos piece) n p text i) ∧
      (∀ c ∉ cells n p text.length, writeBytes mem pos piece c = mem c) ∧
      ∀ j < piece.length, Agrees (writeBytes mem pos piece) n p text (k + j) := by
  obtain ⟨hfit', heq⟩ := writeBytes_pos hn mem piece hpos hfit
  rw [heq]
  exact ⟨fun i h => h.write_piece hlen hpiece hfit',
    fun c hc => write_piece_outside hpiece hfit' hc,
    fun j hj => agrees_piece hpiece hfit' hj⟩

/-- A piece all of whose bytes are in place is stored where it belongs. -/
theorem holds_of_agrees {x : ℕ} (hpiece : piece <+: text.drop k)
    (hplaced : ∀ j < piece.length, Agrees mem n p text (k + j)) (hx : x % n = (p + k) % n) :
    Holds mem n x piece := by
  intro j hj
  have h := hplaced j hj
  rw [Agrees, getElem?_of_piece hpiece hj, Option.some.injEq] at h
  rw [h, ← Nat.mod_add_mod, hx, Nat.mod_add_mod, Nat.add_assoc]

/-- Store `bs` from `pos` on, going on at 0 behind the ring end. -/
def circWrite (mem : ℕ → β) (n pos : ℕ) (bs : List β) : ℕ → β :=
  if n < pos + bs.length then
    writeBytes (writeBytes mem pos (bs.take (n - pos))) 0 (bs.drop (n - pos))
  else writeBytes mem pos bs

theorem circWrite_agrees {pos : ℕ} (hn : 0 < n) (hpos : pos ≤ n) {bs : List β}
    (hlen : bs.length ≤ n) (mem : ℕ → β) :
    (∀ j < bs.length, Agrees (circWrite mem n pos bs) n pos bs j) ∧
      ∀ c ∉ cells n pos bs.length, circWrite mem n pos bs c = mem c := by
  unfold circWrite
  split_ifs with hwrap
  · have hfirst : (bs.take (n - pos)).length = n - pos := by
      rw [List.length_take]
      omega
    obtain ⟨-, hout₁, hnew₁⟩ := write_piece_pos mem (p := pos) (k := 0) hn hlen
      (List.take_prefix (n - pos) bs) (rfl : pos % n = (pos + 0) % n) (by omega)
    obtain ⟨hkeep, hout₂, hnew₂⟩ := write_piece_pos (writeBytes mem pos (bs.take (n - pos)))
      (p := pos) (k := n - pos) hn hlen (List.prefix_refl _)
      (show 0 % n = (pos + (n - pos)) % n by
        rw [Nat.add_sub_cancel' hpos, Nat.mod_self, Nat.zero_mod])
      (by rw [List.length_drop]; omega)
    refine ⟨fun j hj => ?_, fun c hc => (hout₂ c hc).trans (hout₁ c hc)⟩
    rcases Nat.lt_or_ge j (n - pos) with hlt | hge
    · exact hkeep j (Nat.zero_add j ▸ hnew₁ j (by omega))
    · obtain ⟨i, rfl⟩ := Nat.exists_eq_add_of_le hge
      exact hnew₂ i (by rw [List.length_drop]; omega)
  · obtain ⟨-, hout, hnew⟩ := write_piece_pos mem (p := pos) (k := 0) hn hlen
      (List.prefix_refl bs) (rfl : pos % n = (pos + 0) % n) (by omega)
    exact ⟨fun j hj => Nat.zero_add j ▸ hnew j hj, hout⟩

theorem holds_circWrite {pos : ℕ} (hn : 0 < n) (hpos : pos ≤ n) {bs : List β}
    (hlen : bs.length ≤ n) (mem : ℕ → β) : Holds (circWrite mem n pos bs) n pos bs := by
  intro j hj
  have h := (circWrite_agrees hn hpos hlen mem).1 j hj
  rw [Agrees, List.getElem?_eq_getElem hj, Option.some.injEq] at h
  exact h.symm

/-- A read from a pointer that may stand at the ring end, in one or two pieces. -/
theorem circRead_eq_pieces (mem : ℕ → β) {pos len : ℕ} (hn : 0 < n) (hpos : pos ≤ n)
    (hlen : len ≤ n) :
    circRead mem n pos len =
      if n < pos + len then readBytes mem pos (n - pos) ++ readBytes mem 0 (len - (n - pos))
      else readBytes mem pos len := by
  rcases Nat.lt_or_ge pos n with hlt | hge
  · have hmod := Nat.mod_eq_of_lt hlt
    split_ifs with hwrap
    · rw [circRead_of_wrap mem hn hlen (by omega), hmod]
    · rw [circRead_of_fit mem (by omega), hmod]
  · obtain rfl : pos = n := by omega
    have hzero : circRead mem pos pos len = readBytes mem 0 len := by
      rw [← circRead_mod, circRead_of_fit mem (by rw [Nat.mod_mod, Nat.mod_self]; omega),
        Nat.mod_mod, Nat.mod_self]
    rw [hzero, Nat.sub_self, Nat.sub_zero]
    split_ifs with hwrap
    · rfl
    · obtain rfl : len = 0 := by omega
      rfl

/-- What is stored outside the cells of a write stays. -/
theorem Holds.circWrite {x pos : ℕ} {cs bs : List β} (h : Holds mem n x cs) (hn : 0 < n)
    (hpos : pos ≤ n) (hlen : bs.length ≤ n)
    (hout : Disjoint (cells n x cs.length) (cells n pos bs.length)) :
    Holds (circWrite mem n pos bs) n x cs := by
  intro j hj
  rw [(circWrite_agrees hn hpos hlen mem).2 _ (Set.disjoint_left.mp hout ⟨j, hj, rfl⟩)]
  exact h j hj

end Pieces

end RdmaMiddleware.CircularMemory
