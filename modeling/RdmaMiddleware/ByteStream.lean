import RdmaMiddleware.RingReservation

/-!
# The ring as a byte stream

`rb_write` on one side and consuming `rb_read` on the other, each as one call. What the
ring is for is a bounded queue of bytes: `Stores` relates the two ends to the bytes that
have been written and not yet read.
-/
namespace RdmaMiddleware.ByteStream
open CInt CircularMemory LogBuffer RingReservation TransitionSystem

/-! ## The calls -/

/-- The upstream node's pointers and the ring of the receiving node. -/
structure Ends where
  remote : RemoteRingbuff
  ring : LocalRingbuff

/-- `rb_write`; `readOk` says whether the `dhmp_read` of the remote `rd_pointer` succeeds.
The first piece of a split goes to offset 0. -/
def rbWrite (s : Ends) (bs : List UInt8) (readOk : Bool) : Ends × Bool :=
  let (remote, ok) := checkRemoteSize s.remote (if readOk then some s.ring.rdPointer else none)
    bs.length
  if ok then
    let pos := remote.wrPointer
    let cut := decide (remote.size < pos + bs.length)
    let leftSize := if cut then remote.size - pos else 0
    let buff := if cut then writeBytes s.ring.buff 0 (bs.take leftSize) else s.ring.buff
    let pos' := if cut then 0 else pos
    let wr := pos' + (bs.length - leftSize)
    ({ remote := { remote with wrPointer := wr }
       ring := { s.ring with
        wrPointer := wr
        buff := writeBytes buff pos' (bs.drop leftSize) } }, true)
  else ({ s with remote := remote }, false)

/-- `rb_read(buf, -1, len, false)`: the bytes read, or `none` when it returns false. -/
def rbConsume (s : Ends) (len : ℕ) : Ends × Option (List UInt8) :=
  match rbRead s.ring true (-1) len false with
  | some (bs, ring) => ({ s with ring := ring }, some bs)
  | none => (s, none)

/-! ## Reads at the read pointer -/

section Reads
variable {b : LocalRingbuff} {len : ℕ} (hsize : IsRingSize b.size) (hrd : b.rdPointer ≤ b.size)
  (hlen : len ≤ b.dataSize)
include hsize hrd hlen

/-- A copying read delivers the bytes at the read pointer. -/
theorem rbRead_copying :
    rbRead b true (-1) len true = some (circRead b.buff b.size b.rdPointer len, b) :=
  rbRead_eq hsize (show startPos b (-1) ≤ b.size from hrd) hlen true true

/-- A consuming one clears them as well. -/
theorem rbRead_clearing : rbRead b true (-1) len false =
    some (circRead b.buff b.size b.rdPointer len,
      { b with
        buff := circWrite b.buff b.size b.rdPointer (List.replicate len 0)
        rdPointer := if b.size < b.rdPointer + len then len - (b.size - b.rdPointer)
          else b.rdPointer + len }) :=
  rbRead_eq hsize (show startPos b (-1) ≤ b.size from hrd) hlen true false

/-- Without a buffer the bytes are only passed over. -/
theorem rbRead_skipping : rbRead b false (-1) len false =
    some ([], { b with
      rdPointer := if b.size < b.rdPointer + len then len - (b.size - b.rdPointer)
        else b.rdPointer + len }) :=
  rbRead_eq hsize (show startPos b (-1) ≤ b.size from hrd) hlen false false

end Reads

/-! ## A bounded queue of bytes -/

/-- Bytes join at the end as long as there is room for all of them. -/
def push (capacity : ℕ) (held bs : List UInt8) : Option (List UInt8) :=
  if held.length + bs.length ≤ capacity then some (held ++ bs) else none

/-- Bytes leave at the front when there are enough. -/
def pop (held : List UInt8) (len : ℕ) : Option (List UInt8 × List UInt8) :=
  if len ≤ held.length then some (held.take len, held.drop len) else none

/-- The bytes `held` stand in the ring between the two pointers. -/
structure Stores (n : ℕ) (s : Ends) (held : List UInt8) : Prop where
  ring_size : IsRingSize n
  remote_size : s.remote.size = n
  local_size : s.ring.size = n
  wr_eq : s.remote.wrPointer = s.ring.wrPointer
  wr_le : s.ring.wrPointer ≤ n
  rd_le : s.ring.rdPointer ≤ n
  length_lt : held.length < n
  wr_mod : s.ring.wrPointer % n = (s.ring.rdPointer + held.length) % n
  holds : Holds s.ring.buff n s.ring.rdPointer held

/-- A write that fits and is split with bytes in front of the ring end. -/
def Split (s : Ends) (bs : List UInt8) : Prop :=
  (bs.length : ℤ) ≤ s.ring.freeSize ∧ s.ring.wrPointer < s.ring.size ∧
    s.ring.size < s.ring.wrPointer + bs.length

instance (s : Ends) (bs : List UInt8) : Decidable (Split s bs) :=
  inferInstanceAs (Decidable (_ ∧ _))

namespace Stores
variable {n : ℕ} {s : Ends} {held : List UInt8}

theorem dataSize_eq (h : Stores n s held) : s.ring.dataSize = held.length := by
  have hlt := h.length_lt
  unfold Ringbuff.dataSize
  rw [h.local_size, mask_sub h.ring_size h.wr_mod rfl (Nat.le_add_right _ _) (by omega)]
  omega

theorem freeSize_eq (h : Stores n s held) : s.ring.freeSize = (n : ℤ) - 1 - held.length := by
  unfold Ringbuff.freeSize
  rw [h.dataSize_eq, h.local_size]

/-- The upstream side computes the free space of the ring itself. -/
theorem freeSize_remote (h : Stores n s held) :
    ({ s.remote with rdPointer := s.ring.rdPointer } : RemoteRingbuff).freeSize =
      s.ring.freeSize := by
  unfold Ringbuff.freeSize Ringbuff.dataSize
  simp only [h.remote_size, h.local_size, h.wr_eq]

theorem checkRemoteSize_eq (h : Stores n s held) (bs : List UInt8) :
    checkRemoteSize s.remote (some s.ring.rdPointer) bs.length =
      ({ s.remote with rdPointer := s.ring.rdPointer },
        decide ((bs.length : ℤ) ≤ s.ring.freeSize)) := by
  unfold checkRemoteSize
  dsimp only
  rw [h.freeSize_remote, ← decide_not]
  simp only [not_lt]

/-! ### Writing -/

theorem checkRemoteSize_frame (rb : RemoteRingbuff) (rd : Option ℕ) (len : ℤ) :
    (checkRemoteSize rb rd len).1.wrPointer = rb.wrPointer ∧
      (checkRemoteSize rb rd len).1.size = rb.size := by
  cases rd <;> exact ⟨rfl, rfl⟩

/-- A call that returns false leaves the ring and the write pointer alone. -/
theorem rbWrite_fail {bs : List UInt8} {readOk : Bool} (h : (rbWrite s bs readOk).2 = false) :
    (rbWrite s bs readOk).1.ring = s.ring ∧
      (rbWrite s bs readOk).1.remote.wrPointer = s.remote.wrPointer ∧
      (rbWrite s bs readOk).1.remote.size = s.remote.size := by
  have hframe := checkRemoteSize_frame s.remote (if readOk then some s.ring.rdPointer else none)
    bs.length
  unfold rbWrite at h ⊢
  generalize checkRemoteSize s.remote (if readOk then some s.ring.rdPointer else none)
    bs.length = check at h hframe ⊢
  obtain ⟨remote, ok⟩ := check
  cases ok with
  | false => exact ⟨rfl, hframe⟩
  | true => cases h

theorem rbWrite_ok (h : Stores n s held) (bs : List UInt8) :
    (rbWrite s bs true).2 = decide ((bs.length : ℤ) ≤ s.ring.freeSize) := by
  unfold rbWrite
  rw [if_pos rfl, h.checkRemoteSize_eq]
  by_cases hfits : (bs.length : ℤ) ≤ s.ring.freeSize
  · rw [decide_eq_true hfits]
    rfl
  · rw [decide_eq_false hfits]
    rfl

/-- Where no piece stands in front of the ring end, the bytes go where they belong. -/
theorem rbWrite_eq (h : Stores n s held) {bs : List UInt8}
    (hfits : (bs.length : ℤ) ≤ s.ring.freeSize) (hsplit : ¬ Split s bs) :
    (rbWrite s bs true).1 =
      let wr := if n < s.ring.wrPointer + bs.length then bs.length - (n - s.ring.wrPointer)
        else s.ring.wrPointer + bs.length
      { remote := { s.remote with rdPointer := s.ring.rdPointer, wrPointer := wr }
        ring := { s.ring with
          wrPointer := wr
          buff := circWrite s.ring.buff n s.ring.wrPointer bs } } := by
  have hwr := h.wr_le
  unfold rbWrite circWrite
  simp only [if_true, h.checkRemoteSize_eq, decide_eq_true hfits, h.remote_size, h.wr_eq,
    decide_eq_true_eq]
  by_cases hwrap : n < s.ring.wrPointer + bs.length
  · obtain hend : s.ring.wrPointer = n := by
      by_contra hne
      exact hsplit ⟨hfits, by rw [h.local_size]; omega, by rw [h.local_size]; exact hwrap⟩
    rw [hend] at hwrap ⊢
    simp only [if_pos hwrap, Nat.sub_self, List.take_zero, writeBytes_nil, Nat.zero_add]
  · simp only [if_neg hwrap, List.drop_zero, Nat.sub_zero]

theorem of_rbWrite (h : Stores n s held) {bs : List UInt8}
    (hfits : (bs.length : ℤ) ≤ s.ring.freeSize) (hsplit : ¬ Split s bs) :
    Stores n (rbWrite s bs true).1 (held ++ bs) := by
  have hpos := h.ring_size.pos
  have hwr := h.wr_le
  rw [h.rbWrite_eq hfits hsplit]
  rw [h.freeSize_eq] at hfits
  obtain ⟨hle, hmod⟩ := pointer_advance hwr (show bs.length ≤ n by omega)
  refine { h with
    wr_eq := rfl
    wr_le := hle
    length_lt := by rw [List.length_append]; omega
    wr_mod := ?_
    holds := ?_ }
  · dsimp only
    rw [hmod, List.length_append, ← Nat.add_assoc, Nat.add_mod, h.wr_mod, ← Nat.add_mod]
  · have hcells := cells_congr h.wr_mod bs.length
    refine holds_append.mpr ⟨h.holds.circWrite hpos hwr (by omega) ?_, fun j hj => ?_⟩
    · rw [hcells]
      exact cells_disjoint s.ring.rdPointer le_rfl le_rfl (by omega)
    · rw [Nat.add_mod, ← h.wr_mod, ← Nat.add_mod]
      exact holds_circWrite hpos hwr (by omega) s.ring.buff j hj

theorem after_fail (h : Stores n s held) {bs : List UInt8} {readOk : Bool}
    (hok : (rbWrite s bs readOk).2 = false) : Stores n (rbWrite s bs readOk).1 held := by
  obtain ⟨hring, hwr, hsize⟩ := rbWrite_fail hok
  exact {
    ring_size := h.ring_size
    remote_size := hsize.trans h.remote_size
    local_size := hring ▸ h.local_size
    wr_eq := by rw [hring, hwr]; exact h.wr_eq
    wr_le := hring ▸ h.wr_le
    rd_le := hring ▸ h.rd_le
    length_lt := h.length_lt
    wr_mod := hring ▸ h.wr_mod
    holds := hring ▸ h.holds }

/-- `rb_write` is `push`. -/
theorem rbWrite_refines (h : Stores n s held) {bs : List UInt8} (hsplit : ¬ Split s bs) :
    match push (n - 1) held bs with
    | some held' => (rbWrite s bs true).2 = true ∧ Stores n (rbWrite s bs true).1 held'
    | none => (rbWrite s bs true).2 = false := by
  have hok := h.rbWrite_ok bs
  have hlt := h.length_lt
  have hfree := h.freeSize_eq
  unfold push
  by_cases hfits : held.length + bs.length ≤ n - 1
  · have hroom : (bs.length : ℤ) ≤ s.ring.freeSize := by omega
    rw [if_pos hfits]
    exact ⟨by rw [hok, decide_eq_true hroom], h.of_rbWrite hroom hsplit⟩
  · rw [if_neg hfits]
    show (rbWrite s bs true).2 = false
    rw [hok, decide_eq_false (by omega)]

/-! ### Reading -/

/-- A consuming read delivers the bytes at the read pointer and clears them. -/
theorem rbRead_consume (h : Stores n s held) {len : ℕ} (hlen : len ≤ held.length) :
    rbRead s.ring true (-1) len false =
      some (circRead s.ring.buff n s.ring.rdPointer len,
        { s.ring with
          buff := circWrite s.ring.buff n s.ring.rdPointer (List.replicate len 0)
          rdPointer := if n < s.ring.rdPointer + len then len - (n - s.ring.rdPointer)
            else s.ring.rdPointer + len }) := by
  have hread := rbRead_clearing (h.local_size ▸ h.ring_size) (h.local_size ▸ h.rd_le)
    (h.dataSize_eq ▸ hlen)
  rw [hread]
  simp only [h.local_size]

theorem of_rbConsume (h : Stores n s held) {len : ℕ} (hlen : len ≤ held.length) :
    (rbConsume s len).2 = some (held.take len) ∧
      Stores n (rbConsume s len).1 (held.drop len) := by
  have hpos := h.ring_size.pos
  have hlt := h.length_lt
  have hrd := h.rd_le
  obtain ⟨hle, hmod⟩ := pointer_advance hrd (show len ≤ n by omega)
  have hheld := h.holds
  rw [← List.take_append_drop len held] at hheld
  obtain ⟨-, hrest⟩ := holds_append.mp hheld
  rw [List.length_take, Nat.min_eq_left hlen] at hrest
  unfold rbConsume
  rw [h.rbRead_consume hlen, h.holds.circRead_take hlen]
  refine ⟨rfl, { h with
    wr_eq := h.wr_eq
    rd_le := hle
    length_lt := by rw [List.length_drop]; omega
    wr_mod := ?_
    holds := ?_ }⟩
  · dsimp only
    rw [Nat.add_mod, hmod, ← Nat.add_mod, List.length_drop, h.wr_mod]
    congr 1
    omega
  · have hkept : Holds (circWrite s.ring.buff n s.ring.rdPointer (List.replicate len 0)) n
        (s.ring.rdPointer + len) (held.drop len) := by
      refine hrest.circWrite hpos hrd (by rw [List.length_replicate]; omega) ?_
      rw [List.length_replicate, List.length_drop, disjoint_comm]
      exact cells_disjoint s.ring.rdPointer le_rfl le_rfl (by omega)
    intro j hj
    dsimp only
    rw [Nat.add_mod, hmod, ← Nat.add_mod]
    exact hkept j hj

/-- A consuming `rb_read` is `pop`. -/
theorem rbConsume_refines (h : Stores n s held) (len : ℕ) :
    match pop held len with
    | some (bs, held') => (rbConsume s len).2 = some bs ∧ Stores n (rbConsume s len).1 held'
    | none => rbConsume s len = (s, none) := by
  unfold pop
  by_cases hlen : len ≤ held.length
  · rw [if_pos hlen]
    exact h.of_rbConsume hlen
  · rw [if_neg hlen]
    show rbConsume s len = (s, none)
    unfold rbConsume rbRead
    rw [h.dataSize_eq, if_pos (by omega)]

end Stores

/-! ## Sequences of calls -/

/-- `sent` are the bytes of the successful writes, `got` those of the successful reads. -/
structure State where
  ends : Ends
  sent : List UInt8
  got : List UInt8

inductive Call
  | rbWrite (bs : List UInt8) (readOk : Bool)
  | rbRead (len : ℕ)

def step (s : State) : Call → Option State
  | .rbWrite bs readOk =>
    let (ends, ok) := rbWrite s.ends bs readOk
    some { s with ends := ends, sent := if ok then s.sent ++ bs else s.sent }
  | .rbRead len =>
    let (ends, bs) := rbConsume s.ends len
    some { s with ends := ends, got := s.got ++ bs.getD [] }

/-- The ring is empty, with both pointers anywhere in `[0, size]`. -/
def start (ring : LocalRingbuff) (cache : ℕ) : State where
  ends := { remote := ⟨{ ring.toRingbuff with rdPointer := cache }⟩, ring := ring }
  sent := []
  got := []

def streamSystem (n : ℕ) : System State Call where
  init := fun s => ∃ ring cache, s = start ring cache ∧ ring.size = n ∧ ring.wrPointer ≤ n ∧
    ring.rdPointer ≤ n ∧ ring.wrPointer % n = ring.rdPointer % n
  step := step

/-- What a byte stream promises: the bytes arrive in order, and a call succeeds exactly when
there is room or there are bytes enough, and otherwise changes nothing. -/
structure Fifo (s : State) : Prop where
  in_order : s.got <+: s.sent
  readable : s.got.length + s.ends.ring.dataSize = s.sent.length
  write_iff : ∀ bs, (rbWrite s.ends bs true).2 = true ↔ (bs.length : ℤ) ≤ s.ends.ring.freeSize
  write_fail : ∀ bs readOk, (rbWrite s.ends bs readOk).2 = false →
    (rbWrite s.ends bs readOk).1.ring = s.ends.ring ∧
      (rbWrite s.ends bs readOk).1.remote.wrPointer = s.ends.remote.wrPointer
  read_iff : ∀ len, (rbConsume s.ends len).2 ≠ none ↔ len ≤ s.ends.ring.dataSize
  read_fail : ∀ len, (rbConsume s.ends len).2 = none → (rbConsume s.ends len).1 = s.ends

/-- No write is split with bytes in front of the ring end. -/
def Unsplit (s : State) : Call → Prop
  | .rbWrite bs readOk => readOk = true → ¬ Split s.ends bs
  | .rbRead _ => True

instance (s : State) (c : Call) : Decidable (Unsplit s c) := by
  cases c <;> unfold Unsplit <;> infer_instance

/-- The ring holds what has been written and not yet read. -/
def StreamInv (n : ℕ) (s : State) : Prop :=
  ∃ held, Stores n s.ends held ∧ s.sent = s.got ++ held

namespace StreamInv
variable {n : ℕ} {s t : State}

theorem init (hn : IsRingSize n) (h : (streamSystem n).init s) : StreamInv n s := by
  obtain ⟨ring, cache, rfl, hsize, hwr, hrd, hempty⟩ := h
  exact ⟨[], {
    ring_size := hn
    remote_size := hsize
    local_size := hsize
    wr_eq := rfl
    wr_le := hwr
    rd_le := hrd
    length_lt := hn.pos
    wr_mod := hempty
    holds := holds_nil _ _ _ }, rfl⟩

theorem rbWrite (h : StreamInv n s) {bs : List UInt8} {readOk : Bool}
    (hsplit : Unsplit s (.rbWrite bs readOk)) (ht : step s (.rbWrite bs readOk) = some t) :
    StreamInv n t := by
  obtain ⟨held, hstores, hsent⟩ := h
  have ht' : t = { s with
      ends := (ByteStream.rbWrite s.ends bs readOk).1
      sent := if (ByteStream.rbWrite s.ends bs readOk).2 then s.sent ++ bs else s.sent } :=
    (Option.some.inj ht).symm
  subst ht'
  cases readOk with
  | false => exact ⟨held, hstores, hsent⟩
  | true =>
    have hpush := hstores.rbWrite_refines (hsplit rfl)
    unfold push at hpush
    split_ifs at hpush with hfits
    · obtain ⟨hok, hwritten⟩ := hpush
      refine ⟨held ++ bs, hwritten, ?_⟩
      rw [if_pos hok, hsent, List.append_assoc]
    · have hok : (ByteStream.rbWrite s.ends bs true).2 = false := hpush
      refine ⟨held, hstores.after_fail hok, ?_⟩
      rw [if_neg (by rw [hok]; exact Bool.false_ne_true)]
      exact hsent

theorem rbRead (h : StreamInv n s) {len : ℕ} (ht : step s (.rbRead len) = some t) :
    StreamInv n t := by
  obtain ⟨held, hstores, hsent⟩ := h
  have hpop := hstores.rbConsume_refines len
  have ht' : t = { s with
      ends := (rbConsume s.ends len).1
      got := s.got ++ (rbConsume s.ends len).2.getD [] } := (Option.some.inj ht).symm
  subst ht'
  unfold pop at hpop
  split_ifs at hpop with hlen
  · obtain ⟨hbytes, hleft⟩ := hpop
    refine ⟨held.drop len, hleft, ?_⟩
    rw [hbytes, hsent, Option.getD_some, List.append_assoc, List.take_append_drop]
  · have hsame : rbConsume s.ends len = (s.ends, none) := hpop
    refine ⟨held, ?_, ?_⟩
    · rw [hsame]
      exact hstores
    · rw [hsame, hsent, Option.getD_none, List.append_nil]

theorem of_reach (hn : IsRingSize n) (h : Reach (streamSystem n) Unsplit s) : StreamInv n s := by
  refine h.invariant (fun _ h0 => init hn h0) ?_
  intro s c t hs hc ht
  cases c with
  | rbWrite bs readOk => exact hs.rbWrite hc ht
  | rbRead len => exact hs.rbRead ht

end StreamInv

/-- As long as no write is split, the ring is a byte stream. -/
theorem fifo_of_unsplit (n : ℕ) (hn : IsRingSize n) {s : State}
    (h : Reach (streamSystem n) Unsplit s) : Fifo s := by
  obtain ⟨held, hstores, hsent⟩ := StreamInv.of_reach hn h
  have hdata := hstores.dataSize_eq
  exact {
    in_order := ⟨held, hsent.symm⟩
    readable := by rw [hdata, hsent, List.length_append]
    write_iff := fun bs => by rw [hstores.rbWrite_ok, decide_eq_true_eq]
    write_fail := fun bs readOk hfail =>
      ⟨(Stores.rbWrite_fail hfail).1, (Stores.rbWrite_fail hfail).2.1⟩
    read_iff := fun len => by
      have hpop := hstores.rbConsume_refines len
      unfold pop at hpop
      rw [hdata]
      split_ifs at hpop with hlen
      · simp [hpop.1, hlen]
      · have hsame : rbConsume s.ends len = (s.ends, none) := hpop
        simp [hsame, hlen]
    read_fail := fun len hfail => by
      have hpop := hstores.rbConsume_refines len
      unfold pop at hpop
      split_ifs at hpop with hlen
      · rw [hpop.1] at hfail
        cases hfail
      · have hsame : rbConsume s.ends len = (s.ends, none) := hpop
        rw [hsame] }

def emptyRing (size : ℕ) : LocalRingbuff where
  wrPointer := 0
  rdPointer := 0
  size := size
  rdKeyPointer := 0
  buff := fun _ => 0

/-- The second write starts at the ring end. -/
def wrapsAtEnd : List Call :=
  [.rbWrite (List.replicate 5 9) true, .rbRead 4, .rbWrite [1, 2, 3] true, .rbWrite [8] false,
    .rbRead 4, .rbWrite [4, 5, 6, 7] true, .rbRead 3]

theorem fifo_of_unsplit_wraps :
    ∃ s, Reach (streamSystem 8) Unsplit s ∧ s.got = [9, 9, 9, 9, 9, 1, 2, 3, 4, 5, 6] ∧
      Fifo s := by
  have hstart : Reach (streamSystem 8) Unsplit (start (emptyRing 8) 0) :=
    .start ⟨emptyRing 8, 0, rfl, rfl, by decide, by decide, rfl⟩
  obtain ⟨s, _, hs, hgot⟩ := reach_of_run_any (fun _ _ h => of_decide_eq_true h) hstart
    (show (run (streamSystem 8) (fun s c => decide (Unsplit s c)) (start (emptyRing 8) 0)
      wrapsAtEnd).any (fun s => s.got == [9, 9, 9, 9, 9, 1, 2, 3, 4, 5, 6]) = true by
        decide +kernel)
  exact ⟨s, hs, beq_iff_eq.mp hgot, fifo_of_unsplit 8 ⟨3, by decide, rfl⟩ hs⟩

/-- The last write has its first two bytes in front of the ring end. -/
def splitInFront : List Call :=
  [.rbWrite (List.replicate 6 9) true, .rbRead 6, .rbWrite [1, 2, 3, 4] true, .rbRead 4]

theorem not_fifo_split : ¬ ∀ n, IsRingSize n → ∀ s, Reachable (streamSystem n) s → Fifo s := by
  intro hclaim
  have hstart : Reachable (streamSystem 8) (start (emptyRing 8) 0) :=
    .start ⟨emptyRing 8, 0, rfl, rfl, by decide, by decide, rfl⟩
  obtain ⟨s, _, hs, hbad⟩ := reach_of_run_any (fun _ _ _ => trivial) hstart
    (show (run (streamSystem 8) (fun _ _ => true) (start (emptyRing 8) 0) splitInFront).any
      (fun s => !decide (s.got <+: s.sent)) = true by decide +kernel)
  have hgood := (hclaim 8 ⟨3, by decide, rfl⟩ s hs).in_order
  simp [hgood] at hbad

end RdmaMiddleware.ByteStream
