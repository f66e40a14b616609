import RdmaMiddleware.HeadThreads
import RdmaMiddleware.DirtyTable
import RdmaMiddleware.ReaderCalls

/-!
# The way of a list of logs through a ring

The head's two threads place the entries, `read_log_key` and `read_log_value` take them
out again. Writer and reader split their transfers at the ring end on their own; both
agree with the stream positions of `RingInv`. The ring may have been in use before: a
filler log stands for everything that lies before the write pointer.
-/
namespace RdmaMiddleware.RoundTrip
open TransitionSystem CInt CircularMemory MidHashmap UnlockQueue LogBuffer RingReservation Chain
open HeadThreads Loops

/-! ## The property -/

/-- A reader that has read and cleaned everything. -/
structure Idle (r : Receiver) : Prop where
  phase : r.phase = .parse
  queues : QueueInv r
  table : DirtyInv r
  all_cleaned : r.cleaned = r.nextEntry
  wr_pointer : r.ring.wrPointer ≤ r.ring.size
  rd_pointer : r.ring.rdPointer = r.ring.wrPointer % r.ring.size
  rd_key_pointer : r.ring.rdKeyPointer = r.ring.wrPointer % r.ring.size

/-- `len` bytes at an address do not run over the end of the ring or of a copy. -/
def InOnePiece (r : Receiver) (a : Addr) (len : ℕ) : Prop :=
  match a with
  | .ring pos => pos + len ≤ r.ring.size
  | .keyCopy owner => ∃ bs, r.keyCopies owner = some bs ∧ bs.length = len
  | .valueCopy owner => ∃ bs, r.valueCopies owner = some bs ∧ bs.length = len

/-- The reader's entry `e` gives back the log written at position `pos`. -/
structure Recovered (r : Receiver) (e : LogEntry) (log : HeadLog) (pos : ℕ) : Prop where
  mate_data : e.mateData = ⟨log.keyLen, log.valueLen⟩
  log_pos : e.logPos % r.ring.size = pos % r.ring.size
  key_piece : InOnePiece r (r.getKeyAddr e) log.keyLen
  key : r.bytes (r.getKeyAddr e) log.keyLen = log.keyBytes
  value_piece : InOnePiece r (r.getValueAddr e) log.valueLen
  value : r.bytes (r.getValueAddr e) log.valueLen = log.valueBytes

/-- Reading keys and then values takes exactly `logs` out of the ring, in order. -/
def Taken (logs : List HeadLog) (pos limits limits' : ℕ) (r : Receiver) : Prop :=
  ∃ r₁ r₂, ReadsKeys limits r r₁ ∧ ReadsValues limits' r₁ r₂ ∧ r₂.readNum = logs.length ∧
    r₂.executing = List.range' r.nextEntry logs.length ∧ r₂.valuePeeding = [] ∧
    ∀ (i : ℕ) (log : HeadLog), logs[i]? = some log → ∃ e, r₂.entries (r.nextEntry + i) = some e ∧
      Recovered r₂ e log (pos + entryStart logs i)

/-! ## The ring after the writes -/

/-- A log that ends at position `pos` of a ring of `n` bytes. -/
def filler (n pos : ℕ) : HeadLog :=
  .plain ⟨List.replicate ((pos + 35 * (n - 1)) % n) 1, by
    intro h
    exact absurd (List.eq_of_mem_replicate h) (by decide)⟩ ⟨[], List.not_mem_nil⟩

theorem filler_totalLen (n pos : ℕ) :
    (filler n pos).totalLen = (pos + 35 * (n - 1)) % n + 35 := by
  simp [filler, HeadLog.plain, HeadLog.totalLen, HeadLog.sendLen, HeadLog.keyLen,
    HeadLog.valueLen, sizeofLogEntry, TAG]
  omega

theorem filler_mod {n : ℕ} (hn : 0 < n) (pos : ℕ) :
    (filler n pos).totalLen % n = pos % n := by
  rw [filler_totalLen, Nat.mod_add_mod,
    show pos + 35 * (n - 1) + 35 = pos + n * 35 by rw [Nat.mul_sub_one]; omega,
    Nat.add_mul_mod_self_left]

theorem filler_fits {n : ℕ} (hn : IsRingSize n) (pos : ℕ) : (filler n pos).Fits := by
  have := hn.le
  have := Nat.mod_lt (pos + 35 * (n - 1)) hn.pos
  unfold HeadLog.Fits
  rw [filler_totalLen]
  omega

/-- A writer that has written the filler and then `logs`. -/
def ghost (ring₀ : LocalRingbuff) (w : Writer) : Writer :=
  { w with
    logs := (filler ring₀.size ring₀.wrPointer, 0) :: w.logs
    published := w.logs.length + 1 }

theorem offset_cons (l : HeadLog × ℕ) (ls : List (HeadLog × ℕ)) (j : ℕ) :
    offset (l :: ls) (j + 1) = l.1.totalLen + offset ls j := by
  simp [offset]

variable {logs : List HeadLog} {ring₀ : LocalRingbuff} {s : HeadThreads.State}

/-- The two ways of counting the bytes of the first logs. -/
theorem offset_eq_entryStart {ws : List (HeadLog × ℕ)}
    (hws : ∀ (j : ℕ) (l : HeadLog × ℕ), ws[j]? = some l → logs[j]? = some l.1) {j : ℕ}
    (hj : j ≤ ws.length) : offset ws j = entryStart logs j := by
  induction j with
  | zero => rfl
  | succ j ih =>
    have hl : ws[j]? = some ws[j] := List.getElem?_eq_getElem (by omega)
    rw [offset_succ hl, entryStart_succ (hws j _ hl), ih (by omega)]

section Written
variable (hsize : IsRingSize ring₀.size) (hroom : (entries logs).length < ring₀.size)
  (h : HeadThreads.Inv logs ring₀ s) (hdone : s.complete logs = true)
include h

theorem ghost_log {j : ℕ} {l : HeadLog × ℕ}
    (hl : (ghost ring₀ s.sender.writer).logs[j + 1]? = some l) :
    logs[j]? = some l.1 ∧ j < logs.length := by
  obtain ⟨hlog, -⟩ := h.logs_eq j l hl
  exact ⟨hlog, (List.getElem?_eq_some_iff.mp hlog).1⟩

include hdone

theorem offset_ghost {j : ℕ} (hj : j ≤ logs.length) :
    offset (ghost ring₀ s.sender.writer).logs (j + 1) =
      (filler ring₀.size ring₀.wrPointer).totalLen + entryStart logs j := by
  rw [ghost, offset_cons, offset_eq_entryStart (fun j l hl => (h.logs_eq j l hl).1)
    (hj.trans_eq (complete_length hdone).symm)]

include hsize

/-- A piece of the text in place is stored where the ghost writer has it. -/
theorem holds_ghost {j k : ℕ} {piece : List UInt8} (hj : j ≤ logs.length)
    (hpiece : piece <+: (entries logs).drop (entryStart logs j + k))
    (hplaced : ∀ i < piece.length, InPlace logs ring₀ s.ring.buff (entryStart logs j + k + i)) :
    Holds s.ring.buff ring₀.size (offset (ghost ring₀ s.sender.writer).logs (j + 1) + k)
      piece := by
  refine holds_of_agrees hpiece hplaced ?_
  rw [offset_ghost h hdone hj, Nat.add_assoc, ← Nat.mod_add_mod, filler_mod hsize.pos,
    Nat.mod_add_mod]

theorem holds_value {j : ℕ} {l : HeadLog × ℕ}
    (hl : (ghost ring₀ s.sender.writer).logs[j + 1]? = some l) :
    Holds s.ring.buff ring₀.size
      (offset (ghost ring₀ s.sender.writer).logs (j + 1) + l.1.sendLen) l.1.valueBytes := by
  obtain ⟨hlog, hj⟩ := ghost_log h hl
  refine holds_ghost hsize h hdone hj.le ?_ ?_
  · rw [← l.1.length_mateBytes]
    exact piece_of_entry hlog rfl (List.prefix_refl _)
  · intro i hi
    rw [l.1.length_valueBytes] at hi
    exact h.value j l.1 (h.finished hdone hj) hlog i hi

include hroom

theorem ringInv_ghost (hrd : ring₀.rdPointer = ring₀.wrPointer % ring₀.size) :
    RingInv ring₀.size (ghost ring₀ s.sender.writer) s.ring (ring₀.wrPointer % ring₀.size) 1
      [] := by
  have hlen : (ghost ring₀ s.sender.writer).logs.length = logs.length + 1 :=
    congrArg (· + 1) (complete_length hdone)
  have hpc : (ghost ring₀ s.sender.writer).pc = .idle := complete_pc hdone
  have hend := offset_ghost h hdone le_rfl
  have hone := offset_ghost h hdone (Nat.zero_le _)
  have hmod := filler_mod hsize.pos ring₀.wrPointer
  have hlast := (h.behind hdone).1
  have hring := h.ring_eq
  have hpos := h.pc
  rw [HeadThreads.PcInv, complete_pc hdone] at hpos
  rw [entryStart_length] at hend hlast
  refine {
    ring_size := hsize
    local_size := by rw [hring]
    remote_size := h.remote_size
    fits := ?_
    log_pos := ?_
    mate_holds := ?_
    pc_inv := by
      rw [RingReservation.PcInv, hpc, hlen, ← complete_length hdone]
      rfl
    published_le := le_rfl
    scanned_le := by
      rw [List.length_nil]
      exact Nat.le_add_left ..
    window := ?_
    remote_wr_le := ?_
    remote_wr := ?_
    local_wr_le := hlast.1
    local_wr := ?_
    local_rd := ?_
    pos_eq := ?_
    live_eq := by simp }
  · intro j l hl
    cases j with
    | zero => exact Option.some.inj hl ▸ filler_fits hsize ring₀.wrPointer
    | succ j => exact fits_of_le hsize hroom.le (ghost_log h hl).1
  · intro j l hl
    cases j with
    | zero => exact Option.some.inj hl ▸ rfl
    | succ j =>
      obtain ⟨hlog, hj⟩ := ghost_log h hl
      rw [(h.logs_eq j l hl).2, offset_ghost h hdone hj.le, ← Nat.mod_add_mod, ← hmod,
        Nat.mod_add_mod]
  · intro j l hj hl
    cases j with
    | zero => omega
    | succ j =>
      obtain ⟨hlog, hj⟩ := ghost_log h hl
      refine holds_ghost (k := 0) hsize h hdone hj.le ?_ ?_
      · have hsplit : entry l.1 = [] ++ (l.1.mateBytes ++ l.1.valueBytes) := rfl
        exact piece_of_entry hlog hsplit (List.prefix_append ..)
      · intro i hi
        rw [l.1.length_mateBytes] at hi
        exact h.mate j l.1 (complete_length hdone ▸ hj) hlog i hi
  · rw [claimedBytes_of_none (by rw [hpc]; rfl), hlen, hend, hone]
    omega
  · exact hpos.1 ▸ hlast.1
  · rw [reservedBytes_of_calm (by rw [hpc]; rfl), hlen, hend]
    show s.sender.writer.remote.wrPointer % _ = _
    rw [← hpos.1, hlast.2, ← Nat.mod_add_mod, ← hmod, Nat.mod_add_mod]
  · show s.ring.wrPointer % _ = offset _ (s.sender.writer.logs.length + 1) % _
    rw [complete_length hdone, hend, hlast.2, ← Nat.mod_add_mod, ← hmod, Nat.mod_add_mod]
  · rw [hone, hring]
    exact hrd.trans hmod.symm
  · rw [List.length_nil, hone]
    exact hmod.symm

end Written

/-! ## `read_log_key` -/

section Reading
variable {N : ℕ} {w : Writer} {b : LocalRingbuff} {first limits k : ℕ} {r : Receiver}

/-- The next pass of `read_log_key`, while there is room in its queues. -/
theorem readLogKeyPass_eq (h : QueueInv r) {readNum pos : ℕ} {m : HashMap Addr ℕ}
    (hphase : r.phase = .keys limits readNum pos) (hlimit : readNum < limits)
    (hcount : sizeofLogMateData ≤ r.ring.countSize pos)
    (hroom : r.nextEntry - r.cleaned < QUEUE_SIZE - 1)
    (hm : countKey (allocEntry r pos)
      ((allocEntry r pos).getKeyAddr (readLogEntry r.ring pos r.nextEntry)) = some m) :
    readLogKeyPass r limits readNum pos = .next { allocEntry r pos with
      dirtyMap := m
      dirty := r.dirty ++ [r.nextEntry]
      valuePeeding := r.valuePeeding ++ [r.nextEntry]
      phase := .keys limits (readNum + 1)
        (ringPos r.ring pos (readLogEntry r.ring pos r.nextEntry).mateData.nextOffset)
      keys := r.keys ++ [(allocEntry r pos).str
        ((allocEntry r pos).getKeyAddr (readLogEntry r.ring pos r.nextEntry))] } none := by
  obtain ⟨-, hmoved⟩ : PhaseInv (.keys limits readNum pos) _ _ _ := hphase ▸ h.phase_inv
  have hput : ∀ queue : List ℕ, queue.length = r.nextEntry - r.cleaned →
      boundedPut QUEUE_SIZE queue r.nextEntry = some (queue ++ [r.nextEntry]) := by
    intro queue hlen
    rw [boundedPut, if_neg (by omega)]
  have hpending : r.valuePeeding.length = r.nextEntry - r.cleaned := by
    rw [h.peeding_eq, List.length_range', hmoved]
  have hdirty : r.dirty.length = r.nextEntry - r.cleaned := by
    rw [h.dirty_eq, List.length_range']
  rw [readLogKeyPass, if_neg (by omega)]
  simp only [hm, hput _ hpending, hput _ hdirty, Option.getD_some]

theorem readLogKeyBody_next {r' : Receiver} {handed : Option ℕ} {readNum pos : ℕ}
    (hphase : r.phase = .keys limits readNum pos)
    (hpass : readLogKeyPass r limits readNum pos = .next r' handed) :
    readLogKeyBody r = .inl r' := by
  simp only [readLogKeyBody, hphase, hpass, Outcome.continue]

/-- `read_log_key` has read `k` logs. -/
structure KeysRead (N : ℕ) (w : Writer) (b : LocalRingbuff) (first limits k : ℕ) (r : Receiver) :
    Prop where
  ring : r.ring = b
  queues : QueueInv r
  table : DirtyInv r
  cleaned : r.cleaned = first
  next : r.nextEntry = first + k
  scan : ∃ pos live, r.phase = .keys limits k pos ∧ live.length = k ∧ RingInv N w b pos 1 live
  stored : ∀ i < k, ∃ e l, r.entries (first + i) = some e ∧ w.logs[1 + i]? = some l ∧
    KeyStored N (offset w.logs (1 + i)) r.keyCopies (first + i) e l.1

theorem KeysRead.step (h : KeysRead N w b first limits k r) (hk : 1 + k < w.published)
    (hlimit : k < limits) (hnum : k < QUEUE_SIZE - 1) :
    ∃ r', readLogKeyBody r = .inl r' ∧ KeysRead N w b first limits (k + 1) r' := by
  obtain ⟨pos, live, hphase, rfl, hring⟩ := h.scan
  obtain rfl := h.ring
  have hnext := h.next
  obtain ⟨l, hl⟩ : ∃ l, w.logs[1 + live.length]? = some l :=
    ⟨_, List.getElem?_eq_getElem (hk.trans_le hring.published_le)⟩
  have hcount : sizeofLogMateData ≤ r.ring.countSize pos := by
    have hlen := offset_add_le hl hk
    have htotal : l.1.totalLen = sizeofLogEntry + l.1.keyLen + l.1.valueLen := rfl
    rw [hring.countSize_eq]
    simp only [sizeofLogMateData, sizeofLogEntry] at htotal ⊢
    omega
  obtain ⟨m, hm, htable⟩ := h.table.key h.queues pos
  have hpass := readLogKeyPass_eq h.queues hphase hlimit hcount
    (by rw [hnext, h.cleaned]; omega) hm
  refine ⟨_, readLogKeyBody_next hphase hpass, ?_⟩
  refine ⟨rfl, h.queues.of_move (h.queues.readLogKeyPass hphase hpass), htable _ _ _, h.cleaned,
    ?_, ⟨_, live ++ [readLogEntry r.ring pos r.nextEntry], rfl, by simp,
      hring.scan hcount r.nextEntry⟩, ?_⟩
  · show r.nextEntry + 1 = first + (live.length + 1)
    omega
  · intro i hi
    rcases Nat.lt_or_ge i live.length with hlt | hge
    · obtain ⟨e, l', he, hl', hstored⟩ := h.stored i hlt
      have hne : first + i ≠ r.nextEntry := by omega
      refine ⟨e, l', (allocEntry_entries_of_ne r pos hne).trans he, hl', hstored.1, hstored.2.1,
        ?_⟩
      rw [show (allocEntry r pos).keyCopies (first + i) = r.keyCopies (first + i) from
        allocEntry_keyCopies_of_ne r pos hne]
      exact hstored.2.2
    · obtain rfl : i = live.length := by omega
      have hstored := keyStored_read hring hl hk (@allocEntry_keyCopies_self r pos)
      rw [← hnext]
      exact ⟨_, l, allocEntry_entries_self r pos, hl, hstored⟩

/-- When all logs have been read, the call returns. -/
theorem KeysRead.stop (h : KeysRead N w b first limits k r) (hk : 1 + k = w.published) :
    ∃ pos, Returns readLogKeyBody r (.next { r with
      ring := { r.ring with rdKeyPointer := pos }
      phase := .keysRead } none) := by
  obtain ⟨pos, live, hphase, rfl, hring⟩ := h.scan
  obtain rfl := h.ring
  have hcount : r.ring.countSize pos < sizeofLogMateData := by
    rw [hring.countSize_eq, hk, Nat.sub_self]
    decide
  have hpass : readLogKeyPass r limits live.length pos = .next { r with
      ring := { r.ring with rdKeyPointer := pos }
      phase := .keysRead } none := by
    rw [readLogKeyPass, if_pos (Or.inr hcount)]
  exact ⟨pos, (returns_next (readLogKeyBody_next hphase hpass)).mpr (.stop rfl)⟩

theorem KeysRead.run (h : KeysRead N w b first limits k r) {left : ℕ}
    (hleft : 1 + k + left = w.published) (hlimit : k + left ≤ limits)
    (hnum : k + left < QUEUE_SIZE) :
    ∃ r' pos, KeysRead N w b first limits (k + left) r' ∧
      Returns readLogKeyBody r (.next { r' with
        ring := { r'.ring with rdKeyPointer := pos }
        phase := .keysRead } none) := by
  induction left generalizing k r with
  | zero =>
    obtain ⟨pos, hret⟩ := h.stop hleft
    exact ⟨r, pos, h, hret⟩
  | succ left ih =>
    obtain ⟨r₁, hbody, h₁⟩ := h.step (by omega) (by omega) (by omega)
    obtain ⟨r', pos, h', hret⟩ := ih h₁ (by omega) (by omega) (by omega)
    rw [show k + (left + 1) = k + 1 + left by omega]
    exact ⟨r', pos, h', (returns_next hbody).mpr hret⟩

/-! ## `read_log_value` -/

/-- The last byte of a value is its tag. -/
theorem tag_of_holds {buff : ℕ → UInt8} {x : ℕ} {log : HeadLog}
    (h : Holds buff N x log.valueBytes) : buff ((x + (log.valueLen - 1)) % N) = 1 := by
  have hsplit : log.valueBytes = (log.value.bytes ++ [0]) ++ [1] := by simp [HeadLog.valueBytes]
  rw [hsplit] at h
  have htag := (holds_append.mp h).2 0 (by simp)
  have hlen : (log.value.bytes ++ [(0 : UInt8)]).length = log.valueLen - 1 := by
    simp [HeadLog.valueLen, TAG]
  rw [hlen] at htag
  exact htag

/-- `read_log_value` has moved `k` of `count` logs. -/
structure ValuesRead (N : ℕ) (w : Writer) (b : LocalRingbuff) (first limits count k : ℕ)
    (r : Receiver) : Prop where
  ring : r.ring = b
  executing : r.executing = List.range' first k
  pending : r.valuePeeding = List.range' (first + k) (count - k)
  phase : r.phase = .value limits k
  stored : ∀ i < count, ∃ e l, r.entries (first + i) = some e ∧ w.logs[1 + i]? = some l ∧
    KeyStored N (offset w.logs (1 + i)) r.keyCopies (first + i) e l.1 ∧
    (i < k → ValueStored N (offset w.logs (1 + i)) r.valueCopies (first + i) e l.1)

theorem ValuesRead.canMove {count : ℕ} (h : ValuesRead N w b first limits count k r)
    (hk : k ≤ count) (hnum : count < QUEUE_SIZE) : CanMove r where
  alive := by
    intro id hid
    rw [h.pending, List.mem_range'_1] at hid
    obtain ⟨i, rfl⟩ := Nat.exists_eq_add_of_le (show first ≤ id by omega)
    obtain ⟨e, l, he, -⟩ := h.stored i (by omega)
    exact ⟨e, he⟩
  room := by
    rw [h.executing, h.pending, List.length_range', List.length_range']
    omega

theorem ValuesRead.step {count : ℕ} {live : List LogEntry} {pos : ℕ}
    (hring : RingInv N w b pos 1 live) (hcount : 1 + count = w.published)
    (hvalues : ∀ (i : ℕ) (l : HeadLog × ℕ), w.logs[1 + i]? = some l →
      Holds b.buff N (offset w.logs (1 + i) + l.1.sendLen) l.1.valueBytes)
    (h : ValuesRead N w b first limits count k r) (hk : k < count) (hlimit : k < limits)
    (hnum : count < QUEUE_SIZE) :
    ∃ r', readLogValueBody r = .inl r' ∧ ValuesRead N w b first limits count (k + 1) r' := by
  obtain rfl := h.ring
  obtain ⟨e, l, he, hl, hkey, -⟩ := h.stored k hk
  have hfits := hring.fits _ l hl
  have hvalue := hvalues k l hl
  have hq : r.valuePeeding = (first + k) :: List.range' (first + k + 1) (count - (k + 1)) := by
    rw [h.pending, show count - k = count - (k + 1) + 1 by omega, List.range'_succ]
  have htag : r.arrived (first + k) = true := by
    have htotal : l.1.totalLen = l.1.sendLen + l.1.valueLen := rfl
    have hlen := l.1.valueLen_ge
    have htagPos : ringPos r.ring e.logPos e.mateData.valueTagOffset =
        (offset w.logs (1 + k) + (l.1.totalLen - 1)) % N := by
      rw [hkey.1, valueTagOffset_eq hfits]
      exact hring.ringPos_eq (by rw [hkey.2.1, Nat.mod_mod])
    rw [Receiver.arrived, he, decide_eq_true_eq, htagPos,
      show offset w.logs (1 + k) + (l.1.totalLen - 1) =
        offset w.logs (1 + k) + l.1.sendLen + (l.1.valueLen - 1) by omega]
    exact tag_of_holds hvalue
  refine ⟨_, readLogValueBody_move (h.canMove hk.le hnum) h.phase hlimit hq he htag, ?_⟩
  refine ⟨rfl, ?_, rfl, rfl, ?_⟩
  · show r.executing ++ [first + k] = _
    rw [h.executing, List.range'_concat, Nat.one_mul]
  · intro i hi
    by_cases hik : i = k
    · subst hik
      exact ⟨_, l, setValue_entries_self .., hl, hkey, fun _ => valueStored_set hring hl
        (Nat.le_add_right 1 i) (by omega) hkey.1 hkey.2.1 hvalue _⟩
    · obtain ⟨e', l', he', hl', hkey', hvalue'⟩ := h.stored i hi
      have hne : first + i ≠ first + k := by omega
      refine ⟨e', l', (setValue_entries_of_ne r e hne).trans he', hl', hkey', fun hlt => ?_⟩
      have hstored := hvalue' (by omega)
      unfold ValueStored at hstored ⊢
      rwa [show (moveValue r limits k (first + k) _ e).valueCopies (first + i) =
        r.valueCopies (first + i) from setValue_valueCopies_of_ne r e hne]

theorem ValuesRead.run {count : ℕ} {live : List LogEntry} {pos : ℕ}
    (hring : RingInv N w b pos 1 live) (hcount : 1 + count = w.published)
    (hvalues : ∀ (i : ℕ) (l : HeadLog × ℕ), w.logs[1 + i]? = some l →
      Holds b.buff N (offset w.logs (1 + i) + l.1.sendLen) l.1.valueBytes)
    (h : ValuesRead N w b first limits count k r) {left : ℕ} (hleft : k + left = count)
    (hlimit : count ≤ limits) (hnum : count < QUEUE_SIZE) :
    ∃ r', ValuesRead N w b first limits count count r' ∧
      Returns readLogValueBody r (.next { r' with phase := afterRead count } none) := by
  induction left generalizing k r with
  | zero =>
    obtain rfl : k = count := hleft
    refine ⟨r, h, readsValues_stop h.phase (.inr ?_)⟩
    rw [h.pending, Nat.sub_self, List.range'_zero]
  | succ left ih =>
    obtain ⟨r₁, hbody, h₁⟩ := h.step hring hcount hvalues (by omega) (by omega) hnum
    obtain ⟨r', h', hret⟩ := ih h₁ (by omega)
    exact ⟨r', h', (returns_next hbody).mpr hret⟩

/-- The entry of a log that has been moved gives back the log. -/
theorem recovered {x id : ℕ} {e : LogEntry} {log : HeadLog} (hsize : r.ring.size = N)
    (hfits : log.Fits) (hkey : KeyStored N x r.keyCopies id e log)
    (hvalue : ValueStored N x r.valueCopies id e log)
    (hmateHeld : Holds r.ring.buff N x log.mateBytes)
    (hvalueHeld : Holds r.ring.buff N (x + log.sendLen) log.valueBytes) :
    Recovered r e log x := by
  have hmate := HeadLog.mateData_of_fits hfits
  have hkeyBytes := hkey.keyBytes_eq hfits hmateHeld
  have hvalueBytes := hvalue.valueBytes_eq hfits hkey.1 hvalueHeld
  rw [Receiver.keyBytes, hkey.1, keyLength_toNat hfits] at hkeyBytes
  rw [Receiver.valueBytes, hkey.1, valueLength_toNat hfits] at hvalueBytes
  refine ⟨hkey.1.trans hmate, ?_, ?_, hkeyBytes, ?_, hvalueBytes⟩
  · rw [hkey.2.1, hsize, Nat.mod_mod]
  · have hplace := hkey.2.2
    unfold Receiver.getKeyAddr
    split_ifs at hplace
    · rw [hplace.1]
      exact ⟨_, hplace.2, log.length_keyBytes⟩
    · rw [hplace.1]
      exact hsize ▸ hplace.2.le
  · unfold ValueStored at hvalue
    unfold Receiver.getValueAddr
    split_ifs at hvalue
    · rw [hvalue.1]
      exact ⟨_, hvalue.2, log.length_valueBytes⟩
    · rw [hvalue.1]
      exact hsize ▸ hvalue.2.le

end Reading

/-! ## The round trip -/

/-- The dirty table of an idle reader points nowhere, so the ring can change below it. -/
theorem Idle.not_mem_keyPointers {r : Receiver} (h : Idle r) (p : Addr) : p ∉ r.keyPointers := by
  have hkeys : r.keys.drop r.cleaned = [] :=
    List.drop_eq_nil_of_le (by rw [h.queues.keys_length, h.all_cleaned])
  rw [mem_keyPointers]
  rintro (hp | ⟨j, e, hj, hlt, -⟩)
  · apply find_of_stored h.table.wellFormed hp
    rw [h.table.count, hkeys, List.count_nil, positive_zero]
  · have := h.all_cleaned
    omega

/-- Where the reader of an idle node starts, the ring has been filled. -/
theorem keysRead_start {r : Receiver} (hidle : Idle r) {w : Writer} {b : LocalRingbuff}
    (hring : RingInv r.ring.size w b (r.ring.wrPointer % r.ring.size) 1 [])
    (hpos : b.rdKeyPointer = r.ring.wrPointer % r.ring.size)
    (limits : ℕ) :
    KeysRead r.ring.size w b r.nextEntry limits 0
      { r with ring := b, phase := .keys limits 0 b.rdKeyPointer } := by
  have hphase : PhaseInv .parse r.received.length r.obtained.length r.cleaned :=
    hidle.phase ▸ hidle.queues.phase_inv
  refine ⟨rfl, ?_, ?_, hidle.all_cleaned, rfl, ⟨_, [], rfl, rfl, ?_⟩, ?_⟩
  · exact { hidle.queues with phase_inv := hphase }
  · exact hidle.table.frame rfl rfl rfl rfl (fun _ e' he' => ⟨e', he', rfl, rfl⟩)
      fun p hp => absurd hp (hidle.not_mem_keyPointers p)
  · rwa [hpos]
  · exact fun i hi => absurd hi (Nat.not_lt_zero i)

/-- Where `read_log_value` starts after `read_log_key` has returned. -/
theorem KeysRead.values {N : ℕ} {w : Writer} {b : LocalRingbuff} {first limits count : ℕ}
    {r : Receiver} (h : KeysRead N w b first limits count r) (pos limits' : ℕ) :
    ValuesRead N w { b with rdKeyPointer := pos } first limits' count 0 { r with
      ring := { r.ring with rdKeyPointer := pos }
      phase := .value limits' 0 } := by
  obtain ⟨p, live, hphase, -, -⟩ := h.scan
  obtain ⟨htaken, hmoved⟩ : PhaseInv (.keys limits count p) _ _ _ := hphase ▸ h.queues.phase_inv
  have hreceived : r.received.length = first := hmoved.trans h.cleaned
  have hnext := h.next
  refine ⟨by rw [h.ring], ?_, ?_, rfl, ?_⟩
  · show r.executing = _
    rw [h.queues.executing_eq, htaken, hmoved, Nat.sub_self]
    rfl
  · show r.valuePeeding = _
    rw [h.queues.peeding_eq, hreceived, hnext, Nat.add_sub_cancel_left]
    rfl
  · intro i hi
    obtain ⟨e, l, he, hl, hkey⟩ := h.stored i hi
    exact ⟨e, l, he, hl, hkey, fun hlt => absurd hlt (Nat.not_lt_zero i)⟩

/-- A freshly started reader whose ring is in a given state. -/
def readerAt (b : LocalRingbuff) : Receiver :=
  { (freshNode 128 (fun _ => 0) (fun _ _ => 0)).receiver with ring := b }

theorem idle_readerAt {b : LocalRingbuff} (hwr : b.wrPointer ≤ b.size)
    (hrd : b.rdPointer = b.wrPointer % b.size) (hkey : b.rdKeyPointer = b.wrPointer % b.size) :
    Idle (readerAt b) where
  phase := rfl
  queues := (QueueInv.fresh _ _ _).with_ring b
  table := (DirtyInv.fresh 128 (fun _ => 0) (fun _ _ => 0)).write b fun p hp => by
    rcases mem_keyPointers.mp hp with hp | ⟨j, e, -, hlt, -⟩
    · have htable := DirtyInv.fresh 128 (fun _ => 0) (fun _ _ => 0)
      exact absurd (htable.count _) (find_of_stored htable.wellFormed hp)
    · exact absurd hlt (Nat.not_lt_zero j)
  all_cleaned := rfl
  wr_pointer := hwr
  rd_pointer := hrd
  rd_key_pointer := hkey

end RdmaMiddleware.RoundTrip
