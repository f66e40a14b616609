import RdmaMiddleware.Delivery

/-!
# The reader's three queues and its share of the ring

The reader of one node against any stream of well-formed logs. All that it is promised is
that the metadata of a published log stays in the ring until it has been read; every
other byte may change between any two steps, and logs are published at any time in the
free space.
-/
namespace RdmaMiddleware.Bookkeeping
open CInt CircularMemory LogBuffer TransitionSystem UnlockQueue RingReservation Chain

/-! ## Steps -/

/-- A key has its terminator, a value its terminator and its tag. -/
def WellFormed (m : LogMateData) : Prop := 1 ≤ m.keyLength ∧ 2 ≤ m.valueLength

instance (m : LogMateData) : Decidable (WellFormed m) := inferInstanceAs (Decidable (_ ∧ _))

/-- The length of a log. -/
def span (m : LogMateData) : ℕ := m.nextOffset.toNat

def spans (ms : List LogMateData) : ℕ := (ms.map span).sum

/-- `ahead` are the logs published and not yet read, `sent` the log last handed to
`send_log`. -/
structure State where
  r : Receiver
  ahead : List LogMateData
  sent : Option ℕ

inductive Action
  | reader (a : ReaderAction)
  /-- A byte of the ring changes. -/
  | poke (c : ℕ) (byte : UInt8)
  /-- The next log is published, and the write pointer becomes `wr`. -/
  | publish (m : LogMateData) (wr : ℕ)

/-- The cells of the metadata of logs that stand from `pos` on. -/
def mateCells (n : ℕ) : ℕ → List LogMateData → List ℕ
  | _, [] => []
  | pos, m :: rest =>
    (List.range sizeofLogMateData).map (fun j => (pos + j) % n) ++ mateCells n (pos + span m) rest

/-- A log may be published where it fits and where its metadata has been written. -/
def CanPublish (b : LocalRingbuff) (m : LogMateData) (wr : ℕ) : Prop :=
  WellFormed m ∧ (span m : ℤ) ≤ b.freeSize ∧ wr ≤ b.size ∧
    wr % b.size = (b.wrPointer + span m) % b.size ∧
    circRead b.buff b.size b.wrPointer sizeofLogMateData = m.encode

instance (b : LocalRingbuff) (m : LogMateData) (wr : ℕ) : Decidable (CanPublish b m wr) :=
  inferInstanceAs (Decidable (_ ∧ _))

def step (s : State) : Action → Option State
  | .reader a =>
    match readerStep s.r a with
    | some (.next r handed) => some
        { r := r
          ahead := if r.nextEntry = s.r.nextEntry then s.ahead else s.ahead.tail
          sent := handed.orElse fun _ => s.sent }
    | _ => none
  | .poke c byte =>
    if c ∈ mateCells s.r.ring.size s.r.scanPos s.ahead then none
    else some { s with r := s.r.withBuff (Function.update s.r.ring.buff c byte) }
  | .publish m wr =>
    if CanPublish s.r.ring m wr then some { s with
      r := { s.r with ring := { s.r.ring with wrPointer := wr } }
      ahead := s.ahead ++ [m] }
    else none

/-- A reader that starts on an empty ring with its pointers anywhere. -/
def start (b : LocalRingbuff) (junk : Addr → ℕ → UInt8) : State where
  r := { (freshNode b.size b.buff junk).receiver with ring := b }
  ahead := []
  sent := none

def bookSystem (n : ℕ) : System State Action where
  init := fun s => ∃ b junk, s = start b junk ∧ b.size = n ∧ b.wrPointer ≤ n ∧
    b.rdPointer = b.wrPointer % n ∧ b.rdKeyPointer = b.wrPointer % n
  step := step

/-! ## The property -/

/-- Position and metadata of the logs in `dirty_queue`. -/
def dirtyLogs (r : Receiver) : List (ℕ × LogMateData) :=
  r.dirty.filterMap fun id => (r.entries id).map fun e => (e.logPos, e.mateData)

/-- Logs that tile the ring from `p` to `q`. -/
def Tiles (n : ℕ) : ℕ → List (ℕ × LogMateData) → ℕ → Prop
  | p, [], q => p % n = q % n
  | p, (pos, m) :: rest, q => pos % n = p % n ∧ Tiles n (pos + span m) rest q

/-- The queues to which a step of the reader appends a log. -/
def putsOf (r : Receiver) : ReaderAction → List (List ℕ)
  | .readLogKeyPass =>
    match r.phase with
    | .keys limits readNum pos =>
      if limits ≤ readNum ∨ r.ring.countSize pos < sizeofLogMateData then []
      else [r.dirty, r.valuePeeding]
    | _ => []
  | .readLogValuePass =>
    match r.phase, r.valuePeeding with
    | .value limits readNum, id :: _ =>
      if readNum < limits ∧ (r.entries id).any fun e =>
        r.ring.buff (ringPos r.ring e.logPos e.mateData.valueTagOffset) = 1 then [r.executing]
      else []
    | _, _ => []
  | _ => []

/-- What the five functions of the reader keep in common. -/
structure InOrder (n : ℕ) (s : State) : Prop where
  queues : s.r.phase = .parse → s.r.dirty = s.r.executing ++ s.r.valuePeeding
  tiles : s.r.phase = .parse → (dirtyLogs s.r).length = s.r.dirty.length ∧
    Tiles n s.r.ring.rdPointer (dirtyLogs s.r) s.r.ring.rdKeyPointer
  same_log : ∀ num, s.r.phase = .sent num → s.sent ≠ none ∧ s.r.dirty.head? = s.sent
  bounds : ∀ queue ∈ [s.r.dirty, s.r.executing, s.r.valuePeeding],
    queue.length ≤ (n - 1) / (sizeofLogEntry + 3)
  puts : (n - 1) / (sizeofLogEntry + 3) < QUEUE_SIZE →
    ∀ a, ∀ queue ∈ putsOf s.r a, ∀ id, boundedPut QUEUE_SIZE queue id ≠ none

/-! ## Logs one behind the other -/

section Tilings
variable {n : ℕ} {buff : ℕ → UInt8} {p p' q q' : ℕ} {m : LogMateData}
  {ls : List (ℕ × LogMateData)} {ms : List LogMateData}

theorem spans_append (ms ms' : List LogMateData) : spans (ms ++ ms') = spans ms + spans ms' := by
  simp [spans]

@[simp] theorem spans_cons (m : LogMateData) (ms : List LogMateData) :
    spans (m :: ms) = span m + spans ms := rfl

theorem nextOffset_eq_span (h : WellFormed m) : m.nextOffset = span m := by
  have hkey := h.1
  have hvalue := h.2
  unfold span
  rw [Int.toNat_of_nonneg]
  unfold LogMateData.nextOffset
  omega

theorem le_span (h : WellFormed m) : sizeofLogEntry + 3 ≤ span m := by
  have hspan := nextOffset_eq_span h
  have hkey := h.1
  have hvalue := h.2
  unfold LogMateData.nextOffset at hspan
  omega

theorem length_mul_le_spans (h : ∀ m ∈ ms, WellFormed m) :
    ms.length * (sizeofLogEntry + 3) ≤ spans ms := by
  induction ms with
  | nil => exact Nat.zero_le _
  | cons m rest ih =>
    have hm := le_span (h m (by simp))
    have hrest := ih (fun m' hm' => h m' (by simp [hm']))
    rw [List.length_cons, spans_cons, Nat.succ_mul]
    omega

theorem add_mod_congr (h : p % n = q % n) (k : ℕ) : (p + k) % n = (q + k) % n := by
  rw [Nat.add_mod, h, ← Nat.add_mod]

theorem Tiles.congr (h : Tiles n p ls q) (hp : p' % n = p % n) : Tiles n p' ls q := by
  cases ls with
  | nil => exact hp.trans h
  | cons l rest => exact ⟨h.1.trans hp.symm, h.2⟩

theorem Tiles.end_eq (h : Tiles n p ls q) : (p + spans (ls.map Prod.snd)) % n = q % n := by
  induction ls generalizing p with
  | nil => exact h
  | cons l rest ih =>
    rw [List.map_cons, spans_cons, ← Nat.add_assoc, ← ih h.2]
    exact add_mod_congr (add_mod_congr h.1.symm _) _

theorem Tiles.concat (h : Tiles n p ls q) (hq : q' % n = (q + span m) % n) :
    Tiles n p (ls ++ [(q, m)]) q' := by
  induction ls generalizing p with
  | nil => exact ⟨Eq.symm h, hq.symm⟩
  | cons l rest ih => exact ⟨h.1, ih h.2⟩

theorem holds_congr {bs : List UInt8} (h : Holds buff n p bs) (hp : p' % n = p % n) :
    Holds buff n p' bs := by
  intro j hj
  rw [add_mod_congr hp]
  exact h j hj

theorem holds_of_circRead_eq {bs : List UInt8} (h : circRead buff n p bs.length = bs) :
    Holds buff n p bs := by
  have hread := holds_circRead buff n p bs.length
  rwa [h] at hread

/-- The metadata of the logs stands in the ring from `p` on, and the last one ends at `q`. -/
def Standing (n : ℕ) (buff : ℕ → UInt8) : ℕ → List LogMateData → ℕ → Prop
  | p, [], q => p % n = q % n
  | p, m :: rest, q => WellFormed m ∧ Holds buff n p m.encode ∧ Standing n buff (p + span m) rest q

theorem Standing.congr (h : Standing n buff p ms q) (hp : p' % n = p % n) :
    Standing n buff p' ms q := by
  induction ms generalizing p p' with
  | nil => exact hp.trans h
  | cons m rest ih => exact ⟨h.1, holds_congr h.2.1 hp, ih h.2.2 (add_mod_congr hp _)⟩

theorem Standing.end_eq (h : Standing n buff p ms q) : (p + spans ms) % n = q % n := by
  induction ms generalizing p with
  | nil => exact h
  | cons m rest ih =>
    rw [spans_cons, ← Nat.add_assoc]
    exact ih h.2.2

theorem Standing.concat (h : Standing n buff p ms q) (hm : WellFormed m)
    (hheld : Holds buff n q m.encode) (hq : q' % n = (q + span m) % n) :
    Standing n buff p (ms ++ [m]) q' := by
  induction ms generalizing p with
  | nil =>
    have hpq : p % n = q % n := h
    exact ⟨hm, holds_congr hheld hpq, (add_mod_congr hpq _).trans hq.symm⟩
  | cons m' rest ih => exact ⟨h.1, h.2.1, ih h.2.2⟩

/-- A byte that belongs to no metadata may change. -/
theorem Standing.poke (h : Standing n buff p ms q) {c : ℕ} (hc : c ∉ mateCells n p ms)
    (byte : UInt8) : Standing n (Function.update buff c byte) p ms q := by
  induction ms generalizing p with
  | nil => exact h
  | cons m rest ih =>
    rw [mateCells, List.mem_append, not_or] at hc
    refine ⟨h.1, fun j hj => ?_, ih h.2.2 hc.2⟩
    have hne : (p + j) % n ≠ c := by
      rintro rfl
      rw [LogMateData.length_encode] at hj
      exact hc.1 (List.mem_map.mpr ⟨j, List.mem_range.mpr hj, rfl⟩)
    rw [Function.update_of_ne hne]
    exact h.2.1 j hj

end Tilings

/-! ## The invariant -/

structure BookInv (n : ℕ) (s : State) : Prop where
  ring_size : IsRingSize n
  size_eq : s.r.ring.size = n
  wr_le : s.r.ring.wrPointer ≤ n
  queues : QueueInv s.r
  well_formed : ∀ l ∈ dirtyLogs s.r, WellFormed l.2
  tiles : Tiles n s.r.ring.rdPointer (dirtyLogs s.r) s.r.scanPos
  scan_lt : s.r.scanPos < n
  standing : Standing n s.r.ring.buff s.r.scanPos s.ahead s.r.ring.wrPointer
  space : spans ((dirtyLogs s.r).map Prod.snd) + spans s.ahead ≤ n - 1
  sent_eq : s.sent = if s.r.obtained = [] then none else some (s.r.obtained.length - 1)

namespace BookInv
variable {n : ℕ} {s : State}

/-- What is readable are the logs not yet freed and the logs not yet read. -/
theorem dataSize_eq (h : BookInv n s) :
    s.r.ring.dataSize = spans ((dirtyLogs s.r).map Prod.snd) + spans s.ahead := by
  have hpos := h.ring_size.pos
  have hspace := h.space
  have hend : (s.r.ring.rdPointer + (spans ((dirtyLogs s.r).map Prod.snd) + spans s.ahead)) % n =
      s.r.ring.wrPointer % n := by
    rw [← Nat.add_assoc, add_mod_congr h.tiles.end_eq]
    exact h.standing.end_eq
  unfold Ringbuff.dataSize
  rw [h.size_eq, mask_sub h.ring_size hend.symm rfl (Nat.le_add_right _ _) (by omega)]
  omega

theorem countSize_eq (h : BookInv n s) : s.r.ring.countSize s.r.scanPos = spans s.ahead := by
  have hpos := h.ring_size.pos
  have hspace := h.space
  unfold Ringbuff.countSize
  rw [h.size_eq, mask_sub h.ring_size h.standing.end_eq.symm rfl (Nat.le_add_right _ _) (by omega)]
  omega

/-- When `read_log_key` finds enough bytes, it reads the metadata of the next log. -/
theorem readMateData_eq (h : BookInv n s)
    (hcount : sizeofLogMateData ≤ s.r.ring.countSize s.r.scanPos) :
    ∃ m rest, s.ahead = m :: rest ∧ readMateData s.r.ring s.r.scanPos = m := by
  have hdata := h.dataSize_eq
  have hspace := h.space
  have hle := h.ring_size.le
  have hstand := h.standing
  rw [h.countSize_eq] at hcount
  cases hahead : s.ahead with
  | nil =>
    rw [hahead] at hcount
    exact absurd hcount (by decide)
  | cons m rest =>
    rw [hahead] at hcount hdata hspace hstand
    rw [spans_cons] at hcount hdata hspace
    obtain ⟨hm, hheld, -⟩ := hstand
    have hspan := nextOffset_eq_span hm
    have hkey := hm.1
    have hvalue := hm.2
    unfold LogMateData.nextOffset at hspan
    have hread : rbRead s.r.ring true (s.r.scanPos % s.r.ring.size : ℕ) sizeofLogMateData true =
        some (circRead s.r.ring.buff s.r.ring.size s.r.scanPos sizeofLogMateData, s.r.ring) :=
      rbRead_copy_of_le (h.size_eq ▸ h.ring_size) (by omega)
    rw [h.size_eq, Nat.mod_eq_of_lt h.scan_lt, ← m.length_encode, hheld.circRead_eq] at hread
    refine ⟨m, rest, rfl, ?_⟩
    unfold readMateData
    rw [← m.length_encode, hread]
    exact LogMateData.decode_encode (by omega) (by omega) (by omega) (by omega)

/-! ### The steps of the reader -/

theorem dirtyLogs_congr {r r' : Receiver} (hdirty : r'.dirty = r.dirty)
    (hentry : ∀ id ∈ r.dirty, (r'.entries id).map (fun e => (e.logPos, e.mateData)) =
      (r.entries id).map fun e => (e.logPos, e.mateData)) : dirtyLogs r' = dirtyLogs r := by
  unfold dirtyLogs
  rw [hdirty]
  exact List.filterMap_congr hentry

/-- A move that leaves the logs, the read pointer and the scan position where they are. -/
theorem same_logs (h : BookInv n s) {r : Receiver} {handed : Option ℕ}
    (hqueues : QueueInv r) (hlogs : dirtyLogs r = dirtyLogs s.r)
    (hring : r.ring = { s.r.ring with rdKeyPointer := r.ring.rdKeyPointer })
    (hscan : r.scanPos = s.r.scanPos) (hnext : r.nextEntry = s.r.nextEntry)
    (hsent : (handed.orElse fun _ => s.sent) =
      if r.obtained = [] then none else some (r.obtained.length - 1)) :
    BookInv n
      { r := r
        ahead := if r.nextEntry = s.r.nextEntry then s.ahead else s.ahead.tail
        sent := handed.orElse fun _ => s.sent } := by
  rw [if_pos hnext]
  exact {
    ring_size := h.ring_size
    size_eq := by rw [hring]; exact h.size_eq
    wr_le := by rw [hring]; exact h.wr_le
    queues := hqueues
    well_formed := by rw [hlogs]; exact h.well_formed
    tiles := by rw [hlogs, hscan, hring]; exact h.tiles
    scan_lt := by rw [hscan]; exact h.scan_lt
    standing := by rw [hscan, hring]; exact h.standing
    space := by rw [hlogs]; exact h.space
    sent_eq := hsent }

theorem readLogKey (h : BookInv n s) {r : Receiver} {pos : ℕ} (hpos : s.r.scanPos = pos)
    (hcount : sizeofLogMateData ≤ s.r.ring.countSize pos) (hqueues : QueueInv r)
    (hdirty : r.dirty = s.r.dirty ++ [s.r.nextEntry])
    (hentries : r.entries = (allocEntry s.r pos).entries) (hring : r.ring = s.r.ring)
    (hscan : r.scanPos =
      ringPos s.r.ring pos (readLogEntry s.r.ring pos s.r.nextEntry).mateData.nextOffset)
    (hnext : r.nextEntry = s.r.nextEntry + 1) (hobtained : r.obtained = s.r.obtained) :
    BookInv n
      { r := r
        ahead := if r.nextEntry = s.r.nextEntry then s.ahead else s.ahead.tail
        sent := (none : Option ℕ).orElse fun _ => s.sent } := by
  subst hpos
  obtain ⟨m, rest, hahead, hmate⟩ := h.readMateData_eq hcount
  have hspace := h.space
  have hpos := h.ring_size.pos
  obtain ⟨hm, -, hrest⟩ : Standing n _ _ (m :: rest) _ := hahead ▸ h.standing
  have hlogs : dirtyLogs r = dirtyLogs s.r ++ [(s.r.scanPos, m)] := by
    unfold dirtyLogs
    rw [hdirty, List.filterMap_append, hentries]
    congr 1
    · apply List.filterMap_congr
      intro id hid
      rw [h.queues.dirty_eq, List.mem_range'_1] at hid
      have hle := h.queues.cleaned_le
      rw [allocEntry_entries_of_ne s.r _ (by omega)]
    · rw [List.filterMap_cons, allocEntry_entries_self, List.filterMap_nil]
      show [((readLogEntry s.r.ring s.r.scanPos s.r.nextEntry).logPos, readMateData _ _)] = _
      rw [hmate]
      rfl
  have hscan' : r.scanPos = (s.r.scanPos + span m) % n := by
    have hoffset : (readLogEntry s.r.ring s.r.scanPos s.r.nextEntry).mateData.nextOffset =
        span m := by
      show (readMateData _ _).nextOffset = _
      rw [hmate, nextOffset_eq_span hm]
    rw [hscan, hoffset, ringPos, h.size_eq]
    exact_mod_cast mask_natCast h.ring_size (s.r.scanPos + span m)
  rw [hahead, spans_cons] at hspace
  rw [if_neg (by omega), hahead, List.tail_cons]
  exact {
    ring_size := h.ring_size
    size_eq := hring ▸ h.size_eq
    wr_le := hring ▸ h.wr_le
    queues := hqueues
    well_formed := by
      rw [hlogs]
      intro l hl
      rcases List.mem_append.mp hl with hl | hl
      · exact h.well_formed l hl
      · rw [List.mem_singleton.mp hl]
        exact hm
    tiles := by
      rw [hlogs, hscan', hring]
      exact h.tiles.concat (Nat.mod_mod _ _)
    scan_lt := hscan' ▸ Nat.mod_lt _ hpos
    standing := by
      rw [hscan', hring]
      exact hrest.congr (Nat.mod_mod _ _)
    space := by
      rw [hlogs, List.map_append, spans_append]
      show _ + (span m + 0) + _ ≤ _
      dsimp only
      omega
    sent_eq := by
      rw [hobtained]
      exact h.sent_eq }

theorem cleanLog (h : BookInv n s) {r : Receiver} {e : LogEntry} {rest : List ℕ}
    (hscan₀ : s.r.scanPos = s.r.ring.rdKeyPointer) (hqueue : s.r.dirty = s.r.cleaned :: rest)
    (hentry : s.r.entries s.r.cleaned = some e) (hqueues : QueueInv r) (hdirty : r.dirty = rest)
    (hentries : r.entries = (freeLog s.r s.r.cleaned e).entries)
    (hring : r.ring = freeRing s.r.ring e) (hscan : r.scanPos = r.ring.rdKeyPointer)
    (hnext : r.nextEntry = s.r.nextEntry) (hobtained : r.obtained = s.r.obtained) :
    BookInv n
      { r := r
        ahead := if r.nextEntry = s.r.nextEntry then s.ahead else s.ahead.tail
        sent := (none : Option ℕ).orElse fun _ => s.sent } := by
  obtain ⟨-, -, hrest⟩ := range'_eq_cons (h.queues.dirty_eq.symm.trans hqueue)
  have hlogs : dirtyLogs s.r = (e.logPos, e.mateData) :: dirtyLogs r := by
    unfold dirtyLogs
    rw [hqueue, List.filterMap_cons, hentry, hdirty, hentries]
    refine congrArg (List.cons _) (List.filterMap_congr fun id hid => ?_)
    rw [hrest, List.mem_range'_1] at hid
    rw [freeLog_entries_of_ne s.r e (by omega)]
  have hscan' : r.scanPos = s.r.scanPos := by
    rw [hscan, hscan₀, hring]
    rfl
  have hm : WellFormed e.mateData := h.well_formed (e.logPos, e.mateData) (by simp [hlogs])
  obtain ⟨hfirst, htiles⟩ : Tiles n _ ((e.logPos, e.mateData) :: dirtyLogs r) _ := hlogs ▸ h.tiles
  have hrd : r.ring.rdPointer % n = (e.logPos + span e.mateData) % n := by
    have hmask : r.ring.rdPointer = (s.r.ring.rdPointer + span e.mateData) % n := by
      rw [hring, freeRing, ringPos, h.size_eq, nextOffset_eq_span hm]
      exact_mod_cast mask_natCast h.ring_size (s.r.ring.rdPointer + span e.mateData)
    rw [hmask, Nat.mod_mod]
    exact add_mod_congr hfirst.symm _
  have hspace := h.space
  rw [hlogs, List.map_cons, spans_cons] at hspace
  rw [if_pos hnext]
  exact {
    ring_size := h.ring_size
    size_eq := by rw [hring]; exact h.size_eq
    wr_le := by rw [hring]; exact h.wr_le
    queues := hqueues
    well_formed := fun l hl => h.well_formed l (hlogs ▸ List.mem_cons_of_mem _ hl)
    tiles := by
      rw [hscan']
      exact htiles.congr hrd
    scan_lt := hscan' ▸ h.scan_lt
    standing := by
      rw [hscan', hring]
      exact h.standing
    space := by
      dsimp only at hspace ⊢
      omega
    sent_eq := by
      rw [hobtained]
      exact h.sent_eq }

/-- Every step of the reader keeps the invariant. -/
theorem of_move (h : BookInv n s) {r : Receiver} {handed : Option ℕ}
    (hm : ReaderMove s.r r handed) : BookInv n
      { r := r
        ahead := if r.nextEntry = s.r.nextEntry then s.ahead else s.ahead.tail
        sent := handed.orElse fun _ => s.sent } := by
  have hqueues := h.queues.of_move hm
  cases hm with
  | stay hpos hphase => exact h.same_logs hqueues rfl rfl hpos rfl h.sent_eq
  | @key limits readNum pos dirtyMap hphase hcount hmap hroom =>
    exact h.readLogKey (by simp [Receiver.scanPos, hphase]) hcount hqueues rfl rfl rfl rfl rfl rfl
  | @value limits readNum e rest hphase hqueue hentry htag =>
    refine h.same_logs hqueues (dirtyLogs_congr rfl fun id _ => ?_) rfl
      (by simp [Receiver.scanPos, hphase]; rfl) rfl h.sent_eq
    show Option.map _ ((setValue s.r s.r.received.length e).2.entries id) = _
    by_cases hid : id = s.r.received.length
    · rw [hid, setValue_entries_self, hentry]
      rfl
    · rw [setValue_entries_of_ne s.r e hid]
  | @send num e rest hphase hqueue hentry =>
    exact h.same_logs hqueues rfl rfl (by simp [Receiver.scanPos, hphase]) rfl (by simp)
  | @clean num e rest dirtyMap hphase hqueue hentry hdirty hmap =>
    refine h.cleanLog (by simp [Receiver.scanPos, hphase]) hqueue hentry hqueues rfl rfl rfl ?_
      rfl rfl
    unfold Receiver.scanPos afterRead
    dsimp only
    split_ifs <;> rfl

/-! ### The other steps -/

theorem poke (h : BookInv n s) {c : ℕ} (hc : c ∉ mateCells n s.r.scanPos s.ahead)
    (byte : UInt8) :
    BookInv n { s with r := s.r.withBuff (Function.update s.r.ring.buff c byte) } :=
  { h with
    queues := h.queues.with_ring _
    standing := h.standing.poke hc byte }

theorem publish (h : BookInv n s) {m : LogMateData} {wr : ℕ}
    (hcan : CanPublish s.r.ring m wr) :
    BookInv n { s with
      r := { s.r with ring := { s.r.ring with wrPointer := wr } }
      ahead := s.ahead ++ [m] } := by
  obtain ⟨hm, hfree, hwr, hmod, hread⟩ := hcan
  have hpos := h.ring_size.pos
  unfold Ringbuff.freeSize at hfree
  rw [h.dataSize_eq, h.size_eq] at hfree
  rw [h.size_eq] at hwr hmod hread
  rw [← m.length_encode] at hread
  refine { h with
    wr_le := hwr
    queues := h.queues.with_ring _
    standing := h.standing.concat hm (holds_of_circRead_eq hread) hmod
    space := ?_ }
  show spans ((dirtyLogs s.r).map Prod.snd) + spans (s.ahead ++ [m]) ≤ n - 1
  rw [spans_append]
  show _ + (_ + (span m + 0)) ≤ _
  omega

theorem of_step (h : BookInv n s) {a : Action} {t : State} (ht : step s a = some t) :
    BookInv n t := by
  cases a with
  | reader a =>
    unfold step at ht
    dsimp only at ht
    split at ht
    · rename_i r handed hstep
      rw [Option.some.injEq] at ht
      subst ht
      exact h.of_move (h.queues.move hstep)
    · cases ht
  | poke c byte =>
    simp only [step] at ht
    split_ifs at ht with hc
    rw [Option.some.injEq] at ht
    subst ht
    exact h.poke (h.size_eq ▸ hc) byte
  | publish m wr =>
    simp only [step] at ht
    split_ifs at ht with hcan
    rw [Option.some.injEq] at ht
    subst ht
    exact h.publish hcan

theorem init (hn : IsRingSize n) (h : (bookSystem n).init s) : BookInv n s := by
  obtain ⟨b, junk, rfl, hsize, hwr, hrd, hkey⟩ := h
  exact {
    ring_size := hn
    size_eq := hsize
    wr_le := hwr
    queues := (QueueInv.fresh b.size b.buff junk).with_ring b
    well_formed := by
      intro l hl
      cases hl
    tiles := by
      show b.rdPointer % n = b.rdKeyPointer % n
      rw [hrd, hkey]
    scan_lt := by
      show b.rdKeyPointer < n
      rw [hkey]
      exact Nat.mod_lt _ hn.pos
    standing := by
      show b.rdKeyPointer % n = b.wrPointer % n
      rw [hkey, Nat.mod_mod]
    space := Nat.zero_le _
    sent_eq := rfl }

theorem of_reachable (hn : IsRingSize n) (h : Reachable (bookSystem n) s) : BookInv n s :=
  h.invariant (fun _ h0 => init hn h0) fun _ _ _ hs _ ht => hs.of_step ht

/-! ### What the invariant says about the queues -/

theorem length_dirtyLogs (h : BookInv n s) : (dirtyLogs s.r).length = s.r.dirty.length := by
  unfold dirtyLogs
  rw [List.length_filterMap_eq_countP, List.countP_eq_length]
  intro id hid
  rw [h.queues.dirty_eq, List.mem_range'_1] at hid
  obtain ⟨e, he⟩ := h.queues.alive id hid.1 (by omega)
  rw [he]
  rfl

/-- Every dirty log and every log ahead takes its share of the ring. -/
theorem length_mul_le (h : BookInv n s) :
    s.r.dirty.length * (sizeofLogEntry + 3) + spans s.ahead ≤ n - 1 := by
  have hspace := h.space
  have hformed : ∀ m ∈ (dirtyLogs s.r).map Prod.snd, WellFormed m := by
    intro m hm
    obtain ⟨l, hl, rfl⟩ := List.mem_map.mp hm
    exact h.well_formed l hl
  have hmul := length_mul_le_spans hformed
  rw [List.length_map, h.length_dirtyLogs] at hmul
  omega

theorem length_dirty_le (h : BookInv n s) :
    s.r.dirty.length ≤ (n - 1) / (sizeofLogEntry + 3) := by
  rw [Nat.le_div_iff_mul_le (by decide)]
  have hmul := h.length_mul_le
  omega

/-- Both other queues hold logs of `dirty_queue`. -/
theorem length_queues_le (h : BookInv n s) :
    s.r.executing.length + s.r.valuePeeding.length ≤ s.r.dirty.length := by
  have hc := h.queues.cleaned_le
  have ho := h.queues.obtained_le
  have hr := h.queues.received_le
  rw [h.queues.executing_eq, h.queues.peeding_eq, h.queues.dirty_eq, List.length_range',
    List.length_range', List.length_range']
  omega

/-- Where a log is still ahead, `dirty_queue` stays under the bound when it joins. -/
theorem length_dirty_lt (h : BookInv n s)
    (hcount : sizeofLogMateData ≤ s.r.ring.countSize s.r.scanPos) :
    s.r.dirty.length + 1 ≤ (n - 1) / (sizeofLogEntry + 3) := by
  obtain ⟨m, rest, hahead, -⟩ := h.readMateData_eq hcount
  have hspan := le_span (hahead ▸ h.standing : Standing n _ _ (m :: rest) _).1
  have hmul := h.length_mul_le
  rw [hahead, spans_cons] at hmul
  rw [Nat.le_div_iff_mul_le (by decide), Nat.succ_mul]
  omega

theorem queues_eq (h : BookInv n s) (hphase : s.r.phase = .parse) :
    s.r.dirty = s.r.executing ++ s.r.valuePeeding := by
  obtain ⟨htaken, hmoved⟩ : PhaseInv .parse _ _ _ := hphase ▸ h.queues.phase_inv
  rw [h.queues.dirty_eq, h.queues.executing_eq, h.queues.peeding_eq, htaken, hmoved,
    Nat.sub_self]
  rfl

theorem sent_eq_head (h : BookInv n s) {num : ℕ} (hphase : s.r.phase = .sent num) :
    s.sent ≠ none ∧ s.r.dirty.head? = s.sent := by
  obtain ⟨htaken, hmoved, hnum⟩ : PhaseInv (.sent num) _ _ _ := hphase ▸ h.queues.phase_inv
  have hr := h.queues.received_le
  have hne : s.r.obtained ≠ [] := List.ne_nil_of_length_pos (by omega)
  have hsent := h.sent_eq
  rw [if_neg hne, htaken, Nat.add_sub_cancel] at hsent
  refine ⟨by simp [hsent], ?_⟩
  rw [hsent, h.queues.dirty_eq, List.head?_range', if_neg (by omega)]

theorem boundedPut_ne_none (h : BookInv n s)
    (hsmall : (n - 1) / (sizeofLogEntry + 3) < QUEUE_SIZE) {a : ReaderAction} {queue : List ℕ}
    (hqueue : queue ∈ putsOf s.r a) (id : ℕ) : boundedPut QUEUE_SIZE queue id ≠ none := by
  have hqueues := h.length_queues_le
  suffices hlen : queue.length + 1 ≤ (n - 1) / (sizeofLogEntry + 3) by
    have hsize : 1 ≤ QUEUE_SIZE := by decide
    rw [boundedPut, if_neg (by omega)]
    exact Option.some_ne_none _
  cases a with
  | readLogKeyPass =>
    unfold putsOf at hqueue
    dsimp only at hqueue
    split at hqueue
    · rename_i limits readNum pos hphase
      split_ifs at hqueue with hstop
      · cases hqueue
      have hpos : s.r.scanPos = pos := by simp [Receiver.scanPos, hphase]
      have hlt := h.length_dirty_lt (by rw [hpos]; omega)
      rcases List.mem_cons.mp hqueue with rfl | hqueue
      · exact hlt
      · rw [List.mem_singleton.mp hqueue]
        omega
    · cases hqueue
  | readLogValuePass =>
    unfold putsOf at hqueue
    dsimp only at hqueue
    split at hqueue
    · rename_i limits readNum id rest hphase hpeeding
      have hle := h.length_dirty_le
      rw [hpeeding, List.length_cons] at hqueues
      split_ifs at hqueue
      · rw [List.mem_singleton.mp hqueue]
        omega
      · cases hqueue
    · cases hqueue
  | _ => cases hqueue

end BookInv

/-- In every run on any ring the five functions of the reader stay in step. -/
theorem reader_inOrder (n : ℕ) (hn : IsRingSize n) {s : State}
    (h : Reachable (bookSystem n) s) : InOrder n s := by
  have hinv := BookInv.of_reachable hn h
  have hqueues := hinv.length_queues_le
  have hle := hinv.length_dirty_le
  exact {
    queues := hinv.queues_eq
    tiles := fun hphase => ⟨hinv.length_dirtyLogs, by
      have htiles := hinv.tiles
      rwa [Receiver.scanPos_eq (by simp [hphase])] at htiles⟩
    same_log := fun num hphase => hinv.sent_eq_head hphase
    bounds := by
      intro queue hqueue
      simp only [List.mem_cons, List.not_mem_nil, or_false] at hqueue
      rcases hqueue with rfl | rfl | rfl <;> omega
    puts := fun hsmall a queue hqueue id => hinv.boundedPut_ne_none hsmall hqueue id }

/-- A ring with the metadata of two logs of 37 bytes at 100 and 9, and their tags. -/
def twoLogsRing : LocalRingbuff where
  wrPointer := 100
  rdPointer := 100
  size := 128
  rdKeyPointer := 100
  buff := fun c =>
    if c = 100 ∨ c = 9 then 2 else if c = 104 ∨ c = 13 then 3 else if c = 8 ∨ c = 45 then 1 else 0

/-- Both logs are read, the first one is executed and cleaned. -/
def oneCleaned : List Action :=
  [.publish ⟨2, 3⟩ 9, .reader (.readLogKey 5), .publish ⟨2, 3⟩ 46, .reader .readLogKeyPass,
    .reader .readLogKeyPass, .poke 20 7, .reader .readLogKeyPass, .reader (.readLogValue 1),
    .reader .readLogValuePass, .reader .readLogValuePass, .reader .sendLog, .reader .cleanLog]

/-- The first log runs over the ring end, the second one waits for its value. -/
def State.oneWaits (s : State) : Bool :=
  s.r.cleaned == 1 && s.r.dirty == [1] && s.r.valuePeeding == [1] && s.r.ring.rdPointer == 9

theorem reader_inOrder_twoLogs :
    ∃ s, Reachable (bookSystem 128) s ∧ s.oneWaits = true ∧ InOrder 128 s := by
  have hstart : Reachable (bookSystem 128) (start twoLogsRing fun _ _ => 0) :=
    .start ⟨twoLogsRing, fun _ _ => 0, rfl, rfl, by decide, rfl, rfl⟩
  obtain ⟨s, _, hs, hwaits⟩ := reach_of_run_any (fun _ _ _ => trivial) hstart
    (show (run (bookSystem 128) (fun _ _ => true) (start twoLogsRing fun _ _ => 0) oneCleaned).any
      State.oneWaits = true by decide +kernel)
  exact ⟨s, hs, hwaits, reader_inOrder 128 ⟨7, by decide, rfl⟩ hs⟩

end RdmaMiddleware.Bookkeeping
