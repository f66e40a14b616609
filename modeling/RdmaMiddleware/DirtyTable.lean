import RdmaMiddleware.MidHashmapRefinement
import RdmaMiddleware.Delivery

/-!
# The dirty table of a reader

The table stores the pointer it was given with the first of several logs of one key,
and that log may be cleaned first: its slot in the ring can then be written again, and a
copied key is freed. The counts are right in every run in which no string that is still
pointed at changes; when one does, `judge_key_dirty` and `clean_log` miss the key.
-/
namespace RdmaMiddleware.Chain
open CInt CircularMemory LogBuffer MidHashmap UnlockQueue TransitionSystem RingReservation

/-! ## The property -/

/-- The table marks the keys of the logs read and not cleaned and counts them, and no
step of the reader finds it otherwise. -/
structure DirtyExact (r : Receiver) : Prop where
  judge_iff : ∀ k, r.judgeKeyDirty k = true ↔ k ∈ r.keys.drop r.cleaned
  count_eq : ∀ k, defaultGet defaultHashCode r.str r.dirtyMap k = (r.keys.drop r.cleaned).count k
  key_eq : ∀ (j : ℕ) (e : LogEntry), r.cleaned ≤ j → j < r.nextEntry → r.entries j = some e →
    r.keys[j]? = some (r.str (r.getKeyAddr e))
  no_exit : ∀ num, cleanLog r num ≠ .exit
  no_crash : ∀ a, readerStep r a ≠ some .crash

/-- Place and bytes of the `dhmp_write` into the ring of node `i + 1` that a step makes. -/
def upstreamWrite (s : State) (i : ℕ) : Action → Option (ℕ × List UInt8)
  | .head .writeMate =>
    match i, (s 0).sender.writer.pc with
    | 0, .mateWriting _ _ pos rest =>
      some (pos, rest.take ((s 0).sender.writer.remote.size - pos))
    | _, _ => none
  | .nic j .write =>
    if j = i then
      match (s i).sender.nic with
      | .writing _ src passed len pos =>
        some (pos, sourceBytes (s i).receiver src passed.length
          (min len ((s i).sender.writer.remote.size - pos)))
      | _ => none
    else none
  | _ => none

/-- The keys at which the table or an uncleaned log points. -/
def Receiver.keyPointers (r : Receiver) : List Addr :=
  r.dirtyMap.collect.map (·.key) ++
    (List.range' r.cleaned (r.nextEntry - r.cleaned)).filterMap fun j =>
      (r.entries j).map r.getKeyAddr

/-- No write from upstream changes a key string that is pointed at, and `clean_log` frees
no copied key to which the table points while a later uncleaned log has the same key. -/
def KeysKept (i : ℕ) (s : State) (a : Action) : Prop :=
  (∀ pos bs, upstreamWrite s i a = some (pos, bs) → ∀ p ∈ (s (i + 1)).receiver.keyPointers,
    ((s (i + 1)).receiver.withBuff (writeBytes (s (i + 1)).receiver.ring.buff pos bs)).str p =
      (s (i + 1)).receiver.str p) ∧
  (a = .reader (i + 1) .cleanLog →
    .keyCopy (s (i + 1)).receiver.cleaned ∈ (s (i + 1)).receiver.dirtyMap.collect.map (·.key) →
    (s (i + 1)).receiver.str (.keyCopy (s (i + 1)).receiver.cleaned) ∉
      (s (i + 1)).receiver.keys.drop ((s (i + 1)).receiver.cleaned + 1))

/-! ## Counting in the table -/

/-- How a count is kept: a key with count 0 is not in the table. -/
def positive (count : ℕ) : Option ℕ := if count = 0 then none else some count

@[simp] theorem positive_zero : positive 0 = none := rfl

@[simp] theorem positive_succ (count : ℕ) : positive (count + 1) = some (count + 1) := rfl

theorem positive_of_ne {count : ℕ} (h : count ≠ 0) : positive count = some count := if_neg h

@[simp] theorem positive_isSome {count : ℕ} : (positive count).isSome = decide (count ≠ 0) := by
  unfold positive
  split_ifs with h <;> simp [h]

@[simp] theorem positive_getD {count : ℕ} : (positive count).getD default = count := by
  unfold positive
  split_ifs with h <;> simp [h]

/-- A stored pointer is found under its string. -/
theorem find_of_stored {P V : Type*} {hash : Str → ℕ → ℕ} {str : P → Str} {m : HashMap P V}
    (h : WellFormed hash str m) {p : P} (hp : p ∈ m.stored) : find hash str m (str p) ≠ none := by
  obtain ⟨i, _, e, he, rfl⟩ := hp
  rw [find, ne_eq, lookup_eq_none, not_not, h.bucket i e he]
  exact List.mem_map_of_mem he

section Counting
variable {r : Receiver} {count : Str → ℕ}

theorem countKey_spec (hw : WellFormed defaultHashCode r.str r.dirtyMap) (hr : Roomy r.dirtyMap)
    (hcount : ∀ k, find defaultHashCode r.str r.dirtyMap k = positive (count k)) (a : Addr) :
    ∃ m, countKey r a = some m ∧ WellFormed defaultHashCode r.str m ∧ Roomy m ∧
      (∀ k, find defaultHashCode r.str m k =
        positive (count k + if k = r.str a then 1 else 0)) ∧
      ∀ p ∈ m.stored, p = a ∨ p ∈ r.dirtyMap.stored := by
  have hput := fun value => defaultPut_spec defaultHashCode_lt 0 hw hr a value
  have hnew : ∀ m : HashMap Addr ℕ,
      (∀ k, find defaultHashCode r.str m k = if k = r.str a then some (count (r.str a) + 1)
        else find defaultHashCode r.str r.dirtyMap k) →
      ∀ k, find defaultHashCode r.str m k = positive (count k + if k = r.str a then 1 else 0) := by
    intro m hm k
    rw [hm, hcount]
    split_ifs with hk
    · rw [hk, positive_succ]
    · rfl
  have hstored : ∀ m : HashMap Addr ℕ, (∀ p ∈ m.stored,
      (p = a ∧ find defaultHashCode r.str r.dirtyMap (r.str a) = none) ∨
        p ∈ r.dirtyMap.stored) → ∀ p ∈ m.stored, p = a ∨ p ∈ r.dirtyMap.stored :=
    fun m hm p hp => (hm p hp).imp_left And.left
  unfold countKey
  rw [defaultExists_eq, defaultGet_eq, hcount, positive_isSome, positive_getD]
  by_cases hzero : count (r.str a) = 0
  · obtain ⟨m, hm, hw', hr', hfind, hs⟩ := hput 1
    refine ⟨m, ?_, hw', hr', hnew m (by rw [hzero]; exact hfind), hstored m hs⟩
    rw [if_neg (by simp [hzero])]
    exact hm
  · obtain ⟨m, hm, hw', hr', hfind, hs⟩ := hput (count (r.str a) + 1)
    refine ⟨m, ?_, hw', hr', hnew m hfind, hstored m hs⟩
    rw [if_pos (by simp [hzero])]
    exact hm

theorem uncountKey_spec (hw : WellFormed defaultHashCode r.str r.dirtyMap)
    (hr : Roomy r.dirtyMap)
    (hcount : ∀ k, find defaultHashCode r.str r.dirtyMap k = positive (count k)) (a : Addr)
    (hpos : count (r.str a) ≠ 0) :
    ∃ m, uncountKey r a = some m ∧ WellFormed defaultHashCode r.str m ∧ Roomy m ∧
      (∀ k, find defaultHashCode r.str m k =
        positive (count k - if k = r.str a then 1 else 0)) ∧
      ∀ p ∈ m.stored, p ∈ r.dirtyMap.stored := by
  unfold uncountKey
  simp only [defaultGet_eq, hcount, positive_getD]
  by_cases hone : count (r.str a) - 1 = 0
  · obtain ⟨p, m, hm, hw', hr', hfind, hs⟩ :=
      defaultRemove_spec defaultHashCode_lt 1 hw hr (r.str a)
    refine ⟨m, ?_, hw', hr', ?_, hs⟩
    · rw [if_pos hone]
      exact congrArg (Option.map Prod.snd) hm
    · intro k
      rw [hfind, hcount]
      split_ifs with hk
      · rw [hk, hone, positive_zero]
      · rfl
  · obtain ⟨m, hm, hw', hr', hfind, hs⟩ :=
      defaultPut_spec defaultHashCode_lt 0 hw hr a (count (r.str a) - 1)
    refine ⟨m, ?_, hw', hr', ?_, ?_⟩
    · rw [if_neg hone]
      exact hm
    · intro k
      rw [hfind, hcount]
      split_ifs with hk
      · rw [hk, positive_of_ne hone]
      · rfl
    · intro p hp
      -- an overwriting put keeps the pointer that is there
      rcases hs p hp with ⟨-, hnone⟩ | hp
      · rw [hcount, positive_of_ne hpos] at hnone
        cases hnone
      · exact hp

end Counting

/-! ## The invariant -/

/-- Where a key of one of the first `n` logs can be. -/
def KeyPlace (n : ℕ) : Addr → Prop
  | .ring _ => True
  | .keyCopy owner => owner < n
  | .valueCopy _ => False

/-- The key address of log `j`. -/
def HasKeyAddr (j : ℕ) (e : LogEntry) : Prop :=
  if e.keyIsCut then e.keyAddr = some (.keyCopy j) else ∃ pos, e.keyAddr = some (.ring pos)

structure DirtyInv (r : Receiver) : Prop where
  wellFormed : WellFormed defaultHashCode r.str r.dirtyMap
  roomy : Roomy r.dirtyMap
  count : ∀ k, find defaultHashCode r.str r.dirtyMap k =
    positive ((r.keys.drop r.cleaned).count k)
  places : ∀ p ∈ r.dirtyMap.stored, KeyPlace r.nextEntry p
  addrs : ∀ (j : ℕ) (e : LogEntry), r.cleaned ≤ j → j < r.nextEntry → r.entries j = some e →
    HasKeyAddr j e
  strings : ∀ (j : ℕ) (e : LogEntry), r.cleaned ≤ j → j < r.nextEntry → r.entries j = some e →
    r.keys[j]? = some (r.str (r.getKeyAddr e))

variable {r r' : Receiver}

theorem HasKeyAddr.exists {j : ℕ} {e : LogEntry} (h : HasKeyAddr j e) :
    ∃ p, e.keyAddr = some p ∧ KeyPlace (j + 1) p := by
  unfold HasKeyAddr at h
  split_ifs at h
  · exact ⟨_, h, Nat.lt_succ_self j⟩
  · obtain ⟨pos, hpos⟩ := h
    exact ⟨_, hpos, trivial⟩

theorem getKeyAddr_of_some {e : LogEntry} {p : Addr} (h : e.keyAddr = some p) :
    r.getKeyAddr e = p := by
  rw [Receiver.getKeyAddr, h, Option.getD_some]

theorem str_congr {p : Addr} (h : ∀ j, r'.byteAt p j = r.byteAt p j) : r'.str p = r.str p := by
  unfold Receiver.str
  rw [funext h]

/-- Key strings depend on the ring bytes and the key copies only. -/
theorem str_key_congr {n : ℕ} {p : Addr} (hp : KeyPlace n p)
    (hbuff : r'.ring.buff = r.ring.buff) (hjunk : r'.junk = r.junk)
    (hcopies : ∀ j < n, r'.keyCopies j = r.keyCopies j) : r'.str p = r.str p := by
  apply str_congr
  intro j
  cases p with
  | ring pos => simp [Receiver.byteAt, hbuff]
  | keyCopy owner => simp [Receiver.byteAt, hcopies owner hp, hjunk]
  | valueCopy owner => exact absurd hp id

theorem mem_keyPointers {p : Addr} : p ∈ r.keyPointers ↔ p ∈ r.dirtyMap.stored ∨
    ∃ (j : ℕ) (e : LogEntry), r.cleaned ≤ j ∧ j < r.nextEntry ∧ r.entries j = some e ∧
      r.getKeyAddr e = p := by
  rw [Receiver.keyPointers, List.mem_append, mem_stored, List.mem_map, List.mem_filterMap]
  refine or_congr_right ⟨?_, ?_⟩
  · rintro ⟨j, hj, hp⟩
    obtain ⟨e, he, rfl⟩ := Option.map_eq_some_iff.mp hp
    rw [List.mem_range'_1] at hj
    exact ⟨j, e, hj.1, by omega, he, rfl⟩
  · rintro ⟨j, e, hj, hlt, he, rfl⟩
    refine ⟨j, List.mem_range'_1.mpr ⟨hj, by omega⟩, ?_⟩
    rw [he, Option.map_some]

namespace DirtyInv

/-- A step that keeps the table, the entries' keys and the strings pointed at. -/
theorem frame (h : DirtyInv r) (hmap : r'.dirtyMap = r.dirtyMap) (hkeys : r'.keys = r.keys)
    (hcleaned : r'.cleaned = r.cleaned) (hnext : r'.nextEntry = r.nextEntry)
    (hentries : ∀ (j : ℕ) (e' : LogEntry), r'.entries j = some e' → ∃ e, r.entries j = some e ∧
      e'.keyAddr = e.keyAddr ∧ e'.keyIsCut = e.keyIsCut)
    (hstr : ∀ p ∈ r.keyPointers, r'.str p = r.str p) : DirtyInv r' := by
  obtain ⟨hw, hfind⟩ := h.wellFormed.congr defaultHashCode_lt fun p hp =>
    hstr p (mem_keyPointers.mpr (.inl hp))
  refine ⟨?_, ?_, ?_, ?_, ?_, ?_⟩
  · rw [hmap]
    exact hw
  · rw [hmap]
    exact h.roomy
  · intro k
    rw [hmap, hkeys, hcleaned, hfind]
    exact h.count k
  · rw [hmap, hnext]
    exact h.places
  · intro j e' hj hlt he'
    obtain ⟨e, he, haddr, hcut⟩ := hentries j e' he'
    have := h.addrs j e (hcleaned ▸ hj) (hnext ▸ hlt) he
    unfold HasKeyAddr at this ⊢
    rwa [haddr, hcut]
  · intro j e' hj hlt he'
    rw [hcleaned] at hj
    rw [hnext] at hlt
    obtain ⟨e, he, haddr, _⟩ := hentries j e' he'
    obtain ⟨p, hp, _⟩ := (h.addrs j e hj hlt he).exists
    have hkey := h.strings j e hj hlt he
    rw [getKeyAddr_of_some hp] at hkey
    rw [hkeys, hkey, getKeyAddr_of_some (haddr.trans hp)]
    rw [hstr p (mem_keyPointers.mpr
      (.inr ⟨j, e, hj, hlt, he, getKeyAddr_of_some hp⟩))]

/-- A place that is pointed at is that of a key read so far. -/
theorem keyPlace (h : DirtyInv r) {p : Addr} (hp : p ∈ r.keyPointers) :
    KeyPlace r.nextEntry p := by
  rcases mem_keyPointers.mp hp with hp | ⟨j, e, hj, hlt, he, rfl⟩
  · exact h.places p hp
  · obtain ⟨p, hp, hplace⟩ := (h.addrs j e hj hlt he).exists
    rw [getKeyAddr_of_some hp]
    cases p with
    | ring pos => trivial
    | keyCopy owner => exact lt_of_lt_of_le hplace hlt
    | valueCopy owner => exact hplace

/-- The key of an uncleaned log has a positive count. -/
theorem count_ne_zero (h : DirtyInv r) {j : ℕ} {e : LogEntry} (hj : r.cleaned ≤ j)
    (hlt : j < r.nextEntry) (he : r.entries j = some e) :
    (r.keys.drop r.cleaned).count (r.str (r.getKeyAddr e)) ≠ 0 := by
  have hkey := h.strings j e hj hlt he
  rw [← Nat.pos_iff_ne_zero, List.count_pos_iff]
  apply List.mem_of_getElem? (i := j - r.cleaned)
  rw [List.getElem?_drop, Nat.add_sub_cancel' hj, hkey]

theorem judgeKeyDirty_iff (h : DirtyInv r) (k : Str) :
    r.judgeKeyDirty k = true ↔ k ∈ r.keys.drop r.cleaned := by
  rw [Receiver.judgeKeyDirty, defaultExists_eq, h.count, positive_isSome, decide_eq_true_eq,
    ← Nat.pos_iff_ne_zero, List.count_pos_iff]

/-- The next log is read and counted. -/
theorem key (h : DirtyInv r) (hqueue : QueueInv r) (pos : ℕ) :
    ∃ m, countKey (allocEntry r pos)
        ((allocEntry r pos).getKeyAddr (readLogEntry r.ring pos r.nextEntry)) = some m ∧
      ∀ (dirty valuePeeding : List ℕ) (phase : Phase), DirtyInv { allocEntry r pos with
        dirtyMap := m
        dirty := dirty
        valuePeeding := valuePeeding
        phase := phase
        keys := r.keys ++ [(allocEntry r pos).str
          ((allocEntry r pos).getKeyAddr (readLogEntry r.ring pos r.nextEntry))] } := by
  have haddr : HasKeyAddr r.nextEntry (readLogEntry r.ring pos r.nextEntry) := by
    unfold HasKeyAddr readLogEntry
    dsimp only
    split_ifs with hcut
    · rfl
    · exact ⟨_, rfl⟩
  obtain ⟨a, ha, hplace⟩ := haddr.exists
  have hstr : ∀ p ∈ r.keyPointers, (allocEntry r pos).str p = r.str p := fun p hp =>
    str_key_congr (h.keyPlace hp) rfl rfl fun j hj =>
      allocEntry_keyCopies_of_ne r pos (by omega)
  have hle := hqueue.cleaned_le
  have ho := hqueue.obtained_le
  have hv := hqueue.received_le
  rw [getKeyAddr_of_some ha]
  obtain ⟨hw, hfind⟩ := h.wellFormed.congr defaultHashCode_lt fun p hp =>
    hstr p (mem_keyPointers.mpr (.inl hp))
  obtain ⟨m, hm, hw', hr', hcount, hstored⟩ := countKey_spec (r := allocEntry r pos) hw h.roomy
    (fun k => (hfind k).trans (h.count k)) a
  refine ⟨m, hm, fun dirty valuePeeding phase => ⟨hw', hr', ?_, ?_, ?_, ?_⟩⟩
  · intro k
    refine (hcount k).trans (congrArg positive ?_)
    show _ = ((r.keys ++ [(allocEntry r pos).str a]).drop r.cleaned).count k
    rw [List.drop_append_of_le_length (by rw [hqueue.keys_length]; omega), List.count_append,
      List.count_singleton]
    simp only [beq_iff_eq, @eq_comm _ k]
  · intro p hp
    show KeyPlace (r.nextEntry + 1) p
    rcases hstored p hp with rfl | hp
    · exact hplace
    · have := h.places p hp
      cases p with
      | ring pos => trivial
      | keyCopy owner => exact Nat.lt_succ_of_lt this
      | valueCopy owner => exact this
  · intro j e hj hlt he
    have hlt' : j < r.nextEntry + 1 := hlt
    by_cases hjn : j = r.nextEntry
    · subst hjn
      obtain rfl := Option.some.inj ((allocEntry_entries_self r pos).symm.trans he)
      exact haddr
    · exact h.addrs j e hj (by omega) ((allocEntry_entries_of_ne r pos hjn).symm.trans he)
  · intro j e hj hlt he
    have hlt' : j < r.nextEntry + 1 := hlt
    show (r.keys ++ [_])[j]? = some ((allocEntry r pos).str ((allocEntry r pos).getKeyAddr e))
    by_cases hjn : j = r.nextEntry
    · subst hjn
      obtain rfl := Option.some.inj ((allocEntry_entries_self r pos).symm.trans he)
      rw [getKeyAddr_of_some ha, ← hqueue.keys_length, List.getElem?_concat_length]
    · have he' : r.entries j = some e := (allocEntry_entries_of_ne r pos hjn).symm.trans he
      obtain ⟨p, hp, _⟩ := (h.addrs j e hj (by omega) he').exists
      rw [List.getElem?_append_left (by rw [hqueue.keys_length]; omega),
        h.strings j e hj (by omega) he', getKeyAddr_of_some hp, getKeyAddr_of_some hp,
        hstr p (mem_keyPointers.mpr
          (.inr ⟨j, e, hj, by omega, he', getKeyAddr_of_some hp⟩))]

/-- The oldest dirty log is discounted and freed. -/
theorem clean (h : DirtyInv r) {e : LogEntry}
    (hentry : r.entries r.cleaned = some e) (hlt : r.cleaned < r.nextEntry)
    (hkept : .keyCopy r.cleaned ∈ r.dirtyMap.collect.map (·.key) →
      r.str (.keyCopy r.cleaned) ∉ r.keys.drop (r.cleaned + 1)) :
    ∃ m, uncountKey r (r.getKeyAddr e) = some m ∧
      ∀ (dirty : List ℕ) (phase : Phase), DirtyInv { freeLog r r.cleaned e with
        dirtyMap := m
        dirty := dirty
        phase := phase
        cleaned := r.cleaned + 1 } := by
  obtain ⟨m, hm, hw, hr, hcount, hstored⟩ := uncountKey_spec h.wellFormed h.roomy h.count
    (r.getKeyAddr e) (h.count_ne_zero le_rfl hlt hentry)
  have hkey := h.strings _ e le_rfl hlt hentry
  have hdrop : r.keys.drop r.cleaned =
      r.str (r.getKeyAddr e) :: r.keys.drop (r.cleaned + 1) := by
    obtain ⟨hbound, hget⟩ := List.getElem?_eq_some_iff.mp hkey
    rw [List.drop_eq_getElem_cons hbound, hget]
  have hcount' : ∀ k, find defaultHashCode r.str m k =
      positive ((r.keys.drop (r.cleaned + 1)).count k) := by
    intro k
    rw [hcount, hdrop, List.count_cons]
    simp only [beq_iff_eq, @eq_comm _ k]
    rw [Nat.add_sub_cancel]
  -- the copy that is freed is not in the table any more
  have hgone : e.keyIsCut = true → .keyCopy r.cleaned ∉ m.stored := by
    intro hcut hp
    have hfound := find_of_stored hw hp
    rw [hcount'] at hfound
    apply hfound
    have hmem := List.mem_map.mpr (mem_stored.mp (hstored _ hp))
    rw [List.count_eq_zero.mpr (hkept hmem), positive_zero]
  have hstr : ∀ p, KeyPlace r.nextEntry p → (e.keyIsCut = true → p ≠ .keyCopy r.cleaned) →
      (freeLog r r.cleaned e).str p = r.str p := by
    intro p hplace hne
    apply str_congr
    intro j
    cases p with
    | ring pos => rfl
    | keyCopy owner =>
      have howner : e.keyIsCut = true → owner ≠ r.cleaned := fun hcut heq =>
        hne hcut (by rw [heq])
      simp only [Receiver.byteAt, freeLog_keyCopies_of_ne r howner]
      rfl
    | valueCopy owner => exact absurd hplace id
  refine ⟨m, hm, fun dirty phase => ?_⟩
  have hsame : ∀ p ∈ m.stored, (freeLog r r.cleaned e).str p = r.str p := by
    intro p hp
    refine hstr p (h.places p (hstored p hp)) ?_
    rintro hcut rfl
    exact hgone hcut hp
  obtain ⟨hw', hfind⟩ := hw.congr defaultHashCode_lt hsame
  have hold : ∀ (j : ℕ) (e' : LogEntry), r.cleaned + 1 ≤ j →
      (freeLog r r.cleaned e).entries j = some e' → r.entries j = some e' :=
    fun j e' hj he' => (freeLog_entries_of_ne r e (by omega)).symm.trans he'
  refine ⟨hw', hr, fun k => (hfind k).trans (hcount' k), fun p hp => h.places p (hstored p hp),
    ?_, ?_⟩
  · intro j e' hj hjlt he'
    exact h.addrs j e' ((Nat.le_succ _).trans hj) hjlt (hold j e' hj he')
  · intro j e' hj hjlt he'
    have hj' : r.cleaned + 1 ≤ j := hj
    have he := hold j e' hj he'
    obtain ⟨p, hp, hplace⟩ := (h.addrs j e' (by omega) hjlt he).exists
    have hne : p ≠ .keyCopy r.cleaned := by
      rintro rfl
      have haddr := h.addrs j e' (by omega) hjlt he
      unfold HasKeyAddr at haddr
      rw [hp] at haddr
      split_ifs at haddr
      · simp only [Option.some.injEq, Addr.keyCopy.injEq] at haddr
        omega
      · obtain ⟨pos, hpos⟩ := haddr
        cases hpos
    have hkey' := h.strings j e' (by omega) hjlt he
    rw [getKeyAddr_of_some hp] at hkey'
    show r.keys[j]? = some ((freeLog r r.cleaned e).str ((freeLog r r.cleaned e).getKeyAddr e'))
    rw [getKeyAddr_of_some hp, hkey', hstr p ?_ fun _ => hne]
    exact h.keyPlace (mem_keyPointers.mpr
      (.inr ⟨j, e', by omega, hjlt, he, getKeyAddr_of_some hp⟩))

/-! ### Steps -/

/-- A write from upstream that leaves the strings pointed at alone. -/
theorem write (h : DirtyInv r) (b : LocalRingbuff)
    (hstr : ∀ p ∈ r.keyPointers, (r.withBuff b.buff).str p = r.str p) :
    DirtyInv { r with ring := b } :=
  h.frame rfl rfl rfl rfl (fun _ e' he' => ⟨e', he', rfl, rfl⟩) hstr

/-- Every move of the reader keeps the invariant. -/
theorem move (h : DirtyInv r) (hqueue : QueueInv r) {handed : Option ℕ}
    (hm : ReaderMove r r' handed)
    (hkept : (∃ num, r.phase = .sent num) →
      .keyCopy r.cleaned ∈ r.dirtyMap.collect.map (·.key) →
      r.str (.keyCopy r.cleaned) ∉ r.keys.drop (r.cleaned + 1)) : DirtyInv r' := by
  cases hm with
  | stay hpos hphase =>
    exact h.frame rfl rfl rfl rfl (fun _ e' he' => ⟨e', he', rfl, rfl⟩) fun _ _ => rfl
  | @key limits readNum pos dirtyMap hphase hcount hmap hroom =>
    obtain ⟨m, hm, hinv⟩ := h.key hqueue pos
    obtain rfl := Option.some.inj (hm.symm.trans hmap)
    exact hinv _ _ _
  | @value limits readNum e rest hphase hlist hentry htag =>
    refine h.frame rfl rfl rfl rfl ?_ ?_
    · intro j e' he'
      by_cases hj : j = r.received.length
      · subst hj
        obtain rfl := Option.some.inj ((setValue_entries_self ..).symm.trans he')
        exact ⟨e, hentry, rfl, rfl⟩
      · exact ⟨e', (setValue_entries_of_ne r e hj).symm.trans he', rfl, rfl⟩
    · exact fun p hp => str_key_congr (h.keyPlace hp) rfl rfl fun _ _ => rfl
  | send hphase hlist hentry =>
    exact h.frame rfl rfl rfl rfl (fun _ e' he' => ⟨e', he', rfl, rfl⟩) fun _ _ => rfl
  | @clean num e rest dirtyMap hphase hlist hentry hdirty hmap =>
    obtain ⟨-, hpos, -⟩ := range'_eq_cons (hqueue.dirty_eq.symm.trans hlist)
    obtain ⟨m, hm, hinv⟩ := h.clean hentry (by omega) (hkept ⟨num, hphase⟩)
    obtain rfl := Option.some.inj (hm.symm.trans hmap)
    exact hinv _ _

/-- `clean_log` finds the key of the oldest dirty log and can discount it. -/
theorem clean_runs (h : DirtyInv r) (hqueue : QueueInv r) {id : ℕ} {rest : List ℕ}
    (hlist : r.dirty = id :: rest) :
    ∃ e, r.entries id = some e ∧ r.judgeKeyDirty (r.str (r.getKeyAddr e)) = true ∧
      ∃ m, uncountKey r (r.getKeyAddr e) = some m := by
  obtain ⟨rfl, hpos, -⟩ := range'_eq_cons (hqueue.dirty_eq.symm.trans hlist)
  obtain ⟨e, he⟩ := hqueue.alive r.cleaned le_rfl (by omega)
  have hcount := h.count_ne_zero le_rfl (by omega) he
  obtain ⟨m, hm, _⟩ := uncountKey_spec h.wellFormed h.roomy h.count (r.getKeyAddr e) hcount
  refine ⟨e, he, ?_, m, hm⟩
  rw [h.judgeKeyDirty_iff, ← List.count_pos_iff]
  omega

theorem cleanLog_next (h : DirtyInv r) (hqueue : QueueInv r) (num : ℕ) :
    ∃ r', cleanLog r num = .next r' none := by
  unfold cleanLog
  split
  · exact ⟨_, rfl⟩
  · rename_i id rest hlist
    obtain ⟨e, he, hdirty, m, hm⟩ := h.clean_runs hqueue hlist
    simp only [he, hdirty, if_true, hm]
    exact ⟨_, rfl⟩

/-- Every log in a queue has its entry, and the table never fails. -/
theorem no_crash (h : DirtyInv r) (hqueue : QueueInv r) (a : ReaderAction) :
    readerStep r a ≠ some .crash := by
  have hle := hqueue.cleaned_le
  have ho := hqueue.obtained_le
  have hv := hqueue.received_le
  intro hcrash
  cases a with
  | readLogKey limits =>
    simp only [readerStep] at hcrash
    split at hcrash <;> cases hcrash
  | readLogKeyPass =>
    simp only [readerStep] at hcrash
    split at hcrash
    · rename_i limits readNum pos _
      obtain ⟨m, hm, _⟩ := h.key hqueue pos
      rw [Option.some.injEq, readLogKeyPass] at hcrash
      split_ifs at hcrash
      simp only [hm] at hcrash
      split at hcrash <;> cases hcrash
    · cases hcrash
  | readLogValue limits =>
    simp only [readerStep] at hcrash
    split at hcrash <;> cases hcrash
  | readLogValuePass =>
    simp only [readerStep] at hcrash
    split at hcrash
    · rename_i limits readNum _
      rw [Option.some.injEq, readLogValuePass] at hcrash
      split at hcrash
      · cases hcrash
      · rename_i id rest hlist
        obtain ⟨rfl, hpos, -⟩ := range'_eq_cons (hqueue.peeding_eq.symm.trans hlist)
        obtain ⟨e, he⟩ := hqueue.alive r.received.length (by omega) (by omega)
        simp only [he] at hcrash
        split_ifs at hcrash
        split at hcrash <;> cases hcrash
    · cases hcrash
  | sendLog =>
    simp only [readerStep] at hcrash
    split at hcrash
    · rw [Option.some.injEq, sendLog] at hcrash
      split at hcrash
      · cases hcrash
      · rename_i id rest hlist
        obtain ⟨rfl, hpos, -⟩ := range'_eq_cons (hqueue.executing_eq.symm.trans hlist)
        obtain ⟨e, he⟩ := hqueue.alive r.obtained.length (by omega) (by omega)
        simp only [he] at hcrash
        cases hcrash
    · cases hcrash
  | cleanLog =>
    simp only [readerStep] at hcrash
    split at hcrash
    · rename_i num _
      obtain ⟨r', hr'⟩ := h.cleanLog_next hqueue num
      rw [hr'] at hcrash
      cases hcrash
    · cases hcrash

theorem dirtyExact (h : DirtyInv r) (hqueue : QueueInv r) : DirtyExact r where
  judge_iff := h.judgeKeyDirty_iff
  count_eq := fun k => by rw [defaultGet_eq, h.count, positive_getD]
  key_eq := h.strings
  no_exit := fun num hexit => by
    obtain ⟨r', hr'⟩ := h.cleanLog_next hqueue num
    rw [hr'] at hexit
    cases hexit
  no_crash := h.no_crash hqueue

theorem fresh (size : ℕ) (buff : ℕ → UInt8) (junk : Addr → ℕ → UInt8) :
    DirtyInv (freshNode size buff junk).receiver := by
  let r := (freshNode size buff junk).receiver
  obtain ⟨hw, hr, hfind⟩ : WellFormed defaultHashCode r.str r.dirtyMap ∧ Roomy r.dirtyMap ∧
      ∀ k, find defaultHashCode r.str r.dirtyMap k = none :=
    createHashMap_spec (by omega) (by omega)
  refine ⟨hw, hr, fun k => (hfind k).trans ?_, ?_, ?_, ?_⟩
  · simp [freshNode]
  · intro p hp
    exact absurd (hfind _) (find_of_stored hw hp)
  · exact fun j _ _ hlt => absurd hlt (Nat.not_lt_zero j)
  · exact fun j _ _ hlt => absurd hlt (Nat.not_lt_zero j)

end DirtyInv

/-! ## Runs -/

/-- The ring bytes after a step of the head. -/
theorem head_buff {s : State} {a : WriterAction} {b b' : LocalRingbuff} {w : Writer}
    (h : writerStep (s 0).sender.writer b a = some (w, b')) :
    b'.buff = b.buff ∨ ∃ pos bs, upstreamWrite s 0 (.head a) = some (pos, bs) ∧
      b'.buff = writeBytes b.buff pos bs := by
  cases a <;> cases hpc : (s 0).sender.writer.pc <;>
    simp only [writerStep, hpc, reduceCtorEq] at h
  case recheck.checked readOk log =>
    split_ifs at h <;> cases h <;> exact .inl rfl
  case writeMate.mateWriting log logPos pos rest =>
    refine .inr ⟨pos, rest.take ((s 0).sender.writer.remote.size - pos), ?_, ?_⟩
    · simp only [upstreamWrite, hpc]
    · split_ifs at h <;> cases h
      · rfl
      · rw [List.take_of_length_le (by omega)]
  all_goals
    cases h
    exact .inl rfl

/-- The ring bytes after a step of `NIC_thread`. -/
theorem nic_buff {s : State} {i : ℕ} {cls : NodeClass} {a : NicAction} {sd : Sender}
    {buff buff' : ℕ → UInt8}
    (h : nicStep cls (s i).receiver (s i).sender buff a = some (sd, buff')) :
    buff' = buff ∨ ∃ pos bs, upstreamWrite s i (.nic i a) = some (pos, bs) ∧
      buff' = writeBytes buff pos bs := by
  cases a with
  | take =>
    simp only [nicStep] at h
    split at h <;> cases h
    exact .inl rfl
  | start =>
    simp only [nicStep] at h
    split at h
    · split at h <;> cases h
      exact .inl rfl
    · cases h
  | write =>
    cases hnic : (s i).sender.nic with
    | writing id src passed len pos =>
      simp only [nicStep, hnic] at h
      refine .inr ⟨pos, sourceBytes (s i).receiver src passed.length
        (min len ((s i).sender.writer.remote.size - pos)), ?_, ?_⟩
      · simp only [upstreamWrite, hnic, if_true]
      · split_ifs at h <;> cases h
        · rw [Nat.min_eq_right (by omega)]
        · rw [Nat.min_eq_left (by omega)]
    | _ => simp [nicStep, hnic] at h

theorem DirtyInv.step {n i : ℕ} {s t : State} {a : Action} (hqueue : QueueInv (s (i + 1)).receiver)
    (h : DirtyInv (s (i + 1)).receiver) (hkept : KeysKept i s a)
    (ht : Chain.step n s a = some t) : DirtyInv (t (i + 1)).receiver := by
  obtain ⟨hwrite, hclean⟩ := hkept
  cases linkStep_of_step ht i with
  | @head a w b hi hstep hs hr =>
    subst hi
    rw [hr]
    refine h.write b fun p hp => ?_
    rcases head_buff hstep with hbuff | ⟨pos, bs, hw, hbuff⟩
    · rw [hbuff]
      rfl
    · rw [hbuff]
      exact hwrite pos bs hw p hp
  | enqueue hi hstep hr => rwa [hr]
  | @nic a buff hn hstep hr =>
    rw [hr]
    refine h.write _ fun p hp => ?_
    rcases nic_buff hstep with hbuff | ⟨pos, bs, hw, hbuff⟩
    · rw [hbuff]
      rfl
    · rw [hbuff]
      exact hwrite pos bs hw p hp
  | @read a handed hstep hs =>
    refine h.move hqueue (hqueue.move hstep) ?_
    rintro ⟨num, hphase⟩
    exact hclean (by rw [eq_cleanLog_of_sent hphase hstep])
  | hand hi hstep hs hr => rwa [hr]
  | other hs hr => rwa [hr]

/-- The dirty table of every receiver is exact while the keys it points at are kept. -/
theorem dirtyExact_of_keysKept {n size i : ℕ} {s : State}
    (h : Reach (chainSystem n size) (KeysKept i) s) : DirtyExact (s (i + 1)).receiver := by
  have hqueue := queueInv_of_reach h i
  refine DirtyInv.dirtyExact ?_ hqueue
  refine h.invariant_of (Q := fun s => QueueInv (s (i + 1)).receiver)
    (P := fun s => DirtyInv (s (i + 1)).receiver) (fun s hs => queueInv_of_reach hs i) ?_ ?_
  · rintro s ⟨buff, junk, rfl⟩
    exact DirtyInv.fresh _ _ _
  · intro s a t hq hs hc ht
    exact hs.step hq hc ht

def keysKept (i : ℕ) (s : State) (a : Action) : Bool :=
  (match upstreamWrite s i a with
    | none => true
    | some (pos, bs) => (s (i + 1)).receiver.keyPointers.all fun p =>
      ((s (i + 1)).receiver.withBuff (writeBytes (s (i + 1)).receiver.ring.buff pos bs)).str p ==
        (s (i + 1)).receiver.str p) &&
    !((s (i + 1)).receiver.dirtyMap.collect.map (·.key)).contains
      (.keyCopy (s (i + 1)).receiver.cleaned)

theorem keysKept_sound {i : ℕ} {s : State} {a : Action} (h : keysKept i s a = true) :
    KeysKept i s a := by
  unfold keysKept at h
  rw [Bool.and_eq_true] at h
  refine ⟨?_, ?_⟩
  · intro pos bs hw p hp
    have hall := h.1
    simp only [hw, List.all_eq_true, beq_iff_eq] at hall
    exact hall p hp
  · intro _ hmem
    have hnot := h.2
    rw [List.contains_iff_mem.mpr hmem] at hnot
    cases hnot

/-- Two logs of one key are read and the first is cleaned. -/
def sharedKeyRun : List Action :=
  writeLog shortLog 1 ++ forwardLog 0 1 ++ writeLog shortLog 1 ++ forwardLog 0 1 ++
    readLog 1 3 ++ [.reader 1 .cleanLog]

theorem dirtyExact_of_keysKept_sharedKeyRun :
    ∃ s, run (chainSystem 2 128) (keysKept 0) (freshChain 128) sharedKeyRun = some s ∧
      DirtyExact (s 1).receiver := by
  have hsome : (run (chainSystem 2 128) (keysKept 0) (freshChain 128)
      sharedKeyRun).isSome = true := by decide +kernel
  obtain ⟨s, hs⟩ := Option.isSome_iff_exists.mp hsome
  have hreach : Reach (chainSystem 2 128) (KeysKept 0) s :=
    reach_of_run (fun _ _ => keysKept_sound) reach_freshChain hs
  exact ⟨s, hs, dirtyExact_of_keysKept hreach⟩

/-- A log of 90 bytes whose key ends where the key of the first log was. -/
def coveringLog : HeadLog := .plain ⟨List.replicate 54 120, by decide⟩ letterV

/-- The second log is not cleaned, but its key is not dirty any more. -/
theorem not_dirtyExact_coveringLog :
    ∃ s, Reach (chainSystem 2 128) FreshTags s ∧ ¬ DirtyExact (s 1).receiver := by
  have hsome : ((run (chainSystem 2 128) freshTags (freshChain 128)
      (sharedKeyRun ++ writeLog coveringLog 2)).any fun s =>
        decide ([107] ∈ (s 1).receiver.keys.drop (s 1).receiver.cleaned ∧
          (s 1).receiver.judgeKeyDirty [107] = false)) = true := by
    decide +kernel
  obtain ⟨s, -, hreach, hs⟩ :=
    reach_of_run_any (fun _ _ => freshTags_sound) reach_freshChain hsome
  obtain ⟨hmem, hclean⟩ := of_decide_eq_true hs
  refine ⟨s, hreach, ?_⟩
  intro hexact
  have hdirty := (hexact.judge_iff [107]).mpr hmem
  rw [hclean] at hdirty
  cases hdirty

end RdmaMiddleware.Chain
