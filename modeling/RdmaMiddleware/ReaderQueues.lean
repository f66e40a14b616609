import RdmaMiddleware.Chain

/-!
# What a step of the chain changes, and the reader's queues

`LinkStep` lists what a step can do to the sender of one node and the receiver of the
next, `ReaderMove` what a step of `reader_thread` can do to its receiver. Later
invariants are shown against these two lists. `QueueInv` says that each of the three
queues of a receiver is a run of consecutive log numbers.
-/
namespace RdmaMiddleware.Chain
open CInt CircularMemory LogBuffer MidHashmap UnlockQueue TransitionSystem

/-! ## Steps seen from one link -/

/-- The effect of a step on the sender of node `i` and the receiver of node `i + 1`. -/
inductive LinkStep (n : ℕ) (s t : State) (i : ℕ) : Action → Prop
  | head {a : WriterAction} {w : Writer} {b : LocalRingbuff} (hi : i = 0)
      (hstep : writerStep (s i).sender.writer (s (i + 1)).receiver.ring a = some (w, b))
      (hs : (t i).sender = { (s i).sender with writer := w })
      (hr : (t (i + 1)).receiver = { (s (i + 1)).receiver with ring := b }) :
      LinkStep n s t i (.head a)
  | enqueue (hi : i = 0) (hstep : enqueue (s i).sender = some (t i).sender)
      (hr : (t (i + 1)).receiver = (s (i + 1)).receiver) : LinkStep n s t i .enqueue
  | nic {a : NicAction} {buff : ℕ → UInt8} (hn : i + 1 < n)
      (hstep : nicStep (nodeClass n i) (s i).receiver (s i).sender
        (s (i + 1)).receiver.ring.buff a = some ((t i).sender, buff))
      (hr : (t (i + 1)).receiver = (s (i + 1)).receiver.withBuff buff) :
      LinkStep n s t i (.nic i a)
  | read {a : ReaderAction} {handed : Option ℕ}
      (hstep : readerStep (s (i + 1)).receiver a = some (.next (t (i + 1)).receiver handed))
      (hs : (t i).sender = (s i).sender) : LinkStep n s t i (.reader (i + 1) a)
  | hand {a : ReaderAction} {r : Receiver} {id : ℕ} (hi : i ≠ 0)
      (hstep : readerStep (s i).receiver a = some (.next r (some id)))
      (hs : (t i).sender = handOver (s i).sender id)
      (hr : (t (i + 1)).receiver = (s (i + 1)).receiver) : LinkStep n s t i (.reader i a)
  | other {a : Action} (hs : (t i).sender = (s i).sender)
      (hr : (t (i + 1)).receiver = (s (i + 1)).receiver) : LinkStep n s t i a

/-- A new node `j` with the sender of the old one changes no sender. -/
theorem sender_update (s : State) {nd : Node} {j : ℕ} (h : nd.sender = (s j).sender) (i : ℕ) :
    (Function.update s j nd i).sender = (s i).sender := by
  by_cases hij : i = j
  · subst hij
    rw [Function.update_self, h]
  · rw [Function.update_of_ne hij]

theorem receiver_update (s : State) {nd : Node} {j : ℕ} (h : nd.receiver = (s j).receiver)
    (i : ℕ) : (Function.update s j nd i).receiver = (s i).receiver := by
  by_cases hij : i = j
  · subst hij
    rw [Function.update_self, h]
  · rw [Function.update_of_ne hij]

theorem linkStep_of_step {n : ℕ} {s t : State} {a : Action} (h : step n s a = some t) (i : ℕ) :
    LinkStep n s t i a := by
  cases a with
  | head a =>
    simp only [step] at h
    split_ifs at h
    cases hw : writerStep (s 0).sender.writer (s 1).receiver.ring a with
    | none => simp [hw] at h
    | some p =>
      simp only [hw, Option.some.injEq] at h
      subst h
      by_cases hi : i = 0
      · subst hi
        exact .head rfl hw (by simp) (by simp)
      · refine .other ((sender_update _ (by simp) i).trans ?_) (by simp [hi])
        rw [Function.update_of_ne hi]
  | enqueue =>
    simp only [step] at h
    split_ifs at h
    cases he : Chain.enqueue (s 0).sender with
    | none => simp [he] at h
    | some sd =>
      simp only [he, Option.some.injEq] at h
      subst h
      by_cases hi : i = 0
      · subst hi
        exact .enqueue rfl (by simp [he]) (by simp)
      · exact .other (by simp [hi]) (by simp)
  | nic j a =>
    simp only [step] at h
    split_ifs at h with hguard
    cases hn : nicStep (nodeClass n j) (s j).receiver (s j).sender
        (s (j + 1)).receiver.ring.buff a with
    | none => simp [hn] at h
    | some p =>
      obtain ⟨sd, buff⟩ := p
      simp only [hn, Option.some.injEq] at h
      subst h
      by_cases hi : i = j
      · subst hi
        exact .nic (by omega) (show _ = some (_, buff) by simp [hn]) (by simp)
      · refine .other ?_ ?_
        · refine (sender_update _ (by simp) i).trans ?_
          rw [Function.update_of_ne hi]
        · rw [Function.update_of_ne (by omega)]
          exact receiver_update s (by simp) (i + 1)
  | reader j a =>
    simp only [step] at h
    by_cases hguard : (s j).exited = true ∨ j = 0 ∨ n ≤ j
    · rw [if_pos hguard] at h
      cases h
    rw [if_neg hguard] at h
    cases hr : readerStep (s j).receiver a with
    | none => simp [hr] at h
    | some o =>
      cases o with
      | crash => simp [hr] at h
      | exit =>
        simp only [hr, Option.some.injEq] at h
        subst h
        exact .other (sender_update s (by simp) i) (receiver_update s (by simp) (i + 1))
      | next r handed =>
        simp only [hr, Option.some.injEq] at h
        subst h
        by_cases hi : i + 1 = j
        · subst hi
          exact .read (by simpa using hr) (by simp)
        by_cases hij : i = j
        · subst hij
          cases handed with
          | none => exact .other (by simp) (by simp)
          | some id =>
            by_cases htail : nodeClass n i = .TAIL
            · exact .other (by simp [htail]) (by simp)
            · exact .hand (by omega) hr (by simp [htail]) (by simp)
        · exact .other (by simp [hij]) (by simp [hi])

/-! ## Moves of the reader -/

/-- Where `read_log_key` goes on, or will start. -/
def Receiver.scanPos (r : Receiver) : ℕ :=
  match r.phase with
  | .keys _ _ pos => pos
  | _ => r.ring.rdKeyPointer

theorem Receiver.scanPos_eq {r : Receiver}
    (h : ∀ limits readNum pos, r.phase ≠ .keys limits readNum pos) :
    r.scanPos = r.ring.rdKeyPointer := by
  unfold scanPos
  cases hphase : r.phase with
  | keys limits readNum pos => exact absurd hphase (h limits readNum pos)
  | _ => rfl

/-- What the phase says about the logs moved, taken and cleaned. -/
def PhaseInv (phase : Phase) (moved taken cleaned : ℕ) : Prop :=
  match phase with
  | .parse | .keys _ _ _ | .keysRead => taken = cleaned ∧ moved = cleaned
  | .value _ num => taken = cleaned ∧ moved = cleaned + num
  | .exec num => taken = cleaned ∧ moved = cleaned + num ∧ 0 < num
  | .sent num => taken = cleaned + 1 ∧ moved = cleaned + num ∧ 0 < num

/-- The queues hold consecutive logs, and the entry of every uncleaned log exists. -/
structure QueueInv (r : Receiver) : Prop where
  cleaned_le : r.cleaned ≤ r.obtained.length
  obtained_le : r.obtained.length ≤ r.received.length
  received_le : r.received.length ≤ r.nextEntry
  keys_length : r.keys.length = r.nextEntry
  dirty_eq : r.dirty = List.range' r.cleaned (r.nextEntry - r.cleaned)
  peeding_eq : r.valuePeeding = List.range' r.received.length (r.nextEntry - r.received.length)
  executing_eq : r.executing =
    List.range' r.obtained.length (r.received.length - r.obtained.length)
  alive : ∀ j, r.cleaned ≤ j → j < r.nextEntry → ∃ e, r.entries j = some e
  phase_inv : PhaseInv r.phase r.received.length r.obtained.length r.cleaned
  room : r.nextEntry - r.cleaned ≤ QUEUE_SIZE - 1

/-- What one step of `reader_thread` does. -/
inductive ReaderMove (r : Receiver) : Receiver → Option ℕ → Prop
  /-- Only the place and the key pointer change. -/
  | stay {phase : Phase} {p : ℕ}
      (hpos : ({ r with ring := { r.ring with rdKeyPointer := p }, phase := phase } :
        Receiver).scanPos = r.scanPos)
      (hphase : PhaseInv phase r.received.length r.obtained.length r.cleaned) :
      ReaderMove r { r with ring := { r.ring with rdKeyPointer := p }, phase := phase } none
  /-- The next log is read, counted and put on both queues. -/
  | key {limits readNum pos : ℕ} {dirtyMap : HashMap Addr ℕ}
      (hphase : r.phase = .keys limits readNum pos)
      (hcount : sizeofLogMateData ≤ r.ring.countSize pos)
      (hmap : countKey (allocEntry r pos)
        ((allocEntry r pos).getKeyAddr (readLogEntry r.ring pos r.nextEntry)) = some dirtyMap)
      (hroom : r.nextEntry - r.cleaned < QUEUE_SIZE - 1) :
      ReaderMove r { allocEntry r pos with
        dirtyMap := dirtyMap
        dirty := r.dirty ++ [r.nextEntry]
        valuePeeding := r.valuePeeding ++ [r.nextEntry]
        phase := .keys limits (readNum + 1)
          (ringPos r.ring pos (readLogEntry r.ring pos r.nextEntry).mateData.nextOffset)
        keys := r.keys ++ [(allocEntry r pos).str
          ((allocEntry r pos).getKeyAddr (readLogEntry r.ring pos r.nextEntry))] } none
  /-- The oldest log that waits for its value is moved to `executing_queue`. -/
  | value {limits readNum : ℕ} {e : LogEntry} {rest : List ℕ}
      (hphase : r.phase = .value limits readNum)
      (hqueue : r.valuePeeding = r.received.length :: rest)
      (hentry : r.entries r.received.length = some e)
      (htag : r.ring.buff (ringPos r.ring e.logPos e.mateData.valueTagOffset) = 1) :
      ReaderMove r { (setValue r r.received.length e).2 with
        executing := r.executing ++ [r.received.length]
        valuePeeding := rest
        phase := .value limits (readNum + 1)
        received := r.received ++ [(setValue r r.received.length e).2.valueBytes
          (setValue r r.received.length e).1] } none
  /-- The oldest log of `executing_queue` is taken and handed over. -/
  | send {num : ℕ} {e : LogEntry} {rest : List ℕ} (hphase : r.phase = .exec num)
      (hqueue : r.executing = r.obtained.length :: rest)
      (hentry : r.entries r.obtained.length = some e) :
      ReaderMove r { r with
        executing := rest
        phase := .sent num
        obtained := r.obtained ++ [(r.keyBytes e, r.valueBytes e)] } (some r.obtained.length)
  /-- The oldest dirty log is discounted and freed. -/
  | clean {num : ℕ} {e : LogEntry} {rest : List ℕ} {dirtyMap : HashMap Addr ℕ}
      (hphase : r.phase = .sent num) (hqueue : r.dirty = r.cleaned :: rest)
      (hentry : r.entries r.cleaned = some e)
      (hdirty : r.judgeKeyDirty (r.str (r.getKeyAddr e)) = true)
      (hmap : uncountKey r (r.getKeyAddr e) = some dirtyMap) :
      ReaderMove r { freeLog r r.cleaned e with
        dirtyMap := dirtyMap
        dirty := rest
        phase := afterRead (num - 1)
        cleaned := r.cleaned + 1 } none

theorem phaseInv_afterRead {num cleaned : ℕ} :
    PhaseInv (afterRead num) (cleaned + num) cleaned cleaned := by
  unfold afterRead
  split_ifs with h
  · subst h
    exact ⟨rfl, rfl⟩
  · exact ⟨rfl, rfl, by omega⟩

/-- The next number joins a run of consecutive numbers. -/
theorem range'_append_next {a b : ℕ} (h : a ≤ b) :
    List.range' a (b - a) ++ [b] = List.range' a (b + 1 - a) := by
  rw [Nat.sub_add_comm h, List.range'_concat, Nat.one_mul, Nat.add_sub_cancel' h]

theorem range'_eq_cons {s k id : ℕ} {rest : List ℕ} (h : List.range' s k = id :: rest) :
    id = s ∧ 0 < k ∧ rest = List.range' (s + 1) (k - 1) := by
  cases k with
  | zero => simp at h
  | succ k =>
    rw [List.range'_succ, List.cons.injEq] at h
    exact ⟨h.1.symm, by omega, h.2.symm⟩

variable {r r' : Receiver} {handed : Option ℕ}

theorem eq_cleanLog_of_sent {num : ℕ} {a : ReaderAction} {o : Outcome}
    (hphase : r.phase = .sent num) (h : readerStep r a = some o) : a = .cleanLog := by
  cases a <;> simp [readerStep, hphase] at h ⊢

namespace QueueInv

theorem readLogKeyPass (h : QueueInv r) {limits readNum pos : ℕ}
    (hphase : r.phase = .keys limits readNum pos)
    (ht : readLogKeyPass r limits readNum pos = .next r' handed) : ReaderMove r r' handed := by
  obtain ⟨htaken, hmoved⟩ : PhaseInv (.keys limits readNum pos) _ _ _ := hphase ▸ h.phase_inv
  unfold Chain.readLogKeyPass at ht
  split_ifs at ht with hstop
  · cases ht
    exact .stay (by simp [Receiver.scanPos, hphase]) ⟨htaken, hmoved⟩
  · push Not at hstop
    have hsame : r.dirty = r.valuePeeding := by rw [h.dirty_eq, h.peeding_eq, hmoved]
    simp only at ht
    split at ht
    · cases ht
    · rename_i dirtyMap hmap
      split at ht
      · cases ht
      · rename_i valuePeeding hput
        unfold boundedPut at hput
        split_ifs at hput with hfull
        cases hput
        cases ht
        have hlen : r.valuePeeding.length = r.nextEntry - r.cleaned := by
          rw [← hsame, h.dirty_eq, List.length_range']
        have hroom := h.room
        have hdirty : (boundedPut QUEUE_SIZE r.dirty r.nextEntry).getD r.dirty =
            r.dirty ++ [r.nextEntry] := by
          rw [boundedPut, if_neg (by rwa [hsame]), Option.getD_some]
        rw [hdirty]
        exact .key hphase hstop.2 hmap (by omega)

theorem readLogValuePass (h : QueueInv r) {limits readNum : ℕ}
    (hphase : r.phase = .value limits readNum)
    (ht : readLogValuePass r limits readNum = .next r' handed) : ReaderMove r r' handed := by
  obtain ⟨htaken, hmoved⟩ : PhaseInv (.value limits readNum) _ _ _ := hphase ▸ h.phase_inv
  have hstop : ReaderMove r { r with phase := afterRead readNum } none := by
    refine .stay (p := r.ring.rdKeyPointer) ?_ ?_
    · unfold afterRead
      split_ifs <;> simp [Receiver.scanPos, hphase]
    · rw [htaken, hmoved]
      exact phaseInv_afterRead
  unfold Chain.readLogValuePass at ht
  split at ht
  · cases ht
    exact hstop
  · rename_i id rest hqueue
    obtain ⟨rfl, hpos, rfl⟩ := range'_eq_cons (h.peeding_eq.symm.trans hqueue)
    split_ifs at ht with hlimit
    · cases ht
      exact hstop
    · split at ht
      · cases ht
      · rename_i e hentry
        split_ifs at ht with htag
        · simp only at ht
          split at ht
          · cases ht
          · rename_i executing hput
            unfold boundedPut at hput
            split_ifs at hput
            cases hput
            cases ht
            exact .value hphase hqueue hentry htag
        · cases ht
          exact .stay rfl (hphase ▸ h.phase_inv)

theorem sendLog (h : QueueInv r) {num : ℕ} (hphase : r.phase = .exec num)
    (ht : sendLog r num = .next r' handed) : ReaderMove r r' handed := by
  obtain ⟨htaken, hmoved, hpos⟩ : PhaseInv (.exec num) _ _ _ := hphase ▸ h.phase_inv
  unfold Chain.sendLog at ht
  split at ht
  · rename_i hnil
    have hlen := congrArg List.length h.executing_eq
    rw [hnil, List.length_range', List.length_nil] at hlen
    omega
  · rename_i id rest hqueue
    obtain ⟨rfl, _, rfl⟩ := range'_eq_cons (h.executing_eq.symm.trans hqueue)
    split at ht
    · cases ht
    · rename_i e hentry
      cases ht
      exact .send hphase hqueue hentry

theorem cleanLog (h : QueueInv r) {num : ℕ} (hphase : r.phase = .sent num)
    (ht : cleanLog r num = .next r' handed) : ReaderMove r r' handed := by
  obtain ⟨htaken, hmoved, hpos⟩ : PhaseInv (.sent num) _ _ _ := hphase ▸ h.phase_inv
  have hle := h.received_le
  unfold Chain.cleanLog at ht
  split at ht
  · rename_i hnil
    have hlen := congrArg List.length h.dirty_eq
    rw [hnil, List.length_range', List.length_nil] at hlen
    omega
  · rename_i id rest hqueue
    obtain ⟨rfl, _, rfl⟩ := range'_eq_cons (h.dirty_eq.symm.trans hqueue)
    split at ht
    · cases ht
    · rename_i e hentry
      split_ifs at ht with hdirty
      split at ht
      · cases ht
      · rename_i dirtyMap hmap
        cases ht
        exact .clean hphase hqueue hentry hdirty hmap

/-- Every step of the reader is one of the listed moves. -/
theorem move (h : QueueInv r) {a : ReaderAction}
    (ht : readerStep r a = some (.next r' handed)) : ReaderMove r r' handed := by
  cases a with
  | readLogKey limits =>
    cases hphase : r.phase with
    | parse =>
      simp only [readerStep, hphase, Option.some.injEq, Outcome.next.injEq] at ht
      obtain ⟨rfl, rfl⟩ := ht
      have hinv := h.phase_inv
      rw [hphase] at hinv
      exact .stay (p := r.ring.rdKeyPointer) (by simp [Receiver.scanPos, hphase]) hinv
    | _ => simp [readerStep, hphase] at ht
  | readLogKeyPass =>
    cases hphase : r.phase with
    | keys limits readNum pos =>
      simp only [readerStep, hphase, Option.some.injEq] at ht
      exact h.readLogKeyPass hphase ht
    | _ => simp [readerStep, hphase] at ht
  | readLogValue limits =>
    cases hphase : r.phase with
    | keysRead =>
      simp only [readerStep, hphase, Option.some.injEq, Outcome.next.injEq] at ht
      obtain ⟨rfl, rfl⟩ := ht
      have hinv := h.phase_inv
      rw [hphase] at hinv
      exact .stay (p := r.ring.rdKeyPointer) (by simp [Receiver.scanPos, hphase]) hinv
    | _ => simp [readerStep, hphase] at ht
  | readLogValuePass =>
    cases hphase : r.phase with
    | value limits readNum =>
      simp only [readerStep, hphase, Option.some.injEq] at ht
      exact h.readLogValuePass hphase ht
    | _ => simp [readerStep, hphase] at ht
  | sendLog =>
    cases hphase : r.phase with
    | exec num =>
      simp only [readerStep, hphase, Option.some.injEq] at ht
      exact h.sendLog hphase ht
    | _ => simp [readerStep, hphase] at ht
  | cleanLog =>
    cases hphase : r.phase with
    | sent num =>
      simp only [readerStep, hphase, Option.some.injEq] at ht
      exact h.cleanLog hphase ht
    | _ => simp [readerStep, hphase] at ht

/-- The queues do not depend on the ring. -/
theorem with_ring (h : QueueInv r) (b : LocalRingbuff) : QueueInv { r with ring := b } :=
  { h with }

/-- The moves keep the queues in step. -/
theorem of_move (h : QueueInv r) (hm : ReaderMove r r' handed) : QueueInv r' := by
  have hc := h.cleaned_le
  have ho := h.obtained_le
  have hv := h.received_le
  cases hm with
  | stay hpos hphase => exact { h with phase_inv := hphase }
  | @key limits readNum pos dirtyMap hphase hcount hmap hroom =>
    obtain ⟨htaken, hmoved⟩ : PhaseInv (.keys limits readNum pos) _ _ _ := hphase ▸ h.phase_inv
    refine {
      cleaned_le := hc
      obtained_le := ho
      received_le := show r.received.length ≤ r.nextEntry + 1 by omega
      keys_length := ?_
      dirty_eq := ?_
      peeding_eq := ?_
      executing_eq := h.executing_eq
      alive := ?_
      phase_inv := ⟨htaken, hmoved⟩
      room := show r.nextEntry + 1 - r.cleaned ≤ QUEUE_SIZE - 1 by omega }
    · show (r.keys ++ [_]).length = r.nextEntry + 1
      simp [h.keys_length]
    · show r.dirty ++ [r.nextEntry] = List.range' r.cleaned (r.nextEntry + 1 - r.cleaned)
      rw [h.dirty_eq, range'_append_next (by omega)]
    · show r.valuePeeding ++ [r.nextEntry] =
        List.range' r.received.length (r.nextEntry + 1 - r.received.length)
      rw [h.peeding_eq, range'_append_next hv]
    · intro j hj hlt
      show ∃ e, (allocEntry r pos).entries j = some e
      by_cases hjn : j = r.nextEntry
      · subst hjn
        exact ⟨_, allocEntry_entries_self r pos⟩
      · have hlt' : j < r.nextEntry + 1 := hlt
        rw [allocEntry_entries_of_ne r pos hjn]
        exact h.alive j hj (by omega)
  | @value limits readNum e rest hphase hqueue hentry htag =>
    obtain ⟨htaken, hmoved⟩ : PhaseInv (.value limits readNum) _ _ _ := hphase ▸ h.phase_inv
    obtain ⟨-, hpos, rfl⟩ := range'_eq_cons (h.peeding_eq.symm.trans hqueue)
    refine {
      cleaned_le := hc
      obtained_le := ?_
      received_le := ?_
      keys_length := h.keys_length
      dirty_eq := h.dirty_eq
      peeding_eq := ?_
      executing_eq := ?_
      alive := ?_
      phase_inv := ?_
      room := h.room }
    · show r.obtained.length ≤ (r.received ++ [_]).length
      simp
      omega
    · show (r.received ++ [_]).length ≤ r.nextEntry
      simp
      omega
    · show List.range' (r.received.length + 1) (r.nextEntry - r.received.length - 1) =
        List.range' (r.received ++ [_]).length (r.nextEntry - (r.received ++ [_]).length)
      rw [List.length_append, List.length_singleton, Nat.sub_sub]
    · show r.executing ++ [r.received.length] =
        List.range' r.obtained.length ((r.received ++ [_]).length - r.obtained.length)
      rw [h.executing_eq, List.length_append, List.length_singleton, range'_append_next ho]
    · intro j hj hlt
      show ∃ e', (setValue r r.received.length e).2.entries j = some e'
      by_cases hjn : j = r.received.length
      · subst hjn
        exact ⟨_, setValue_entries_self ..⟩
      · rw [setValue_entries_of_ne r e hjn]
        exact h.alive j hj hlt
    · show r.obtained.length = r.cleaned ∧ (r.received ++ [_]).length = r.cleaned + (readNum + 1)
      simp
      omega
  | @send num e rest hphase hqueue hentry =>
    obtain ⟨htaken, hmoved, hnum⟩ : PhaseInv (.exec num) _ _ _ := hphase ▸ h.phase_inv
    obtain ⟨-, hpos, rfl⟩ := range'_eq_cons (h.executing_eq.symm.trans hqueue)
    refine { h with
      cleaned_le := ?_
      obtained_le := ?_
      executing_eq := ?_
      phase_inv := ?_ }
    · show r.cleaned ≤ (r.obtained ++ [_]).length
      simp
      omega
    · show (r.obtained ++ [_]).length ≤ r.received.length
      simp
      omega
    · show List.range' (r.obtained.length + 1) (r.received.length - r.obtained.length - 1) =
        List.range' (r.obtained ++ [_]).length (r.received.length - (r.obtained ++ [_]).length)
      rw [List.length_append, List.length_singleton, Nat.sub_sub]
    · show (r.obtained ++ [_]).length = r.cleaned + 1 ∧ _
      simp
      omega
  | @clean num e rest dirtyMap hphase hqueue hentry hdirty hmap =>
    obtain ⟨htaken, hmoved, hnum⟩ : PhaseInv (.sent num) _ _ _ := hphase ▸ h.phase_inv
    obtain ⟨-, hpos, rfl⟩ := range'_eq_cons (h.dirty_eq.symm.trans hqueue)
    have hroom := h.room
    refine {
      cleaned_le := show r.cleaned + 1 ≤ r.obtained.length by omega
      obtained_le := ho
      received_le := hv
      keys_length := h.keys_length
      dirty_eq := ?_
      peeding_eq := h.peeding_eq
      executing_eq := h.executing_eq
      alive := ?_
      phase_inv := ?_
      room := show r.nextEntry - (r.cleaned + 1) ≤ QUEUE_SIZE - 1 by omega }
    · show List.range' (r.cleaned + 1) (r.nextEntry - r.cleaned - 1) =
        List.range' (r.cleaned + 1) (r.nextEntry - (r.cleaned + 1))
      rw [Nat.sub_sub]
    · intro j hj hlt
      show ∃ e', (freeLog r r.cleaned e).entries j = some e'
      have hj' : r.cleaned + 1 ≤ j := hj
      rw [freeLog_entries_of_ne r e (by omega)]
      exact h.alive j (by omega) hlt
    · show PhaseInv (afterRead (num - 1)) r.received.length r.obtained.length (r.cleaned + 1)
      rw [htaken, hmoved, show r.cleaned + num = r.cleaned + 1 + (num - 1) by omega]
      exact phaseInv_afterRead

/-- The queues of a freshly started node. -/
theorem fresh (size : ℕ) (buff : ℕ → UInt8) (junk : Addr → ℕ → UInt8) :
    QueueInv (freshNode size buff junk).receiver where
  cleaned_le := le_rfl
  obtained_le := le_rfl
  received_le := le_rfl
  keys_length := rfl
  dirty_eq := rfl
  peeding_eq := rfl
  executing_eq := rfl
  alive := fun j _ hj => absurd hj (Nat.not_lt_zero j)
  phase_inv := ⟨rfl, rfl⟩
  room := Nat.zero_le _

end QueueInv

/-- In every run the queues of every receiver are in step. -/
theorem queueInv_of_reach {n size : ℕ} {cond : State → Action → Prop} {s : State}
    (h : Reach (chainSystem n size) cond s) (i : ℕ) : QueueInv (s (i + 1)).receiver := by
  refine h.invariant (P := fun s => QueueInv (s (i + 1)).receiver) ?_ ?_
  · rintro s ⟨buff, junk, rfl⟩
    exact QueueInv.fresh _ _ _
  · intro s a t hs _ ht
    cases linkStep_of_step ht i with
    | head hi hstep hsd hr =>
      rw [hr]
      exact hs.with_ring _
    | enqueue hi hstep hr => rwa [hr]
    | nic hn hstep hr =>
      rw [hr]
      exact hs.with_ring _
    | read hstep hsd => exact hs.of_move (hs.move hstep)
    | hand hi hstep hsd hr => rwa [hr]
    | other hsd hr => rwa [hr]

end RdmaMiddleware.Chain
