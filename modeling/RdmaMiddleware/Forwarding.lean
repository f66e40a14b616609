import RdmaMiddleware.Delivery

/-!
# Forwarding by a normal node

`NIC_thread` of a normal node writes the value of a log into the ring of the next node,
but neither its metadata and key nor the write pointer: that is done by `rb_write_mate`,
which only the head calls. So no log forwarded this way can be read. What the thread
passes on is the value received, provided `clean_log` waits until it has been sent.
-/
namespace RdmaMiddleware.Chain
open CInt CircularMemory LogBuffer MidHashmap UnlockQueue TransitionSystem RingReservation

/-! ## The properties -/

/-- Between the read pointer and the write pointer there is a log with this key and value. -/
def HoldsLog (b : LocalRingbuff) (key value : List UInt8) : Prop :=
  ∃ d, d + (sizeofLogEntry + key.length + value.length) ≤ b.dataSize ∧
    readMateData b ((b.rdPointer + d) % b.size) = ⟨key.length, value.length⟩ ∧
    Holds b.buff b.size (b.rdPointer + d + sizeofLogEntry) key ∧
    Holds b.buff b.size (b.rdPointer + d + sizeofLogEntry + key.length) value

/-- What node `i` executed as log `id` is in the ring of the next node or was executed there. -/
def LogForwarded (s : State) (i id : ℕ) : Prop :=
  ∀ key value, (s i).receiver.obtained[id]? = some (key, value) →
    (key, value) ∈ (s (i + 1)).receiver.obtained ∨ HoldsLog (s (i + 1)).receiver.ring key value

/-- The logs `NIC_thread` of node `i` has finished reach the next node, in order. -/
structure Forwards (s : State) (i : ℕ) : Prop where
  forwarded : ∀ p ∈ (s i).sender.finished, LogForwarded s i p.1
  in_order : (s (i + 1)).receiver.obtained <+:
    (s i).sender.finishedIds.filterMap ((s i).receiver.obtained[·]?)

/-- Every log handed over by `send_log` is taken once and sent with the value that was
received, and until then its entry and its value stay as they are. -/
structure ForwardIntact (s : State) (i : ℕ) : Prop where
  taken_eq : (s i).sender.taken ++ (s i).sender.sending = (s i).sender.handed
  handed_nodup : (s i).sender.handed.Nodup
  bytes_eq : ∀ p ∈ (s i).sender.finished, (s i).receiver.received[p.1]? = some p.2
  intact : ∀ id ∈ (s i).sender.nic.current ++ (s i).sender.sending, ∃ e,
    (s i).receiver.entries id = some e ∧
      (s i).receiver.received[id]? = some ((s i).receiver.valueBytes e)

/-- Beside the condition on tags: a normal node cleans a log only when its `NIC_thread`
has sent everything handed over. -/
def CleansSent (n : ℕ) (s : State) (a : Action) : Prop :=
  FreshTags s a ∧ ∀ i, a = .reader i .cleanLog → nodeClass n i = .NORMAL →
    (s i).sender.sending = [] ∧ (s i).sender.nic = .idle

variable {n N i : ℕ} {s t : State} {r r' : Receiver} {sd sd' : Sender}

theorem ne_zero_of_normal (hi : nodeClass n i = .NORMAL) : i ≠ 0 := by
  rintro rfl
  simp [nodeClass] at hi
  split_ifs at hi

/-! ## Nodes behind a normal node -/

/-- Nothing has been published to this node. -/
structure Unfed (r : Receiver) : Prop where
  wr : r.ring.wrPointer = 0
  rd : r.ring.rdPointer = 0
  scan : r.scanPos = 0
  next : r.nextEntry = 0

theorem mask_zero (size : ℕ) : mask 0 size = 0 := by simp [mask]

namespace Unfed

theorem dataSize_eq (h : Unfed r) : r.ring.dataSize = 0 := by
  simp [Ringbuff.dataSize, h.wr, h.rd, mask_zero]

theorem obtained_eq (h : Unfed r) (hqueue : QueueInv r) : r.obtained = [] := by
  have hle := hqueue.obtained_le
  have hv := hqueue.received_le
  have hnext := h.next
  exact List.length_eq_zero_iff.mp (by omega)

theorem received_eq (h : Unfed r) (hqueue : QueueInv r) : r.received = [] := by
  have hv := hqueue.received_le
  have hnext := h.next
  exact List.length_eq_zero_iff.mp (by omega)

/-- The reader finds nothing to do. -/
theorem move (h : Unfed r) (hqueue : QueueInv r) {handed : Option ℕ}
    (hm : ReaderMove r r' handed) : Unfed r' := by
  have hnext := h.next
  cases hm with
  | stay hpos hphase => exact ⟨h.wr, h.rd, hpos.trans h.scan, h.next⟩
  | @key limits readNum pos dirtyMap hphase hcount hmap hroom =>
    have hpos : pos = 0 := by
      have := h.scan
      rwa [Receiver.scanPos, hphase] at this
    subst hpos
    simp [Ringbuff.countSize, h.wr, mask_zero, sizeofLogMateData] at hcount
  | value hphase hlist hentry htag =>
    obtain ⟨-, hpos, -⟩ := range'_eq_cons (hqueue.peeding_eq.symm.trans hlist)
    omega
  | send hphase hlist hentry =>
    obtain ⟨-, hpos, -⟩ := range'_eq_cons (hqueue.executing_eq.symm.trans hlist)
    have hv := hqueue.received_le
    omega
  | clean hphase hlist hentry hdirty hmap =>
    obtain ⟨-, hpos, -⟩ := range'_eq_cons (hqueue.dirty_eq.symm.trans hlist)
    omega

end Unfed

/-- No node behind a normal node ever gets a write pointer. -/
theorem unfed_of_reach {cond : State → Action → Prop} (h : Reach (chainSystem n N) cond s)
    (hi : i ≠ 0) : Unfed (s (i + 1)).receiver := by
  refine h.invariant_of (Q := fun s => QueueInv (s (i + 1)).receiver)
    (P := fun s => Unfed (s (i + 1)).receiver) (fun s hs => queueInv_of_reach hs i) ?_ ?_
  · rintro s ⟨buff, junk, rfl⟩
    exact ⟨rfl, rfl, rfl, rfl⟩
  · intro s a t hqueue hs _ ht
    cases linkStep_of_step ht i with
    | head hzero => exact absurd hzero hi
    | enqueue hzero => exact absurd hzero hi
    | nic hn hstep hr =>
      rw [hr]
      exact ⟨hs.wr, hs.rd, hs.scan, hs.next⟩
    | read hstep hsd => exact hs.move hqueue (hqueue.move hstep)
    | hand _ hstep hsd hr => rwa [hr]
    | other hsd hr => rwa [hr]

/-! ## Steps seen from one node -/

/-- The effect of a step on the two sides of a normal node. -/
inductive NodeStep (n : ℕ) (s t : State) (i : ℕ) : Action → Prop
  | upstream {a : Action} {b : LocalRingbuff} (hs : (t i).sender = (s i).sender)
      (hr : (t i).receiver = { (s i).receiver with ring := b }) : NodeStep n s t i a
  | nic {a : NicAction} {buff : ℕ → UInt8}
      (hstep : nicStep (nodeClass n i) (s i).receiver (s i).sender
        (s (i + 1)).receiver.ring.buff a = some ((t i).sender, buff))
      (hr : (t i).receiver = (s i).receiver) : NodeStep n s t i (.nic i a)
  | read {a : ReaderAction} {handed : Option ℕ}
      (hstep : readerStep (s i).receiver a = some (.next (t i).receiver handed))
      (hs : (t i).sender = handed.elim (s i).sender (handOver (s i).sender)) :
      NodeStep n s t i (.reader i a)

theorem nodeStep_of_step {a : Action} (hi : nodeClass n i = .NORMAL)
    (h : step n s a = some t) : NodeStep n s t i a := by
  have hne := ne_zero_of_normal hi
  have hsame : ∀ {a : Action}, t i = s i → NodeStep n s t i a := fun heq =>
    .upstream (b := (s i).receiver.ring) (by rw [heq]) (by rw [heq])
  cases a with
  | head a =>
    simp only [step] at h
    split_ifs at h
    split at h
    · cases h
    · rename_i w b hw
      rw [Option.some.injEq] at h
      subst h
      by_cases hi1 : i = 1
      · subst hi1
        exact .upstream (b := b) (by simp) (by simp)
      · exact hsame (by simp [hne, hi1])
  | enqueue =>
    simp only [step] at h
    split_ifs at h
    split at h
    · cases h
    · rw [Option.some.injEq] at h
      subst h
      exact hsame (by simp [hne])
  | nic j a =>
    simp only [step] at h
    split_ifs at h
    split at h
    · cases h
    · rename_i sd buff hn
      rw [Option.some.injEq] at h
      subst h
      by_cases hij : i = j
      · subst hij
        exact @NodeStep.nic n s _ i a buff (by simpa using hn) (by simp)
      · by_cases hij' : i = j + 1
        · subst hij'
          exact .upstream (b := { (s (j + 1)).receiver.ring with buff := buff }) (by simp)
            (by simp [Receiver.withBuff])
        · exact hsame (by simp [hij, hij'])
  | reader j a =>
    simp only [step] at h
    by_cases hguard : (s j).exited = true ∨ j = 0 ∨ n ≤ j
    · rw [if_pos hguard] at h
      cases h
    rw [if_neg hguard] at h
    split at h
    · cases h
    · cases h
    · rw [Option.some.injEq] at h
      subst h
      by_cases hij : i = j
      · subst hij
        exact .upstream (b := (s i).receiver.ring) (by simp) (by simp)
      · exact hsame (by simp [hij])
    · rename_i r handed hr
      rw [Option.some.injEq] at h
      subst h
      by_cases hij : i = j
      · subst hij
        refine @NodeStep.read n s _ i a handed (by simpa using hr) ?_
        cases handed <;> simp [hi]
      · exact hsame (by simp [hij])

/-! ## What is forwarded -/

/-- `send_log` hands over the logs in the order in which they are executed, and only what
was handed over is sent. -/
structure HandInv (sd : Sender) (r : Receiver) : Prop where
  handed_eq : sd.handed = List.range r.obtained.length
  sent_lt : ∀ id ∈ sd.finishedIds ++ sd.nic.current ++ sd.sending, id < r.obtained.length

theorem nicStep_ids {cls : NodeClass} {buff buff' : ℕ → UInt8} {a : NicAction}
    (h : nicStep cls r sd buff a = some (sd', buff')) :
    sd'.handed = sd.handed ∧
      sd'.finishedIds ++ sd'.nic.current ++ sd'.sending =
        sd.finishedIds ++ sd.nic.current ++ sd.sending ∧
      sd'.taken ++ sd'.sending = sd.taken ++ sd.sending := by
  cases a with
  | take =>
    simp only [nicStep] at h
    split at h
    · rename_i id rest hn hsend
      cases h
      simp [Sender.finishedIds, Nic.current, hn, hsend]
    · cases h
  | start =>
    simp only [nicStep] at h
    split at h
    · rename_i id hn
      split at h <;> cases h
      simp [Sender.finishedIds, Nic.current, hn]
    · cases h
  | write =>
    simp only [nicStep] at h
    split at h
    · rename_i id src passed len pos hn
      split_ifs at h <;> cases h <;> simp [Sender.finishedIds, Nic.current, hn]
    · cases h

/-- A move that hands no log over executes none. -/
theorem ReaderMove.obtained_of_none (h : ReaderMove r r' none) : r'.obtained = r.obtained := by
  generalize hh : (none : Option ℕ) = handed at h
  cases h with
  | send => cases hh
  | _ => rfl

theorem ReaderMove.obtained_of_some {id : ℕ} (h : ReaderMove r r' (some id)) :
    id = r.obtained.length ∧ r'.obtained.length = r.obtained.length + 1 := by
  generalize hh : some id = handed at h
  cases h with
  | send hphase hlist hentry =>
    cases hh
    exact ⟨rfl, by simp⟩
  | _ => cases hh

theorem mem_boundedPut_getD {α : Type*} {len : ℕ} {held : List α} {e x : α}
    (h : x ∈ (boundedPut len held e).getD held) : x ∈ held ∨ x = e := by
  unfold boundedPut at h
  split_ifs at h
  · exact .inl h
  · simpa using h

theorem HandInv.step (h : HandInv (s i).sender (s i).receiver) (hqueue : QueueInv (s i).receiver)
    {a : Action} (ht : NodeStep n s t i a) : HandInv (t i).sender (t i).receiver := by
  cases ht with
  | upstream hs hr =>
    rw [hs, hr]
    exact ⟨h.handed_eq, h.sent_lt⟩
  | nic hstep hr =>
    obtain ⟨hhanded, hids, _⟩ := nicStep_ids hstep
    rw [hr]
    exact ⟨hhanded.trans h.handed_eq, hids ▸ h.sent_lt⟩
  | @read a handed hstep hs =>
    have hm := hqueue.move hstep
    rw [hs]
    cases handed with
    | none =>
      rw [Option.elim_none]
      refine ⟨?_, ?_⟩
      · rw [hm.obtained_of_none]
        exact h.handed_eq
      · rw [hm.obtained_of_none]
        exact h.sent_lt
    | some id =>
      obtain ⟨rfl, hlen⟩ := hm.obtained_of_some
      refine ⟨?_, ?_⟩
      · rw [hlen, List.range_succ, ← h.handed_eq]
        rfl
      · intro id hid
        rw [hlen]
        rcases List.mem_append.mp hid with hid | hid
        · exact Nat.lt_succ_of_lt (h.sent_lt id (List.mem_append_left _ hid))
        · rcases mem_boundedPut_getD hid with hid | rfl
          · exact Nat.lt_succ_of_lt (h.sent_lt id (List.mem_append_right _ hid))
          · exact Nat.lt_succ_self _

theorem queueInv_of_normal {cond : State → Action → Prop} (h : Reach (chainSystem n N) cond s)
    (hi : nodeClass n i = .NORMAL) : QueueInv (s i).receiver := by
  cases i with
  | zero => exact absurd rfl (ne_zero_of_normal hi)
  | succ j => exact queueInv_of_reach h j

theorem handInv_of_reach {cond : State → Action → Prop} (h : Reach (chainSystem n N) cond s)
    (hi : nodeClass n i = .NORMAL) : HandInv (s i).sender (s i).receiver := by
  refine h.invariant_of (Q := fun s => QueueInv (s i).receiver)
    (P := fun s => HandInv (s i).sender (s i).receiver)
    (fun s hs => queueInv_of_normal hs hi) ?_ ?_
  · rintro s ⟨buff, junk, rfl⟩
    exact ⟨rfl, by simp [freshNode, Sender.finishedIds, Nic.current]⟩
  · intro s a t hqueue hs _ ht
    exact hs.step hqueue (nodeStep_of_step hi ht)

/-- The log of a node that is finished was executed there, and the next node cannot have it. -/
theorem unfed_not_forwarded (hunfed : Unfed (s (i + 1)).receiver)
    (hqueue : QueueInv (s (i + 1)).receiver) (hhand : HandInv (s i).sender (s i).receiver)
    {p : ℕ × List UInt8} (hp : p ∈ (s i).sender.finished) : ¬ LogForwarded s i p.1 := by
  intro hforward
  have hlt : p.1 < (s i).receiver.obtained.length :=
    hhand.sent_lt p.1 (by
      simp only [List.mem_append]
      exact .inl (.inl (List.mem_map_of_mem hp)))
  rcases hforward _ _ (List.getElem?_eq_getElem hlt) with hmem | ⟨d, hd, _⟩
  · rw [hunfed.obtained_eq hqueue] at hmem
    cases hmem
  · rw [hunfed.dataSize_eq] at hd
    simp [sizeofLogEntry] at hd

/-- Whatever the run, no log that a normal node has finished reaches the next node. -/
theorem forwards_iff_nothing_finished (h : Reachable (chainSystem n N) s)
    (hi : nodeClass n i = .NORMAL) :
    (∀ p ∈ (s i).sender.finished, ¬ LogForwarded s i p.1) ∧
      (Forwards s i ↔ (s i).sender.finished = []) := by
  have hunfed := unfed_of_reach h (ne_zero_of_normal hi)
  have hqueue := queueInv_of_reach h i
  have hnever : ∀ p ∈ (s i).sender.finished, ¬ LogForwarded s i p.1 := fun p hp =>
    unfed_not_forwarded hunfed hqueue (handInv_of_reach h hi) hp
  refine ⟨hnever, ?_, ?_⟩
  · intro hforwards
    apply List.eq_nil_iff_forall_not_mem.mpr
    exact fun p hp => hnever p hp (hforwards.forwarded p hp)
  · intro hnil
    refine ⟨by simp [hnil], ?_⟩
    rw [hunfed.obtained_eq hqueue]
    exact List.nil_prefix

/-- A chain of three nodes passes one log on. -/
def forwardingRun : List Action :=
  writeLog shortLog 1 ++ forwardLog 0 1 ++ readLog 1 2 ++ forwardLog 1 1

theorem forwards_iff_nothing_finished_forwardingRun :
    ∃ s, run (chainSystem 3 128) (fun _ _ => true) (freshChain 128) forwardingRun = some s ∧
      (s 1).sender.finished ≠ [] ∧ (∀ p ∈ (s 1).sender.finished, ¬ LogForwarded s 1 p.1) ∧
        (Forwards s 1 ↔ (s 1).sender.finished = []) := by
  have hsome : ((run (chainSystem 3 128) (fun _ _ => true) (freshChain 128) forwardingRun).any
      fun s => decide ((s 1).sender.finished ≠ [])) = true := by decide +kernel
  obtain ⟨s, hrun, hreach, hs⟩ :=
    reach_of_run_any (fun _ _ _ => trivial) reach_freshChain hsome
  exact ⟨s, hrun, of_decide_eq_true hs, forwards_iff_nothing_finished hreach rfl⟩

/-- The normal node has sent a log and the tail can never read it. -/
theorem not_forwards_forwardingRun :
    ∃ s, Reachable (chainSystem 3 128) s ∧ nodeClass 3 1 = .NORMAL ∧ ¬ Forwards s 1 := by
  have hsome : ((run (chainSystem 3 128) (fun _ _ => true) (freshChain 128) forwardingRun).any
      fun s => decide ((s 1).sender.finishedIds = [0] ∧
        (s 1).receiver.obtained = [([107, 0], [118, 0, 1])] ∧ (s 2).receiver.obtained = [] ∧
        (s 2).receiver.ring.dataSize = 0)) = true := by decide +kernel
  obtain ⟨s, -, hreach, hs⟩ := reach_of_run_any (fun _ _ _ => trivial) reach_freshChain hsome
  obtain ⟨hids, hobtained, hnone, hsize⟩ := of_decide_eq_true hs
  refine ⟨s, hreach, rfl, ?_⟩
  intro hforwards
  obtain ⟨p, hp, hid⟩ : ∃ p ∈ (s 1).sender.finished, p.1 = 0 := by
    have hmem : 0 ∈ (s 1).sender.finishedIds := by simp [hids]
    exact List.mem_map.mp hmem
  have hlog := hforwards.forwarded p hp
  rw [hid] at hlog
  rcases hlog [107, 0] [118, 0, 1] (by simp [hobtained]) with hmem | ⟨d, hd, _⟩
  · rw [hnone] at hmem
    cases hmem
  · rw [hsize] at hd
    simp [sizeofLogEntry] at hd

/-! ## Integrity of what is forwarded -/

/-- The value of every uncleaned log of `executing_queue` or later is where its entry says. -/
def ValuesKept (r : Receiver) : Prop :=
  ∀ (id : ℕ) (e : LogEntry), r.cleaned ≤ id → id < r.received.length → r.entries id = some e →
    ∃ a v, e.valueAddr = some a ∧ r.received[id]? = some v ∧
      e.mateData.valueLength.toNat = v.length ∧ r.bytes a v.length = v

/-- How far `NIC_thread` of a receiving node is with a value. -/
def SendingInv (r : Receiver) : Nic → Prop
  | .writing id src passed len _ => ∃ e a v, r.entries id = some e ∧ e.valueAddr = some a ∧
      src = .received a ∧ r.received[id]? = some v ∧ v.take passed.length = passed ∧
      passed.length + len = v.length
  | _ => True

structure SendInv (sd : Sender) (r : Receiver) : Prop where
  hand : HandInv sd r
  taken_eq : sd.taken ++ sd.sending = sd.handed
  finished_eq : sd.taken = sd.finishedIds ++ sd.nic.current
  cleaned_le : r.cleaned ≤ sd.finishedIds.length
  bytes : ∀ p ∈ sd.finished, r.received[p.1]? = some p.2
  nic : SendingInv r sd.nic

/-- The later part of a range. -/
theorem mem_range_suffix {l l' : List ℕ} {m x : ℕ} (h : l ++ l' = List.range m) (hx : x ∈ l') :
    l.length ≤ x ∧ x < m := by
  obtain ⟨k, hk⟩ := List.mem_iff_getElem?.mp hx
  have hget : (List.range m)[l.length + k]? = some x := by
    rw [← h, List.getElem?_append_right (Nat.le_add_right _ _), Nat.add_sub_cancel_left, hk]
  obtain ⟨hlt, heq⟩ := List.getElem?_eq_some_iff.mp hget
  rw [List.getElem_range] at heq
  rw [List.length_range] at hlt
  omega

theorem readBytes_part {mem : ℕ → UInt8} {v : List UInt8} (h : readBytes mem 0 v.length = v)
    {done k : ℕ} (hk : done + k ≤ v.length) :
    readBytes mem done k = (v.drop done).take k := by
  rw [← h]
  apply List.ext_getElem
  · simp [readBytes]
    omega
  · intro j hj hj'
    simp [readBytes]

namespace SendInv

/-- What is handed over and not finished is not cleaned. -/
theorem unfinished (h : SendInv sd r) {id : ℕ} (hid : id ∈ sd.nic.current ++ sd.sending) :
    r.cleaned ≤ id ∧ id < r.obtained.length := by
  have hrange : sd.finishedIds ++ (sd.nic.current ++ sd.sending) =
      List.range r.obtained.length := by
    rw [← h.hand.handed_eq, ← h.taken_eq, h.finished_eq, List.append_assoc]
  have := mem_range_suffix hrange hid
  have := h.cleaned_le
  omega

theorem handInv_nic (h : SendInv sd r) {cls : NodeClass} {buff buff' : ℕ → UInt8} {a : NicAction}
    (hstep : nicStep cls r sd buff a = some (sd', buff')) : HandInv sd' r := by
  obtain ⟨hhanded, hids, _⟩ := nicStep_ids hstep
  exact ⟨hhanded.trans h.hand.handed_eq, hids ▸ h.hand.sent_lt⟩

/-- A part of the value is passed to `dhmp_write`. -/
theorem write (h : SendInv sd r) (hqueue : QueueInv r) (hvalues : ValuesKept r)
    {id len pos : ℕ} {src : Source} {passed : List UInt8}
    (hn : sd.nic = .writing id src passed len pos) {k : ℕ} (hk : k ≤ len) :
    ∃ v, r.received[id]? = some v ∧ passed.length + len = v.length ∧
      passed ++ sourceBytes r src passed.length k = v.take (passed.length + k) := by
  have hnic := h.nic
  rw [hn] at hnic
  obtain ⟨e, a, v, he, ha, hsrc, hv, htake, hlen⟩ := hnic
  have hid := h.unfinished (show id ∈ sd.nic.current ++ sd.sending by simp [hn, Nic.current])
  have hle := hqueue.obtained_le
  obtain ⟨a', v', ha', hv', _, hbytes⟩ := hvalues id e hid.1 (by omega) he
  obtain rfl := Option.some.inj (ha.symm.trans ha')
  obtain rfl := Option.some.inj (hv.symm.trans hv')
  refine ⟨v, hv, hlen, ?_⟩
  subst hsrc
  have hpart := readBytes_part hbytes (show passed.length + k ≤ v.length by omega)
  rw [sourceBytes, hpart, List.take_add, htake]

theorem nic_step (h : SendInv sd r) (hqueue : QueueInv r) (hvalues : ValuesKept r)
    {buff buff' : ℕ → UInt8} {a : NicAction}
    (hstep : nicStep .NORMAL r sd buff a = some (sd', buff')) : SendInv sd' r := by
  have hhand := h.handInv_nic hstep
  cases a with
  | take =>
    simp only [nicStep] at hstep
    split at hstep
    · rename_i id rest hn hsend
      cases hstep
      refine ⟨hhand, ?_, ?_, h.cleaned_le, h.bytes, trivial⟩
      · rw [← h.taken_eq, hsend, List.append_assoc, List.singleton_append]
      · show sd.taken ++ [id] = sd.finishedIds ++ [id]
        rw [h.finished_eq, hn, Nic.current, List.append_nil]
    · cases hstep
  | start =>
    simp only [nicStep] at hstep
    split at hstep
    · rename_i id hn
      split at hstep
      · cases hstep
      · rename_i logPos mateData src hlog
        cases hstep
        refine ⟨hhand, h.taken_eq, ?_, h.cleaned_le, h.bytes, ?_⟩
        · rw [h.finished_eq, hn]
          rfl
        · have hid := h.unfinished
            (show id ∈ sd.nic.current ++ sd.sending by simp [hn, Nic.current])
          have hle := hqueue.obtained_le
          simp only [nicLog, Option.bind_eq_some_iff, Option.map_eq_some_iff] at hlog
          obtain ⟨e, he, a, ha, heq⟩ := hlog
          obtain ⟨a', v, ha', hv, hlen, _⟩ := hvalues id e hid.1 (by omega) he
          obtain rfl := Option.some.inj (ha.symm.trans ha')
          cases heq
          exact ⟨e, a, v, he, ha, rfl, hv, by simp, by simpa using hlen⟩
    · cases hstep
  | write =>
    simp only [nicStep] at hstep
    split at hstep
    · rename_i id src passed len pos hn
      split_ifs at hstep with hwrap
      · obtain ⟨v, hv, hlen, hpassed⟩ := h.write hqueue hvalues hn
          (show sd.writer.remote.size - pos ≤ len by omega)
        cases hstep
        refine ⟨hhand, h.taken_eq, ?_, h.cleaned_le, h.bytes, ?_⟩
        · rw [h.finished_eq, hn]
          rfl
        · have hnic := h.nic
          rw [hn] at hnic
          obtain ⟨e, a, v', he, ha, hsrc, hv', _, _⟩ := hnic
          refine ⟨e, a, v, he, ha, hsrc, hv, ?_, ?_⟩
          · rw [hpassed, List.length_take, Nat.min_eq_left (by omega)]
          · rw [hpassed, List.length_take, Nat.min_eq_left (by omega)]
            omega
      · obtain ⟨v, hv, hlen, hpassed⟩ := h.write hqueue hvalues hn le_rfl
        cases hstep
        refine ⟨hhand, h.taken_eq, ?_, ?_, ?_, trivial⟩
        · rw [h.finished_eq, hn]
          simp [Sender.finishedIds, Nic.current]
        · have := h.cleaned_le
          simp only [Sender.finishedIds, List.length_map, List.length_append] at this ⊢
          omega
        · intro p hp
          rcases List.mem_append.mp hp with hp | hp
          · exact h.bytes p hp
          · rw [List.mem_singleton.mp hp, hpassed, hlen, List.take_length]
            exact hv
    · cases hstep

/-- The reader keeps the entries and values that are still to be sent. -/
theorem sendingInv_of_reader (h : SendInv sd r)
    (hentries : ∀ id, r.cleaned ≤ id → id < r.obtained.length → r'.entries id = r.entries id)
    (hreceived : ∀ (id : ℕ) (v : List UInt8), r.received[id]? = some v →
      r'.received[id]? = some v) : SendingInv r' sd.nic := by
  have hnic := h.nic
  cases hn : sd.nic with
  | writing id src passed len pos =>
    rw [hn] at hnic
    obtain ⟨e, a, v, he, ha, hsrc, hv, htake, hlen⟩ := hnic
    have hid := h.unfinished (show id ∈ sd.nic.current ++ sd.sending by simp [hn, Nic.current])
    exact ⟨e, a, v, (hentries id hid.1 hid.2).trans he, ha, hsrc, hreceived id v hv, htake, hlen⟩
  | _ => trivial

theorem reader_step (h : SendInv sd r) (hqueue : QueueInv r) {handed : Option ℕ}
    (hm : ReaderMove r r' handed)
    (hclean : (∃ num, r.phase = .sent num) → sd.sending = [] ∧ sd.nic = .idle)
    (hhand : HandInv (handed.elim sd (handOver sd)) r') :
    SendInv (handed.elim sd (handOver sd)) r' := by
  have hle := hqueue.obtained_le
  have hv := hqueue.received_le
  cases hm with
  | stay hpos hphase =>
    exact ⟨hhand, h.taken_eq, h.finished_eq, h.cleaned_le, h.bytes,
      h.sendingInv_of_reader (fun _ _ _ => rfl) fun _ _ hv => hv⟩
  | key hphase hcount hmap hroom =>
    refine ⟨hhand, h.taken_eq, h.finished_eq, h.cleaned_le, h.bytes,
      h.sendingInv_of_reader ?_ fun _ _ hv => hv⟩
    exact fun id _ hlt => Function.update_of_ne (by omega) _ _
  | @value limits readNum e rest hphase hlist hentry htag =>
    have hreceived : ∀ (id : ℕ) (v w : List UInt8), r.received[id]? = some v →
        (r.received ++ [w])[id]? = some v := by
      intro id v w hget
      rw [List.getElem?_append_left (List.getElem?_eq_some_iff.mp hget).1, hget]
    exact ⟨hhand, h.taken_eq, h.finished_eq, h.cleaned_le,
      fun p hp => hreceived _ _ _ (h.bytes p hp),
      h.sendingInv_of_reader (fun id _ hlt => Function.update_of_ne (by omega) _ _)
        fun id v hget => hreceived id v _ hget⟩
  | @send num e rest hphase hlist hentry =>
    obtain ⟨htaken, -, -⟩ : PhaseInv (.exec num) _ _ _ := hphase ▸ hqueue.phase_inv
    -- the log before this one is cleaned, so everything handed over has been sent
    have hlen := congrArg List.length h.taken_eq
    rw [h.finished_eq, h.hand.handed_eq, List.length_range, List.length_append,
      List.length_append] at hlen
    have hcleaned := h.cleaned_le
    have hempty : sd.sending = [] := List.length_eq_zero_iff.mp (by omega)
    refine ⟨hhand, ?_, h.finished_eq, h.cleaned_le, h.bytes,
      h.sendingInv_of_reader (fun _ _ _ => rfl) fun _ _ hv => hv⟩
    rw [Option.elim_some, handOver, hempty]
    show sd.taken ++ [r.obtained.length] = sd.handed ++ [r.obtained.length]
    rw [← h.taken_eq, hempty, List.append_nil]
  | @clean num e rest dirtyMap hphase hlist hentry hdirty hmap =>
    obtain ⟨htaken, -, -⟩ : PhaseInv (.sent num) _ _ _ := hphase ▸ hqueue.phase_inv
    obtain ⟨hempty, hidle⟩ := hclean ⟨num, hphase⟩
    have hlen := congrArg List.length h.taken_eq
    rw [h.finished_eq, h.hand.handed_eq, hempty, hidle, List.length_range] at hlen
    simp only [Nic.current, List.append_nil] at hlen
    refine ⟨hhand, h.taken_eq, h.finished_eq, show r.cleaned + 1 ≤ sd.finishedIds.length by omega,
      h.bytes, ?_⟩
    rw [Option.elim_none, hidle]
    trivial

end SendInv

theorem SendInv.step {a : Action} (h : SendInv (s i).sender (s i).receiver)
    (hqueue : QueueInv (s i).receiver) (hvalues : ValuesKept (s i).receiver)
    (hi : nodeClass n i = .NORMAL) (hsent : CleansSent n s a) (ht : NodeStep n s t i a) :
    SendInv (t i).sender (t i).receiver := by
  have hhand := h.hand.step hqueue ht
  cases ht with
  | upstream hs hr =>
    rw [hs, hr] at hhand ⊢
    exact ⟨hhand, h.taken_eq, h.finished_eq, h.cleaned_le, h.bytes,
      h.sendingInv_of_reader (fun _ _ _ => rfl) fun _ _ hv => hv⟩
  | nic hstep hr =>
    rw [hi] at hstep
    rw [hr]
    exact h.nic_step hqueue hvalues hstep
  | @read a handed hstep hs =>
    rw [hs] at hhand ⊢
    refine h.reader_step hqueue (hqueue.move hstep) ?_ hhand
    rintro ⟨num, hphase⟩
    exact hsent.2 i (by rw [eq_cleanLog_of_sent hphase hstep]) hi

/-- The second node keeps its values by delivery from the head, and a later node has none. -/
theorem valuesKept_of_reach (hN : IsRingSize N) (h : Reach (chainSystem n N) (CleansSent n) s)
    (hi : nodeClass n i = .NORMAL) : ValuesKept (s i).receiver := by
  match i, ne_zero_of_normal hi with
  | 1, _ =>
    have hinv := deliveryInv_of_reach hN (h.mono fun s a hsent => hsent.1)
    intro id e hid hlt he
    have hle := hinv.queue.received_le
    obtain ⟨l, hl, hfits, hm, _, _, _⟩ := hinv.entry hid (by omega) he
    obtain ⟨l', hl', hstored⟩ := hinv.values id e hid hlt he
    obtain rfl := Option.some.inj (hl.symm.trans hl')
    obtain ⟨l', hl', hv⟩ := hinv.received id _ (List.getElem?_eq_getElem hlt)
    obtain rfl := Option.some.inj (hl.symm.trans hl')
    have hvalue := hinv.bytes.value id l hid hl (hinv.handed.moved_done id hlt)
    have hbytes := hstored.valueBytes_eq hfits hm hvalue
    have hlen : e.mateData.valueLength.toNat = l.1.valueBytes.length := by
      rw [hm, valueLength_toNat hfits, l.1.length_valueBytes]
    obtain ⟨a, ha⟩ : ∃ a, e.valueAddr = some a := by
      unfold ValueStored at hstored
      split_ifs at hstored
      · exact ⟨_, hstored.1⟩
      · exact ⟨_, hstored.1⟩
    refine ⟨a, l.1.valueBytes, ha, by rw [List.getElem?_eq_getElem hlt, hv], hlen, ?_⟩
    rwa [Receiver.valueBytes, Receiver.getValueAddr, ha, Option.getD_some, hlen] at hbytes
  | j + 2, _ =>
    intro id e _ hlt
    have hunfed := unfed_of_reach h (Nat.succ_ne_zero j)
    rw [hunfed.received_eq (queueInv_of_reach h (j + 1))] at hlt
    exact absurd hlt (Nat.not_lt_zero id)

theorem sendInv_of_reach (hN : IsRingSize N) (h : Reach (chainSystem n N) (CleansSent n) s)
    (hi : nodeClass n i = .NORMAL) : SendInv (s i).sender (s i).receiver := by
  refine h.invariant_of (Q := fun s => QueueInv (s i).receiver ∧ ValuesKept (s i).receiver)
    (P := fun s => SendInv (s i).sender (s i).receiver)
    (fun s hs => ⟨queueInv_of_normal hs hi, valuesKept_of_reach hN hs hi⟩) ?_ ?_
  · rintro s ⟨buff, junk, rfl⟩
    exact ⟨⟨rfl, by simp [freshNode, Sender.finishedIds, Nic.current]⟩, rfl, rfl, le_rfl,
      by simp [freshNode], trivial⟩
  · intro s a t hq hs hc ht
    exact hs.step hq.1 hq.2 hi hc (nodeStep_of_step hi ht)

/-- Forwarding is intact while a log is cleaned only after it has been sent. -/
theorem forwardIntact_of_cleansSent (hN : IsRingSize N)
    (h : Reach (chainSystem n N) (CleansSent n) s) (hi : nodeClass n i = .NORMAL) :
    ForwardIntact s i := by
  have hinv := sendInv_of_reach hN h hi
  have hqueue := queueInv_of_normal h hi
  have hvalues := valuesKept_of_reach hN h hi
  refine ⟨hinv.taken_eq, ?_, hinv.bytes, ?_⟩
  · rw [hinv.hand.handed_eq]
    exact List.nodup_range
  · intro id hid
    obtain ⟨hle, hlt⟩ := hinv.unfinished hid
    have ho := hqueue.obtained_le
    have hv := hqueue.received_le
    obtain ⟨e, he⟩ := hqueue.alive id hle (by omega)
    obtain ⟨a, v, ha, hget, hlen, hbytes⟩ := hvalues id e hle (by omega) he
    refine ⟨e, he, ?_⟩
    rw [hget, Receiver.valueBytes, Receiver.getValueAddr, ha, Option.getD_some, hlen, hbytes]

def cleansSent (n : ℕ) (s : State) (a : Action) : Bool :=
  freshTags s a &&
    match a with
    | .reader i .cleanLog =>
      nodeClass n i != .NORMAL || ((s i).sender.sending.isEmpty && (s i).sender.nic.current.isEmpty)
    | _ => true

theorem cleansSent_sound {a : Action} (h : cleansSent n s a = true) : CleansSent n s a := by
  unfold cleansSent at h
  rw [Bool.and_eq_true] at h
  refine ⟨freshTags_sound h.1, ?_⟩
  intro i ha hi
  subst ha
  have hsent := h.2
  simp only [hi, bne_self_eq_false, Bool.false_or, Bool.and_eq_true, List.isEmpty_iff] at hsent
  refine ⟨hsent.1, ?_⟩
  cases hn : (s i).sender.nic with
  | idle => rfl
  | _ => simp [hn, Nic.current] at hsent

/-- Two logs pass through the middle of three nodes. -/
def twoForwardedRun : List Action :=
  forwardingRun ++ [.reader 1 .cleanLog] ++ writeLog longLog 1 ++ forwardLog 0 1 ++
    readLog 1 2 ++ [.nic 1 .take, .nic 1 .start]

theorem forwardIntact_of_cleansSent_twoForwardedRun :
    ∃ s, run (chainSystem 3 128) (cleansSent 3) (freshChain 128) twoForwardedRun = some s ∧
      ForwardIntact s 1 := by
  have hsome : (run (chainSystem 3 128) (cleansSent 3) (freshChain 128)
      twoForwardedRun).isSome = true := by decide +kernel
  obtain ⟨s, hs⟩ := Option.isSome_iff_exists.mp hsome
  have hreach : Reach (chainSystem 3 128) (CleansSent 3) s :=
    reach_of_run (fun _ _ => cleansSent_sound) reach_freshChain hs
  exact ⟨s, hs, forwardIntact_of_cleansSent ⟨7, by omega, by norm_num⟩ hreach rfl⟩

/-- The log that waits in `sending_queue` is freed by `clean_log`. -/
theorem not_forwardIntact_cleaned :
    ∃ s, Reach (chainSystem 3 128) FreshTags s ∧ nodeClass 3 1 = .NORMAL ∧
      ¬ ForwardIntact s 1 := by
  have hsome : ((run (chainSystem 3 128) freshTags (freshChain 128)
      (writeLog shortLog 1 ++ forwardLog 0 1 ++ readLog 1 2 ++ [.reader 1 .cleanLog])).any
      fun s => decide (0 ∈ (s 1).sender.sending) && ((s 1).receiver.entries 0).isNone) = true := by
    decide +kernel
  obtain ⟨s, -, hreach, hs⟩ := reach_of_run_any
    (fun _ _ => freshTags_sound) reach_freshChain hsome
  rw [Bool.and_eq_true, decide_eq_true_eq, Option.isNone_iff_eq_none] at hs
  refine ⟨s, hreach, rfl, ?_⟩
  intro hintact
  obtain ⟨e, he, _⟩ := hintact.intact 0 (List.mem_append_right _ hs.1)
  rw [hs.2] at he
  cases he

end RdmaMiddleware.Chain
