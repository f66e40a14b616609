import RdmaMiddleware.StoredLogs

/-!
# Delivery from the head to the second node

Completion of a value is detected by its tag byte alone, and the reader never clears
what it has read. Delivery is in order, complete and unaltered in every run in which
the tag cell of each log does not already hold a 1 when its space is reserved. Without
that condition the reader moves a log before `NIC_thread` has written its value.
-/
namespace RdmaMiddleware.Chain
open CInt CircularMemory LogBuffer MidHashmap UnlockQueue TransitionSystem RingReservation

/-! ## The property -/

/-- The logs for which `head_node_write_log` returned true, as the receiver should see them. -/
def acceptedBytes (sd : Sender) : List (List UInt8 × List UInt8) :=
  sd.handed.filterMap fun id =>
    (sd.writer.logs[id]?).map fun l => (l.1.keyBytes, l.1.valueBytes)

def Sender.finishedIds (sd : Sender) : List ℕ := sd.finished.map Prod.fst

/-- What the second node obtains is a prefix of what was accepted, and nothing is moved to
`executing_queue` before its `rb_write_data` has completed. -/
structure Delivered (s : State) : Prop where
  in_order : (s 1).receiver.obtained <+: acceptedBytes (s 0).sender
  not_early : ∀ j < (s 1).receiver.received.length, j ∈ (s 0).sender.finishedIds

/-- The total length of every log written fits an `int`. -/
def LogsFit (_ : State) (a : Action) : Prop := ∀ log, a = .head (.write log) → log.Fits

/-- The logs written fit an `int`, and whenever space for one is reserved, its tag cell
does not hold a 1 left there by an earlier lap. -/
def FreshTags (s : State) (a : Action) : Prop :=
  LogsFit s a ∧
    ∀ wa log, a = .head wa → reserving (s 0).sender.writer (s 1).receiver.ring wa = some log →
      (s 1).receiver.ring.buff (ringPos (s 1).receiver.ring
        (s 0).sender.writer.remote.wrPointer log.mateData.valueTagOffset) ≠ 1

/-! ## The invariant -/

/-- The log `NIC_thread` is working on. -/
def Nic.current : Nic → List ℕ
  | .idle => []
  | .taken id => [id]
  | .writing id _ _ _ _ => [id]

/-- The logs handed over are taken and finished in increasing order. -/
structure HandedInv (sd : Sender) (moved : ℕ) : Prop where
  sorted : sd.handed.Pairwise (· < ·)
  lt_bound : ∀ id ∈ sd.handed, id < handedBound sd.writer
  taken_eq : sd.handed = sd.taken ++ sd.sending
  finished_eq : sd.taken = sd.finishedIds ++ sd.nic.current
  moved_done : ∀ j < moved, j ∈ sd.finishedIds

/-- How far the value of a log has been written. -/
def NicInv (N : ℕ) (logs : List (HeadLog × ℕ)) (nic : Nic) (buff : ℕ → UInt8) : Prop :=
  match nic with
  | .writing id src passed len pos => ∃ l, logs[id]? = some l ∧ src = .own l.1.valueBytes ∧
      l.1.valueBytes.take passed.length = passed ∧ passed.length + len = l.1.valueLen ∧
      0 < len ∧ pos ≤ N ∧ pos % N = (offset logs id + l.1.sendLen + passed.length) % N ∧
      Holds buff N (offset logs id + l.1.sendLen) passed
  | _ => True

/-- The uncleaned entries are those of the given metadata and positions. -/
def IsLive (r : Receiver) (live : List LogEntry) : Prop :=
  r.nextEntry = r.cleaned + live.length ∧
    ∀ (i : ℕ) (e : LogEntry), live[i]? = some e → ∃ e', r.entries (r.cleaned + i) = some e' ∧
      e'.mateData = e.mateData ∧ e'.logPos = e.logPos

structure DeliveryInv (N : ℕ) (sd : Sender) (r : Receiver) : Prop where
  queue : QueueInv r
  ring : ∃ live, IsLive r live ∧ RingInv N sd.writer r.ring r.scanPos r.cleaned live
  handed : HandedInv sd r.received.length
  bytes : RingBytes N sd.writer sd.finishedIds r.cleaned r.ring.buff
  nic : NicInv N sd.writer.logs sd.nic r.ring.buff
  keys : ∀ (j : ℕ) (e : LogEntry), r.cleaned ≤ j → j < r.nextEntry → r.entries j = some e →
    ∃ l : HeadLog × ℕ, sd.writer.logs[j]? = some l ∧
      KeyStored N (offset sd.writer.logs j) r.keyCopies j e l.1
  values : ∀ (j : ℕ) (e : LogEntry), r.cleaned ≤ j → j < r.received.length →
    r.entries j = some e → ∃ l : HeadLog × ℕ, sd.writer.logs[j]? = some l ∧
      ValueStored N (offset sd.writer.logs j) r.valueCopies j e l.1
  received : ∀ (j : ℕ) (v : List UInt8), r.received[j]? = some v →
    ∃ l : HeadLog × ℕ, sd.writer.logs[j]? = some l ∧ v = l.1.valueBytes
  obtained : ∀ (j : ℕ) (p : List UInt8 × List UInt8), r.obtained[j]? = some p →
    ∃ l : HeadLog × ℕ, sd.writer.logs[j]? = some l ∧ p = (l.1.keyBytes, l.1.valueBytes)

variable {N : ℕ} {sd sd' : Sender} {r r' : Receiver} {moved : ℕ}

theorem HandedInv.done_lt (h : HandedInv sd moved) {id : ℕ} (hid : id ∈ sd.finishedIds) :
    id < sd.writer.logs.length := by
  have hmem : id ∈ sd.handed := by
    rw [h.taken_eq, h.finished_eq]
    simp [hid]
  have := h.lt_bound id hmem
  have := handedBound_le sd.writer
  omega

/-- The log in the hands of `NIC_thread` is not finished, hence not cleaned. -/
theorem HandedInv.current_not_done (h : HandedInv sd moved) {id : ℕ}
    (hid : sd.nic.current = [id]) : id ∉ sd.finishedIds := by
  have hsorted := h.sorted
  rw [h.taken_eq, h.finished_eq, hid, List.append_assoc, List.pairwise_append] at hsorted
  intro hmem
  exact absurd (hsorted.2.2 id hmem id (by simp)) (lt_irrefl id)

/-- A sorted list that contains all numbers below `m` starts with them. -/
theorem range_prefix_of_sorted {l : List ℕ} (hs : l.Pairwise (· < ·)) {m : ℕ}
    (hm : ∀ j < m, j ∈ l) : ∃ rest, l = List.range m ++ rest := by
  induction m with
  | zero => exact ⟨l, rfl⟩
  | succ m ih =>
    obtain ⟨rest, rfl⟩ := ih fun j hj => hm j (by omega)
    rw [List.pairwise_append] at hs
    obtain ⟨-, hrest, hcross⟩ := hs
    have hmem : m ∈ rest := by
      rcases List.mem_append.mp (hm m (by omega)) with hmem | hmem
      · simp at hmem
      · exact hmem
    cases rest with
    | nil => simp at hmem
    | cons x rest =>
      have hx : x = m := by
        rcases Nat.lt_trichotomy x m with hlt | heq | hgt
        · exact absurd (hcross x (by simpa using hlt) x (by simp)) (lt_irrefl x)
        · exact heq
        · rcases List.mem_cons.mp hmem with heq | hmem
          · exact heq.symm
          · exact absurd ((List.pairwise_cons.mp hrest).1 m hmem) (by omega)
      subst hx
      exact ⟨rest, by rw [List.range_succ, List.append_assoc, List.singleton_append]⟩

/-- Collecting the entries of a list by their numbers. -/
theorem filterMap_range_eq {α : Type*} {f : ℕ → Option α} {l : List α}
    (h : ∀ (j : ℕ) (a : α), l[j]? = some a → f j = some a) :
    (List.range l.length).filterMap f = l := by
  induction l using List.reverseRecOn with
  | nil => rfl
  | append_singleton l a ih =>
    have hlast : f l.length = some a := h _ a (by simp)
    have hfirst := ih fun j b hb => h j b (by
      rwa [List.getElem?_append_left (List.getElem?_eq_some_iff.mp hb).1])
    rw [List.length_append, List.length_singleton, List.range_succ, List.filterMap_append, hfirst]
    simp [hlast]

namespace DeliveryInv

theorem size_pos (h : DeliveryInv N sd r) : 0 < N := by
  obtain ⟨live, _, hring⟩ := h.ring
  exact hring.size_pos

/-- Everything the receiver has scanned is published. -/
theorem scanned_le (h : DeliveryInv N sd r) : r.nextEntry ≤ sd.writer.published := by
  obtain ⟨live, hlive, hring⟩ := h.ring
  rw [hlive.1]
  exact hring.scanned_le

/-- The property of the pair of nodes. -/
theorem delivered (h : DeliveryInv N sd r) :
    r.obtained <+: acceptedBytes sd ∧ ∀ j < r.received.length, j ∈ sd.finishedIds := by
  refine ⟨?_, h.handed.moved_done⟩
  have hsub : ∀ j < r.obtained.length, j ∈ sd.handed := by
    intro j hj
    have hmem := h.handed.moved_done j (by have := h.queue.obtained_le; omega)
    rw [h.handed.taken_eq, h.handed.finished_eq]
    simp [hmem]
  obtain ⟨rest, hrest⟩ := range_prefix_of_sorted h.handed.sorted hsub
  have hobtained := filterMap_range_eq (l := r.obtained)
    (f := fun id => (sd.writer.logs[id]?).map fun l => (l.1.keyBytes, l.1.valueBytes)) (by
      intro j p hp
      obtain ⟨l, hl, rfl⟩ := h.obtained j p hp
      simp [hl])
  unfold acceptedBytes
  rw [hrest, List.filterMap_append, hobtained]
  exact List.prefix_append _ _

/-! ### The head's steps -/

theorem scanPos_ring {b : LocalRingbuff} (h : b.rdKeyPointer = r.ring.rdKeyPointer) :
    ({ r with ring := b } : Receiver).scanPos = r.scanPos := by
  unfold Receiver.scanPos
  cases r.phase <;> simp [h]

/-- The tag cell that the model's condition speaks about. -/
theorem tag_cell (h : DeliveryInv N sd r) (hcalm : sd.writer.pc.calm = true) {log : HeadLog}
    (hfits : log.Fits) :
    ringPos r.ring sd.writer.remote.wrPointer log.mateData.valueTagOffset =
      (offset sd.writer.logs sd.writer.logs.length + log.totalLen - 1) % N := by
  obtain ⟨live, _, hring⟩ := h.ring
  have hwr : sd.writer.remote.wrPointer % N = offset sd.writer.logs sd.writer.logs.length % N :=
    reservedBytes_of_calm hcalm ▸ hring.remote_wr
  rw [valueTagOffset_eq hfits, hring.ringPos_eq hwr, Nat.add_sub_assoc (totalLen_pos log)]

theorem reserving_spec {w : Writer} {b : LocalRingbuff} {a : WriterAction} {log : HeadLog}
    (h : reserving w b a = some log) : w.pc = .checked log := by
  cases a with
  | recheck readOk =>
    cases hpc : w.pc with
    | checked log' =>
      simp only [reserving, hpc] at h
      split_ifs at h <;> rw [Option.some.inj h]
    | _ => simp [reserving, hpc] at h
  | _ => simp [reserving] at h

theorem head (h : DeliveryInv N sd r) {a : WriterAction} {w : Writer} {b : LocalRingbuff}
    (hstep : writerStep sd.writer r.ring a = some (w, b))
    (hfresh : ∀ log, reserving sd.writer r.ring a = some log →
      r.ring.buff (ringPos r.ring sd.writer.remote.wrPointer log.mateData.valueTagOffset) ≠ 1) :
    DeliveryInv N { sd with writer := w } { r with ring := b } := by
  obtain ⟨live, hlive, hring⟩ := h.ring
  obtain ⟨⟨ls, hlogs⟩, hkey, hrd, hsize⟩ := writerStep_frame hstep
  have heffect := writerEffect_of_step hring hstep
  have hpub := h.scanned_le
  have hpublished := hring.published_le
  have hreceived := h.queue.received_le
  have hkeep : ∀ (j : ℕ) (l : HeadLog × ℕ), sd.writer.logs[j]? = some l →
      w.logs[j]? = some l ∧ offset w.logs j = offset sd.writer.logs j := by
    intro j l hl
    have hlt := (List.getElem?_eq_some_iff.mp hl).1
    rw [hlogs, List.getElem?_append_left hlt, offset_append hlt.le]
    exact ⟨hl, rfl⟩
  refine {
    queue := h.queue.with_ring b
    ring := ⟨live, hlive, ?_⟩
    handed := ?_
    bytes := ?_
    nic := ?_
    keys := ?_
    values := ?_
    received := ?_
    obtained := ?_ }
  · rw [scanPos_ring hkey]
    exact hring.writer hstep
  · have hmono := handedBound_mono hstep
    exact { h.handed with
      lt_bound := fun id hid => lt_of_lt_of_le (h.handed.lt_bound id hid) hmono }
  · refine RingBytes.writer hring h.bytes (fun id hid => h.handed.done_lt hid) heffect ?_
    intro log hlog
    have hpc := reserving_spec hlog
    have hfits : log.Fits := by
      cases a with
      | recheck readOk =>
        by_contra hnot
        simp [writerStep, hpc, hnot] at hstep
      | _ => simp [reserving] at hlog
    rw [← h.tag_cell (by rw [hpc]; rfl) hfits]
    exact hfresh log hlog
  · have hnic := h.nic
    unfold NicInv at hnic ⊢
    cases hn : sd.nic with
    | writing id src passed len pos =>
      simp only [hn] at hnic ⊢
      obtain ⟨l, hl, hsrc, htake, hlen, hpos, hle, hmod, hheld⟩ := hnic
      obtain ⟨hl', hoff⟩ := hkeep id l hl
      refine ⟨l, hl', hsrc, htake, hlen, hpos, hle, by rw [hoff]; exact hmod, ?_⟩
      rw [hoff]
      have hid : r.cleaned ≤ id := by
        by_contra hlt
        exact h.handed.current_not_done (by rw [hn]; rfl) (h.handed.moved_done id (by
          have := h.queue.cleaned_le
          have := h.queue.obtained_le
          omega))
      show Holds b.buff N _ passed
      generalize b.buff = buff at heffect
      cases heffect with
      | quiet _ _ => exact hheld
      | reserve _ _ _ => exact hheld
      | count _ _ _ => exact hheld
      | @chunk c x bs _ hcur _ hx hx' hfit =>
        have hwin := hring.window
        rw [claimedBytes_of_some hcur] at hwin
        have hfreed := offset_mono sd.writer.logs hid
        have hend := offset_add_le hl (List.getElem?_eq_some_iff.mp hl).1
        have hl' : l.1.totalLen = l.1.sendLen + l.1.valueLen := rfl
        have hc : c.1.totalLen = c.1.sendLen + c.1.valueLen := rfl
        exact hheld.write_other (offset sd.writer.logs r.cleaned) hfit (by omega) (by omega)
          (by omega) (by omega) (.inl (by omega))
    | _ => trivial
  · intro j e hj hlt he
    obtain ⟨l, hl, hk⟩ := h.keys j e hj hlt he
    obtain ⟨hl', hoff⟩ := hkeep j l hl
    exact ⟨l, hl', by rw [hoff]; exact hk⟩
  · intro j e hj hlt he
    obtain ⟨l, hl, hk⟩ := h.values j e hj hlt he
    obtain ⟨hl', hoff⟩ := hkeep j l hl
    exact ⟨l, hl', by rw [hoff]; exact hk⟩
  · intro j v hv
    obtain ⟨l, hl, hk⟩ := h.received j v hv
    exact ⟨l, (hkeep j l hl).1, hk⟩
  · intro j p hp
    obtain ⟨l, hl, hk⟩ := h.obtained j p hp
    exact ⟨l, (hkeep j l hl).1, hk⟩

theorem enqueue (h : DeliveryInv N sd r) (hstep : enqueue sd = some sd') :
    DeliveryInv N sd' r := by
  obtain ⟨live, hlive, hring⟩ := h.ring
  cases hpc : sd.writer.pc with
  | enqueueing =>
    have hcalm : sd.writer.pc.calm = true := by rw [hpc]; rfl
    have hring' := hring.calm hcalm .idle rfl (by simp) sd.writer.remote.rdPointer
    have hbytes : RingBytes N { sd.writer with pc := .idle } sd.finishedIds r.cleaned r.ring.buff :=
      ⟨h.bytes.tag, by simp [WriterPc.current], h.bytes.value⟩
    have hbound : handedBound sd.writer = sd.writer.logs.length - 1 := by simp [handedBound, hpc]
    have hlt : ∀ id ∈ sd.handed, id < sd.writer.logs.length - 1 := fun id hid =>
      hbound ▸ h.handed.lt_bound id hid
    simp only [Chain.enqueue, hpc] at hstep
    split at hstep
    · cases hstep
      exact { h with
        ring := ⟨live, hlive, hring'⟩
        handed := { h.handed with
          lt_bound := fun id hid => by
            have := hlt id hid
            show id < sd.writer.logs.length
            omega }
        bytes := hbytes }
    · rename_i sending hput
      unfold boundedPut at hput
      split_ifs at hput
      cases hput
      cases hstep
      have hpos : 0 < sd.writer.logs.length := by
        have hinv := hring.pc_inv
        simp only [PcInv, hpc] at hinv
        exact List.length_pos_of_ne_nil hinv.2
      exact { h with
        ring := ⟨live, hlive, hring'⟩
        handed := {
          sorted := by
            rw [List.pairwise_append]
            exact ⟨h.handed.sorted, by simp, fun x hx y hy => by
              rw [List.mem_singleton.mp hy]
              exact hlt x hx⟩
          lt_bound := fun id hid => by
            show id < sd.writer.logs.length
            rcases List.mem_append.mp hid with hid | hid
            · have := hlt id hid
              omega
            · rw [List.mem_singleton.mp hid]
              omega
          taken_eq := by
            show sd.handed ++ _ = sd.taken ++ (sd.sending ++ _)
            rw [h.handed.taken_eq, List.append_assoc]
          finished_eq := h.handed.finished_eq
          moved_done := h.handed.moved_done }
        bytes := hbytes }
  | _ => simp [Chain.enqueue, hpc] at hstep

/-! ### The steps of `NIC_thread` -/

theorem current_ge (h : DeliveryInv N sd r) {id : ℕ} (hid : sd.nic.current = [id]) :
    r.cleaned ≤ id := by
  by_contra hlt
  have := h.queue.cleaned_le
  have := h.queue.obtained_le
  exact h.handed.current_not_done hid (h.handed.moved_done id (by omega))

/-- The next bytes of a value go to their place behind the bytes already written. -/
theorem holds_extend {N x p : ℕ} {buff : ℕ → UInt8} {as : List UInt8} (lo : ℕ)
    (bs : List UInt8) (hN : 0 < N) (hheld : Holds buff N x as)
    (hp : p % N = (x + as.length) % N) (hfit : p + bs.length ≤ N)
    (hlo : lo ≤ x) (hhi : x + as.length + bs.length ≤ lo + N) :
    (x + as.length) % N + bs.length ≤ N ∧
      writeBytes buff p bs = writeBytes buff ((x + as.length) % N) bs ∧
      Holds (writeBytes buff p bs) N x (as ++ bs) := by
  obtain ⟨hfit', heq⟩ := writeBytes_pos hN buff bs hp hfit
  refine ⟨hfit', heq, ?_⟩
  rw [heq, holds_append]
  exact ⟨hheld.write_other lo hfit' (by omega) (by omega) hlo (by omega) (.inl le_rfl),
    Holds.write_self _ _ hfit'⟩

theorem nicWrite (h : DeliveryInv N sd r) {r₀ : Receiver} {buff : ℕ → UInt8} {id : ℕ}
    {src : Source} {passed : List UInt8} {len p : ℕ} (hn : sd.nic = .writing id src passed len p)
    (hstep : nicStep .HEAD r₀ sd r.ring.buff .write = some (sd', buff)) :
    DeliveryInv N sd' (r.withBuff buff) := by
  obtain ⟨live, hlive, hring⟩ := h.ring
  have hcur : sd.nic.current = [id] := by rw [hn]; rfl
  have hid := h.current_ge hcur
  have hnot := h.handed.current_not_done hcur
  have hnic := h.nic
  simp only [NicInv, hn] at hnic
  obtain ⟨l, hl, rfl, htake, hlen, hpos, hp, hmod, hheld⟩ := hnic
  have hN := h.size_pos
  have hend := offset_add_le hl (List.getElem?_eq_some_iff.mp hl).1
  have hwin := hring.end_lt
  have hfreed := offset_mono sd.writer.logs hid
  have htotal : l.1.totalLen = l.1.sendLen + l.1.valueLen := rfl
  have hdrop : (l.1.valueBytes.drop passed.length).length = len := by simp; omega
  simp only [nicStep, hn, hring.remote_size, sourceBytes] at hstep
  by_cases hwrap : N < p + len
  · rw [if_pos hwrap, Option.some.injEq, Prod.mk.injEq] at hstep
    obtain ⟨rfl, rfl⟩ := hstep
    obtain ⟨bs, hbs⟩ : ∃ bs, bs = (l.1.valueBytes.drop passed.length).take (N - p) := ⟨_, rfl⟩
    have hbslen : bs.length = N - p := by rw [hbs, List.length_take, hdrop]; omega
    rw [← hbs]
    obtain ⟨hfit, heq, hheld'⟩ := holds_extend (offset sd.writer.logs r.cleaned) bs hN hheld hmod
      (by omega) (by omega) (by omega)
    have hinv := hring.value_write hid hl (by omega) (by omega) hfit
    have hbytes := h.bytes.value_write sd.finishedIds hring hid hl (by omega) (by omega) hfit
      (fun _ _ => Iff.rfl)
      (fun _ => by
        unfold tagPos
        rw [write_at_other (offset sd.writer.logs r.cleaned) r.ring.buff bs hfit (by omega)
          (by omega) (by omega) (by omega) (.inr (by omega))]
        exact h.bytes.tag id l hid hl hnot)
      (fun hmem => absurd hmem hnot)
    rw [← heq] at hinv hbytes
    exact { h with
      queue := h.queue.with_ring _
      ring := ⟨live, hlive, hinv⟩
      handed := { h.handed with finished_eq := by rw [h.handed.finished_eq, hcur]; rfl }
      bytes := hbytes
      nic := ⟨l, hl, rfl, by
          rw [List.length_append, hbslen, List.take_add, htake, ← hbs],
        by rw [List.length_append, hbslen]; omega, by omega, Nat.zero_le _, by
          rw [List.length_append, hbslen, ← Nat.add_assoc, ← Nat.mod_add_mod, ← hmod,
            Nat.mod_add_mod, show p + (N - p) = N by omega, Nat.mod_self, Nat.zero_mod],
        hheld'⟩ }
  · rw [if_neg hwrap, Option.some.injEq, Prod.mk.injEq] at hstep
    obtain ⟨rfl, rfl⟩ := hstep
    obtain ⟨bs, hbs⟩ : ∃ bs, bs = l.1.valueBytes.drop passed.length := ⟨_, rfl⟩
    have hbslen : bs.length = len := by rw [hbs, hdrop]
    rw [List.take_of_length_le (by omega), ← hbs]
    have hall : passed ++ bs = l.1.valueBytes := by
      rw [hbs]
      nth_rewrite 1 [← htake]
      exact List.take_append_drop _ _
    obtain ⟨hfit, heq, hheld'⟩ := holds_extend (offset sd.writer.logs r.cleaned) bs hN hheld hmod
      (by omega) (by omega) (by omega)
    have hinv := hring.value_write hid hl (by omega) (by omega) hfit
    have hbytes := h.bytes.value_write (sd.finishedIds ++ [id]) hring hid hl (by omega) (by omega)
      hfit (fun k hk => by simp [hk]) (fun hmem => absurd (by simp) hmem)
      (fun _ => by rw [← heq, ← hall]; exact hheld')
    rw [← heq] at hinv hbytes
    have hfinished : Sender.finishedIds
        { sd with nic := .idle, finished := sd.finished ++ [(id, passed ++ bs)] } =
        sd.finishedIds ++ [id] := by simp [Sender.finishedIds]
    exact { h with
      queue := h.queue.with_ring _
      ring := ⟨live, hlive, hinv⟩
      handed := { h.handed with
        finished_eq := by
          rw [hfinished, h.handed.finished_eq, hcur, Nic.current, List.append_nil]
        moved_done := fun j hj => by
          rw [hfinished]
          exact List.mem_append_left _ (h.handed.moved_done j hj) }
      bytes := by
        rw [hfinished]
        exact hbytes
      nic := trivial }

theorem nic_step (h : DeliveryInv N sd r) {r₀ : Receiver} {a : NicAction} {buff : ℕ → UInt8}
    (hstep : nicStep .HEAD r₀ sd r.ring.buff a = some (sd', buff)) :
    DeliveryInv N sd' (r.withBuff buff) := by
  obtain ⟨live, hlive, hring⟩ := h.ring
  cases a with
  | take =>
    cases hn : sd.nic with
    | idle =>
      cases hs : sd.sending with
      | nil => simp [nicStep, hn, hs] at hstep
      | cons id rest =>
        simp only [nicStep, hn, hs, Option.some.injEq, Prod.mk.injEq] at hstep
        obtain ⟨rfl, rfl⟩ := hstep
        exact { h with
          handed := { h.handed with
            taken_eq := by
              show sd.handed = sd.taken ++ [id] ++ rest
              rw [h.handed.taken_eq, hs, List.append_assoc, List.singleton_append]
            finished_eq := by
              show sd.taken ++ [id] = sd.finishedIds ++ [id]
              rw [h.handed.finished_eq, hn, Nic.current, List.append_nil] }
          nic := trivial }
    | _ => simp [nicStep, hn] at hstep
  | start =>
    cases hn : sd.nic with
    | taken id =>
      cases hl : sd.writer.logs[id]? with
      | none => simp [nicStep, hn, nicLog, hl] at hstep
      | some l =>
        simp only [nicStep, hn, nicLog, hl, Option.map_some, Option.some.injEq,
          Prod.mk.injEq] at hstep
        obtain ⟨rfl, rfl⟩ := hstep
        have hfits := hring.fits id l hl
        have hlt := mask_lt hring.ring_size ((l.2 : ℤ) + l.1.mateData.valueOffset)
        rw [hring.remote_size]
        exact { h with
          handed := { h.handed with finished_eq := by rw [h.handed.finished_eq, hn]; rfl }
          nic := ⟨l, hl, rfl, by simp, by simp [valueLength_toNat hfits], by
              rw [valueLength_toNat hfits]
              have := l.1.valueLen_ge
              omega,
            hlt.le, by
              rw [valueOffset_eq hfits, ← Nat.cast_add, mask_natCast hring.ring_size, Nat.mod_mod,
                ← Nat.mod_add_mod, hring.log_pos id l hl, Nat.mod_add_mod]
              simp,
            holds_nil _ _ _⟩ }
    | _ => simp [nicStep, hn] at hstep
  | write =>
    cases hn : sd.nic with
    | writing id src passed len p => exact h.nicWrite hn hstep
    | _ => simp [nicStep, hn] at hstep

/-! ### The reader's moves -/

/-- The entry of an uncleaned log describes that log. -/
theorem entry (h : DeliveryInv N sd r) {j : ℕ} {e : LogEntry} (hj : r.cleaned ≤ j)
    (hlt : j < r.nextEntry) (he : r.entries j = some e) :
    ∃ l : HeadLog × ℕ, sd.writer.logs[j]? = some l ∧ l.1.Fits ∧ e.mateData = l.1.mateData ∧
      e.logPos = offset sd.writer.logs j % N ∧
      KeyStored N (offset sd.writer.logs j) r.keyCopies j e l.1 ∧
      Holds r.ring.buff N (offset sd.writer.logs j) l.1.mateBytes := by
  obtain ⟨live, _, hring⟩ := h.ring
  obtain ⟨l, hl, hk⟩ := h.keys j e hj hlt he
  exact ⟨l, hl, hring.fits j l hl, hk.1, hk.2.1, hk, hring.mate_holds j l hj hl⟩

theorem key (h : DeliveryInv N sd r) {limits readNum pos : ℕ} {dirtyMap : HashMap Addr ℕ}
    {dirty valuePeeding : List ℕ} {keys : List Str} {phase : Phase}
    (hphase : r.phase = .keys limits readNum pos)
    (hcount : sizeofLogMateData ≤ r.ring.countSize pos)
    (hnext : phase = .keys limits (readNum + 1)
      (ringPos r.ring pos (readLogEntry r.ring pos r.nextEntry).mateData.nextOffset))
    (hqueue : QueueInv { allocEntry r pos with
      dirtyMap := dirtyMap, dirty := dirty, valuePeeding := valuePeeding, phase := phase
      keys := keys }) :
    DeliveryInv N sd { allocEntry r pos with
      dirtyMap := dirtyMap, dirty := dirty, valuePeeding := valuePeeding, phase := phase
      keys := keys } := by
  obtain ⟨live, hlive, hring⟩ := h.ring
  have hpos : r.scanPos = pos := by simp [Receiver.scanPos, hphase]
  rw [hpos] at hring
  have hlt := hring.scan_lt (by simp [sizeofLogMateData] at hcount; omega)
  have hpub := hring.published_le
  have hreceived := h.queue.received_le
  have hother : ∀ j, j ≠ r.nextEntry → (allocEntry r pos).entries j = r.entries j :=
    fun _ => allocEntry_entries_of_ne r pos
  refine { h with
    queue := hqueue
    ring := ⟨live ++ [readLogEntry r.ring pos r.nextEntry], ⟨?_, ?_⟩, ?_⟩
    keys := ?_
    values := ?_ }
  · show r.nextEntry + 1 = r.cleaned + (live ++ [_]).length
    simp [hlive.1]
    omega
  · intro i e he
    rcases getElem?_concat_cases he with he | ⟨rfl, rfl⟩
    · have hi := (List.getElem?_eq_some_iff.mp he).1
      obtain ⟨e', he', hm⟩ := hlive.2 i e he
      refine ⟨e', ?_, hm⟩
      show (allocEntry r pos).entries (r.cleaned + i) = some e'
      rw [hother _ (by have := hlive.1; omega)]
      exact he'
    · refine ⟨_, ?_, rfl, rfl⟩
      show (allocEntry r pos).entries (r.cleaned + live.length) = _
      rw [← hlive.1]
      exact allocEntry_entries_self r pos
  · subst hnext
    exact hring.scan hcount _
  · intro j e hj hjlt he
    by_cases hjn : j = r.nextEntry
    · subst hjn
      obtain ⟨l, hl⟩ : ∃ l, sd.writer.logs[r.cleaned + live.length]? = some l :=
        ⟨_, List.getElem?_eq_getElem (by omega)⟩
      obtain rfl := Option.some.inj ((allocEntry_entries_self r pos).symm.trans he)
      have hstored := keyStored_read hring hl hlt (@allocEntry_keyCopies_self r pos)
      rw [← hlive.1] at hl hstored
      exact ⟨l, hl, hstored⟩
    · have hold : r.entries j = some e := (hother j hjn).symm.trans he
      have hjlt' : j < r.nextEntry + 1 := hjlt
      obtain ⟨l, hl, hk⟩ := h.keys j e hj (by omega) hold
      refine ⟨l, hl, hk.1, hk.2.1, ?_⟩
      have := hk.2.2
      rwa [← allocEntry_keyCopies_of_ne r pos hjn] at this
  · intro j e hj hjlt he
    have hjlt' : j < r.received.length := hjlt
    exact h.values j e hj hjlt ((hother j (by omega)).symm.trans he)

theorem value (h : DeliveryInv N sd r) {e : LogEntry} {executing valuePeeding : List ℕ}
    {phase : Phase} (hphase : r.scanPos = r.ring.rdKeyPointer)
    (hphase' : ∀ limits readNum pos, phase ≠ .keys limits readNum pos)
    (hlt : r.received.length < r.nextEntry) (hentry : r.entries r.received.length = some e)
    (htag : r.ring.buff (ringPos r.ring e.logPos e.mateData.valueTagOffset) = 1)
    (hqueue : QueueInv { (setValue r r.received.length e).2 with
      executing := executing, valuePeeding := valuePeeding, phase := phase
      received := r.received ++ [(setValue r r.received.length e).2.valueBytes
        (setValue r r.received.length e).1] }) :
    DeliveryInv N sd { (setValue r r.received.length e).2 with
      executing := executing, valuePeeding := valuePeeding, phase := phase
      received := r.received ++ [(setValue r r.received.length e).2.valueBytes
        (setValue r r.received.length e).1] } := by
  obtain ⟨live, hlive, hring⟩ := h.ring
  have hle : r.cleaned ≤ r.received.length := h.queue.cleaned_le.trans h.queue.obtained_le
  obtain ⟨l, hl, hfits, hm, hpos, hk, _⟩ := h.entry hle hlt hentry
  -- the tag byte reads 1, so the value has been written
  have hdone : r.received.length ∈ sd.finishedIds := by
    by_contra hnot
    have hcell : ringPos r.ring e.logPos e.mateData.valueTagOffset =
        tagPos sd.writer.logs r.received.length l % N := by
      rw [hm, valueTagOffset_eq hfits,
        hring.ringPos_eq (x := offset sd.writer.logs r.received.length)
          (by rw [hpos, Nat.mod_mod]), tagPos, Nat.add_sub_assoc (totalLen_pos l.1)]
    exact h.bytes.tag _ l hle hl hnot (hcell ▸ htag)
  have hvalue := h.bytes.value _ l hle hl hdone
  have hstored := valueStored_set hring hl hle (by have := h.scanned_le; omega) hm hpos hvalue
    r.received.length
  have hother : ∀ j, j ≠ r.received.length →
      (setValue r r.received.length e).2.entries j = r.entries j :=
    fun _ => setValue_entries_of_ne r e
  have hself := setValue_entries_self r r.received.length e
  refine {
    queue := hqueue
    ring := ⟨live, ⟨hlive.1, ?_⟩, ?_⟩
    handed := { h.handed with moved_done := ?_ }
    bytes := h.bytes
    nic := h.nic
    keys := ?_
    values := ?_
    received := ?_
    obtained := h.obtained }
  · intro i e₀ he₀
    obtain ⟨e', he', hmate, hp⟩ := hlive.2 i e₀ he₀
    by_cases hi : r.cleaned + i = r.received.length
    · obtain rfl : e = e' := Option.some.inj (hentry.symm.trans (hi ▸ he'))
      refine ⟨(setValue r r.received.length e).1, ?_, hmate, hp⟩
      show (setValue r r.received.length e).2.entries (r.cleaned + i) = _
      rw [hi]
      exact hself
    · exact ⟨e', (hother _ hi).trans he', hmate, hp⟩
  · rw [hphase] at hring
    rw [Receiver.scanPos_eq hphase']
    exact hring
  · intro j hj
    have hj' : j < (r.received ++ [_]).length := hj
    rw [List.length_append, List.length_singleton] at hj'
    rcases Nat.lt_or_ge j r.received.length with hjlt | hjge
    · exact h.handed.moved_done j hjlt
    · obtain rfl : j = r.received.length := by omega
      exact hdone
  · intro j e' hj hjlt he'
    by_cases hjm : j = r.received.length
    · subst hjm
      obtain rfl := Option.some.inj (hself.symm.trans he')
      exact ⟨l, hl, hk⟩
    · exact h.keys j e' hj hjlt ((hother j hjm).symm.trans he')
  · intro j e' hj hjlt he'
    have hjlt' : j < (r.received ++ [_]).length := hjlt
    rw [List.length_append, List.length_singleton] at hjlt'
    by_cases hjm : j = r.received.length
    · subst hjm
      obtain rfl := Option.some.inj (hself.symm.trans he')
      exact ⟨l, hl, hstored⟩
    · obtain ⟨l', hl', hv⟩ := h.values j e' hj (by omega) ((hother j hjm).symm.trans he')
      refine ⟨l', hl', ?_⟩
      unfold ValueStored at hv ⊢
      rwa [← setValue_valueCopies_of_ne r e hjm] at hv
  · intro j v hv
    rcases getElem?_concat_cases hv with hv | ⟨rfl, rfl⟩
    · exact h.received j v hv
    · exact ⟨l, hl, hstored.valueBytes_eq hfits hm hvalue⟩

theorem send (h : DeliveryInv N sd r) {e : LogEntry} {executing : List ℕ} {phase : Phase}
    (hphase : r.scanPos = r.ring.rdKeyPointer)
    (hphase' : ∀ limits readNum pos, phase ≠ .keys limits readNum pos)
    (hlt : r.obtained.length < r.received.length)
    (hentry : r.entries r.obtained.length = some e)
    (hqueue : QueueInv { r with
      executing := executing, phase := phase
      obtained := r.obtained ++ [(r.keyBytes e, r.valueBytes e)] }) :
    DeliveryInv N sd { r with
      executing := executing, phase := phase
      obtained := r.obtained ++ [(r.keyBytes e, r.valueBytes e)] } := by
  obtain ⟨live, hlive, hring⟩ := h.ring
  have hle := h.queue.cleaned_le
  have hreceived := h.queue.received_le
  obtain ⟨l, hl, hfits, hm, hpos, hk, hmate⟩ := h.entry hle (by omega) hentry
  obtain ⟨l', hl', hv⟩ := h.values _ e hle hlt hentry
  obtain rfl : l = l' := Option.some.inj (hl.symm.trans hl')
  have hvalue := h.bytes.value _ l hle hl (h.handed.moved_done _ hlt)
  refine { h with
    queue := hqueue
    ring := ⟨live, hlive, ?_⟩
    obtained := ?_ }
  · rw [hphase] at hring
    rw [Receiver.scanPos_eq hphase']
    exact hring
  · intro j p hp
    rcases getElem?_concat_cases hp with hp | ⟨rfl, rfl⟩
    · exact h.obtained j p hp
    · rw [hk.keyBytes_eq hfits hmate, hv.valueBytes_eq hfits hm hvalue]
      exact ⟨l, hl, rfl⟩

theorem clean (h : DeliveryInv N sd r) {e : LogEntry} {dirtyMap : HashMap Addr ℕ}
    {dirty : List ℕ} {phase : Phase} (hphase : r.scanPos = r.ring.rdKeyPointer)
    (hphase' : ∀ limits readNum pos, phase ≠ .keys limits readNum pos)
    (hlt : r.cleaned < r.nextEntry) (hentry : r.entries r.cleaned = some e)
    (hqueue : QueueInv { freeLog r r.cleaned e with
      dirtyMap := dirtyMap, dirty := dirty, phase := phase, cleaned := r.cleaned + 1 }) :
    DeliveryInv N sd { freeLog r r.cleaned e with
      dirtyMap := dirtyMap, dirty := dirty, phase := phase, cleaned := r.cleaned + 1 } := by
  obtain ⟨live, hlive, hring⟩ := h.ring
  have hother : ∀ j, j ≠ r.cleaned → (freeLog r r.cleaned e).entries j = r.entries j :=
    fun _ => freeLog_entries_of_ne r e
  cases live with
  | nil =>
    have := hlive.1
    simp at this
    omega
  | cons e₀ rest =>
    obtain ⟨e', he', hm, _⟩ := hlive.2 0 e₀ rfl
    obtain rfl : e = e' := Option.some.inj (hentry.symm.trans he')
    have hfree : freeRing r.ring e = freeRing r.ring e₀ := by simp [freeRing, hm]
    refine {
      queue := hqueue
      ring := ⟨rest, ⟨?_, ?_⟩, ?_⟩
      handed := h.handed
      bytes := h.bytes.free
      nic := h.nic
      keys := ?_
      values := ?_
      received := h.received
      obtained := h.obtained }
    · have := hlive.1
      rw [List.length_cons] at this
      show r.nextEntry = r.cleaned + 1 + rest.length
      omega
    · intro i e₁ he₁
      obtain ⟨e', he', hm'⟩ := hlive.2 (i + 1) e₁ he₁
      refine ⟨e', ?_, hm'⟩
      show (freeLog r r.cleaned e).entries (r.cleaned + 1 + i) = some e'
      rw [hother _ (by omega), ← he', show r.cleaned + 1 + i = r.cleaned + (i + 1) by omega]
    · rw [Receiver.scanPos_eq hphase']
      show RingInv N sd.writer (freeRing r.ring e) r.ring.rdKeyPointer (r.cleaned + 1) rest
      rw [hfree, ← hphase]
      exact hring.free
    · intro j e' hj hjlt he'
      have hj' : r.cleaned + 1 ≤ j := hj
      obtain ⟨l, hl, hk⟩ := h.keys j e' (by omega) hjlt ((hother j (by omega)).symm.trans he')
      refine ⟨l, hl, hk.1, hk.2.1, ?_⟩
      have := hk.2.2
      rwa [← freeLog_keyCopies_of_ne r fun _ => show j ≠ r.cleaned by omega] at this
    · intro j e' hj hjlt he'
      have hj' : r.cleaned + 1 ≤ j := hj
      obtain ⟨l, hl, hv⟩ := h.values j e' (by omega) hjlt ((hother j (by omega)).symm.trans he')
      refine ⟨l, hl, ?_⟩
      unfold ValueStored at hv ⊢
      rwa [← freeLog_valueCopies_of_ne r e (show j ≠ r.cleaned by omega)] at hv

/-- Every move of the reader keeps the invariant. -/
theorem move (h : DeliveryInv N sd r) {handed : Option ℕ} (hm : ReaderMove r r' handed) :
    DeliveryInv N sd r' := by
  have hqueue := h.queue.of_move hm
  cases hm with
  | @stay phase p hpos hphase =>
    obtain ⟨live, hlive, hring⟩ := h.ring
    refine { h with
      queue := hqueue
      ring := ⟨live, hlive, ?_⟩ }
    rw [hpos]
    exact hring.setRdKey p
  | key hphase hcount hmap hroom => exact h.key hphase hcount rfl hqueue
  | value hphase hlist hentry htag =>
    obtain ⟨-, hpos, -⟩ := range'_eq_cons (h.queue.peeding_eq.symm.trans hlist)
    exact h.value (by simp [Receiver.scanPos, hphase]) (by simp) (by omega) hentry htag hqueue
  | send hphase hlist hentry =>
    obtain ⟨-, hpos, -⟩ := range'_eq_cons (h.queue.executing_eq.symm.trans hlist)
    exact h.send (by simp [Receiver.scanPos, hphase]) (by simp) (by omega) hentry hqueue
  | clean hphase hlist hentry hdirty hmap =>
    obtain ⟨-, hpos, -⟩ := range'_eq_cons (h.queue.dirty_eq.symm.trans hlist)
    refine h.clean (by simp [Receiver.scanPos, hphase]) ?_ (by omega) hentry hqueue
    intro limits readNum pos
    unfold afterRead
    split_ifs <;> simp

/-- A freshly started pair of nodes. -/
theorem fresh (hN : IsRingSize N) (buff buff' : ℕ → UInt8) (junk junk' : Addr → ℕ → UInt8) :
    DeliveryInv N (freshNode N buff junk).sender (freshNode N buff' junk').receiver where
  queue := QueueInv.fresh N buff' junk'
  ring := ⟨[], ⟨rfl, by simp⟩,
    { ring_size := hN
      local_size := rfl
      remote_size := rfl
      fits := by simp [freshNode]
      log_pos := by simp [freshNode]
      mate_holds := by simp [freshNode]
      pc_inv := by simp [PcInv, freshNode]
      published_le := le_rfl
      scanned_le := le_rfl
      window := by simpa [freshNode, claimedBytes, claimedLogs, WriterPc.current] using hN.pos
      remote_wr_le := Nat.zero_le _
      remote_wr := rfl
      local_wr_le := Nat.zero_le _
      local_wr := rfl
      local_rd := rfl
      pos_eq := rfl
      live_eq := by simp }⟩
  handed :=
    { sorted := List.Pairwise.nil
      lt_bound := by simp [freshNode]
      taken_eq := rfl
      finished_eq := rfl
      moved_done := by simp [freshNode] }
  bytes :=
    { tag := by simp [freshNode]
      tag_current := by simp [freshNode, WriterPc.current]
      value := by simp [freshNode] }
  nic := trivial
  keys := fun j _ _ hlt => absurd hlt (Nat.not_lt_zero j)
  values := fun j _ _ hlt => absurd hlt (Nat.not_lt_zero j)
  received := by simp [freshNode]
  obtained := by simp [freshNode]

end DeliveryInv

/-! ## Runs -/

/-- A step of the chain at the head's link. -/
theorem DeliveryInv.step {n : ℕ} {s t : State} {a : Action}
    (h : DeliveryInv N (s 0).sender (s 1).receiver) (hfresh : FreshTags s a)
    (ht : Chain.step n s a = some t) : DeliveryInv N (t 0).sender (t 1).receiver := by
  cases linkStep_of_step ht 0 with
  | head _ hstep hs hr =>
    rw [hs, hr]
    exact h.head hstep fun log hlog => hfresh.2 _ log rfl hlog
  | enqueue _ hstep hr =>
    rw [hr]
    exact h.enqueue hstep
  | nic hn hstep hr =>
    have hclass : nodeClass n 0 = .HEAD := by
      rw [nodeClass, if_neg (by omega), if_pos rfl]
    rw [hr]
    exact h.nic_step (hclass ▸ hstep)
  | read hstep hs =>
    rw [hs]
    exact h.move (h.queue.move hstep)
  | hand hi => exact absurd rfl hi
  | other hs hr =>
    rw [hs, hr]
    exact h

theorem deliveryInv_of_reach {n : ℕ} {s : State} (hN : IsRingSize N)
    (h : Reach (chainSystem n N) FreshTags s) : DeliveryInv N (s 0).sender (s 1).receiver := by
  refine h.invariant (P := fun s => DeliveryInv N (s 0).sender (s 1).receiver) ?_ ?_
  · rintro s ⟨buff, junk, rfl⟩
    exact DeliveryInv.fresh hN _ _ _ _
  · intro s a t hs hc ht
    exact hs.step hc ht

/-- Delivery from the head is in order, complete and unaltered while tags are fresh. -/
theorem delivered_of_freshTags {n : ℕ} {s : State} (hN : IsRingSize N)
    (h : Reach (chainSystem n N) FreshTags s) : Delivered s :=
  have hinv := (deliveryInv_of_reach hN h).delivered
  ⟨hinv.1, hinv.2⟩

def logsFit (_ : State) : Action → Bool
  | .head (.write log) => decide log.Fits
  | _ => true

theorem logsFit_sound {s : State} {a : Action} (h : logsFit s a = true) : LogsFit s a := by
  intro log hlog
  subst hlog
  simpa [logsFit] using h

def freshTags (s : State) (a : Action) : Bool :=
  logsFit s a &&
    match a with
    | .head wa =>
      match reserving (s 0).sender.writer (s 1).receiver.ring wa with
      | some log => (s 1).receiver.ring.buff (ringPos (s 1).receiver.ring
          (s 0).sender.writer.remote.wrPointer log.mateData.valueTagOffset) != 1
      | none => true
    | _ => true

theorem freshTags_sound {s : State} {a : Action} (h : freshTags s a = true) :
    FreshTags s a := by
  unfold freshTags at h
  rw [Bool.and_eq_true] at h
  refine ⟨logsFit_sound h.1, ?_⟩
  intro wa log ha hlog
  subst ha
  have htag := h.2
  simp only [hlog] at htag
  exact bne_iff_ne.mp htag

/-- A log of 37 bytes. -/
def shortLog : HeadLog := .plain letterK letterV

/-- A log of 64 bytes. -/
def longLog : HeadLog := .plain letterK ⟨List.replicate 28 98, by decide⟩

/-- Two logs, one after the other. -/
def twoLogsRun : List Action :=
  writeLog shortLog 1 ++ forwardLog 0 1 ++ readLog 1 2 ++ [.reader 1 .cleanLog] ++
    writeLog longLog 1 ++ forwardLog 0 1 ++ readLog 1 2

theorem delivered_of_freshTags_twoLogsRun :
    ∃ s, run (chainSystem 2 128) freshTags (freshChain 128) twoLogsRun = some s ∧
      Delivered s := by
  have hsome : (run (chainSystem 2 128) freshTags (freshChain 128) twoLogsRun).isSome = true := by
    decide +kernel
  obtain ⟨s, hs⟩ := Option.isSome_iff_exists.mp hsome
  have hreach : Reach (chainSystem 2 128) FreshTags s :=
    reach_of_run (fun _ _ => freshTags_sound) reach_freshChain hs
  exact ⟨s, hs, delivered_of_freshTags ⟨7, by omega, by norm_num⟩ hreach⟩

/-- A third log, whose tag falls on a 1 left in the ring, is read before its value is sent. -/
def staleTagRun : List Action :=
  twoLogsRun ++ [.reader 1 .cleanLog] ++ writeLog longLog 2 ++ readLog 1 2

/-- On the second lap the reader obtains a log whose value has not been written. -/
theorem not_delivered_staleTagRun :
    ∃ s, Reach (chainSystem 2 128) LogsFit s ∧ ¬ Delivered s := by
  have hsome : ((run (chainSystem 2 128) logsFit (freshChain 128) staleTagRun).any fun s =>
      decide ((s 1).receiver.received.length = 3 ∧ 2 ∉ (s 0).sender.finishedIds)) = true := by
    decide +kernel
  obtain ⟨s, -, hreach, hs⟩ :=
    reach_of_run_any (fun _ _ => logsFit_sound) reach_freshChain hsome
  obtain ⟨hreceived, hfinished⟩ := of_decide_eq_true hs
  refine ⟨s, hreach, ?_⟩
  intro hdelivered
  exact hfinished (hdelivered.not_early 2 (by omega))

end RdmaMiddleware.Chain
