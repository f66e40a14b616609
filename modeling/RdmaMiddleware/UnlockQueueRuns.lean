import RdmaMiddleware.UnlockQueue
import RdmaMiddleware.TransitionSystem

/-!
# The queue under one producer and one consumer

The two threads take turns in single accesses to the shared indices and bytes. An
index is written by one thread only, so a thread's loads of its own index are part
of the step that uses them; the load of the other side's index is a step of its
own, and what it decides is acted upon later. `accepted` and `obtained` record what
the calls have returned so far.
-/
namespace RdmaMiddleware.UnlockQueue
open TransitionSystem CInt

/-- Where the thread calling `putQueue` stands. -/
inductive Producer
  | idle
  /-- Past the full test, `copied` bytes of the entry are in the slot. -/
  | copying (data : Entry) (copied : ℕ)

/-- Where the other thread stands. It calls `topQueue` and `popQueue` only after
`emptyQueue` returned 0; `got` is the result of its last `topQueue` since then. -/
inductive Consumer
  | idle
  | ready (got : Option Entry)
  | topping (buff : Entry)
  | popping (got : Option Entry)

structure State where
  q : UnQueue
  producer : Producer
  consumer : Consumer
  /-- Entries whose `putQueue` returned 1. -/
  accepted : List Entry
  /-- For each `popQueue`, what `topQueue` had copied out. -/
  obtained : List (Option Entry)

inductive Action
  | putCheck (data : Entry)
  | putByte
  | putStore
  | emptyCheck
  | topStart
  | topByte
  | topReturn
  | popCheck
  | popStore

def step (s : State) : Action → Option State
  | .putCheck data =>
    match s.producer with
    | .idle =>
      if data.length = s.q.entrySize then
        if (s.q.wid + 1) % s.q.len = s.q.rid then some s
        else some { s with producer := .copying data 0 }
      else none
    | .copying _ _ => none
  | .putByte =>
    match s.producer with
    | .copying data copied =>
      match data[copied]? with
      | some b => some { s with
          q := { s.q with data := writeAt s.q.data (putOffset s.q + copied) [b] },
          producer := .copying data (copied + 1) }
      | none => none
    | .idle => none
  | .putStore =>
    match s.producer with
    | .copying data copied =>
      if copied = data.length then some { s with
        q := { s.q with wid := (s.q.wid + 1) % s.q.len },
        producer := .idle, accepted := s.accepted ++ [data] }
      else none
    | .idle => none
  | .emptyCheck =>
    match s.consumer with
    | .idle => if s.q.wid = s.q.rid then some s else some { s with consumer := .ready none }
    | .ready _ => if s.q.wid = s.q.rid then some { s with consumer := .idle } else some s
    | _ => none
  | .topStart =>
    match s.consumer with
    | .ready _ => some { s with consumer := .topping [] }
    | _ => none
  | .topByte =>
    match s.consumer with
    | .topping buff =>
      if buff.length < s.q.entrySize then some { s with
        consumer := .topping (buff ++ [s.q.data (topOffset s.q + buff.length)]) }
      else none
    | _ => none
  | .topReturn =>
    match s.consumer with
    | .topping buff =>
      if buff.length = s.q.entrySize then some { s with consumer := .ready (some buff) }
      else none
    | _ => none
  | .popCheck =>
    match s.consumer with
    | .ready got =>
      if s.q.wid = s.q.rid then some { s with consumer := .idle }
      else some { s with consumer := .popping got }
    | _ => none
  | .popStore =>
    match s.consumer with
    | .popping got => some { s with
        q := { s.q with rid := (s.q.rid + 1) % s.q.len },
        consumer := .idle, obtained := s.obtained ++ [got] }
    | _ => none

/-- After `initQueue`; the allocated bytes are arbitrary. -/
def start (entrySize nums : ℕ) (junk : ℤ → UInt8) : State :=
  { q := initQueue entrySize nums junk, producer := .idle, consumer := .idle,
    accepted := [], obtained := [] }

def queueSystem (entrySize nums : ℕ) : System State Action where
  init := fun s => ∃ junk, s = start entrySize nums junk
  step := step

/-- No call is under way. -/
def State.Quiet (s : State) : Prop :=
  s.producer = .idle ∧ (s.consumer = .idle ∨ ∃ got, s.consumer = .ready got)

/-- What `topQueue` copied out, if it was called, is the entry put in. -/
def IsCopy (e : Entry) (got : Option Entry) : Prop := ∀ b, got = some b → b = e

/-- The purpose of the queue: a first-in first-out list of at most `nums - 1` entries. -/
structure Fifo (nums : ℕ) (s : State) : Prop where
  in_order : List.Forall₂ IsCopy (s.accepted.take s.obtained.length) s.obtained
  current : ∀ b, s.consumer = .ready (some b) → s.accepted[s.obtained.length]? = some b
  bounded : s.accepted.length ≤ s.obtained.length + (nums - 1)
  intact : ∀ i (hi : i < s.accepted.length), s.obtained.length ≤ i →
    slot s.q (i % nums) = s.accepted[i]
  full_exact : s.Quiet → ∀ data, ((putQueue s.q data).1 = 0 ↔
    s.accepted.length = s.obtained.length + (nums - 1))
  empty_exact : s.Quiet → (emptyQueue s.q ≠ 0 ↔ s.accepted.length = s.obtained.length)

/-! ## The invariant -/

/-- What the producer has copied into the free slot. -/
def ProducerInv (q : UnQueue) (held : List Entry) : Producer → Prop
  | .idle => True
  | .copying data copied =>
    data.length = q.entrySize ∧ copied ≤ data.length ∧ held.length + 1 < q.len ∧
      readAt q.data (q.entrySize * q.wid : ℕ) copied = data.take copied

/-- What the consumer knows about the oldest entry. -/
def ConsumerInv (q : UnQueue) (held : List Entry) : Consumer → Prop
  | .idle => True
  | .ready got => ∃ e rest, held = e :: rest ∧ IsCopy e got
  | .topping buff => ∃ e rest, held = e :: rest ∧ buff.length ≤ q.entrySize ∧
      buff = e.take buff.length
  | .popping got => ∃ e rest, held = e :: rest ∧ IsCopy e got

/-- The accepted entries are those removed and those held. -/
structure Inv (entrySize nums : ℕ) (s : State) (popped held : List Entry) : Prop where
  size_eq : s.q.entrySize = entrySize
  len_eq : s.q.len = nums
  accepted_eq : s.accepted = popped ++ held
  copies : List.Forall₂ IsCopy popped s.obtained
  represents : Represents s.q popped.length held
  producer : ProducerInv s.q held s.producer
  consumer : ConsumerInv s.q held s.consumer

variable {entrySize nums : ℕ} {s t : State} {popped held : List Entry}

theorem inv_start (hn : 1 ≤ nums) (junk : ℤ → UInt8) :
    Inv entrySize nums (start entrySize nums junk) [] [] where
  size_eq := rfl
  len_eq := rfl
  accepted_eq := rfl
  copies := .nil
  represents := initQueue_represents entrySize hn junk
  producer := trivial
  consumer := trivial

theorem Inv.putCheck (h : Inv entrySize nums s popped held) {data : Entry}
    (ht : step s (.putCheck data) = some t) : Inv entrySize nums t popped held := by
  cases hp : s.producer with
  | copying _ _ => simp [step, hp] at ht
  | idle =>
    simp only [step, hp] at ht
    split_ifs at ht with hlen hfull
    · cases ht
      exact h
    · cases ht
      have hfree : held.length + 1 < s.q.len := by
        have hspace := h.represents.space
        have : held.length + 1 ≠ s.q.len := fun heq => hfull (h.represents.full_iff.mpr heq)
        omega
      exact { h with producer := ⟨hlen, Nat.zero_le _, hfree, rfl⟩ }

/-- A consumer part that does not read the block survives a change of the free slot. -/
theorem ConsumerInv.with_data {q : UnQueue} {c : Consumer} (h : ConsumerInv q held c)
    (data : ℤ → UInt8) : ConsumerInv { q with data := data } held c := by
  cases c <;> exact h

theorem Inv.putByte (hA : Addressable entrySize nums) (h : Inv entrySize nums s popped held)
    (ht : step s .putByte = some t) : Inv entrySize nums t popped held := by
  cases hp : s.producer with
  | idle => simp [step, hp] at ht
  | copying data copied =>
    obtain ⟨hlen, hle, hfree, hbytes⟩ : ProducerInv s.q held (.copying data copied) :=
      hp ▸ h.producer
    have hoff : putOffset s.q = (s.q.entrySize * s.q.wid : ℕ) :=
      putOffset_eq (h.size_eq ▸ h.len_eq ▸ hA) h.represents.wid_lt
    by_cases hlt : copied < data.length
    · simp only [step, hp, List.getElem?_eq_getElem hlt, Option.some.injEq] at ht
      subst ht
      rw [hoff]
      have hkeep : readAt (writeAt s.q.data ((s.q.entrySize * s.q.wid : ℕ) + copied)
          [data[copied]]) (s.q.entrySize * s.q.wid : ℕ) copied =
            readAt s.q.data (s.q.entrySize * s.q.wid : ℕ) copied :=
        readAt_writeAt_other s.q.data (.inl le_rfl)
      refine { h with
        represents := h.represents.write_free (by simp; omega)
        producer := ⟨hlen, hlt, hfree, ?_⟩
        consumer := h.consumer.with_data _ }
      show readAt (writeAt _ _ _) (s.q.entrySize * s.q.wid : ℕ) (copied + 1) = _
      rw [readAt_succ, hkeep, hbytes, List.take_succ_eq_append_getElem hlt]
      congr 2
      exact writeAt_inside s.q.data _ [data[copied]] 0 (by simp)
    · simp [step, hp, hlt] at ht

theorem ConsumerInv.append {q : UnQueue} {c : Consumer} (h : ConsumerInv q held c)
    (wid : ℕ) (e : Entry) : ConsumerInv { q with wid := wid } (held ++ [e]) c := by
  cases c with
  | idle => trivial
  | ready got =>
    obtain ⟨e', rest, rfl, hgot⟩ := h
    exact ⟨e', rest ++ [e], rfl, hgot⟩
  | topping buff =>
    obtain ⟨e', rest, rfl, hbuff⟩ := h
    exact ⟨e', rest ++ [e], rfl, hbuff⟩
  | popping got =>
    obtain ⟨e', rest, rfl, hgot⟩ := h
    exact ⟨e', rest ++ [e], rfl, hgot⟩

theorem Inv.putStore (h : Inv entrySize nums s popped held) (ht : step s .putStore = some t) :
    ∃ e, Inv entrySize nums t popped (held ++ [e]) := by
  cases hp : s.producer with
  | idle => simp [step, hp] at ht
  | copying data copied =>
    obtain ⟨hlen, hle, hfree, hbytes⟩ : ProducerInv s.q held (.copying data copied) :=
      hp ▸ h.producer
    simp only [step, hp] at ht
    split_ifs at ht with hall
    cases ht
    have hslot : slot s.q s.q.wid = data := by
      unfold slot
      rw [hall, List.take_length, hlen] at hbytes
      exact hbytes
    exact ⟨data, {
      size_eq := h.size_eq
      len_eq := h.len_eq
      accepted_eq := by simp [h.accepted_eq]
      copies := h.copies
      represents := h.represents.publish hfree hslot
      producer := trivial
      consumer := h.consumer.append _ _ }⟩

theorem Inv.emptyCheck (h : Inv entrySize nums s popped held)
    (ht : step s .emptyCheck = some t) : Inv entrySize nums t popped held := by
  cases hc : s.consumer with
  | idle =>
    simp only [step, hc] at ht
    split_ifs at ht with hempty
    · cases ht
      exact h
    · cases ht
      obtain ⟨e, rest, hheld⟩ : ∃ e rest, held = e :: rest :=
        List.exists_cons_of_ne_nil fun hnil => hempty (h.represents.empty_iff.mpr hnil)
      exact { h with consumer := ⟨e, rest, hheld, by simp [IsCopy]⟩ }
  | ready got =>
    simp only [step, hc] at ht
    split_ifs at ht
    · cases ht
      exact { h with consumer := trivial }
    · cases ht
      exact h
  | topping _ => simp [step, hc] at ht
  | popping _ => simp [step, hc] at ht

theorem Inv.topStart (h : Inv entrySize nums s popped held) (ht : step s .topStart = some t) :
    Inv entrySize nums t popped held := by
  cases hc : s.consumer with
  | ready got =>
    obtain ⟨e, rest, hheld, _⟩ : ConsumerInv s.q held (.ready got) := hc ▸ h.consumer
    simp only [step, hc, Option.some.injEq] at ht
    subst ht
    exact { h with consumer := ⟨e, rest, hheld, Nat.zero_le _, rfl⟩ }
  | idle => simp [step, hc] at ht
  | topping _ => simp [step, hc] at ht
  | popping _ => simp [step, hc] at ht

/-- The oldest entry is what the slot at `rid` holds, so it has the entry size. -/
theorem Inv.length_oldest {e : Entry} {rest : List Entry}
    (h : Inv entrySize nums s popped (e :: rest)) : e.length = s.q.entrySize := by
  rw [← h.represents.slot_rid]
  simp [slot]

theorem Inv.topByte (hA : Addressable entrySize nums) (h : Inv entrySize nums s popped held)
    (ht : step s .topByte = some t) : Inv entrySize nums t popped held := by
  cases hc : s.consumer with
  | topping buff =>
    obtain ⟨e, rest, rfl, _, hbuff⟩ : ConsumerInv s.q held (.topping buff) := hc ▸ h.consumer
    simp only [step, hc] at ht
    split_ifs at ht with hlt
    cases ht
    have hoff : topOffset s.q = (s.q.entrySize * s.q.rid : ℕ) :=
      topOffset_eq (h.size_eq ▸ h.len_eq ▸ hA) h.represents.rid_lt
    have hlen := h.length_oldest
    have hbyte : s.q.data (topOffset s.q + buff.length) = e[buff.length] := by
      have hslot := h.represents.slot_rid
      simp only [← hslot, slot, getElem_readAt, hoff]
    refine { h with consumer := ⟨e, rest, rfl, ?_, ?_⟩ }
    · simpa using hlt
    · rw [hbyte, List.length_append, List.length_singleton,
        List.take_succ_eq_append_getElem (by omega), ← hbuff]
  | idle => simp [step, hc] at ht
  | ready _ => simp [step, hc] at ht
  | popping _ => simp [step, hc] at ht

theorem Inv.topReturn (h : Inv entrySize nums s popped held) (ht : step s .topReturn = some t) :
    Inv entrySize nums t popped held := by
  cases hc : s.consumer with
  | topping buff =>
    obtain ⟨e, rest, rfl, _, hbuff⟩ : ConsumerInv s.q held (.topping buff) := hc ▸ h.consumer
    simp only [step, hc] at ht
    split_ifs at ht with hall
    cases ht
    have hcopy : buff = e := by
      rw [hbuff, hall, ← h.length_oldest, List.take_length]
    refine { h with consumer := ⟨e, rest, rfl, ?_⟩ }
    rintro b ⟨⟩
    exact hcopy
  | idle => simp [step, hc] at ht
  | ready _ => simp [step, hc] at ht
  | popping _ => simp [step, hc] at ht

theorem Inv.popCheck (h : Inv entrySize nums s popped held) (ht : step s .popCheck = some t) :
    Inv entrySize nums t popped held := by
  cases hc : s.consumer with
  | ready got =>
    have hready : ConsumerInv s.q held (.ready got) := hc ▸ h.consumer
    simp only [step, hc] at ht
    split_ifs at ht
    · cases ht
      exact { h with consumer := trivial }
    · cases ht
      exact { h with consumer := hready }
  | idle => simp [step, hc] at ht
  | topping _ => simp [step, hc] at ht
  | popping _ => simp [step, hc] at ht

theorem ProducerInv.advance {q : UnQueue} {pr : Producer} {e : Entry}
    (h : ProducerInv q (e :: held) pr) (rid : ℕ) : ProducerInv { q with rid := rid } held pr := by
  cases pr with
  | idle => trivial
  | copying data copied =>
    obtain ⟨hlen, hle, hfree, hbytes⟩ := h
    exact ⟨hlen, hle, by simp at hfree; show held.length + 1 < q.len; omega, hbytes⟩

theorem Inv.popStore (h : Inv entrySize nums s popped held) (ht : step s .popStore = some t) :
    ∃ e rest, held = e :: rest ∧ Inv entrySize nums t (popped ++ [e]) rest := by
  cases hc : s.consumer with
  | popping got =>
    obtain ⟨e, rest, rfl, hgot⟩ : ConsumerInv s.q held (.popping got) := hc ▸ h.consumer
    simp only [step, hc, Option.some.injEq] at ht
    subst ht
    refine ⟨e, rest, rfl, ?_⟩
    exact {
      size_eq := h.size_eq
      len_eq := h.len_eq
      accepted_eq := by simp [h.accepted_eq]
      copies := List.rel_append h.copies (.cons hgot .nil)
      represents := by
        rw [List.length_append, List.length_singleton]
        exact h.represents.advance
      producer := h.producer.advance _
      consumer := trivial }
  | idle => simp [step, hc] at ht
  | ready _ => simp [step, hc] at ht
  | topping _ => simp [step, hc] at ht

/-- One access by either thread keeps the invariant. -/
theorem Inv.step (hA : Addressable entrySize nums) (h : Inv entrySize nums s popped held)
    {a : Action} (ht : step s a = some t) :
    ∃ popped' held', Inv entrySize nums t popped' held' := by
  cases a with
  | putCheck data => exact ⟨_, _, h.putCheck ht⟩
  | putByte => exact ⟨_, _, h.putByte hA ht⟩
  | putStore =>
    obtain ⟨e, h'⟩ := h.putStore ht
    exact ⟨_, _, h'⟩
  | emptyCheck => exact ⟨_, _, h.emptyCheck ht⟩
  | topStart => exact ⟨_, _, h.topStart ht⟩
  | topByte => exact ⟨_, _, h.topByte hA ht⟩
  | topReturn => exact ⟨_, _, h.topReturn ht⟩
  | popCheck => exact ⟨_, _, h.popCheck ht⟩
  | popStore =>
    obtain ⟨e, rest, _, h'⟩ := h.popStore ht
    exact ⟨_, _, h'⟩

theorem inv_of_reachable (hn : 1 ≤ nums) (hA : Addressable entrySize nums)
    (h : Reachable (queueSystem entrySize nums) s) :
    ∃ popped held, Inv entrySize nums s popped held := by
  refine h.invariant (P := fun s => ∃ popped held, Inv entrySize nums s popped held) ?_ ?_
  · rintro s ⟨junk, rfl⟩
    exact ⟨[], [], inv_start hn junk⟩
  · rintro s a t ⟨popped, held, hinv⟩ _ ht
    exact hinv.step hA ht

theorem Inv.fifo (h : Inv entrySize nums s popped held) : Fifo nums s := by
  have hlen : popped.length = s.obtained.length := h.copies.length_eq
  have hspace := h.represents.space
  have hcount : s.accepted.length = s.obtained.length + held.length := by
    rw [h.accepted_eq, List.length_append, hlen]
  have hnums := h.len_eq
  refine ⟨?_, ?_, by omega, ?_, ?_, ?_⟩
  · rw [h.accepted_eq, ← hlen, List.take_left]
    exact h.copies
  · intro b hb
    obtain ⟨e, rest, rfl, hgot⟩ : ConsumerInv s.q held (.ready (some b)) := hb ▸ h.consumer
    rw [h.accepted_eq, ← hlen, hgot b rfl]
    simp
  · intro i hi hle
    have hslot := h.represents.slots (i - popped.length) (by omega)
    rw [show popped.length + (i - popped.length) = i by omega, hnums] at hslot
    simp only [h.accepted_eq]
    rw [hslot, List.getElem_append_right (by omega)]
  · intro _ data
    rw [putQueue_eq_zero_iff h.represents]
    omega
  · intro _
    rw [emptyQueue_ne_zero_iff h.represents, ← List.length_eq_zero_iff]
    omega

/-! ## Calls that are not interrupted -/

/-- Finishing the copy of a started `putQueue`. -/
theorem reach_copy {data : Entry} {copied : ℕ} (hs : Reachable (queueSystem entrySize nums) s)
    (hp : s.producer = .copying data copied) (hle : copied ≤ data.length) :
    Reachable (queueSystem entrySize nums)
      { s with
        q := { s.q with data := writeAt s.q.data (putOffset s.q + copied) (data.drop copied) }
        producer := .copying data data.length } := by
  induction hk : data.length - copied generalizing s copied with
  | zero =>
    have hall : copied = data.length := by omega
    subst hall
    rw [List.drop_length, writeAt_nil]
    exact hp ▸ hs
  | succ k ih =>
    have hlt : copied < data.length := by omega
    have hbyte := hs.next (a := .putByte) trivial
      (by simp only [queueSystem, step, hp, List.getElem?_eq_getElem hlt]; rfl)
    have happ := writeAt_append s.q.data (putOffset s.q + copied) [data[copied]]
      (data.drop (copied + 1))
    rw [List.singleton_append, ← List.drop_eq_getElem_cons hlt, List.length_singleton,
      Int.add_assoc, ← Nat.cast_add] at happ
    rw [← happ]
    exact ih hbyte rfl hlt (by omega)

/-- A whole `putQueue` call, started with a free slot. -/
theorem reach_putQueue (hs : Reachable (queueSystem entrySize nums) s)
    (hp : s.producer = .idle) {data : Entry} (hlen : data.length = s.q.entrySize)
    (hput : (putQueue s.q data).1 ≠ 0) :
    Reachable (queueSystem entrySize nums)
      { s with q := (putQueue s.q data).2, accepted := s.accepted ++ [data] } := by
  have hfull : ¬ (s.q.wid + 1) % s.q.len = s.q.rid := fun heq => hput (by simp [putQueue, heq])
  have hcheck := hs.next (a := .putCheck data) trivial
    (by simp only [queueSystem, step, hp, if_pos hlen, if_neg hfull]; rfl)
  have hcopy := reach_copy hcheck rfl (Nat.zero_le _)
  have hstore := hcopy.next (a := .putStore) trivial
    (by simp only [queueSystem, step, if_true]; rfl)
  convert hstore using 2
  · simp [putQueue, if_neg hfull]

/-- A whole `topQueue` call. -/
theorem reach_topQueue (hs : Reachable (queueSystem entrySize nums) s) {got : Option Entry}
    (hc : s.consumer = .ready got) :
    Reachable (queueSystem entrySize nums)
      { s with consumer := .ready (some (topQueue s.q)) } := by
  have hcopy : ∀ k ≤ s.q.entrySize, Reachable (queueSystem entrySize nums)
      { s with consumer := .topping (readAt s.q.data (topOffset s.q) k) } := by
    intro k hk
    induction k with
    | zero => exact hs.next (a := .topStart) trivial (by simp only [queueSystem, step, hc]; rfl)
    | succ k ih =>
      refine (ih (by omega)).next (a := .topByte) trivial ?_
      have hlt : k < s.q.entrySize := hk
      simp [queueSystem, step, hlt, readAt_succ]
  refine (hcopy _ le_rfl).next (a := .topReturn) trivial ?_
  simp [queueSystem, step, topQueue]

/-- A whole `emptyQueue` call on a queue that is not empty. -/
theorem reach_emptyQueue (hs : Reachable (queueSystem entrySize nums) s)
    (hc : s.consumer = .idle) (hne : emptyQueue s.q = 0) :
    Reachable (queueSystem entrySize nums) { s with consumer := .ready none } := by
  have hcheck : ¬ s.q.wid = s.q.rid := fun heq => by simp [emptyQueue, heq] at hne
  exact hs.next (a := .emptyCheck) trivial
    (by simp only [queueSystem, step, hc, if_neg hcheck])

/-- A whole `popQueue` call on a queue that is not empty. -/
theorem reach_popQueue (hs : Reachable (queueSystem entrySize nums) s) {got : Option Entry}
    (hc : s.consumer = .ready got) (hne : emptyQueue s.q = 0) :
    Reachable (queueSystem entrySize nums)
      { s with q := popQueue s.q, consumer := .idle, obtained := s.obtained ++ [got] } := by
  have hcheck : ¬ s.q.wid = s.q.rid := fun heq => by simp [emptyQueue, heq] at hne
  have hpop := hs.next (a := .popCheck) trivial
    (by simp only [queueSystem, step, hc, if_neg hcheck]; rfl)
  exact hpop.next (a := .popStore) trivial
    (by simp only [queueSystem, step, popQueue, if_neg hcheck])

/-! ## Which parameters are safe -/

/-- An all-zero block with both indices at `k`. -/
def zeroQueue (entrySize nums k : ℕ) : UnQueue :=
  { entrySize := entrySize, len := nums, wid := k, rid := k, data := fun _ => 0 }

/-- The queue after `k` zero entries went through an all-zero block. -/
def lap (entrySize nums k : ℕ) : State :=
  { q := zeroQueue entrySize nums k, producer := .idle, consumer := .idle
    accepted := List.replicate k (List.replicate entrySize 0)
    obtained := List.replicate k none }

theorem writeAt_zeros (off : ℤ) (k : ℕ) :
    writeAt (fun _ => 0) off (List.replicate k 0) = fun _ => 0 := by
  funext i
  by_cases hlt : (i - off).toNat < k <;> simp [writeAt, hlt]

theorem succ_mod_ne {k : ℕ} (hn : 2 ≤ nums) (hk : k < nums) : ¬ (k + 1) % nums = k := by
  rcases Nat.lt_or_ge (k + 1) nums with hlt | hge
  · rw [Nat.mod_eq_of_lt hlt]
    omega
  · rw [show k + 1 = nums by omega, Nat.mod_self]
    omega

theorem putQueue_zeroQueue {k : ℕ} (hn : 2 ≤ nums) (hk : k < nums) (data : Entry) :
    putQueue (zeroQueue entrySize nums k) data =
      (1, { entrySize := entrySize, len := nums, wid := (k + 1) % nums, rid := k,
            data := writeAt (fun _ => 0) (putOffset (zeroQueue entrySize nums k)) data }) :=
  if_neg (succ_mod_ne hn hk)

/-- Putting an entry into the empty queue and finding it not empty. -/
theorem reach_put {k : ℕ} (hn : 2 ≤ nums) (hk : k < nums)
    (hs : Reachable (queueSystem entrySize nums) (lap entrySize nums k)) {data : Entry}
    (hlen : data.length = entrySize) :
    Reachable (queueSystem entrySize nums)
      { q := { entrySize := entrySize, len := nums, wid := (k + 1) % nums, rid := k,
               data := writeAt (fun _ => 0) (putOffset (zeroQueue entrySize nums k)) data }
        producer := .idle, consumer := .ready none
        accepted := List.replicate k (List.replicate entrySize 0) ++ [data]
        obtained := List.replicate k none } := by
  have hput := reach_putQueue hs rfl hlen (by
    show (putQueue (zeroQueue entrySize nums k) data).1 ≠ 0
    simp [putQueue_zeroQueue hn hk])
  simp only [lap, putQueue_zeroQueue hn hk] at hput
  exact reach_emptyQueue hput rfl (if_neg (succ_mod_ne hn hk))

theorem reach_lap {k : ℕ} (hn : 2 ≤ nums) (hk : k < nums) :
    Reachable (queueSystem entrySize nums) (lap entrySize nums k) := by
  induction k with
  | zero => exact .start ⟨fun _ => 0, rfl⟩
  | succ k ih =>
    have hput := reach_put hn (by omega) (ih (by omega))
      (List.length_replicate (n := entrySize) (a := 0))
    have hpop := reach_popQueue hput rfl (if_neg (succ_mod_ne hn (by omega)))
    have hmod : (k + 1) % nums = k + 1 := Nat.mod_eq_of_lt hk
    rw [popQueue, if_neg (succ_mod_ne hn (by omega)), writeAt_zeros] at hpop
    simpa only [lap, zeroQueue, hmod, List.replicate_succ'] using hpop

/-- With a slot beyond the reach of `int`, `topQueue` returns bytes nobody put there. -/
theorem exists_not_fifo (hmem : entrySize * (nums + 1) < 2 ^ 63)
    (hA : ¬ Addressable entrySize nums) :
    ∃ s, Reachable (queueSystem entrySize nums) s ∧ ¬ Fifo nums s := by
  unfold Addressable at hA
  have hn : 2 ≤ nums := by
    by_contra hlt
    rw [show nums - 1 = 0 by omega] at hA
    omega
  have hlast : nums - 1 < nums := by omega
  have hsize : 0 < entrySize := by
    rcases Nat.eq_zero_or_pos entrySize with rfl | hpos
    · simp at hA
    · exact hpos
  have hle : entrySize * (nums - 1) ≤ entrySize * (nums + 1) := Nat.mul_le_mul_left _ (by omega)
  have hput := reach_put hn hlast (reach_lap hn hlast)
    (List.length_replicate (n := entrySize) (a := 255))
  refine ⟨_, reach_topQueue hput rfl, fun hfifo => ?_⟩
  have hcur := hfifo.current _ rfl
  rw [List.getElem?_append_right (by simp)] at hcur
  simp only [List.length_replicate, Nat.sub_self, List.getElem?_cons_zero,
    Option.some.injEq] at hcur
  -- the first byte copied out lies below the slot, where everything is still zero
  have hbelow : cInt (cInt (entrySize : ℤ) * ((nums - 1 : ℕ) : ℤ)) <
      putOffset (zeroQueue entrySize nums (nums - 1)) := by
    have hput : putOffset (zeroQueue entrySize nums (nums - 1)) =
        ((entrySize * (nums - 1) % 2 ^ 64 : ℕ) : ℤ) := rfl
    have htop := cInt_lt (cInt (entrySize : ℤ) * ((nums - 1 : ℕ) : ℤ))
    rw [hput, Nat.mod_eq_of_lt (by omega)]
    omega
  have hfirst := congrArg (fun b : Entry => b[0]?) hcur
  simp only [topQueue] at hfirst
  rw [List.getElem?_eq_getElem (by simpa using hsize),
    List.getElem?_eq_getElem (by simpa using hsize), getElem_readAt,
    writeAt_outside _ _ _ _ (.inl (by simpa [topOffset] using hbelow))] at hfirst
  simp at hfirst

/-- The queue is a bounded FIFO in all its runs exactly when `int` offsets reach every slot.
The second hypothesis says that `malloc` can provide the block at all. -/
theorem fifo_iff_addressable (hn : 1 ≤ nums) (hmem : entrySize * (nums + 1) < 2 ^ 63) :
    (∀ s, Reachable (queueSystem entrySize nums) s → Fifo nums s) ↔
      Addressable entrySize nums := by
  constructor
  · intro h
    by_contra hA
    obtain ⟨s, hs, hnot⟩ := exists_not_fifo hmem hA
    exact hnot (h s hs)
  · intro hA s hs
    obtain ⟨popped, held, hinv⟩ := inv_of_reachable hn hA hs
    exact hinv.fifo

/-- The four queues of the log buffer hold pointers. -/
theorem fifo_iff_addressable_pointers :
    (∀ s, Reachable (queueSystem 8 2048) s → Fifo 2048 s) ↔ Addressable 8 2048 :=
  fifo_iff_addressable (by omega) (by omega)

/-- Entries of one MiB in a queue of 2049 slots: the last slot starts at `2 ^ 31`. -/
theorem not_fifo_mebibyte_entries :
    ¬ ∀ s, Reachable (queueSystem (2 ^ 20) 2049) s → Fifo 2049 s := by
  obtain ⟨s, hs, hnot⟩ := exists_not_fifo (show 2 ^ 20 * (2049 + 1) < 2 ^ 63 by norm_num)
    (show ¬ Addressable (2 ^ 20) 2049 by decide)
  exact fun h => hnot (h s hs)

end RdmaMiddleware.UnlockQueue
