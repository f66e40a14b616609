import RdmaMiddleware.Handshake
import Mathlib.Logic.Function.Basic

/-!
# Publication of the receive buffer

`dhmp_malloc_buff_request_handler` runs in the event thread, one request after the other, and
`reader_thread` waits for what it sets up. The pointer `local_recv_buff` is there before the
fields behind it, and it is taken back if the second registration fails. Each assignment of the
one and each read of the other is a step.
-/
namespace RdmaMiddleware.Publication
open TransitionSystem

/-- The `LocalRingbuff` in memory; `none` is a null pointer. -/
structure Ringbuff where
  wrPointer : ℤ
  rdPointer : ℤ
  size : ℤ
  buffAddr : Option ℕ
  /-- The address in `buff_mr`. -/
  buffMr : Option ℕ
  rdKeyPointer : ℤ
  deriving DecidableEq

/-- A `LocalRingbuff` that is not freed, with the data region that is registered for it. -/
structure Object where
  ring : Ringbuff
  region : Option ℕ
  deriving DecidableEq

/-- What the handler does next. -/
inductive Handler
  | idle
  | mallocMate
  | registerMate
  | publish
  | clearWr
  | clearRd
  | setSize
  | clearRdKey
  | registerData
  | setAddr
  | freeRing
  | freeMate
  | clearPointer
  deriving DecidableEq

/-- What the reader does next. -/
inductive Reader
  /-- `while(local_recv_buff == NULL);` -/
  | waitPointer
  /-- The second wait loads the pointer, and then `buff_addr` behind it. -/
  | loadPointer
  | loadAddr (p : ℕ)
  | left
  /-- The first call of `read_log_key`, with what it found. -/
  | reading (p : ℕ) (seen : Object)
  /-- It followed a null pointer or one to freed memory. -/
  | fault

/-- `localRecvBuffMate` is the address in the mate's region, once it has one. -/
structure State where
  localRecvBuff : Option ℕ
  localRecvBuffMate : Option (Option ℕ)
  heap : ℕ → Option Object
  next : ℕ
  handler : Handler
  reader : Reader

inductive Action
  | request
  /-- An assignment of the handler. -/
  | assign
  /-- The registration of a region for the `LocalRingbuff`, whose memory holds anything. -/
  | registerMate (memory : Option Ringbuff)
  | registerData (region : Option ℕ)
  | read

namespace State

/-- The handler changes the object behind `local_recv_buff`. -/
def change (s : State) (f : Object → Object) (next : Handler) : Option State :=
  match s.localRecvBuff with
  | none => none
  | some p =>
    match s.heap p with
    | none => none
    | some o => some { s with
        heap := Function.update s.heap p (some (f o))
        handler := next }

/-- An assignment to a field behind `local_recv_buff`. -/
def store (s : State) (f : Ringbuff → Ringbuff) (next : Handler) : Option State :=
  s.change (fun o => { o with ring := f o.ring }) next

end State

/-- A request finds both pointers NULL, or it is answered from what is there. -/
def requestStep (s : State) : Option State :=
  match s.handler with
  | .idle =>
    if s.localRecvBuff = none ∧ s.localRecvBuffMate = none
    then some { s with handler := .mallocMate }
    else some s
  | _ => none

def assignStep (s : State) : Option State :=
  match s.handler with
  | .mallocMate => some { s with localRecvBuffMate := some none, handler := .registerMate }
  | .publish =>
    match s.localRecvBuffMate with
    | some (some p) => some { s with localRecvBuff := some p, handler := .clearWr }
    | _ => none
  | .clearWr => s.store (fun r => { r with wrPointer := 0 }) .clearRd
  | .clearRd => s.store (fun r => { r with rdPointer := 0 }) .setSize
  | .setSize => s.store (fun r => { r with size := Handshake.TOTAL_SIZE }) .clearRdKey
  | .clearRdKey => s.store (fun r => { r with rdKeyPointer := 0 }) .registerData
  | .setAddr => s.store (fun r => { r with buffAddr := r.buffMr }) .idle
  | .freeRing =>
    match s.localRecvBuffMate with
    | some (some p) =>
      some { s with heap := Function.update s.heap p none, handler := .freeMate }
    | _ => none
  | .freeMate => some { s with localRecvBuffMate := none, handler := .clearPointer }
  | .clearPointer => some { s with localRecvBuff := none, handler := .idle }
  | .idle | .registerMate | .registerData => none

/-- `dhmp_memory_register` for the `LocalRingbuff`. -/
def registerMateStep (s : State) (memory : Option Ringbuff) : Option State :=
  match s.handler, memory with
  | .registerMate, none => some { s with handler := .freeMate }
  | .registerMate, some r => some { s with
      localRecvBuffMate := some (some s.next)
      heap := Function.update s.heap s.next (some ⟨r, none⟩)
      next := s.next + 1
      handler := .publish }
  | _, _ => none

/-- `dhmp_memory_register` for the data. -/
def registerDataStep (s : State) (region : Option ℕ) : Option State :=
  match s.handler, region with
  | .registerData, none => some { s with handler := .freeRing }
  | .registerData, some a =>
    s.change (fun o => ⟨{ o.ring with buffMr := some a }, some a⟩) .setAddr
  | _, _ => none

/-- The reader up to its first call of `read_log_key`. -/
def readStep (s : State) : Option State :=
  match s.reader with
  | .waitPointer =>
    some { s with reader := if s.localRecvBuff = none then .waitPointer else .loadPointer }
  | .loadPointer =>
    match s.localRecvBuff with
    | none => some { s with reader := .fault }
    | some p => some { s with reader := .loadAddr p }
  | .loadAddr p =>
    match s.heap p with
    | none => some { s with reader := .fault }
    | some o =>
      some { s with reader := if o.ring.buffAddr = none then .loadPointer else .left }
  | .left =>
    match s.localRecvBuff with
    | none => some { s with reader := .fault }
    | some p =>
      match s.heap p with
      | none => some { s with reader := .fault }
      | some o => some { s with reader := .reading p o }
  | .reading _ _ | .fault => none

def step (s : State) : Action → Option State
  | .request => requestStep s
  | .assign => assignStep s
  | .registerMate memory => registerMateStep s memory
  | .registerData region => registerDataStep s region
  | .read => readStep s

/-- The zeroed globals before the first request. -/
def start : State where
  localRecvBuff := none
  localRecvBuffMate := none
  heap := fun _ => none
  next := 0
  handler := .idle
  reader := .waitPointer

def system : System State Action where
  init := fun s => s = start
  step := step

/-! ## The property -/

/-- The pointers are 0 and the size is that of the ring. -/
structure Initialised (r : Ringbuff) : Prop where
  wr_pointer : r.wrPointer = 0
  rd_pointer : r.rdPointer = 0
  size : r.size = Handshake.TOTAL_SIZE
  rd_key_pointer : r.rdKeyPointer = 0

/-- `buff_addr` is that of the registered ring, in front of which everything is in place. -/
structure Ready (o : Object) : Prop where
  initialised : Initialised o.ring
  registered : o.region ≠ none
  buff_addr : o.ring.buffAddr = o.region

/-- The reader sees a ring that is ready, in memory that is not released. -/
def Safe (s : State) : Prop :=
  match s.reader with
  | .reading p seen => Ready seen ∧ s.heap p ≠ none
  | .fault => False
  | _ => True

/-- The second wait does not find a null pointer or a freed ring, and a ring that the handler
has not finished has NULL in its `buff_addr`. -/
def readsSafely (s : State) : Action → Bool
  | .read =>
    match s.reader with
    | .loadPointer => s.localRecvBuff.isSome
    | .loadAddr p =>
      match s.heap p with
      | none => false
      | some o => s.handler == .idle || o.ring.buffAddr.isNone
    | _ => true
  | _ => true

/-! ## The memory -/

/-- The only object is `o` at `p`. -/
def only (p : ℕ) (o : Object) : ℕ → Option Object := Function.update (fun _ => none) p (some o)

@[simp] theorem only_self (p : ℕ) (o : Object) : only p o p = some o :=
  Function.update_self ..

theorem update_only (p : ℕ) (o o' : Object) :
    Function.update (only p o) p (some o') = only p o' :=
  Function.update_idem ..

theorem update_only_none (p : ℕ) (o : Object) :
    Function.update (only p o) p none = fun _ => none := by
  unfold only
  rw [Function.update_idem]
  exact Function.update_eq_self p _

/-- `local_recv_buff` and the mate lead to the only object, which is as `P` says. -/
def Holds (s : State) (P : Object → Prop) : Prop :=
  ∃ p o, s.localRecvBuff = some p ∧ s.localRecvBuffMate = some (some p) ∧ s.heap = only p o ∧ P o

/-- Nothing is set up. -/
def NoRing (s : State) : Prop :=
  s.localRecvBuff = none ∧ s.localRecvBuffMate = none ∧ s.heap = fun _ => none

/-- What holds in front of each step of the handler. -/
def Stage (s : State) : Handler → Prop
  | .idle => NoRing s ∨ Holds s Ready
  | .mallocMate => NoRing s
  | .registerMate => s.localRecvBuff = none ∧ s.heap = fun _ => none
  | .publish => ∃ p o, s.localRecvBuffMate = some (some p) ∧ s.heap = only p o
  | .clearWr => Holds s (fun _ => True)
  | .clearRd => Holds s (fun o => o.ring.wrPointer = 0)
  | .setSize => Holds s (fun o => o.ring.wrPointer = 0 ∧ o.ring.rdPointer = 0)
  | .clearRdKey => Holds s (fun o => o.ring.wrPointer = 0 ∧ o.ring.rdPointer = 0 ∧
      o.ring.size = Handshake.TOTAL_SIZE)
  | .registerData => Holds s (fun o => Initialised o.ring)
  | .setAddr => Holds s (fun o => Initialised o.ring ∧ o.region ≠ none ∧ o.ring.buffMr = o.region)
  | .freeRing => Holds s (fun _ => True)
  | .freeMate => s.heap = fun _ => none
  | .clearPointer => s.localRecvBuffMate = none ∧ s.heap = fun _ => none

variable {s t : State} {a : Action} {P Q : Object → Prop} {f : Object → Object}
  {next : Handler}

theorem change_holds (h : Holds s P) (hPQ : ∀ o, P o → Q (f o))
    (hs : s.change f next = some t) :
    Holds t Q ∧ t.handler = next ∧ t.reader = s.reader := by
  obtain ⟨p, o, hp, hmate, hheap, ho⟩ := h
  simp only [State.change, hp, hheap, only_self, update_only, Option.some.injEq] at hs
  cases hs
  exact ⟨⟨p, f o, rfl, hmate, rfl, hPQ o ho⟩, rfl, rfl⟩

/-- Once the ring is ready the handler leaves it alone. -/
theorem step_ready (hidle : s.handler = .idle) (h : Holds s Ready) (ha : a ≠ .read)
    (hs : step s a = some t) : t = s := by
  obtain ⟨p, o, hp, -, -, -⟩ := h
  cases a with
  | request =>
    simp only [step, requestStep, hidle, hp, reduceCtorEq, false_and, if_false] at hs
    exact (Option.some.inj hs).symm
  | assign => simp [step, assignStep, hidle] at hs
  | registerMate memory => cases memory <;> simp [step, registerMateStep, hidle] at hs
  | registerData region => cases region <;> simp [step, registerDataStep, hidle] at hs
  | read => exact absurd rfl ha

theorem stage_request (h : Stage s s.handler) (hs : requestStep s = some t) :
    Stage t t.handler ∧ t.reader = s.reader := by
  unfold requestStep at hs
  split at hs
  case h_2 => cases hs
  case h_1 hidle =>
    rw [hidle] at h
    split_ifs at hs with hnone
    · cases hs
      rcases h with h | ⟨p, -, hp, -, -, -⟩
      · exact ⟨h, rfl⟩
      · rw [hp] at hnone
        cases hnone.1
    · cases hs
      rw [hidle]
      exact ⟨h, rfl⟩

/-- An assignment leads from one stage to the next. -/
theorem stage_assign (h : Stage s s.handler) (hs : assignStep s = some t) :
    Stage t t.handler ∧ t.reader = s.reader := by
  have hstore {P Q : Object → Prop} {f : Ringbuff → Ringbuff} {next : Handler} (h : Holds s P)
      (hs : s.store f next = some t) (hnext : Stage t next = Holds t Q)
      (hPQ : ∀ o, P o → Q { o with ring := f o.ring }) :
      Stage t t.handler ∧ t.reader = s.reader := by
    obtain ⟨hholds, hhandler, hreader⟩ := change_holds h hPQ hs
    rw [hhandler, hnext]
    exact ⟨hholds, hreader⟩
  unfold assignStep at hs
  cases hhandler : s.handler <;> rw [hhandler] at h hs <;> dsimp only at hs
  case idle | registerMate | registerData => cases hs
  case mallocMate =>
    cases hs
    exact ⟨⟨h.1, h.2.2⟩, rfl⟩
  case publish =>
    obtain ⟨p, o, hmate, hheap⟩ := h
    rw [hmate] at hs
    cases hs
    exact ⟨⟨p, o, rfl, rfl, hheap, trivial⟩, rfl⟩
  case clearWr => exact hstore h hs rfl (fun _ _ => rfl)
  case clearRd => exact hstore h hs rfl (fun _ h => ⟨h, rfl⟩)
  case setSize => exact hstore h hs rfl (fun _ h => ⟨h.1, h.2, rfl⟩)
  case clearRdKey => exact hstore h hs rfl (fun _ h => ⟨h.1, h.2.1, h.2.2, rfl⟩)
  case setAddr =>
    have hready (o : Object)
        (h : Initialised o.ring ∧ o.region ≠ none ∧ o.ring.buffMr = o.region) :
        Ready { o with ring := { o.ring with buffAddr := o.ring.buffMr } } := by
      obtain ⟨⟨hwr, hrd, hsize, hkey⟩, hregion, hmr⟩ := h
      exact ⟨⟨hwr, hrd, hsize, hkey⟩, hregion, hmr⟩
    obtain ⟨hholds, hidle, hreader⟩ := change_holds h hready hs
    rw [hidle]
    exact ⟨.inr hholds, hreader⟩
  case freeRing =>
    obtain ⟨p, o, -, hmate, hheap, -⟩ := h
    rw [hmate] at hs
    cases hs
    refine ⟨?_, rfl⟩
    change Function.update s.heap p none = _
    rw [hheap, update_only_none]
  case freeMate =>
    cases hs
    exact ⟨⟨rfl, h⟩, rfl⟩
  case clearPointer =>
    cases hs
    exact ⟨.inl ⟨rfl, h.1, h.2⟩, rfl⟩

theorem stage_registerMate {memory : Option Ringbuff} (h : Stage s s.handler)
    (hs : registerMateStep s memory = some t) :
    Stage t t.handler ∧ t.reader = s.reader := by
  unfold registerMateStep at hs
  split at hs
  case h_1 hhandler =>
    rw [hhandler] at h
    cases hs
    exact ⟨h.2, rfl⟩
  case h_2 r hhandler =>
    rw [hhandler] at h
    cases hs
    refine ⟨⟨s.next, ⟨r, none⟩, rfl, ?_⟩, rfl⟩
    change Function.update s.heap _ _ = _
    rw [h.2]
    rfl
  case h_3 => cases hs

theorem stage_registerData {region : Option ℕ} (h : Stage s s.handler)
    (hs : registerDataStep s region = some t) :
    Stage t t.handler ∧ t.reader = s.reader := by
  unfold registerDataStep at hs
  split at hs
  case h_1 hhandler =>
    rw [hhandler] at h
    cases hs
    obtain ⟨p, o, hp, hmate, hheap, -⟩ := h
    exact ⟨⟨p, o, hp, hmate, hheap, trivial⟩, rfl⟩
  case h_2 a hhandler =>
    rw [hhandler] at h
    have hinit (r : Ringbuff) (h : Initialised r) : Initialised { r with buffMr := some a } := by
      obtain ⟨hwr, hrd, hsize, hkey⟩ := h
      exact ⟨hwr, hrd, hsize, hkey⟩
    obtain ⟨hholds, hnext, hreader⟩ := change_holds h (Q := fun o => Initialised o.ring ∧
      o.region ≠ none ∧ o.ring.buffMr = o.region) (fun o ho => ⟨hinit o.ring ho, by simp, rfl⟩) hs
    rw [hnext]
    exact ⟨hholds, hreader⟩
  case h_3 => cases hs

theorem stage_handler (h : Stage s s.handler) (ha : a ≠ .read) (hs : step s a = some t) :
    Stage t t.handler ∧ t.reader = s.reader := by
  cases a with
  | request => exact stage_request h hs
  | assign => exact stage_assign h hs
  | registerMate memory => exact stage_registerMate h hs
  | registerData region => exact stage_registerData h hs
  | read => exact absurd rfl ha

/-! ## The reader -/

/-- The reader only moves on. -/
theorem readStep_eq (hs : readStep s = some t) : ∃ r, t = { s with reader := r } := by
  unfold readStep at hs
  repeat' split at hs
  all_goals
    cases hs
  all_goals exact ⟨_, rfl⟩

/-- A reader that has left its waits uses the ring, on which the handler has finished. -/
def ReaderInv (s : State) : Prop :=
  match s.reader with
  | .left => s.handler = .idle ∧ Holds s Ready
  | .reading p seen =>
    s.handler = .idle ∧ Holds s Ready ∧ s.localRecvBuff = some p ∧ Ready seen
  | .fault => False
  | _ => True

theorem readerInv_handler (h : ReaderInv s) (hstage : Stage s s.handler) (ha : a ≠ .read)
    (hs : step s a = some t) : ReaderInv t := by
  obtain ⟨-, hreader⟩ := stage_handler hstage ha hs
  unfold ReaderInv at h ⊢
  rw [hreader]
  cases hr : s.reader <;> rw [hr] at h <;> dsimp only at h ⊢
  case left => rwa [step_ready h.1 h.2 ha hs]
  case reading p seen => rwa [step_ready h.1 h.2.1 ha hs]

theorem readerInv_read (h : ReaderInv s) (hstage : Stage s s.handler)
    (hc : readsSafely s .read = true) (hs : readStep s = some t) : ReaderInv t := by
  unfold ReaderInv at h
  unfold readsSafely at hc
  unfold readStep at hs
  cases hr : s.reader <;> rw [hr] at h hc hs <;> dsimp only at h hc hs
  case reading => cases hs
  case waitPointer =>
    cases hs
    unfold ReaderInv
    split_ifs <;> trivial
  case loadPointer =>
    obtain ⟨p, hp⟩ := Option.isSome_iff_exists.mp hc
    rw [hp] at hs
    cases hs
    trivial
  case loadAddr p =>
    cases ho : s.heap p with
    | none =>
      rw [ho] at hc
      cases hc
    | some o =>
      rw [ho] at hc hs
      cases hs
      unfold ReaderInv
      by_cases hnull : o.ring.buffAddr = none
      · rw [if_pos hnull]
        trivial
      · -- a non-NULL address is only read when the handler has finished
        have hidle : s.handler = .idle := by simpa [hnull] using hc
        rw [hidle] at hstage
        rw [if_neg hnull]
        refine ⟨hidle, hstage.resolve_left (fun h => ?_)⟩
        rw [h.2.2] at ho
        cases ho
  case left =>
    obtain ⟨hidle, p, o, hp, hmate, hheap, hready⟩ := h
    rw [hp] at hs
    simp only [hheap, only_self] at hs
    cases hs
    exact ⟨hidle, ⟨p, o, rfl, hmate, rfl, hready⟩, rfl, hready⟩

theorem stage_read (h : Stage s s.handler) (hs : readStep s = some t) : Stage t t.handler := by
  obtain ⟨r, rfl⟩ := readStep_eq hs
  cases hh : s.handler <;> simp only [hh] at h ⊢ <;> exact h

/-! ## The handler alone -/

/-- The handler up to the registration of the data, for memory that holds `r`. -/
def setUp (r : Ringbuff) : List Action :=
  [.request, .assign, .registerMate (some r), .assign, .assign, .assign, .assign, .assign]

/-- All steps of the handler for a first request. -/
def handlerActions (r : Ringbuff) (o : Handshake.AllocOutcome) : List Action :=
  match o.mateMr, o.dataMr with
  | none, _ => [.request, .assign, .registerMate none, .assign, .assign]
  | some _, none => setUp r ++ [.registerData none, .assign, .assign, .assign]
  | some _, some a => setUp r ++ [.registerData (some a), .assign]

/-- The ring and the region of the mate. -/
def ringView (s : State) : Option Ringbuff × Option ℕ :=
  (s.localRecvBuff.bind fun p => (s.heap p).map (·.ring), s.localRecvBuffMate.join)

def nodeView (n : Handshake.Node) : Option Ringbuff × Option ℕ :=
  (n.localRecvBuff.map fun b =>
    ⟨b.wrPointer, b.rdPointer, b.size, some b.buffMr, some b.buffMr, b.rdKeyPointer⟩,
    n.localRecvBuffMate)

/-- Without a reader the steps come to what the handler does as a whole. -/
theorem run_handlerActions (hidle : s.handler = .idle) (hnone : NoRing s) (r : Ringbuff)
    (o : Handshake.AllocOutcome) (hok : o.mateOk = true) (hmate : ∀ m ∈ o.mateMr, m = s.next) :
    ∃ t node reply, run system (fun _ _ => true) s (handlerActions r o) = some t ∧
      t.handler = .idle ∧
      Handshake.mallocBuffRequestHandler ⟨none, none⟩ o = some (node, reply) ∧
      ringView t = nodeView node := by
  obtain ⟨hpointer, hm, hheap⟩ := hnone
  obtain ⟨localRecvBuff, localRecvBuffMate, heap, next, handler, reader⟩ := s
  cases hpointer
  cases hm
  cases hheap
  cases hidle
  unfold handlerActions Handshake.mallocBuffRequestHandler
  cases hmr : o.mateMr with
  | none =>
    simp [hok, run, system, step, requestStep, assignStep, registerMateStep, ringView, nodeView]
  | some m =>
    obtain rfl : m = next := hmate m hmr
    cases hdata : o.dataMr with
    | none =>
      simp [hok, run, system, step, requestStep, assignStep, registerMateStep, registerDataStep,
        setUp, State.store, State.change, ringView, nodeView]
    | some a =>
      simp [hok, run, system, step, requestStep, assignStep, registerMateStep, registerDataStep,
        setUp, State.store, State.change, ringView, nodeView, Handshake.successReply,
        Handshake.freshRing]

/-! ## Runs -/

theorem inv_reach (h : Reach system (fun s a => readsSafely s a = true) s) :
    Stage s s.handler ∧ ReaderInv s := by
  refine h.invariant (P := fun s => Stage s s.handler ∧ ReaderInv s) ?_ ?_
  · rintro s rfl
    exact ⟨.inl ⟨rfl, rfl, rfl⟩, trivial⟩
  · rintro s a t ⟨hstage, hreader⟩ hc hs
    by_cases ha : a = .read
    · subst ha
      exact ⟨stage_read hstage hs, readerInv_read hreader hstage hc hs⟩
    · exact ⟨(stage_handler hstage ha hs).1, readerInv_handler hreader hstage ha hs⟩

theorem safe_of_readerInv (h : ReaderInv s) : Safe s := by
  unfold ReaderInv at h
  unfold Safe
  cases hr : s.reader <;> rw [hr] at h <;> dsimp only at h ⊢
  case reading p seen =>
    obtain ⟨-, ⟨p', o, hp', -, hheap, -⟩, hp, hseen⟩ := h
    obtain rfl : p' = p := Option.some.inj (hp'.symm.trans hp)
    refine ⟨hseen, ?_⟩
    rw [hheap, only_self]
    simp

/-- If its waits read what they are meant to, the reader starts on a ring that is ready and
stays. -/
theorem safe_of_readsSafely (h : Reach system (fun s a => readsSafely s a = true) s) : Safe s :=
  safe_of_readerInv (inv_reach h).2

def zeroed : Ringbuff := ⟨0, 0, 0, none, none, 0⟩

/-- The ring that the reader has started on. -/
def seen (s : State) : Option Ringbuff :=
  match s.reader with
  | .reading _ seen => some seen.ring
  | _ => none

/-- A request that fails behind the first region, and one that the reader waits for. -/
def retry : List Action :=
  setUp ⟨1, 2, 3, some 4, none, 5⟩ ++ [.registerData none, .assign, .assign, .assign] ++
    setUp zeroed ++
    [.read, .read, .read, .registerData (some 9), .assign, .read, .read, .read]

theorem safe_of_readsSafely_retry :
    ∃ s, run system readsSafely start retry = some s ∧
      seen s = some ⟨0, 0, 64, some 9, some 9, 0⟩ ∧ Safe s := by
  have hstart : Reach system (fun s a => readsSafely s a = true) start := .start rfl
  have hrun : (run system readsSafely start retry).any
      (fun s => decide (seen s = some ⟨0, 0, 64, some 9, some 9, 0⟩)) = true := by decide
  obtain ⟨s, hs, hreach, hseen⟩ := reach_of_run_any (fun _ _ h => h) hstart hrun
  exact ⟨s, hs, of_decide_eq_true hseen, safe_of_readsSafely hreach⟩

/-- Every registration succeeds. -/
def succeeds : Action → Bool
  | .registerMate memory => memory.isSome
  | .registerData region => region.isSome
  | _ => true

/-- New memory holds zeros. -/
def clean : Action → Bool
  | .registerMate (some r) => r == zeroed
  | _ => true

/-- The reader sees a write pointer other than 0, or has used freed memory. -/
def spoiled (s : State) : Bool :=
  match s.reader with
  | .reading _ seen => seen.ring.wrPointer != 0
  | .fault => true
  | _ => false

theorem not_safe_of_spoiled (h : spoiled s = true) : ¬ Safe s := by
  intro hsafe
  unfold spoiled at h
  unfold Safe at hsafe
  cases hr : s.reader <;> rw [hr] at h hsafe <;> dsimp only at h hsafe
  case reading p seen => simp [hsafe.1.initialised.wr_pointer] at h
  all_goals cases h

/-- The reader leaves its waits too early if the memory held an address, even if nothing
fails, and a failed registration takes the ring from it even if the memory was zeroed. -/
theorem not_safe_junkOrRollback :
    (¬ ∀ s, Reach system (fun _ a => succeeds a = true) s → Safe s) ∧
      ¬ ∀ s, Reach system (fun _ a => clean a = true) s → Safe s := by
  constructor
  · intro h
    have hrun : (run system (fun _ a => succeeds a) start
        [.request, .assign, .registerMate (some ⟨1, 2, 3, some 4, none, 5⟩), .assign,
          .read, .read, .read, .read]).any spoiled = true := by decide
    obtain ⟨s, -, hreach, hs⟩ := reach_of_run_any (fun _ _ h => h) (.start rfl) hrun
    exact not_safe_of_spoiled hs (h s hreach)
  · intro h
    have hrun : (run system (fun _ a => clean a) start
        (setUp zeroed ++ [.read, .read, .registerData none, .assign, .read])).any spoiled = true :=
      by decide
    obtain ⟨s, -, hreach, hs⟩ := reach_of_run_any (fun _ _ h => h) (.start rfl) hrun
    exact not_safe_of_spoiled hs (h s hreach)

end RdmaMiddleware.Publication
