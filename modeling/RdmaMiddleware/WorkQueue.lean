import RdmaMiddleware.TransitionSystem
import Mathlib.Data.List.Infix
import Mathlib.Data.List.Nodup
import Mathlib.Tactic

/-!
# Calls and their works

A call of the API builds a work, queues it, waits for its `done_flag` and frees it; one
thread takes the works and handles them. The queue is atomic here. `dhmp_send_work_handler`
sets the `done_flag` twice, so that its second assignment may come after the caller has
left.
-/
namespace RdmaMiddleware.WorkQueue
open TransitionSystem

/-- The types that the calls queue. -/
inductive WorkType
  | MALLOC
  | READ
  | WRITE
  | SEND
  | BUFF_MALLOC
  deriving DecidableEq

/-- `dhmp_work`; its `work_data` lies in the stack frame of a thread. -/
structure Work where
  workType : WorkType
  workData : ℕ
  deriving DecidableEq

/-- A call is named by its thread and its number among the calls of the thread. -/
abbrev CallId := ℕ × ℕ

/-- The works allocated, the `done_flag` in the frame of each thread that is in a call, and
what has happened so far. `fault` is set by an access to what is no longer there. -/
structure Books where
  heap : ℕ → Option Work
  doneFlag : ℕ → Option Bool
  count : ℕ → ℕ
  queued : List CallId
  taken : List CallId
  finished : List CallId
  returned : List CallId
  fault : Bool

namespace Books

/-- The call that a thread is in. -/
def callId (b : Books) (i : ℕ) : CallId := (i, b.count i)

/-- The call whose work is at the address. -/
def callOf (b : Books) (work : ℕ) : Option CallId := (b.heap work).map fun w => b.callId w.workData

/-- A call up to the lock: `malloc` has returned `work`. -/
def begin (b : Books) (i work : ℕ) (workType : WorkType) : Books :=
  { b with
    heap := Function.update b.heap work (some ⟨workType, i⟩)
    doneFlag := Function.update b.doneFlag i (some false)
    count := Function.update b.count i (b.count i + 1) }

def enqueue (b : Books) (i : ℕ) : Books := { b with queued := b.queued ++ [b.callId i] }

def take (b : Books) (work : ℕ) : Books := { b with taken := b.taken ++ (b.callOf work).toList }

/-- An access to the frame of the thread. -/
def touch (b : Books) (i : ℕ) : Books := { b with fault := b.fault || (b.doneFlag i).isNone }

/-- `done_flag=true`. -/
def setDone (b : Books) (i : ℕ) : Books :=
  { b.touch i with doneFlag := Function.update b.doneFlag i ((b.doneFlag i).map fun _ => true) }

/-- `free(work)`, and the call returns. -/
def leave (b : Books) (i work : ℕ) : Books :=
  { b with
    heap := Function.update b.heap work none
    doneFlag := Function.update b.doneFlag i none
    returned := b.returned ++ [b.callId i] }

end Books

/-- Where a thread stands in its call. -/
inductive Phase
  | outside
  | built (work : ℕ)
  | waiting (work : ℕ)
  | freeing (work : ℕ)
  deriving DecidableEq

def Phase.work? : Phase → Option ℕ
  | .outside => none
  | .built work | .waiting work | .freeing work => some work

/-- Where `dhmp_work_handle_thread` stands. -/
inductive Worker
  | idle
  | holding (work : ℕ)
  | handling (workType : WorkType) (workData : ℕ)
  /-- Between the two assignments of `done_flag` for a send. -/
  | clearing (workData : ℕ)
  | exited
  deriving DecidableEq

structure State where
  books : Books
  queue : List ℕ
  phase : ℕ → Phase
  worker : Worker

inductive Action
  | begin (thread work : ℕ) (workType : WorkType)
  | enqueue (thread : ℕ)
  | wake (thread : ℕ)
  | leave (thread : ℕ)
  | take
  | dispatch
  | use
  | finish
  | clear
  | stop
  deriving DecidableEq

/-- The two halves of a call around the queue. -/
def callStep (s : State) (i : ℕ) : Action → Option State
  | .begin _ work workType =>
    if s.phase i = .outside ∧ s.books.heap work = none then
      some { s with
        books := s.books.begin i work workType
        phase := Function.update s.phase i (.built work) }
    else none
  | .enqueue _ =>
    match s.phase i with
    | .built work => some { s with
        books := s.books.enqueue i
        queue := s.queue ++ [work]
        phase := Function.update s.phase i (.waiting work) }
    | _ => none
  | .wake _ =>
    match s.phase i with
    | .waiting work =>
      if s.books.doneFlag i = some true then
        some { s with phase := Function.update s.phase i (.freeing work) }
      else none
    | _ => none
  | .leave _ =>
    match s.phase i with
    | .freeing work => some { s with
        books := s.books.leave i work
        phase := Function.update s.phase i .outside }
    | _ => none
  | _ => none

/-- What follows the last access of a handler to its work. -/
def afterHandler (workType : WorkType) (workData : ℕ) : Worker :=
  if workType = .SEND then .clearing workData else .idle

/-- A work that has been freed is not dispatched: the read is a fault. -/
def workerStep (s : State) : Action → Option State
  | .take =>
    match s.worker, s.queue with
    | .idle, work :: rest => some { s with
        books := s.books.take work
        queue := rest
        worker := .holding work }
    | _, _ => none
  | .dispatch =>
    match s.worker with
    | .holding work =>
      match s.books.heap work with
      | some w => some { s with worker := .handling w.workType w.workData }
      | none => some { s with books := { s.books with fault := true }, worker := .exited }
    | _ => none
  | .use =>
    match s.worker with
    | .handling _ workData => some { s with books := s.books.touch workData }
    | _ => none
  | .finish =>
    match s.worker with
    | .handling workType workData =>
      let books := s.books.setDone workData
      some { s with
        books := { books with finished := books.finished ++ [books.callId workData] }
        worker := afterHandler workType workData }
    | _ => none
  | .clear =>
    match s.worker with
    | .clearing workData => some { s with books := s.books.setDone workData, worker := .idle }
    | _ => none
  | .stop =>
    match s.worker with
    | .idle => some { s with worker := .exited }
    | _ => none
  | _ => none

def step (s : State) (a : Action) : Option State :=
  match a with
  | .begin i _ _ | .enqueue i | .wake i | .leave i => callStep s i a
  | _ => workerStep s a

/-- What each step needs and does, one branch of the code after the other. -/
inductive Step (s : State) : Action → State → Prop
  | begin {i work : ℕ} {workType : WorkType} (hout : s.phase i = .outside)
      (hfree : s.books.heap work = none) : Step s (.begin i work workType) { s with
        books := s.books.begin i work workType
        phase := Function.update s.phase i (.built work) }
  | enqueue {i work : ℕ} (hbuilt : s.phase i = .built work) : Step s (.enqueue i) { s with
        books := s.books.enqueue i
        queue := s.queue ++ [work]
        phase := Function.update s.phase i (.waiting work) }
  | wake {i work : ℕ} (hwait : s.phase i = .waiting work)
      (hdone : s.books.doneFlag i = some true) : Step s (.wake i) { s with
        phase := Function.update s.phase i (.freeing work) }
  | leave {i work : ℕ} (hfreeing : s.phase i = .freeing work) : Step s (.leave i) { s with
        books := s.books.leave i work
        phase := Function.update s.phase i .outside }
  | take {work : ℕ} {rest : List ℕ} (hidle : s.worker = .idle) (hqueue : s.queue = work :: rest) :
      Step s .take { s with
        books := s.books.take work
        queue := rest
        worker := .holding work }
  | dispatch {work : ℕ} {w : Work} (hhold : s.worker = .holding work)
      (hw : s.books.heap work = some w) :
      Step s .dispatch { s with worker := .handling w.workType w.workData }
  | dispatchFreed {work : ℕ} (hhold : s.worker = .holding work)
      (hnone : s.books.heap work = none) : Step s .dispatch { s with
        books := { s.books with fault := true }
        worker := .exited }
  | use {workType : WorkType} {i : ℕ} (hhandling : s.worker = .handling workType i) :
      Step s .use { s with books := s.books.touch i }
  | finish {workType : WorkType} {i : ℕ} (hhandling : s.worker = .handling workType i) :
      Step s .finish { s with
        books := { s.books.setDone i with
          finished := (s.books.setDone i).finished ++ [(s.books.setDone i).callId i] }
        worker := afterHandler workType i }
  | clear {i : ℕ} (hclearing : s.worker = .clearing i) :
      Step s .clear { s with books := s.books.setDone i, worker := .idle }
  | stop (hidle : s.worker = .idle) : Step s .stop { s with worker := .exited }

theorem Step.of_step {s t : State} {a : Action} (h : step s a = some t) : Step s a t := by
  cases a with
  | begin i work workType =>
    simp only [step, callStep] at h
    split_ifs at h with hif
    cases h
    exact .begin hif.1 hif.2
  | wake i =>
    simp only [step, callStep] at h
    split at h
    · split_ifs at h with hdone
      cases h
      exact .wake ‹_› hdone
    · cases h
  | dispatch =>
    simp only [step, workerStep] at h
    split at h
    · split at h
      · cases h
        exact .dispatch ‹_› ‹_›
      · cases h
        exact .dispatchFreed ‹_› ‹_›
    · cases h
  | enqueue i | leave i | take | use | finish | clear | stop =>
    simp only [step, callStep, workerStep] at h
    split at h
    · cases h
      constructor <;> assumption
    · cases h

theorem Step.step_eq {s t : State} {a : Action} (h : Step s a t) : step s a = some t := by
  cases h <;> simp [step, callStep, workerStep, *]

/-- No call, no work. -/
structure Initial (s : State) : Prop where
  heap : ∀ work, s.books.heap work = none
  doneFlag : ∀ i, s.books.doneFlag i = none
  queued : s.books.queued = []
  taken : s.books.taken = []
  finished : s.books.finished = []
  returned : s.books.returned = []
  fault : s.books.fault = false
  queue : s.queue = []
  phase : ∀ i, s.phase i = .outside
  worker : s.worker = .idle

def queueSystem : System State Action where
  init := Initial
  step := step

/-- No caller gets away between the two assignments of its `done_flag`. -/
def Timely (s : State) : Action → Prop
  | .wake i => s.worker ≠ .clearing i
  | _ => True

/-! ## The invariant -/

/-- The work thread is busy with the work of this thread and has not set its flag. -/
def Worker.Has (s : State) (i : ℕ) : Prop :=
  match s.worker with
  | .holding work => (s.books.heap work).map Work.workData = some i
  | .handling _ workData => workData = i
  | _ => False

/-- A thread whose flag is set has been served. -/
structure Served (s : State) (i : ℕ) : Prop where
  doneFlag : s.books.doneFlag i = some true
  finished : s.books.callId i ∈ s.books.finished

/-- A thread that waits is queued, being served, or served. -/
inductive Waits (s : State) (i work : ℕ) : Prop
  | queued (hmem : work ∈ s.queue) (hflag : s.books.doneFlag i = some false)
  | taken (hhas : Worker.Has s i) (hflag : s.books.doneFlag i = some false)
  | served (h : Served s i)

/-- One thread. -/
def ThreadInv (s : State) (i : ℕ) : Prop :=
  match s.phase i with
  | .outside => s.books.doneFlag i = none
  | .built _ => s.books.doneFlag i = some false ∧ s.books.callId i ∉ s.books.queued
  | .waiting work => Waits s i work
  | .freeing _ => Served s i ∧ s.worker ≠ .clearing i

/-- The work thread. What it has taken and not finished is the call it serves. -/
def WorkerInv (s : State) : Prop :=
  match s.worker with
  | .idle | .exited => s.books.taken = s.books.finished
  | .holding work => ∃ w, s.books.heap work = some w ∧ s.phase w.workData = .waiting work ∧
      work ∉ s.queue ∧ s.books.doneFlag w.workData = some false ∧
      s.books.taken = s.books.finished ++ [s.books.callId w.workData]
  | .handling _ i => (∃ work, s.phase i = .waiting work ∧ work ∉ s.queue) ∧
      s.books.doneFlag i = some false ∧
      s.books.taken = s.books.finished ++ [s.books.callId i]
  | .clearing i => (∃ work, s.phase i = .waiting work) ∧ s.books.doneFlag i = some true ∧
      s.books.taken = s.books.finished

/-- The queue holds works of waiting calls, in the order in which these were queued. -/
structure QueueInv (s : State) : Prop where
  nodup : s.queue.Nodup
  order : s.books.queued = s.books.taken ++ s.queue.filterMap s.books.callOf
  waiting : ∀ work ∈ s.queue, ∃ w, s.books.heap work = some w ∧
    s.phase w.workData = .waiting work ∧ s.books.doneFlag w.workData = some false

/-- The numbers of the calls. -/
structure NumberInv (s : State) : Prop where
  queued : s.books.queued.Nodup
  le_count : ∀ c ∈ s.books.queued, c.2 ≤ s.books.count c.1
  returned : s.books.returned.Nodup
  subset : s.books.returned ⊆ s.books.finished
  inside : ∀ i, s.phase i ≠ .outside → s.books.callId i ∉ s.books.returned

structure CallInv (s : State) : Prop where
  fault : s.books.fault = false
  owner : ∀ i work, (s.phase i).work? = some work →
    (s.books.heap work).map Work.workData = some i
  owned : ∀ work w, s.books.heap work = some w → (s.phase w.workData).work? = some work
  queue : QueueInv s
  worker : WorkerInv s
  numbers : NumberInv s
  thread : ∀ i, ThreadInv s i

/-! ## Each step keeps it -/

section Threads
variable {s t : State} {i work : ℕ}

theorem threadInv_outside (h : s.phase i = .outside) :
    ThreadInv s i ↔ s.books.doneFlag i = none := by
  unfold ThreadInv
  rw [h]

theorem threadInv_built (h : s.phase i = .built work) : ThreadInv s i ↔
    s.books.doneFlag i = some false ∧ s.books.callId i ∉ s.books.queued := by
  unfold ThreadInv
  rw [h]

theorem threadInv_waiting (h : s.phase i = .waiting work) : ThreadInv s i ↔ Waits s i work := by
  unfold ThreadInv
  rw [h]

theorem threadInv_freeing (h : s.phase i = .freeing work) :
    ThreadInv s i ↔ Served s i ∧ s.worker ≠ .clearing i := by
  unfold ThreadInv
  rw [h]

/-- What a thread can rely on: the others leave its frame and its work alone. -/
theorem ThreadInv.frame {s t : State} {j : ℕ} (h : ThreadInv s j) (hphase : t.phase j = s.phase j)
    (hflag : t.books.doneFlag j = s.books.doneFlag j) (hid : t.books.callId j = s.books.callId j)
    (hqueued : s.books.callId j ∈ t.books.queued → s.books.callId j ∈ s.books.queued)
    (hfinished : s.books.finished ⊆ t.books.finished)
    (hqueue : ∀ work, s.phase j = .waiting work → work ∈ s.queue → work ∈ t.queue ∨ Worker.Has t j)
    (hhas : Worker.Has s j → Worker.Has t j)
    (hclear : t.worker = .clearing j → s.worker = .clearing j) : ThreadInv t j := by
  have hserved : Served s j → Served t j := fun hs =>
    ⟨hflag.trans hs.doneFlag, hid ▸ hfinished hs.finished⟩
  cases hp : s.phase j with
  | outside =>
    exact (threadInv_outside (hphase.trans hp)).mpr (hflag.trans ((threadInv_outside hp).mp h))
  | built work =>
    obtain ⟨hfalse, hnew⟩ := (threadInv_built hp).mp h
    exact (threadInv_built (hphase.trans hp)).mpr
      ⟨hflag.trans hfalse, fun hmem => hnew (hqueued (hid ▸ hmem))⟩
  | freeing work =>
    obtain ⟨hs, hw⟩ := (threadInv_freeing hp).mp h
    exact (threadInv_freeing (hphase.trans hp)).mpr ⟨hserved hs, fun hc => hw (hclear hc)⟩
  | waiting work =>
    refine (threadInv_waiting (hphase.trans hp)).mpr ?_
    cases (threadInv_waiting hp).mp h with
    | queued hmem hfalse =>
      rcases hqueue work hp hmem with hmem | hhas
      · exact .queued hmem (hflag.trans hfalse)
      · exact .taken hhas (hflag.trans hfalse)
    | taken hold hfalse => exact .taken (hhas hold) (hflag.trans hfalse)
    | served hs => exact .served (hserved hs)

/-- The thread that the work thread is at. -/
def Worker.At (s : State) (i : ℕ) : Prop := Worker.Has s i ∨ s.worker = .clearing i

/-- What the work thread can rely on. -/
theorem WorkerInv.frame (h : WorkerInv s) (hworker : t.worker = s.worker)
    (htaken : t.books.taken = s.books.taken) (hfinished : t.books.finished = s.books.finished)
    (hheap : ∀ a w, s.worker = .holding a → s.books.heap a = some w → t.books.heap a = some w)
    (hat : ∀ j, Worker.At s j → t.phase j = s.phase j ∧
      t.books.doneFlag j = s.books.doneFlag j ∧ t.books.callId j = s.books.callId j)
    (hqueue : ∀ j a, Worker.At s j → s.phase j = .waiting a → a ∈ t.queue → a ∈ s.queue) :
    WorkerInv t := by
  unfold WorkerInv at *
  rw [hworker, htaken, hfinished]
  cases hw : s.worker with
  | idle => rwa [hw] at h
  | exited => rwa [hw] at h
  | holding a =>
    rw [hw] at h
    obtain ⟨w, ha, hwait, hmem, hflag, hcalls⟩ := h
    have hhas : Worker.At s w.workData := .inl (by
      unfold Worker.Has
      rw [hw]
      simp [ha])
    obtain ⟨hphase, hdone, hid⟩ := hat _ hhas
    exact ⟨w, hheap a w hw ha, hphase.trans hwait, fun hmem' => hmem (hqueue _ a hhas hwait hmem'),
      hdone.trans hflag, hid ▸ hcalls⟩
  | handling workType i =>
    rw [hw] at h
    obtain ⟨⟨a, hwait, hmem⟩, hflag, hcalls⟩ := h
    have hhas : Worker.At s i := .inl (by
      unfold Worker.Has
      rw [hw])
    obtain ⟨hphase, hdone, hid⟩ := hat _ hhas
    exact ⟨⟨a, hphase.trans hwait, fun hmem' => hmem (hqueue _ a hhas hwait hmem')⟩,
      hdone.trans hflag, hid ▸ hcalls⟩
  | clearing i =>
    rw [hw] at h
    obtain ⟨⟨a, hwait⟩, hflag, hcalls⟩ := h
    obtain ⟨hphase, hdone, -⟩ := hat _ (.inr hw)
    exact ⟨⟨a, hphase.trans hwait⟩, hdone.trans hflag, hcalls⟩

/-- It is at a thread that waits. -/
theorem WorkerInv.waiting (h : WorkerInv s) (hat : Worker.At s i) :
    ∃ work, s.phase i = .waiting work ∧
      (s.worker ≠ .clearing i → s.books.doneFlag i = some false ∧ work ∉ s.queue) := by
  unfold WorkerInv at h
  unfold Worker.At Worker.Has at hat
  cases hw : s.worker with
  | idle => simp [hw] at hat
  | exited => simp [hw] at hat
  | holding a =>
    rw [hw] at h hat
    obtain ⟨w, ha, hwait, hmem, hflag, -⟩ := h
    obtain rfl : w.workData = i := by simpa [ha] using hat
    exact ⟨a, hwait, fun _ => ⟨hflag, hmem⟩⟩
  | handling workType j =>
    rw [hw] at h hat
    obtain ⟨⟨a, hwait, hmem⟩, hflag, -⟩ := h
    obtain rfl : j = i := by simpa using hat
    exact ⟨a, hwait, fun _ => ⟨hflag, hmem⟩⟩
  | clearing j =>
    rw [hw] at h hat
    obtain ⟨⟨a, hwait⟩, -, -⟩ := h
    obtain rfl : j = i := by simpa using hat
    exact ⟨a, hwait, fun hne => absurd rfl hne⟩

end Threads

namespace CallInv
variable {s : State} {i work : ℕ} {workType : WorkType} {rest : List ℕ} {w : Work}

/-- What is finished has been taken, in this order. -/
theorem finished_prefix (h : CallInv s) : s.books.finished <+: s.books.taken := by
  have hworker := h.worker
  unfold WorkerInv at hworker
  cases hw : s.worker with
  | idle => rw [hw] at hworker; exact hworker ▸ List.prefix_rfl
  | exited => rw [hw] at hworker; exact hworker ▸ List.prefix_rfl
  | holding work =>
    rw [hw] at hworker
    obtain ⟨w, -, -, -, -, htaken⟩ := hworker
    exact htaken ▸ List.prefix_append _ _
  | handling workType i =>
    rw [hw] at hworker
    exact hworker.2.2 ▸ List.prefix_append _ _
  | clearing i =>
    rw [hw] at hworker
    exact hworker.2.2 ▸ List.prefix_rfl

theorem taken_prefix (h : CallInv s) : s.books.taken <+: s.books.queued :=
  h.queue.order ▸ List.prefix_append _ _

/-- The calls that have returned were queued. -/
theorem returned_queued (h : CallInv s) : s.books.returned ⊆ s.books.queued := fun _ hc =>
  h.taken_prefix.subset (h.finished_prefix.subset (h.numbers.subset hc))

theorem begin (h : CallInv s) (hout : s.phase i = .outside) (hfree : s.books.heap work = none) :
    CallInv { s with
      books := s.books.begin i work workType
      phase := Function.update s.phase i (.built work) } := by
  have hother : ∀ a w, s.books.heap a = some w → a ≠ work ∧ w.workData ≠ i := by
    intro a w ha
    refine ⟨fun heq => ?_, fun heq => ?_⟩
    · rw [heq, hfree] at ha
      cases ha
    · have hphase := h.owned a w ha
      rw [heq, hout] at hphase
      cases hphase
  have hcount : ∀ c ∈ s.books.queued, c.2 < (s.books.begin i work workType).count c.1 ∨
      c.1 ≠ i := by
    intro c hc
    have hle := h.numbers.le_count c hc
    by_cases hci : c.1 = i
    · refine .inl ?_
      simp only [Books.begin, Function.update_apply, hci, if_true]
      rw [hci] at hle
      omega
    · exact .inr hci
  refine ⟨h.fault, ?_, ?_, ⟨h.queue.nodup, ?_, ?_⟩, ?_, ⟨h.numbers.queued, ?_,
    h.numbers.returned, h.numbers.subset, ?_⟩, ?_⟩
  · intro j a ha
    have howner := h.owner j a
    simp only [Function.update_apply, Books.begin] at *
    grind [Phase.work?]
  · intro a w' ha
    have howned := h.owned a w'
    simp only [Function.update_apply, Books.begin] at *
    grind [Phase.work?]
  · have hcall : ∀ a ∈ s.queue, (s.books.begin i work workType).callOf a = s.books.callOf a := by
      intro a ha
      obtain ⟨w', hw', -, -⟩ := h.queue.waiting a ha
      have hne := hother a w' hw'
      simp [Books.callOf, Books.begin, Books.callId, hne, hw']
    rw [List.filterMap_congr hcall]
    exact h.queue.order
  · intro a ha
    obtain ⟨w', hw', hphase, hflag⟩ := h.queue.waiting a ha
    have hne := hother a w' hw'
    exact ⟨w', by simp [Books.begin, hne, hw'], by simp [hne, hphase],
      by simp [Books.begin, hne, hflag]⟩
  · refine h.worker.frame rfl rfl rfl ?_ ?_ fun _ _ _ _ hmem => hmem
    · exact fun a w _ ha => (Function.update_of_ne (hother a w ha).1 ..).trans ha
    · intro j hat
      obtain ⟨a, hwait, -⟩ := h.worker.waiting hat
      have hji : j ≠ i := by
        rintro rfl
        rw [hout] at hwait
        cases hwait
      exact ⟨Function.update_of_ne hji .., Function.update_of_ne hji ..,
        Prod.ext rfl (Function.update_of_ne hji ..)⟩
  · intro c hc
    have hle := h.numbers.le_count c hc
    simp only [Function.update_apply, Books.begin]
    grind
  · intro j hj hmem
    by_cases hji : j = i
    · have hlt := hcount _ (h.returned_queued hmem)
      subst hji
      simp [Books.callId] at hlt
    · have hcall : (s.books.begin i work workType).callId j = s.books.callId j :=
        Prod.ext rfl (Function.update_of_ne hji ..)
      refine h.numbers.inside j (fun hout => hj ?_) (hcall ▸ hmem)
      exact (Function.update_of_ne hji ..).trans hout
  · intro j
    by_cases hj : j = i
    · subst hj
      refine (threadInv_built (Function.update_self ..)).mpr ⟨Function.update_self .., ?_⟩
      intro hmem
      have hlt := hcount _ hmem
      simp [Books.callId] at hlt
    · refine (h.thread j).frame (Function.update_of_ne hj ..) (Function.update_of_ne hj ..) ?_
        id (List.Subset.refl _) (fun _ _ hmem => .inl hmem) ?_ id
      · exact Prod.ext rfl (Function.update_of_ne hj ..)
      · unfold Worker.Has
        cases s.worker with
        | holding a =>
          intro hhas
          obtain ⟨w', hw', rfl⟩ := Option.map_eq_some_iff.mp hhas
          simp [Books.begin, hother a w' hw', hw']
        | _ => exact id

theorem enqueue (h : CallInv s) (hbuilt : s.phase i = .built work) :
    CallInv { s with
      books := s.books.enqueue i
      queue := s.queue ++ [work]
      phase := Function.update s.phase i (.waiting work) } := by
  obtain ⟨hflag, hnew⟩ : s.books.doneFlag i = some false ∧
      s.books.callId i ∉ s.books.queued := (threadInv_built hbuilt).mp (h.thread i)
  have hheap : (s.books.heap work).map Work.workData = some i :=
    h.owner i work (by rw [hbuilt]; rfl)
  obtain ⟨w, hw, rfl⟩ := Option.map_eq_some_iff.mp hheap
  have hwork : work ∉ s.queue := by
    intro hmem
    obtain ⟨w', hw', hphase, -⟩ := h.queue.waiting work hmem
    obtain rfl := Option.some.inj (hw.symm.trans hw')
    rw [hbuilt] at hphase
    cases hphase
  refine ⟨h.fault, ?_, ?_, ⟨?_, ?_, ?_⟩, ?_, ⟨?_, ?_, h.numbers.returned, h.numbers.subset, ?_⟩,
    ?_⟩
  · intro j a ha
    have howner := h.owner j a
    simp only [Function.update_apply, Books.enqueue] at *
    grind [Phase.work?]
  · intro a w' ha
    have howned := h.owned a w'
    simp only [Function.update_apply, Books.enqueue] at *
    grind [Phase.work?]
  · rw [List.nodup_append]
    exact ⟨h.queue.nodup, List.nodup_singleton _, fun a ha b hb hab =>
      hwork (by rw [← List.mem_singleton.mp hb, ← hab]; exact ha)⟩
  · have hcall : s.books.callOf work = some (s.books.callId w.workData) := by
      rw [Books.callOf, hw]
      rfl
    calc s.books.queued ++ [s.books.callId w.workData]
        = s.books.taken ++ (s.queue.filterMap s.books.callOf ++ [s.books.callId w.workData]) := by
          rw [h.queue.order, List.append_assoc]
      _ = s.books.taken ++ (s.queue ++ [work]).filterMap s.books.callOf := by
          simp [hcall]
  · intro a ha
    rcases List.mem_append.mp ha with ha | ha
    · obtain ⟨w', hw', hphase, hflag'⟩ := h.queue.waiting a ha
      refine ⟨w', hw', ?_, hflag'⟩
      simp only [Function.update_apply]
      grind
    · obtain rfl := List.mem_singleton.mp ha
      exact ⟨w, hw, Function.update_self .., hflag⟩
  · have hne : ∀ j, Worker.At s j → j ≠ w.workData := by
      rintro j hat rfl
      obtain ⟨a, hwait, -⟩ := h.worker.waiting hat
      rw [hbuilt] at hwait
      cases hwait
    refine h.worker.frame rfl rfl rfl (fun _ _ _ ha => ha) ?_ ?_
    · exact fun j hat => ⟨Function.update_of_ne (hne j hat) .., rfl, rfl⟩
    · intro j a hat hwait hmem
      refine (List.mem_append.mp hmem).resolve_right fun heq => hne j hat ?_
      have howner := h.owner j a (by rw [hwait]; rfl)
      rw [List.mem_singleton.mp heq, hw] at howner
      exact (Option.some.inj howner).symm
  · show (s.books.queued ++ [s.books.callId w.workData]).Nodup
    rw [List.nodup_append]
    exact ⟨h.numbers.queued, List.nodup_singleton _, fun a ha b hb hab =>
      hnew (by rw [← List.mem_singleton.mp hb, ← hab]; exact ha)⟩
  · intro c hc
    rcases List.mem_append.mp hc with hc | hc
    · exact h.numbers.le_count c hc
    · rw [List.mem_singleton.mp hc]
      exact le_rfl
  · intro j hj
    refine h.numbers.inside j ?_
    simp only [Function.update_apply] at hj
    grind
  · intro j
    by_cases hj : j = w.workData
    · subst hj
      exact (threadInv_waiting (Function.update_self ..)).mpr (.queued (by simp) hflag)
    · refine (h.thread j).frame (Function.update_of_ne hj ..) rfl rfl ?_ (List.Subset.refl _)
        (fun _ _ hmem => .inl (List.mem_append_left _ hmem)) id id
      intro hmem
      refine (List.mem_append.mp hmem).resolve_right fun heq => hj ?_
      exact congrArg Prod.fst (List.mem_singleton.mp heq)

theorem wake (h : CallInv s) (hwait : s.phase i = .waiting work)
    (hdone : s.books.doneFlag i = some true) (htimely : s.worker ≠ .clearing i) :
    CallInv { s with phase := Function.update s.phase i (.freeing work) } := by
  have hserved : Served s i := by
    cases (threadInv_waiting hwait).mp (h.thread i) with
    | queued _ hfalse => simp [hdone] at hfalse
    | taken _ hfalse => simp [hdone] at hfalse
    | served hs => exact hs
  have hne : ∀ j, Worker.At s j → j ≠ i := by
    rintro j hat rfl
    obtain ⟨a, -, hflag⟩ := h.worker.waiting hat
    have hfalse := (hflag htimely).1
    simp [hdone] at hfalse
  refine ⟨h.fault, ?_, ?_, ⟨h.queue.nodup, h.queue.order, ?_⟩, ?_, ⟨h.numbers.queued,
    h.numbers.le_count, h.numbers.returned, h.numbers.subset, ?_⟩, ?_⟩
  · intro j a ha
    have howner := h.owner j a
    simp only [Function.update_apply] at *
    grind [Phase.work?]
  · intro a w ha
    have howned := h.owned a w
    simp only [Function.update_apply] at *
    grind [Phase.work?]
  · intro a ha
    obtain ⟨w, hw, hphase, hfalse⟩ := h.queue.waiting a ha
    refine ⟨w, hw, ?_, hfalse⟩
    refine (Function.update_of_ne ?_ ..).trans hphase
    rintro rfl
    simp [hdone] at hfalse
  · refine h.worker.frame rfl rfl rfl (fun _ _ _ ha => ha) ?_ fun _ _ _ _ hmem => hmem
    exact fun j hat => ⟨Function.update_of_ne (hne j hat) .., rfl, rfl⟩
  · intro j hj
    refine h.numbers.inside j fun hout => hj ?_
    refine (Function.update_of_ne ?_ ..).trans hout
    rintro rfl
    rw [hwait] at hout
    cases hout
  · intro j
    by_cases hj : j = i
    · subst hj
      exact (threadInv_freeing (Function.update_self ..)).mpr
        ⟨⟨hserved.doneFlag, hserved.finished⟩, htimely⟩
    · exact (h.thread j).frame (Function.update_of_ne hj ..) rfl rfl id (List.Subset.refl _)
        (fun _ _ hmem => .inl hmem) id id

theorem leave (h : CallInv s) (hfreeing : s.phase i = .freeing work) :
    CallInv { s with
      books := s.books.leave i work
      phase := Function.update s.phase i .outside } := by
  obtain ⟨hserved, -⟩ := (threadInv_freeing hfreeing).mp (h.thread i)
  obtain ⟨w, hw, rfl⟩ := Option.map_eq_some_iff.mp (h.owner i work (by rw [hfreeing]; rfl))
  have hother : ∀ a w', s.books.heap a = some w' → s.phase w'.workData = .waiting a →
      a ≠ work ∧ w'.workData ≠ w.workData := by
    intro a w' ha hphase
    have hne : w'.workData ≠ w.workData := by
      intro heq
      rw [heq, hfreeing] at hphase
      cases hphase
    refine ⟨?_, hne⟩
    rintro rfl
    exact hne (congrArg Work.workData (Option.some.inj (ha.symm.trans hw)))
  refine ⟨h.fault, ?_, ?_, ⟨h.queue.nodup, ?_, ?_⟩, ?_, ⟨h.numbers.queued,
    h.numbers.le_count, ?_, ?_, ?_⟩, ?_⟩
  · intro j a ha
    have howner := h.owner j a
    simp only [Function.update_apply, Books.leave] at *
    grind [Phase.work?]
  · intro a w' ha
    have howned := h.owned a w'
    simp only [Function.update_apply, Books.leave] at *
    grind [Phase.work?]
  · have hcall : ∀ a ∈ s.queue,
        (s.books.leave w.workData work).callOf a = s.books.callOf a := by
      intro a ha
      obtain ⟨w', hw', hphase, -⟩ := h.queue.waiting a ha
      simp [Books.callOf, Books.leave, Books.callId, (hother a w' hw' hphase).1]
    rw [List.filterMap_congr hcall]
    exact h.queue.order
  · intro a ha
    obtain ⟨w', hw', hphase, hfalse⟩ := h.queue.waiting a ha
    obtain ⟨hawork, hne⟩ := hother a w' hw' hphase
    exact ⟨w', (Function.update_of_ne hawork ..).trans hw',
      (Function.update_of_ne hne ..).trans hphase, (Function.update_of_ne hne ..).trans hfalse⟩
  · refine h.worker.frame rfl rfl rfl ?_ ?_ fun _ _ _ _ hmem => hmem
    · intro a w' hhold ha
      have hat : Worker.At s w'.workData := .inl (by
        unfold Worker.Has
        rw [hhold]
        simp [ha])
      obtain ⟨a', hwait, -⟩ := h.worker.waiting hat
      have howner := h.owned a w' ha
      rw [hwait] at howner
      obtain rfl := Option.some.inj howner
      exact (Function.update_of_ne (hother _ w' ha hwait).1 ..).trans ha
    · intro j hat
      obtain ⟨a, hwait, -⟩ := h.worker.waiting hat
      have hji : j ≠ w.workData := by
        rintro rfl
        rw [hfreeing] at hwait
        cases hwait
      exact ⟨Function.update_of_ne hji .., Function.update_of_ne hji .., rfl⟩
  · have hnew := h.numbers.inside w.workData (by rw [hfreeing]; exact Phase.noConfusion)
    show (s.books.returned ++ [s.books.callId w.workData]).Nodup
    rw [List.nodup_append]
    exact ⟨h.numbers.returned, List.nodup_singleton _, fun a ha b hb hab =>
      hnew (by rw [← List.mem_singleton.mp hb, ← hab]; exact ha)⟩
  · intro c hc
    rcases List.mem_append.mp hc with hc | hc
    · exact h.numbers.subset hc
    · rw [List.mem_singleton.mp hc]
      exact hserved.finished
  · intro j hj hmem
    have hji : j ≠ w.workData := by
      rintro rfl
      exact hj (Function.update_self ..)
    rcases List.mem_append.mp hmem with hmem | hmem
    · refine h.numbers.inside j (fun hout => hj ?_) hmem
      exact (Function.update_of_ne hji ..).trans hout
    · exact hji (congrArg Prod.fst (List.mem_singleton.mp hmem))
  · intro j
    by_cases hj : j = w.workData
    · subst hj
      exact (threadInv_outside (Function.update_self ..)).mpr (Function.update_self ..)
    · refine (h.thread j).frame (Function.update_of_ne hj ..) (Function.update_of_ne hj ..) rfl id
        (List.Subset.refl _) (fun _ _ hmem => .inl hmem) ?_ id
      unfold Worker.Has
      cases hworker : s.worker with
      | holding a =>
        intro hhas
        have hat : Worker.At s j := .inl (by
          unfold Worker.Has
          rwa [hworker])
        obtain ⟨w', hw', rfl⟩ := Option.map_eq_some_iff.mp hhas
        obtain ⟨a', hwait, -⟩ := h.worker.waiting hat
        have howner := h.owned a w' hw'
        rw [hwait] at howner
        obtain rfl := Option.some.inj howner
        have hne := (hother _ w' hw' hwait).1
        simp [Books.leave, hne, hw']
      | _ => exact id

/-- The first work of the queue goes to the work thread. -/
theorem take (h : CallInv s) (hidle : s.worker = .idle) (hqueue : s.queue = work :: rest) :
    CallInv { s with books := s.books.take work, queue := rest, worker := .holding work } := by
  have hmem : work ∈ s.queue := hqueue ▸ List.mem_cons_self
  obtain ⟨w, hw, hwait, hflag⟩ := h.queue.waiting work hmem
  have hnodup := h.queue.nodup
  rw [hqueue, List.nodup_cons] at hnodup
  have hcall : s.books.callOf work = some (s.books.callId w.workData) := by
    rw [Books.callOf, hw]
    rfl
  have hworker := h.worker
  unfold WorkerInv at hworker
  rw [hidle] at hworker
  have htake : (s.books.take work).taken = s.books.taken ++ [s.books.callId w.workData] := by
    rw [Books.take, hcall]
    rfl
  refine ⟨h.fault, h.owner, h.owned, ⟨hnodup.2, ?_, ?_⟩, ?_, ⟨h.numbers.queued,
    h.numbers.le_count, h.numbers.returned, h.numbers.subset, h.numbers.inside⟩, ?_⟩
  · show s.books.queued = (s.books.take work).taken ++ rest.filterMap s.books.callOf
    rw [htake, h.queue.order, hqueue, List.filterMap_cons, hcall]
    simp
  · exact fun a ha => h.queue.waiting a (hqueue ▸ List.mem_cons_of_mem _ ha)
  · exact ⟨w, hw, hwait, hnodup.1, hflag, by rw [htake, hworker]; rfl⟩
  · intro j
    refine (h.thread j).frame rfl rfl rfl id (List.Subset.refl _) ?_ ?_ (fun hc => by cases hc)
    · intro a ha hmem'
      rw [hqueue] at hmem'
      rcases List.mem_cons.mp hmem' with rfl | hrest
      · refine .inr ?_
        have howner := h.owner j a (by rw [ha]; rfl)
        exact howner
      · exact .inl hrest
    · unfold Worker.Has
      rw [hidle]
      exact False.elim

theorem dispatch (h : CallInv s) (hhold : s.worker = .holding work)
    (hw : s.books.heap work = some w) :
    CallInv { s with worker := .handling w.workType w.workData } := by
  have hworker := h.worker
  unfold WorkerInv at hworker
  rw [hhold] at hworker
  obtain ⟨w', hw', hwait, hmem, hflag, hcalls⟩ := hworker
  obtain rfl := Option.some.inj (hw.symm.trans hw')
  refine ⟨h.fault, h.owner, h.owned, ⟨h.queue.nodup, h.queue.order, h.queue.waiting⟩,
    ⟨⟨work, hwait, hmem⟩, hflag, hcalls⟩, ⟨h.numbers.queued, h.numbers.le_count,
    h.numbers.returned, h.numbers.subset, h.numbers.inside⟩, ?_⟩
  intro j
  refine (h.thread j).frame rfl rfl rfl id (List.Subset.refl _) (fun _ _ hmem => .inl hmem) ?_
    (fun hc => by cases hc)
  unfold Worker.Has
  rw [hhold]
  intro hhas
  simpa [hw] using hhas

/-- The frame of the caller is there as long as it is being served. -/
theorem use (h : CallInv s) (hhandling : s.worker = .handling workType i) :
    CallInv { s with books := s.books.touch i } := by
  have hworker := h.worker
  unfold WorkerInv at hworker
  rw [hhandling] at hworker
  have htouch : s.books.touch i = s.books := by
    simp [Books.touch, hworker.2.1]
  rw [htouch]
  exact h

/-- The first assignment of `done_flag`. -/
theorem finish (h : CallInv s) (hhandling : s.worker = .handling workType i) :
    CallInv { s with
      books := { s.books.setDone i with
        finished := (s.books.setDone i).finished ++ [(s.books.setDone i).callId i] }
      worker := afterHandler workType i } := by
  have hworker := h.worker
  unfold WorkerInv at hworker
  rw [hhandling] at hworker
  obtain ⟨⟨work, hwait, hmem⟩, hflag, hcalls⟩ := hworker
  have hother : ∀ a ∈ s.queue, ∀ w, s.books.heap a = some w →
      s.phase w.workData = .waiting a → w.workData ≠ i := by
    rintro a ha w - hphase rfl
    rw [hwait] at hphase
    obtain rfl := Phase.waiting.inj hphase
    exact hmem ha
  refine ⟨?_, h.owner, h.owned, ⟨h.queue.nodup, h.queue.order, ?_⟩, ?_, ⟨h.numbers.queued,
    h.numbers.le_count, h.numbers.returned, ?_, h.numbers.inside⟩, ?_⟩
  · simp [Books.setDone, Books.touch, hflag, h.fault]
  · intro a ha
    obtain ⟨w, hw, hphase, hfalse⟩ := h.queue.waiting a ha
    exact ⟨w, hw, hphase, (Function.update_of_ne (hother a ha w hw hphase) ..).trans hfalse⟩
  · unfold WorkerInv afterHandler
    by_cases hsend : workType = .SEND
    · rw [if_pos hsend]
      exact ⟨⟨work, hwait⟩, by simp [Books.setDone, hflag], hcalls⟩
    · rw [if_neg hsend]
      exact hcalls
  · exact fun c hc => List.mem_append_left _ (h.numbers.subset hc)
  · intro j
    by_cases hj : j = i
    · subst hj
      refine (threadInv_waiting (by exact hwait)).mpr
        (.served ⟨?_, List.mem_append_right _ ?_⟩)
      · simp [Books.setDone, hflag]
      · exact List.mem_singleton_self _
    · refine (h.thread j).frame rfl (Function.update_of_ne hj ..) rfl id
        (List.subset_append_left _ _) (fun _ _ hmem => .inl hmem) ?_ ?_
      · unfold Worker.Has
        rw [hhandling]
        exact fun heq => absurd heq.symm hj
      · intro hc
        unfold afterHandler at hc
        split_ifs at hc
        exact absurd (Worker.clearing.inj hc).symm hj

/-- The second assignment changes nothing while the caller is still there. -/
theorem clear (h : CallInv s) (hclearing : s.worker = .clearing i) :
    CallInv { s with books := s.books.setDone i, worker := .idle } := by
  have hworker := h.worker
  unfold WorkerInv at hworker
  rw [hclearing] at hworker
  obtain ⟨-, hflag, hcalls⟩ := hworker
  have hdone : s.books.setDone i = s.books := by
    have hsame : Function.update s.books.doneFlag i ((s.books.doneFlag i).map fun _ => true) =
        s.books.doneFlag := by
      rw [hflag, Option.map_some, ← hflag, Function.update_eq_self]
    simp only [Books.setDone, hsame]
    simp [Books.touch, hflag]
  rw [hdone]
  refine ⟨h.fault, h.owner, h.owned, ⟨h.queue.nodup, h.queue.order, h.queue.waiting⟩, hcalls,
    ⟨h.numbers.queued, h.numbers.le_count, h.numbers.returned, h.numbers.subset,
    h.numbers.inside⟩, ?_⟩
  intro j
  refine (h.thread j).frame rfl rfl rfl id (List.Subset.refl _) (fun _ _ hmem => .inl hmem) ?_
    (fun hc => by cases hc)
  unfold Worker.Has
  rw [hclearing]
  exact False.elim

theorem stop (h : CallInv s) (hidle : s.worker = .idle) :
    CallInv { s with worker := .exited } := by
  have hworker := h.worker
  unfold WorkerInv at hworker
  rw [hidle] at hworker
  refine ⟨h.fault, h.owner, h.owned, ⟨h.queue.nodup, h.queue.order, h.queue.waiting⟩, hworker,
    ⟨h.numbers.queued, h.numbers.le_count, h.numbers.returned, h.numbers.subset,
    h.numbers.inside⟩, ?_⟩
  intro j
  refine (h.thread j).frame rfl rfl rfl id (List.Subset.refl _) (fun _ _ hmem => .inl hmem) ?_
    (fun hc => by cases hc)
  unfold Worker.Has
  rw [hidle]
  exact False.elim

theorem init (h : Initial s) : CallInv s := by
  refine ⟨h.fault, ?_, ?_, ⟨?_, ?_, ?_⟩, ?_, ⟨?_, ?_, ?_, ?_, ?_⟩, ?_⟩
  · intro i a ha
    rw [h.phase] at ha
    cases ha
  · intro a w ha
    rw [h.heap] at ha
    cases ha
  · rw [h.queue]
    exact List.nodup_nil
  · rw [h.queued, h.taken, h.queue]
    rfl
  · rw [h.queue]
    exact fun a ha => absurd ha List.not_mem_nil
  · unfold WorkerInv
    rw [h.worker, h.taken, h.finished]
  · rw [h.queued]
    exact List.nodup_nil
  · rw [h.queued]
    exact fun c hc => absurd hc List.not_mem_nil
  · rw [h.returned]
    exact List.nodup_nil
  · rw [h.returned]
    exact List.nil_subset _
  · exact fun i hi => absurd (h.phase i) hi
  · exact fun i => (threadInv_outside (h.phase i)).mpr (h.doneFlag i)

theorem of_step {t : State} {a : Action} (h : CallInv s) (hc : Timely s a)
    (ht : step s a = some t) : CallInv t := by
  cases Step.of_step ht with
  | begin hout hfree => exact h.begin hout hfree
  | enqueue hbuilt => exact h.enqueue hbuilt
  | wake hwait hdone => exact h.wake hwait hdone hc
  | leave hfreeing => exact h.leave hfreeing
  | take hidle hqueue => exact h.take hidle hqueue
  | dispatch hhold hw => exact h.dispatch hhold hw
  | dispatchFreed hhold hnone =>
    -- The work in hand has not been freed.
    have hworker := h.worker
    unfold WorkerInv at hworker
    rw [hhold] at hworker
    obtain ⟨w, hw, -⟩ := hworker
    rw [hnone] at hw
    cases hw
  | use hhandling => exact h.use hhandling
  | finish hhandling => exact h.finish hhandling
  | clear hclearing => exact h.clear hclearing
  | stop hidle => exact h.stop hidle

end CallInv

/-! ## Calls are served in order -/

/-- Every call is served once, in the order of the queue, and returns only afterwards. -/
structure InOrder (b : Books) : Prop where
  fault : b.fault = false
  queued : b.queued.Nodup
  taken : b.taken <+: b.queued
  finished : b.finished <+: b.taken
  returned : b.returned ⊆ b.finished
  once : b.returned.Nodup

theorem CallInv.inOrder {s : State} (h : CallInv s) : InOrder s.books where
  fault := h.fault
  queued := h.numbers.queued
  taken := h.taken_prefix
  finished := h.finished_prefix
  returned := h.numbers.subset
  once := h.numbers.returned

theorem callInv_of_timely {s : State} (h : Reach queueSystem Timely s) : CallInv s :=
  h.invariant (fun _ h0 => CallInv.init h0) fun _ _ _ hs hc ht => hs.of_step hc ht

end RdmaMiddleware.WorkQueue
