import RdmaMiddleware.LinkedLists
import RdmaMiddleware.WorkQueue

/-!
# The work list

`work_list` is a list of `list_head`s linked by single stores under `mutex_work_list`. Its
critical sections, store by store and in any order of the threads, implement the atomic queue.
-/
namespace RdmaMiddleware.WorkList
open TransitionSystem LinkedLists WorkQueue

/-- Where a `struct list_head *` points. -/
inductive ListHead
  | work_list
  | work_entry (work : ℕ)
  | LIST_POISON1
  | LIST_POISON2
  deriving DecidableEq

/-- What the holder of `mutex_work_list` has still to do. -/
inductive Critical
  | linking (thread : ℕ) (stores : List (Store ListHead))
  /-- The work thread, before `list_empty`. -/
  | testing
  | unlinking (stores : List (Store ListHead))
  | unlocking

/-- While a thread holds the mutex it stands where the critical section leaves it. -/
structure State where
  books : Books
  phase : ℕ → Phase
  worker : Worker
  links : Links ListHead
  critical : Option Critical

inductive Action
  /-- A step outside the critical sections. -/
  | call (a : WorkQueue.Action)
  | work (a : WorkQueue.Action)
  | lock (thread : ℕ)
  | workerLock
  | test
  | store
  | unlock

namespace State

/-- Whether an access to the node is one to memory that is there. -/
def live (s : State) : ListHead → Bool
  | .work_list => true
  | .work_entry work => (s.books.heap work).isSome
  | .LIST_POISON1 | .LIST_POISON2 => false

def access (s : State) (p : ListHead) : Books :=
  { s.books with fault := s.books.fault || !s.live p }

/-- The state as one of the atomic queue. -/
def withQueue (s : State) (queue : List ℕ) : WorkQueue.State :=
  ⟨s.books, queue, s.phase, s.worker⟩

def lift (s : State) (t : WorkQueue.State) : State :=
  { s with books := t.books, phase := t.phase, worker := t.worker }

/-- The stores that are still to come. -/
def stores (s : State) : List (Store ListHead) :=
  match s.critical with
  | some (.linking _ stores) | some (.unlinking stores) => stores
  | _ => []

section
variable {s : State} {stores : List (Store ListHead)}

theorem stores_of_none (h : s.critical = none) : s.stores = [] := by
  unfold State.stores
  rw [h]

theorem stores_of_linking {i : ℕ} (h : s.critical = some (.linking i stores)) :
    s.stores = stores := by
  unfold State.stores
  rw [h]

theorem stores_of_testing (h : s.critical = some .testing) : s.stores = [] := by
  unfold State.stores
  rw [h]

theorem stores_of_unlinking (h : s.critical = some (.unlinking stores)) : s.stores = stores := by
  unfold State.stores
  rw [h]

theorem stores_of_unlocking (h : s.critical = some .unlocking) : s.stores = [] := by
  unfold State.stores
  rw [h]

end

/-- Whether the critical section is one of the work thread. -/
def workerInside (s : State) : Bool :=
  match s.critical with
  | none | some (.linking _ _) => false
  | _ => true

def threadInside (s : State) (i : ℕ) : Bool :=
  match s.critical with
  | some (.linking j _) => i = j
  | _ => false

end State

/-- A store to a link field. -/
def storeStep (s : State) (st : Store ListHead) (critical : Critical) : State :=
  { s with
    books := s.access st.target
    links := st.apply s.links
    critical := some critical }

/-- `list_empty`, then `list_first_entry` and the reads of `list_del`. -/
def testStep (s : State) : State :=
  if isEmpty s.links .work_list then { s with critical := some .unlocking }
  else
    match s.links.next .work_list with
    | .work_entry work => { s with
        books := (s.access (.work_entry work)).take work
        worker := .holding work
        critical := some (.unlinking
          (delStores .LIST_POISON1 .LIST_POISON2 s.links (.work_entry work))) }
    | p => { s with books := s.access p, worker := .exited, critical := none }

def step (s : State) : Action → Option State
  | .call (.begin i work workType) =>
    (WorkQueue.step (s.withQueue []) (.begin i work workType)).map s.lift
  | .call (.wake i) =>
    if s.threadInside i then none else (WorkQueue.step (s.withQueue []) (.wake i)).map s.lift
  | .call (.leave i) => (WorkQueue.step (s.withQueue []) (.leave i)).map s.lift
  | .call _ => none
  | .work (.begin _ _ _) | .work (.enqueue _) | .work (.wake _) | .work (.leave _)
  | .work .take => none
  | .work a =>
    if s.workerInside then none else (WorkQueue.step (s.withQueue []) a).map s.lift
  | .lock i =>
    match s.phase i, s.critical with
    | .built work, none => some { s with
        books := s.books.enqueue i
        phase := Function.update s.phase i (.waiting work)
        critical := some (.linking i (addTailStores s.links (.work_entry work) .work_list)) }
    | _, _ => none
  | .workerLock =>
    if s.worker = .idle ∧ s.critical.isNone then some { s with critical := some .testing } else none
  | .test =>
    match s.critical with
    | some .testing => some (testStep s)
    | _ => none
  | .store =>
    match s.critical with
    | some (.linking i (st :: rest)) => some (storeStep s st (.linking i rest))
    | some (.unlinking (st :: rest)) => some (storeStep s st (.unlinking rest))
    | _ => none
  | .unlock =>
    match s.critical with
    | some (.linking _ []) | some (.unlinking []) | some .unlocking =>
      some { s with critical := none }
    | _ => none

/-- The steps of the work thread that leave the queue alone. -/
def Handling : WorkQueue.Action → Prop
  | .dispatch | .use | .finish | .clear | .stop => True
  | _ => False

/-- What each step needs and does. The steps outside the critical sections are those of the
atomic queue, from a state whose queue is not looked at. -/
inductive Step (s : State) : Action → State → Prop
  | begin {i work : ℕ} {workType : WorkType} {u : WorkQueue.State}
      (hu : WorkQueue.Step (s.withQueue []) (.begin i work workType) u) :
      Step s (.call (.begin i work workType)) (s.lift u)
  | wake {i : ℕ} {u : WorkQueue.State} (hinside : s.threadInside i = false)
      (hu : WorkQueue.Step (s.withQueue []) (.wake i) u) : Step s (.call (.wake i)) (s.lift u)
  | leave {i : ℕ} {u : WorkQueue.State} (hu : WorkQueue.Step (s.withQueue []) (.leave i) u) :
      Step s (.call (.leave i)) (s.lift u)
  | work {a : WorkQueue.Action} {u : WorkQueue.State} (ha : Handling a)
      (hinside : s.workerInside = false) (hu : WorkQueue.Step (s.withQueue []) a u) :
      Step s (.work a) (s.lift u)
  | lock {i work : ℕ} (hbuilt : s.phase i = .built work) (hfree : s.critical = none) :
      Step s (.lock i) { s with
        books := s.books.enqueue i
        phase := Function.update s.phase i (.waiting work)
        critical := some (.linking i (addTailStores s.links (.work_entry work) .work_list)) }
  | workerLock (hidle : s.worker = .idle) (hfree : s.critical = none) :
      Step s .workerLock { s with critical := some .testing }
  | test (htesting : s.critical = some .testing) : Step s .test (testStep s)
  | link {i : ℕ} {st : Store ListHead} {rest : List (Store ListHead)}
      (hlinking : s.critical = some (.linking i (st :: rest))) :
      Step s .store (storeStep s st (.linking i rest))
  | unlink {st : Store ListHead} {rest : List (Store ListHead)}
      (hunlinking : s.critical = some (.unlinking (st :: rest))) :
      Step s .store (storeStep s st (.unlinking rest))
  | unlock {c : Critical} (hinside : s.critical = some c) (htested : c ≠ .testing)
      (hstores : s.stores = []) : Step s .unlock { s with critical := none }

theorem Step.of_step {s t : State} {a : Action} (h : step s a = some t) : Step s a t := by
  cases a with
  | call b =>
    cases b with
    | begin i work workType =>
      obtain ⟨u, hu, rfl⟩ := Option.map_eq_some_iff.mp h
      exact .begin (.of_step hu)
    | wake i =>
      simp only [step] at h
      split_ifs at h with hinside
      obtain ⟨u, hu, rfl⟩ := Option.map_eq_some_iff.mp h
      exact .wake (Bool.eq_false_of_not_eq_true hinside) (.of_step hu)
    | leave i =>
      obtain ⟨u, hu, rfl⟩ := Option.map_eq_some_iff.mp h
      exact .leave (.of_step hu)
    | _ => cases h
  | work b =>
    cases b with
    | dispatch | use | finish | clear | stop =>
      simp only [step] at h
      split_ifs at h with hinside
      obtain ⟨u, hu, rfl⟩ := Option.map_eq_some_iff.mp h
      exact .work trivial (Bool.eq_false_of_not_eq_true hinside) (.of_step hu)
    | _ => cases h
  | workerLock =>
    simp only [step] at h
    split_ifs at h with hif
    cases h
    exact .workerLock hif.1 (Option.isNone_iff_eq_none.mp hif.2)
  | lock i =>
    simp only [step] at h
    split at h
    · cases h
      exact .lock ‹_› ‹_›
    · cases h
  | test =>
    simp only [step] at h
    split at h
    · cases h
      exact .test ‹_›
    · cases h
  | store =>
    simp only [step] at h
    split at h
    · cases h
      exact .link ‹_›
    · cases h
      exact .unlink ‹_›
    · cases h
  | unlock =>
    simp only [step] at h
    split at h
    · rename_i hlinking
      cases h
      exact .unlock hlinking (by rintro ⟨⟩) (State.stores_of_linking hlinking)
    · rename_i hunlinking
      cases h
      exact .unlock hunlinking (by rintro ⟨⟩) (State.stores_of_unlinking hunlinking)
    · rename_i hunlocking
      cases h
      exact .unlock hunlocking (by rintro ⟨⟩) (State.stores_of_unlocking hunlocking)
    · cases h

theorem Step.step_eq {s t : State} {a : Action} (h : Step s a t) : step s a = some t := by
  cases h with
  | begin hu => simp [step, hu.step_eq]
  | wake hinside hu => simp [step, hinside, hu.step_eq]
  | leave hu => simp [step, hu.step_eq]
  | @work a u ha hinside hu =>
    cases a <;> first
      | exact ha.elim
      | simp [step, hinside, hu.step_eq]
  | @unlock c hinside htested hstores =>
    cases c with
    | testing => exact absurd rfl htested
    | unlocking => simp [step, hinside]
    | linking i stores =>
      obtain rfl : stores = [] := (State.stores_of_linking hinside).symm.trans hstores
      simp [step, hinside]
    | unlinking stores =>
      obtain rfl : stores = [] := (State.stores_of_unlinking hinside).symm.trans hstores
      simp [step, hinside]
  | _ => simp [step, *]

/-- `INIT_LIST_HEAD`, and no call yet. -/
structure Init (s : State) : Prop where
  start : WorkQueue.Initial (s.withQueue [])
  next : s.links.next .work_list = .work_list
  prev : s.links.prev .work_list = .work_list
  critical : s.critical = none

def listSystem : System State Action where
  init := Init
  step := step

/-- No caller gets away between the two assignments of its `done_flag`. -/
def Timely (s : State) : Action → Prop
  | .call a | .work a => WorkQueue.Timely (s.withQueue []) a
  | _ => True

/-! ## The atomic queue without its queue -/

/-- The steps that leave the queue alone. -/
def Aside : WorkQueue.Action → Prop
  | .enqueue _ | .take => False
  | _ => True

theorem Handling.aside {a : WorkQueue.Action} (ha : Handling a) : Aside a := by
  cases a with
  | enqueue i | take => exact ha
  | _ => trivial

theorem Handling.ne_wake {a : WorkQueue.Action} (ha : Handling a) (i : ℕ) : a ≠ .wake i := by
  rintro rfl
  exact ha

theorem step_queue {s t : WorkQueue.State} {a : WorkQueue.Action} (ha : Aside a)
    (queue : List ℕ) (ht : WorkQueue.Step s a t) :
    WorkQueue.Step { s with queue := queue } a { t with queue := queue } := by
  cases ht with
  | enqueue _ => exact ha.elim
  | take _ _ => exact ha.elim
  | begin hout hfree => exact .begin hout hfree
  | wake hwait hdone => exact .wake hwait hdone
  | leave hfreeing => exact .leave hfreeing
  | dispatch hhold hw => exact .dispatch hhold hw
  | dispatchFreed hhold hnone => exact .dispatchFreed hhold hnone
  | use hhandling => exact .use hhandling
  | finish hhandling => exact .finish hhandling
  | clear hclearing => exact .clear hclearing
  | stop hidle => exact .stop hidle

/-- Only `wake` takes a thread out of its wait. -/
theorem phase_of_step {s t : WorkQueue.State} {a : WorkQueue.Action}
    (ht : WorkQueue.Step s a t) {i work : ℕ} (hwait : s.phase i = .waiting work)
    (hwake : a ≠ .wake i) : t.phase i = .waiting work := by
  cases ht with
  | begin hout _ =>
    refine (Function.update_of_ne ?_ ..).trans hwait
    rintro rfl
    cases hwait.symm.trans hout
  | enqueue hbuilt =>
    refine (Function.update_of_ne ?_ ..).trans hwait
    rintro rfl
    cases hwait.symm.trans hbuilt
  | wake _ _ =>
    refine (Function.update_of_ne ?_ ..).trans hwait
    rintro rfl
    exact hwake rfl
  | leave hfreeing =>
    refine (Function.update_of_ne ?_ ..).trans hwait
    rintro rfl
    cases hwait.symm.trans hfreeing
  | _ => exact hwait

/-! ## The refinement -/

/-- The list is the queue, up to the stores that the holder of the mutex has still to do. -/
structure Sim (s : State) (queue : List ℕ) : Prop where
  ring : Ring (applyAll s.links s.stores) .work_list (queue.map .work_entry)
  critical : match s.critical with
    | none => True
    | some (.linking i stores) => (∃ work, s.phase i = .waiting work) ∧
        ∀ st ∈ stores, st.target ∈ ListHead.work_list :: queue.map .work_entry
    | some .testing | some .unlocking => s.worker = .idle
    | some (.unlinking stores) => ∃ work, s.worker = .holding work ∧
        ∀ st ∈ stores, st.target ∈ ListHead.work_list :: .work_entry work :: queue.map .work_entry

variable {s t : State} {queue : List ℕ} {i : ℕ}

theorem live_work_entry {work : ℕ} {w : Work} (h : s.books.heap work = some w) :
    s.live (.work_entry work) = true := by
  simp [State.live, h]

theorem access_of_live {p : ListHead} (h : s.live p = true) : s.access p = s.books := by
  simp [State.access, h]

theorem live_of_mem (h : CallInv (s.withQueue queue)) {p : ListHead}
    (hp : p ∈ ListHead.work_list :: queue.map .work_entry) : s.live p = true := by
  rcases List.mem_cons.mp hp with rfl | hp
  · rfl
  · obtain ⟨work, hwork, rfl⟩ := List.mem_map.mp hp
    obtain ⟨w, hw, -⟩ := h.queue.waiting work hwork
    exact live_work_entry hw

theorem live_of_holding (h : CallInv (s.withQueue queue)) {work : ℕ}
    (hhold : s.worker = .holding work) {p : ListHead}
    (hp : p ∈ ListHead.work_list :: .work_entry work :: queue.map .work_entry) :
    s.live p = true := by
  have hworker := h.worker
  unfold WorkerInv at hworker
  rw [show (s.withQueue queue).worker = .holding work from hhold] at hworker
  obtain ⟨w, hw, -⟩ := hworker
  rcases List.mem_cons.mp hp with rfl | hp
  · rfl
  · rcases List.mem_cons.mp hp with rfl | hp
    · exact live_work_entry hw
    · exact live_of_mem h (List.mem_cons_of_mem _ hp)

namespace Sim

/-- A step outside the critical section of its thread. -/
theorem aside (h : Sim s queue) {a : WorkQueue.Action} {t : WorkQueue.State}
    (ht : WorkQueue.Step (s.withQueue []) a t)
    (hworker : s.workerInside = true → t.worker = s.worker)
    (hthread : ∀ i, s.threadInside i = true → a ≠ .wake i) : Sim (s.lift t) queue := by
  refine ⟨h.ring, ?_⟩
  have hcritical := h.critical
  rw [show (s.lift t).critical = s.critical from rfl]
  unfold State.workerInside at hworker
  unfold State.threadInside at hthread
  cases hc : s.critical with
  | none => trivial
  | some c =>
    rw [hc] at hcritical hworker hthread
    cases c with
    | linking i stores =>
      obtain ⟨⟨work, hwait⟩, htargets⟩ := hcritical
      exact ⟨⟨work, phase_of_step ht hwait (hthread i (by simp))⟩, htargets⟩
    | testing => exact (hworker rfl).trans hcritical
    | unlocking => exact (hworker rfl).trans hcritical
    | unlinking stores =>
      obtain ⟨work, hhold, htargets⟩ := hcritical
      exact ⟨work, (hworker rfl).trans hhold, htargets⟩

/-- A call enters its critical section: its work is in the queue from here on. -/
theorem lock (h : Sim s queue) (hinv : CallInv (s.withQueue queue)) {work : ℕ}
    (hbuilt : s.phase i = .built work) (hfree : s.critical = none) :
    Sim { s with
      books := s.books.enqueue i
      phase := Function.update s.phase i (.waiting work)
      critical := some (.linking i (addTailStores s.links (.work_entry work) .work_list)) }
      (queue ++ [work]) := by
  have hring := h.ring
  rw [State.stores_of_none hfree] at hring
  have hwork : work ∉ queue := by
    intro hmem
    obtain ⟨w, hw, hwait, -⟩ := hinv.queue.waiting work hmem
    have howner := hinv.owner i work (by
      show (s.phase i).work? = some work
      rw [hbuilt]
      rfl)
    rw [hw] at howner
    obtain rfl : w.workData = i := Option.some.inj howner
    have hwait : s.phase w.workData = .waiting work := hwait
    rw [hbuilt] at hwait
    cases hwait
  have hnew : ListHead.work_entry work ∉ ListHead.work_list :: queue.map .work_entry := by
    simpa using hwork
  refine ⟨?_, ⟨work, Function.update_self ..⟩, ?_⟩
  · rw [List.map_append]
    exact hring.addTail hnew
  · intro st hst
    have htarget := hring.target_addTail hst
    simp only [List.mem_cons, List.map_append, List.mem_append, List.map_cons, List.map_nil]
      at htarget ⊢
    rcases htarget with htarget | htarget | htarget
    · exact .inr (.inr (.inl htarget))
    · exact .inl htarget
    · exact .inr (.inl htarget)

/-- The work thread unlinks the first work, which leaves the queue. -/
theorem unlink (h : Sim s queue) (hinv : CallInv (s.withQueue queue)) {work : ℕ} {rest : List ℕ}
    (hqueue : queue = work :: rest) (htesting : s.critical = some .testing) :
    testStep s = { s with
        books := s.books.take work
        worker := .holding work
        critical := some (.unlinking
          (delStores .LIST_POISON1 .LIST_POISON2 s.links (.work_entry work))) } ∧
      Sim (testStep s) rest := by
  have hring := h.ring
  rw [State.stores_of_testing htesting, hqueue, List.map_cons] at hring
  have hnext : s.links.next .work_list = .work_entry work := hring.next_head
  have hempty : isEmpty s.links .work_list = false := by
    rw [isEmpty, hnext]
    rfl
  obtain ⟨w, hw, -⟩ := hinv.queue.waiting work (hqueue ▸ List.mem_cons_self)
  have htest : testStep s = { s with
      books := s.books.take work
      worker := .holding work
      critical := some (.unlinking
        (delStores .LIST_POISON1 .LIST_POISON2 s.links (.work_entry work))) } := by
    unfold testStep
    rw [hempty, if_neg Bool.false_ne_true, hnext]
    dsimp only
    rw [access_of_live (live_work_entry hw)]
  have hfirst : Ring s.links .work_list ([] ++ .work_entry work :: rest.map .work_entry) := hring
  refine ⟨htest, ?_⟩
  rw [htest]
  exact ⟨hfirst.del ListHead.LIST_POISON1 ListHead.LIST_POISON2, work, rfl,
    fun st hst => hfirst.target_del hst⟩

/-- A store brings the list nearer to what it will be. -/
theorem store (h : Sim s queue) (hinv : CallInv (s.withQueue queue)) (ht : Step s .store t) :
    Sim t queue ∧ t.withQueue queue = s.withQueue queue := by
  have hring := h.ring
  have hcritical := h.critical
  cases ht with
  | link hlinking =>
    rw [State.stores_of_linking hlinking] at hring
    rw [hlinking] at hcritical
    obtain ⟨hwait, htargets⟩ := hcritical
    unfold storeStep
    rw [access_of_live (live_of_mem hinv (htargets _ List.mem_cons_self))]
    exact ⟨⟨hring, hwait, fun st' hst' => htargets st' (List.mem_cons_of_mem _ hst')⟩, rfl⟩
  | unlink hunlinking =>
    rw [State.stores_of_unlinking hunlinking] at hring
    rw [hunlinking] at hcritical
    obtain ⟨work, hhold, htargets⟩ := hcritical
    unfold storeStep
    rw [access_of_live (live_of_holding hinv hhold (htargets _ List.mem_cons_self))]
    exact ⟨⟨hring, work, hhold, fun st' hst' => htargets st' (List.mem_cons_of_mem _ hst')⟩, rfl⟩

theorem unlock (h : Sim s queue) (hstores : s.stores = []) :
    Sim { s with critical := none } queue := by
  have hring := h.ring
  rw [hstores] at hring
  exact ⟨hring, trivial⟩

theorem workerLock (h : Sim s queue) (hidle : s.worker = .idle) (hfree : s.critical = none) :
    Sim { s with critical := some .testing } queue := by
  have hring := h.ring
  rw [State.stores_of_none hfree] at hring
  exact ⟨hring, hidle⟩

/-- The work thread finds the list empty. -/
theorem testEmpty (h : Sim s []) (htesting : s.critical = some .testing) :
    Sim (testStep s) [] ∧ (testStep s).withQueue [] = s.withQueue [] := by
  have hring := h.ring
  have hcritical := h.critical
  rw [State.stores_of_testing htesting] at hring
  rw [htesting] at hcritical
  have hempty : isEmpty s.links .work_list = true := (isEmpty_iff hring).mpr rfl
  unfold testStep
  rw [if_pos hempty]
  exact ⟨⟨hring, hcritical⟩, rfl⟩

theorem init (h : Init s) : Sim s [] := by
  have hcritical := h.critical
  refine ⟨⟨?_, List.nodup_singleton _⟩, ?_⟩
  · rw [State.stores_of_none hcritical]
    exact List.isChain_cons_cons.mpr ⟨⟨h.next, h.prev⟩, List.isChain_singleton _⟩
  · rw [hcritical]
    trivial

/-- A step of the list is one of the queue, or none. -/
theorem of_step (h : Sim s queue) (hreach : Reach queueSystem WorkQueue.Timely (s.withQueue queue))
    {a : Action} (hc : Timely s a) (ht : step s a = some t) :
    (Sim t queue ∧ t.withQueue queue = s.withQueue queue) ∨
    ∃ b queue', WorkQueue.Timely (s.withQueue queue) b ∧
      WorkQueue.step (s.withQueue queue) b = some (t.withQueue queue') ∧ Sim t queue' := by
  have hinv : CallInv (s.withQueue queue) := callInv_of_timely hreach
  have hcritical := h.critical
  -- A step that does not enter a critical section is the same step of the queue.
  have haside : ∀ (b : WorkQueue.Action) (u : WorkQueue.State), Aside b →
      WorkQueue.Timely (s.withQueue []) b → WorkQueue.Step (s.withQueue []) b u →
      (s.workerInside = true → u.worker = s.worker) →
      (∀ i, s.threadInside i = true → b ≠ .wake i) →
      ∃ b queue', WorkQueue.Timely (s.withQueue queue) b ∧
        WorkQueue.step (s.withQueue queue) b = some ((s.lift u).withQueue queue') ∧
        Sim (s.lift u) queue' := by
    intro b u hb htimely hu hworker hthread
    refine ⟨b, queue, ?_, WorkQueue.Step.step_eq (step_queue hb queue hu),
      h.aside hu hworker hthread⟩
    cases b <;> exact htimely
  cases Step.of_step ht with
  | @begin i work workType u hu =>
    refine .inr (haside (.begin i work workType) u trivial hc hu (fun _ => ?_) (by rintro _ _ ⟨⟩))
    cases hu
    rfl
  | @leave i u hu =>
    refine .inr (haside (.leave i) u trivial hc hu (fun _ => ?_) (by rintro _ _ ⟨⟩))
    cases hu
    rfl
  | @wake i u hinside hu =>
    refine .inr (haside (.wake i) u trivial hc hu (fun _ => ?_) ?_)
    · cases hu
      rfl
    · rintro j hj heq
      cases heq
      cases hinside.symm.trans hj
  | work hb hinside hu =>
    refine .inr (haside _ _ hb.aside hc hu (fun hin => ?_) fun i _ => hb.ne_wake i)
    cases hinside.symm.trans hin
  | @lock i work hbuilt hfree =>
    exact .inr ⟨.enqueue i, queue ++ [work], trivial, WorkQueue.Step.step_eq (.enqueue hbuilt),
      h.lock hinv hbuilt hfree⟩
  | workerLock hidle hfree => exact .inl ⟨h.workerLock hidle hfree, rfl⟩
  | link hlinking => exact .inl (h.store hinv (.link hlinking))
  | unlink hunlinking => exact .inl (h.store hinv (.unlink hunlinking))
  | unlock _ _ hstores => exact .inl ⟨h.unlock hstores, rfl⟩
  | test htesting =>
    cases hqueue : queue with
    | nil =>
      rw [hqueue] at h
      exact .inl (h.testEmpty htesting)
    | cons work rest =>
      obtain ⟨htest, hsim⟩ := h.unlink hinv hqueue htesting
      rw [htesting] at hcritical
      have hidle : (s.withQueue (work :: rest)).worker = .idle := hcritical
      refine .inr ⟨.take, rest, trivial, ?_, hsim⟩
      rw [htest]
      exact WorkQueue.Step.step_eq (.take hidle rfl)

end Sim

/-- A state of the list and the one of the queue that it implements. -/
def Implements (s : State) (t : WorkQueue.State) : Prop := t = s.withQueue t.queue ∧ Sim s t.queue

/-- Every state reached store by store implements one that the atomic queue reaches. -/
theorem exists_queue (h : Reach listSystem Timely s) :
    ∃ t, Reach queueSystem WorkQueue.Timely t ∧ Implements s t := by
  refine h.simulation ?_ ?_
  · exact fun s h0 => ⟨s.withQueue [], h0.start, rfl, Sim.init h0⟩
  · rintro s a s' t ht ⟨hst, hsim⟩ hc hstep
    rw [hst] at ht
    rcases hsim.of_step ht hc hstep with ⟨hsim', heq⟩ | ⟨b, queue', hcb, hb, hsim'⟩
    · exact .inl ⟨hst.trans heq.symm, hsim'⟩
    · refine .inr ⟨b, s'.withQueue queue', ?_, ?_, rfl, hsim'⟩
      · rw [hst]
        exact hcb
      · rw [hst]
        exact hb

/-! ## Concrete runs -/

/-- Before the first call. -/
def start : State where
  books := ⟨fun _ => none, fun _ => none, fun _ => 0, [], [], [], [], false⟩
  phase := fun _ => .outside
  worker := .idle
  links := ⟨fun _ => .work_list, fun _ => .work_list⟩
  critical := none

theorem reachable_start {cond : State → Action → Prop} : Reach listSystem cond start :=
  .start ⟨⟨fun _ => rfl, fun _ => rfl, rfl, rfl, rfl, rfl, rfl, rfl, fun _ => rfl, rfl⟩, rfl, rfl,
    rfl⟩

def timelyTest (s : State) : Action → Bool
  | .call (.wake i) | .work (.wake i) => s.worker ≠ .clearing i
  | _ => true

theorem timely_of_test (s : State) (a : Action) (h : timelyTest s a = true) : Timely s a := by
  cases a with
  | call a | work a =>
    cases a with
    | wake i =>
      show s.worker ≠ .clearing i
      exact of_decide_eq_true h
    | _ => trivial
  | _ => trivial

/-- A write and a send, the second entering its critical section while the first is handled. -/
def twoCalls : List Action :=
  [.call (.begin 0 100 .WRITE), .call (.begin 1 200 .SEND), .lock 0, .store, .store, .store,
    .store, .unlock, .workerLock, .test, .store, .store, .store, .store, .unlock,
    .work .dispatch, .lock 1, .store, .store, .work .finish, .store, .call (.wake 0), .store,
    .call (.leave 0), .unlock, .workerLock, .test, .store, .store, .store, .store, .unlock,
    .work .dispatch, .work .use, .work .finish, .work .clear, .call (.wake 1), .call (.leave 1)]

/-! ## Every call in its order -/

theorem run_step {a : Action} (ht : Step s a t) (rest : List Action) :
    run listSystem (fun _ _ => true) s (a :: rest) = run listSystem (fun _ _ => true) t rest :=
  run_of_step ht.step_eq rfl rest

/-- The remaining stores of a critical section, one after the other. -/
theorem run_stores (stores : List (Store ListHead))
    (hcritical : s.critical = some (.linking i stores)) :
    ∃ fault, run listSystem (fun _ _ => true) s (List.replicate stores.length .store) =
      some { s with
        books := { s.books with fault := fault }
        links := applyAll s.links stores
        critical := some (.linking i []) } := by
  induction stores generalizing s with
  | nil => exact ⟨s.books.fault, by rw [← hcritical]; rfl⟩
  | cons st rest ih =>
    obtain ⟨fault, hrun⟩ := ih (s := storeStep s st (.linking i rest)) rfl
    refine ⟨fault, ?_⟩
    rw [List.length_cons, List.replicate_succ, run_step (.link hcritical), hrun]
    rfl

/-- The next call of a thread that `dhmp_rdma_send` has woken. -/
def nextCall (i work : ℕ) (workType : WorkType) : List Action :=
  [.call (.wake i), .call (.leave i), .call (.begin i work workType), .lock i] ++
    List.replicate 4 .store ++ [.unlock, .work .clear, .call (.wake i), .call (.leave i)]

/-- The sender leaves and comes to the lock with its next call. -/
theorem run_next {old work : ℕ} {workType : WorkType} (hfree : s.critical = none)
    (hwait : s.phase i = .waiting old) (hflag : s.books.doneFlag i = some true)
    (hwork : s.books.heap work = none) :
    run listSystem (fun _ _ => true) s
      [.call (.wake i), .call (.leave i), .call (.begin i work workType), .lock i] =
      some { s with
        books := ((s.books.leave i old).begin i work workType).enqueue i
        phase := Function.update s.phase i (.waiting work)
        critical := some (.linking i (addTailStores s.links (.work_entry work) .work_list)) } := by
  have hbegin : (s.books.leave i old).heap work = none := by
    simp only [Books.leave, Function.update_apply]
    split_ifs
    · rfl
    · exact hwork
  have hinside : s.threadInside i = false := by
    unfold State.threadInside
    rw [hfree]
  -- `by exact` waits until the state before the step is known.
  rw [run_step (.wake hinside (.wake hwait hflag)),
    run_step (.leave (.leave (by exact Function.update_self ..))),
    run_step (.begin (.begin (by exact Function.update_self ..) (by exact hbegin))),
    run_step (.lock (by exact Function.update_self ..) (by exact hfree))]
  simp [run, State.withQueue, State.lift]

/-- Its flag is set for the call before, and it leaves again. -/
theorem run_clear {work : ℕ} (hcritical : s.critical = some (.linking i []))
    (hclearing : s.worker = .clearing i) (hwait : s.phase i = .waiting work)
    (hflag : s.books.doneFlag i = some false) :
    run listSystem (fun _ _ => true) s
      [.unlock, .work .clear, .call (.wake i), .call (.leave i)] =
      some { s with
        books := (s.books.setDone i).leave i work
        phase := Function.update s.phase i .outside
        worker := .idle
        critical := none } := by
  have hset : (s.books.setDone i).doneFlag i = some true := by
    simp [Books.setDone, hflag]
  rw [run_step (.unlock hcritical (by rintro ⟨⟩) (State.stores_of_linking hcritical)),
    run_step (.work (a := .clear) (by trivial) (by rfl) (.clear (by exact hclearing))),
    run_step (.wake (by rfl) (.wake (by exact hwait) (by exact hset))),
    run_step (.leave (.leave (by exact Function.update_self ..)))]
  simp [run, State.withQueue, State.lift]

/-- A send whose `done_flag` has been set once. -/
def sendServed : List Action :=
  [.call (.begin 0 100 .SEND), .lock 0, .store, .store, .store, .store, .unlock, .workerLock,
    .test, .store, .store, .store, .store, .unlock, .work .dispatch, .work .finish]

theorem not_step_of_exited {s u : WorkQueue.State} {a : WorkQueue.Action} (ha : Handling a)
    (hexited : s.worker = .exited) : ¬WorkQueue.Step s a u := by
  intro hu
  cases hu with
  | begin _ _ | enqueue _ | wake _ _ | leave _ | take _ _ => exact ha
  | dispatch hhold _ => cases hexited.symm.trans hhold
  | dispatchFreed hhold _ => cases hexited.symm.trans hhold
  | use hhandling => cases hexited.symm.trans hhandling
  | finish hhandling => cases hexited.symm.trans hhandling
  | clear hclearing => cases hexited.symm.trans hclearing
  | stop hidle => cases hexited.symm.trans hidle

/-- Nobody is inside a critical section of a work thread that has ended. -/
theorem workerInside_of_exited (h : Sim s queue) (hexited : s.worker = .exited) :
    s.workerInside = false := by
  have hcritical := h.critical
  unfold State.workerInside
  cases hc : s.critical with
  | none => rfl
  | some c =>
    rw [hc] at hcritical
    cases c with
    | linking j stores => rfl
    | testing => exact absurd (hexited.symm.trans hcritical) (by decide)
    | unlocking => exact absurd (hexited.symm.trans hcritical) (by decide)
    | unlinking stores =>
      obtain ⟨work, hhold, -⟩ := hcritical
      rw [hexited] at hhold
      cases hhold

/-- The thread has ended for good, and takes nothing more. -/
theorem exited_of_step (hinside : s.workerInside = false) (hexited : s.worker = .exited)
    {a : Action} (ht : step s a = some t) :
    t.worker = .exited ∧ t.books.taken = s.books.taken := by
  cases Step.of_step ht with
  | begin hu =>
    cases hu
    exact ⟨hexited, rfl⟩
  | wake _ hu =>
    cases hu
    exact ⟨hexited, rfl⟩
  | leave hu =>
    cases hu
    exact ⟨hexited, rfl⟩
  | work ha _ hu => exact absurd hu (not_step_of_exited ha hexited)
  | workerLock hidle _ => cases hexited.symm.trans hidle
  | test htesting => simp [State.workerInside, htesting] at hinside
  | _ => exact ⟨hexited, rfl⟩

/-- A call that waits and has not been taken then goes on waiting. -/
theorem waiting_of_step (h : Reach listSystem Timely s) (hexited : s.worker = .exited) {work : ℕ}
    (hwait : s.phase i = .waiting work) (hcall : s.books.callId i ∉ s.books.taken) {a : Action}
    (ht : step s a = some t) :
    t.phase i = .waiting work ∧ t.books.callId i = s.books.callId i := by
  obtain ⟨u, hu, hsu, hsim⟩ := exists_queue h
  rw [hsu] at hu
  have hinv := callInv_of_timely hu
  have hflag : s.books.doneFlag i ≠ some true := by
    have hthread := (threadInv_waiting (by exact hwait)).mp (hinv.thread i)
    cases hthread with
    | queued _ hfalse => exact fun htrue => by simpa using hfalse.symm.trans htrue
    | taken _ hfalse => exact fun htrue => by simpa using hfalse.symm.trans htrue
    | served hserved =>
      exact absurd (hinv.finished_prefix.subset hserved.finished) hcall
  have hinside := workerInside_of_exited hsim hexited
  cases Step.of_step ht with
  | begin hu =>
    refine ⟨phase_of_step hu hwait (by rintro ⟨⟩), ?_⟩
    cases hu with
    | begin hout _ =>
      refine congrArg (Prod.mk i) (Function.update_of_ne ?_ ..)
      rintro rfl
      cases hwait.symm.trans hout
  | wake _ hu =>
    cases hu with
    | wake _ hdone =>
      refine ⟨(Function.update_of_ne ?_ ..).trans hwait, rfl⟩
      rintro rfl
      exact hflag hdone
  | leave hu =>
    refine ⟨phase_of_step hu hwait (by rintro ⟨⟩), ?_⟩
    cases hu
    rfl
  | work ha _ hu => exact absurd hu (not_step_of_exited ha hexited)
  | lock hbuilt _ =>
    refine ⟨(Function.update_of_ne ?_ ..).trans hwait, rfl⟩
    rintro rfl
    cases hwait.symm.trans hbuilt
  | workerLock hidle _ => cases hexited.symm.trans hidle
  | test htesting => simp [State.workerInside, htesting] at hinside
  | _ => exact ⟨hwait, rfl⟩

/-- The thread ends while a write is in the list. -/
def writeStopped : List Action :=
  [.call (.begin 0 100 .WRITE), .lock 0, .store, .store, .store, .store, .unlock, .work .stop]

end RdmaMiddleware.WorkList
