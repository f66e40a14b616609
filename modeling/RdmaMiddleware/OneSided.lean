import RdmaMiddleware.AddressTable
import RdmaMiddleware.CInt
import RdmaMiddleware.TransitionSystem

/-!
# One-sided operations

`dhmp_read` and `dhmp_write` queue a work for the one work thread, which posts one work
request, spins until its task is done and only then takes the next work. A write holds the
`write_flag` of its `addr_info` from before the setup until the completion handler has seen
a successful completion.
-/
namespace RdmaMiddleware.OneSided
open CInt AddressTable TransitionSystem

/-! ## Works, tasks and the work thread -/

/-- `dhmp_rw_work`, with the function its handler calls. -/
structure Work where
  isWrite : Bool
  dhmpAddr : Address
  localAddr : Address
  length : ℕ
  offset : Address

inductive WcOpcode
  | RDMA_WRITE
  | RDMA_READ
  deriving DecidableEq

inductive WcStatus
  | SUCCESS
  | WR_FLUSH_ERR
  | other (code : ℕ)
  deriving DecidableEq

/-- A task with the work request that carries it. A read has no `addr_info`. -/
structure Task where
  doneFlag : Bool
  opcode : WcOpcode
  addrInfo : Option ℕ
  localAddr : Address
  length : ℤ
  remoteAddr : Address
  rkey : BitVec 32

/-- Where the work thread stands. -/
inductive Pc
  | idle
  /-- In `while(addr_info->write_flag)`. -/
  | waitFlag (w : Work) (info : ℕ)
  /-- In `dhmp_rdma_read` or `dhmp_rdma_write`, about to allocate. -/
  | setup (w : Work) (info : ℕ)
  | post (w : Work) (task : ℕ)
  /-- In `while(!task->done_flag)`. -/
  | spin (w : Work) (task : ℕ)
  /-- The process has ended. -/
  | dead

/-- A task is named by its place in `tasks`. `posted` are the tasks whose completion is
still to come, `polled` those whose completion has been polled. -/
structure State (T : Type*) where
  client : Client T
  works : List Work
  pc : Pc
  tasks : List Task
  posted : List ℕ
  polled : List ℕ

/-- `malloc` of the `dhmp_send_mr`, its registration, and `malloc` of the task. -/
structure SetupOutcome where
  smrOk : Bool
  regOk : Bool
  taskOk : Bool

inductive Action
  | call (w : Work) (connected allocOk : Bool)
  | takeWork
  | passFlag
  | setup (o : SetupOutcome)
  | post (ok : Bool)
  | poll (task : ℕ) (status : WcStatus)
  | wake

section Steps
variable {T : Type*}

def setWriteFlag (c : Client T) (info : ℕ) (flag : Bool) : Client T :=
  { c with addrInfos := c.addrInfos.modify info fun i => { i with writeFlag := flag } }

def setDone (tasks : List Task) (task : ℕ) : List Task :=
  tasks.modify task fun t => { t with doneFlag := true }

/-- `dhmp_read` and `dhmp_write` up to the work list; otherwise they return -1. -/
def call (s : State T) (w : Work) (connected allocOk : Bool) : State T :=
  if (getTransFromAddr s.client w.dhmpAddr).isSome && connected && allocOk then
    { s with works := s.works ++ [w] }
  else s

/-- What `dhmp_read_task_create` and `dhmp_write_task_create` build, and the work request. -/
def taskCreate (w : Work) (info : ℕ) (mr : IbvMr) : Task where
  doneFlag := false
  opcode := if w.isWrite then .RDMA_WRITE else .RDMA_READ
  addrInfo := if w.isWrite then some info else none
  localAddr := w.localAddr
  length := cInt w.length
  remoteAddr := mr.addr + w.offset
  rkey := mr.rkey

/-- The first half of `dhmp_rdma_read` and `dhmp_rdma_write`. Without a memory region the
task is filled in through a NULL pointer. -/
def setup (s : State T) (w : Work) (info : ℕ) (o : SetupOutcome) : Option (State T) :=
  if o.taskOk then
    if o.smrOk && o.regOk then
      s.client.addrInfos[info]?.map fun i =>
        { s with tasks := s.tasks ++ [taskCreate w info i.nvmMr], pc := .post w s.tasks.length }
    else some { s with pc := .dead }
  else some { s with pc := .idle }

/-- `dhmp_wc_success_handler` for the two opcodes. -/
def wcSuccessHandler (s : State T) (id : ℕ) (task : Task) : State T :=
  match task.opcode with
  | .RDMA_WRITE => { s with
      client := task.addrInfo.elim s.client fun info => setWriteFlag s.client info false
      tasks := setDone s.tasks id }
  | .RDMA_READ => { s with tasks := setDone s.tasks id }

/-- `dhmp_comp_channel_handler` for one completion; the error handler only logs. -/
def compChannelHandler (s : State T) (id : ℕ) (task : Task) (status : WcStatus) : State T :=
  if status = .SUCCESS then wcSuccessHandler s id task else s

def step (hash : Address → BitVec 32) (s : State T) : Action → Option (State T)
  | .call w connected allocOk =>
    match s.pc with
    | .dead => none
    | _ => some (call s w connected allocOk)
  | .takeWork =>
    match s.pc, s.works with
    | .idle, w :: rest =>
      match getAddrInfoFromHt s.client (hashInClient hash w.dhmpAddr) w.dhmpAddr with
      | none => some { s with works := rest }
      | some info => some { s with works := rest, pc := .waitFlag w info }
    | _, _ => none
  | .passFlag =>
    match s.pc with
    | .waitFlag w info =>
      if s.client.addrInfos[info]?.any (!·.writeFlag) then
        some { s with
          client := if w.isWrite then setWriteFlag s.client info true else s.client
          pc := .setup w info }
      else none
    | _ => none
  | .setup o =>
    match s.pc with
    | .setup w info => setup s w info o
    | _ => none
  | .post ok =>
    match s.pc with
    | .post w task =>
      if ok then some { s with posted := s.posted ++ [task], pc := .spin w task }
      else some { s with pc := if w.isWrite then .dead else .idle }
    | _ => none
  | .poll id status =>
    match s.tasks[id]? with
    | some task =>
      if id ∈ s.posted then some (compChannelHandler
        { s with posted := s.posted.erase id, polled := s.polled ++ [id] } id task status)
      else none
    | none => none
  | .wake =>
    match s.pc with
    | .spin _ task => if s.tasks[task]?.any (·.doneFlag) then some { s with pc := .idle } else none
    | _ => none

/-- A client whose addresses are all free. -/
def oneSidedSystem (T : Type*) (hash : Address → BitVec 32) : System (State T) Action where
  init := fun s => (∀ i ∈ s.client.addrInfos, i.writeFlag = false) ∧ s.works = [] ∧
    s.pc = .idle ∧ s.tasks = [] ∧ s.posted = [] ∧ s.polled = []
  step := step hash

/-! ## The property -/

/-- No task that has been polled and no address stays taken. -/
structure Released (s : State T) : Prop where
  done : ∀ id ∈ s.polled, (s.tasks[id]?).any (·.doneFlag) = true
  free : s.pc = .idle → ∀ i ∈ s.client.addrInfos, i.writeFlag = false

/-- Completions are successes, and the task of a write can be allocated. -/
def Served (s : State T) : Action → Prop
  | .poll _ status => status = .SUCCESS
  | .setup o => ∀ w info, s.pc = .setup w info → w.isWrite = true → o.taskOk = true
  | _ => True

/-! ## Proof -/

/-- `held` is the one address whose `write_flag` is set. -/
def FlagsHeld (c : Client T) (held : Option ℕ) : Prop :=
  ∀ i x, c.addrInfos[i]? = some x → x.writeFlag = decide (held = some i)

theorem setWriteFlag_cases {c : Client T} {info i : ℕ} {flag : Bool} {x : AddrInfo}
    (hx : (setWriteFlag c info flag).addrInfos[i]? = some x) :
    (info = i ∧ x.writeFlag = flag) ∨ (info ≠ i ∧ c.addrInfos[i]? = some x) := by
  unfold setWriteFlag at hx
  by_cases hi : info = i
  · subst hi
    rw [List.getElem?_modify_eq] at hx
    obtain ⟨y, -, rfl⟩ := Option.map_eq_some_iff.mp hx
    exact .inl ⟨rfl, rfl⟩
  · rw [List.getElem?_modify_ne _ _ hi] at hx
    exact .inr ⟨hi, hx⟩

/-- Writing the one flag that may be set. -/
theorem FlagsHeld.write {c : Client T} {held : Option ℕ} {info : ℕ} (h : FlagsHeld c held)
    (hheld : ∀ i, held = some i → i = info) (flag : Bool) :
    FlagsHeld (setWriteFlag c info flag) (if flag then some info else none) := by
  intro i x hx
  rcases setWriteFlag_cases hx with ⟨rfl, hflag⟩ | ⟨hi, hold⟩
  · cases flag <;> simp [hflag]
  · have hflag := h i x hold
    have hne : held ≠ some i := fun heq => hi (hheld i heq).symm
    cases flag <;> simp [hflag, hi, hne]

theorem FlagsHeld.set {c : Client T} (h : FlagsHeld c none) (info : ℕ) :
    FlagsHeld (setWriteFlag c info true) (some info) :=
  h.write (fun _ hi => absurd hi.symm (Option.some_ne_none _)) true

theorem FlagsHeld.clear {c : Client T} {info : ℕ} (h : FlagsHeld c (some info)) :
    FlagsHeld (setWriteFlag c info false) none :=
  h.write (fun _ hi => (Option.some.inj hi).symm) false

theorem FlagsHeld.free {c : Client T} (h : FlagsHeld c none) :
    ∀ i ∈ c.addrInfos, i.writeFlag = false := by
  intro x hx
  obtain ⟨i, hi, rfl⟩ := List.mem_iff_getElem.mp hx
  simpa using h i _ (List.getElem?_eq_getElem hi)

/-- The address that a task holds. -/
def holder (task : Task) : Option ℕ :=
  match task.opcode with
  | .RDMA_WRITE => task.addrInfo
  | .RDMA_READ => none

/-- What is posted and which address is held, for every place of the work thread. -/
def ThreadInv (s : State T) : Prop :=
  match s.pc with
  | .idle | .waitFlag _ _ => s.posted = [] ∧ FlagsHeld s.client none
  | .setup w info => s.posted = [] ∧ FlagsHeld s.client (if w.isWrite then some info else none)
  | .post w id => s.posted = [] ∧ ∃ task, s.tasks[id]? = some task ∧ task.doneFlag = false ∧
      (w.isWrite = false → holder task = none) ∧ FlagsHeld s.client (holder task)
  | .spin _ id => ∃ task, s.tasks[id]? = some task ∧
      (s.posted = [id] ∧ task.doneFlag = false ∧ FlagsHeld s.client (holder task) ∨
        s.posted = [] ∧ FlagsHeld s.client none)
  | .dead => s.posted = []

structure OneSidedInv (s : State T) : Prop where
  thread : ThreadInv s
  done : ∀ id ∈ s.polled, (s.tasks[id]?).any (·.doneFlag) = true

theorem holder_taskCreate (w : Work) (info : ℕ) (mr : IbvMr) :
    holder (taskCreate w info mr) = if w.isWrite then some info else none := by
  cases hw : w.isWrite <;> simp [holder, taskCreate, hw]

variable {s t : State T} {hash : Address → BitVec 32}

/-- A call only queues a work. -/
theorem call_frame {w : Work} {connected allocOk : Bool}
    (ht : step hash s (.call w connected allocOk) = some t) :
    t.client = s.client ∧ t.pc = s.pc ∧ t.tasks = s.tasks ∧ t.posted = s.posted ∧
      t.polled = s.polled := by
  unfold step at ht
  dsimp only at ht
  split at ht
  · cases ht
  · rw [Option.some.injEq] at ht
    subst ht
    unfold call
    split_ifs <;> exact ⟨rfl, rfl, rfl, rfl, rfl⟩

namespace OneSidedInv

theorem takeWork (h : OneSidedInv s) (ht : step hash s .takeWork = some t) :
    OneSidedInv t := by
  have hthread := h.thread
  unfold step at ht
  dsimp only at ht
  split at ht
  · rename_i w rest hpc hworks
    unfold ThreadInv at hthread
    rw [hpc] at hthread
    split at ht
    · cases ht
      refine ⟨?_, h.done⟩
      unfold ThreadInv
      dsimp only
      rw [hpc]
      exact hthread
    · cases ht
      exact ⟨hthread, h.done⟩
  · cases ht

theorem passFlag (h : OneSidedInv s) (ht : step hash s .passFlag = some t) :
    OneSidedInv t := by
  have hthread := h.thread
  unfold step at ht
  dsimp only at ht
  split at ht
  · rename_i w info hpc
    unfold ThreadInv at hthread
    rw [hpc] at hthread
    split at ht
    · cases ht
      refine ⟨⟨hthread.1, ?_⟩, h.done⟩
      split_ifs
      · exact hthread.2.set info
      · exact hthread.2
    · cases ht
  · cases ht

/-- Failing to allocate the task of a read gives nothing away, as it holds nothing. -/
theorem setup (h : OneSidedInv s) {o : SetupOutcome} (hc : Served s (.setup o))
    (ht : step hash s (.setup o) = some t) : OneSidedInv t := by
  have hthread := h.thread
  unfold step at ht
  dsimp only at ht
  split at ht
  · rename_i w info hpc
    unfold ThreadInv at hthread
    rw [hpc] at hthread
    unfold OneSided.setup at ht
    split_ifs at ht with htask hmr
    · obtain ⟨x, hx, rfl⟩ := Option.map_eq_some_iff.mp ht
      refine ⟨⟨hthread.1, _, List.getElem?_concat_length, rfl, ?_, ?_⟩, ?_⟩
      · intro hw
        rw [holder_taskCreate, hw]
        rfl
      · rw [holder_taskCreate]
        exact hthread.2
      · intro id hid
        have hdone := h.done id hid
        rw [List.getElem?_append_left (by
          by_contra hlen
          rw [List.getElem?_eq_none (by omega)] at hdone
          cases hdone)]
        exact hdone
    · cases ht
      exact ⟨hthread.1, h.done⟩
    · cases ht
      refine ⟨⟨hthread.1, ?_⟩, h.done⟩
      have hw : w.isWrite = false := by
        by_contra hw
        exact htask (hc w info hpc (by simpa using hw))
      simpa [hw] using hthread.2
  · cases ht

theorem post (h : OneSidedInv s) {ok : Bool} (ht : step hash s (.post ok) = some t) :
    OneSidedInv t := by
  have hthread := h.thread
  unfold step at ht
  dsimp only at ht
  split at ht
  · rename_i w id hpc
    unfold ThreadInv at hthread
    rw [hpc] at hthread
    obtain ⟨hposted, task, htask, hundone, hread, hflags⟩ := hthread
    split at ht
    · cases ht
      refine ⟨⟨task, htask, .inl ⟨?_, hundone, hflags⟩⟩, h.done⟩
      rw [hposted]
      rfl
    · cases ht
      refine ⟨?_, h.done⟩
      unfold ThreadInv
      dsimp only
      by_cases hw : w.isWrite = true
      · rw [if_pos hw]
        exact hposted
      · rw [if_neg hw]
        rw [Bool.not_eq_true] at hw
        rw [hread hw] at hflags
        exact ⟨hposted, hflags⟩
  · cases ht

theorem setDone_done {tasks : List Task} {id : ℕ} {task : Task} (htask : tasks[id]? = some task)
    {polled : List ℕ} (h : ∀ j ∈ polled, (tasks[j]?).any (·.doneFlag) = true) :
    ∀ j ∈ polled ++ [id], ((setDone tasks id)[j]?).any (·.doneFlag) = true := by
  intro j hj
  rw [setDone, List.getElem?_modify]
  by_cases hid : id = j
  · subst hid
    simp [htask]
  · rcases List.mem_append.mp hj with hj | hj
    · simpa [hid] using h j hj
    · exact absurd (List.mem_singleton.mp hj).symm hid

/-- A successful completion frees what its task holds. -/
theorem wcSuccessHandler_free {id : ℕ} {task : Task} (h : FlagsHeld s.client (holder task)) :
    FlagsHeld (wcSuccessHandler s id task).client none := by
  unfold wcSuccessHandler
  unfold holder at h
  cases hop : task.opcode with
  | RDMA_READ => simpa [hop] using h
  | RDMA_WRITE =>
    rw [hop] at h
    dsimp only at h ⊢
    cases hinfo : task.addrInfo with
    | none => simpa [hinfo] using h
    | some info =>
      rw [hinfo] at h
      exact h.clear

theorem wcSuccessHandler_tasks (s : State T) (id : ℕ) (task : Task) :
    (wcSuccessHandler s id task).tasks = setDone s.tasks id ∧
      (wcSuccessHandler s id task).pc = s.pc ∧
      (wcSuccessHandler s id task).posted = s.posted ∧
      (wcSuccessHandler s id task).polled = s.polled := by
  unfold wcSuccessHandler
  cases task.opcode <;> exact ⟨rfl, rfl, rfl, rfl⟩

/-- Only the task that the work thread spins on can be posted. -/
theorem posted_spin (h : OneSidedInv s) {id : ℕ} (hid : id ∈ s.posted) :
    ∃ w task, s.pc = .spin w id ∧ s.posted = [id] ∧ s.tasks[id]? = some task ∧
      FlagsHeld s.client (holder task) := by
  have hthread := h.thread
  unfold ThreadInv at hthread
  cases hpc : s.pc with
  | spin w j =>
    rw [hpc] at hthread
    obtain ⟨task, htask, ⟨hposted, -, hflags⟩ | ⟨hposted, -⟩⟩ := hthread
    · rw [hposted, List.mem_singleton] at hid
      subst hid
      exact ⟨w, task, rfl, hposted, htask, hflags⟩
    · rw [hposted] at hid
      cases hid
  | dead =>
    rw [hpc] at hthread
    rw [show s.posted = [] from hthread] at hid
    cases hid
  | _ =>
    rw [hpc] at hthread
    rw [hthread.1] at hid
    cases hid

theorem poll (h : OneSidedInv s) {id : ℕ} {status : WcStatus}
    (hc : Served s (.poll id status)) (ht : step hash s (.poll id status) = some t) :
    OneSidedInv t := by
  have hstatus : status = .SUCCESS := hc
  subst hstatus
  unfold step at ht
  dsimp only at ht
  split at ht
  · rename_i task htask
    split at ht
    · rename_i hid
      obtain ⟨w, task', hpc, hposted, htask', hflags⟩ := h.posted_spin hid
      obtain rfl : task = task' := Option.some.inj (htask.symm.trans htask')
      rw [compChannelHandler, if_pos rfl, Option.some.injEq] at ht
      obtain ⟨htasks, hpc', hposted', hpolled⟩ := wcSuccessHandler_tasks
        { s with posted := s.posted.erase id, polled := s.polled ++ [id] } id task
      rw [ht] at htasks hpc' hposted' hpolled
      refine ⟨?_, by rw [htasks, hpolled]; exact setDone_done htask h.done⟩
      have hget : (setDone s.tasks id)[id]? = some { task with doneFlag := true } := by
        rw [setDone, List.getElem?_modify_eq, htask]
        rfl
      unfold ThreadInv
      rw [hpc', hpc, htasks, hposted']
      refine ⟨_, hget, .inr ⟨?_, ?_⟩⟩
      · rw [hposted]
        exact List.erase_cons_head id []
      · rw [← ht]
        exact wcSuccessHandler_free hflags
    · cases ht
  · cases ht

/-- The spinning ends only when the completion has been polled. -/
theorem wake (h : OneSidedInv s) (ht : step hash s .wake = some t) : OneSidedInv t := by
  have hthread := h.thread
  unfold step at ht
  dsimp only at ht
  split at ht
  · rename_i w id hpc
    split at ht
    · rename_i hdone
      cases ht
      unfold ThreadInv at hthread
      rw [hpc] at hthread
      obtain ⟨task, htask, ⟨-, hundone, -⟩ | hfree⟩ := hthread
      · rw [htask, Option.any_some, hundone] at hdone
        cases hdone
      · exact ⟨hfree, h.done⟩
    · cases ht
  · cases ht

theorem call (h : OneSidedInv s) {w : Work} {connected allocOk : Bool}
    (ht : step hash s (.call w connected allocOk) = some t) : OneSidedInv t := by
  obtain ⟨hclient, hpc, htasks, hposted, hpolled⟩ := call_frame ht
  refine ⟨?_, by rw [hpolled, htasks]; exact h.done⟩
  have hthread := h.thread
  unfold ThreadInv at hthread ⊢
  rw [hpc, hclient, htasks, hposted]
  exact hthread

theorem of_step (h : OneSidedInv s) {a : Action} (hc : Served s a)
    (ht : step hash s a = some t) : OneSidedInv t := by
  cases a with
  | call w connected allocOk => exact h.call ht
  | takeWork => exact h.takeWork ht
  | passFlag => exact h.passFlag ht
  | setup o => exact h.setup hc ht
  | post ok => exact h.post ht
  | poll id status => exact h.poll hc ht
  | wake => exact h.wake ht

theorem init (h : (oneSidedSystem T hash).init s) : OneSidedInv s := by
  obtain ⟨hfree, -, hpc, -, hposted, hpolled⟩ := h
  refine ⟨?_, ?_⟩
  · unfold ThreadInv
    rw [hpc]
    refine ⟨hposted, fun i x hx => ?_⟩
    rw [hfree x (List.mem_of_getElem? hx)]
    rfl
  · rw [hpolled]
    intro id hid
    cases hid

theorem released (h : OneSidedInv s) : Released s where
  done := h.done
  free := by
    intro hpc
    have hthread := h.thread
    unfold ThreadInv at hthread
    rw [hpc] at hthread
    exact hthread.2.free

end OneSidedInv

/-- While completions succeed and the tasks of writes can be allocated, everything taken is
released. -/
theorem released_of_served (hash : Address → BitVec 32) {s : State T}
    (h : Reach (oneSidedSystem T hash) Served s) : Released s := by
  have hinv : OneSidedInv s := h.invariant (P := OneSidedInv) (fun _ h0 => OneSidedInv.init h0)
    fun _ _ _ hs hc ht => hs.of_step hc ht
  exact hinv.released

/-! ## What is not released -/

/-- The thread waits for a task or a flag, and no completion is to come. -/
def Stuck (s : State T) : Prop :=
  match s.pc with
  | .waitFlag _ info => s.posted = [] ∧ (s.client.addrInfos[info]?).any (!·.writeFlag) = false
  | .spin _ id => s.posted = [] ∧ (s.tasks[id]?).any (·.doneFlag) = false
  | _ => False

/-- A polled completion is gone. -/
theorem poll_eq_none {id : ℕ} {status : WcStatus} (h : s.posted = []) :
    step hash s (.poll id status) = none := by
  unfold step
  dsimp only
  split
  · rw [if_neg (by rw [h]; exact List.not_mem_nil)]
  · rfl

/-- Nothing but a call can happen, and the thread goes on waiting. -/
theorem Stuck.step {a : Action} (h : Stuck s) (ht : step hash s a = some t) :
    Stuck t ∧ t.pc = s.pc := by
  have hposted : s.posted = [] := by
    unfold Stuck at h
    split at h
    · exact h.1
    · exact h.1
    · exact h.elim
  cases a with
  | call w connected allocOk =>
    obtain ⟨hclient, hpc, htasks, hposted', -⟩ := call_frame ht
    refine ⟨?_, hpc⟩
    unfold Stuck at h ⊢
    rw [hclient, hpc, htasks, hposted']
    exact h
  | poll id status =>
    rw [poll_eq_none hposted] at ht
    cases ht
  | passFlag =>
    unfold Stuck at h
    cases hpc : s.pc with
    | waitFlag w info =>
      rw [hpc] at h
      simp only [OneSided.step, hpc, h.2] at ht
      cases ht
    | _ => simp [OneSided.step, hpc] at ht
  | wake =>
    unfold Stuck at h
    cases hpc : s.pc with
    | spin w id =>
      rw [hpc] at h
      simp only [OneSided.step, hpc, h.2] at ht
      cases ht
    | _ => simp [OneSided.step, hpc] at ht
  | _ =>
    unfold Stuck at h
    cases hpc : s.pc with
    | waitFlag w info => simp [OneSided.step, hpc] at ht
    | spin w id => simp [OneSided.step, hpc] at ht
    | _ =>
      rw [hpc] at h
      exact h.elim

/-- From such a state on, the work thread never takes another work. -/
theorem Stuck.forever (h : Stuck s) {t : State T}
    (ht : Reachable { init := (· = s), step := OneSided.step hash } t) : t.pc = s.pc := by
  have hstuck : Stuck t ∧ t.pc = s.pc := by
    refine ht.invariant (P := fun t => Stuck t ∧ t.pc = s.pc) ?_ ?_
    · rintro t rfl
      exact ⟨h, rfl⟩
    · intro u a t hu _ hstep
      obtain ⟨hnext, hpc⟩ := hu.1.step hstep
      exact ⟨hnext, hpc.trans hu.2⟩
  exact hstuck.2

/-- The task whose completion fails is one that nobody finishes. -/
theorem stuck_of_error {w : Work} {id : ℕ} {status : WcStatus} (hpc : s.pc = .spin w id)
    (hposted : s.posted = [id]) (hundone : (s.tasks[id]?).any (·.doneFlag) = false)
    (hstatus : status ≠ .SUCCESS) (ht : step hash s (.poll id status) = some t) : Stuck t := by
  unfold step at ht
  dsimp only at ht
  split at ht
  · split at ht
    · rw [compChannelHandler, if_neg hstatus, Option.some.injEq] at ht
      subst ht
      unfold Stuck
      dsimp only
      rw [hpc]
      exact ⟨by rw [hposted]; exact List.erase_cons_head id [], hundone⟩
    · cases ht
  · cases ht

end Steps

/-! ## Concrete runs -/

/-- One region on node 1, with its packed address. -/
def oneRegion : Client ℕ := (mallocs (fun _ => 0) headClient [nodeOneAlloc]).1

def regionWork (isWrite : Bool) : Work := ⟨isWrite, packed nodeOneAlloc, 64, 4, 8⟩

def start : State ℕ := ⟨oneRegion, [], .idle, [], [], []⟩

theorem reachable_start {cond : State ℕ → Action → Prop} :
    Reach (oneSidedSystem ℕ fun _ => 0) cond start :=
  .start ⟨mallocs_writeFlag ⟨rfl, fun _ => rfl⟩ _, rfl, rfl, rfl, rfl, rfl⟩

def allOk : SetupOutcome := ⟨true, true, true⟩

def servedTest (_ : State ℕ) : Action → Bool
  | .poll _ status => status = .SUCCESS
  | .setup o => o.taskOk
  | _ => true

theorem served_of_test (s : State ℕ) (a : Action) (h : servedTest s a = true) : Served s a := by
  cases a with
  | poll id status =>
    show status = .SUCCESS
    exact of_decide_eq_true h
  | setup o => exact fun _ _ _ _ => h
  | _ => trivial

/-- A write and then a read of the same address. -/
def writeThenRead : List Action :=
  [.call (regionWork true) true true, .call (regionWork false) true true, .takeWork, .passFlag,
    .setup allOk, .post true, .poll 0 .SUCCESS, .wake, .takeWork, .passFlag, .setup allOk,
    .post true, .poll 1 .SUCCESS, .wake]

theorem released_of_served_both : ∃ s : State ℕ, s.polled = [0, 1] ∧ Released s := by
  obtain ⟨s, _, hs, hpolled⟩ := reach_of_run_any served_of_test reachable_start
    (show (run (oneSidedSystem ℕ fun _ => 0) servedTest start writeThenRead).any
      (fun s => s.polled == [0, 1]) = true by decide +kernel)
  exact ⟨s, beq_iff_eq.mp hpolled, released_of_served _ hs⟩

/-- The completion of a write is an error. -/
def failedWrite : List Action :=
  [.call (regionWork true) true true, .takeWork, .passFlag, .setup allOk, .post true,
    .poll 0 .WR_FLUSH_ERR]

/-- The task of a write cannot be allocated. -/
def noTask : List Action :=
  [.call (regionWork true) true true, .takeWork, .passFlag, .setup ⟨true, true, false⟩]

def State.isIdle {T : Type*} (s : State T) : Bool :=
  match s.pc with
  | .idle => true
  | _ => false

theorem not_released_failure :
    (¬ ∀ s, Reachable (oneSidedSystem ℕ fun _ => 0) s →
      ∀ id ∈ s.polled, (s.tasks[id]?).any (·.doneFlag) = true) ∧
    ¬ ∀ s, Reachable (oneSidedSystem ℕ fun _ => 0) s →
      s.pc = .idle → ∀ i ∈ s.client.addrInfos, i.writeFlag = false := by
  constructor
  · intro hclaim
    obtain ⟨s, _, hs, hbad⟩ := reach_of_run_any (fun _ _ _ => trivial) reachable_start
      (show (run (oneSidedSystem ℕ fun _ => 0) (fun _ _ => true) start failedWrite).any
        (fun s => s.polled == [0] && !(s.tasks[0]?).any (·.doneFlag)) = true by decide +kernel)
    rw [Bool.and_eq_true, beq_iff_eq] at hbad
    have hdone := hclaim s hs 0 (by simp [hbad.1])
    simp [hdone] at hbad
  · intro hclaim
    obtain ⟨s, _, hs, hbad⟩ := reach_of_run_any (fun _ _ _ => trivial) reachable_start
      (show (run (oneSidedSystem ℕ fun _ => 0) (fun _ _ => true) start noTask).any
        (fun s => s.isIdle && s.client.addrInfos.any (·.writeFlag)) = true by decide +kernel)
    rw [Bool.and_eq_true, List.any_eq_true] at hbad
    obtain ⟨hidle, i, hi, hflag⟩ := hbad
    have hpc : s.pc = .idle := by
      unfold State.isIdle at hidle
      split at hidle
      · assumption
      · cases hidle
    rw [hclaim s hs hpc i hi] at hflag
    cases hflag

end RdmaMiddleware.OneSided
