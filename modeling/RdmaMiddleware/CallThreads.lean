import RdmaMiddleware.CallResults

/-!
# The threads behind one call

A call of `dhmp_read` or `dhmp_write` ends as a run of the caller, the work thread and the
completion handler does: idle with the task done or without one, dead, or in one of the two
waits.
-/
namespace RdmaMiddleware.CallResults
open AddressTable TransitionSystem
open OneSided (Task WcStatus setWriteFlag)

variable {T : Type*} {hash : Address → BitVec 32} {t : Table T} {c : CallerOutcome}
  {dhmpAddr : Address} {a : TransferArgs} {o : TransferOutcome}

theorem lookup_eq_some {c : Client T} {info : ℕ} {i : AddrInfo}
    (h : lookup hash c dhmpAddr = some (info, i)) :
    getAddrInfoFromHt c (hashInClient hash dhmpAddr) dhmpAddr = some info ∧
      c.addrInfos[info]? = some i := by
  obtain ⟨info', hget, hmap⟩ := Option.bind_eq_some_iff.mp h
  obtain ⟨i', hi, hpair⟩ := Option.map_eq_some_iff.mp hmap
  cases hpair
  exact ⟨hget, hi⟩

/-- What the bucket names is an entry. -/
theorem getAddrInfoFromHt_eq_none {c : Client T} (h : lookup hash c dhmpAddr = none) :
    getAddrInfoFromHt c (hashInClient hash dhmpAddr) dhmpAddr = none := by
  cases hget : getAddrInfoFromHt c (hashInClient hash dhmpAddr) dhmpAddr with
  | none => rfl
  | some info =>
    have hentry := List.find?_some hget
    cases hi : c.addrInfos[info]? with
    | none => simp [hi] at hentry
    | some i => simp [lookup, hget, hi] at h

/-- The threads of the client where the call has ended. -/
def EndsAt (s : OneSided.State T) : Ending (Table T × Option Task) → Prop
  | .value (t, moved) => s.pc = .idle ∧ s.client = t.client ∧
      ∀ task, moved = some task → ∃ id : ℕ, s.tasks[id]? = some { task with doneFlag := true }
  | .crash | .exited => s.pc = .dead
  | .waits =>
    (∃ (w : OneSided.Work) (info : ℕ) (i : AddrInfo), s.pc = .waitFlag w info ∧
      s.client.addrInfos[info]? = some i ∧ i.writeFlag = true) ∨
    ∃ (w : OneSided.Work) (id : ℕ) (task : Task), s.pc = .spin w id ∧
      s.tasks[id]? = some task ∧ task.doneFlag = false

/-- The actions of the threads for one call whose task gets the number `id`. -/
def actions (id : ℕ) (isWrite : Bool) (a : TransferArgs) (c : CallerOutcome)
    (o : TransferOutcome) : List OneSided.Action :=
  [.call (workOf isWrite a) c.connected c.allocOk, .takeWork, .passFlag, .setup o.toSetupOutcome,
    .post o.posted, .poll id o.status, .wake]

@[simp] theorem workOf_dhmpAddr (isWrite : Bool) (a : TransferArgs) :
    (workOf isWrite a).dhmpAddr = a.dhmpAddr := rfl

@[simp] theorem workOf_isWrite (isWrite : Bool) (a : TransferArgs) :
    (workOf isWrite a).isWrite = isWrite := rfl

section Run
variable {isWrite : Bool} {tasks : List Task} {posted polled : List ℕ} {info : ℕ} {i : AddrInfo}

theorem run_step {s s' : OneSided.State T} {act : OneSided.Action}
    (h : OneSided.step hash s act = some s') (acts : List OneSided.Action) :
    run (OneSided.oneSidedSystem T hash) (fun _ _ => true) s (act :: acts) =
      run (OneSided.oneSidedSystem T hash) (fun _ _ => true) s' acts := by
  simp [run, OneSided.oneSidedSystem, h]

theorem step_call (haccepted : ¬ Refused t a.dhmpAddr c) :
    OneSided.step hash ⟨t.client, [], .idle, tasks, posted, polled⟩
        (.call (workOf isWrite a) c.connected c.allocOk) =
      some ⟨t.client, [workOf isWrite a], .idle, tasks, posted, polled⟩ := by
  simp only [Refused, not_or, Bool.not_eq_false, ← ne_eq, Option.ne_none_iff_isSome] at haccepted
  obtain ⟨htrans, hconnected, halloc⟩ := haccepted
  simp [OneSided.step, OneSided.call, htrans, hconnected, halloc]

/-- The work thread finds the entry of the address. -/
theorem step_takeWork (hlookup : lookup hash t.client a.dhmpAddr = some (info, i)) :
    OneSided.step hash ⟨t.client, [workOf isWrite a], .idle, tasks, posted, polled⟩ .takeWork =
      some ⟨t.client, [], .waitFlag (workOf isWrite a) info, tasks, posted, polled⟩ := by
  simp [OneSided.step, (lookup_eq_some hlookup).1]

/-- It passes a `write_flag` that is clear. -/
theorem step_passFlag (hlookup : lookup hash t.client a.dhmpAddr = some (info, i))
    (hflag : i.writeFlag = false) :
    OneSided.step hash ⟨t.client, [], .waitFlag (workOf isWrite a) info, tasks, posted, polled⟩
        .passFlag =
      some ⟨if isWrite then setWriteFlag t.client info true else t.client, [],
        .setup (workOf isWrite a) info, tasks, posted, polled⟩ := by
  cases isWrite <;> simp [OneSided.step, (lookup_eq_some hlookup).2, hflag]

@[simp] theorem compChannelHandler_success (s : OneSided.State T) (id : ℕ) (mr : IbvMr) :
    OneSided.compChannelHandler s id (OneSided.taskCreate (workOf isWrite a) info mr) .SUCCESS =
      { s with
        client := if isWrite then setWriteFlag s.client info false else s.client
        tasks := OneSided.setDone s.tasks id } := by
  cases isWrite <;> rfl

theorem compChannelHandler_error (s : OneSided.State T) (id : ℕ) (task : Task) {status : WcStatus}
    (h : status ≠ .SUCCESS) : OneSided.compChannelHandler s id task status = s :=
  if_neg h

@[simp] theorem setDone_last (tasks : List Task) (task : Task) :
    (OneSided.setDone (tasks ++ [task]) tasks.length)[tasks.length]? =
      some { task with doneFlag := true } := by
  simp [OneSided.setDone]

theorem doneFlag_taskCreate (w : OneSided.Work) (mr : IbvMr) :
    (OneSided.taskCreate w info mr).doneFlag = false := rfl

/-- The second half of the two work handlers. -/
def transfer (isWrite : Bool) (t : Table T) (info : ℕ) (task : Task) (o : TransferOutcome) :
    Ending (Table T × Option Task) :=
  if isWrite then (rdmaWrite task o).andThen fun r => .value (writeDone t info r.2)
  else (rdmaRead task o).andThen fun r => .value (t, r.2)

/-- A work that has passed the `write_flag`, for each ending of its transfer. -/
theorem exists_run_setup (isWrite : Bool)
    (hinfo : (t.client.addrInfos[info]?).map AddrInfo.nvmMr = some i.nvmMr) :
    ∃ n s', run (OneSided.oneSidedSystem T hash) (fun _ _ => true)
        ⟨t.client, [], .setup (workOf isWrite a) info, tasks, posted, polled⟩
        (((actions tasks.length isWrite a c o).drop 3).take n) = some s' ∧
      EndsAt s' (transfer isWrite t info
        (OneSided.taskCreate (workOf isWrite a) info i.nvmMr) o) := by
  obtain ⟨⟨smrOk, regOk, taskOk⟩, isPosted, status⟩ := o
  obtain ⟨i', hi', hmr⟩ := Option.map_eq_some_iff.mp hinfo
  cases taskOk with
  | false =>
    refine ⟨1, ?_⟩
    cases isWrite <;> simp [actions, run, OneSided.oneSidedSystem, OneSided.step, OneSided.setup,
      transfer, rdmaRead, rdmaWrite, rdmaTaskCreate, writeDone, EndsAt]
  | true =>
    by_cases hreg : (smrOk && regOk) = true
    case neg =>
      refine ⟨1, ?_⟩
      cases isWrite <;> simp [actions, run, OneSided.oneSidedSystem, OneSided.step,
        OneSided.setup, transfer, rdmaRead, rdmaWrite, rdmaTaskCreate, EndsAt, hreg]
    cases isPosted with
    | false =>
      refine ⟨2, ?_⟩
      cases isWrite <;> simp [actions, run, OneSided.oneSidedSystem, OneSided.step,
        OneSided.setup, transfer, rdmaRead, rdmaWrite, rdmaTaskCreate, EndsAt, hreg, hi']
    | true =>
      by_cases hstatus : status = .SUCCESS
      · refine ⟨4, ?_⟩
        have hlast := setDone_last tasks (OneSided.taskCreate (workOf isWrite a) info i.nvmMr)
        cases isWrite <;> simpa [actions, run, OneSided.oneSidedSystem, OneSided.step,
          OneSided.setup, transfer, rdmaRead, rdmaWrite, rdmaTaskCreate, writeDone, EndsAt, hreg,
          hi', hmr, hstatus] using ⟨_, hlast⟩
      · refine ⟨3, ?_⟩
        cases isWrite <;> simp [actions, run, OneSided.oneSidedSystem, OneSided.step,
          OneSided.setup, transfer, rdmaRead, rdmaWrite, rdmaTaskCreate, EndsAt, hreg, hi', hmr,
          hstatus, compChannelHandler_error, doneFlag_taskCreate]

/-- A call that is accepted ends where a run of the threads gets. -/
theorem exists_run_transfer (isWrite : Bool) (haccepted : ¬ Refused t a.dhmpAddr c) :
    ∃ n s', run (OneSided.oneSidedSystem T hash) (fun _ _ => true)
        ⟨t.client, [], .idle, tasks, posted, polled⟩
        ((actions tasks.length isWrite a c o).take n) = some s' ∧
      EndsAt s' (if isWrite then writeWorkHandler hash t a o else readWorkHandler hash t a o) := by
  cases hlookup : lookup hash t.client a.dhmpAddr with
  | none =>
    have hget := getAddrInfoFromHt_eq_none hlookup
    refine ⟨2, ⟨t.client, [], .idle, tasks, posted, polled⟩, ?_, ?_⟩
    · simp only [actions, List.take_succ_cons, List.take_zero]
      rw [run_step (step_call haccepted)]
      simp [run, OneSided.oneSidedSystem, OneSided.step, hget]
    · cases isWrite <;> simp [writeWorkHandler, readWorkHandler, hlookup, EndsAt]
  | some entry =>
    obtain ⟨info, i⟩ := entry
    have hinfo := (lookup_eq_some hlookup).2
    cases hflag : i.writeFlag with
    | true =>
      refine ⟨2, ⟨t.client, [], .waitFlag (workOf isWrite a) info, tasks, posted, polled⟩, ?_, ?_⟩
      · simp only [actions, List.take_succ_cons, List.take_zero]
        rw [run_step (step_call haccepted), run_step (step_takeWork hlookup)]
        rfl
      · cases isWrite <;> simp [writeWorkHandler, readWorkHandler, hlookup, hflag, EndsAt, hinfo]
    | false =>
      have hpassed (n : ℕ) : run (OneSided.oneSidedSystem T hash) (fun _ _ => true)
          ⟨t.client, [], .idle, tasks, posted, polled⟩
          ((actions tasks.length isWrite a c o).take (n + 3)) =
        run (OneSided.oneSidedSystem T hash) (fun _ _ => true)
          ⟨if isWrite then setWriteFlag t.client info true else t.client, [],
            .setup (workOf isWrite a) info, tasks, posted, polled⟩
          (((actions tasks.length isWrite a c o).drop 3).take n) := by
        rw [actions, List.take_succ_cons, List.take_succ_cons, List.take_succ_cons,
          run_step (step_call haccepted), run_step (step_takeWork hlookup),
          run_step (step_passFlag hlookup hflag)]
        rfl
      cases isWrite with
      | false =>
        have hmr : (t.client.addrInfos[info]?).map AddrInfo.nvmMr = some i.nvmMr := by
          simp [hinfo]
        obtain ⟨n, s', hrun, hend⟩ := exists_run_setup (t := { t with
          readCnt := Function.update t.readCnt info (t.readCnt info + 1) }) false hmr
        refine ⟨n + 3, s', (hpassed n).trans hrun, ?_⟩
        simpa [readWorkHandler, hlookup, hflag, transfer] using hend
      | true =>
        have hmr : ((setWriteFlag t.client info true).addrInfos[info]?).map AddrInfo.nvmMr =
            some i.nvmMr := by
          simp [setWriteFlag, hinfo]
        obtain ⟨n, s', hrun, hend⟩ := exists_run_setup (t := { t with
          client := setWriteFlag t.client info true
          writeCnt := Function.update t.writeCnt info (t.writeCnt info + 1) }) true hmr
        refine ⟨n + 3, s', (hpassed n).trans hrun, ?_⟩
        simpa [writeWorkHandler, hlookup, hflag, transfer] using hend

end Run

end RdmaMiddleware.CallResults
