import RdmaMiddleware.CompletionFlow

/-!
# Runs of the completion handler

From a waiting thread to an empty queue, and the two ways in which the handler fails its
transport: it is never called again, or it is called once too often.
-/
namespace RdmaMiddleware.ReceivePool
open TransitionSystem CompletionChannels Connection Framing

variable {s t : State} {a : Action}

/-! ## The queue is polled empty -/

/-- What the epoll thread does by itself when nothing fails. -/
def alone : Action → Bool
  | .wait _ | .next | .drained | .post _ _ | .notify true | .poll | .repost _ _ => true
  | _ => false

theorem quiet_of_alone (s : State) (a : Action) (h : alone a = true) :
    Quiet s a ∧ Notified s a := by
  cases a with
  | notify ok =>
    cases ok with
    | false => cases h
    | true => exact ⟨trivial, by rintro ⟨⟩⟩
  | wait events => exact ⟨trivial, by rintro ⟨⟩⟩
  | next => exact ⟨trivial, by rintro ⟨⟩⟩
  | drained => exact ⟨trivial, by rintro ⟨⟩⟩
  | post taskOk postOk => exact ⟨trivial, by rintro ⟨⟩⟩
  | poll => exact ⟨trivial, by rintro ⟨⟩⟩
  | repost taskOk postOk => exact ⟨trivial, by rintro ⟨⟩⟩
  | _ => cases h

/-- The loop over `ibv_poll_cq`. -/
def drainActions : List Wc → List Action
  | [] => [.poll]
  | wc :: entries =>
    match wc.task, wc.success with
    | .recv _, true => .poll :: .repost true true :: drainActions entries
    | _, _ => .poll :: drainActions entries

/-- The buffers of the completions that succeeded, or failed. -/
def offsetsOf (success : Bool) (entries : List Wc) : List ℕ :=
  (entries.filter (·.success == success)).filterMap (·.task.offset?)

theorem run_drain {entries : List Wc} {rest : List Item} (hthread : s.thread = .polling rest)
    (hentries : s.channel.entries = entries) (hdcq : s.conn.dcq = true)
    (hstate : pastConnected s.conn.transState = false) (hqp : s.conn.qp = true) :
    ∃ fault, run poolSystem (fun _ a => alone a) s (drainActions entries) = some { s with
      posted := s.posted ++ offsetsOf true entries
      lost := s.lost ++ offsetsOf false entries
      channel := s.channel.setEntries []
      polled := s.polled + entries.length
      thread := .batch rest
      fault := fault } := by
  induction entries generalizing s with
  | nil =>
    refine ⟨s.fault, ?_⟩
    have hstep : step s .poll = some { s with thread := .batch rest } := by
      simp [step, epollStep, hthread, pollCq, hdcq, hentries]
    have hchannel : s.channel.setEntries [] = s.channel := by rw [← hentries]; rfl
    rw [drainActions, run_of_step hstep rfl, hchannel]
    simp [run, offsetsOf]
  | cons wc entries ih =>
    have hstep : step s .poll = some (handleWc { s with
        channel := s.channel.setEntries entries, polled := s.polled + 1 } wc rest) := by
      simp [step, epollStep, hthread, pollCq, hdcq, hentries]
    have hnext : ∀ u : State, u.conn = s.conn → u.thread = .polling rest →
        u.channel = s.channel.setEntries entries → u.sq = s.sq → u.polled = s.polled + 1 →
        ∃ fault, run poolSystem (fun _ a => alone a) u (drainActions entries) = some { s with
          posted := u.posted ++ offsetsOf true entries
          lost := u.lost ++ offsetsOf false entries
          channel := s.channel.setEntries []
          polled := s.polled + (entries.length + 1)
          thread := .batch rest
          fault := fault } := by
      intro u hconn huthread hchannel hsq hpolled
      obtain ⟨fault, hrun⟩ := ih (s := u) huthread (by rw [hchannel]; rfl) (by rwa [hconn])
        (by rwa [hconn]) (by rwa [hconn])
      refine ⟨fault, hrun.trans ?_⟩
      rw [hconn, hsq, hchannel, hpolled, Nat.add_assoc, Nat.add_comm 1]
      rfl
    obtain ⟨task, success⟩ := wc
    cases task with
    | recv offset =>
      cases success with
      | true =>
        have hpost : step { s with
            channel := s.channel.setEntries entries
            polled := s.polled + 1
            fault := s.fault || !s.conn.recvRegion
            thread := .handling offset rest } (.repost true true) = some { s with
              channel := s.channel.setEntries entries
              polled := s.polled + 1
              fault := s.fault || !s.conn.recvRegion
              posted := s.posted ++ [offset]
              thread := .polling rest } := by
          simp [step, epollStep, postRecv, hstate, hqp]
        obtain ⟨fault, hrun⟩ := hnext { s with
          channel := s.channel.setEntries entries
          polled := s.polled + 1
          fault := s.fault || !s.conn.recvRegion
          posted := s.posted ++ [offset]
          thread := .polling rest } rfl rfl rfl rfl rfl
        refine ⟨fault, ?_⟩
        rw [drainActions, run_of_step hstep rfl]
        simp only [handleWc]
        rw [run_of_step hpost rfl, hrun]
        simp [offsetsOf]
      | false =>
        obtain ⟨fault, hrun⟩ := hnext { s with
          channel := s.channel.setEntries entries
          polled := s.polled + 1
          lost := s.lost ++ [offset] } rfl hthread rfl rfl rfl
        refine ⟨fault, ?_⟩
        rw [drainActions, run_of_step hstep rfl]
        simp only [handleWc]
        rw [hrun]
        simp [offsetsOf]
    | request r =>
      obtain ⟨f, hf⟩ : ∃ f, handleWc { s with
          channel := s.channel.setEntries entries, polled := s.polled + 1 }
          ⟨.request r, success⟩ rest = { s with
            channel := s.channel.setEntries entries, polled := s.polled + 1, fault := f } := by
        cases r <;> cases success <;> exact ⟨_, rfl⟩
      rw [hf] at hstep
      obtain ⟨fault, hrun⟩ := hnext { s with
        channel := s.channel.setEntries entries, polled := s.polled + 1, fault := f }
        rfl hthread rfl rfl rfl
      refine ⟨fault, ?_⟩
      rw [drainActions, run_of_step hstep rfl, hrun]
      cases success <;> simp [offsetsOf, List.filterMap_cons]

/-! ## All buffers, all completions -/

/-- A run for a test: no end of the connection, and no step that fails. -/
def testRun (_ : State) : Action → Bool
  | .cmEvent .established | .post true true | .repost true true | .receive true => true
  | .wait _ | .next | .drained | .notify true | .poll => true
  | _ => false

theorem cond_of_testRun (s : State) (a : Action) (h : testRun s a = true) :
    Quiet s a ∧ Notified s a ∧ Smooth a := by
  unfold testRun at h
  split at h
  all_goals first
    | exact absurd h Bool.false_ne_true
    | exact ⟨trivial, by rintro ⟨⟩, trivial⟩
    | exact ⟨trivial, by rintro ⟨⟩, rfl, rfl⟩
    | exact ⟨trivial, by rintro ⟨⟩, rfl⟩

theorem reach_server {cond : State → Action → Prop} (isPollQp : Bool) :
    Reach poolSystem cond (start .server isPollQp true []) :=
  .start ⟨.server, isPollQp, true, [], fun _ => rfl, List.not_mem_nil, rfl⟩

/-- The first buffer is filled while the others are still being posted. -/
def firstMessage : List Action := [.post true true, .post true true, .receive true]

/-- The buffers of a small queue pair, and a message while the thread waits. -/
def messageWaits : List Action :=
  List.replicate 9 (.post true true) ++ [.drained, .next, .receive true]

/-- Nothing is lost as long as nothing fails, and what completes has succeeded. -/
structure Full (s : State) : Prop where
  lost : s.conn.cm = .connecting ∨ s.conn.cm = .established → s.lost = []
  success : ∀ wc ∈ s.channel.entries, wc.task.offset?.isSome → wc.success = true

theorem full_of_step (hs : Sound s) (h : Full s) (hc : Quiet s a ∧ Smooth a)
    (ht : step s a = some t) : Full t := by
  have hst := hs.of_step hc.1 ht
  have hloses := Loses.of_step ht
  cases Effect.of_step ht with
  | none hchannel _ hlost _ =>
    refine ⟨fun hcm => hlost.trans (h.lost (hloses.cm hcm)), ?_⟩
    rw [hchannel]
    exact h.success
  | lose hwhy hchannel _ _ =>
    refine ⟨fun hcm => ?_, ?_⟩
    · have hlive := hloses.cm hcm
      rcases hwhy with hsmooth | hpast | hqp
      · exact absurd hc.2 hsmooth
      · have hend := hs.conn.past.mpr hpast
        rcases hlive with hl | hl <;> rcases hend with he | he <;> cases hl.symm.trans he
      · cases (hs.conn.whole hlive).qp.symm.trans hqp
    · rw [hchannel]
      exact h.success
  | getEvent _ _ hchannel _ hlost _ =>
    refine ⟨fun hcm => hlost.trans (h.lost (hloses.cm hcm)), ?_⟩
    rw [hchannel]
    exact h.success
  | arm _ hchannel _ hlost _ =>
    refine ⟨fun hcm => hlost.trans (h.lost (hloses.cm hcm)), ?_⟩
    rw [hchannel]
    exact h.success
  | drop _ _ hchannel _ hlost _ =>
    refine ⟨fun hcm => hlost.trans (h.lost (hloses.cm hcm)), ?_⟩
    rw [hchannel]
    exact h.success
  | pop wc entries hentries _ hchannel _ hlost _ =>
    refine ⟨fun hcm => ?_, fun w hw => ?_⟩
    · rw [hlost, h.lost (hloses.cm hcm)]
      have hwc := h.success wc (by rw [hentries]; exact List.mem_cons_self)
      cases hoffset : wc.task.offset? with
      | none => simp
      | some offset =>
        rw [hwc (by rw [hoffset]; rfl)]
        rfl
    · rw [hchannel] at hw
      exact h.success w (by rw [hentries]; exact List.mem_cons_of_mem _ hw)
  | leave _ _ hchannel _ hlost _ =>
    refine ⟨fun hcm => hlost.trans (h.lost (hloses.cm hcm)), ?_⟩
    rw [hchannel]
    exact h.success
  | receive offset ok ha hchannel _ hlost _ =>
    refine ⟨fun hcm => hlost.trans (h.lost (hloses.cm hcm)), fun w hw hsome => ?_⟩
    rw [hchannel] at hw
    rcases List.mem_append.mp hw with hw | hw
    · exact h.success w hw hsome
    · have hsmooth := hc.2
      rw [ha] at hsmooth
      rw [List.mem_singleton.mp hw]
      exact hsmooth
  | sent r ok hchannel _ hlost _ =>
    refine ⟨fun hcm => hlost.trans (h.lost (hloses.cm hcm)), fun w hw hsome => ?_⟩
    rw [hchannel] at hw
    rcases List.mem_append.mp hw with hw | hw
    · exact h.success w hw hsome
    · rw [List.mem_singleton.mp hw] at hsome
      cases hsome
  | enqueue r _ hchannel _ hlost _ =>
    refine ⟨fun hcm => hlost.trans (h.lost (hloses.cm hcm)), ?_⟩
    rw [hchannel]
    exact h.success
  | destroyQp keep _ hchannel _ _ hqp =>
    refine ⟨fun hcm => ?_, fun w hw => ?_⟩
    · cases (hst.conn.whole hcm).qp.symm.trans hqp
    · rw [hchannel] at hw
      cases keep
      · exact absurd hw List.not_mem_nil
      · exact h.success w hw
  | destroyCq hentries _ _ _ _ hdcq =>
    refine ⟨fun hcm => ?_, fun w hw => ?_⟩
    · cases (hst.conn.whole hcm).dcq.symm.trans hdcq
    · rw [hentries] at hw
      exact absurd hw List.not_mem_nil

/-- The message has been handled and the thread waits again. -/
def messageHandled : List Action :=
  messageWaits ++ [.wait [.compChannel], .next, .notify true, .poll, .repost true true, .poll,
    .next]

/-- The reader is away and nobody can call it. -/
structure Deaf (s : State) : Prop where
  armed : s.channel.armed = false
  events : s.channel.events = 0
  reader : s.thread.reader = .away

theorem deaf_of_step (h : Deaf s) (ht : step s a = some t) : Deaf t := by
  have haway := h.reader
  cases Effect.of_step ht with
  | none hchannel _ _ hreader =>
    exact ⟨hchannel ▸ h.armed, hchannel ▸ h.events, hreader.trans haway⟩
  | lose _ hchannel _ hreader =>
    exact ⟨hchannel ▸ h.armed, hchannel ▸ h.events, hreader.trans haway⟩
  | getEvent hpos _ _ _ _ _ =>
    rw [h.events] at hpos
    exact absurd hpos (Nat.lt_irrefl 0)
  | arm hunarmed _ _ _ _ => cases haway.symm.trans hunarmed
  | drop _ hunarmed _ _ _ _ => cases haway.symm.trans hunarmed
  | pop _ _ _ hdraining _ _ _ _ => cases haway.symm.trans hdraining
  | leave _ hdraining _ _ _ _ => cases haway.symm.trans hdraining
  | receive offset ok _ hchannel _ _ hreader =>
    refine ⟨hchannel ▸ rfl, ?_, hreader.trans haway⟩
    rw [hchannel, Channel.push, h.armed]
    exact h.events
  | sent r ok hchannel _ _ hreader =>
    refine ⟨hchannel ▸ rfl, ?_, hreader.trans haway⟩
    rw [hchannel, Channel.push, h.armed]
    exact h.events
  | enqueue r _ hchannel _ _ hreader =>
    exact ⟨hchannel ▸ h.armed, hchannel ▸ h.events, hreader.trans haway⟩
  | destroyQp keep _ hchannel _ hreader _ =>
    exact ⟨hchannel ▸ h.armed, hchannel ▸ h.events, hreader.trans haway⟩
  | destroyCq _ hevents harmed _ hreader _ => exact ⟨harmed, hevents, hreader.trans haway⟩

/-- One failing `ibv_req_notify_cq` ends the service of the transport: the handler returns
before it polls, the queue raises no event any more, and no completion of this transport is
ever handled again. -/
theorem deaf_after_failed_notify (h : Reachable poolSystem s)
    (ht : step s (.notify false) = some t) {u : State} (hu : Reachable (poolSystem.after t) u) :
    u.thread.reader = .away ∧ u.channel.events = 0 ∧
      (∀ offset rest, u.thread ≠ .handling offset rest) ∧
      ∀ events, .compChannel ∈ events → step u (.wait events) = none := by
  have hdeaf : Deaf t := by
    have htokens := (flow_of_reach h).tokens
    simp only [step, epollStep] at ht
    split at ht
    · rename_i rest hthread
      rw [hthread] at htokens
      obtain ⟨harmed, hevents⟩ := Channel.tokens_drop htokens
      rw [if_neg Bool.false_ne_true] at ht
      split_ifs at ht
      all_goals
        cases ht
        exact ⟨harmed, hevents, rfl⟩
    · cases ht
  have hlater : Deaf u := by
    refine hu.invariant (P := Deaf) ?_ fun _ _ _ hd _ hv => deaf_of_step hd hv
    rintro _ rfl
    exact hdeaf
  refine ⟨hlater.reader, hlater.events, fun offset rest hthread => ?_, fun events hmem => ?_⟩
  · have haway := hlater.reader
    rw [hthread] at haway
    cases haway
  · simp [step, epollStep, hmem, hlater.events]

theorem deaf_after_failed_notify_message : ∃ s t : State, s.completed = [0] ∧
    step s (.notify false) = some t ∧
    ∀ u, Reachable (poolSystem.after t) u → u.thread.reader = .away := by
  obtain ⟨s, _, hs, hcheck⟩ := reach_of_run_any cond_of_testRun (reach_server true)
    (show (run poolSystem testRun (start .server true true [])
      (messageWaits ++ [.wait [.compChannel], .next])).any
      (fun s => s.completed == [0] && (step s (.notify false)).isSome) = true by decide +kernel)
  simp only [Bool.and_eq_true, beq_iff_eq, Option.isSome_iff_exists] at hcheck
  obtain ⟨hcompleted, t, ht⟩ := hcheck
  exact ⟨s, t, hcompleted, ht,
    fun u hu => (deaf_after_failed_notify (hs.mono fun _ _ _ => trivial) ht hu).1⟩

/-! ## What a batch still holds -/

/-- The events of a batch before the completion channel of the transport. -/
def skipActions : List Item → List Action
  | .eventChannel :: rest => .next :: .drained :: skipActions rest
  | .other :: rest => .next :: skipActions rest
  | .compChannel :: _ | [] => []

theorem run_skip {batch : List Item} (hthread : s.thread = .batch batch)
    (hmem : .compChannel ∈ batch) : ∃ rest,
    run poolSystem (fun _ a => alone a) s (skipActions batch) =
      some { s with thread := .batch (.compChannel :: rest) } := by
  induction batch generalizing s with
  | nil => exact absurd hmem List.not_mem_nil
  | cons item batch ih =>
    cases item with
    | compChannel => exact ⟨batch, by rw [← hthread]; rfl⟩
    | eventChannel =>
      have hnext : step s .next = some { s with thread := .cmEvents batch } := by
        simp [step, epollStep, hthread]
      have hdrained : step { s with thread := .cmEvents batch } .drained =
          some { s with thread := .batch batch } := by
        simp [step, epollStep]
      obtain ⟨rest, hrun⟩ := ih (s := { s with thread := .batch batch }) rfl
        (List.mem_of_ne_of_mem (by decide) hmem)
      exact ⟨rest, by rw [skipActions, run_of_step hnext rfl, run_of_step hdrained rfl, hrun]⟩
    | other =>
      have hnext : step s .next = some { s with thread := .batch batch } := by
        simp [step, epollStep, hthread]
      obtain ⟨rest, hrun⟩ := ih (s := { s with thread := .batch batch }) rfl
        (List.mem_of_ne_of_mem (by decide) hmem)
      exact ⟨rest, by rw [skipActions, run_of_step hnext rfl, hrun]⟩

/-- The completions whose message is looked at in one of the regions of the transport. -/
def reads (wc : Wc) : Bool :=
  wc.success && match wc.task with
    | .recv _ | .request .send => true
    | .request .oneSided => false

/-- The loop goes on to the first of them. -/
theorem run_polls {before : List Wc} {wc : Wc} {after : List Wc} {rest : List Item}
    (hthread : s.thread = .polling rest) (hentries : s.channel.entries = before ++ wc :: after)
    (hbefore : ∀ w ∈ before, reads w = false) (hwc : reads wc = true) (hdcq : s.conn.dcq = true)
    (hsend : s.conn.sendRegion = false) (hrecv : s.conn.recvRegion = false) :
    ∃ t, run poolSystem (fun _ a => alone a) s (List.replicate (before.length + 1) .poll) =
      some t ∧ t.fault = true := by
  induction before generalizing s with
  | nil =>
    have hstep : step s .poll = some (handleWc { s with
        channel := s.channel.setEntries after, polled := s.polled + 1 } wc rest) := by
      simp [step, epollStep, hthread, pollCq, hdcq, hentries]
    refine ⟨_, run_of_step hstep rfl [], ?_⟩
    obtain ⟨task, success⟩ := wc
    obtain ⟨rfl, htask⟩ := Bool.and_eq_true_iff.mp hwc
    cases task with
    | recv offset => simp [handleWc, hrecv]
    | request r =>
      cases r with
      | send => simp [handleWc, hsend]
      | oneSided => cases htask
  | cons w before ih =>
    have hstep : step s .poll = some (handleWc { s with
        channel := s.channel.setEntries (before ++ wc :: after), polled := s.polled + 1 } w
        rest) := by
      simp [step, epollStep, hthread, pollCq, hdcq, hentries]
    have hquiet := hbefore w List.mem_cons_self
    obtain ⟨lost, hhandle⟩ : ∃ lost, handleWc { s with
        channel := s.channel.setEntries (before ++ wc :: after), polled := s.polled + 1 } w rest =
        { s with
          channel := s.channel.setEntries (before ++ wc :: after)
          polled := s.polled + 1
          lost := lost } := by
      obtain ⟨task, success⟩ := w
      cases task with
      | recv offset =>
        cases success with
        | true => cases hquiet
        | false => exact ⟨_, rfl⟩
      | request r =>
        cases r with
        | send =>
          cases success with
          | true => cases hquiet
          | false => exact ⟨_, rfl⟩
        | oneSided => cases success <;> exact ⟨_, rfl⟩
    rw [hhandle] at hstep
    obtain ⟨t, hrun, hfault⟩ := ih (s := { s with
      channel := s.channel.setEntries (before ++ wc :: after)
      polled := s.polled + 1
      lost := lost }) hthread rfl (fun x hx => hbefore x (List.mem_cons_of_mem _ hx)) hdcq hsend
      hrecv
    refine ⟨t, ?_, hfault⟩
    rw [List.length_cons, List.replicate_succ, run_of_step hstep rfl, hrun]

/-- The message comes in between two calls of `epoll_wait`, and so does the disconnection. -/
def lastMessage : List Action :=
  List.replicate 9 (.post true true) ++ [.cmEvent .established, .drained, .next, .receive true,
    .wait [.eventChannel, .compChannel], .next]

end RdmaMiddleware.ReceivePool
