import RdmaMiddleware.TransportTeardown

/-!
# Completions reach the epoll thread

`dhmp_comp_channel_handler` takes the event, arms the queue again and then polls it empty.
What each step can do to the channel and the queues is said once; what holds of the
completions in every run is read off it.
-/
namespace RdmaMiddleware.ReceivePool
open TransitionSystem CompletionChannels Connection Framing

variable {s t : State} {a : Action}

/-- No allocation, post or receive fails. -/
def Smooth : Action → Prop
  | .post taskOk postOk | .repost taskOk postOk => taskOk = true ∧ postOk = true
  | .receive ok => ok = true
  | _ => True

/-- What a step leaves of the channel, the send queue, the lost buffers and the reader. -/
inductive Effect (s t : State) (a : Action) : Prop
  | none (hchannel : t.channel = s.channel) (hsq : t.sq = s.sq) (hlost : t.lost = s.lost)
      (hreader : t.thread.reader = s.thread.reader)
  | lose (hwhy : ¬ Smooth a ∨ pastConnected s.conn.transState = true ∨ s.conn.qp = false)
      (hchannel : t.channel = s.channel) (hsq : t.sq = s.sq)
      (hreader : t.thread.reader = s.thread.reader)
  | getEvent (hpos : 0 < s.channel.events) (haway : s.thread.reader = .away)
      (hchannel : t.channel = s.channel.getEvent) (hsq : t.sq = s.sq) (hlost : t.lost = s.lost)
      (hreader : t.thread.reader = .unarmed)
  | arm (hunarmed : s.thread.reader = .unarmed) (hchannel : t.channel = s.channel.arm)
      (hsq : t.sq = s.sq) (hlost : t.lost = s.lost) (hreader : t.thread.reader = .draining)
  | drop (hwhy : a = .notify false ∨ s.conn.dcq = false) (hunarmed : s.thread.reader = .unarmed)
      (hchannel : t.channel = s.channel) (hsq : t.sq = s.sq) (hlost : t.lost = s.lost)
      (hreader : t.thread.reader = .away)
  | pop (wc : Wc) (entries : List Wc) (hentries : s.channel.entries = wc :: entries)
      (hdraining : s.thread.reader = .draining)
      (hchannel : t.channel = s.channel.setEntries entries) (hsq : t.sq = s.sq)
      (hlost : t.lost = s.lost ++ if wc.success then [] else wc.task.offset?.toList)
      (hreader : t.thread.reader = .draining)
  | leave (hwhy : s.channel.entries = [] ∨ s.conn.dcq = false)
      (hdraining : s.thread.reader = .draining) (hchannel : t.channel = s.channel)
      (hsq : t.sq = s.sq) (hlost : t.lost = s.lost) (hreader : t.thread.reader = .away)
  | receive (offset : ℕ) (ok : Bool) (ha : a = .receive ok)
      (hchannel : t.channel = s.channel.push ⟨.recv offset, ok⟩) (hsq : t.sq = s.sq)
      (hlost : t.lost = s.lost) (hreader : t.thread.reader = s.thread.reader)
  | sent (r : Request) (ok : Bool) (hchannel : t.channel = s.channel.push ⟨.request r, ok⟩)
      (hsq : s.sq = r :: t.sq) (hlost : t.lost = s.lost)
      (hreader : t.thread.reader = s.thread.reader)
  | enqueue (r : Request) (hroom : roomy s = true) (hchannel : t.channel = s.channel)
      (hsq : t.sq = s.sq ++ [r]) (hlost : t.lost = s.lost)
      (hreader : t.thread.reader = s.thread.reader)
  | destroyQp (keep : Bool) (hcm : t.conn.cm = .closed ∨ t.conn.cm = s.conn.cm)
      (hchannel : t.channel = s.channel.setEntries (if keep then s.channel.entries else []))
      (hsq : t.sq = []) (hreader : t.thread.reader = s.thread.reader)
      (hqp : t.conn.qp = false)
  | destroyCq (hentries : t.channel.entries = []) (hevents : t.channel.events = 0)
      (harmed : t.channel.armed = false) (hsq : t.sq = s.sq)
      (hreader : t.thread.reader = s.thread.reader) (hdcq : t.conn.dcq = false)

namespace Effect

/-- `dhmp_post_recv` by a thread that then stands elsewhere. -/
theorem postRecv {offset : ℕ} {taskOk postOk : Bool} {thread : Thread}
    (hsmooth : Smooth a → taskOk = true ∧ postOk = true)
    (hreader : thread.reader = s.thread.reader) :
    Effect s { postRecv s offset taskOk postOk with thread := thread } a := by
  unfold ReceivePool.postRecv
  split_ifs with hskip hqp hpost
  · refine .lose ?_ rfl rfl hreader
    rw [Bool.or_eq_true, Bool.not_eq_true'] at hskip
    rcases hskip with hpast | htask
    · exact .inr (.inl hpast)
    · refine .inl fun hs => ?_
      rw [(hsmooth hs).1] at htask
      cases htask
  · refine .lose (.inr (.inr ?_)) rfl rfl hreader
    simpa using hqp
  · exact .none rfl rfl rfl hreader
  · refine .lose (.inl fun hs => ?_) rfl rfl hreader
    exact hpost (hsmooth hs).2

theorem handleWc {wc : Wc} {entries : List Wc} {rest : List Item}
    (hthread : s.thread = .polling rest) (hentries : s.channel.entries = wc :: entries) :
    Effect s (handleWc { s with
      channel := s.channel.setEntries entries, polled := s.polled + 1 } wc rest) a := by
  have hdraining : s.thread.reader = .draining := by rw [hthread]; rfl
  obtain ⟨task, success⟩ := wc
  cases task with
  | recv offset =>
    cases success with
    | true => exact .pop _ entries hentries hdraining rfl rfl (List.append_nil _).symm rfl
    | false => exact .pop _ entries hentries hdraining rfl rfl rfl hdraining
  | request r =>
    cases r with
    | send =>
      cases success <;>
        exact .pop _ entries hentries hdraining rfl rfl (List.append_nil _).symm hdraining
    | oneSided =>
      cases success <;>
        exact .pop _ entries hentries hdraining rfl rfl (List.append_nil _).symm hdraining

theorem of_handleEcEvent {e : CmEvent} (ht : handleEcEvent s e = some t) : Effect s t a := by
  cases e with
  | established =>
    simp only [handleEcEvent] at ht
    split_ifs at ht
    cases ht
    exact .none rfl rfl rfl rfl
  | disconnected keep =>
    simp only [handleEcEvent] at ht
    split_ifs at ht
    cases ht
    exact .destroyQp keep (.inl rfl) rfl rfl rfl rfl
  | connectError keep =>
    simp only [handleEcEvent] at ht
    split_ifs at ht
    cases ht
    exact .destroyQp keep (.inl rfl) rfl rfl rfl rfl
  | rejected =>
    simp only [handleEcEvent] at ht
    split_ifs at ht
    cases ht
    exact .none rfl rfl rfl rfl

theorem release (r : Release) (l : List Release) (keep : Bool) :
    Effect s { release s r keep with conn := { (release s r keep).conn with main := some l } }
      a := by
  cases r with
  | sendRegion => exact .none rfl rfl rfl rfl
  | qp => exact .destroyQp keep (.inr rfl) rfl rfl rfl rfl
  | cq => exact .destroyCq rfl rfl rfl rfl rfl rfl
  | compChannel => exact .none rfl rfl rfl rfl

theorem of_epollStep (ht : epollStep s a = some t) : Effect s t a := by
  cases a with
  | wait events =>
    simp only [epollStep] at ht
    split_ifs at ht with hif
    cases ht
    exact .none rfl rfl rfl (by rw [hif.1]; rfl)
  | next =>
    simp only [epollStep] at ht
    split at ht
    · rename_i hthread
      cases ht
      exact .none rfl rfl rfl (by rw [hthread]; rfl)
    · rename_i rest hthread
      cases ht
      have haway : s.thread.reader = .away := by rw [hthread]; rfl
      unfold compChannelHandler
      split_ifs with hdcq hevents
      · exact .none rfl rfl rfl haway.symm
      · exact .none rfl rfl rfl haway.symm
      · exact .getEvent (Nat.pos_of_ne_zero hevents) haway rfl rfl rfl rfl
    · rename_i rest hthread
      cases ht
      exact .none rfl rfl rfl (by rw [hthread]; rfl)
    · rename_i rest hthread
      cases ht
      exact .none rfl rfl rfl (by rw [hthread]; rfl)
    · cases ht
  | cmEvent e =>
    simp only [epollStep] at ht
    split at ht
    · exact of_handleEcEvent ht
    · cases ht
  | drained =>
    simp only [epollStep] at ht
    split at ht
    · rename_i rest hthread
      cases ht
      exact .none rfl rfl rfl (by rw [hthread]; rfl)
    · cases ht
  | post taskOk postOk =>
    simp only [epollStep] at ht
    split at ht
    · rename_i i rest hthread
      split_ifs at ht with hi
      · cases ht
        exact postRecv id (by rw [hthread]; rfl)
      · cases ht
        exact .none rfl rfl rfl (by rw [hthread]; rfl)
    · cases ht
  | notify ok =>
    simp only [epollStep] at ht
    split at ht
    · rename_i rest hthread
      have hunarmed : s.thread.reader = .unarmed := by rw [hthread]; rfl
      split_ifs at ht with hdcq hok
      · cases ht
        exact .drop (.inr (by simpa using hdcq)) hunarmed rfl rfl rfl rfl
      · cases ht
        exact .arm hunarmed rfl rfl rfl rfl
      · cases ht
        exact .drop (.inl (by simpa using hok)) hunarmed rfl rfl rfl rfl
    · cases ht
  | poll =>
    simp only [epollStep] at ht
    split at ht
    · rename_i rest hthread
      cases ht
      have hdraining : s.thread.reader = .draining := by rw [hthread]; rfl
      unfold pollCq
      split_ifs with hdcq
      · exact .leave (.inr (by simpa using hdcq)) hdraining rfl rfl rfl rfl
      · split
        · rename_i hentries
          exact .leave (.inl hentries) hdraining rfl rfl rfl rfl
        · rename_i wc entries hentries
          exact handleWc hthread hentries
    · cases ht
  | repost taskOk postOk =>
    simp only [epollStep] at ht
    split at ht
    · rename_i offset rest hthread
      cases ht
      exact postRecv id (by rw [hthread]; rfl)
    · cases ht
  | _ => cases ht

theorem of_step (ht : step s a = some t) : Effect s t a := by
  cases a with
  | receive ok =>
    simp only [step] at ht
    split at ht
    · rename_i offset rest hposted
      cases ht
      exact .receive offset ok rfl rfl rfl rfl rfl
    · cases ht
  | sent ok =>
    simp only [step] at ht
    split at ht
    · rename_i r rest hsq
      cases ht
      exact .sent r ok rfl hsq rfl rfl
    · cases ht
  | beginSend =>
    simp only [step] at ht
    split_ifs at ht
    cases ht
    exact .none rfl rfl rfl rfl
  | postSend =>
    by_cases hnone : s.conn.sending = 0
    · simp [step, hnone] at ht
    · simp only [step, if_neg hnone] at ht
      cases ht
      by_cases hroom : roomy s = true
      · exact .enqueue .send hroom rfl (if_pos hroom) rfl rfl
      · exact .none rfl (if_neg hroom) rfl rfl
  | postOneSided =>
    simp only [step] at ht
    split_ifs at ht with hroom
    cases ht
    exact .enqueue .oneSided hroom rfl rfl rfl rfl
  | assign =>
    simp only [step] at ht
    split_ifs at ht
    cases ht
    exact .none rfl rfl rfl rfl
  | free =>
    simp only [step] at ht
    split_ifs at ht
    cases ht
    exact .none rfl rfl rfl rfl
  | release keep =>
    simp only [step] at ht
    split at ht
    · rename_i r l hmain
      cases ht
      exact release r l keep
    · cases ht
  | wait events => exact of_epollStep (a := .wait events) ht
  | next => exact of_epollStep (a := .next) ht
  | cmEvent e => exact of_epollStep (a := .cmEvent e) ht
  | drained => exact of_epollStep (a := .drained) ht
  | post taskOk postOk => exact of_epollStep (a := .post taskOk postOk) ht
  | notify ok => exact of_epollStep (a := .notify ok) ht
  | poll => exact of_epollStep (a := .poll) ht
  | repost taskOk postOk => exact of_epollStep (a := .repost taskOk postOk) ht

end Effect

/-! ## The queues never overflow -/

/-- The send queue is no longer than `max_send_wr`, and one event stands for the channel. -/
structure Flow (s : State) : Prop where
  sends : s.sends ≤ maxWr
  tokens : s.channel.tokens s.thread.reader ≤ 1

theorem sends_of_entries (hsq : t.sq = s.sq) (wcs : List Wc)
    (h : t.channel.entries ++ wcs = s.channel.entries ∨ wcs ++ t.channel.entries =
      s.channel.entries) : t.sends ≤ s.sends := by
  rw [State.sends, State.sends, hsq]
  rcases h with h | h
  · rw [← h, List.countP_append]
    omega
  · rw [← h, List.countP_append]
    omega

namespace Flow

theorem of_step (h : Flow s) (ht : step s a = some t) : Flow t := by
  have hsends := h.sends
  have htokens := h.tokens
  cases Effect.of_step ht with
  | none hchannel hsq _ hreader =>
    refine ⟨?_, by rwa [hchannel, hreader]⟩
    rwa [State.sends, hsq, hchannel]
  | lose _ hchannel hsq hreader =>
    refine ⟨?_, by rwa [hchannel, hreader]⟩
    rwa [State.sends, hsq, hchannel]
  | getEvent hpos haway hchannel hsq _ hreader =>
    refine ⟨?_, ?_⟩
    · rwa [State.sends, hsq, hchannel]
    · rw [hchannel, hreader, Channel.tokens_getEvent hpos]
      rwa [haway] at htokens
  | arm hunarmed hchannel hsq _ hreader =>
    refine ⟨?_, ?_⟩
    · rwa [State.sends, hsq, hchannel]
    · rw [hunarmed] at htokens
      rw [hchannel, hreader, Channel.tokens_arm htokens]
  | drop _ hunarmed hchannel hsq _ hreader =>
    refine ⟨?_, ?_⟩
    · rwa [State.sends, hsq, hchannel]
    · rw [hunarmed] at htokens
      obtain ⟨harmed, hevents⟩ := Channel.tokens_drop htokens
      rw [hchannel, hreader]
      simp [Channel.tokens, harmed, hevents]
  | pop wc entries hentries hdraining hchannel hsq _ hreader =>
    refine ⟨?_, ?_⟩
    · refine (sends_of_entries hsq [wc] (.inr ?_)).trans hsends
      rw [hchannel, hentries]
      rfl
    · rw [hchannel, hreader, Channel.tokens_setEntries]
      rwa [hdraining] at htokens
  | leave _ hdraining hchannel hsq _ hreader =>
    refine ⟨?_, ?_⟩
    · rwa [State.sends, hsq, hchannel]
    · rw [hchannel, hreader]
      rwa [hdraining] at htokens
  | receive offset ok _ hchannel hsq _ hreader =>
    refine ⟨?_, ?_⟩
    · rw [State.sends, hsq, hchannel, Channel.push_entries, List.countP_append]
      simpa [State.sends] using hsends
    · rwa [hchannel, hreader, Channel.tokens_push]
  | sent r ok hchannel hsq _ hreader =>
    refine ⟨?_, ?_⟩
    · rw [State.sends, hsq] at hsends
      rw [State.sends, hchannel, Channel.push_entries, List.countP_append]
      simp only [List.length_cons, List.countP_cons, List.countP_nil, Task.offset?_request,
        Option.isNone_none, if_true] at hsends ⊢
      omega
    · rwa [hchannel, hreader, Channel.tokens_push]
  | enqueue r hroom hchannel hsq _ hreader =>
    refine ⟨?_, by rwa [hchannel, hreader]⟩
    have hless : s.sends < maxWr := of_decide_eq_true (Bool.and_eq_true_iff.mp hroom).2
    rw [State.sends] at hless
    rw [State.sends, hsq, hchannel, List.length_append, List.length_singleton]
    omega
  | destroyQp keep _ hchannel hsq hreader _ =>
    refine ⟨?_, ?_⟩
    · rw [State.sends] at hsends
      rw [State.sends, hsq, hchannel, Channel.setEntries_entries]
      cases keep
      · exact Nat.zero_le _
      · simp only [List.length_nil, if_true, Nat.zero_add]
        omega
    · rwa [hchannel, hreader, Channel.tokens_setEntries]
  | destroyCq hentries hevents harmed hsq hreader _ =>
    refine ⟨?_, ?_⟩
    · rw [State.sends] at hsends
      rw [State.sends, hsq, hentries, List.countP_nil]
      omega
    · rw [hreader]
      rw [Channel.tokens, harmed, hevents, if_neg Bool.false_ne_true]
      split_ifs <;> omega

theorem init (h : poolSystem.init s) : Flow s := by
  obtain ⟨side, isPollQp, assigned, rest, -, -, rfl⟩ := h
  refine ⟨Nat.zero_le _, ?_⟩
  simp [start, Channel.tokens, Thread.reader]

end Flow

theorem flow_of_reach {cond : State → Action → Prop} (h : Reach poolSystem cond s) : Flow s :=
  h.invariant (fun _ h0 => Flow.init h0) fun _ _ _ hs _ ht => hs.of_step ht

/-- Every buffer is in one place. -/
theorem places_perm {cond : State → Action → Prop} (h : Reach poolSystem cond s) :
    s.places.Perm (buffers s.conn.isPollQp) := by
  refine List.perm_iff_count.mpr ?_
  refine h.invariant (P := fun s => ∀ a, s.places.count a = (buffers s.conn.isPollQp).count a)
    ?_ ?_
  · rintro _ ⟨side, isPollQp, assigned, rest, -, -, rfl⟩ a
    rw [count_places]
    simp [start, State.completed, State.held, buffers]
  · intro u a v hu _ hv b
    obtain ⟨hpoll, hcount⟩ := SamePlaces.of_step hv
    rw [hcount, hpoll, hu]

theorem length_buffers (isPollQp : Bool) : (buffers isPollQp).length ≤ maxWr := by
  rw [buffers, buffersFrom, List.length_map, List.length_range']
  cases isPollQp <;> decide

/-- Two buffers of which one ends before the other begins. -/
def Apart (a b : ℕ) : Prop := a + SINGLE_NORM_RECV_REGION ≤ b ∨ b + SINGLE_NORM_RECV_REGION ≤ a

theorem apart_buffers (isPollQp : Bool) : (buffers isPollQp).Pairwise Apart := by
  have hsize : SINGLE_NORM_RECV_REGION ≤ singleRegionSize isPollQp := by
    cases isPollQp <;> decide
  rw [buffers, buffersFrom, List.pairwise_map]
  refine List.Pairwise.imp (fun {i j} hij => .inl ?_) (List.pairwise_lt_range' 1)
  calc i * singleRegionSize isPollQp + SINGLE_NORM_RECV_REGION
      ≤ (i + 1) * singleRegionSize isPollQp := by rw [Nat.add_mul]; omega
    _ ≤ j * singleRegionSize isPollQp := Nat.mul_le_mul_right _ hij

theorem within_buffers {isPollQp : Bool} {offset : ℕ} (h : offset ∈ buffers isPollQp) :
    offset + SINGLE_NORM_RECV_REGION ≤ RECV_REGION_SIZE := by
  obtain ⟨i, hi, rfl⟩ := List.mem_map.mp h
  have hless : i < recvNums isPollQp := by simpa using List.mem_range'_1.mp hi
  cases isPollQp with
  | false =>
    have : i < 8192 := hless
    show i * (64 * 1024) + 64 * 1024 ≤ 512 * 1024 * 1024
    omega
  | true =>
    have : i < 8 := hless
    show i * (64 * 1024 * 1024) + 64 * 1024 ≤ 512 * 1024 * 1024
    omega

/-! ## The transport only loses -/

/-- What is gone stays gone. -/
structure Loses (c d : Conn) : Prop where
  dcq : d.dcq = true → c.dcq = true
  cm : d.cm = .connecting ∨ d.cm = .established → c.cm = .connecting ∨ c.cm = .established

namespace Loses

theorem refl (c : Conn) : Loses c c := ⟨id, id⟩

theorem of_eq {c d : Conn} (h : d = c) : Loses c d := h ▸ refl c

theorem postRecv_conn (offset : ℕ) (taskOk postOk : Bool) :
    (ReceivePool.postRecv s offset taskOk postOk).conn = s.conn := by
  unfold ReceivePool.postRecv
  split_ifs <;> rfl

theorem handleWc_conn (wc : Wc) (rest : List Item) :
    (ReceivePool.handleWc s wc rest).conn = s.conn := by
  unfold ReceivePool.handleWc
  split <;> rfl

theorem of_handleEcEvent {e : CmEvent} (ht : handleEcEvent s e = some t) :
    Loses s.conn t.conn := by
  cases e with
  | established =>
    simp only [handleEcEvent] at ht
    split_ifs at ht with hcm
    cases ht
    exact ⟨id, fun _ => .inl hcm⟩
  | disconnected keep =>
    simp only [handleEcEvent] at ht
    split_ifs at ht with hcm
    cases ht
    exact ⟨id, fun _ => .inr hcm⟩
  | connectError keep =>
    simp only [handleEcEvent] at ht
    split_ifs at ht with hcm
    cases ht
    exact ⟨id, fun _ => .inl hcm⟩
  | rejected =>
    simp only [handleEcEvent] at ht
    split_ifs at ht with hcm
    cases ht
    exact ⟨id, fun _ => .inl hcm⟩

theorem of_epollStep (ht : epollStep s a = some t) : Loses s.conn t.conn := by
  cases a with
  | wait events =>
    simp only [epollStep] at ht
    split_ifs at ht
    cases ht
    exact refl _
  | next =>
    simp only [epollStep] at ht
    split at ht
    · cases ht
      exact refl _
    · cases ht
      unfold compChannelHandler
      split_ifs <;> exact refl _
    · cases ht
      exact refl _
    · cases ht
      exact refl _
    · cases ht
  | cmEvent e =>
    simp only [epollStep] at ht
    split at ht
    · exact of_handleEcEvent ht
    · cases ht
  | drained =>
    simp only [epollStep] at ht
    split at ht
    · cases ht
      exact refl _
    · cases ht
  | post taskOk postOk =>
    simp only [epollStep] at ht
    split at ht
    · split_ifs at ht
      · cases ht
        exact of_eq (postRecv_conn ..)
      · cases ht
        exact refl _
    · cases ht
  | notify ok =>
    simp only [epollStep] at ht
    split at ht
    · split_ifs at ht
      all_goals
        cases ht
        exact refl _
    · cases ht
  | poll =>
    simp only [epollStep] at ht
    split at ht
    · cases ht
      unfold pollCq
      split_ifs
      · exact refl _
      · split
        · exact refl _
        · exact of_eq (handleWc_conn ..)
    · cases ht
  | repost taskOk postOk =>
    simp only [epollStep] at ht
    split at ht
    · cases ht
      exact of_eq (postRecv_conn ..)
    · cases ht
  | _ => cases ht

theorem of_step (ht : step s a = some t) : Loses s.conn t.conn := by
  cases a with
  | receive ok =>
    simp only [step] at ht
    split at ht
    · cases ht
      exact refl _
    · cases ht
  | sent ok =>
    simp only [step] at ht
    split at ht
    · cases ht
      exact refl _
    · cases ht
  | beginSend =>
    simp only [step] at ht
    split_ifs at ht
    cases ht
    exact ⟨id, id⟩
  | postSend =>
    by_cases hnone : s.conn.sending = 0
    · simp [step, hnone] at ht
    · simp only [step, if_neg hnone] at ht
      cases ht
      exact ⟨id, id⟩
  | postOneSided =>
    simp only [step] at ht
    split_ifs at ht
    cases ht
    exact refl _
  | assign =>
    simp only [step] at ht
    split_ifs at ht
    cases ht
    exact ⟨id, id⟩
  | free =>
    simp only [step] at ht
    split_ifs at ht
    cases ht
    exact ⟨id, id⟩
  | release keep =>
    simp only [step] at ht
    split at ht
    · rename_i r l hmain
      cases ht
      cases r with
      | cq => exact ⟨(by rintro ⟨⟩), id⟩
      | _ => exact ⟨id, id⟩
    · cases ht
  | wait events => exact of_epollStep (a := .wait events) ht
  | next => exact of_epollStep (a := .next) ht
  | cmEvent e => exact of_epollStep (a := .cmEvent e) ht
  | drained => exact of_epollStep (a := .drained) ht
  | post taskOk postOk => exact of_epollStep (a := .post taskOk postOk) ht
  | notify ok => exact of_epollStep (a := .notify ok) ht
  | poll => exact of_epollStep (a := .poll) ht
  | repost taskOk postOk => exact of_epollStep (a := .repost taskOk postOk) ht

end Loses

/-! ## No completion is left behind -/

/-- The queue is armed again each time. -/
def Notified (_ : State) (a : Action) : Prop := a ≠ .notify false

/-- The right to raise an event is there, and whatever is in the queue is seen to. -/
structure Watched (s : State) : Prop where
  tokens : s.channel.tokens s.thread.reader = 1
  alert : s.channel.Alert s.thread.reader

/-- As long as the queue is there. -/
theorem watched_of_step (hflow : Flow s) (h : s.conn.dcq = true → Watched s)
    (hc : Notified s a) (ht : step s a = some t) (hdcq : t.conn.dcq = true) : Watched t := by
  have hsdcq := (Loses.of_step ht).dcq hdcq
  obtain ⟨htokens, halert⟩ := h hsdcq
  have hle := hflow.tokens
  cases Effect.of_step ht with
  | none hchannel _ _ hreader => exact ⟨by rwa [hchannel, hreader], by rwa [hchannel, hreader]⟩
  | lose _ hchannel _ hreader => exact ⟨by rwa [hchannel, hreader], by rwa [hchannel, hreader]⟩
  | getEvent hpos haway hchannel _ _ hreader =>
    refine ⟨?_, ?_⟩
    · rw [haway] at htokens
      rw [hchannel, hreader, Channel.tokens_getEvent hpos, htokens]
    · rw [hreader]
      exact Channel.alert_of_present (by decide)
  | arm hunarmed hchannel _ _ hreader =>
    refine ⟨?_, ?_⟩
    · rw [hunarmed] at hle
      rw [hchannel, hreader, Channel.tokens_arm hle]
    · rw [hreader]
      exact Channel.alert_of_present (by decide)
  | drop hwhy _ _ _ _ _ =>
    rcases hwhy with ha | hgone
    · exact absurd ha hc
    · rw [hsdcq] at hgone
      cases hgone
  | pop wc entries _ hdraining hchannel _ _ hreader =>
    refine ⟨?_, ?_⟩
    · rw [hdraining] at htokens
      rwa [hchannel, hreader, Channel.tokens_setEntries]
    · rw [hreader]
      exact Channel.alert_of_present (by decide)
  | leave hwhy hdraining hchannel _ _ hreader =>
    refine ⟨?_, ?_⟩
    · rw [hdraining] at htokens
      rwa [hchannel, hreader]
    · rcases hwhy with hempty | hgone
      · rw [hchannel]
        exact Channel.alert_of_empty hempty
      · rw [hsdcq] at hgone
        cases hgone
  | receive offset ok _ hchannel _ _ hreader =>
    refine ⟨?_, ?_⟩
    · rwa [hchannel, hreader, Channel.tokens_push]
    · rw [hchannel, hreader]
      exact Channel.alert_push htokens _
  | sent r ok hchannel _ _ hreader =>
    refine ⟨?_, ?_⟩
    · rwa [hchannel, hreader, Channel.tokens_push]
    · rw [hchannel, hreader]
      exact Channel.alert_push htokens _
  | enqueue r _ hchannel _ _ hreader =>
    exact ⟨by rwa [hchannel, hreader], by rwa [hchannel, hreader]⟩
  | destroyQp keep _ hchannel _ hreader _ =>
    refine ⟨?_, ?_⟩
    · rwa [hchannel, hreader, Channel.tokens_setEntries]
    · rw [hchannel, hreader]
      cases keep
      · exact Channel.alert_of_empty rfl
      · exact halert
  | destroyCq _ _ _ _ _ hgone =>
    rw [hdcq] at hgone
    cases hgone

theorem watched_of_notified (h : Reach poolSystem Notified s) : s.conn.dcq = true → Watched s := by
  refine h.invariant_of (P := fun s => s.conn.dcq = true → Watched s)
    (fun _ hu => flow_of_reach hu) ?_ ?_
  · rintro _ ⟨side, isPollQp, assigned, rest, -, -, rfl⟩ -
    exact ⟨rfl, Channel.alert_of_empty rfl⟩
  · exact fun u a v hflow hu hc hv => watched_of_step hflow hu hc hv

end RdmaMiddleware.ReceivePool
