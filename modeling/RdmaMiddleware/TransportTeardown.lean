import RdmaMiddleware.ReceivePool

/-!
# Tearing a transport down

`dhmp_destroy_source` runs in the epoll thread and `free_trans` in the main thread. Neither
looks at the batch of events that the epoll thread is in the middle of.
-/
namespace RdmaMiddleware.ReceivePool
open TransitionSystem CompletionChannels Connection

variable {s t : State}

/-! ## Nothing is used that is gone -/

/-- Who tears the transport down meets no thread that still uses it, and
`dhmp_transport_connect` has returned before its connection makes progress. -/
def Quiet (s : State) : Action → Prop
  | .cmEvent (.disconnected _) | .cmEvent (.connectError _) =>
    .compChannel ∉ s.thread.rest ∧ s.conn.sending = 0
  | .release _ => (s.conn.main.bind List.head?) = some .cq → ¬ s.thread.Holds
  | .assign => s.conn.transState = .INIT
  | _ => True

/-- Nothing of the transport has been given back. -/
structure Whole (c : Conn) : Prop where
  sendRegion : c.sendRegion = true
  recvRegion : c.recvRegion = true
  qp : c.qp = true
  dcq : c.dcq = true
  registered : c.registered = true
  main : c.main = none

/-- How far the transport is and what there is of it. -/
structure ConnInv (c : Conn) : Prop where
  whole : c.cm = .connecting ∨ c.cm = .established → Whole c
  past : c.cm = .closed ∨ c.cm = .rejected ↔ pastConnected c.transState = true
  closed : c.cm = .closed → c.registered = false
  rejected : c.cm = .rejected → c.recvRegion = true
  reject : c.transState = .REJECT → c.cm = .rejected
  connected : c.transState = .CONNECTED → c.cm = .established
  sending : 0 < c.sending → c.cm = .established
  dcq : c.dcq = false → c.qp = false
  main : ∀ l, c.main = some l → c.cm = .rejected ∧ l <:+ releases ∧
    (c.qp = true → .qp ∈ l) ∧ (c.dcq = true → .cq ∈ l)

/-- Nothing has gone wrong, and the queues hold what the transport can still have in them. -/
structure Sound (s : State) : Prop where
  fault : s.fault = false
  conn : ConnInv s.conn
  holds : s.thread.Holds → s.conn.registered = true ∧ s.conn.dcq = true
  qp : s.conn.qp = false → s.posted = [] ∧ s.sq = []
  events : s.conn.dcq = false → s.channel.events = 0
  unsent : s.conn.cm = .connecting ∨ s.conn.cm = .rejected →
    .send ∉ s.sq ∧ ∀ wc ∈ s.channel.entries, wc.task ≠ .request .send

namespace ConnInv
variable {c : Conn}

/-- `trans_state` tells whether the end has come. -/
theorem live_of_not_past (h : ConnInv c) (hstate : pastConnected c.transState = false) :
    c.cm = .connecting ∨ c.cm = .established := by
  have hover : ¬ (c.cm = .closed ∨ c.cm = .rejected) := by
    rw [h.past, hstate]
    exact Bool.false_ne_true
  cases hcm : c.cm with
  | connecting => exact .inl rfl
  | established => exact .inr rfl
  | closed => exact absurd (.inl hcm) hover
  | rejected => exact absurd (.inr hcm) hover

theorem recvRegion_of_registered (h : ConnInv c) (hreg : c.registered = true) :
    c.recvRegion = true := by
  cases hcm : c.cm with
  | connecting => exact (h.whole (.inl hcm)).recvRegion
  | established => exact (h.whole (.inr hcm)).recvRegion
  | closed =>
    rw [h.closed hcm] at hreg
    cases hreg
  | rejected => exact h.rejected hcm

theorem established (h : ConnInv c) (hcm : c.cm = .connecting) :
    ConnInv { c with transState := .CONNECTED, cm := .established } := by
  have hwhole := h.whole (.inl hcm)
  refine ⟨fun _ => ⟨hwhole.sendRegion, hwhole.recvRegion, hwhole.qp, hwhole.dcq,
    hwhole.registered, hwhole.main⟩, iff_of_false ?_ ?_, ?_, ?_, ?_, fun _ => rfl, fun _ => rfl,
    h.dcq, ?_⟩
  · rintro (hc | hc) <;> cases hc
  · rintro ⟨⟩
  · rintro ⟨⟩
  · rintro ⟨⟩
  · rintro ⟨⟩
  · intro l hl
    rw [hwhole.main] at hl
    cases hl

theorem rejected' (h : ConnInv c) (hcm : c.cm = .connecting) :
    ConnInv { c with transState := .REJECT, cm := .rejected } := by
  have hwhole := h.whole (.inl hcm)
  refine ⟨?_, iff_of_true (.inr rfl) rfl, ?_, fun _ => hwhole.recvRegion, fun _ => rfl, ?_, ?_,
    h.dcq, ?_⟩
  · rintro (hc | hc) <;> cases hc
  · rintro ⟨⟩
  · rintro ⟨⟩
  · intro hsending
    cases hcm.symm.trans (h.sending hsending)
  · intro l hl
    rw [hwhole.main] at hl
    cases hl

/-- `dhmp_destroy_source` while nobody sends. -/
theorem closedDown (h : ConnInv c) (hcm : c.cm = .connecting ∨ c.cm = .established)
    (hsending : c.sending = 0) {transState : TransState}
    (hpast : pastConnected transState = true) (hreject : transState ≠ .REJECT) :
    ConnInv { c with
      transState := transState
      cm := .closed
      sendRegion := false
      recvRegion := false
      qp := false
      registered := false } := by
  refine ⟨?_, iff_of_true (.inl rfl) hpast, fun _ => rfl, ?_, fun hr => absurd hr hreject, ?_, ?_,
    fun _ => rfl, ?_⟩
  · rintro (hc | hc) <;> cases hc
  · rintro ⟨⟩
  · rintro rfl
    cases hpast
  · intro hpos
    exact absurd hsending (Nat.ne_of_gt hpos)
  · intro l hl
    rw [(h.whole hcm).main] at hl
    cases hl

end ConnInv

namespace Sound

/-- What a step may do that leaves the transport as it is. -/
theorem frame (h : Sound s) (hconn : t.conn = s.conn) (hfault : t.fault = false)
    (hholds : t.thread.Holds → s.conn.registered = true ∧ s.conn.dcq = true)
    (hposted : s.conn.qp = false → t.posted = []) (hsq : t.sq = s.sq)
    (hevents : s.conn.dcq = false → t.channel.events = 0)
    (hentries : ∀ wc ∈ t.channel.entries, wc ∈ s.channel.entries ∨ wc.task ≠ .request .send) :
    Sound t := by
  refine ⟨hfault, hconn ▸ h.conn, fun hh => hconn ▸ hholds hh, fun hqp => ?_, ?_, ?_⟩
  · rw [hconn] at hqp
    exact ⟨hposted hqp, hsq.trans (h.qp hqp).2⟩
  · intro hdcq
    exact hevents (hconn ▸ hdcq)
  · intro hcm
    obtain ⟨hnone, htasks⟩ := h.unsent (hconn ▸ hcm)
    exact ⟨hsq ▸ hnone, fun wc hwc => (hentries wc hwc).elim (htasks wc) id⟩

/-- The thread moves on. -/
theorem move (h : Sound s) {thread : Thread}
    (hholds : thread.Holds → s.conn.registered = true ∧ s.conn.dcq = true) :
    Sound { s with thread := thread } :=
  h.frame rfl h.fault hholds (fun hqp => (h.qp hqp).1) rfl h.events fun _ hwc => .inl hwc

/-- `dhmp_post_recv` finds the queue pair where the state still lets it post. -/
theorem post (h : Sound s) {offset : ℕ} {taskOk postOk : Bool} {thread : Thread}
    (hholds : thread.Holds → s.conn.registered = true ∧ s.conn.dcq = true) :
    Sound { postRecv s offset taskOk postOk with thread := thread } := by
  unfold postRecv
  split_ifs with hskip hqp hpost
  · exact h.frame rfl h.fault hholds (fun hqp => (h.qp hqp).1) rfl h.events fun _ hwc => .inl hwc
  · rw [Bool.or_eq_true, not_or, Bool.not_eq_true] at hskip
    rw [(h.conn.whole (h.conn.live_of_not_past hskip.1)).qp] at hqp
    cases hqp
  · refine h.frame rfl h.fault hholds (fun hfalse => ?_) rfl h.events fun _ hwc => .inl hwc
    rw [hfalse] at hqp
    exact absurd rfl hqp
  · exact h.frame rfl h.fault hholds (fun hqp => (h.qp hqp).1) rfl h.events fun _ hwc => .inl hwc

theorem holds_of_polling {rest : List Item} (hthread : s.thread = .polling rest) :
    s.thread.Holds := by
  rw [hthread]
  exact .inr (by rintro ⟨⟩)

/-- What a completion points to is there. -/
theorem handleWc (h : Sound s) {wc : Wc} {entries : List Wc} {rest : List Item} (polled : ℕ)
    (hthread : s.thread = .polling rest) (hentries : s.channel.entries = wc :: entries) :
    Sound (handleWc { s with
      channel := s.channel.setEntries entries, polled := polled } wc rest) := by
  have hholds := h.holds (holds_of_polling hthread)
  have hrest : ∀ w ∈ entries, w ∈ s.channel.entries ∨ w.task ≠ .request .send := by
    intro w hw
    rw [hentries]
    exact .inl (List.mem_cons_of_mem _ hw)
  have hrecv := h.conn.recvRegion_of_registered hholds.1
  obtain ⟨task, success⟩ := wc
  cases task with
  | recv offset =>
    cases success with
    | true =>
      refine h.frame rfl ?_ (fun _ => hholds) (fun hqp => (h.qp hqp).1) rfl h.events hrest
      simp [ReceivePool.handleWc, h.fault, hrecv]
    | false =>
      exact h.frame rfl h.fault (fun _ => hholds) (fun hqp => (h.qp hqp).1) rfl h.events hrest
  | request r =>
    have hplain : Sound { s with channel := s.channel.setEntries entries, polled := polled } :=
      h.frame rfl h.fault (fun _ => hholds) (fun hqp => (h.qp hqp).1) rfl h.events hrest
    cases r with
    | oneSided => cases success <;> exact hplain
    | send =>
      cases success with
      | false => exact hplain
      | true =>
        refine h.frame rfl ?_ (fun _ => hholds) (fun hqp => (h.qp hqp).1) rfl h.events hrest
        have hsend : s.conn.sendRegion = true := by
          have hmem : (⟨.request .send, true⟩ : Wc) ∈ s.channel.entries := by
            rw [hentries]
            exact List.mem_cons_self
          cases hcm : s.conn.cm with
          | connecting => exact absurd rfl ((h.unsent (.inl hcm)).2 _ hmem)
          | established => exact (h.conn.whole (.inr hcm)).sendRegion
          | closed =>
            rw [h.conn.closed hcm] at hholds
            cases hholds.1
          | rejected => exact absurd rfl ((h.unsent (.inr hcm)).2 _ hmem)
        simp [ReceivePool.handleWc, h.fault, hsend]

/-- `dhmp_destroy_source` in a batch that does not name the completion channel any more. -/
theorem destroySource (h : Sound s) (keep : Bool) {transState : TransState}
    (hcm : s.conn.cm = .connecting ∨ s.conn.cm = .established)
    (haway : ¬ s.thread.Holds) (hsending : s.conn.sending = 0)
    (hpast : pastConnected transState = true) (hreject : transState ≠ .REJECT) :
    Sound (destroySource s keep transState) := by
  refine ⟨h.fault, h.conn.closedDown hcm hsending hpast hreject, fun hh => absurd hh haway,
    fun _ => ⟨rfl, rfl⟩, h.events, ?_⟩
  rintro (hc | hc) <;> cases hc

theorem handleEcEvent (h : Sound s) {e : CmEvent} {rest : List Item}
    (hthread : s.thread = .cmEvents rest) (hc : Quiet s (.cmEvent e))
    (ht : handleEcEvent s e = some t) : Sound t := by
  have haway : ∀ hrest : .compChannel ∉ s.thread.rest, ¬ s.thread.Holds := by
    rintro hrest (hmem | hreader)
    · exact hrest hmem
    · rw [hthread] at hreader
      exact hreader rfl
  cases e with
  | established =>
    simp only [ReceivePool.handleEcEvent] at ht
    split_ifs at ht with hcm
    cases ht
    refine ⟨h.fault, h.conn.established hcm, h.holds, h.qp, h.events, ?_⟩
    rintro (hc | hc) <;> cases hc
  | disconnected keep =>
    simp only [ReceivePool.handleEcEvent] at ht
    split_ifs at ht with hcm
    cases ht
    exact h.destroySource keep (.inr hcm) (haway hc.1) hc.2 rfl (by decide)
  | connectError keep =>
    simp only [ReceivePool.handleEcEvent] at ht
    split_ifs at ht with hcm
    cases ht
    exact h.destroySource keep (.inl hcm) (haway hc.1) hc.2 rfl (by decide)
  | rejected =>
    simp only [ReceivePool.handleEcEvent] at ht
    split_ifs at ht with hcm
    cases ht
    exact ⟨h.fault, h.conn.rejected' hcm, h.holds, h.qp, h.events, fun _ => h.unsent (.inl hcm)⟩

/-- The steps of the epoll thread. -/
theorem of_epollStep (h : Sound s) {a : Action} (hc : Quiet s a) (ht : epollStep s a = some t) :
    Sound t := by
  cases a with
  | wait events =>
    simp only [epollStep] at ht
    split_ifs at ht with hif
    cases ht
    refine h.move fun hholds => ?_
    rcases hholds with hmem | hreader
    · obtain ⟨hreg, hpos⟩ := hif.2.2 hmem
      refine ⟨hreg, ?_⟩
      by_contra hdcq
      rw [h.events (Bool.eq_false_of_not_eq_true hdcq)] at hpos
      exact absurd hpos (Nat.lt_irrefl 0)
    · exact absurd rfl hreader
  | next =>
    simp only [epollStep] at ht
    split at ht
    · cases ht
      refine h.move ?_
      rintro (hmem | hreader)
      · exact absurd hmem List.not_mem_nil
      · exact absurd rfl hreader
    · rename_i rest hthread
      cases ht
      have hholds := h.holds (by
        rw [hthread]
        exact .inl List.mem_cons_self)
      unfold compChannelHandler
      rw [if_neg (by simp [hholds.2])]
      split_ifs with hevents
      · exact h.move fun _ => hholds
      · exact h.frame rfl h.fault (fun _ => hholds) (fun hqp => (h.qp hqp).1) rfl
          (fun hdcq => by rw [hholds.2] at hdcq; cases hdcq) fun _ hwc => .inl hwc
    · rename_i rest hthread
      cases ht
      refine h.move fun hholds => h.holds ?_
      rw [hthread]
      exact hholds.imp (List.mem_cons_of_mem _) id
    · rename_i rest hthread
      cases ht
      refine h.move fun hholds => h.holds ?_
      rw [hthread]
      exact hholds.imp (List.mem_cons_of_mem _) id
    · cases ht
  | cmEvent e =>
    simp only [epollStep] at ht
    split at ht
    · rename_i rest hthread
      exact h.handleEcEvent hthread hc ht
    · cases ht
  | drained =>
    simp only [epollStep] at ht
    split at ht
    · rename_i rest hthread
      cases ht
      refine h.move fun hholds => h.holds ?_
      rw [hthread]
      exact hholds
    · cases ht
  | post taskOk postOk =>
    simp only [epollStep] at ht
    split at ht
    · rename_i i rest hthread
      split_ifs at ht with hi
      · cases ht
        refine h.post fun hholds => h.holds ?_
        rw [hthread]
        exact hholds
      · cases ht
        refine h.move fun hholds => h.holds ?_
        rw [hthread]
        exact hholds
    · cases ht
  | notify ok =>
    simp only [epollStep] at ht
    split at ht
    · rename_i rest hthread
      have hholds := h.holds (by
        rw [hthread]
        exact .inr (by rintro ⟨⟩))
      rw [if_neg (by simp [hholds.2])] at ht
      split_ifs at ht with hok
      · cases ht
        exact h.frame rfl h.fault (fun _ => hholds) (fun hqp => (h.qp hqp).1) rfl h.events
          fun _ hwc => .inl hwc
      · cases ht
        exact h.move fun _ => hholds
    · cases ht
  | poll =>
    simp only [epollStep] at ht
    split at ht
    · rename_i rest hthread
      cases ht
      have hholds := h.holds (holds_of_polling hthread)
      unfold pollCq
      rw [if_neg (by simp [hholds.2])]
      split
      · exact h.move fun _ => hholds
      · rename_i wc entries hentries
        exact h.handleWc (s.polled + 1) hthread hentries
    · cases ht
  | repost taskOk postOk =>
    simp only [epollStep] at ht
    split at ht
    · rename_i offset rest hthread
      cases ht
      refine h.post fun _ => h.holds ?_
      rw [hthread]
      exact .inr (by rintro ⟨⟩)
    · cases ht
  | _ => cases ht

/-- What is left to free says what has been freed. -/
theorem release_cases {r : Release} {l : List Release} (h : r :: l <:+ releases) :
    (r = .sendRegion ∧ l = [.qp, .cq, .compChannel]) ∨ (r = .qp ∧ l = [.cq, .compChannel]) ∨
      (r = .cq ∧ l = [.compChannel]) ∨ (r = .compChannel ∧ l = []) := by
  obtain ⟨freed, hfreed⟩ := h
  match freed with
  | [] => simp_all [releases]
  | [_] => simp_all [releases]
  | [_, _] => simp_all [releases]
  | [_, _, _] => simp_all [releases]
  | _ :: _ :: _ :: _ :: _ => simp [releases] at hfreed

/-- `free_trans`, one step after the other. -/
theorem release (h : Sound s) {r : Release} {l : List Release} {keep : Bool}
    (hmain : s.conn.main = some (r :: l)) (hc : Quiet s (.release keep)) :
    Sound { release s r keep with conn := { (release s r keep).conn with main := some l } } := by
  obtain ⟨hcm, hsuffix, hqp, hcq⟩ := h.conn.main _ hmain
  have hwhole : ∀ {P : Prop}, s.conn.cm = .connecting ∨ s.conn.cm = .established → P := by
    rw [hcm]
    rintro _ (hc | hc) <;> cases hc
  rcases release_cases hsuffix with ⟨rfl, rfl⟩ | ⟨rfl, rfl⟩ | ⟨rfl, rfl⟩ | ⟨rfl, rfl⟩
  · refine ⟨h.fault, ⟨fun hlive => hwhole hlive, h.conn.past, h.conn.closed, h.conn.rejected,
      h.conn.reject, h.conn.connected, h.conn.sending, h.conn.dcq, ?_⟩, h.holds, h.qp, h.events,
      h.unsent⟩
    rintro _ ⟨⟩
    exact ⟨hcm, by decide, fun _ => by decide, fun _ => by decide⟩
  · refine ⟨h.fault, ⟨fun hlive => hwhole hlive, h.conn.past, h.conn.closed, h.conn.rejected,
      h.conn.reject, h.conn.connected, h.conn.sending, fun _ => rfl, ?_⟩, h.holds,
      fun _ => ⟨rfl, rfl⟩, h.events, fun hcm' => ⟨List.not_mem_nil, ?_⟩⟩
    · rintro _ ⟨⟩
      exact ⟨hcm, by decide, (fun hf => by cases hf), fun _ => by decide⟩
    · intro wc hwc
      refine (h.unsent hcm').2 wc ?_
      cases keep
      · exact absurd hwc List.not_mem_nil
      · exact hwc
  · have hqpfalse : s.conn.qp = false := by
      by_contra hq
      have := hqp (Bool.eq_true_of_not_eq_false hq)
      exact absurd this (by decide)
    have haway : ¬ s.thread.Holds := hc (by rw [hmain]; rfl)
    refine ⟨h.fault, ⟨fun hlive => hwhole hlive, h.conn.past, h.conn.closed, h.conn.rejected,
      h.conn.reject, h.conn.connected, h.conn.sending, fun _ => hqpfalse, ?_⟩,
      fun hh => absurd hh haway, h.qp, fun _ => rfl, fun hcm' => ⟨(h.unsent hcm').1, ?_⟩⟩
    · rintro _ ⟨⟩
      refine ⟨hcm, by decide, fun hq => ?_, (fun hf => by cases hf)⟩
      rw [show s.conn.qp = true from hq] at hqpfalse
      cases hqpfalse
    · exact fun wc hwc => absurd hwc List.not_mem_nil
  · have hdcq : s.conn.dcq = false := by
      by_contra hd
      have := hcq (Bool.eq_true_of_not_eq_false hd)
      exact absurd this (by decide)
    have haway : ¬ s.thread.Holds := by
      intro hh
      have hthere := (h.holds hh).2
      rw [hdcq] at hthere
      cases hthere
    refine ⟨h.fault, ⟨fun hlive => hwhole hlive, h.conn.past, fun _ => rfl, h.conn.rejected,
      h.conn.reject, h.conn.connected, h.conn.sending, h.conn.dcq, ?_⟩,
      fun hh => absurd hh haway, h.qp, h.events, h.unsent⟩
    rintro _ ⟨⟩
    refine ⟨hcm, by decide, fun hq => ?_, fun hd => ?_⟩
    · exact absurd (hqp hq) (by decide)
    · exact absurd (hcq hd) (by decide)

theorem of_step (h : Sound s) {a : Action} (hc : Quiet s a) (ht : step s a = some t) :
    Sound t := by
  cases a with
  | receive ok =>
    simp only [step] at ht
    split at ht
    · rename_i offset rest hposted
      have hqp : s.conn.qp = true := by
        by_contra hq
        rw [(h.qp (Bool.eq_false_of_not_eq_true hq)).1] at hposted
        cases hposted
      cases ht
      refine h.frame rfl h.fault h.holds ?_ rfl ?_ ?_
      · intro hq
        rw [hqp] at hq
        cases hq
      · intro hdcq
        rw [h.conn.dcq hdcq] at hqp
        cases hqp
      · intro wc hwc
        rcases List.mem_append.mp hwc with hwc | hwc
        · exact .inl hwc
        · rw [List.mem_singleton.mp hwc]
          exact .inr (by rintro ⟨⟩)
    · cases ht
  | sent ok =>
    simp only [step] at ht
    split at ht
    · rename_i r rest hsq
      have hqp : s.conn.qp = true := by
        by_contra hq
        rw [(h.qp (Bool.eq_false_of_not_eq_true hq)).2] at hsq
        cases hsq
      cases ht
      refine ⟨h.fault, h.conn, h.holds, ?_, ?_, fun hcm => ?_⟩
      · intro hq
        rw [show s.conn.qp = false from hq] at hqp
        cases hqp
      · intro hdcq
        rw [h.conn.dcq hdcq] at hqp
        cases hqp
      · obtain ⟨hnone, htasks⟩ := h.unsent hcm
        rw [hsq] at hnone
        refine ⟨fun hmem => hnone (List.mem_cons_of_mem _ hmem), fun wc hwc => ?_⟩
        rcases List.mem_append.mp hwc with hwc | hwc
        · exact htasks wc hwc
        · rw [List.mem_singleton.mp hwc]
          rintro ⟨⟩
          exact hnone List.mem_cons_self
    · cases ht
  | beginSend =>
    simp only [step] at ht
    split_ifs at ht with hconnected
    cases ht
    have hcm := h.conn.connected hconnected
    have hwhole := h.conn.whole (.inr hcm)
    exact ⟨h.fault, ⟨fun _ => ⟨hwhole.1, hwhole.2, hwhole.3, hwhole.4, hwhole.5, hwhole.6⟩,
      h.conn.past, h.conn.closed, h.conn.rejected, h.conn.reject, h.conn.connected, fun _ => hcm,
      h.conn.dcq, h.conn.main⟩, h.holds, h.qp, h.events, h.unsent⟩
  | postSend =>
    by_cases hnone : s.conn.sending = 0
    · simp [step, hnone] at ht
    · simp only [step, if_neg hnone] at ht
      cases ht
      have hcm := h.conn.sending (Nat.pos_of_ne_zero hnone)
      have hwhole := h.conn.whole (.inr hcm)
      refine ⟨?_, ⟨fun _ => ⟨hwhole.1, hwhole.2, hwhole.3, hwhole.4, hwhole.5, hwhole.6⟩,
        h.conn.past, h.conn.closed, h.conn.rejected, h.conn.reject, h.conn.connected,
        fun _ => hcm, h.conn.dcq, h.conn.main⟩, h.holds, ?_, h.events, ?_⟩
      · simp [h.fault, hwhole.sendRegion, hwhole.qp]
      · intro hqp
        cases hwhole.qp.symm.trans hqp
      · rintro (hc | hc)
        · cases hcm.symm.trans hc
        · cases hcm.symm.trans hc
  | postOneSided =>
    simp only [step] at ht
    split_ifs at ht with hroom
    cases ht
    have hqp : s.conn.qp = true := (Bool.and_eq_true_iff.mp hroom).1
    refine ⟨h.fault, h.conn, h.holds, ?_, h.events, fun hcm => ?_⟩
    · intro hq
      rw [show s.conn.qp = false from hq] at hqp
      cases hqp
    · obtain ⟨hnone, htasks⟩ := h.unsent hcm
      refine ⟨?_, htasks⟩
      simpa using hnone
  | assign =>
    simp only [step] at ht
    split_ifs at ht
    cases ht
    have hinit : s.conn.transState = .INIT := hc
    have hearly : ¬ (s.conn.cm = .closed ∨ s.conn.cm = .rejected) := by
      intro hcm
      have hpast := h.conn.past.mp hcm
      rw [hinit] at hpast
      cases hpast
    refine ⟨h.fault, ⟨fun hcm => ?_, iff_of_false hearly (by rintro ⟨⟩), h.conn.closed,
      h.conn.rejected, (by rintro ⟨⟩), (by rintro ⟨⟩), h.conn.sending, h.conn.dcq, h.conn.main⟩,
      h.holds, h.qp, h.events, h.unsent⟩
    have hwhole := h.conn.whole hcm
    exact ⟨hwhole.1, hwhole.2, hwhole.3, hwhole.4, hwhole.5, hwhole.6⟩
  | free =>
    simp only [step] at ht
    split_ifs at ht with hif
    cases ht
    have hcm := h.conn.reject hif.2.1
    refine ⟨h.fault, ⟨?_, h.conn.past, h.conn.closed, h.conn.rejected, h.conn.reject,
      h.conn.connected, h.conn.sending, h.conn.dcq, ?_⟩, h.holds, h.qp, h.events, h.unsent⟩
    · rintro (hc | hc)
      · cases hcm.symm.trans hc
      · cases hcm.symm.trans hc
    · rintro _ ⟨⟩
      exact ⟨hcm, List.suffix_rfl, fun _ => by decide, fun _ => by decide⟩
  | release keep =>
    simp only [step] at ht
    split at ht
    · rename_i r l hmain
      cases ht
      exact h.release hmain hc
    · cases ht
  | wait events => exact h.of_epollStep (a := .wait events) hc ht
  | next => exact h.of_epollStep (a := .next) hc ht
  | cmEvent e => exact h.of_epollStep (a := .cmEvent e) hc ht
  | drained => exact h.of_epollStep (a := .drained) hc ht
  | post taskOk postOk => exact h.of_epollStep (a := .post taskOk postOk) hc ht
  | notify ok => exact h.of_epollStep (a := .notify ok) hc ht
  | poll => exact h.of_epollStep (a := .poll) hc ht
  | repost taskOk postOk => exact h.of_epollStep (a := .repost taskOk postOk) hc ht

theorem init (h : poolSystem.init s) : Sound s := by
  obtain ⟨side, isPollQp, assigned, rest, -, hrest, rfl⟩ := h
  refine ⟨rfl, ⟨fun _ => ⟨rfl, rfl, rfl, rfl, rfl, rfl⟩, iff_of_false ?_ ?_, ?_, ?_, ?_, ?_, ?_,
    ?_, ?_⟩, ?_, ?_, fun _ => rfl,
    fun _ => ⟨List.not_mem_nil, fun wc hwc => absurd hwc List.not_mem_nil⟩⟩
  · rintro (hc | hc) <;> cases hc
  · cases assigned <;> rintro ⟨⟩
  · rintro ⟨⟩
  · rintro ⟨⟩
  · intro hr
    cases assigned <;> cases hr
  · intro hr
    cases assigned <;> cases hr
  · intro hpos
    exact absurd hpos (Nat.lt_irrefl 0)
  · rintro ⟨⟩
  · rintro _ ⟨⟩
  · rintro (hmem | hreader)
    · exact absurd hmem hrest
    · exact absurd rfl hreader
  · rintro ⟨⟩

end Sound

theorem sound_of_quiet (h : Reach poolSystem Quiet s) : Sound s :=
  h.invariant (fun _ h0 => Sound.init h0) fun _ _ _ hs hc ht => hs.of_step hc ht

end RdmaMiddleware.ReceivePool
