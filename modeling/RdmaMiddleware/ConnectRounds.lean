import RdmaMiddleware.TransportResources

/-!
# The rounds of `dhmp_connect`

The main thread creates a transport, sleeps for a second and looks at its state; the epoll
thread meanwhile runs the handlers of the connection events. A transport is named by the order
of its creation. A transport whose creation fails holds no region and is not kept.
-/
namespace RdmaMiddleware.ConnectRounds
open TransitionSystem Connection TransportResources

inductive Main
  | idle
  | sleeping (conn : ℕ)
  | returned (conn : Option ℕ)
  deriving DecidableEq

/-- `inLoop i`: between two calls of `rdma_get_cm_event` on the channel of transport `i`. -/
inductive Epoll
  | waiting
  | inLoop (i : ℕ)
  | ended
  deriving DecidableEq

/-- `staleGet` records a call of `rdma_get_cm_event` on a channel that was freed. -/
structure State where
  trans : List Trans
  main : Main
  epoll : Epoll
  stop : Bool
  staleGet : Bool

def start : State := ⟨[], .idle, .waiting, false, false⟩

/-- One round of `dhmp_connect` up to its `sleep`. -/
def connectRound (s : State) (o : CreateOk) (c : ConnectOk) : State :=
  match transportCreate o with
  | (_, false) => { s with main := .returned none }
  | (t, true) =>
    { s with trans := s.trans ++ [transportConnect t c], main := .sleeping s.trans.length }

/-- The transport created in place of a rejected one; the next round drops it. -/
def createSpare (s : State) (spare : CreateOk) : State :=
  match transportCreate spare with
  | (_, false) => s
  | (t, true) => { s with trans := s.trans ++ [t] }

/-- `dhmp_connect` after its `sleep`. -/
def connectWake (s : State) (i : ℕ) (spare o : CreateOk) (c : ConnectOk) : Option State :=
  match s.trans[i]? with
  | none => none
  | some t =>
    match t.transState with
    | .CONNECTED => some { s with main := .returned (some i) }
    | .REJECT =>
      some (connectRound (createSpare { s with trans := s.trans.set i (freeTrans t) } spare) o c)
    | _ => some (connectRound s o c)

/-- Whether `dhmp_event_channel_handler` is about to take an event of transport `i`. -/
def listens (s : State) (i : ℕ) (t : Trans) : Bool :=
  s.epoll = .inLoop i || (s.epoll = .waiting && .eventWatch ∈ t.held)

/-- One turn of the loop of `dhmp_event_channel_handler`. -/
def getCmEvent (s : State) (i : ℕ) (e : CmEvent) : Option State :=
  match s.trans[i]? with
  | none => none
  | some t =>
    if listens s i t then
      (handleEcEvent t e).map fun r =>
        { s with trans := s.trans.set i r.trans, stop := s.stop || r.stop
                 epoll := if r.ok then .inLoop i else .waiting }
    else none

inductive Action
  | connect (o : CreateOk) (c : ConnectOk)
  | wake (spare o : CreateOk) (c : ConnectOk)
  | getCmEvent (i : ℕ) (e : CmEvent)
  /-- `rdma_get_cm_event` finds no event. -/
  | noEvent
  /-- `dhmp_context_run` sees `stop`. -/
  | leave

def step (s : State) : Action → Option State
  | .connect o c =>
    match s.main with
    | .sleeping _ => none
    | _ => some (connectRound s o c)
  | .wake spare o c =>
    match s.main with
    | .sleeping i => connectWake s i spare o c
    | _ => none
  | .getCmEvent i e => getCmEvent s i e
  | .noEvent =>
    match s.epoll with
    | .inLoop i =>
      some { s with epoll := .waiting
                    staleGet := s.staleGet || (s.trans[i]?).any (·.cm = .freed) }
    | _ => none
  | .leave => if s.epoll = .waiting ∧ s.stop then some { s with epoll := .ended } else none

def connectSystem : System State Action where
  init s := s = start
  step := step

/-! ## What a step does -/

theorem lookup_append {l : List Trans} {x t : Trans} {i : ℕ} (h : (l ++ [x])[i]? = some t) :
    l[i]? = some t ∨ l.length ≤ i ∧ t = x := by
  obtain ⟨hlt, rfl⟩ := List.getElem?_eq_some_iff.1 h
  rcases Nat.lt_or_ge i l.length with hold | hnew
  · exact .inl (by rw [List.getElem?_eq_getElem hold, List.getElem_append_left hold])
  · exact .inr ⟨hnew, by rw [List.getElem_append_right hnew, List.getElem_singleton]⟩

theorem lookup_set_self {l : List Trans} {i : ℕ} {x : Trans} (h : l[i]? = some x) (t : Trans) :
    (l.set i t)[i]? = some t :=
  List.getElem?_set_self (List.getElem?_eq_some_iff.1 h).1

theorem lookup_set {l : List Trans} {i j : ℕ} {x t : Trans} (h : (l.set i t)[j]? = some x) :
    i = j ∧ x = t ∨ l[j]? = some x := by
  by_cases hij : i = j
  · subst hij
    have hi : i < l.length := by simpa using (List.getElem?_eq_some_iff.1 h).1
    rw [List.getElem?_set_self hi] at h
    exact .inl ⟨rfl, (Option.some.inj h).symm⟩
  · rw [List.getElem?_set_ne hij] at h
    exact .inr h

/-- A round gives up, or sleeps on a transport it has just made. -/
theorem connectRound_cases (s : State) (o : CreateOk) (c : ConnectOk) :
    connectRound s o c = { s with main := .returned none } ∨
      ∃ t, Ledger t ∧ (t.cm = .idle ∨ t.cm = .resolving) ∧
        connectRound s o c =
          { s with trans := s.trans ++ [t], main := .sleeping s.trans.length } := by
  rcases transportCreate_cases o with h | ⟨held, -, h⟩
  · refine .inr ⟨_, Ledger.connect o.qpMemory o.watch c, ?_, by rw [connectRound, h]⟩
    obtain ⟨url, id, resolve⟩ := c
    cases url <;> cases id <;> cases resolve <;> first | exact .inl rfl | exact .inr rfl
  · exact .inl (by rw [connectRound, h])

theorem createSpare_cases (s : State) (spare : CreateOk) :
    createSpare s spare = s ∨ ∃ t, Ledger t ∧ t.cm = .idle ∧
      createSpare s spare = { s with trans := s.trans ++ [t] } := by
  rcases transportCreate_cases spare with h | ⟨held, -, h⟩
  · exact .inr ⟨_, Ledger.connect spare.qpMemory spare.watch ⟨false, false, false⟩, rfl,
      by rw [createSpare, h]; rfl⟩
  · exact .inl (by rw [createSpare, h])

theorem epoll_connectRound (s : State) (o : CreateOk) (c : ConnectOk) :
    (connectRound s o c).epoll = s.epoll := by
  rcases connectRound_cases s o c with h | ⟨t, -, -, h⟩ <;> rw [h]

theorem epoll_createSpare (s : State) (spare : CreateOk) :
    (createSpare s spare).epoll = s.epoll := by
  rcases createSpare_cases s spare with h | ⟨t, -, -, h⟩ <;> rw [h]

theorem getElem?_append_of_some {l : List Trans} {i : ℕ} {t : Trans} (h : l[i]? = some t)
    (l' : List Trans) : (l ++ l')[i]? = some t := by
  rwa [List.getElem?_append_left (List.getElem?_eq_some_iff.1 h).1]

theorem lookup_connectRound {s : State} {i : ℕ} {t : Trans} (h : s.trans[i]? = some t)
    (o : CreateOk) (c : ConnectOk) : (connectRound s o c).trans[i]? = some t := by
  rcases connectRound_cases s o c with hs | ⟨x, -, -, hs⟩
  · rwa [hs]
  · rw [hs]
    exact getElem?_append_of_some h _

theorem lookup_createSpare {s : State} {i : ℕ} {t : Trans} (h : s.trans[i]? = some t)
    (spare : CreateOk) : (createSpare s spare).trans[i]? = some t := by
  rcases createSpare_cases s spare with hs | ⟨x, -, -, hs⟩
  · rwa [hs]
  · rw [hs]
    exact getElem?_append_of_some h _

/-- `again` is the round after a transport that neither connected nor was rejected. -/
inductive Effect (s : State) : Action → State → Prop
  | connect {o : CreateOk} {c : ConnectOk} (hmain : ∀ i, s.main ≠ .sleeping i) :
      Effect s (.connect o c) (connectRound s o c)
  | connected {spare o : CreateOk} {c : ConnectOk} {i : ℕ} {t : Trans}
      (hmain : s.main = .sleeping i) (ht : s.trans[i]? = some t)
      (hstate : t.transState = .CONNECTED) :
      Effect s (.wake spare o c) { s with main := .returned (some i) }
  | rejected {spare o : CreateOk} {c : ConnectOk} {i : ℕ} {t : Trans}
      (hmain : s.main = .sleeping i) (ht : s.trans[i]? = some t)
      (hstate : t.transState = .REJECT) :
      Effect s (.wake spare o c)
        (connectRound (createSpare { s with trans := s.trans.set i (freeTrans t) } spare) o c)
  | again {spare o : CreateOk} {c : ConnectOk} {i : ℕ} {t : Trans}
      (hmain : s.main = .sleeping i) (ht : s.trans[i]? = some t)
      (hstate : Unsettled t.transState) :
      Effect s (.wake spare o c) (connectRound s o c)
  | getCmEvent {i : ℕ} {e : CmEvent} {t : Trans} {r : Handled} (ht : s.trans[i]? = some t)
      (hlisten : listens s i t = true) (hr : handleEcEvent t e = some r) :
      Effect s (.getCmEvent i e)
        { s with trans := s.trans.set i r.trans, stop := s.stop || r.stop
                 epoll := if r.ok then .inLoop i else .waiting }
  | noEvent {i : ℕ} (hepoll : s.epoll = .inLoop i) :
      Effect s .noEvent
        { s with epoll := .waiting
                 staleGet := s.staleGet || (s.trans[i]?).any (·.cm = .freed) }
  | leave (hepoll : s.epoll = .waiting) (hstop : s.stop = true) :
      Effect s .leave { s with epoll := .ended }

theorem effect_of_wake {s u : State} {i : ℕ} {spare o : CreateOk} {c : ConnectOk}
    (hmain : s.main = .sleeping i) (hu : connectWake s i spare o c = some u) :
    Effect s (.wake spare o c) u := by
  unfold connectWake at hu
  split at hu
  next => cases hu
  next t ht =>
    split at hu
    next hstate =>
      cases hu
      exact .connected hmain ht hstate
    next hstate =>
      cases hu
      exact .rejected hmain ht hstate
    next hconnected hreject =>
      cases hu
      exact .again hmain ht ⟨hreject, hconnected⟩

theorem effect_of_getCmEvent {s u : State} {i : ℕ} {e : CmEvent}
    (hu : getCmEvent s i e = some u) : Effect s (.getCmEvent i e) u := by
  unfold getCmEvent at hu
  split at hu
  next => cases hu
  next t ht =>
    split_ifs at hu with hlisten
    obtain ⟨r, hr, rfl⟩ := Option.map_eq_some_iff.1 hu
    exact .getCmEvent ht hlisten hr

theorem effect_of_step {s u : State} {a : Action} (hu : step s a = some u) : Effect s a u := by
  cases a with
  | connect o c =>
    simp only [step] at hu
    split at hu
    next => cases hu
    next hmain =>
      cases hu
      exact .connect hmain
  | wake spare o c =>
    simp only [step] at hu
    split at hu
    next i hmain => exact effect_of_wake hmain hu
    next => cases hu
  | getCmEvent i e => exact effect_of_getCmEvent hu
  | noEvent =>
    simp only [step] at hu
    split at hu
    next i hepoll =>
      cases hu
      exact .noEvent hepoll
    next => cases hu
  | leave =>
    simp only [step] at hu
    split_ifs at hu with h
    cases hu
    exact .leave h.1 h.2

theorem length_connectRound (s : State) (o : CreateOk) (c : ConnectOk) :
    s.trans.length ≤ (connectRound s o c).trans.length := by
  rcases connectRound_cases s o c with h | ⟨t, -, -, h⟩ <;> simp [h]

theorem length_createSpare (s : State) (spare : CreateOk) :
    s.trans.length ≤ (createSpare s spare).trans.length := by
  rcases createSpare_cases s spare with h | ⟨t, -, -, h⟩ <;> simp [h]

theorem length_spare (s : State) (i : ℕ) (t : Trans) (spare : CreateOk) :
    s.trans.length ≤ (createSpare { s with trans := s.trans.set i t } spare).trans.length := by
  have h := length_createSpare { s with trans := s.trans.set i t } spare
  rwa [List.length_set] at h

/-- No transport is forgotten. -/
theorem length_of_step {s u : State} {a : Action} (hu : step s a = some u) :
    s.trans.length ≤ u.trans.length := by
  cases effect_of_step hu with
  | connect | again => exact length_connectRound _ _ _
  | @rejected spare _ _ i t =>
    exact Nat.le_trans (length_spare s i (freeTrans t) spare) (length_connectRound _ _ _)
  | connected | noEvent | leave => exact Nat.le_refl _
  | getCmEvent => exact Nat.le_of_eq (List.length_set ..).symm

theorem main_connectRound (s : State) (o : CreateOk) (c : ConnectOk) :
    (connectRound s o c).main = .returned none ∨
      (connectRound s o c).main = .sleeping s.trans.length := by
  rcases connectRound_cases s o c with h | ⟨t, -, -, h⟩
  · exact .inl (by rw [h])
  · exact .inr (by rw [h])

/-- `dhmp_connect` goes on to a transport made by this step, or returns. -/
theorem main_of_step {s u : State} {a : Action} (hu : step s a = some u) :
    u.main = s.main ∨ u.main = .returned none ∨
      (∃ n, s.trans.length ≤ n ∧ u.main = .sleeping n) ∨
      ∃ i t, s.main = .sleeping i ∧ s.trans[i]? = some t ∧ t.transState = .CONNECTED ∧
        u.main = .returned (some i) := by
  cases effect_of_step hu with
  | @connect o c | @again _ o c =>
    rcases main_connectRound s o c with h | h
    · exact .inr (.inl h)
    · exact .inr (.inr (.inl ⟨_, Nat.le_refl _, h⟩))
  | @rejected spare o c i t =>
    rcases main_connectRound (createSpare { s with trans := s.trans.set i (freeTrans t) } spare)
      o c with h | h
    · exact .inr (.inl h)
    · exact .inr (.inr (.inl ⟨_, length_spare s i (freeTrans t) spare, h⟩))
  | connected hmain ht hstate => exact .inr (.inr (.inr ⟨_, _, hmain, ht, hstate, rfl⟩))
  | getCmEvent | noEvent | leave => exact .inl rfl

/-- A transport that a step has just created. -/
def Fresh (s : State) (i : ℕ) (t : Trans) : Prop :=
  s.trans.length ≤ i ∧ (t.cm = .idle ∨ t.cm = .resolving)

theorem fresh_connectRound {s : State} {o : CreateOk} {c : ConnectOk} {i : ℕ} {t : Trans}
    (ht : (connectRound s o c).trans[i]? = some t) : s.trans[i]? = some t ∨ Fresh s i t := by
  rcases connectRound_cases s o c with h | ⟨x, -, hphase, h⟩
  · exact .inl (by rwa [h] at ht)
  · rw [h] at ht
    rcases lookup_append ht with ht | ⟨hnew, rfl⟩
    · exact .inl ht
    · exact .inr ⟨hnew, hphase⟩

theorem fresh_createSpare {s : State} {spare : CreateOk} {i : ℕ} {t : Trans}
    (ht : (createSpare s spare).trans[i]? = some t) : s.trans[i]? = some t ∨ Fresh s i t := by
  rcases createSpare_cases s spare with h | ⟨x, -, hphase, h⟩
  · exact .inl (by rwa [h] at ht)
  · rw [h] at ht
    rcases lookup_append ht with ht | ⟨hnew, rfl⟩
    · exact .inl ht
    · exact .inr ⟨hnew, .inl hphase⟩

/-- Where a transport of the next state comes from. -/
theorem origin_of_step {s u : State} {a : Action} (hu : step s a = some u) {i : ℕ} {t : Trans}
    (ht : u.trans[i]? = some t) :
    s.trans[i]? = some t ∨ Fresh s i t ∨ t.cm = .freed ∨
      ∃ e x r, a = .getCmEvent i e ∧ s.trans[i]? = some x ∧ handleEcEvent x e = some r ∧
        t = r.trans := by
  cases effect_of_step hu with
  | connect | again => exact (fresh_connectRound ht).imp_right .inl
  | @rejected spare o c j x hmain hx hstate =>
    rcases fresh_connectRound ht with ht | hfresh
    · rcases fresh_createSpare ht with ht | hfresh
      · rcases lookup_set ht with ⟨-, rfl⟩ | ht
        · exact .inr (.inr (.inl rfl))
        · exact .inl ht
      · exact .inr (.inl ⟨List.length_set .. ▸ hfresh.1, hfresh.2⟩)
    · have hspare := length_spare s j (freeTrans x) spare
      exact .inr (.inl ⟨Nat.le_trans hspare hfresh.1, hfresh.2⟩)
  | connected | noEvent | leave => exact .inl ht
  | @getCmEvent j e x r hx hlisten hr =>
    rcases lookup_set ht with ⟨rfl, rfl⟩ | ht
    · exact .inr (.inr (.inr ⟨e, x, r, rfl, hx, hr, rfl⟩))
    · exact .inl ht

/-! ## The ledgers of a run -/

/-- `dhmp_connect` sleeps on a transport it may still free and returns one it never freed. -/
structure Sound (s : State) : Prop where
  ledger : ∀ t ∈ s.trans, Ledger t
  sleeping : ∀ i, s.main = .sleeping i → ∃ t, s.trans[i]? = some t ∧ t.cm ≠ .freed
  returned : ∀ i, s.main = .returned (some i) →
    ∃ t, s.trans[i]? = some t ∧ (t.cm = .established ∨ t.cm = .destroyed)

theorem ledger_append {l : List Trans} {t : Trans} (hl : ∀ x ∈ l, Ledger x) (ht : Ledger t) :
    ∀ x ∈ l ++ [t], Ledger x := by
  intro x hx
  rcases List.mem_append.1 hx with hx | hx
  · exact hl x hx
  · rwa [List.mem_singleton.1 hx]

theorem ledger_set {l : List Trans} {t : Trans} (i : ℕ) (hl : ∀ x ∈ l, Ledger x)
    (ht : Ledger t) : ∀ x ∈ l.set i t, Ledger x := by
  intro x hx
  rcases List.mem_or_eq_of_mem_set hx with hx | rfl
  · exact hl x hx
  · exact ht

theorem ledger_createSpare {s : State} (h : ∀ t ∈ s.trans, Ledger t) (spare : CreateOk) :
    ∀ t ∈ (createSpare s spare).trans, Ledger t := by
  rcases createSpare_cases s spare with hs | ⟨t, ht, -, hs⟩
  · rwa [hs]
  · rw [hs]
    exact ledger_append h ht

theorem sound_connectRound {s : State} (h : ∀ t ∈ s.trans, Ledger t) (o : CreateOk)
    (c : ConnectOk) : Sound (connectRound s o c) := by
  rcases connectRound_cases s o c with hs | ⟨t, ht, hphase, hs⟩
  · rw [hs]
    exact ⟨h, nofun, nofun⟩
  · rw [hs]
    refine ⟨ledger_append h ht, ?_, nofun⟩
    rintro i ⟨⟩
    refine ⟨t, List.getElem?_concat_length, ?_⟩
    rcases hphase with hphase | hphase <;> simp [hphase]

namespace Sound
variable {s u : State}

theorem lookup (h : Sound s) {i : ℕ} {t : Trans} (ht : s.trans[i]? = some t) : Ledger t :=
  h.ledger t (List.mem_of_getElem? ht)

/-- An event moves the transport of `dhmp_connect`, or another one. -/
theorem getCmEvent (h : Sound s) {i : ℕ} {e : CmEvent} {t : Trans} {r : Handled}
    (ht : s.trans[i]? = some t) (hr : handleEcEvent t e = some r) (stop : Bool) (epoll : Epoll) :
    Sound { s with trans := s.trans.set i r.trans, stop := stop, epoll := epoll } := by
  have hnext := next_of_handleEcEvent hr
  refine ⟨ledger_set i h.ledger ((h.lookup ht).of_handleEcEvent hr), ?_, ?_⟩
  · intro j hj
    obtain ⟨x, hx, hfree⟩ := h.sleeping j hj
    by_cases hij : i = j
    · subst hij
      exact ⟨r.trans, lookup_set_self ht _, hnext.ne_freed⟩
    · exact ⟨x, by rwa [List.getElem?_set_ne hij], hfree⟩
  · intro j hj
    obtain ⟨x, hx, hphase⟩ := h.returned j hj
    by_cases hij : i = j
    · subst hij
      obtain rfl : t = x := Option.some.inj (ht.symm.trans hx)
      exact ⟨r.trans, lookup_set_self ht _, .inr (hnext.of_settled hphase)⟩
    · exact ⟨x, by rwa [List.getElem?_set_ne hij], hphase⟩

theorem of_step (h : Sound s) {a : Action} (hu : step s a = some u) : Sound u := by
  cases effect_of_step hu with
  | connect hmain => exact sound_connectRound h.ledger _ _
  | connected hmain ht hstate =>
    obtain ⟨x, hx, hfree⟩ := h.sleeping _ hmain
    obtain rfl := Option.some.inj (ht.symm.trans hx)
    refine ⟨h.ledger, nofun, ?_⟩
    rintro i ⟨⟩
    exact ⟨_, ht, .inl ((h.lookup ht).connected hstate hfree)⟩
  | rejected hmain ht hstate =>
    obtain ⟨x, hx, hfree⟩ := h.sleeping _ hmain
    obtain rfl := Option.some.inj (ht.symm.trans hx)
    have hled := h.lookup ht
    exact sound_connectRound
      (ledger_createSpare (ledger_set _ h.ledger (hled.free (hled.rejected hstate hfree))) _) _ _
  | again hmain ht hstate => exact sound_connectRound h.ledger _ _
  | getCmEvent ht hlisten hr => exact h.getCmEvent ht hr _ _
  | noEvent hepoll => exact ⟨h.ledger, h.sleeping, h.returned⟩
  | leave hepoll hstop => exact ⟨h.ledger, h.sleeping, h.returned⟩

end Sound

theorem sound_of_reachable {s : State} (hs : Reachable connectSystem s) : Sound s := by
  refine hs.invariant (P := Sound) ?_ fun _ _ _ h _ hu => h.of_step hu
  rintro _ rfl
  exact ⟨nofun, nofun, nofun⟩

def createOk : CreateOk := ⟨true, true, true, true, true, true, true, true, false⟩

def connectOk : ConnectOk := ⟨true, true, true⟩

def cqOk : CqOk := ⟨true, true, true, true, true, true⟩

/-- The events of transport `i` up to the call of `rdma_connect`. -/
def toConnect (i : ℕ) (rdmaConnectOk : Bool) : List Action :=
  [.getCmEvent i (.addrResolved true), .getCmEvent i (.routeResolved cqOk true rdmaConnectOk)]

def wakeOk : Action := .wake createOk createOk connectOk

theorem reachable_start : Reachable connectSystem start := .start rfl

/-- The first round is rejected, the second connects. -/
def secondRound : List Action :=
  .connect createOk connectOk :: toConnect 0 true ++ [.getCmEvent 0 .rejected, .noEvent, wakeOk] ++
    toConnect 2 true ++ [.getCmEvent 2 .established, .noEvent, wakeOk]

/-- `dhmp_connect` only wakes when that loop has ended for its transport. -/
def LeftLoop (s : State) : Action → Prop
  | .wake _ _ _ => ∀ i, s.main = .sleeping i → s.epoll ≠ .inLoop i
  | _ => True

/-- The loop runs over a channel that is still there. -/
def Current (s : State) : Prop :=
  s.staleGet = false ∧ ∀ i t, s.epoll = .inLoop i → s.trans[i]? = some t → t.cm ≠ .freed

namespace Current
variable {s : State}

theorem append (h : Current s) {t : Trans} (ht : t.cm ≠ .freed) (main : Main) :
    Current { s with trans := s.trans ++ [t], main := main } := by
  refine ⟨h.1, fun i x hi hx => ?_⟩
  rcases lookup_append hx with hx | ⟨-, rfl⟩
  · exact h.2 i x hi hx
  · exact ht

theorem connectRound (h : Current s) (o : CreateOk) (c : ConnectOk) :
    Current (connectRound s o c) := by
  rcases connectRound_cases s o c with hs | ⟨t, -, hphase, hs⟩
  · rw [hs]
    exact h
  · rw [hs]
    exact h.append (by rcases hphase with hphase | hphase <;> simp [hphase]) _

theorem createSpare (h : Current s) (spare : CreateOk) : Current (createSpare s spare) := by
  rcases createSpare_cases s spare with hs | ⟨t, -, hphase, hs⟩
  · rwa [hs]
  · rw [hs]
    exact h.append (by simp [hphase]) s.main

theorem of_step (h : Current s) {a : Action} {u : State} (hleft : LeftLoop s a)
    (hu : step s a = some u) : Current u := by
  cases effect_of_step hu with
  | connect hmain => exact h.connectRound _ _
  | connected hmain ht hstate => exact h
  | @rejected spare o c i t hmain ht hstate =>
    have hloop : s.epoll ≠ .inLoop i := hleft i hmain
    refine ((?_ : Current _).createSpare _).connectRound _ _
    refine ⟨h.1, fun j x hj hx => ?_⟩
    have hij : i ≠ j := by
      rintro rfl
      exact hloop hj
    rw [List.getElem?_set_ne hij] at hx
    exact h.2 j x hj hx
  | again hmain ht hstate => exact h.connectRound _ _
  | @getCmEvent i e t r ht hlisten hr =>
    refine ⟨h.1, fun j x hj hx => ?_⟩
    cases hok : r.ok with
    | false => simp [hok] at hj
    | true =>
      obtain rfl : i = j := by simpa [hok] using hj
      obtain rfl := Option.some.inj ((lookup_set_self ht r.trans).symm.trans hx)
      exact (next_of_handleEcEvent hr).ne_freed
  | @noEvent i hepoll =>
    refine ⟨?_, nofun⟩
    cases ht : s.trans[i]? with
    | none => simp [h.1]
    | some t => simp [h.1, h.2 i t hepoll ht]
  | leave hepoll hstop => exact ⟨h.1, nofun⟩

end Current

/-- No freed channel is read while each `sleep` outlasts the loop. From any such state, the first
wake inside the loop over a rejected transport makes the loop's next call read one. -/
theorem stale_get_of_early_wake {s : State} (hs : Reach connectSystem LeftLoop s) :
    s.staleGet = false ∧ ∀ i t spare o c, s.main = .sleeping i → s.epoll = .inLoop i →
      s.trans[i]? = some t → t.transState = .REJECT →
      ∃ u v, step s (.wake spare o c) = some u ∧ step u .noEvent = some v ∧ v.staleGet = true := by
  have hcurrent : Current s := by
    refine hs.invariant (P := Current) ?_ fun _ _ _ h hleft hu => h.of_step hleft hu
    rintro _ rfl
    exact ⟨rfl, nofun⟩
  refine ⟨hcurrent.1, fun i t spare o c hmain hepoll ht hstate => ?_⟩
  let freed : State := { s with trans := s.trans.set i (freeTrans t) }
  let u := connectRound (createSpare freed spare) o c
  have hu : step s (.wake spare o c) = some u := by
    have hwake : connectWake s i spare o c = some u := by
      unfold connectWake
      rw [ht]
      simp only [hstate]
      rfl
    simp only [step, hmain, hwake]
  have hfreed : freed.trans[i]? = some (freeTrans t) := lookup_set_self ht _
  have hlookup : u.trans[i]? = some (freeTrans t) :=
    lookup_connectRound (lookup_createSpare hfreed spare) o c
  have hloop : u.epoll = .inLoop i := by
    rw [epoll_connectRound, epoll_createSpare]
    exact hepoll
  let v : State := { u with epoll := .waiting
                            staleGet := u.staleGet || (u.trans[i]?).any (·.cm = .freed) }
  have hv : step u .noEvent = some v := by simp only [step, hloop, v]
  exact ⟨u, v, hu, hv, by simp [v, hlookup, freeTrans]⟩

def leftLoopTest (s : State) : Action → Bool
  | .wake _ _ _ => s.epoll == .waiting
  | _ => true

theorem leftLoop_of_test (s : State) (a : Action) (h : leftLoopTest s a = true) :
    LeftLoop s a := by
  cases a with
  | wake spare o c =>
    intro i _ hloop
    simp [leftLoopTest, hloop] at h
  | connect | getCmEvent | noEvent | leave => exact trivial

/-- The rejection comes in just before the `sleep` ends. -/
def rejectedLate : List Action :=
  .connect createOk connectOk :: toConnect 0 true ++ [.getCmEvent 0 .rejected]

theorem stale_get_of_early_wake_rejectedLate : ∃ s u v : State, s.staleGet = false ∧
    step s wakeOk = some u ∧ step u .noEvent = some v ∧ v.staleGet = true := by
  obtain ⟨s, _, hs, hcheck⟩ := reach_of_run_any leftLoop_of_test (.start rfl)
    (show (run connectSystem leftLoopTest start rejectedLate).any
      (fun s => s.main = .sleeping 0 && s.epoll = .inLoop 0 &&
        (s.trans[0]?).any (·.transState = .REJECT)) = true by decide +kernel)
  simp only [Bool.and_eq_true, decide_eq_true_eq, Option.any_eq_true] at hcheck
  obtain ⟨⟨hmain, hepoll⟩, t, ht, hstate⟩ := hcheck
  obtain ⟨hclean, hearly⟩ := stale_get_of_early_wake hs
  obtain ⟨u, v, hu, hv, hstale⟩ := hearly 0 t createOk createOk connectOk hmain hepoll ht hstate
  exact ⟨s, u, v, hclean, hu, hv, hstale⟩

/-! ## After the epoll thread has ended -/

/-- From `s` on no transport changes its state any more: `dhmp_connect` is where it was, or at a
transport that never leaves its first two states. -/
structure Silent (s t : State) : Prop where
  ended : t.epoll = .ended
  sleeping : ∀ i, t.main = .sleeping i →
    s.main = .sleeping i ∧ t.trans[i]? = s.trans[i]? ∨
      ∃ x, t.trans[i]? = some x ∧ (x.cm = .idle ∨ x.cm = .resolving)
  returned : ∀ i, t.main = .returned (some i) → s.main = .returned (some i) ∨
    s.main = .sleeping i ∧ ∃ x, s.trans[i]? = some x ∧ x.transState = .CONNECTED

theorem silent_connectRound {s t : State} (hended : t.epoll = .ended) (o : CreateOk)
    (c : ConnectOk) : Silent s (connectRound t o c) := by
  rcases connectRound_cases t o c with h | ⟨x, -, hphase, h⟩
  · rw [h]
    exact ⟨hended, nofun, nofun⟩
  · rw [h]
    refine ⟨hended, ?_, nofun⟩
    rintro i ⟨⟩
    exact .inr ⟨x, List.getElem?_concat_length, hphase⟩

theorem Silent.of_step {s t u : State} (h : Silent s t) (hsound : Sound t) {a : Action}
    (hu : step t a = some u) : Silent s u := by
  cases effect_of_step hu with
  | connect hmain => exact silent_connectRound h.ended _ _
  | @connected _ _ _ i x hmain ht hstate =>
    refine ⟨h.ended, nofun, ?_⟩
    rintro j ⟨⟩
    rcases h.sleeping i hmain with ⟨hsame, hlookup⟩ | ⟨y, hy, hphase⟩
    · exact .inr ⟨hsame, x, hlookup ▸ ht, hstate⟩
    · obtain rfl : x = y := Option.some.inj (ht.symm.trans hy)
      have hcm := (hsound.lookup ht).connected hstate (by rcases hphase with h | h <;> simp [h])
      simp [hcm] at hphase
  | rejected hmain ht hstate =>
    exact silent_connectRound (by rw [epoll_createSpare]; exact h.ended) _ _
  | again hmain ht hstate => exact silent_connectRound h.ended _ _
  | @getCmEvent i e x r ht hlisten hr => simp [listens, h.ended] at hlisten
  | noEvent hepoll => simp [h.ended] at hepoll
  | leave hepoll hstop => simp [h.ended] at hepoll

/-- A failing `rdma_connect` stops the epoll thread for good. Once it has ended, no call of
`dhmp_connect` returns a connection that was not already there: each goes on for ever, or gives
up when a transport cannot be created. -/
theorem no_connection_after_stop {s t : State} (hs : Reachable connectSystem s)
    (hended : s.epoll = .ended) (ht : Reachable (connectSystem.after s) t) :
    t.epoll = .ended ∧ ∀ i, t.main = .returned (some i) → s.main = .returned (some i) ∨
      s.main = .sleeping i ∧ ∃ x, s.trans[i]? = some x ∧ x.transState = .CONNECTED := by
  have hsilent : Silent s t := by
    refine ht.invariant_of (P := Silent s) (fun u hu => sound_of_reachable (hs.of_after hu)) ?_
      fun u a v hu h _ hv => h.of_step hu hv
    rintro _ rfl
    exact ⟨hended, fun i hi => .inl ⟨hi, rfl⟩, fun i hi => .inl hi⟩
  exact ⟨hsilent.ended, hsilent.returned⟩

/-- `rdma_connect` fails at once. -/
def connectFails : List Action :=
  .connect createOk connectOk :: toConnect 0 false ++ [.leave]

theorem no_connection_after_stop_connectFails : ∃ s : State, s.main = .sleeping 0 ∧
    ∀ t, Reachable (connectSystem.after s) t → ∀ i, t.main ≠ .returned (some i) := by
  obtain ⟨s, _, hs, hcheck⟩ := reach_of_run_any (fun _ _ _ => trivial) reachable_start
    (show (run connectSystem (fun _ _ => true) start connectFails).any
      (fun s => s.epoll = .ended && s.main = .sleeping 0 &&
        (s.trans[0]?).all (·.transState = .ERROR)) = true by decide +kernel)
  simp only [Bool.and_eq_true, decide_eq_true_eq, Option.all_eq_true] at hcheck
  obtain ⟨⟨hended, hmain⟩, hstate⟩ := hcheck
  refine ⟨s, hmain, fun t ht i hi => ?_⟩
  rcases (no_connection_after_stop hs hended ht).2 i hi with h | ⟨h, x, hx, hconnected⟩
  · simp [hmain] at h
  · obtain rfl : 0 = i := by simpa [hmain] using h
    rw [hstate x hx] at hconnected
    cases hconnected

end RdmaMiddleware.ConnectRounds
