import RdmaMiddleware.Loops
import RdmaMiddleware.Delivery

/-!
# Whole calls of the reader

`read_log_key` and `read_log_value` as loops over the passes of the chain model, with
nothing else moving. `read_log_value` has no branch for a log whose value is missing: it
goes round again, and while the ring does not change it never returns.
-/
namespace RdmaMiddleware.Chain
open CInt CircularMemory LogBuffer MidHashmap UnlockQueue TransitionSystem Loops

/-! ## Calls -/

/-- What a pass means for the call it belongs to. -/
def Outcome.continue : Outcome → Receiver ⊕ Outcome
  | .next r _ => .inl r
  | o => .inr o

def readLogKeyBody (r : Receiver) : Receiver ⊕ Outcome :=
  match r.phase with
  | .keys limits readNum pos => (readLogKeyPass r limits readNum pos).continue
  | _ => .inr (.next r none)

def readLogValueBody (r : Receiver) : Receiver ⊕ Outcome :=
  match r.phase with
  | .value limits readNum => (readLogValuePass r limits readNum).continue
  | _ => .inr (.next r none)

/-- `read_log_key(limits)` returns with `r'`. -/
def ReadsKeys (limits : ℕ) (r r' : Receiver) : Prop :=
  Returns readLogKeyBody { r with phase := .keys limits 0 r.ring.rdKeyPointer } (.next r' none)

/-- `read_log_value(limits)` returns with `r'`. -/
def ReadsValues (limits : ℕ) (r r' : Receiver) : Prop :=
  Returns readLogValueBody { r with phase := .value limits 0 } (.next r' none)

/-- The result of `read_log_value`: the number of logs `reader_thread` goes on with. -/
def Receiver.readNum (r : Receiver) : ℕ :=
  match r.phase with
  | .exec num => num
  | _ => 0

/-- The tag byte of a log is 1. -/
def Receiver.arrived (r : Receiver) (id : ℕ) : Bool :=
  match r.entries id with
  | some e => decide (r.ring.buff (ringPos r.ring e.logPos e.mateData.valueTagOffset) = 1)
  | none => false

/-- The number of leading logs whose value has arrived. -/
def Receiver.arrivedNum (r : Receiver) : ℕ := (r.valuePeeding.takeWhile r.arrived).length

/-! ## The property -/

/-- `read_log_value` returns, and has moved as many leading logs as had arrived, up to the
limit, and no others. -/
def HonestProgress (limits : ℕ) (r : Receiver) : Prop :=
  ∃ r', ReadsValues limits r r' ∧ r'.readNum = min limits r.arrivedNum ∧
    r'.executing = r.executing ++ r.valuePeeding.take (min limits r.arrivedNum) ∧
    r'.valuePeeding = r.valuePeeding.drop (min limits r.arrivedNum)

/-- The logs waiting for their value have entries, and `executing_queue` can take them. -/
structure CanMove (r : Receiver) : Prop where
  alive : ∀ id ∈ r.valuePeeding, ∃ e, r.entries id = some e
  room : r.executing.length + r.valuePeeding.length ≤ QUEUE_SIZE - 1

variable {r r' : Receiver} {limits readNum : ℕ}

@[simp] theorem phase_afterRead (num : ℕ) :
    ({ r with phase := afterRead num } : Receiver).readNum = num := by
  unfold Receiver.readNum afterRead
  by_cases h : num = 0
  · simp [h]
  · simp [h]

/-! ## Passes of `read_log_value` -/

theorem readLogValueBody_eq (hphase : r.phase = .value limits readNum) :
    readLogValueBody r = (readLogValuePass r limits readNum).continue := by
  simp only [readLogValueBody, hphase]

/-- At the limit, or with nothing pending, the call returns. -/
theorem readsValues_stop (hphase : r.phase = .value limits readNum)
    (hstop : limits ≤ readNum ∨ r.valuePeeding = []) :
    Returns readLogValueBody r (.next { r with phase := afterRead readNum } none) := by
  have hpass : readLogValueBody r = .inl { r with phase := afterRead readNum } := by
    rw [readLogValueBody_eq hphase, readLogValuePass]
    cases hq : r.valuePeeding with
    | nil => rfl
    | cons id rest =>
      have hlimit : limits ≤ readNum := hstop.resolve_right (by simp [hq])
      simp only [if_pos hlimit]
      rfl
  rw [returns_next hpass]
  apply Returns.stop
  unfold afterRead
  split_ifs <;> rfl

/-- A log whose tag is not 1 keeps the loop where it is. -/
theorem readLogValueBody_stuck (hphase : r.phase = .value limits readNum)
    (hlimit : readNum < limits) {id : ℕ} {rest : List ℕ} (hq : r.valuePeeding = id :: rest)
    {e : LogEntry} (he : r.entries id = some e) (htag : r.arrived id = false) :
    readLogValueBody r = .inl r := by
  rw [Receiver.arrived, he, decide_eq_false_iff_not] at htag
  rw [readLogValueBody_eq hphase, readLogValuePass, hq]
  simp only [if_neg (Nat.not_le.mpr hlimit), he, if_neg htag]
  rfl

/-- Setting the value address of a log does not change which logs have arrived. -/
theorem arrived_setValue {id : ℕ} {e : LogEntry} (he : r.entries id = some e) (j : ℕ) :
    (setValue r id e).2.arrived j = r.arrived j := by
  unfold Receiver.arrived
  by_cases hj : j = id
  · subst hj
    rw [setValue_entries_self, he]
    rfl
  · rw [setValue_entries_of_ne r e hj]
    rfl

/-- The state after a log has been moved. -/
def moveValue (r : Receiver) (limits readNum id : ℕ) (rest : List ℕ) (e : LogEntry) : Receiver :=
  { (setValue r id e).2 with
    executing := r.executing ++ [id]
    valuePeeding := rest
    phase := .value limits (readNum + 1)
    received := r.received ++ [(setValue r id e).2.valueBytes (setValue r id e).1] }

theorem readLogValueBody_move (hmove : CanMove r) (hphase : r.phase = .value limits readNum)
    (hlimit : readNum < limits) {id : ℕ} {rest : List ℕ} (hq : r.valuePeeding = id :: rest)
    {e : LogEntry} (he : r.entries id = some e) (htag : r.arrived id = true) :
    readLogValueBody r = .inl (moveValue r limits readNum id rest e) := by
  have hroom := hmove.room
  rw [hq, List.length_cons] at hroom
  rw [Receiver.arrived, he, decide_eq_true_eq] at htag
  have hput : boundedPut QUEUE_SIZE r.executing id = some (r.executing ++ [id]) := by
    rw [boundedPut, if_neg (by omega)]
  rw [readLogValueBody_eq hphase, readLogValuePass, hq]
  simp only [if_neg (Nat.not_le.mpr hlimit), he, if_pos htag, hput]
  rfl

theorem CanMove.move (h : CanMove r) {id : ℕ} {rest : List ℕ} (hq : r.valuePeeding = id :: rest)
    {e : LogEntry} : CanMove (moveValue r limits readNum id rest e) where
  alive := by
    intro j hj
    show ∃ e', (setValue r id e).2.entries j = some e'
    by_cases hjid : j = id
    · subst hjid
      exact ⟨_, setValue_entries_self ..⟩
    · rw [setValue_entries_of_ne r e hjid]
      exact h.alive j (by rw [hq]; exact List.mem_cons_of_mem _ hj)
  room := by
    have hroom := h.room
    rw [hq, List.length_cons] at hroom
    show (r.executing ++ [id]).length + rest.length ≤ QUEUE_SIZE - 1
    rw [List.length_append, List.length_singleton]
    omega

/-! ## Runs of the loop -/

/-- With the values of all logs it asks for, the call moves them and returns. -/
theorem readsValues_of_arrived (hmove : CanMove r) (hphase : r.phase = .value limits readNum)
    (harrived : ∀ id ∈ r.valuePeeding.take (limits - readNum), r.arrived id = true) :
    ∃ r', Returns readLogValueBody r (.next r' none) ∧
      r'.readNum = readNum + min (limits - readNum) r.valuePeeding.length ∧
      r'.executing = r.executing ++ r.valuePeeding.take (limits - readNum) ∧
      r'.valuePeeding = r.valuePeeding.drop (limits - readNum) := by
  generalize hq : r.valuePeeding = queue at harrived
  induction queue generalizing r readNum with
  | nil =>
    refine ⟨_, readsValues_stop hphase (.inr hq), ?_, ?_, ?_⟩
    · simp
    · simp
    · simpa using hq
  | cons id rest ih =>
    rcases Nat.lt_or_ge readNum limits with hlimit | hlimit
    · obtain ⟨e, he⟩ := hmove.alive id (hq ▸ List.mem_cons_self)
      obtain ⟨left, hleft⟩ := Nat.exists_eq_add_of_lt hlimit
      have hsub : limits - readNum = left + 1 := by omega
      have hsub' : limits - (readNum + 1) = left := by omega
      rw [hsub, List.take_succ_cons] at harrived
      have htag := harrived id List.mem_cons_self
      have hmove' : CanMove (moveValue r limits readNum id rest e) := hmove.move hq
      have hphase' : (moveValue r limits readNum id rest e).phase = .value limits (readNum + 1) :=
        rfl
      obtain ⟨r', hret, hnum, hexec, hpend⟩ := ih hmove' hphase' rfl (by
        intro j hj
        rw [hsub'] at hj
        exact (arrived_setValue he j).trans (harrived j (List.mem_cons_of_mem _ hj)))
      refine ⟨r', (returns_next (readLogValueBody_move hmove hphase hlimit hq he htag)).mpr hret,
        ?_, ?_, ?_⟩
      · rw [hnum, hsub, hsub', List.length_cons]
        omega
      · rw [hexec, hsub, hsub', List.take_succ_cons]
        show r.executing ++ [id] ++ rest.take left = _
        rw [List.append_assoc, List.singleton_append]
      · rw [hpend, hsub, hsub', List.drop_succ_cons]
    · have hsub : limits - readNum = 0 := by omega
      refine ⟨_, readsValues_stop hphase (.inl hlimit), ?_, ?_, ?_⟩
      · simp [hsub]
      · simp [hsub]
      · simpa [hsub] using hq

/-- With one of the values missing, it does not return. -/
theorem not_returns_of_missing (hmove : CanMove r) (hphase : r.phase = .value limits readNum)
    {id : ℕ} (hid : id ∈ r.valuePeeding.take (limits - readNum)) (hmissing : r.arrived id = false)
    (o : Outcome) : ¬ Returns readLogValueBody r o := by
  generalize hq : r.valuePeeding = queue at hid
  induction queue generalizing r readNum with
  | nil => simp at hid
  | cons first rest ih =>
    have hlimit : readNum < limits := by
      by_contra hge
      rw [Nat.sub_eq_zero_of_le (by omega), List.take_zero] at hid
      cases hid
    obtain ⟨e, he⟩ := hmove.alive first (hq ▸ List.mem_cons_self)
    by_cases htag : r.arrived first = true
    · obtain ⟨left, hleft⟩ := Nat.exists_eq_add_of_lt hlimit
      rw [show limits - readNum = left + 1 by omega, List.take_succ_cons, List.mem_cons] at hid
      have hrest : id ∈ rest.take left := hid.resolve_left (by
        rintro rfl
        rw [htag] at hmissing
        cases hmissing)
      rw [returns_next (readLogValueBody_move hmove hphase hlimit hq he htag)]
      have hmove' : CanMove (moveValue r limits readNum first rest e) := hmove.move hq
      have hphase' : (moveValue r limits readNum first rest e).phase =
        .value limits (readNum + 1) := rfl
      exact ih hmove' hphase' ((arrived_setValue he id).trans hmissing) rfl
        (by rwa [show limits - (readNum + 1) = left by omega])
    · exact not_returns_of_stuck
        (readLogValueBody_stuck hphase hlimit hq he (Bool.not_eq_true _ ▸ htag))

/-- The logs that have arrived among the first ones, when these all have. -/
theorem min_arrivedNum (harrived : ∀ id ∈ r.valuePeeding.take limits, r.arrived id = true) :
    min limits r.arrivedNum = min limits r.valuePeeding.length := by
  have hle : r.arrivedNum ≤ r.valuePeeding.length :=
    (List.takeWhile_prefix r.arrived).length_le
  have hge : (r.valuePeeding.take limits).length ≤ r.arrivedNum := by
    have hsplit : (r.valuePeeding.take limits ++ r.valuePeeding.drop limits).takeWhile r.arrived =
        r.valuePeeding.take limits ++ (r.valuePeeding.drop limits).takeWhile r.arrived :=
      List.takeWhile_append_of_pos harrived
    rw [List.take_append_drop] at hsplit
    rw [Receiver.arrivedNum, hsplit, List.length_append]
    omega
  rw [List.length_take] at hge
  omega

/-- `read_log_value` makes honest progress exactly when the values of all the logs it asks
for have arrived. -/
theorem honestProgress_iff (limits : ℕ) (r : Receiver) (hmove : CanMove r) :
    HonestProgress limits r ↔ ∀ id ∈ r.valuePeeding.take limits, r.arrived id = true := by
  have hmove' : CanMove { r with phase := .value limits 0 } := ⟨hmove.alive, hmove.room⟩
  constructor
  · rintro ⟨r', hret, -⟩ id hid
    by_contra hmissing
    exact not_returns_of_missing hmove' rfl hid (Bool.not_eq_true _ ▸ hmissing) _ hret
  · intro harrived
    obtain ⟨r', hret, hnum, hexec, hpend⟩ := readsValues_of_arrived hmove' rfl harrived
    have hmin := min_arrivedNum harrived
    refine ⟨r', hret, ?_, ?_, ?_⟩
    · rw [hnum, hmin]
      simp
    · rw [hexec, hmin, ← List.take_eq_take_min]
      rfl
    · rw [hpend, hmin, ← List.drop_eq_drop_min]
      rfl

/-! ## Calls in runs -/

/-- Where `reader_thread` calls `read_log_value`, nothing is in `executing_queue`. -/
theorem QueueInv.canMove (h : QueueInv r) (hphase : r.phase = .keysRead) : CanMove r where
  alive := by
    have hc := h.cleaned_le
    have ho := h.obtained_le
    intro id hid
    rw [h.peeding_eq, List.mem_range'_1] at hid
    exact h.alive id (by omega) (by omega)
  room := by
    obtain ⟨htaken, hmoved⟩ : PhaseInv .keysRead _ _ _ := hphase ▸ h.phase_inv
    have hroom := h.room
    rw [h.executing_eq, h.peeding_eq, List.length_range', List.length_range']
    omega

/-- `reader_thread` is about to call `read_log_value`, and `arrived` says whether the
value of the first pending log is there. -/
def atCall (arrived : Bool) (s : State) : Bool :=
  (match (s 1).receiver.phase with
    | .keysRead => true
    | _ => false) &&
  (match (s 1).receiver.valuePeeding with
    | id :: _ => (s 1).receiver.arrived id == arrived
    | [] => false)

theorem atCall_spec {arrived : Bool} {s : State} (h : atCall arrived s = true) :
    (s 1).receiver.phase = .keysRead ∧ ∃ id rest, (s 1).receiver.valuePeeding = id :: rest ∧
      (s 1).receiver.arrived id = arrived := by
  unfold atCall at h
  rw [Bool.and_eq_true] at h
  constructor
  · cases hphase : (s 1).receiver.phase <;> simp_all
  · cases hq : (s 1).receiver.valuePeeding with
    | nil => simp [hq] at h
    | cons id rest =>
      rw [hq] at h
      exact ⟨id, rest, rfl, by simpa using h.2⟩

/-- One log is written and its key read. -/
def readKey : List Action :=
  [.reader 1 (.readLogKey 1024), .reader 1 .readLogKeyPass, .reader 1 .readLogKeyPass]

theorem honestProgress_iff_sentLog :
    ∃ s, Reachable (chainSystem 2 128) s ∧ HonestProgress 1 (s 1).receiver := by
  have hrun : (run (chainSystem 2 128) (fun _ _ => true) (freshChain 128)
      (writeLog shortLog 1 ++ forwardLog 0 1 ++ readKey)).any (atCall true) = true := by
    decide +kernel
  obtain ⟨s, -, hs, hcall⟩ := reach_of_run_any (fun _ _ _ => trivial) reach_freshChain hrun
  obtain ⟨hphase, id, rest, hq, harrived⟩ := atCall_spec hcall
  refine ⟨s, hs, (honestProgress_iff 1 _ ((queueInv_of_reach hs 0).canMove hphase)).mpr ?_⟩
  rw [hq]
  simpa using harrived

/-- The reader looks for the value of a log whose metadata alone has been written. -/
theorem not_honestProgress_unsentLog :
    ∃ s, Reachable (chainSystem 2 128) s ∧ CanMove (s 1).receiver ∧
      ¬ HonestProgress 1 (s 1).receiver := by
  have hrun : (run (chainSystem 2 128) (fun _ _ => true) (freshChain 128)
      (writeLog shortLog 1 ++ readKey)).any (atCall false) = true := by
    decide +kernel
  obtain ⟨s, -, hs, hcall⟩ := reach_of_run_any (fun _ _ _ => trivial) reach_freshChain hrun
  obtain ⟨hphase, id, rest, hq, hmissing⟩ := atCall_spec hcall
  have hmove := (queueInv_of_reach hs 0).canMove hphase
  refine ⟨s, hs, hmove, ?_⟩
  rintro ⟨r', hret, -⟩
  have hid : id ∈ (s 1).receiver.valuePeeding.take (1 - 0) := by
    rw [hq]
    exact List.mem_cons_self
  have hmove' : CanMove { (s 1).receiver with phase := .value 1 0 } := ⟨hmove.alive, hmove.room⟩
  exact not_returns_of_missing hmove' rfl hid hmissing _ hret

end RdmaMiddleware.Chain
