import RdmaMiddleware.MidHashmapRefinement
import RdmaMiddleware.TransitionSystem

/-!
# Runs of the hash table and its resizes

A state is a table with the memory that the last call saw; a step is one call.
`put` and `remove` change one bucket and then make at most one call of
`resetHashMap`. Twenty-five cells are the fewest whose double passes the
minimum-size test, so a table that starts with them never fills up.
-/
namespace RdmaMiddleware.TableRuns
open CInt MidHashmap TransitionSystem

variable {P V : Type*}

structure State (P V : Type*) where
  map : HashMap P V
  str : P → Str

/-- No stored key pointer has come to lead to another string since the last call. -/
def KeysStay (s : State P V) (c : Call P V) : Prop := ∀ p ∈ s.map.stored, c.str p = s.str p

section Definitions
variable [Inhabited V] (hash : Str → ℕ → ℕ)

/-- Every order of calls on a table that `createHashMap n` returned. -/
def tableSystem (depth : ℕ) (n : ℤ) : System (State P V) (Call P V) where
  init s := s.map = createHashMap n
  step s c := (applyCall hash depth s.map c).map (fun r => ⟨r.1, c.str⟩)

/-- The table when a call comes to its resize test. -/
def changed (m : HashMap P V) (c : Call P V) : HashMap P V :=
  match c.op with
  | .put key value => (putEntry hash c.str m key value).1
  | .remove key => (removeEntry hash c.str m (c.str key)).1
  | _ => m

/-- The argument of the call of `resetHashMap` that follows, if there is one. -/
def resetSize (m : HashMap P V) (c : Call P V) : Option ℤ :=
  match c.op with
  | .put key value =>
    let (m, added) := putEntry hash c.str m key value
    if added ∧ m.size ≥ m.listSize ∧ m.changeSize then some (cInt (m.listSize * 2)) else none
  | .remove key =>
    let (m, result) := removeEntry hash c.str m (c.str key)
    if result ∧ m.size < m.listSize / 2 ∧ m.changeSize then some (m.listSize / 2 : ℕ) else none
  | _ => none

/-- A put that fills the table can double the number of cells. -/
def DoublingFits (m : HashMap P V) (c : Call P V) : Prop :=
  ∀ key value, c.op = .put key value → m.listSize ≤ (changed hash m c).size →
    m.listSize * 2 < 2 ^ 31

/-- A resize of `m` to `n` cells with the outcome `m'`. -/
structure ResetsWell (str : P → Str) (m : HashMap P V) (n : ℤ) (m' : HashMap P V) : Prop where
  /-- The temporary array is filled exactly. -/
  collects : m.collect.length = m.size
  /-- No chain cell is left out. -/
  complete : ∀ i < m.listSize, ∀ e ∈ (m.hashList i).next, e ∈ m.collect
  /-- No put of the second loop calls `resetHashMap`. -/
  flat : ∀ depth es e rest, m.collect = es ++ e :: rest → ∃ m₁,
    es.foldlM (fun m e => defaultPut hash str (depth + 1) m e.key e.value) (cleared m n.toNat) =
      some m₁ ∧ resetSize hash m₁ ⟨str, .put e.key e.value⟩ = none
  returns : ∀ depth, resetHashMap (defaultPut hash str (depth + 1)) m n = some m'
  listSize : m'.listSize = n
  pairs : m'.collect.Perm m.collect
  size : m'.size = m.size

end Definitions

/-! ## One call -/

section Calls
variable [Inhabited V] {hash : Str → ℕ → ℕ} {m : HashMap P V} {c : Call P V}

/-- A call that does not come to `resetHashMap`. -/
theorem applyCall_changed (hreset : resetSize hash m c = none) (depth : ℕ) :
    (applyCall hash (depth + 1) m c).map Prod.fst = some (changed hash m c) := by
  obtain ⟨str, op⟩ := c
  cases op with
  | get key => rfl
  | «exists» key => rfl
  | put key value =>
    simp only [resetSize] at hreset
    simp only [applyCall, defaultPut, changed]
    split_ifs at hreset ⊢
    rfl
  | remove key =>
    simp only [resetSize] at hreset
    simp only [applyCall, defaultRemove, changed]
    cases hkey : (m.hashList (hash (str key) m.listSize)).key with
    | none => simp [removeEntry, Cell.remove, hkey]
    | some p =>
      dsimp only
      split_ifs at hreset ⊢
      rfl

/-- A call that does. -/
theorem applyCall_reset {n : ℤ} (hreset : resetSize hash m c = some n) {m' : HashMap P V}
    (hrun : ∀ depth,
      resetHashMap (defaultPut hash c.str (depth + 1)) (changed hash m c) n = some m')
    (depth : ℕ) : (applyCall hash (depth + 2) m c).map Prod.fst = some m' := by
  obtain ⟨str, op⟩ := c
  cases op with
  | get key => cases hreset
  | «exists» key => cases hreset
  | put key value =>
    simp only [resetSize] at hreset
    simp only [changed] at hrun
    simp only [applyCall]
    rw [defaultPut]
    dsimp only
    split_ifs at hreset ⊢
    obtain rfl := Option.some.inj hreset
    rw [hrun depth]
    rfl
  | remove key =>
    simp only [resetSize] at hreset
    simp only [changed] at hrun
    simp only [applyCall, defaultRemove]
    cases hkey : (m.hashList (hash (str key) m.listSize)).key with
    | none => simp [removeEntry, Cell.remove, hkey] at hreset
    | some p =>
      dsimp only
      split_ifs at hreset ⊢
      obtain rfl := Option.some.inj hreset
      rw [hrun (depth + 1)]
      rfl

variable (hhash : ∀ k n, 0 < n → hash k n < n)
include hhash

/-- Before the resize test a call keeps the table well formed and adds at most one entry. -/
theorem changed_spec (h : WellFormed hash c.str m) :
    WellFormed hash c.str (changed hash m c) ∧ (changed hash m c).listSize = m.listSize ∧
      (changed hash m c).size ≤ m.size + 1 := by
  obtain ⟨str, op⟩ := c
  dsimp only at h
  cases op with
  | get key => exact ⟨h, rfl, Nat.le_succ _⟩
  | «exists» key => exact ⟨h, rfl, Nat.le_succ _⟩
  | put key value =>
    obtain ⟨hw, hlist, -, -, hsize, -⟩ := putEntry_spec hhash h key value
    have hb := Bool.toNat_le (putEntry hash str m key value).2
    exact ⟨hw, hlist, by simp only [changed]; omega⟩
  | remove key =>
    obtain ⟨hw, hlist, -, -, hsize, -⟩ := removeEntry_spec hhash h (str key)
    exact ⟨hw, hlist, by simp only [changed]; omega⟩

/-- The new size leaves room for every entry. -/
theorem resetSize_room (h : WellFormed hash c.str m) (hbelow : m.size < m.listSize) {n : ℤ}
    (hreset : resetSize hash m c = some n) (hn : DEFAULT_MAP_SIZE ≤ n) :
    n < 2 ^ 31 ∧ (changed hash m c).size < n := by
  obtain ⟨hw, hlist, hsize⟩ := changed_spec hhash h
  have hlt := h.listSize_lt
  obtain ⟨str, op⟩ := c
  cases op with
  | get key => cases hreset
  | «exists» key => cases hreset
  | put key value =>
    simp only [resetSize] at hreset
    simp only [changed] at hlist hsize ⊢
    split_ifs at hreset
    obtain rfl := Option.some.inj hreset
    obtain ⟨heq, hdouble⟩ := double_of_pass (by omega) hn
    omega
  | remove key =>
    simp only [resetSize] at hreset
    simp only [changed] at hlist hsize ⊢
    split_ifs at hreset with htest
    have hn' := Option.some.inj hreset
    have hsmall := htest.2.1
    omega

/-- Where no resize takes place, the call leaves a cell to spare. -/
theorem changed_below (h : WellFormed hash c.str m) (hlarge : 25 ≤ m.listSize)
    (hbelow : m.size < m.listSize) (hfits : DoublingFits hash m c)
    (hreset : ∀ n, resetSize hash m c = some n → n < DEFAULT_MAP_SIZE) :
    (changed hash m c).size < m.listSize := by
  obtain ⟨str, op⟩ := c
  dsimp only at h
  cases op with
  | get key => exact hbelow
  | «exists» key => exact hbelow
  | put key value =>
    obtain ⟨hw, hlist, -, -, hsize, -⟩ := putEntry_spec hhash h key value
    have hdouble := hfits key value rfl
    simp only [resetSize] at hreset
    simp only [changed] at hdouble ⊢
    by_contra hfull
    have hdouble := hdouble (by omega)
    cases hadded : (putEntry hash str m key value).2 with
    | false =>
      rw [hadded, Bool.toNat_false] at hsize
      omega
    | true =>
      have htest := hreset _ (if_pos ⟨hadded, by omega, hw.changeSize⟩)
      rw [hlist, cInt_of_range (by omega) (by omega)] at htest
      unfold DEFAULT_MAP_SIZE at htest
      omega
  | remove key =>
    obtain ⟨-, -, -, -, hsize, -⟩ := removeEntry_spec hhash h (str key)
    simp only [changed]
    omega

/-- A put with a second cell to spare does not resize. -/
theorem resetSize_of_room {str : P → Str} (h : WellFormed hash str m)
    (hroom : m.size + 1 < m.listSize) (key : P) (value : V) :
    resetSize hash m ⟨str, .put key value⟩ = none := by
  obtain ⟨-, hlist, hsize⟩ := changed_spec (c := ⟨str, .put key value⟩) hhash h
  simp only [changed] at hlist hsize
  simp only [resetSize]
  rw [if_neg (by rintro ⟨-, hge, -⟩; omega)]

end Calls

/-! ## One resize -/

section Resizes
variable {hash : Str → ℕ → ℕ} {str : P → Str} {m : HashMap P V}

/-- Every cell of a chain that hangs on a filled head is collected. -/
theorem mem_collect_of_next (h : WellFormed hash str m) {i : ℕ} (hi : i < m.listSize)
    {e : Entry P V} (he : e ∈ (m.hashList i).next) : e ∈ m.collect := by
  cases hkey : (m.hashList i).key with
  | none =>
    rw [h.chain i hkey] at he
    cases he
  | some p =>
    refine mem_collect.mpr ⟨i, hi, ?_⟩
    rw [entries_of_key hkey]
    exact List.mem_cons_of_mem _ he

theorem resetsWell [Inhabited V] (hhash : ∀ k n, 0 < n → hash k n < n)
    (h : WellFormed hash str m) {n : ℤ} (hn : DEFAULT_MAP_SIZE ≤ n) (hn' : n < 2 ^ 31)
    (hroom : m.size < n) : ∃ m', WellFormed hash str m' ∧ ResetsWell hash str m n m' := by
  lift n to ℕ using by unfold DEFAULT_MAP_SIZE at hn; omega
  have hpos : 0 < n := by unfold DEFAULT_MAP_SIZE at hn; omega
  have hsize := h.size_eq
  obtain ⟨m', hreturns, hw', hlist', hperm⟩ :=
    resetHashMap_spec hhash h n hn (by omega) (by omega)
  refine ⟨m', hw', hsize.symm, fun i hi e he => mem_collect_of_next h hi he, ?_, hreturns,
    by rw [hlist'], hperm, by rw [hsize, hw'.size_eq, hperm.length_eq]⟩
  intro depth es e rest hcollect
  have hlen : es.length + 1 ≤ m.size := by
    rw [hsize, hcollect, List.length_append, List.length_cons]
    omega
  have hsub : es.Sublist m.collect := hcollect ▸ List.sublist_append_left es _
  -- the table when `e` is put back holds what was put back before it
  obtain ⟨hw, hlist, hall, hrun⟩ := reinsert_spec hhash es (h.cleared hpos (by omega))
    ((hsub.map _).nodup h.nodup_collect) (fun _ _ => rfl)
  rw [collect_cleared, List.append_nil] at hall
  rw [cleared_listSize] at hlist
  rw [Int.toNat_natCast]
  refine ⟨reinsert hash str (cleared m n) es, hrun ?_ depth, ?_⟩
  · rw [cleared_size, cleared_listSize]
    omega
  · apply resetSize_of_room hhash hw
    rw [hw.size_eq, hall.length_eq, hlist]
    omega

end Resizes

/-! ## Runs -/

section Runs
variable [Inhabited V] {hash : Str → ℕ → ℕ}

/-- What a table of at least 25 cells keeps. -/
structure Spacious (hash : Str → ℕ → ℕ) (str : P → Str) (m : HashMap P V) : Prop where
  wellFormed : WellFormed hash str m
  large : 25 ≤ m.listSize
  below : m.size < m.listSize

/-- One call: it returns, a resize on the way is well behaved, and as long as doubling fits the
table stays spacious. -/
theorem step_spec (hhash : ∀ k n, 0 < n → hash k n < n) (depth : ℕ) {m : HashMap P V}
    {c : Call P V} (h : Spacious hash c.str m) :
    ∃ m', (applyCall hash (depth + 2) m c).map Prod.fst = some m' ∧
      (DoublingFits hash m c → Spacious hash c.str m') ∧
      ∀ n, resetSize hash m c = some n → DEFAULT_MAP_SIZE ≤ n →
        ResetsWell hash c.str (changed hash m c) n m' := by
  obtain ⟨hw, hlist, hsize⟩ := changed_spec hhash h.wellFormed
  have hkeep (hsmall : ∀ n, resetSize hash m c = some n → n < DEFAULT_MAP_SIZE)
      (hfits : DoublingFits hash m c) : Spacious hash c.str (changed hash m c) := by
    have hbelow := changed_below hhash h.wellFormed h.large h.below hfits hsmall
    exact ⟨hw, hlist ▸ h.large, by rwa [hlist]⟩
  cases hreset : resetSize hash m c with
  | none =>
    refine ⟨changed hash m c, applyCall_changed hreset (depth + 1), hkeep ?_, ?_⟩
    · simp [hreset]
    · simp
  | some n =>
    by_cases hn : DEFAULT_MAP_SIZE ≤ n
    · obtain ⟨hlt, hroom⟩ := resetSize_room hhash h.wellFormed h.below hreset hn
      obtain ⟨m', hw', hwell⟩ := resetsWell hhash hw hn hlt hroom
      refine ⟨m', applyCall_reset hreset hwell.returns depth, fun _ => ?_, ?_⟩
      · have hlist' := hwell.listSize
        have hsize' := hwell.size
        unfold DEFAULT_MAP_SIZE at hn
        exact ⟨hw', by omega, by omega⟩
      · rintro _ ⟨⟩ _
        exact hwell
    · rw [not_le] at hn
      have hreturn (depth : ℕ) :
          resetHashMap (defaultPut hash c.str (depth + 1)) (changed hash m c) n =
            some (changed hash m c) := by
        rw [resetHashMap, if_pos hn]
      refine ⟨changed hash m c, applyCall_reset hreset hreturn depth, hkeep ?_, ?_⟩
      · rintro _ hn'
        rw [hreset] at hn'
        cases hn'
        exact hn
      · rintro _ ⟨⟩ hn'
        omega

omit [Inhabited V] in
theorem Spacious.congr (hhash : ∀ k n, 0 < n → hash k n < n) {s : State P V} {c : Call P V}
    (h : Spacious hash s.str s.map) (hkeys : KeysStay s c) : Spacious hash c.str s.map :=
  ⟨(h.wellFormed.congr hhash hkeys).1, h.large, h.below⟩

theorem spacious_createHashMap {n : ℤ} (hn : 25 ≤ n) (hn' : n < 2 ^ 31) (str : P → Str) :
    Spacious hash str (createHashMap n : HashMap P V) := by
  obtain ⟨hw, -, -⟩ : WellFormed hash str (createHashMap n : HashMap P V) ∧ _ :=
    createHashMap_spec (by omega) hn'
  have hlist : (createHashMap n : HashMap P V).listSize = n.toNat := by
    simp only [createHashMap]
    rw [if_neg (by omega)]
  have hsize : (createHashMap n : HashMap P V).size = 0 := rfl
  exact ⟨hw, by omega, by omega⟩

theorem step_eq {depth : ℕ} {n : ℤ} {s : State P V} {c : Call P V} {m' : HashMap P V}
    (h : (applyCall hash depth s.map c).map Prod.fst = some m') :
    (tableSystem hash depth n).step s c = some ⟨m', c.str⟩ := by
  obtain ⟨r, hrun, rfl⟩ := Option.map_eq_some_iff.mp h
  simp [tableSystem, hrun]

/-- The conditioned runs, by induction on the calls. -/
theorem spacious_of_reach (hhash : ∀ k n, 0 < n → hash k n < n) {depth : ℕ} {n : ℤ} (hn : 25 ≤ n)
    (hn' : n < 2 ^ 31) {s : State P V}
    (h : Reach (tableSystem hash (depth + 2) n)
      (fun s c => KeysStay s c ∧ DoublingFits hash s.map c) s) :
    Spacious hash s.str s.map := by
  refine h.invariant (P := fun s => Spacious hash s.str s.map) ?_ ?_
  · intro s hs
    rw [show s.map = createHashMap n from hs]
    exact spacious_createHashMap hn hn' s.str
  · rintro s c t hs ⟨hkeys, hfits⟩ ht
    obtain ⟨m', hrun, hkeep, -⟩ := step_spec hhash depth (hs.congr hhash hkeys)
    rw [step_eq hrun] at ht
    cases ht
    exact hkeep hfits

/-- A table created with at least 25 cells never fills up, and every resize that passes its
minimum-size test collects all entries and puts them back without a nested one. -/
theorem resizes_wellBehaved (hash : Str → ℕ → ℕ) (hhash : ∀ k n, 0 < n → hash k n < n)
    (depth : ℕ) {n : ℤ} (hn : 25 ≤ n) (hn' : n < 2 ^ 31) {s : State P V}
    (h : Reach (tableSystem hash (depth + 2) n)
      (fun s c => KeysStay s c ∧ DoublingFits hash s.map c) s) :
    s.map.size < s.map.listSize ∧
      ∀ c, KeysStay s c → ∃ t, (tableSystem hash (depth + 2) n).step s c = some t ∧
        ∀ k, resetSize hash s.map c = some k → DEFAULT_MAP_SIZE ≤ k →
          ResetsWell hash c.str (changed hash s.map c) k t.map := by
  have hs := spacious_of_reach hhash hn hn' h
  refine ⟨hs.below, fun c hkeys => ?_⟩
  obtain ⟨m', hrun, -, hwell⟩ := step_spec hhash depth (hs.congr hhash hkeys)
  exact ⟨⟨m', c.str⟩, step_eq hrun, hwell⟩

/-- Pointers to the strings of one letter. -/
def letter {n : ℕ} (p : Fin n) : Str := [97 + p.val.toUInt8]

/-- The put that fills a table of 25 cells. -/
theorem resizes_wellBehaved_growth :
    ∃ s t : State (Fin 25) ℕ, s.map.size = 24 ∧ s.map.listSize = 25 ∧
      (tableSystem defaultHashCode 2 25).step s ⟨letter, .put 24 0⟩ = some t ∧
      ResetsWell defaultHashCode letter (changed defaultHashCode s.map ⟨letter, .put 24 0⟩) 50
        t.map := by
  have htest (s : State (Fin 25) ℕ) (c : Call (Fin 25) ℕ) :
      decide ((∀ p, c.str p = s.str p) ∧ s.map.listSize * 2 < 2 ^ 31) = true →
        KeysStay s c ∧ DoublingFits defaultHashCode s.map c := by
    intro h
    obtain ⟨hkeys, hfits⟩ := of_decide_eq_true h
    exact ⟨fun p _ => hkeys p, fun _ _ _ _ => hfits⟩
  have hrun : (run (tableSystem defaultHashCode 2 25)
      (fun s c => decide ((∀ p, c.str p = s.str p) ∧ s.map.listSize * 2 < 2 ^ 31))
      ⟨createHashMap 25, letter⟩
      ((List.finRange 24).map (fun p => ⟨letter, .put p.castSucc p.val⟩))).any
      (fun s => decide (s.map.size = 24 ∧ s.map.listSize = 25 ∧ (∀ p, letter p = s.str p) ∧
        resetSize defaultHashCode s.map ⟨letter, .put 24 0⟩ = some 50)) = true := by
    decide +kernel
  obtain ⟨s, -, hreach, hcheck⟩ := reach_of_run_any htest (.start rfl) hrun
  obtain ⟨hsize, hlist, hkeys, hreset⟩ := of_decide_eq_true hcheck
  obtain ⟨-, hcalls⟩ := resizes_wellBehaved defaultHashCode defaultHashCode_lt 0 (by decide)
    (by decide) hreach
  obtain ⟨t, hstep, hwell⟩ := hcalls ⟨letter, .put 24 0⟩ (fun p _ => hkeys p)
  exact ⟨s, t, hsize, hlist, hstep, hwell 50 hreset (by decide)⟩

end Runs

end RdmaMiddleware.TableRuns
