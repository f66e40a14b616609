import RdmaMiddleware.TableRuns

/-!
# What remove reports

`defaultRemove` reads the pointer that it returns off the head cell, before it
searches the chain. Where the head has the key this is the pointer of the entry it
unlinks. Where another entry stands there, that entry is named instead, also when
the key is not in the table at all.
-/
namespace RdmaMiddleware.TableRuns
open MidHashmap TransitionSystem

variable {P V : Type*}

/-- An answer `r` that tells what a `remove` of `k` took out of `m`, leaving `m'`. -/
structure Reports (str : P → Str) (m : HashMap P V) (k : Str) (r : Option P)
    (m' : HashMap P V) : Prop where
  null : r = none ↔ k ∉ strings str m.collect
  key : ∀ p, r = some p → str p = k
  unlinked : ∀ p, r = some p → ∃ v, m.collect.Perm (⟨p, v⟩ :: m'.collect)

/-! ## The head of a bucket -/

section Heads
variable [Inhabited V] {hash : Str → ℕ → ℕ} {str : P → Str} {m : HashMap P V} {k : Str} {p : P}

/-- A head with the key is the entry that `remove` takes out, whatever follows it. -/
theorem entries_remove_head {c : Cell P V} (hkey : c.key = some p) (hp : str p = k) :
    c.entries = ⟨p, c.value⟩ :: (c.remove str k).1.entries := by
  rw [entries_of_key hkey]
  cases hnext : c.next with
  | nil => simp [Cell.remove, hkey, hp, hnext, Cell.entries]
  | cons e rest => simp [Cell.remove, hkey, hp, hnext, Cell.entries]

theorem removeEntry_head (hi : hash k m.listSize < m.listSize)
    (hkey : (m.hashList (hash k m.listSize)).key = some p) (hp : str p = k) :
    ∃ v, m.collect.Perm (⟨p, v⟩ :: (removeEntry hash str m k).1.collect) := by
  obtain ⟨before, behind, hold, hnew⟩ := collect_split hi
  refine ⟨(m.hashList (hash k m.listSize)).value, ?_⟩
  simp only [removeEntry]
  rw [hold, hnew, entries_remove_head hkey hp, List.append_assoc, List.append_assoc]
  exact List.perm_middle

/-- One call of `remove` on a well-formed table. -/
theorem defaultRemove_reports (hhash : ∀ k n, 0 < n → hash k n < n) (depth : ℕ)
    (h : WellFormed hash str m) (hr : Roomy m) (k : Str) :
    ∃ r m', defaultRemove hash str (depth + 1) m k = some (r, m') ∧
      (Reports str m k r m' ↔
        ∀ p, (m.hashList (hash k m.listSize)).key = some p → str p = k) := by
  obtain ⟨m', hrun, -, -, hperm⟩ := defaultRemove_perm hhash depth h hr k
  refine ⟨_, m', hrun, fun hrep => hrep.key, fun hhead => ⟨?_, hhead, fun p hp => ?_⟩⟩
  · rw [← lookup_eq_none, h.lookup_collect hhash, find]
    cases hkey : (m.hashList (hash k m.listSize)).key with
    | none => simp [entries_of_null hkey]
    | some p => simp [entries_of_key hkey, hhead p hkey]
  · obtain ⟨v, hunlink⟩ := removeEntry_head (hhash k _ h.listSize_pos) hp (hhead p hp)
    exact ⟨v, hunlink.trans (hperm.symm.cons _)⟩

end Heads

/-! ## Runs -/

section Runs
variable [Inhabited V] {hash : Str → ℕ → ℕ}

/-- The table of a run and a finite map stay related, by induction on the calls. -/
theorem refines_of_reach (hhash : ∀ k n, 0 < n → hash k n < n) {depth : ℕ} {n : ℤ}
    (hn : n = -1 ∨ 1 ≤ n) (hn' : n < 2 ^ 31) {s : State P V}
    (h : Reach (tableSystem hash (depth + 2) n) KeysStay s) :
    ∃ A : AbsMap V, Refines hash s.str s.map A := by
  refine h.invariant (P := fun s => ∃ A : AbsMap V, Refines hash s.str s.map A) ?_ ?_
  · intro s hs
    rw [show s.map = createHashMap n from hs]
    rcases hn with rfl | hn
    · exact ⟨∅, refines_createHashMap (n := DEFAULT_MAP_SIZE) (by decide) (by decide) s.str⟩
    · exact ⟨∅, refines_createHashMap hn hn' s.str⟩
  · rintro s c t ⟨A, hs⟩ hkeys ht
    obtain ⟨m', hrun, hm'⟩ := (hs.congr hhash hkeys).applyCall hhash depth
    rw [step_eq (congrArg (Option.map Prod.fst) hrun)] at ht
    cases ht
    exact ⟨_, hm'⟩

/-- On a table of any run, `remove` reports what it removed exactly if the bucket of the key
is empty or begins with an entry that has the key. -/
theorem reports_iff_head (hash : Str → ℕ → ℕ) (hhash : ∀ k n, 0 < n → hash k n < n) (depth : ℕ)
    {n : ℤ} (hn : n = -1 ∨ 1 ≤ n) (hn' : n < 2 ^ 31) {s : State P V}
    (h : Reach (tableSystem hash (depth + 2) n) KeysStay s) {str : P → Str}
    (hkeys : ∀ p ∈ s.map.stored, str p = s.str p) (k : Str) :
    ∃ r m', defaultRemove hash str (depth + 2) s.map k = some (r, m') ∧
      (Reports str s.map k r m' ↔
        ∀ p, (s.map.hashList (hash k s.map.listSize)).key = some p → str p = k) := by
  obtain ⟨A, hs⟩ := refines_of_reach hhash hn hn' h
  have hs' := hs.congr hhash hkeys
  exact defaultRemove_reports hhash (depth + 1) hs'.wellFormed hs'.roomy k

/-- A one-cell table in which `b` hangs behind `a`. -/
theorem chained_reach :
    ∃ s : State (Fin 3) ℕ, Reach (tableSystem defaultHashCode 2 1) KeysStay s ∧
      (∀ p, letter p = s.str p) ∧ s.map.collect = [⟨0, 5⟩, ⟨1, 6⟩] ∧
      (s.map.hashList (defaultHashCode [97] s.map.listSize)).key = some 0 ∧
      ∀ k ∈ [[98], [99]],
        (defaultRemove defaultHashCode letter 2 s.map k).map Prod.fst = some (some 0) := by
  have htest (s : State (Fin 3) ℕ) (c : Call (Fin 3) ℕ) :
      decide (∀ p, c.str p = s.str p) = true → KeysStay s c :=
    fun h p _ => of_decide_eq_true h p
  have hrun : (run (tableSystem (P := Fin 3) (V := ℕ) defaultHashCode 2 1)
      (fun s c => decide (∀ p, c.str p = s.str p))
      ⟨createHashMap 1, letter⟩ [⟨letter, .put 0 5⟩, ⟨letter, .put 1 6⟩]).any
      (fun s => decide ((∀ p, letter p = s.str p) ∧ s.map.collect = [⟨0, 5⟩, ⟨1, 6⟩] ∧
        (s.map.hashList (defaultHashCode [97] s.map.listSize)).key = some 0 ∧
        ∀ k ∈ [[98], [99]],
          (defaultRemove defaultHashCode letter 2 s.map k).map Prod.fst = some (some 0))) =
      true := by
    decide +kernel
  obtain ⟨s, -, hreach, hcheck⟩ := reach_of_run_any htest (.start rfl) hrun
  exact ⟨s, hreach, of_decide_eq_true hcheck⟩

/-- Removing the head `a`. -/
theorem reports_iff_head_chained :
    ∃ s : State (Fin 3) ℕ, s.map.collect = [⟨0, 5⟩, ⟨1, 6⟩] ∧
      ∃ r m', defaultRemove defaultHashCode letter 2 s.map [97] = some (r, m') ∧
        Reports letter s.map [97] r m' := by
  obtain ⟨s, hreach, hkeys, hcollect, hhead, -⟩ := chained_reach
  obtain ⟨r, m', hrun, hrep⟩ := reports_iff_head defaultHashCode defaultHashCode_lt 0
    (.inr (by decide)) (by decide) hreach (fun p _ => hkeys p) [97]
  refine ⟨s, hcollect, r, m', hrun, hrep.mpr fun p hp => ?_⟩
  rw [hhead] at hp
  cases hp
  rfl

/-- Removing `b` from it, or `c`, which it does not hold, is answered with `a`. -/
theorem not_reports_chained :
    ∃ s : State (Fin 3) ℕ, Reach (tableSystem defaultHashCode 2 1) KeysStay s ∧
      s.map.collect = [⟨0, 5⟩, ⟨1, 6⟩] ∧
      ∀ k ∈ [[98], [99]], ∃ m',
        defaultRemove defaultHashCode letter 2 s.map k = some (some 0, m') ∧
          ¬ Reports letter s.map k (some 0) m' := by
  obtain ⟨s, hreach, -, hcollect, -, hrun⟩ := chained_reach
  refine ⟨s, hreach, hcollect, fun k hk => ?_⟩
  obtain ⟨⟨r, m'⟩, hremove, rfl⟩ := Option.map_eq_some_iff.mp (hrun k hk)
  refine ⟨m', hremove, fun hrep => ?_⟩
  rw [← hrep.key 0 rfl] at hk
  revert hk
  decide

end Runs

end RdmaMiddleware.TableRuns
