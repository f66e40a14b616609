import Mathlib.Data.List.Chain
import Mathlib.Data.List.Nodup
import Mathlib.Logic.Function.Basic

/-!
# Intrusive lists

The nodes of a list are linked through fields of their own: in a circle with a head, both
ways, or from a one-pointer head, each node knowing the place that points to it. An
operation is the list of the single stores it makes, so that it can be run store by store.
-/
namespace RdmaMiddleware.LinkedLists

/-! ## Circular lists -/

/-- The two link fields of every node. -/
structure Links (ν : Type*) where
  next : ν → ν
  prev : ν → ν

/-- One assignment to a link field. -/
inductive Store (ν : Type*)
  | next (x y : ν)
  | prev (x y : ν)
  deriving DecidableEq

/-- The node whose field is assigned. -/
def Store.target {ν : Type*} : Store ν → ν
  | .next x _ | .prev x _ => x

section Circular
variable {ν : Type*} [DecidableEq ν]

def Store.apply (m : Links ν) : Store ν → Links ν
  | .next x y => { m with next := Function.update m.next x y }
  | .prev x y => { m with prev := Function.update m.prev x y }

def applyAll (m : Links ν) (stores : List (Store ν)) : Links ν := stores.foldl Store.apply m

def insertStores (new prev next : ν) : List (Store ν) :=
  [.prev next new, .next new next, .prev new prev, .next prev new]

/-- Insertion before the head. -/
def addTailStores (m : Links ν) (new head : ν) : List (Store ν) :=
  insertStores new (m.prev head) head

/-- Removal; the links of the node removed are poisoned. -/
def delStores (poison1 poison2 : ν) (m : Links ν) (entry : ν) : List (Store ν) :=
  [.prev (m.next entry) (m.prev entry), .next (m.prev entry) (m.next entry),
    .next entry poison1, .prev entry poison2]

def isEmpty (m : Links ν) (head : ν) : Bool := m.next head = head

/-- `y` follows `x`. -/
def Links.Points (m : Links ν) (x y : ν) : Prop := m.next x = y ∧ m.prev y = x

/-- From `head` through `xs` and back. -/
structure Ring (m : Links ν) (head : ν) (xs : List ν) : Prop where
  chain : (head :: xs ++ [head]).IsChain m.Points
  nodup : (head :: xs).Nodup

variable {m m' : Links ν} {head new x : ν} {xs as bs : List ν}

omit [DecidableEq ν] in
theorem ne_getLast_of_mem_dropLast {l : List ν} (hl : l ≠ []) (hnodup : l.Nodup) {y : ν}
    (hy : y ∈ l.dropLast) : y ≠ l.getLast hl := by
  rw [← List.dropLast_append_getLast hl, List.nodup_append] at hnodup
  exact hnodup.2.2 y hy _ (List.mem_singleton_self _)

omit [DecidableEq ν] in
theorem ne_head_of_mem_tail {l : List ν} (hl : l ≠ []) (hnodup : l.Nodup) {y : ν}
    (hy : y ∈ l.tail) : y ≠ l.head hl := by
  rw [← List.cons_head_tail hl, List.nodup_cons] at hnodup
  exact fun heq => hnodup.1 (heq ▸ hy)

omit [DecidableEq ν] in
/-- A chain reads the `next` of all its nodes but the last and the `prev` of all but the
first. -/
theorem isChain_transport {l : List ν} (h : l.IsChain m.Points)
    (hnext : ∀ x ∈ l.dropLast, m'.next x = m.next x) (hprev : ∀ y ∈ l.tail, m'.prev y = m.prev y) :
    l.IsChain m'.Points := by
  induction l with
  | nil => exact List.isChain_nil
  | cons x l ih =>
    cases l with
    | nil => exact List.isChain_singleton x
    | cons y l =>
      obtain ⟨hxy, hrest⟩ := List.isChain_cons_cons.mp h
      refine List.isChain_cons_cons.mpr ⟨⟨?_, ?_⟩, ih hrest ?_ ?_⟩
      · rw [hnext x (by simp)]
        exact hxy.1
      · rw [hprev y (by simp)]
        exact hxy.2
      · exact fun z hz => hnext z (by simp [hz])
      · exact fun z hz => hprev z (by simp [List.mem_of_mem_tail hz])

omit [DecidableEq ν] in
theorem Ring.next_head (h : Ring m head xs) : m.next head = xs.headD head := by
  have hchain := h.chain
  cases xs with
  | nil => exact (List.isChain_cons_cons.mp hchain).1.1
  | cons x xs => exact (List.isChain_cons_cons.mp hchain).1.1

omit [DecidableEq ν] in
theorem Ring.prev_head (h : Ring m head xs) :
    m.prev head = (head :: xs).getLast (List.cons_ne_nil _ _) := by
  have hseam := (List.isChain_append.mp h.chain).2.2
  exact (hseam _ (List.getLast?_eq_some_getLast (List.cons_ne_nil _ _)) head rfl).2

theorem isEmpty_iff (h : Ring m head xs) : isEmpty m head = true ↔ xs = [] := by
  rw [isEmpty, decide_eq_true_eq, h.next_head]
  cases xs with
  | nil => simp
  | cons x xs =>
    have hne : x ≠ head := fun heq => (List.nodup_cons.mp h.nodup).1 (by simp [heq])
    simp [hne]

/-- A new node comes last. -/
theorem Ring.addTail (h : Ring m head xs) (hnew : new ∉ head :: xs) :
    Ring (applyAll m (addTailStores m new head)) head (xs ++ [new]) := by
  obtain ⟨hleft, -, -⟩ := List.isChain_append.mp h.chain
  obtain ⟨hhead, hxs⟩ := List.nodup_cons.mp h.nodup
  obtain ⟨hne, hmem⟩ : new ≠ head ∧ new ∉ xs := by simpa using hnew
  have hlast : m.prev head ∈ head :: xs := h.prev_head ▸ List.getLast_mem _
  have hnewlast : new ≠ m.prev head := fun heq => hnew (heq ▸ hlast)
  have hold : (head :: xs).IsChain (applyAll m (addTailStores m new head)).Points := by
    refine isChain_transport hleft ?_ ?_
    · intro y hy
      have hylast : y ≠ m.prev head :=
        h.prev_head ▸ ne_getLast_of_mem_dropLast (List.cons_ne_nil _ _) h.nodup hy
      have hynew : y ≠ new := fun heq => hnew (heq ▸ List.dropLast_subset _ hy)
      simp [applyAll, addTailStores, insertStores, Store.apply, hylast, hynew]
    · intro y hy
      have hyhead : y ≠ head := fun heq => hhead (heq ▸ hy)
      have hynew : y ≠ new := fun heq => hmem (heq ▸ hy)
      simp [applyAll, addTailStores, insertStores, Store.apply, hyhead, hynew]
  refine ⟨?_, ?_⟩
  · rw [← List.cons_append, List.append_assoc, List.isChain_append]
    refine ⟨hold, ?_, ?_⟩
    · refine List.isChain_cons_cons.mpr ⟨⟨?_, ?_⟩, List.isChain_singleton _⟩
      · simp [applyAll, addTailStores, insertStores, Store.apply, hnewlast]
      · simp [applyAll, addTailStores, insertStores, Store.apply, hne.symm]
    · intro y hy z hz
      obtain rfl : new = z := by simpa using hz
      obtain rfl : m.prev head = y := by
        rw [List.getLast?_eq_some_getLast (List.cons_ne_nil _ _), ← h.prev_head] at hy
        exact Option.some.inj hy
      constructor
      · simp [applyAll, addTailStores, insertStores, Store.apply]
      · simp [applyAll, addTailStores, insertStores, Store.apply]
  · rw [← List.cons_append, List.nodup_append]
    exact ⟨h.nodup, List.nodup_singleton _, fun y hy z hz heq =>
      hnew (by rw [← List.mem_singleton.mp hz, ← heq]; exact hy)⟩

omit [DecidableEq ν] in
/-- The neighbours of a node. -/
theorem Ring.neighbours (h : Ring m head (as ++ x :: bs)) :
    m.prev x = (head :: as).getLast (List.cons_ne_nil _ _) ∧
      m.next x = (bs ++ [head]).head (by simp) := by
  have hsplit : head :: (as ++ x :: bs) ++ [head] = (head :: as) ++ x :: (bs ++ [head]) := by simp
  have hchain := h.chain
  rw [hsplit] at hchain
  obtain ⟨-, hright, hseam⟩ := List.isChain_append.mp hchain
  refine ⟨?_, ?_⟩
  · exact (hseam _ (List.getLast?_eq_some_getLast (List.cons_ne_nil _ _)) x rfl).2
  · obtain ⟨hpair, -⟩ := List.isChain_cons.mp hright
    exact (hpair _ (List.head?_eq_some_head (by simp))).1

/-- Removal leaves the others in their order. -/
theorem Ring.del (poison1 poison2 : ν) (h : Ring m head (as ++ x :: bs)) :
    Ring (applyAll m (delStores poison1 poison2 m x)) head (as ++ bs) := by
  obtain ⟨hprev, hnext⟩ := h.neighbours
  have hsplit : head :: (as ++ x :: bs) ++ [head] = (head :: as) ++ x :: (bs ++ [head]) := by simp
  have hchain := h.chain
  rw [hsplit] at hchain
  obtain ⟨hleft, hright, -⟩ := List.isChain_append.mp hchain
  have hnodup := h.nodup
  rw [← List.cons_append, List.nodup_append] at hnodup
  obtain ⟨hasn, hbsn, hdisj⟩ := hnodup
  obtain ⟨hxbs, hbs⟩ := List.nodup_cons.mp hbsn
  have hxas : x ∉ head :: as := fun hx => hdisj x hx x List.mem_cons_self rfl
  have hprevmem : m.prev x ∈ head :: as := hprev ▸ List.getLast_mem _
  have hnextmem : m.next x ∈ bs ++ [head] := hnext ▸ List.head_mem _
  have hxprev : x ≠ m.prev x := fun heq => hxas (heq ▸ hprevmem)
  have hxhead : x ≠ head := fun heq => hxas (heq ▸ List.mem_cons_self)
  have hxnext : x ≠ m.next x := by
    intro heq
    have hmem : x ∈ bs ++ [head] := heq ▸ hnextmem
    simp [hxbs, hxhead] at hmem
  have hhead : head ∉ bs := fun hmem =>
    hdisj head List.mem_cons_self head (List.mem_cons_of_mem _ hmem) rfl
  have hclosed : (bs ++ [head]).Nodup := List.nodup_append.mpr ⟨hbs, List.nodup_singleton _,
    fun a ha b hb hab => hhead (List.mem_singleton.mp hb ▸ hab ▸ ha)⟩
  have hfront : (head :: as).IsChain (applyAll m (delStores poison1 poison2 m x)).Points := by
    refine isChain_transport hleft ?_ ?_
    · intro y hy
      have hyprev : y ≠ m.prev x :=
        hprev ▸ ne_getLast_of_mem_dropLast (List.cons_ne_nil _ _) hasn hy
      have hyx : y ≠ x := fun heq => hxas (heq ▸ List.dropLast_subset _ hy)
      simp [applyAll, delStores, Store.apply, hyprev, hyx]
    · intro y hy
      have hy : y ∈ as := hy
      have hyx : y ≠ x := fun heq => hxas (heq ▸ List.mem_cons_of_mem _ hy)
      have hynext : y ≠ m.next x := by
        intro heq
        rcases List.mem_append.mp (heq ▸ hnextmem) with hmem | hmem
        · exact hdisj y (List.mem_cons_of_mem _ hy) y (List.mem_cons_of_mem _ hmem) rfl
        · exact (List.nodup_cons.mp hasn).1 (List.mem_singleton.mp hmem ▸ hy)
      simp [applyAll, delStores, Store.apply, hynext, hyx]
  have hback : (bs ++ [head]).IsChain (applyAll m (delStores poison1 poison2 m x)).Points := by
    refine isChain_transport (List.IsChain.tail hright) ?_ ?_
    · intro y hy
      rw [List.dropLast_concat] at hy
      have hyx : y ≠ x := fun heq => hxbs (heq ▸ hy)
      have hyprev : y ≠ m.prev x := fun heq =>
        hdisj y (heq ▸ hprevmem) y (List.mem_cons_of_mem _ hy) rfl
      simp [applyAll, delStores, Store.apply, hyprev, hyx]
    · intro y hy
      have hmem : y ∈ bs ++ [head] := List.mem_of_mem_tail hy
      have hyx : y ≠ x := by
        rintro rfl
        simp [hxbs, hxhead] at hmem
      have hynext : y ≠ m.next x := hnext ▸ ne_head_of_mem_tail (by simp) hclosed hy
      simp [applyAll, delStores, Store.apply, hynext, hyx]
  refine ⟨?_, ?_⟩
  · rw [← List.cons_append, List.append_assoc, List.isChain_append]
    refine ⟨hfront, hback, ?_⟩
    intro y hy z hz
    rw [List.getLast?_eq_some_getLast (List.cons_ne_nil _ _), ← hprev] at hy
    rw [List.head?_eq_some_head (by simp), ← hnext] at hz
    obtain rfl : m.prev x = y := Option.some.inj hy
    obtain rfl : m.next x = z := Option.some.inj hz
    constructor
    · simp [applyAll, delStores, Store.apply, hxprev.symm]
    · simp [applyAll, delStores, Store.apply, hxnext.symm]
  · rw [← List.cons_append, List.nodup_append]
    exact ⟨hasn, hbs, fun a ha b hb hab => hdisj a ha b (List.mem_cons_of_mem _ hb) hab⟩

omit [DecidableEq ν] in
/-- An insertion assigns only to the circle and the new node. -/
theorem Ring.target_addTail (h : Ring m head xs) {s : Store ν}
    (hs : s ∈ addTailStores m new head) : s.target ∈ new :: head :: xs := by
  have hlast : m.prev head ∈ head :: xs := h.prev_head ▸ List.getLast_mem _
  simp only [addTailStores, insertStores, List.mem_cons, List.not_mem_nil, or_false] at hs
  rcases hs with rfl | rfl | rfl | rfl
  · simp [Store.target]
  · simp [Store.target]
  · simp [Store.target]
  · exact List.mem_cons_of_mem _ hlast

omit [DecidableEq ν] in
/-- A removal assigns only to the circle. -/
theorem Ring.target_del {poison1 poison2 : ν} (h : Ring m head (as ++ x :: bs)) {s : Store ν}
    (hs : s ∈ delStores poison1 poison2 m x) : s.target ∈ head :: (as ++ x :: bs) := by
  obtain ⟨hprev, hnext⟩ := h.neighbours
  have hprevmem : m.prev x ∈ head :: as := hprev ▸ List.getLast_mem _
  have hnextmem : m.next x ∈ bs ++ [head] := hnext ▸ List.head_mem _
  simp only [delStores, List.mem_cons, List.not_mem_nil, or_false] at hs
  rcases hs with rfl | rfl | rfl | rfl
  · simp only [Store.target]
    rcases List.mem_append.mp hnextmem with hmem | hmem
    · simp [hmem]
    · simp [List.mem_singleton.mp hmem]
  · simp only [Store.target]
    rcases List.mem_cons.mp hprevmem with hmem | hmem
    · simp [hmem]
    · simp [hmem]
  · simp [Store.target]
  · simp [Store.target]

end Circular

end RdmaMiddleware.LinkedLists
