import RdmaMiddleware.MidHashmap
import Mathlib.Data.Finmap

/-!
# The hash table refines a finite map

The abstract value of a table is the partial function `find` from strings to
values. An entry sits in the bucket its string hashes to, the strings of a bucket
are distinct, and `size` counts the entries. `Roomy` is what keeps a resize from
nesting: whenever the table can still grow, it holds fewer entries than cells.
-/
namespace RdmaMiddleware.MidHashmap
open CInt

variable {P V : Type*}

/-! ## Chains -/

/-- The value of the first entry of a chain with the key. -/
def lookup (str : P → Str) (k : Str) (es : List (Entry P V)) : Option V :=
  (es.find? (fun e => str e.key = k)).map (·.value)

/-- The strings behind the keys of a chain. -/
def strings (str : P → Str) (es : List (Entry P V)) : List Str := es.map (fun e => str e.key)

section Chains
variable {str : P → Str} {k : Str} {v : V} {es es' : List (Entry P V)}

@[simp] theorem lookup_nil : lookup str k ([] : List (Entry P V)) = none := rfl

@[simp] theorem lookup_cons (e : Entry P V) :
    lookup str k (e :: es) = if str e.key = k then some e.value else lookup str k es := by
  unfold lookup
  split_ifs with h <;> simp [h]

@[simp] theorem strings_nil : strings str ([] : List (Entry P V)) = [] := rfl

@[simp] theorem strings_cons (e : Entry P V) :
    strings str (e :: es) = str e.key :: strings str es := rfl

theorem lookup_eq_none : lookup str k es = none ↔ k ∉ strings str es := by
  simp [lookup, strings]

theorem lookup_eq_some (hnd : (strings str es).Nodup) :
    lookup str k es = some v ↔ ∃ e ∈ es, str e.key = k ∧ e.value = v := by
  induction es with
  | nil => simp
  | cons e rest ih =>
    simp only [strings_cons, List.nodup_cons] at hnd
    rw [lookup_cons]
    split_ifs with h
    · constructor
      · rintro ⟨⟩
        exact ⟨e, by simp, h, rfl⟩
      · rintro ⟨e', he', hk, hv⟩
        rcases List.mem_cons.mp he' with rfl | hmem
        · rw [hv]
        · exact absurd (List.mem_map.mpr ⟨e', hmem, hk.trans h.symm⟩) hnd.1
    · rw [ih hnd.2]
      simp [h]

/-- The order of entries with distinct strings does not matter. -/
theorem lookup_perm (h : es.Perm es') (hnd : (strings str es).Nodup) :
    lookup str k es = lookup str k es' := by
  have hnd' : (strings str es').Nodup := (h.map _).nodup_iff.mp hnd
  ext v
  rw [lookup_eq_some hnd, lookup_eq_some hnd']
  exact exists_congr fun e => and_congr_left fun _ => h.mem_iff

theorem overwrite_eq_none : Cell.overwrite str k v es = none ↔ k ∉ strings str es := by
  induction es with
  | nil => simp [Cell.overwrite_nil]
  | cons e rest ih =>
    rw [Cell.overwrite_cons, strings_cons, List.mem_cons, not_or]
    split_ifs with h
    · simp [h]
    · simp [ih, Ne.symm h]

theorem keys_overwrite (h : Cell.overwrite str k v es = some es') :
    es'.map (·.key) = es.map (·.key) := by
  induction es generalizing es' with
  | nil => cases h
  | cons e rest ih =>
    rw [Cell.overwrite_cons] at h
    split_ifs at h with hk
    · cases h
      rfl
    · obtain ⟨chain, hc, rfl⟩ := Option.map_eq_some_iff.mp h
      simp [ih hc]

theorem strings_eq_of_keys (h : es'.map (·.key) = es.map (·.key)) :
    strings str es' = strings str es := by
  have := congrArg (List.map str) h
  simpa [strings, Function.comp_def] using this

theorem lookup_overwrite (h : Cell.overwrite str k v es = some es') (k' : Str) :
    lookup str k' es' = if k' = k then some v else lookup str k' es := by
  induction es generalizing es' with
  | nil => cases h
  | cons e rest ih =>
    rw [Cell.overwrite_cons] at h
    split_ifs at h with hk
    · cases h
      by_cases hk' : k' = k
      · simp [hk, hk']
      · simp [hk, hk', Ne.symm hk']
    · obtain ⟨chain, hc, rfl⟩ := Option.map_eq_some_iff.mp h
      rw [lookup_cons, lookup_cons, ih hc]
      by_cases hk' : k' = k
      · simp [hk', hk]
      · simp [hk']

theorem unlink_eq_none : Cell.unlink str k es = none ↔ k ∉ strings str es := by
  induction es with
  | nil => simp [Cell.unlink_nil]
  | cons e rest ih =>
    rw [Cell.unlink_cons, strings_cons, List.mem_cons, not_or]
    split_ifs with h
    · simp [h]
    · simp [ih, Ne.symm h]

theorem unlink_sublist (h : Cell.unlink str k es = some es') :
    es'.Sublist es ∧ es'.length + 1 = es.length := by
  induction es generalizing es' with
  | nil => cases h
  | cons e rest ih =>
    rw [Cell.unlink_cons] at h
    split_ifs at h with hk
    · cases h
      simp
    · obtain ⟨chain, hc, rfl⟩ := Option.map_eq_some_iff.mp h
      obtain ⟨hsub, hlen⟩ := ih hc
      exact ⟨hsub.cons_cons e, by simp [hlen]⟩

theorem lookup_unlink (hnd : (strings str es).Nodup) (h : Cell.unlink str k es = some es')
    (k' : Str) : lookup str k' es' = if k' = k then none else lookup str k' es := by
  induction es generalizing es' with
  | nil => cases h
  | cons e rest ih =>
    simp only [strings_cons, List.nodup_cons] at hnd
    rw [Cell.unlink_cons] at h
    split_ifs at h with hk
    · cases h
      by_cases hk' : k' = k
      · subst hk'
        simpa [lookup_eq_none] using hk ▸ hnd.1
      · simp [hk, hk', Ne.symm hk']
    · obtain ⟨chain, hc, rfl⟩ := Option.map_eq_some_iff.mp h
      rw [lookup_cons, lookup_cons, ih hnd.2 hc]
      by_cases hk' : k' = k
      · simp [hk', hk]
      · simp [hk']

end Chains

/-! ## Buckets -/

section Buckets
variable {str : P → Str} {c : Cell P V}

theorem entries_of_key {p : P} (h : c.key = some p) :
    c.entries = ⟨p, c.value⟩ :: c.next := by
  simp [Cell.entries, h]

theorem entries_of_null (h : c.key = none) : c.entries = [] := by
  simp [Cell.entries, h]

/-- What `put` does to one bucket: the head stays NULL-free, the new pointer is the
only one that can appear, and the lookup changes at the key alone. -/
theorem put_spec (hc : c.key = none → c.next = []) (hnd : (strings str c.entries).Nodup)
    (key : P) (value : V) :
    let r := c.put str key value
    (r.1.key = none → r.1.next = []) ∧
    (strings str r.1.entries).Nodup ∧
    (∀ e ∈ r.1.entries, (e.key = key ∧ lookup str (str key) c.entries = none) ∨
      ∃ e' ∈ c.entries, e'.key = e.key) ∧
    (∀ k, lookup str k r.1.entries = if k = str key then some value else lookup str k c.entries) ∧
    (r.2 = true ↔ lookup str (str key) c.entries = none) ∧
    r.1.entries.length = c.entries.length + r.2.toNat := by
  cases hkey : c.key with
  | none =>
    have hput : c.put str key value = (⟨some key, value, []⟩, true) := by
      simp [Cell.put, hkey, hc hkey]
    rw [hput, entries_of_null hkey]
    simp [Cell.entries, eq_comm]
  | some p =>
    have hent := entries_of_key hkey
    rw [hent] at hnd
    simp only [strings_cons, List.nodup_cons] at hnd
    by_cases hp : str p = str key
    · have hput : c.put str key value = (⟨some p, value, c.next⟩, false) := by
        simp [Cell.put, hkey, hp]
      rw [hput, hent]
      simp only [Cell.entries, strings_cons, lookup_cons, hp]
      refine ⟨by simp, by simpa [hp] using hnd, ?_, ?_, by simp, by simp⟩
      · intro e he
        rcases List.mem_cons.mp he with rfl | hmem
        · exact .inr ⟨⟨p, c.value⟩, by simp, rfl⟩
        · exact .inr ⟨e, by simp [hmem], rfl⟩
      · intro k
        by_cases hk : k = str key
        · simp [hk]
        · simp [hk, Ne.symm hk]
    · cases hov : Cell.overwrite str (str key) value c.next with
      | some chain =>
        have hput : c.put str key value = (⟨some p, c.value, chain⟩, false) := by
          simp [Cell.put, hkey, hp, hov]
        have hstr : strings str chain = strings str c.next :=
          strings_eq_of_keys (keys_overwrite hov)
        have hmem : str key ∈ strings str c.next := by
          by_contra hn
          rw [overwrite_eq_none.mpr hn] at hov
          cases hov
        rw [hput, hent]
        simp only [Cell.entries, strings_cons, lookup_cons, hstr, hp, if_false]
        refine ⟨by simp, List.nodup_cons.mpr hnd, ?_, ?_, ?_, ?_⟩
        · intro e he
          rcases List.mem_cons.mp he with rfl | hmem
          · exact .inr ⟨_, by simp, rfl⟩
          · have hk : e.key ∈ c.next.map (·.key) :=
              keys_overwrite hov ▸ List.mem_map.mpr ⟨e, hmem, rfl⟩
            obtain ⟨e', he', hke⟩ := List.mem_map.mp hk
            exact .inr ⟨e', by simp [he'], hke⟩
        · intro k
          rw [lookup_overwrite hov]
          by_cases hk : k = str key
          · simp [hk, hp]
          · simp [hk]
        · simpa [lookup_eq_none] using hmem
        · have := congrArg List.length (keys_overwrite hov)
          simpa using this
      | none =>
        have hput : c.put str key value = (⟨some p, c.value, ⟨key, value⟩ :: c.next⟩, true) := by
          simp [Cell.put, hkey, hp, hov]
        have hnot : str key ∉ strings str c.next := overwrite_eq_none.mp hov
        rw [hput, hent]
        simp only [Cell.entries, strings_cons, lookup_cons, hp, if_false]
        refine ⟨by simp, ?_, ?_, ?_, ?_, by simp⟩
        · simp only [List.nodup_cons, List.mem_cons, not_or]
          exact ⟨⟨hp, hnd.1⟩, hnot, hnd.2⟩
        · intro e he
          rcases List.mem_cons.mp he with rfl | hmem
          · exact .inr ⟨_, by simp, rfl⟩
          rcases List.mem_cons.mp hmem with rfl | hmem
          · exact .inl ⟨rfl, lookup_eq_none.mpr hnot⟩
          · exact .inr ⟨e, by simp [hmem], rfl⟩
        · intro k
          by_cases hk : k = str key
          · simp [hk, hp]
          · simp [hk, Ne.symm hk]
        · simpa [lookup_eq_none] using hnot

/-- An added entry joins those of the bucket. -/
theorem put_perm (hc : c.key = none → c.next = []) {key : P} {value : V}
    (hadded : (c.put str key value).2 = true) :
    (c.put str key value).1.entries.Perm (⟨key, value⟩ :: c.entries) := by
  unfold Cell.put at hadded ⊢
  cases hkey : c.key with
  | none => simp [Cell.entries, hkey, hc hkey]
  | some p =>
    simp only [hkey] at hadded ⊢
    by_cases hp : str p = str key
    · simp [hp] at hadded
    · rw [if_neg hp] at hadded ⊢
      cases hov : Cell.overwrite str (str key) value c.next with
      | some chain => simp [hov] at hadded
      | none => simpa [Cell.entries, hkey] using List.Perm.swap ..

variable [Inhabited V]

@[simp] theorem entries_empty : (Cell.empty : Cell P V).entries = [] := rfl

/-- What `remove` does to one bucket. -/
theorem remove_spec (hc : c.key = none → c.next = []) (hnd : (strings str c.entries).Nodup)
    (k : Str) :
    let r := c.remove str k
    (r.1.key = none → r.1.next = []) ∧
    r.1.entries.Sublist c.entries ∧
    (∀ k', lookup str k' r.1.entries = if k' = k then none else lookup str k' c.entries) ∧
    (r.2 = true ↔ lookup str k c.entries ≠ none) ∧
    r.1.entries.length + r.2.toNat = c.entries.length := by
  cases hkey : c.key with
  | none =>
    have hrem : c.remove str k = (c, false) := by simp [Cell.remove, hkey]
    have hent := entries_of_null hkey
    rw [hrem]
    exact ⟨hc, List.Sublist.refl _, fun k' => by simp [hent], by simp [hent], by simp⟩
  | some p =>
    have hent := entries_of_key hkey
    rw [hent] at hnd
    simp only [strings_cons, List.nodup_cons] at hnd
    by_cases hp : str p = k
    · have hnone : lookup str k c.next = none := lookup_eq_none.mpr (hp ▸ hnd.1)
      cases hnext : c.next with
      | nil =>
        have hrem : c.remove str k = (⟨none, default, []⟩, true) := by
          simp [Cell.remove, hkey, hp, hnext]
        rw [hrem, hent, hnext]
        simp only [Cell.entries, lookup_cons, hp]
        refine ⟨by simp, by simp, fun k' => ?_, by simp, by simp⟩
        by_cases hk : k' = k
        · simp [hk]
        · simp [hk, Ne.symm hk]
      | cons e rest =>
        have hrem : c.remove str k = (⟨some e.key, e.value, rest⟩, true) := by
          simp [Cell.remove, hkey, hp, hnext]
        have hent' : (⟨some e.key, e.value, rest⟩ : Cell P V).entries = c.next := by
          simp [Cell.entries, hnext]
        rw [hrem, hent, hnext]
        simp only [hent', hnext]
        refine ⟨by simp, by simp, fun k' => ?_, by simp [hp], by simp⟩
        rw [hnext] at hnone
        by_cases hk : k' = k
        · simpa [hk] using hnone
        · rw [if_neg hk, lookup_cons ⟨p, c.value⟩, if_neg (by simpa [hp] using Ne.symm hk)]
    · cases hul : Cell.unlink str k c.next with
      | some chain =>
        have hrem : c.remove str k = (⟨some p, c.value, chain⟩, true) := by
          simp [Cell.remove, hkey, hp, hul]
        obtain ⟨hsub, hlen⟩ := unlink_sublist hul
        have hmem : k ∈ strings str c.next := by
          by_contra hn
          rw [unlink_eq_none.mpr hn] at hul
          cases hul
        rw [hrem, hent]
        simp only [Cell.entries, lookup_cons, hp, if_false]
        refine ⟨by simp, hsub.cons_cons _, fun k' => ?_, ?_, ?_⟩
        · rw [lookup_unlink hnd.2 hul]
          by_cases hk : k' = k
          · simp [hk, hp]
          · simp [hk]
        · simpa [lookup_eq_none] using hmem
        · simp [← hlen]
      | none =>
        have hrem : c.remove str k = (c, false) := by simp [Cell.remove, hkey, hp, hul]
        have hnot : k ∉ strings str c.next := unlink_eq_none.mp hul
        have hnone : lookup str k c.entries = none := by
          rw [hent, lookup_cons, if_neg hp]
          exact lookup_eq_none.mpr hnot
        rw [hrem]
        refine ⟨by simp [hkey], List.Sublist.refl _, fun k' => ?_, by simp [hnone], by simp⟩
        by_cases hk : k' = k
        · simp [hk, hnone]
        · simp [hk]

end Buckets

/-! ## Tables -/

variable {hash : Str → ℕ → ℕ} {str : P → Str}

/-- The abstract value of a table. -/
def find (hash : Str → ℕ → ℕ) (str : P → Str) (m : HashMap P V) (k : Str) : Option V :=
  lookup str k (m.hashList (hash k m.listSize)).entries

structure WellFormed (hash : Str → ℕ → ℕ) (str : P → Str) (m : HashMap P V) : Prop where
  listSize_pos : 0 < m.listSize
  listSize_lt : m.listSize < 2 ^ 31
  changeSize : m.changeSize = true
  chain : ∀ i, (m.hashList i).key = none → (m.hashList i).next = []
  bucket : ∀ i, ∀ e ∈ (m.hashList i).entries, hash (str e.key) m.listSize = i
  nodup : ∀ i, (strings str (m.hashList i).entries).Nodup
  size_eq : m.size = m.collect.length

/-- While doubling stays an `int` above the minimum, there are fewer entries than cells. -/
def Roomy (m : HashMap P V) : Prop :=
  25 ≤ m.listSize → m.listSize < 2 ^ 30 → m.size < m.listSize

/-- The entries of one bucket among those of the table. -/
theorem collect_split {m : HashMap P V} {i : ℕ} (hi : i < m.listSize) :
    ∃ before behind, m.collect = before ++ (m.hashList i).entries ++ behind ∧
      ∀ (c : Cell P V) (size : ℕ),
        ({ m with hashList := Function.update m.hashList i c, size := size }).collect =
          before ++ c.entries ++ behind := by
  obtain ⟨front, back, hrange⟩ := List.append_of_mem (List.mem_range.mpr hi)
  have hnd : (front ++ i :: back).Nodup := hrange ▸ List.nodup_range
  have hout : i ∉ front ∧ i ∉ back := by
    rw [List.nodup_middle, List.nodup_cons, List.mem_append, not_or] at hnd
    exact hnd.1
  have hother (c : Cell P V) {is : List ℕ} (his : i ∉ is) :
      is.flatMap (fun j => (Function.update m.hashList i c j).entries) =
        is.flatMap (fun j => (m.hashList j).entries) := by
    apply List.flatMap_congr
    intro j hj
    rw [Function.update_of_ne (ne_of_mem_of_not_mem hj his)]
  refine ⟨front.flatMap (fun j => (m.hashList j).entries),
    back.flatMap (fun j => (m.hashList j).entries), ?_, fun c size => ?_⟩
  · rw [HashMap.collect, hrange, List.flatMap_append, List.flatMap_cons, List.append_assoc]
  · simp only [HashMap.collect]
    rw [hrange, List.flatMap_append, List.flatMap_cons, Function.update_self,
      hother c hout.1, hother c hout.2, List.append_assoc]

theorem collect_length_update (m : HashMap P V) {i : ℕ} (hi : i < m.listSize) (c : Cell P V)
    (size : ℕ) :
    ({ m with hashList := Function.update m.hashList i c, size := size }).collect.length +
      (m.hashList i).entries.length = m.collect.length + c.entries.length := by
  obtain ⟨before, behind, hold, hnew⟩ := collect_split hi
  rw [hold, hnew]
  simp only [List.length_append]
  omega

theorem mem_collect {m : HashMap P V} {e : Entry P V} :
    e ∈ m.collect ↔ ∃ i < m.listSize, e ∈ (m.hashList i).entries := by
  simp [HashMap.collect]

theorem mem_stored {m : HashMap P V} {p : P} : p ∈ m.stored ↔ ∃ e ∈ m.collect, e.key = p := by
  constructor
  · rintro ⟨i, hi, e, he, rfl⟩
    exact ⟨e, mem_collect.mpr ⟨i, hi, he⟩, rfl⟩
  · rintro ⟨e, he, rfl⟩
    obtain ⟨i, hi, hmem⟩ := mem_collect.mp he
    exact ⟨i, hi, e, hmem, rfl⟩

namespace WellFormed

theorem nodup_collect {m : HashMap P V} (h : WellFormed hash str m) :
    (strings str m.collect).Nodup := by
  have hmap : strings str m.collect =
      (List.range m.listSize).flatMap (fun i => strings str (m.hashList i).entries) := by
    simp [strings, HashMap.collect, List.map_flatMap]
  rw [hmap, List.nodup_flatMap]
  refine ⟨fun i _ => h.nodup i, List.Pairwise.imp ?_ List.nodup_range⟩
  intro i j hij
  -- a string determines its bucket
  rw [Function.onFun, List.disjoint_left]
  intro k hi hj
  obtain ⟨e, he, rfl⟩ := List.mem_map.mp hi
  obtain ⟨e', he', hk⟩ := List.mem_map.mp hj
  apply hij
  rw [← h.bucket i e he, ← h.bucket j e' he', hk]

/-- Searching one bucket is searching the whole table. -/
theorem lookup_collect (hhash : ∀ k n, 0 < n → hash k n < n) {m : HashMap P V}
    (h : WellFormed hash str m) (k : Str) : lookup str k m.collect = find hash str m k := by
  apply Option.ext
  intro v
  rw [lookup_eq_some h.nodup_collect, find, lookup_eq_some (h.nodup _)]
  constructor
  · rintro ⟨e, he, rfl, hv⟩
    obtain ⟨i, _, hmem⟩ := mem_collect.mp he
    exact ⟨e, (h.bucket i e hmem) ▸ hmem, rfl, hv⟩
  · rintro ⟨e, he, hk, hv⟩
    exact ⟨e, mem_collect.mpr ⟨_, hhash k _ h.listSize_pos, he⟩, hk, hv⟩

/-- Two tables with the same entries hold the same. -/
theorem of_perm (hhash : ∀ k n, 0 < n → hash k n < n) {m m' : HashMap P V}
    (h : WellFormed hash str m) (h' : WellFormed hash str m') (hperm : m'.collect.Perm m.collect) :
    m'.size = m.size ∧ (∀ k, find hash str m' k = find hash str m k) ∧
      ∀ p ∈ m'.stored, p ∈ m.stored := by
  refine ⟨?_, fun k => ?_, fun p hp => ?_⟩
  · rw [h.size_eq, h'.size_eq, hperm.length_eq]
  · rw [← h.lookup_collect hhash, ← h'.lookup_collect hhash, lookup_perm hperm h'.nodup_collect]
  · obtain ⟨e, he, rfl⟩ := mem_stored.mp hp
    exact mem_stored.mpr ⟨e, hperm.mem_iff.mp he, rfl⟩

/-- Only the strings behind the stored pointers matter. -/
theorem congr {str' : P → Str} {m : HashMap P V} (h : WellFormed hash str m)
    (hhash : ∀ k n, 0 < n → hash k n < n) (hstr : ∀ p ∈ m.stored, str' p = str p) :
    WellFormed hash str' m ∧ ∀ k, find hash str' m k = find hash str m k := by
  have hent : ∀ i, ∀ e ∈ (m.hashList i).entries, str' e.key = str e.key := by
    intro i e he
    have hi : i < m.listSize := h.bucket i e he ▸ hhash _ _ h.listSize_pos
    exact hstr _ ⟨i, hi, e, he, rfl⟩
  refine ⟨{ h with bucket := ?_, nodup := ?_ }, ?_⟩
  · intro i e he
    rw [hent i e he]
    exact h.bucket i e he
  · intro i
    have : strings str' (m.hashList i).entries = strings str (m.hashList i).entries :=
      List.map_congr_left (hent i)
    rw [this]
    exact h.nodup i
  · intro k
    unfold find lookup
    rw [List.find?_congr (fun e he => by rw [hent _ e he])]

/-- Replacing one bucket by a bucket of the same index. -/
theorem update {m : HashMap P V} (h : WellFormed hash str m) {i size : ℕ} (hi : i < m.listSize)
    {c : Cell P V} (hchain : c.key = none → c.next = [])
    (hbucket : ∀ e ∈ c.entries, hash (str e.key) m.listSize = i)
    (hnd : (strings str c.entries).Nodup)
    (hsize : size + (m.hashList i).entries.length = m.size + c.entries.length) :
    WellFormed hash str { m with hashList := Function.update m.hashList i c, size := size } where
  listSize_pos := h.listSize_pos
  listSize_lt := h.listSize_lt
  changeSize := h.changeSize
  chain := by
    intro j
    by_cases hj : j = i
    · simpa [hj] using hchain
    · simpa [hj] using h.chain j
  bucket := by
    intro j e he
    by_cases hj : j = i
    · subst hj
      exact hbucket e (by simpa using he)
    · exact h.bucket j e (by simpa [hj] using he)
  nodup := by
    intro j
    by_cases hj : j = i
    · simpa [hj] using hnd
    · simpa [hj] using h.nodup j
  size_eq := by
    have := collect_length_update m hi c size
    have := h.size_eq
    dsimp only
    omega

end WellFormed

theorem find_update (m : HashMap P V) (i size : ℕ) (c : Cell P V) (k : Str) :
    find hash str { m with hashList := Function.update m.hashList i c, size := size } k =
      if hash k m.listSize = i then lookup str k c.entries else find hash str m k := by
  unfold find
  by_cases hk : hash k m.listSize = i
  · simp [hk]
  · simp [hk]

/-- Replacing the cell of a key changes the abstract map as it changes the cell. -/
theorem find_update_key {m : HashMap P V} {k₀ : Str} {v : Option V} {c : Cell P V}
    (hlook : ∀ k, lookup str k c.entries =
      if k = k₀ then v else lookup str k (m.hashList (hash k₀ m.listSize)).entries)
    (size : ℕ) (k : Str) :
    find hash str { m with
      hashList := Function.update m.hashList (hash k₀ m.listSize) c, size := size } k =
      if k = k₀ then v else find hash str m k := by
  rw [find_update]
  split_ifs with hk hkk hkk
  · simp [hlook, hkk]
  · rw [hlook, if_neg hkk, find, hk]
  · exact absurd (by rw [hkk]) hk
  · rfl

theorem mem_stored_update {m : HashMap P V} {i size : ℕ} {c : Cell P V} {p : P}
    (hp : p ∈ ({ m with hashList := Function.update m.hashList i c, size := size }).stored) :
    (∃ e ∈ c.entries, e.key = p) ∨ p ∈ m.stored := by
  obtain ⟨j, hj, e, he, rfl⟩ := hp
  by_cases hji : j = i
  · subst hji
    exact .inl ⟨e, by simpa using he, rfl⟩
  · exact .inr ⟨j, hj, e, by simpa [hji] using he, rfl⟩

theorem wellFormed_fresh [Inhabited V] {n : ℕ} (hn : 0 < n) (hn' : n < 2 ^ 31) :
    WellFormed hash str (⟨0, n, true, fun _ => Cell.empty⟩ : HashMap P V) where
  listSize_pos := hn
  listSize_lt := hn'
  changeSize := rfl
  chain := fun _ _ => rfl
  bucket := by simp
  nodup := by simp
  size_eq := by simp [HashMap.collect]

@[simp] theorem find_fresh [Inhabited V] (n : ℕ) (k : Str) :
    find hash str (⟨0, n, true, fun _ => Cell.empty⟩ : HashMap P V) k = none := rfl

/-- The puts of the second loop of `resetHashMap`, without the resize test. -/
def reinsert (hash : Str → ℕ → ℕ) (str : P → Str) (m : HashMap P V) (es : List (Entry P V)) :
    HashMap P V :=
  es.foldl (fun m e => (putEntry hash str m e.key e.value).1) m

section Cleared
variable [Inhabited V] (m : HashMap P V) (n : ℕ)

/-- The table that they start with. -/
def cleared : HashMap P V :=
  { m with listSize := n, hashList := fun _ => Cell.empty, size := 0 }

@[simp] theorem cleared_size : (cleared m n).size = 0 := rfl
@[simp] theorem cleared_listSize : (cleared m n).listSize = n := rfl

@[simp] theorem collect_cleared : (cleared m n).collect = [] := by
  simp [HashMap.collect, cleared]

@[simp] theorem find_cleared (k : Str) : find hash str (cleared m n) k = none := rfl

variable {m n}

theorem WellFormed.cleared (h : WellFormed hash str m) (hn : 0 < n) (hn' : n < 2 ^ 31) :
    WellFormed hash str (cleared m n) := by
  unfold MidHashmap.cleared
  rw [h.changeSize]
  exact wellFormed_fresh hn hn'

end Cleared

section Operations
variable (hhash : ∀ k n, 0 < n → hash k n < n)
include hhash

/-- `put` before the resize test: one key of the abstract map changes. -/
theorem putEntry_spec {m : HashMap P V} (h : WellFormed hash str m) (key : P) (value : V) :
    let r := putEntry hash str m key value
    WellFormed hash str r.1 ∧ r.1.listSize = m.listSize ∧
    (∀ k, find hash str r.1 k = if k = str key then some value else find hash str m k) ∧
    (r.2 = true ↔ find hash str m (str key) = none) ∧
    r.1.size = m.size + r.2.toNat ∧
    (∀ p ∈ r.1.stored, (p = key ∧ find hash str m (str key) = none) ∨ p ∈ m.stored) := by
  have hindex := hhash (str key) _ h.listSize_pos
  obtain ⟨hchain, hnd, hkeys, hlook, hadded, hlen⟩ :=
    put_spec (h.chain _) (h.nodup (hash (str key) m.listSize)) key value
  simp only [putEntry]
  have hsize : (if ((m.hashList (hash (str key) m.listSize)).put str key value).2
      then m.size + 1 else m.size) =
      m.size + ((m.hashList (hash (str key) m.listSize)).put str key value).2.toNat := by
    cases ((m.hashList (hash (str key) m.listSize)).put str key value).2 <;> simp
  refine ⟨h.update hindex hchain ?_ hnd (by omega), trivial, ?_, hadded, hsize, ?_⟩
  · intro e he
    rcases hkeys e he with ⟨hk, _⟩ | ⟨e', he', hk⟩
    · rw [hk]
    · rw [← hk]
      exact h.bucket _ e' he'
  · exact fun k => find_update_key hlook _ k
  · intro p hp
    rcases mem_stored_update hp with ⟨e, he, rfl⟩ | hp
    · rcases hkeys e he with hk | ⟨e', he', hk⟩
      · exact .inl hk
      · exact .inr ⟨_, hindex, e', he', hk⟩
    · exact .inr hp

/-- `remove` before the resize test. -/
theorem removeEntry_spec [Inhabited V] {m : HashMap P V} (h : WellFormed hash str m) (k : Str) :
    let r := removeEntry hash str m k
    WellFormed hash str r.1 ∧ r.1.listSize = m.listSize ∧
    (∀ k', find hash str r.1 k' = if k' = k then none else find hash str m k') ∧
    (r.2 = true ↔ find hash str m k ≠ none) ∧
    r.1.size + r.2.toNat = m.size ∧
    (∀ p ∈ r.1.stored, p ∈ m.stored) := by
  have hindex := hhash k _ h.listSize_pos
  obtain ⟨hchain, hsub, hlook, hfound, hlen⟩ :=
    remove_spec (h.chain _) (h.nodup (hash k m.listSize)) k
  have hcount : (m.hashList (hash k m.listSize)).entries.length ≤ m.size := by
    have hempty := collect_length_update m hindex Cell.empty 0
    have hsize := h.size_eq
    simp only [entries_empty, List.length_nil] at hempty
    omega
  simp only [removeEntry]
  have hsize : (if ((m.hashList (hash k m.listSize)).remove str k).2
      then m.size - 1 else m.size) +
      ((m.hashList (hash k m.listSize)).remove str k).2.toNat = m.size := by
    cases hb : ((m.hashList (hash k m.listSize)).remove str k).2 with
    | false => simp
    | true =>
      simp only [hb, Bool.toNat_true] at hlen
      simp only [if_true, Bool.toNat_true]
      omega
  refine ⟨h.update hindex hchain ?_ ((hsub.map _).nodup (h.nodup _)) (by omega), trivial, ?_,
    hfound, hsize, ?_⟩
  · exact fun e he => h.bucket _ e (hsub.subset he)
  · exact fun k' => find_update_key hlook _ k'
  · intro p hp
    rcases mem_stored_update hp with ⟨e, he, rfl⟩ | hp
    · exact ⟨_, hindex, e, hsub.subset he, rfl⟩
    · exact hp

variable [Inhabited V]

/-- A put that stays below the limit does not resize, whatever the nesting bound. -/
theorem defaultPut_below {m : HashMap P V} (h : WellFormed hash str m) (depth : ℕ) (key : P)
    (value : V) (hroom : m.size + 1 < m.listSize) :
    defaultPut hash str (depth + 1) m key value = some (putEntry hash str m key value).1 := by
  obtain ⟨_, hlist, _, _, hsize, _⟩ := putEntry_spec hhash h key value
  have hb := Bool.toNat_le (putEntry hash str m key value).2
  simp only [defaultPut]
  rw [if_neg (by rintro ⟨-, hge, -⟩; omega)]

omit [Inhabited V] in
/-- An added entry joins those of the table. -/
theorem putEntry_perm {m : HashMap P V} (h : WellFormed hash str m) {key : P} (value : V)
    (hnew : find hash str m (str key) = none) :
    (putEntry hash str m key value).1.collect.Perm (⟨key, value⟩ :: m.collect) := by
  obtain ⟨before, behind, hold, hcollect⟩ := collect_split (hhash (str key) _ h.listSize_pos)
  obtain ⟨-, -, -, hadded, -, -⟩ := putEntry_spec hhash h key value
  have hcell := put_perm (h.chain _) (hadded.mpr hnew)
  simp only [putEntry]
  rw [hold, hcollect, List.append_assoc, List.append_assoc]
  exact ((hcell.append_right behind).append_left before).trans List.perm_middle

/-- The second loop of `resetHashMap`: re-inserting distinct keys adds their entries, and as
long as there are more cells it never reaches the limit. -/
theorem reinsert_spec (es : List (Entry P V)) {m : HashMap P V}
    (h : WellFormed hash str m) (hnd : (strings str es).Nodup)
    (hnew : ∀ e ∈ es, find hash str m (str e.key) = none) :
    WellFormed hash str (reinsert hash str m es) ∧
      (reinsert hash str m es).listSize = m.listSize ∧
      (reinsert hash str m es).collect.Perm (es ++ m.collect) ∧
      (m.size + es.length < m.listSize → ∀ depth,
        es.foldlM (fun m e => defaultPut hash str (depth + 1) m e.key e.value) m =
          some (reinsert hash str m es)) := by
  induction es generalizing m with
  | nil => exact ⟨h, rfl, .refl _, fun _ _ => rfl⟩
  | cons e rest ih =>
    simp only [strings_cons, List.nodup_cons] at hnd
    have hfirst := hnew e List.mem_cons_self
    obtain ⟨hw, hlist, hfind, hadded, hsize, -⟩ := putEntry_spec hhash h e.key e.value
    rw [hadded.mpr hfirst, Bool.toNat_true] at hsize
    have hrest : ∀ e' ∈ rest,
        find hash str (putEntry hash str m e.key e.value).1 (str e'.key) = none := by
      intro e' he'
      have hne : str e'.key ≠ str e.key :=
        fun hk => hnd.1 (List.mem_map.mpr ⟨e', he', hk⟩)
      rw [hfind, if_neg hne]
      exact hnew e' (List.mem_cons_of_mem _ he')
    obtain ⟨hw', hlist', hperm, hrun⟩ := ih hw hnd.2 hrest
    refine ⟨hw', hlist'.trans hlist, ?_, fun hroom depth => ?_⟩
    · have hput := putEntry_perm hhash h e.value hfirst
      exact hperm.trans ((hput.append_left rest).trans List.perm_middle)
    · rw [List.length_cons] at hroom
      rw [List.foldlM_cons, defaultPut_below hhash h depth _ _ (by omega)]
      exact hrun (by omega) depth

/-- A resize to more cells than there are entries re-inserts all of them. -/
theorem resetHashMap_spec {m : HashMap P V} (h : WellFormed hash str m) (n : ℕ)
    (hn : DEFAULT_MAP_SIZE ≤ n) (hn' : n < 2 ^ 31) (hroom : m.size < n) :
    ∃ m', (∀ depth, resetHashMap (defaultPut hash str (depth + 1)) m n = some m') ∧
      WellFormed hash str m' ∧ m'.listSize = n ∧ m'.collect.Perm m.collect := by
  have hpos : 0 < n := by unfold DEFAULT_MAP_SIZE at hn; omega
  have hsize := h.size_eq
  obtain ⟨hw, hlist, hperm, hrun⟩ := reinsert_spec hhash m.collect (h.cleared hpos hn')
    h.nodup_collect (fun _ _ => rfl)
  refine ⟨reinsert hash str (cleared m n) m.collect, fun depth => ?_, hw, hlist, ?_⟩
  · rw [resetHashMap, if_neg (by omega), if_pos hsize.symm]
    exact hrun (by rw [cleared_size, cleared_listSize]; omega) depth
  · simpa using hperm

omit [Inhabited V] hhash in
/-- A doubled size that passes the minimum-size test has not overflowed. -/
theorem double_of_pass {n : ℕ} (hn : n < 2 ^ 31) (hpass : DEFAULT_MAP_SIZE ≤ cInt (n * 2)) :
    cInt (n * 2) = n * 2 ∧ (n : ℤ) * 2 < 2 ^ 31 := by
  have hdouble : (n : ℤ) * 2 < 2 ^ 31 := by
    by_contra hover
    unfold cInt DEFAULT_MAP_SIZE at hpass
    rw [Int.bmod_def] at hpass
    split_ifs at hpass <;> omega
  exact ⟨cInt_of_range (by omega) hdouble, hdouble⟩

/-- `put` with its resize: the same entries, and still more cells than those. -/
theorem defaultPut_perm (depth : ℕ) {m : HashMap P V} (h : WellFormed hash str m) (hr : Roomy m)
    (key : P) (value : V) :
    ∃ m', defaultPut hash str (depth + 2) m key value = some m' ∧ WellFormed hash str m' ∧
      Roomy m' ∧ m'.collect.Perm (putEntry hash str m key value).1.collect := by
  obtain ⟨hw, hlist, -, -, hsize, -⟩ := putEntry_spec hhash h key value
  have hb := Bool.toNat_le (putEntry hash str m key value).2
  have hL := h.listSize_lt
  rw [defaultPut]
  generalize putEntry hash str m key value = r at hw hlist hsize hb
  obtain ⟨m₁, added⟩ := r
  simp only at hw hlist hsize hb ⊢
  by_cases hgrow : added = true ∧ m₁.size ≥ m₁.listSize ∧ m₁.changeSize = true
  · rw [if_pos hgrow]
    by_cases hsmall : cInt (m₁.listSize * 2) < DEFAULT_MAP_SIZE
    · refine ⟨m₁, by rw [resetHashMap, if_pos hsmall], hw, ?_, .refl _⟩
      -- below 25 cells, or where doubling overflows, the table keeps its size
      intro h25 h30
      rw [cInt_of_range (by omega) (by omega)] at hsmall
      unfold DEFAULT_MAP_SIZE at hsmall
      omega
    · obtain ⟨heq, hdouble⟩ := double_of_pass (by omega) (not_lt.mp hsmall)
      rw [heq] at hsmall ⊢
      unfold DEFAULT_MAP_SIZE at hsmall
      have hroom : m₁.size < m₁.listSize * 2 := by
        have := hr (by omega) (by omega)
        omega
      obtain ⟨m', hrun, hw', hlist', hperm⟩ := resetHashMap_spec hhash hw (m₁.listSize * 2)
        (by unfold DEFAULT_MAP_SIZE; push_cast; omega) (by omega) hroom
      obtain ⟨hsize', -, -⟩ := hw.of_perm hhash hw' hperm
      refine ⟨m', by exact_mod_cast hrun depth, hw', ?_, hperm⟩
      intro _ _
      omega
  · rw [if_neg hgrow]
    refine ⟨m₁, rfl, hw, ?_, .refl _⟩
    intro h25 h30
    by_cases hadd : added = true
    · have := hw.changeSize
      simp only [hadd, this, and_true, true_and] at hgrow
      omega
    · have := hr (by omega) (by omega)
      simp only [Bool.not_eq_true] at hadd
      rw [hadd, Bool.toNat_false] at hsize
      omega

/-- It always returns, and updates one key of the abstract map. -/
theorem defaultPut_spec (depth : ℕ) {m : HashMap P V} (h : WellFormed hash str m) (hr : Roomy m)
    (key : P) (value : V) :
    ∃ m', defaultPut hash str (depth + 2) m key value = some m' ∧ WellFormed hash str m' ∧
      Roomy m' ∧
      (∀ k, find hash str m' k = if k = str key then some value else find hash str m k) ∧
      (∀ p ∈ m'.stored, (p = key ∧ find hash str m (str key) = none) ∨ p ∈ m.stored) := by
  obtain ⟨hw, -, hfind, -, -, hstored⟩ := putEntry_spec hhash h key value
  obtain ⟨m', hrun, hw', hroomy, hperm⟩ := defaultPut_perm hhash depth h hr key value
  obtain ⟨-, hfind', hstored'⟩ := hw.of_perm hhash hw' hperm
  refine ⟨m', hrun, hw', hroomy, fun k => ?_, fun p hp => hstored p (hstored' p hp)⟩
  rw [hfind', hfind]

/-- `remove` with its resize: the pointer comes from the head cell, the entries are those
left by the removal. -/
theorem defaultRemove_perm (depth : ℕ) {m : HashMap P V} (h : WellFormed hash str m)
    (hr : Roomy m) (k : Str) :
    ∃ m', defaultRemove hash str (depth + 1) m k =
        some ((m.hashList (hash k m.listSize)).key, m') ∧ WellFormed hash str m' ∧
      Roomy m' ∧ m'.collect.Perm (removeEntry hash str m k).1.collect := by
  cases hkey : (m.hashList (hash k m.listSize)).key with
  | none =>
    refine ⟨m, by simp [defaultRemove, hkey], h, hr, ?_⟩
    simp [removeEntry, Cell.remove, hkey]
  | some q =>
    obtain ⟨hw, hlist, -, -, hsize, -⟩ := removeEntry_spec hhash h k
    simp only [defaultRemove, hkey]
    generalize removeEntry hash str m k = r at hw hlist hsize
    obtain ⟨m₁, result⟩ := r
    simp only at hw hlist hsize ⊢
    have hroomy : Roomy m₁ := by
      intro h25 h30
      have := hr (by omega) (by omega)
      omega
    by_cases hshrink : result = true ∧ m₁.size < m₁.listSize / 2 ∧ m₁.changeSize = true
    · rw [if_pos hshrink]
      by_cases hsmall : ((m₁.listSize / 2 : ℕ) : ℤ) < DEFAULT_MAP_SIZE
      · exact ⟨m₁, by rw [resetHashMap, if_pos hsmall]; rfl, hw, hroomy, .refl _⟩
      · obtain ⟨m', hrun, hw', hlist', hperm⟩ := resetHashMap_spec hhash hw
          (m₁.listSize / 2) (by omega) (by have := hw.listSize_lt; omega) hshrink.2.1
        obtain ⟨hsize', -, -⟩ := hw.of_perm hhash hw' hperm
        refine ⟨m', by rw [hrun depth]; rfl, hw', ?_, hperm⟩
        intro _ _
        omega
    · rw [if_neg hshrink]
      exact ⟨m₁, rfl, hw, hroomy, .refl _⟩

/-- It always returns, and deletes one key of the abstract map. -/
theorem defaultRemove_spec (depth : ℕ) {m : HashMap P V} (h : WellFormed hash str m)
    (hr : Roomy m) (k : Str) :
    ∃ p m', defaultRemove hash str (depth + 1) m k = some (p, m') ∧ WellFormed hash str m' ∧
      Roomy m' ∧
      (∀ k', find hash str m' k' = if k' = k then none else find hash str m k') ∧
      (∀ p ∈ m'.stored, p ∈ m.stored) := by
  obtain ⟨hw, -, hfind, -, -, hstored⟩ := removeEntry_spec hhash h k
  obtain ⟨m', hrun, hw', hroomy, hperm⟩ := defaultRemove_perm hhash depth h hr k
  obtain ⟨-, hfind', hstored'⟩ := hw.of_perm hhash hw' hperm
  refine ⟨_, m', hrun, hw', hroomy, fun k' => ?_, fun p hp => hstored p (hstored' p hp)⟩
  rw [hfind', hfind]

end Operations

/-! ## Queries -/

theorem defaultExists_eq (m : HashMap P V) (k : Str) :
    defaultExists hash str m k = (find hash str m k).isSome := by
  rw [Bool.eq_iff_iff, ← Option.ne_none_iff_isSome, find, ne_eq, lookup_eq_none, not_not]
  simp [defaultExists, strings]

theorem defaultGet_eq [Inhabited V] (m : HashMap P V) (k : Str) :
    defaultGet hash str m k = (find hash str m k).getD default := by
  unfold defaultGet
  rw [defaultExists_eq]
  split_ifs with h
  · rfl
  · simp [Option.not_isSome_iff_eq_none.mp h]

theorem createHashMap_spec [Inhabited V] {n : ℤ} (hn : 1 ≤ n) (hn' : n < 2 ^ 31) :
    WellFormed hash str (createHashMap n : HashMap P V) ∧
    Roomy (createHashMap n : HashMap P V) ∧
    ∀ k, find hash str (createHashMap n : HashMap P V) k = none := by
  have hne : n ≠ -1 := by omega
  have hcreate : (createHashMap n : HashMap P V) = ⟨0, n.toNat, true, fun _ => Cell.empty⟩ := by
    simp [createHashMap, hne]
  rw [hcreate]
  refine ⟨wellFormed_fresh (by omega) (by omega), ?_, fun k => find_fresh _ k⟩
  intro _ _
  dsimp only
  omega

/-! ## Runs -/

/-- The operations a caller performs on a table. -/
inductive Op (P V : Type*) where
  | put (key : P) (value : V)
  | get (key : P)
  | exists (key : P)
  | remove (key : P)

/-- A call, with the strings that pointers lead to at that time. -/
structure Call (P V : Type*) where
  str : P → Str
  op : Op P V

/-- What `get` and `exists` answer; `put` and `remove` are run for their effect. -/
inductive Answer (V : Type*) where
  | done
  | value (v : V)
  | found (b : Bool)
  deriving DecidableEq

section Runs
variable [Inhabited V] (hash : Str → ℕ → ℕ) (depth : ℕ)

def applyCall (m : HashMap P V) (c : Call P V) : Option (HashMap P V × Answer V) :=
  match c.op with
  | .put key value => (defaultPut hash c.str depth m key value).map (·, .done)
  | .get key => some (m, .value (defaultGet hash c.str m (c.str key)))
  | .exists key => some (m, .found (defaultExists hash c.str m (c.str key)))
  | .remove key => (defaultRemove hash c.str depth m (c.str key)).map (fun r => (r.2, .done))

def runCalls : HashMap P V → List (Call P V) → Option (HashMap P V × List (Answer V))
  | m, [] => some (m, [])
  | m, c :: rest => do
    let (m, a) ← applyCall hash depth m c
    let (m, as) ← runCalls m rest
    some (m, a :: as)

/-- The abstract finite map from strings to values. -/
abbrev AbsMap (V : Type*) := Finmap (fun _ : Str => V)

def absCall (A : AbsMap V) (c : Call P V) : AbsMap V × Answer V :=
  match c.op with
  | .put key value => (A.insert (c.str key) value, .done)
  | .get key => (A, .value ((A.lookup (c.str key)).getD default))
  | .exists key => (A, .found (A.lookup (c.str key)).isSome)
  | .remove key => (A.erase (c.str key), .done)

def absCalls : AbsMap V → List (Call P V) → AbsMap V × List (Answer V)
  | A, [] => (A, [])
  | A, c :: rest =>
    let (A, a) := absCall A c
    let (A, as) := absCalls A rest
    (A, a :: as)

/-- Between consecutive calls no stored key pointer comes to lead to another string. -/
def KeysStable : HashMap P V → List (Call P V) → Prop
  | m, c :: c' :: rest => ∀ m' a, applyCall hash depth m c = some (m', a) →
      (∀ p ∈ m'.stored, c'.str p = c.str p) ∧ KeysStable m' (c' :: rest)
  | _, _ => True

end Runs

/-- The relation between a table and the finite map it stands for. -/
structure Refines (hash : Str → ℕ → ℕ) (str : P → Str) (m : HashMap P V) (A : AbsMap V) : Prop where
  wellFormed : WellFormed hash str m
  roomy : Roomy m
  find_eq : ∀ k, find hash str m k = A.lookup k

/-- `size` counts the keys of the abstract map. -/
theorem Refines.size_eq (hhash : ∀ k n, 0 < n → hash k n < n) {m : HashMap P V} {A : AbsMap V}
    (h : Refines hash str m A) : m.size = A.keys.card := by
  have hkeys : A.keys = (strings str m.collect).toFinset := by
    ext k
    rw [Finmap.mem_keys, ← Finmap.lookup_isSome, List.mem_toFinset, ← h.find_eq,
      ← h.wellFormed.lookup_collect hhash, ← Option.ne_none_iff_isSome, ne_eq, lookup_eq_none,
      not_not]
  rw [hkeys, List.toFinset_card_of_nodup h.wellFormed.nodup_collect, h.wellFormed.size_eq]
  simp [strings]

/-- One call on the table does what the call on the finite map does. -/
theorem Refines.applyCall [Inhabited V] (hhash : ∀ k n, 0 < n → hash k n < n) (depth : ℕ)
    {m : HashMap P V} {A : AbsMap V} {c : Call P V} (h : Refines hash c.str m A) :
    ∃ m', MidHashmap.applyCall hash (depth + 2) m c = some (m', (absCall A c).2) ∧
      Refines hash c.str m' (absCall A c).1 := by
  obtain ⟨str, op⟩ := c
  cases op with
  | put key value =>
    obtain ⟨m', hrun, hw, hr, hfind, _⟩ :=
      defaultPut_spec hhash depth h.wellFormed h.roomy key value
    refine ⟨m', by simp [MidHashmap.applyCall, hrun, absCall], hw, hr, fun k => ?_⟩
    rw [hfind, absCall]
    by_cases hk : k = str key
    · rw [if_pos hk, hk, Finmap.lookup_insert]
    · rw [if_neg hk, Finmap.lookup_insert_of_ne _ hk, h.find_eq]
  | get key =>
    refine ⟨m, ?_, h⟩
    simp [MidHashmap.applyCall, absCall, defaultGet_eq, h.find_eq]
  | «exists» key =>
    refine ⟨m, ?_, h⟩
    simp [MidHashmap.applyCall, absCall, defaultExists_eq, h.find_eq]
  | remove key =>
    obtain ⟨p, m', hrun, hw, hr, hfind, _⟩ :=
      defaultRemove_spec hhash (depth + 1) h.wellFormed h.roomy (str key)
    refine ⟨m', by simp [MidHashmap.applyCall, hrun, absCall], hw, hr, fun k => ?_⟩
    rw [hfind, absCall]
    by_cases hk : k = str key
    · rw [if_pos hk, hk, Finmap.lookup_erase]
    · rw [if_neg hk, Finmap.lookup_erase_ne hk, h.find_eq]

theorem Refines.congr (hhash : ∀ k n, 0 < n → hash k n < n) {str' : P → Str} {m : HashMap P V}
    {A : AbsMap V} (h : Refines hash str m A) (hstr : ∀ p ∈ m.stored, str' p = str p) :
    Refines hash str' m A := by
  obtain ⟨hw, hfind⟩ := h.wellFormed.congr hhash hstr
  exact ⟨hw, h.roomy, fun k => (hfind k).trans (h.find_eq k)⟩

theorem refines_createHashMap [Inhabited V] {n : ℤ} (hn : 1 ≤ n) (hn' : n < 2 ^ 31)
    (str : P → Str) : Refines hash str (createHashMap n : HashMap P V) ∅ := by
  obtain ⟨hw, hr, hfind⟩ : WellFormed hash str (createHashMap n : HashMap P V) ∧
      Roomy (createHashMap n : HashMap P V) ∧
      ∀ k, find hash str (createHashMap n : HashMap P V) k = none :=
    createHashMap_spec hn hn'
  exact ⟨hw, hr, fun k => by rw [hfind, Finmap.lookup_empty]⟩

/-- A run of calls, by induction on the calls: the table and the finite map stay related. -/
theorem Refines.runCalls [Inhabited V] (hhash : ∀ k n, 0 < n → hash k n < n) (depth : ℕ)
    (c : Call P V) (rest : List (Call P V)) {m : HashMap P V} {A : AbsMap V}
    (h : Refines hash c.str m A)
    (hstable : KeysStable hash (depth + 2) m (c :: rest)) :
    ∃ m' str', MidHashmap.runCalls hash (depth + 2) m (c :: rest) =
        some (m', (absCalls A (c :: rest)).2) ∧
      Refines hash str' m' (absCalls A (c :: rest)).1 := by
  induction rest generalizing c m A with
  | nil =>
    obtain ⟨m', hrun, hm'⟩ := h.applyCall hhash depth
    exact ⟨m', c.str, by simp [MidHashmap.runCalls, hrun, absCalls], hm'⟩
  | cons c' rest ih =>
    obtain ⟨m₁, hrun, hm₁⟩ := h.applyCall hhash depth
    obtain ⟨hkeep, hstable'⟩ := hstable m₁ _ hrun
    obtain ⟨m', str', hrun', hm'⟩ := ih c' (hm₁.congr hhash hkeep) hstable'
    refine ⟨m', str', ?_, hm'⟩
    rw [MidHashmap.runCalls, hrun]
    simp [hrun', absCalls]

theorem defaultHashCode_lt (k : Str) (n : ℕ) (hn : 0 < n) : defaultHashCode k n < n :=
  Nat.mod_lt _ hn

end RdmaMiddleware.MidHashmap
