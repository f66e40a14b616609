import RdmaMiddleware.CInt
import Mathlib.Algebra.BigOperators.Group.Finset.Basic

/-!
# The chained hash table

A bucket is a head cell embedded in the array plus a chain of heap cells; a NULL
key in the head cell means the bucket is empty. The table stores key pointers, and
hashing and comparison look at the strings behind them, so every operation takes
the memory `str` at the time of the call. `resetHashMap` re-inserts through `put`,
which may call `resetHashMap` again: the first argument of `defaultPut` bounds that
nesting, and the result is `none` when the bound is hit or the temporary array
would be overrun. The refinement shows that neither happens.
-/
namespace RdmaMiddleware.MidHashmap
open CInt

/-- The bytes of a C string, without the terminator. -/
abbrev Str := List UInt8

variable {P V : Type*}

structure Entry (P V : Type*) where
  key : P
  value : V
  deriving DecidableEq

/-- A head cell with its chain. `key = none` is the NULL key of an empty bucket. -/
structure Cell (P V : Type*) where
  key : Option P
  value : V
  next : List (Entry P V)

structure HashMap (P V : Type*) where
  size : ℕ
  listSize : ℕ
  changeSize : Bool
  hashList : ℕ → Cell P V

def DEFAULT_MAP_SIZE : ℤ := 50

/-- One round of the string hash: shift in a signed byte, fold the top nibble back. -/
def hashRound (h : BitVec 64) (c : UInt8) : BitVec 64 :=
  let h := (h <<< 4) + c.toBitVec.signExtend 64
  let g := h &&& 0xF0000000#64
  let h := if g ≠ 0 then h ^^^ (g >>> 24) else h
  h &&& ~~~g

def defaultHashCode (key : Str) (listSize : ℕ) : ℕ :=
  (key.foldl hashRound 0#64).toNat % listSize

namespace Cell

/-- The entries of a bucket in the order in which every loop visits them. -/
def entries (c : Cell P V) : List (Entry P V) :=
  match c.key with
  | none => []
  | some p => ⟨p, c.value⟩ :: c.next

/-- The chain search of `put`: overwrite the value of the first entry with the key. -/
def overwrite (str : P → Str) (k : Str) (value : V) : List (Entry P V) → Option (List (Entry P V))
  | [] => none
  | e :: rest =>
    if str e.key = k then some ({ e with value := value } :: rest)
    else (overwrite str k value rest).map (e :: ·)

/-- The chain search of `remove`: unlink the first entry with the key. -/
def unlink (str : P → Str) (k : Str) : List (Entry P V) → Option (List (Entry P V))
  | [] => none
  | e :: rest => if str e.key = k then some rest else (unlink str k rest).map (e :: ·)

section Chains
variable (str : P → Str) (k : Str) (value : V) (e : Entry P V) (rest : List (Entry P V))

theorem overwrite_nil : overwrite str k value ([] : List (Entry P V)) = none := rfl

theorem overwrite_cons : overwrite str k value (e :: rest) =
    if str e.key = k then some ({ e with value := value } :: rest)
    else (overwrite str k value rest).map (e :: ·) := rfl

theorem unlink_nil : unlink str k ([] : List (Entry P V)) = none := rfl

theorem unlink_cons : unlink str k (e :: rest) =
    if str e.key = k then some rest else (unlink str k rest).map (e :: ·) := rfl

end Chains

variable [Inhabited V]

def empty : Cell P V := ⟨none, default, []⟩

/-- The flag says that an entry was added, that is, `size` was incremented. -/
def put (str : P → Str) (key : P) (value : V) (c : Cell P V) : Cell P V × Bool :=
  match c.key with
  | none => ({ c with key := some key, value := value }, true)
  | some p =>
    if str p = str key then ({ c with value := value }, false)
    else match overwrite str (str key) value c.next with
      | some chain => ({ c with next := chain }, false)
      | none => ({ c with next := ⟨key, value⟩ :: c.next }, true)

/-- Removing the head moves the second entry into the head cell. -/
def remove (str : P → Str) (k : Str) (c : Cell P V) : Cell P V × Bool :=
  match c.key with
  | none => (c, false)
  | some p =>
    if str p = k then
      match c.next with
      | [] => ({ c with key := none, value := default }, true)
      | e :: rest => (⟨some e.key, e.value, rest⟩, true)
    else match unlink str k c.next with
      | some chain => ({ c with next := chain }, true)
      | none => (c, false)

end Cell

variable [Inhabited V]

def createHashMap (listSize : ℤ) : HashMap P V where
  size := 0
  listSize := (if listSize = -1 then DEFAULT_MAP_SIZE else listSize).toNat
  changeSize := true
  hashList := fun _ => Cell.empty

/-- What the first loop of `resetHashMap` copies into the temporary array. -/
def HashMap.collect (m : HashMap P V) : List (Entry P V) :=
  (List.range m.listSize).flatMap (fun i => (m.hashList i).entries)

/-- The temporary array has exactly `size` cells: a larger collection overruns it,
a smaller one leaves cells that are put back uninitialised. -/
def resetHashMap (put : HashMap P V → P → V → Option (HashMap P V)) (m : HashMap P V)
    (newListSize : ℤ) : Option (HashMap P V) :=
  if newListSize < DEFAULT_MAP_SIZE then some m
  else if m.collect.length = m.size then
    m.collect.foldlM (fun m e => put m e.key e.value)
      { m with listSize := newListSize.toNat, hashList := fun _ => Cell.empty, size := 0 }
  else none

section Operations
variable (hash : Str → ℕ → ℕ) (str : P → Str)

/-- The part of `put` before the resize test. -/
def putEntry (m : HashMap P V) (key : P) (value : V) : HashMap P V × Bool :=
  let index := hash (str key) m.listSize
  let (cell, added) := (m.hashList index).put str key value
  ({ m with
      hashList := Function.update m.hashList index cell
      size := if added then m.size + 1 else m.size }, added)

def defaultPut : ℕ → HashMap P V → P → V → Option (HashMap P V)
  | 0, _, _, _ => none
  | depth + 1, m, key, value =>
    let (m, added) := putEntry hash str m key value
    -- an overwriting put returns before the test
    if added ∧ m.size ≥ m.listSize ∧ m.changeSize then
      resetHashMap (defaultPut depth) m (cInt (m.listSize * 2))
    else some m

def defaultExists (m : HashMap P V) (k : Str) : Bool :=
  (m.hashList (hash k m.listSize)).entries.any (fun e => str e.key = k)

def defaultGet (m : HashMap P V) (k : Str) : V :=
  if defaultExists hash str m k then
    (((m.hashList (hash k m.listSize)).entries.find? (fun e => str e.key = k)).map (·.value)).getD
      default
  else default

/-- The part of `remove` before the resize test. -/
def removeEntry (m : HashMap P V) (k : Str) : HashMap P V × Bool :=
  let index := hash k m.listSize
  let (cell, result) := (m.hashList index).remove str k
  ({ m with
      hashList := Function.update m.hashList index cell
      size := if result then m.size - 1 else m.size }, result)

/-- The returned pointer is read off the head cell before the chain is searched. -/
def defaultRemove (depth : ℕ) (m : HashMap P V) (k : Str) : Option (Option P × HashMap P V) :=
  let entryKey := (m.hashList (hash k m.listSize)).key
  match entryKey with
  | none => some (none, m)
  | some _ =>
    let (m, result) := removeEntry hash str m k
    if result ∧ m.size < m.listSize / 2 ∧ m.changeSize then
      (resetHashMap (defaultPut hash str depth) m (m.listSize / 2 : ℕ)).map (entryKey, ·)
    else some (entryKey, m)

end Operations

/-- The key pointers the table holds. -/
def HashMap.stored (m : HashMap P V) : Set P :=
  {p | ∃ i < m.listSize, ∃ e ∈ (m.hashList i).entries, e.key = p}

end RdmaMiddleware.MidHashmap
