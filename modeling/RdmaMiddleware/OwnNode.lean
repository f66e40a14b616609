import RdmaMiddleware.Connection
import RdmaMiddleware.Chain

/-!
# Which node of the chain this host is

`dhmp_set_curnode_id` walks over the configured entries and, inside, over the interfaces
that the kernel reports. The interface cursor `ifr` is set once, in front of both loops.
-/
namespace RdmaMiddleware.OwnNode
open Connection MidHashmap
open Chain (NodeClass)

/-- `dhmp_net_info`, without the port. -/
structure NetInfo where
  nicName : Str
  addr : Str

/-- An `ifreq` of `SIOCGIFCONF`, with the two flags that `SIOCGIFFLAGS` gives for it. -/
structure Ifreq where
  name : Str
  loopback : Bool
  up : Bool
  addr : InAddr

/-- The test of the inner loop. -/
def Ifreq.wantedBy (ifr : Ifreq) (info : NetInfo) : Bool :=
  !ifr.loopback && ifr.up && ifr.name == info.nicName

inductive Outcome
  | selected (curnetId : ℕ)
  | exit
  /-- A record behind the reported ones is examined. -/
  | overrun
  deriving DecidableEq

/-- The inner loop with `steps` rounds to go: the interface found, if any, and the cursor.
The result is `none` when the cursor leaves the records. -/
def examine (ifs : List Ifreq) (info : NetInfo) : ℕ → ℕ → Option (Option Ifreq × ℕ)
  | 0, cursor => some (none, cursor)
  | steps + 1, cursor =>
    match ifs[cursor]? with
    | none => none
    | some ifr =>
      if ifr.wantedBy info then some (some ifr, cursor) else examine ifs info steps (cursor + 1)

/-- The outer loop over the entries from the `k`-th on. -/
def searchFrom (infos : List NetInfo) (ifs : List Ifreq) : List NetInfo → ℕ → Outcome
  | [], _ => .exit
  | info :: rest, cursor =>
    match examine ifs info ifs.length cursor with
    | none => .overrun
    | some (none, cursor) => searchFrom infos ifs rest cursor
    | some (some ifr, cursor) =>
      match infos.findIdx? (fun e => e.addr == inetNtop ifr.addr) with
      | some i => .selected i
      | none => searchFrom infos ifs rest cursor

/-- `dhmp_set_curnode_id`; `infos` are the first `nets_cnt` entries. -/
def setCurnodeId (infos : List NetInfo) (ifs : List Ifreq) : Outcome :=
  searchFrom infos ifs infos 0

/-- The class that `main` gives to the node; it exits when there are fewer than two nodes. -/
def nodeClass (serverId numChainClusters : ℕ) : Option NodeClass :=
  if numChainClusters ≤ 1 then none
  else if serverId = numChainClusters - 1 then some .TAIL
  else if serverId = 0 then some .HEAD
  else some .NORMAL

/-! ## The property -/

/-- The interface has the address of a configured entry. -/
def Configured (infos : List NetInfo) (ifr : Ifreq) : Prop :=
  ∃ info ∈ infos, info.addr = inetNtop ifr.addr

/-- The interface is named by one entry and has the address of one. -/
def Own (infos : List NetInfo) (ifr : Ifreq) : Prop :=
  (∃ info ∈ infos, ifr.wantedBy info = true) ∧ Configured infos ifr

/-- What a node class says about the place of an entry among `n`. -/
def Placed (i n : ℕ) : NodeClass → Prop
  | .HEAD => i = 0
  | .TAIL => i + 1 = n
  | .NORMAL => 0 < i ∧ i + 1 < n

/-- The node finds itself among the entries. -/
structure Identifies (infos : List NetInfo) (ifs : List Ifreq) : Prop where
  within : setCurnodeId infos ifs ≠ .overrun
  selects : (∃ i, setCurnodeId infos ifs = .selected i) ↔ ∃ ifr ∈ ifs, Own infos ifr
  addr : ∀ i, setCurnodeId infos ifs = .selected i → ∃ info, infos[i]? = some info ∧
    ∃ ifr ∈ ifs, Own infos ifr ∧ info.addr = inetNtop ifr.addr
  exits : setCurnodeId infos ifs = .exit → ¬ ∃ ifr ∈ ifs, Own infos ifr
  placed : ∀ i c, setCurnodeId infos ifs = .selected i →
    nodeClass i infos.length = some c → Placed i infos.length c

/-! ## One pass over the interfaces -/

/-- The interfaces from the first one on that the entry names. -/
def fromNamed (info : NetInfo) (ifs : List Ifreq) : List Ifreq :=
  ifs.dropWhile (fun ifr => !ifr.wantedBy info)

/-- Going forward only, each entry names an interface at or behind the one of the entry
before, until one with a configured address is met. -/
def Meets (infos : List NetInfo) : List NetInfo → List Ifreq → Prop
  | [], _ => False
  | info :: rest, ifs =>
    match fromNamed info ifs with
    | [] => False
    | ifr :: more => Configured infos ifr ∨ Meets infos rest (ifr :: more)

/-- Going forward only, each entry names an interface, but for a last one that is looked for
among all of them. -/
def Bounded (all : List Ifreq) : List NetInfo → List Ifreq → Prop
  | [], _ => True
  | info :: rest, ifs =>
    match fromNamed info ifs with
    | [] => ifs.length = all.length ∧ (rest = [] ∨ all = [])
    | ifr :: more => Bounded all rest (ifr :: more)

variable {infos : List NetInfo} {ifs : List Ifreq} {info : NetInfo} {steps cursor : ℕ}

/-- The inner loop stops at the first interface that the entry names. -/
theorem examine_found {ifr : Ifreq} {more : List Ifreq}
    (hnamed : fromNamed info (ifs.drop cursor) = ifr :: more)
    (hsteps : ifs.length ≤ cursor + steps) :
    ∃ cursor', examine ifs info steps cursor = some (some ifr, cursor') ∧
      ifs.drop cursor' = ifr :: more := by
  induction steps generalizing cursor with
  | zero =>
    rw [List.drop_of_length_le (by omega)] at hnamed
    cases hnamed
  | succ steps ih =>
    cases hget : ifs[cursor]? with
    | none =>
      rw [List.drop_of_length_le (List.getElem?_eq_none_iff.mp hget)] at hnamed
      cases hnamed
    | some j =>
      have hdrop : ifs.drop cursor = j :: ifs.drop (cursor + 1) := by
        obtain ⟨hlt, rfl⟩ := List.getElem?_eq_some_iff.mp hget
        exact List.drop_eq_getElem_cons hlt
      rw [hdrop, fromNamed, List.dropWhile_cons] at hnamed
      rw [examine, hget]
      by_cases hwanted : j.wantedBy info = true
      · rw [if_neg (by simp [hwanted])] at hnamed
        cases hnamed
        exact ⟨cursor, by simp [hwanted], hdrop⟩
      · rw [if_pos (by simp [hwanted])] at hnamed
        obtain ⟨cursor', hfound, hrest⟩ := ih hnamed (by omega)
        exact ⟨cursor', by simpa [hwanted] using hfound, hrest⟩

/-- Without such an interface it makes all its rounds, if there are records for them. -/
theorem examine_missing (hnamed : fromNamed info (ifs.drop cursor) = [])
    (hcursor : cursor ≤ ifs.length) : examine ifs info steps cursor =
      if cursor + steps ≤ ifs.length then some (none, cursor + steps) else none := by
  induction steps generalizing cursor with
  | zero => simp [examine, hcursor]
  | succ steps ih =>
    cases hget : ifs[cursor]? with
    | none =>
      have hge := List.getElem?_eq_none_iff.mp hget
      rw [examine, hget, if_neg (by omega)]
    | some j =>
      obtain ⟨hlt, rfl⟩ := List.getElem?_eq_some_iff.mp hget
      rw [List.drop_eq_getElem_cons hlt, fromNamed, List.dropWhile_cons] at hnamed
      split_ifs at hnamed with hwanted
      rw [examine, hget, ih hnamed (by omega), Nat.add_right_comm]
      simp only [Bool.not_eq_true'] at hwanted
      simp [hwanted, Nat.add_assoc]

/-! ## The search -/

/-- The second inner loop finds an entry with the address exactly when there is one. -/
theorem findIdx?_configured (infos : List NetInfo) (ifr : Ifreq) :
    (∀ i, infos.findIdx? (fun e => e.addr == inetNtop ifr.addr) = some i →
      ∃ info, infos[i]? = some info ∧ info.addr = inetNtop ifr.addr) ∧
    (infos.findIdx? (fun e => e.addr == inetNtop ifr.addr) = none ↔ ¬ Configured infos ifr) := by
  constructor
  · intro i hi
    obtain ⟨hlt, htest, -⟩ := List.findIdx?_eq_some_iff_getElem.mp hi
    exact ⟨infos[i], List.getElem?_eq_getElem hlt, beq_iff_eq.mp htest⟩
  · rw [List.findIdx?_eq_none_iff]
    simp [Configured]

theorem wantedBy_of_fromNamed {ifr : Ifreq} {more : List Ifreq}
    (hnamed : fromNamed info ifs = ifr :: more) : ifr.wantedBy info = true := by
  have hhead := List.head?_dropWhile_not (fun ifr => !Ifreq.wantedBy ifr info) ifs
  unfold fromNamed at hnamed
  rw [hnamed] at hhead
  simpa using hhead

/-- A pass that meets a configured address selects the entry with that address. -/
theorem searchFrom_of_meets {rest : List NetInfo} (hsub : ∀ e ∈ rest, e ∈ infos)
    (hmeets : Meets infos rest (ifs.drop cursor)) :
    ∃ i, searchFrom infos ifs rest cursor = .selected i ∧ ∃ info, infos[i]? = some info ∧
      ∃ ifr ∈ ifs, Own infos ifr ∧ info.addr = inetNtop ifr.addr := by
  induction rest generalizing cursor with
  | nil => cases hmeets
  | cons info rest ih =>
    unfold Meets at hmeets
    cases hnamed : fromNamed info (ifs.drop cursor) with
    | nil =>
      rw [hnamed] at hmeets
      cases hmeets
    | cons ifr more =>
      rw [hnamed] at hmeets
      obtain ⟨cursor', hfound, hdrop⟩ := examine_found hnamed (Nat.le_add_left ..)
      rw [searchFrom, hfound]
      dsimp only
      have hmem : ifr ∈ ifs := List.mem_of_mem_drop (hdrop ▸ List.mem_cons_self)
      cases hidx : infos.findIdx? (fun e => e.addr == inetNtop ifr.addr) with
      | none =>
        have hnot := (findIdx?_configured infos ifr).2.mp hidx
        have hlater : Meets infos rest (ifr :: more) := hmeets.resolve_left hnot
        rw [← hdrop] at hlater
        exact ih (fun e he => hsub e (List.mem_cons_of_mem _ he)) hlater
      | some i =>
        obtain ⟨e, he, haddr⟩ := (findIdx?_configured infos ifr).1 i hidx
        refine ⟨i, rfl, e, he, ifr, hmem, ?_, haddr⟩
        exact ⟨⟨info, hsub info List.mem_cons_self, wantedBy_of_fromNamed hnamed⟩,
          e, List.mem_of_getElem? he, haddr⟩

theorem searchFrom_nil (infos rest : List NetInfo) : searchFrom infos [] rest 0 = .exit := by
  induction rest with
  | nil => rfl
  | cons info rest ih => exact ih

/-- Behind the last interface no entry can be looked for. -/
theorem searchFrom_end (info : NetInfo) (rest : List NetInfo) (hifs : ifs ≠ []) :
    searchFrom infos ifs (info :: rest) ifs.length = .overrun := by
  have hpos := List.length_pos_iff.mpr hifs
  have hnamed : fromNamed info (ifs.drop ifs.length) = [] := by
    rw [List.drop_length]
    rfl
  rw [searchFrom, examine_missing hnamed le_rfl, if_neg (by omega)]

/-- A pass that meets none ends in the error exit or behind the records. -/
theorem searchFrom_of_not_meets {rest : List NetInfo} (hcursor : cursor ≤ ifs.length)
    (hnot : ¬ Meets infos rest (ifs.drop cursor)) :
    searchFrom infos ifs rest cursor = .exit ∧ Bounded ifs rest (ifs.drop cursor) ∨
      searchFrom infos ifs rest cursor = .overrun ∧ ¬ Bounded ifs rest (ifs.drop cursor) := by
  induction rest generalizing cursor with
  | nil => exact .inl ⟨rfl, trivial⟩
  | cons info rest ih =>
    unfold Meets at hnot
    unfold Bounded
    cases hnamed : fromNamed info (ifs.drop cursor) with
    | nil =>
      have hall : (ifs.drop cursor).length = ifs.length ↔ cursor + ifs.length ≤ ifs.length := by
        rw [List.length_drop]
        omega
      rw [searchFrom, examine_missing hnamed hcursor]
      dsimp only
      by_cases hround : cursor + ifs.length ≤ ifs.length
      · rw [if_pos hround, hall]
        dsimp only
        obtain rfl : cursor = 0 := by omega
        rw [Nat.zero_add]
        cases rest with
        | nil => exact .inl ⟨rfl, le_rfl, .inl rfl⟩
        | cons e rest =>
          by_cases hifs : ifs = []
          · subst hifs
            exact .inl ⟨searchFrom_nil infos (e :: rest), le_rfl, .inr rfl⟩
          · refine .inr ⟨searchFrom_end e rest hifs, ?_⟩
            simp [hifs]
      · rw [if_neg hround, hall]
        exact .inr ⟨rfl, fun h => hround h.1⟩
    | cons ifr more =>
      rw [hnamed, not_or] at hnot
      obtain ⟨cursor', hfound, hdrop⟩ := examine_found hnamed (Nat.le_add_left ..)
      have hcursor' : cursor' ≤ ifs.length := by
        by_contra hgt
        rw [List.drop_of_length_le (by omega)] at hdrop
        cases hdrop
      rw [searchFrom, hfound]
      dsimp only
      rw [(findIdx?_configured infos ifr).2.mpr hnot.1, ← hdrop]
      exact ih hcursor' (hdrop ▸ hnot.2)

theorem placed_of_nodeClass {i n : ℕ} {c : NodeClass} (hi : i < n) (hc : nodeClass i n = some c) :
    Placed i n c := by
  unfold nodeClass at hc
  split_ifs at hc with hone htail hhead
  · cases hc
    show i + 1 = n
    omega
  · cases hc
    exact hhead
  · cases hc
    show 0 < i ∧ i + 1 < n
    omega

theorem identifies_of_meets (hmeets : Meets infos infos ifs) : Identifies infos ifs := by
  obtain ⟨i, hsel, e, he, ifr, hmem, hown, haddr⟩ :=
    searchFrom_of_meets (fun _ he => he) (show Meets infos infos (ifs.drop 0) from hmeets)
  change setCurnodeId infos ifs = .selected i at hsel
  constructor
  · rw [hsel]
    exact Outcome.noConfusion
  · exact iff_of_true ⟨i, hsel⟩ ⟨ifr, hmem, hown⟩
  · intro j hj
    rw [hsel] at hj
    cases hj
    exact ⟨e, he, ifr, hmem, hown, haddr⟩
  · intro hexit
    rw [hsel] at hexit
    cases hexit
  · intro j c hj hc
    rw [hsel] at hj
    cases hj
    exact placed_of_nodeClass (List.getElem?_eq_some_iff.mp he).1 hc

theorem identifies_of_exit (hexit : setCurnodeId infos ifs = .exit)
    (hnone : ¬ ∃ ifr ∈ ifs, Own infos ifr) : Identifies infos ifs := by
  have hnever : ∀ i, setCurnodeId infos ifs ≠ .selected i := by
    intro i
    rw [hexit]
    exact Outcome.noConfusion
  constructor
  · rw [hexit]
    exact Outcome.noConfusion
  · exact iff_of_false (fun ⟨i, hi⟩ => hnever i hi) hnone
  · exact fun i hi => absurd hi (hnever i)
  · exact fun _ => hnone
  · exact fun i _ hi => absurd hi (hnever i)

/-- The node finds itself exactly when one pass over the interfaces meets a configured
address, or there is no interface to be found and the pass stays among the records. -/
theorem identifies_iff (infos : List NetInfo) (ifs : List Ifreq) :
    Identifies infos ifs ↔ Meets infos infos ifs ∨
      (¬ ∃ ifr ∈ ifs, Own infos ifr) ∧ Bounded ifs infos ifs := by
  by_cases hmeets : Meets infos infos ifs
  · exact iff_of_true (identifies_of_meets hmeets) (.inl hmeets)
  rw [or_iff_right hmeets]
  rcases searchFrom_of_not_meets (Nat.zero_le _)
    (show ¬ Meets infos infos (ifs.drop 0) from hmeets) with ⟨hexit, hin⟩ | ⟨hover, hout⟩
  · constructor
    · exact fun h => ⟨h.exits hexit, hin⟩
    · exact fun h => identifies_of_exit hexit h.1
  · constructor
    · exact fun h => absurd hover h.within
    · exact fun h => absurd h.2 hout

/-- A chain of two nodes with the interfaces eth0 and eth1. -/
def twoNodes : List NetInfo :=
  [⟨[101, 116, 104, 48], inetNtop ⟨10, 0, 0, 1⟩⟩, ⟨[101, 116, 104, 49], inetNtop ⟨10, 0, 0, 2⟩⟩]

/-- The second node: lo and eth1. -/
def secondHost : List Ifreq :=
  [⟨[108, 111], true, true, ⟨127, 0, 0, 1⟩⟩, ⟨[101, 116, 104, 49], false, true, ⟨10, 0, 0, 2⟩⟩]

/-- The second node does not find itself, since the first entry's interface is not on its
host: the second round starts behind the records. -/
theorem not_identifies_secondHost :
    (¬ ∀ infos ifs, Identifies infos ifs) ∧ setCurnodeId twoNodes secondHost = .overrun ∧
      ∃ ifr ∈ secondHost, Own twoNodes ifr := by
  have hover : setCurnodeId twoNodes secondHost = .overrun := by decide
  refine ⟨fun hclaim => (hclaim twoNodes secondHost).within hover, hover, ?_⟩
  refine ⟨⟨[101, 116, 104, 49], false, true, ⟨10, 0, 0, 2⟩⟩, by simp [secondHost], ?_, ?_⟩
  · exact ⟨⟨[101, 116, 104, 49], inetNtop ⟨10, 0, 0, 2⟩⟩, by simp [twoNodes], by decide⟩
  · exact ⟨⟨[101, 116, 104, 49], inetNtop ⟨10, 0, 0, 2⟩⟩, by simp [twoNodes], rfl⟩

end RdmaMiddleware.OwnNode
