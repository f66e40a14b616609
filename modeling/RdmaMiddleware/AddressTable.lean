import Mathlib.Data.BitVec
import Mathlib.Data.List.Induction
import Mathlib.Tactic

/-!
# Addresses of remote memory

A `dhmp_addr` packs the node index into the upper bits of the address the server has
returned. The client finds the memory key of a `dhmp_addr` in a chained hash table: the
bucket is chosen by the packed address, the entry by the server's address alone.
-/
namespace RdmaMiddleware.AddressTable

abbrev DHMP_SERVER_NODE_NUM : ℕ := 3
def DHMP_CLIENT_HT_SIZE : ℕ := 50000

abbrev Address := BitVec 64

structure IbvMr where
  addr : Address
  rkey : BitVec 32

structure AddrInfo where
  nodeIndex : ℤ
  writeFlag : Bool
  nvmMr : IbvMr

/-- The client's connections and its table of addresses. An `addr_info` is named by its
place in `addrInfos`; `T` are the transports, of which every node has its own. -/
structure Client (T : Type*) where
  connectTrans : Fin DHMP_SERVER_NODE_NUM → Option T
  addrInfos : List AddrInfo
  addrInfoHt : ℕ → List ℕ
  distinct : ∀ i j t, connectTrans i = some t → connectTrans j = some t → i = j

/-! ## Packed addresses -/

section Packing
variable {T : Type*} [DecidableEq T]

/-- The search for the transport; its result is the number of nodes when there is none. -/
def indexOfTrans (c : Client T) (rdmaTrans : T) : ℕ :=
  ((List.finRange DHMP_SERVER_NODE_NUM).find? fun i =>
    c.connectTrans i = some rdmaTrans).elim DHMP_SERVER_NODE_NUM Fin.val

def transferDhmpAddr (c : Client T) (rdmaTrans : T) (normalAddr : Address) : Address :=
  let nodeIndex := BitVec.ofNat 64 (indexOfTrans c rdmaTrans)
  if nodeIndex = 0 then normalAddr else normalAddr + nodeIndex <<< 48

/-- The arithmetic shift of a `long long`. -/
@[irreducible] def nodeBits (dhmpAddr : Address) : Address := dhmpAddr.sshiftRight 48

def getNodeIndexFromAddr (dhmpAddr : Address) : ℤ := ((nodeBits dhmpAddr).setWidth 32).toInt

def getTransFromAddr (c : Client T) (dhmpAddr : Address) : Option T :=
  if h : (nodeBits dhmpAddr).toNat < DHMP_SERVER_NODE_NUM then
    c.connectTrans ⟨(nodeBits dhmpAddr).toNat, h⟩
  else none

def transferNormalAddr (dhmpAddr : Address) : Address := dhmpAddr - nodeBits dhmpAddr <<< 48

end Packing

/-! ## The table -/

section Table
variable {T : Type*} (hash : Address → BitVec 32)

@[irreducible] def hashInClient (addr : Address) : ℕ :=
  ((hash addr).toNat % DHMP_CLIENT_HT_SIZE + DHMP_CLIENT_HT_SIZE) % DHMP_CLIENT_HT_SIZE

def addrInfoInsertHt (c : Client T) (dhmpAddr : Address) (info : ℕ) : Client T :=
  let index := hashInClient hash dhmpAddr
  { c with addrInfoHt := Function.update c.addrInfoHt index (info :: c.addrInfoHt index) }

theorem addrInfoInsertHt_self (c : Client T) (dhmpAddr : Address) (info : ℕ) :
    (addrInfoInsertHt hash c dhmpAddr info).addrInfoHt (hashInClient hash dhmpAddr) =
      info :: c.addrInfoHt (hashInClient hash dhmpAddr) :=
  Function.update_self ..

theorem addrInfoInsertHt_of_ne (c : Client T) (dhmpAddr : Address) (info : ℕ) {b : ℕ}
    (hb : b ≠ hashInClient hash dhmpAddr) :
    (addrInfoInsertHt hash c dhmpAddr info).addrInfoHt b = c.addrInfoHt b :=
  Function.update_of_ne hb ..

/-- The first entry of the bucket with the server's address. -/
def getAddrInfoFromHt (c : Client T) (index : ℕ) (dhmpAddr : Address) : Option ℕ :=
  (c.addrInfoHt index).find? fun info =>
    (c.addrInfos[info]?).any fun i => i.nvmMr.addr = transferNormalAddr dhmpAddr

variable [DecidableEq T]

/-- `dhmp_malloc_work_handler` once the server has answered with `mr`. -/
def mallocWorkHandler (c : Client T) (rdmaTrans : T) (mr : IbvMr) : Client T × Address :=
  if mr.addr = 0 then (c, 0)
  else
    let resAddr := transferDhmpAddr c rdmaTrans mr.addr
    let info : AddrInfo :=
      { nodeIndex := getNodeIndexFromAddr resAddr, writeFlag := false, nvmMr := mr }
    (addrInfoInsertHt hash { c with addrInfos := c.addrInfos ++ [info] } resAddr
      c.addrInfos.length, resAddr)

/-- A call of `dhmp_malloc` for `node`, with the memory region the server returns. -/
structure Alloc where
  node : Fin DHMP_SERVER_NODE_NUM
  mr : IbvMr

def dhmpMalloc (c : Client T) (a : Alloc) : Client T × Address :=
  match c.connectTrans a.node with
  | none => (c, 0)
  | some rdmaTrans => mallocWorkHandler hash c rdmaTrans a.mr

/-- Calls one after the other, with the addresses returned. -/
def mallocs (c : Client T) (as : List Alloc) : Client T × List Address :=
  as.foldl (fun p a => ((dhmpMalloc hash p.1 a).1, p.2 ++ [(dhmpMalloc hash p.1 a).2])) (c, [])

end Table

/-! ## The property -/

section Property
variable {T : Type*} [DecidableEq T]

/-- `addr` leads back to the allocation `a`, which created the `addr_info` number `info`. -/
structure Resolves (hash : Address → BitVec 32) (c : Client T) (info : ℕ) (a : Alloc)
    (addr : Address) : Prop where
  trans_eq : getTransFromAddr c addr = c.connectTrans a.node
  node_index : getNodeIndexFromAddr addr = a.node
  normal_addr : transferNormalAddr addr = a.mr.addr
  addr_info : getAddrInfoFromHt c (hashInClient hash addr) addr = some info
  mr_eq : (c.addrInfos[info]?).map AddrInfo.nvmMr = some a.mr

/-- Every address returned leads back to its allocation. -/
def AllResolve (hash : Address → BitVec 32) (c : Client T) (as : List Alloc) : Prop :=
  ∀ (i : ℕ) (a : Alloc), as[i]? = some a → ∃ addr, (mallocs hash c as).2[i]? = some addr ∧
    Resolves hash (mallocs hash c as).1 i a addr

/-- A call that succeeds: the node is connected, the address is one of user space. -/
structure Succeeds (c : Client T) (a : Alloc) : Prop where
  connected : c.connectTrans a.node ≠ none
  addr_ne : a.mr.addr ≠ 0
  addr_lt : a.mr.addr.toNat < 2 ^ 47

/-- What a call returns for an allocation. -/
def packed (a : Alloc) : Address := a.mr.addr + BitVec.ofNat 64 a.node <<< 48

end Property

/-! ## Packing and unpacking -/

section Packing
variable {T : Type*} [DecidableEq T] {c : Client T} {a : Alloc}

theorem packed_toNat (h : a.mr.addr.toNat < 2 ^ 47) :
    (packed a).toNat = a.node * 2 ^ 48 + a.mr.addr.toNat := by
  have hnode : (a.node : ℕ) < 3 := a.node.isLt
  rw [packed, BitVec.toNat_add, BitVec.toNat_shiftLeft, BitVec.toNat_ofNat, Nat.shiftLeft_eq]
  omega

theorem nodeBits_packed (h : a.mr.addr.toNat < 2 ^ 47) :
    nodeBits (packed a) = BitVec.ofNat 64 a.node := by
  have hnode : (a.node : ℕ) < 3 := a.node.isLt
  have hnat := packed_toNat h
  have hmsb : (packed a).msb = false := by
    rw [BitVec.msb_eq_false_iff_two_mul_lt]
    omega
  apply BitVec.eq_of_toNat_eq
  rw [nodeBits, BitVec.sshiftRight_eq_of_msb_false hmsb, BitVec.toNat_ushiftRight,
    Nat.shiftRight_eq_div_pow, BitVec.toNat_ofNat]
  omega

theorem indexOfTrans_eq {rdmaTrans : T} (h : c.connectTrans a.node = some rdmaTrans) :
    indexOfTrans c rdmaTrans = a.node := by
  unfold indexOfTrans
  cases hfind : (List.finRange DHMP_SERVER_NODE_NUM).find? fun i =>
      c.connectTrans i = some rdmaTrans with
  | none =>
    have := List.find?_eq_none.mp hfind a.node (List.mem_finRange _)
    simp [h] at this
  | some i =>
    have hi := List.find?_some hfind
    rw [c.distinct i a.node rdmaTrans (of_decide_eq_true hi) h]
    rfl

theorem transferDhmpAddr_eq {rdmaTrans : T} (h : c.connectTrans a.node = some rdmaTrans) :
    transferDhmpAddr c rdmaTrans a.mr.addr = packed a := by
  have hnode : (a.node : ℕ) < 3 := a.node.isLt
  unfold transferDhmpAddr packed
  rw [indexOfTrans_eq h]
  dsimp only
  split_ifs with hzero
  · rw [hzero]
    simp
  · rfl

theorem transferNormalAddr_packed (h : a.mr.addr.toNat < 2 ^ 47) :
    transferNormalAddr (packed a) = a.mr.addr := by
  rw [transferNormalAddr, nodeBits_packed h, packed, BitVec.add_sub_cancel]

theorem getNodeIndexFromAddr_packed (h : a.mr.addr.toNat < 2 ^ 47) :
    getNodeIndexFromAddr (packed a) = a.node := by
  have hnode : (a.node : ℕ) < 3 := a.node.isLt
  rw [getNodeIndexFromAddr, nodeBits_packed h, BitVec.toInt_eq_toNat_of_lt]
  · rw [BitVec.toNat_setWidth, BitVec.toNat_ofNat]
    omega
  · rw [BitVec.toNat_setWidth, BitVec.toNat_ofNat]
    omega

omit [DecidableEq T] in
theorem getTransFromAddr_packed (h : a.mr.addr.toNat < 2 ^ 47) :
    getTransFromAddr c (packed a) = c.connectTrans a.node := by
  have hnode : (a.node : ℕ) < 3 := a.node.isLt
  have hnat : (nodeBits (packed a)).toNat = a.node := by
    rw [nodeBits_packed h, BitVec.toNat_ofNat]
    omega
  rw [getTransFromAddr, dif_pos (hnat.trans_lt a.node.isLt)]
  exact congrArg c.connectTrans (Fin.ext hnat)

end Packing

/-! ## The table after the calls -/

section Calls
variable {T : Type*} [DecidableEq T] {hash : Address → BitVec 32} {c c' : Client T}
  {as : List Alloc} {a : Alloc}

/-- A client that has not allocated anything. -/
structure Fresh (c : Client T) : Prop where
  no_infos : c.addrInfos = []
  empty : ∀ b, c.addrInfoHt b = []

/-- A bucket holds the allocations that hash to it, the newest first. -/
structure Tabled (hash : Address → BitVec 32) (c : Client T) (as : List Alloc) : Prop where
  infos : c.addrInfos.map AddrInfo.nvmMr = as.map Alloc.mr
  mem_iff : ∀ b i, i ∈ c.addrInfoHt b ↔
    ∃ a, as[i]? = some a ∧ hashInClient hash (packed a) = b
  newest_first : ∀ b, (c.addrInfoHt b).Pairwise (· > ·)

theorem dhmpMalloc_eq (h : Succeeds c a) :
    (dhmpMalloc hash c a).2 = packed a ∧ (dhmpMalloc hash c a).1 =
      addrInfoInsertHt hash { c with addrInfos := c.addrInfos ++
        [{ nodeIndex := getNodeIndexFromAddr (packed a), writeFlag := false, nvmMr := a.mr }] }
        (packed a) c.addrInfos.length := by
  obtain ⟨rdmaTrans, htrans⟩ := Option.ne_none_iff_exists'.mp h.connected
  simp only [dhmpMalloc, htrans, mallocWorkHandler, if_neg h.addr_ne, transferDhmpAddr_eq htrans,
    and_self]

theorem Tabled.malloc (h : Tabled hash c as) (hok : Succeeds c a) :
    Tabled hash (dhmpMalloc hash c a).1 (as ++ [a]) := by
  have hlen : c.addrInfos.length = as.length := by simpa using congrArg List.length h.infos
  have hold : ∀ b, ∀ i ∈ c.addrInfoHt b, i < as.length := by
    intro b i hi
    obtain ⟨a', ha', -⟩ := (h.mem_iff b i).mp hi
    exact (List.getElem?_eq_some_iff.mp ha').1
  have hgrow : ∀ b i, (∃ a', (as ++ [a])[i]? = some a' ∧ hashInClient hash (packed a') = b) ↔
      i ∈ c.addrInfoHt b ∨ i = as.length ∧ hashInClient hash (packed a) = b := by
    intro b i
    rw [h.mem_iff]
    rcases Nat.lt_trichotomy i as.length with hi | rfl | hi
    · rw [List.getElem?_append_left hi]
      simp [hi.ne]
    · simp
    · rw [List.getElem?_eq_none (by simp; omega), List.getElem?_eq_none hi.le]
      simp [hi.ne']
  rw [(dhmpMalloc_eq hok).2]
  refine ⟨?_, ?_, ?_⟩
  · simp [addrInfoInsertHt, h.infos]
  · intro b i
    rw [hgrow]
    by_cases hb : b = hashInClient hash (packed a)
    · rw [hb, addrInfoInsertHt_self, List.mem_cons, hlen, or_comm]
      simp only [and_true]
    · rw [addrInfoInsertHt_of_ne hash _ _ _ hb]
      exact ⟨.inl, fun hi => hi.resolve_right fun heq => hb heq.2.symm⟩
  · intro b
    by_cases hb : b = hashInClient hash (packed a)
    · rw [hb, addrInfoInsertHt_self, List.pairwise_cons]
      exact ⟨fun i hi => hlen ▸ hold _ i hi, h.newest_first _⟩
    · rw [addrInfoInsertHt_of_ne hash _ _ _ hb]
      exact h.newest_first b

theorem mallocs_concat (hash : Address → BitVec 32) (c : Client T) (as : List Alloc) (a : Alloc) :
    mallocs hash c (as ++ [a]) = ((dhmpMalloc hash (mallocs hash c as).1 a).1,
      (mallocs hash c as).2 ++ [(dhmpMalloc hash (mallocs hash c as).1 a).2]) := by
  simp [mallocs]

/-- After any sequence of successful calls. -/
theorem mallocs_spec (hfresh : Fresh c) (hok : ∀ a ∈ as, Succeeds c a) :
    Tabled hash (mallocs hash c as).1 as ∧
      (mallocs hash c as).1.connectTrans = c.connectTrans ∧
      (mallocs hash c as).2 = as.map packed := by
  induction as using List.reverseRecOn with
  | nil =>
    refine ⟨⟨?_, ?_, ?_⟩, rfl, rfl⟩
    · simp [mallocs, hfresh.no_infos]
    · simp [mallocs, hfresh.empty]
    · simp [mallocs, hfresh.empty]
  | append_singleton as a ih =>
    obtain ⟨htable, htrans, haddrs⟩ := ih fun a' ha' => hok a' (List.mem_append_left _ ha')
    have ha := hok a (by simp)
    have hok' : Succeeds (mallocs hash c as).1 a :=
      ⟨htrans ▸ ha.connected, ha.addr_ne, ha.addr_lt⟩
    rw [mallocs_concat]
    refine ⟨htable.malloc hok', ?_, ?_⟩
    · rw [(dhmpMalloc_eq hok').2]
      exact htrans
    · rw [(dhmpMalloc_eq hok').1, haddrs]
      simp

/-! ## Looking addresses up -/

/-- In a list from the largest down, the search finds the largest match. -/
theorem find?_eq_some_iff_largest {l : List ℕ} {p : ℕ → Bool} {i : ℕ} (hl : l.Pairwise (· > ·))
    (hi : i ∈ l) (hp : p i = true) : l.find? p = some i ↔ ∀ j ∈ l, p j = true → j ≤ i := by
  have hlargest : ∀ k, l.find? p = some k → ∀ j ∈ l, p j = true → j ≤ k := by
    intro k hk j hj hpj
    obtain ⟨-, front, back, rfl, hfront⟩ := List.find?_eq_some_iff_append.mp hk
    rcases List.mem_append.mp hj with hj | hj
    · have := hfront j hj
      rw [hpj] at this
      cases this
    · rcases List.mem_cons.mp hj with rfl | hj
      · exact le_rfl
      · have hback := (List.pairwise_append.mp hl).2.1
        exact ((List.pairwise_cons.mp hback).1 j hj).le
  refine ⟨hlargest i, fun h => ?_⟩
  cases hfind : l.find? p with
  | none => exact absurd hp (List.find?_eq_none.mp hfind i hi)
  | some k =>
    have hle := h k (List.mem_of_find?_eq_some hfind) (List.find?_some hfind)
    have hge := hlargest k hfind i hi hp
    rw [le_antisymm hle hge]

omit [DecidableEq T] in
theorem Tabled.mr_eq (h : Tabled hash c as) {i : ℕ} (ha : as[i]? = some a) :
    (c.addrInfos[i]?).map AddrInfo.nvmMr = some a.mr := by
  rw [← List.getElem?_map, h.infos, List.getElem?_map, ha, Option.map_some]

omit [DecidableEq T] in
theorem Tabled.addr_eq_iff (h : Tabled hash c as) {i : ℕ} (ha : as[i]? = some a)
    (addr : Address) : ((c.addrInfos[i]?).any fun info => info.nvmMr.addr = addr) = true ↔
      a.mr.addr = addr := by
  obtain ⟨info, hinfo, hmr⟩ := Option.map_eq_some_iff.mp (h.mr_eq ha)
  rw [hinfo, Option.any_some, hmr, decide_eq_true_eq]

omit [DecidableEq T] in
/-- An allocation is found under its address unless a later one with the same server address
is in its bucket. -/
theorem Tabled.getAddrInfo_iff (h : Tabled hash c as) {i : ℕ} (ha : as[i]? = some a)
    (hlt : a.mr.addr.toNat < 2 ^ 47) :
    getAddrInfoFromHt c (hashInClient hash (packed a)) (packed a) = some i ↔
      ∀ j a', i < j → as[j]? = some a' → a.mr.addr = a'.mr.addr →
        hashInClient hash (packed a) ≠ hashInClient hash (packed a') := by
  rw [getAddrInfoFromHt, transferNormalAddr_packed hlt,
    find?_eq_some_iff_largest (h.newest_first _) ((h.mem_iff _ i).mpr ⟨a, ha, rfl⟩)
      ((h.addr_eq_iff ha _).mpr rfl)]
  constructor
  · intro hnewest j a' hij ha' haddr hbucket
    have := hnewest j ((h.mem_iff _ j).mpr ⟨a', ha', hbucket.symm⟩)
      ((h.addr_eq_iff ha' _).mpr haddr.symm)
    omega
  · intro hapart j hj hmatch
    obtain ⟨a', ha', hbucket⟩ := (h.mem_iff _ j).mp hj
    by_contra hlater
    exact hapart j a' (by omega) ha' ((h.addr_eq_iff ha' _).mp hmatch).symm hbucket.symm

omit [DecidableEq T] in
/-- Some entry with the server's address is found, if not always the right one. -/
theorem Tabled.find_addr (h : Tabled hash c as) (ha : a ∈ as) (hlt : a.mr.addr.toNat < 2 ^ 47) :
    ∃ i info, getAddrInfoFromHt c (hashInClient hash (packed a)) (packed a) = some i ∧
      c.addrInfos[i]? = some info ∧ info.nvmMr.addr = a.mr.addr := by
  obtain ⟨j, hj⟩ := List.mem_iff_getElem?.mp ha
  unfold getAddrInfoFromHt
  rw [transferNormalAddr_packed hlt]
  cases hfind : (c.addrInfoHt (hashInClient hash (packed a))).find? fun info =>
      (c.addrInfos[info]?).any fun i => i.nvmMr.addr = a.mr.addr with
  | none =>
    have hmem := (h.mem_iff _ j).mpr ⟨a, hj, rfl⟩
    exact absurd ((h.addr_eq_iff hj _).mpr rfl) (List.find?_eq_none.mp hfind j hmem)
  | some i =>
    have hmatch := List.find?_some hfind
    cases hinfo : c.addrInfos[i]? with
    | none => simp [hinfo] at hmatch
    | some info => exact ⟨i, info, rfl, hinfo, by simpa [hinfo] using hmatch⟩

theorem mallocs_writeFlag (hfresh : Fresh c) (as : List Alloc) :
    ∀ i ∈ (mallocs hash c as).1.addrInfos, i.writeFlag = false := by
  induction as using List.reverseRecOn with
  | nil => simp [mallocs, hfresh.no_infos]
  | append_singleton as a ih =>
    rw [mallocs_concat]
    unfold dhmpMalloc mallocWorkHandler
    cases (mallocs hash c as).1.connectTrans a.node with
    | none => exact ih
    | some rdmaTrans =>
      dsimp only
      split_ifs
      · exact ih
      · intro i hi
        rcases List.mem_append.mp hi with hi | hi
        · exact ih i hi
        · rw [List.mem_singleton.mp hi]

/-- All addresses resolve exactly when allocations with the same server address never share
a bucket. -/
theorem allResolve_iff (hash : Address → BitVec 32) (c : Client T) (as : List Alloc)
    (hfresh : Fresh c) (hok : ∀ a ∈ as, Succeeds c a) :
    AllResolve hash c as ↔ ∀ (i j : ℕ) (a a' : Alloc), i < j → as[i]? = some a → as[j]? = some a' →
      a.mr.addr = a'.mr.addr →
        hashInClient hash (packed a) ≠ hashInClient hash (packed a') := by
  obtain ⟨htable, htrans, haddrs⟩ := @mallocs_spec T _ hash c as hfresh hok
  have hreturned : ∀ (i : ℕ) (a : Alloc), as[i]? = some a →
      (mallocs hash c as).2[i]? = some (packed a) := by
    intro i a ha
    rw [haddrs, List.getElem?_map, ha, Option.map_some]
  constructor
  · intro hall i j a a' hij ha ha' haddr
    obtain ⟨addr, hget, hres⟩ := hall i a ha
    obtain rfl := Option.some.inj ((hreturned i a ha).symm.trans hget)
    have hlt := (hok a (List.mem_of_getElem? ha)).addr_lt
    exact (htable.getAddrInfo_iff ha hlt).mp hres.addr_info j a' hij ha' haddr
  · intro hapart i a ha
    have hlt := (hok a (List.mem_of_getElem? ha)).addr_lt
    refine ⟨packed a, hreturned i a ha, ?_, getNodeIndexFromAddr_packed hlt,
      transferNormalAddr_packed hlt, ?_, htable.mr_eq ha⟩
    · rw [getTransFromAddr_packed hlt, htrans]
    · exact (htable.getAddrInfo_iff ha hlt).mpr fun j a' hij ha' haddr =>
        hapart i j a a' hij ha ha' haddr

end Calls

/-- Node 0 is the client itself; a transport is named by its node. -/
def headClient : Client ℕ where
  connectTrans := fun i => if i = 0 then none else some i
  addrInfos := []
  addrInfoHt := fun _ => []
  distinct := by
    intro i j t hi hj
    split_ifs at hi hj
    exact Fin.ext (Option.some.inj (hi.trans hj.symm))

/-- One region on node 1. -/
def nodeOneAlloc : Alloc := ⟨1, ⟨4096, 1⟩⟩

/-- Two nodes return the same address. -/
def sameAddress : List Alloc := [⟨1, ⟨4096, 1⟩⟩, ⟨2, ⟨4096, 2⟩⟩]

theorem succeeds_sameAddress : ∀ a ∈ sameAddress, Succeeds headClient a := by
  intro a ha
  simp only [sameAddress, List.mem_cons, List.not_mem_nil, or_false] at ha
  rcases ha with rfl | rfl <;> exact ⟨by decide, by decide, by decide⟩

/-- A hash that keeps the two apart. -/
theorem allResolve_iff_sameAddress :
    AllResolve (fun addr => (addr >>> 48).setWidth 32) headClient sameAddress := by
  refine (allResolve_iff _ _ _ ⟨rfl, fun _ => rfl⟩ succeeds_sameAddress).mpr ?_
  intro i j a a' hij ha ha' _
  have hj : j < 2 := (List.getElem?_eq_some_iff.mp ha').1
  obtain rfl : i = 0 := by omega
  obtain rfl : j = 1 := by omega
  cases ha
  cases ha'
  decide +kernel

/-- With a hash under which they collide, the first allocation gives the key of the second. -/
theorem not_allResolve_collision : ¬ AllResolve (fun _ => 0) headClient sameAddress := by
  intro h
  obtain ⟨addr, haddr, hres⟩ := h 0 ⟨1, ⟨4096, 1⟩⟩ rfl
  have hreturned : (mallocs (fun _ => 0) headClient sameAddress).2[0]? =
      some (packed ⟨1, ⟨4096, 1⟩⟩) := by
    rw [(mallocs_spec ⟨rfl, fun _ => rfl⟩ succeeds_sameAddress).2.2]
    rfl
  obtain rfl := Option.some.inj (hreturned.symm.trans haddr)
  have hwrong : getAddrInfoFromHt (mallocs (fun _ => 0) headClient sameAddress).1
      (hashInClient (fun _ => 0) (packed ⟨1, ⟨4096, 1⟩⟩)) (packed ⟨1, ⟨4096, 1⟩⟩) = some 1 := by
    decide +kernel
  have hfound := hwrong.symm.trans hres.addr_info
  cases hfound

end RdmaMiddleware.AddressTable
