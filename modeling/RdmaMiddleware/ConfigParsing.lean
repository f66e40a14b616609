import RdmaMiddleware.OwnNode

/-!
# Reading config.xml

The parser copies the text of each known element into the `dhmp_config` of the node. The
record is memory: a copy that is too long, or an entry behind the arrays, goes into what lies
behind. Every store is recorded with the field it is meant for and its length.
-/
namespace RdmaMiddleware.ConfigParsing
open CInt CircularMemory MidHashmap LogBuffer OwnNode

def DHMP_SERVER_NODE_NUM : ℕ := 3
def DHMP_ADDR_LEN : ℕ := 18
def DHMA_NIC_NAME_LEN : ℕ := 10

/-! ## The document -/

/-- A child node of a section; `text` is what `xmlNodeListGetString` gives for it. -/
structure Field where
  name : String
  text : Option CString

/-- A child node of the root. -/
structure Section where
  name : String
  fields : List Field

structure Root where
  name : String
  sections : List Section

/-- What `xmlParseFile` and `xmlDocGetRootElement` give. -/
inductive Document
  | unparsed
  | noRoot
  | root (r : Root)

/-! ## The record -/

/-- The fields of a `dhmp_config` that are written. -/
inductive Slot
  | nicName (index : ℕ)
  | addr (index : ℕ)
  | port (index : ℕ)
  | rdelay (index : ℕ)
  | wdelay (index : ℕ)
  | knum (index : ℕ)
  | dramNode (index : ℕ)
  | nvmNode (index : ℕ)
  | curnetId
  | netsCnt
  | watcherAddr
  | watcherPort
  deriving DecidableEq

namespace Slot

def sizeofNetInfo : ℕ := 32
def sizeofSimuInfo : ℕ := 12
def sizeofMemInfo : ℕ := 8
def simuInfos : ℕ := DHMP_SERVER_NODE_NUM * sizeofNetInfo
def memInfos : ℕ := simuInfos + DHMP_SERVER_NODE_NUM * sizeofSimuInfo
def behindInfos : ℕ := memInfos + DHMP_SERVER_NODE_NUM * sizeofMemInfo

/-- Where the field lies in the record. -/
def offset : Slot → ℕ
  | nicName i => sizeofNetInfo * i
  | addr i => sizeofNetInfo * i + 10
  | port i => sizeofNetInfo * i + 28
  | rdelay i => simuInfos + sizeofSimuInfo * i
  | wdelay i => simuInfos + sizeofSimuInfo * i + 4
  | knum i => simuInfos + sizeofSimuInfo * i + 8
  | dramNode i => memInfos + sizeofMemInfo * i
  | nvmNode i => memInfos + sizeofMemInfo * i + 4
  | curnetId => behindInfos
  | netsCnt => behindInfos + 4
  | watcherAddr => behindInfos + 8
  | watcherPort => behindInfos + 28

/-- Its size. -/
def capacity : Slot → ℕ
  | nicName _ => DHMA_NIC_NAME_LEN
  | addr _ | watcherAddr => DHMP_ADDR_LEN
  | _ => 4

/-- The field of an array is one of its elements. -/
def InArray : Slot → Prop
  | nicName i | addr i | port i | rdelay i | wdelay i | knum i | dramNode i | nvmNode i =>
    i < DHMP_SERVER_NODE_NUM
  | curnetId | netsCnt | watcherAddr | watcherPort => True

end Slot

structure Store where
  slot : Slot
  bytes : List UInt8

/-- What stores make of a memory, which starts with the record. -/
def replay (mem : ℕ → UInt8) (stores : List Store) : ℕ → UInt8 :=
  stores.foldl (fun mem st => writeBytes mem st.slot.offset st.bytes) mem

/-- The memory before the call, `global_log_level` and the stores into the record. -/
structure Parse where
  before : ℕ → UInt8
  globalLogLevel : ℤ
  stores : List Store

namespace Parse

def mem (p : Parse) : ℕ → UInt8 := replay p.before p.stores

def store (p : Parse) (slot : Slot) (bytes : List UInt8) : Parse :=
  { p with stores := p.stores ++ [⟨slot, bytes⟩] }

/-- An `int` of the record. -/
def int (p : Parse) (slot : Slot) : ℤ := intOfBytes (readBytes p.mem slot.offset 4)

@[simp] theorem mem_store (p : Parse) (slot : Slot) (bytes : List UInt8) :
    (p.store slot bytes).mem = writeBytes p.mem slot.offset bytes := by
  simp [mem, store, replay]

end Parse

/-! ## The parser -/

def isSpace (c : UInt8) : Bool := c == 32 || 9 ≤ c && c ≤ 13
def isDigit (c : UInt8) : Bool := 48 ≤ c && c ≤ 57

/-- The digits at the start of a string as a number. -/
def digits (s : Str) : ℕ :=
  (s.takeWhile isDigit).foldl (fun n c => 10 * n + (c.toNat - 48)) 0

/-- `atoi`: the conversion of the `long` that `strtol` gives, which saturates. -/
def atoi (s : Str) : ℤ :=
  cInt <| match s.dropWhile isSpace with
    | 45 :: rest => max (-2 ^ 63) (-(digits rest : ℤ))
    | 43 :: rest => min (2 ^ 63 - 1) (digits rest : ℤ)
    | rest => min (2 ^ 63 - 1) (digits rest : ℤ)

/-- An element with the given name is copied with its terminator. Without text `strlen`
follows a null pointer. -/
def copyText (name : String) (slot : Slot) (f : Field) (p : Parse) : Option Parse :=
  if f.name = name then f.text.map fun val => p.store slot (val.bytes ++ [0]) else some p

/-- An element with the given name is stored as a number, or `atoi` follows a null pointer. -/
def copyInt (name : String) (slot : Slot) (f : Field) (p : Parse) : Option Parse :=
  if f.name = name then f.text.map fun val => p.store slot (intBytes (atoi val.bytes)) else some p

def parseWatcherField (p : Parse) (f : Field) : Option Parse :=
  copyText "addr" .watcherAddr f p >>= copyInt "port" .watcherPort f

def parseClientField (p : Parse) (f : Field) : Option Parse :=
  if f.name = "log_level" then f.text.map fun val => { p with globalLogLevel := atoi val.bytes }
  else some p

def parseServerField (index : ℕ) (p : Parse) (f : Field) : Option Parse :=
  copyText "nic_name" (.nicName index) f p >>= copyText "addr" (.addr index) f >>=
    copyInt "port" (.port index) f >>= copyInt "rdelay" (.rdelay index) f >>=
    copyInt "wdelay" (.wdelay index) f >>= copyInt "knum" (.knum index) f >>=
    copyInt "dram_node" (.dramNode index) f >>= copyInt "nvm_node" (.nvmNode index) f

/-- `nets_cnt++`. -/
def countServer (p : Parse) : Parse :=
  p.store .netsCnt (intBytes (cInt (p.int .netsCnt + 1)))

/-- One round of the loop in `dhmp_config_init`. -/
def parseSection (index : ℕ) (p : Parse) (s : Section) : Option Parse :=
  if s.name = "watcher" then s.fields.foldlM parseWatcherField p
  else if s.name = "client" then s.fields.foldlM parseClientField p
  else if s.name = "server" then (s.fields.foldlM (parseServerField index) p).map countServer
  else some p

/-- The loop; `index` counts the servers. -/
def parseSections : ℕ → Parse → List Section → Option Parse
  | _, p, [] => some p
  | index, p, s :: rest =>
    parseSection index p s >>= fun p =>
      parseSections (if s.name = "server" then index + 1 else index) p rest

/-- The entries that `dhmp_set_curnode_id` reads. -/
def netInfos (p : Parse) : List NetInfo :=
  (List.range (p.int .netsCnt).toNat).map fun i =>
    ⟨cStringAt p.mem (Slot.nicName i).offset, cStringAt p.mem (Slot.addr i).offset⟩

/-- How `dhmp_config_init` ends: it returns -1, follows a null pointer, or gets to its end or
to the exit in the search for the own node. -/
inductive InitResult
  | failed
  | crash
  | ended (p : Parse) (search : Option Outcome)

def configInit (doc : Document) (mem : ℕ → UInt8) (globalLogLevel : ℤ) (isClient : Bool)
    (ifs : List Ifreq) : InitResult :=
  match doc with
  | .unparsed | .noRoot => .failed
  | .root r =>
    if r.name = "dhmp_config" then
      let p : Parse := ⟨mem, globalLogLevel, []⟩
      let p := (p.store .netsCnt (intBytes 0)).store .curnetId (intBytes (-1))
      match parseSections 0 p r.sections with
      | none => .crash
      | some p =>
        if isClient then .ended p none
        else match setCurnodeId (netInfos p) ifs with
          | .selected i => .ended (p.store .curnetId (intBytes i)) (some (.selected i))
          | o => .ended p (some o)
    else .failed

/-! ## The property -/

/-- A store stays within its field, and the field is in the arrays. -/
def Store.Within (st : Store) : Prop :=
  st.slot.InArray ∧ st.bytes.length ≤ st.slot.capacity

def serverCount (sections : List Section) : ℕ := sections.countP (fun s => s.name = "server")

/-- The record after the parsing of `sections`, in memory that held `mem`. -/
structure Contained (mem : ℕ → UInt8) (sections : List Section) (p : Parse) : Prop where
  before : p.before = mem
  nets_cnt : p.int .netsCnt = serverCount sections
  count_le : serverCount sections ≤ DHMP_SERVER_NODE_NUM
  within : ∀ st ∈ p.stores, st.Within
  /-- Every field holds what its own stores put there. -/
  fields : ∀ slot : Slot, slot.InArray → ∀ j < slot.capacity, p.mem (slot.offset + j) =
    replay mem (p.stores.filter (fun st => st.slot = slot)) (slot.offset + j)

/-- An element of the given name has text, shorter than `room` bytes. -/
def TextFits (name : String) (room : ℕ) (f : Field) : Prop :=
  f.name = name → ∃ val, f.text = some val ∧ val.bytes.length < room

/-- An element of the given name has text. -/
def HasText (name : String) (f : Field) : Prop := f.name = name → ∃ val, f.text = some val

def WatcherFits (f : Field) : Prop := TextFits "addr" DHMP_ADDR_LEN f ∧ HasText "port" f

/-- The elements of a server that are numbers. -/
def intFields : List String := ["port", "rdelay", "wdelay", "knum", "dram_node", "nvm_node"]

def ServerFits (f : Field) : Prop :=
  TextFits "nic_name" DHMA_NIC_NAME_LEN f ∧ TextFits "addr" DHMP_ADDR_LEN f ∧
    ∀ name ∈ intFields, HasText name f

/-- Every element that is read has text, and names and addresses are short enough. -/
def SectionFits (s : Section) : Prop :=
  (s.name = "watcher" → ∀ f ∈ s.fields, WatcherFits f) ∧
    (s.name = "client" → ∀ f ∈ s.fields, HasText "log_level" f) ∧
    (s.name = "server" → ∀ f ∈ s.fields, ServerFits f)

/-- There is a record for every server, and every section fits. -/
def Fits (r : Root) : Prop :=
  serverCount r.sections ≤ DHMP_SERVER_NODE_NUM ∧ ∀ s ∈ r.sections, SectionFits s

/-- The call returns an error, or it reads the whole document into the record. -/
def StaysWithin (doc : Document) (mem : ℕ → UInt8) : InitResult → Prop
  | .failed => True
  | .crash => False
  | .ended p _ => ∃ r, doc = .root r ∧ Contained mem r.sections p

/-! ## Fields -/

namespace Slot

/-- The fields do not overlap. -/
theorem disjoint {s t : Slot} (hs : s.InArray) (ht : t.InArray) (hne : s ≠ t) :
    s.offset + s.capacity ≤ t.offset ∨ t.offset + t.capacity ≤ s.offset := by
  cases s <;> cases t <;>
    simp only [InArray, offset, capacity, behindInfos, memInfos, simuInfos, sizeofNetInfo,
      sizeofSimuInfo, sizeofMemInfo, DHMP_SERVER_NODE_NUM, DHMP_ADDR_LEN, DHMA_NIC_NAME_LEN,
      ne_eq, reduceCtorEq, not_true_eq_false, nicName.injEq, addr.injEq, port.injEq,
      rdelay.injEq, wdelay.injEq, knum.injEq, dramNode.injEq, nvmNode.injEq] at hs ht hne ⊢ <;>
    omega

end Slot

theorem writeBytes_other {mem : ℕ → UInt8} {st : Store} {slot : Slot} (hst : st.Within)
    (hslot : slot.InArray) (hne : st.slot ≠ slot) {j : ℕ} (hj : j < slot.capacity) :
    writeBytes mem st.slot.offset st.bytes (slot.offset + j) = mem (slot.offset + j) := by
  obtain ⟨harray, hlen⟩ := hst
  rcases Slot.disjoint harray hslot hne with hbefore | hbehind
  · exact writeBytes_of_ge _ _ _ _ (by omega)
  · exact writeBytes_of_lt _ _ _ _ (by omega)

theorem replay_append (mem : ℕ → UInt8) (stores : List Store) (st : Store) :
    replay mem (stores ++ [st]) = writeBytes (replay mem stores) st.slot.offset st.bytes := by
  simp [replay]

theorem writeBytes_congr {mem mem' : ℕ → UInt8} {c : ℕ} (h : mem c = mem' c) (pos : ℕ)
    (bs : List UInt8) : writeBytes mem pos bs c = writeBytes mem' pos bs c := by
  simp [writeBytes, h]

/-- Among stores that stay within their fields, a field sees only its own. -/
theorem replay_filter {stores : List Store} (hstores : ∀ st ∈ stores, st.Within)
    (mem : ℕ → UInt8) {slot : Slot} (hslot : slot.InArray) {j : ℕ} (hj : j < slot.capacity) :
    replay mem stores (slot.offset + j) =
      replay mem (stores.filter (fun st => st.slot = slot)) (slot.offset + j) := by
  induction stores using List.reverseRecOn with
  | nil => rfl
  | append_singleton stores st ih =>
    have hrest := ih (fun st' h => hstores st' (List.mem_append_left _ h))
    rw [replay_append, List.filter_append]
    by_cases hown : st.slot = slot
    · rw [List.filter_cons_of_pos (by simpa using hown), List.filter_nil, replay_append]
      exact writeBytes_congr hrest _ _
    · rw [List.filter_cons_of_neg (by simpa using hown), List.filter_nil, List.append_nil,
        writeBytes_other (hstores st (by simp)) hslot hown hj, hrest]

/-- What a parse keeps up to its `i`-th server, unless it has left its fields. -/
structure Good (mem : ℕ → UInt8) (i : ℕ) (p : Parse) : Prop where
  within : ∀ st ∈ p.stores, st.Within
  before : p.before = mem
  nets_cnt : p.int .netsCnt = cInt i

variable {mem : ℕ → UInt8} {i : ℕ} {p : Parse} {slot : Slot} {bytes : List UInt8}

theorem int_store (hst : Store.Within ⟨slot, bytes⟩) (hne : slot ≠ .netsCnt) :
    (p.store slot bytes).int .netsCnt = p.int .netsCnt := by
  unfold Parse.int
  rw [Parse.mem_store]
  congr 1
  apply List.map_congr_left
  intro j hj
  have hcnt : Slot.netsCnt.InArray := trivial
  exact writeBytes_other hst hcnt hne (List.mem_range.mp hj)

/-- A store to another field than `nets_cnt`. -/
theorem good_store (hne : slot ≠ .netsCnt) :
    Good mem i (p.store slot bytes) ↔ Good mem i p ∧ Store.Within ⟨slot, bytes⟩ := by
  constructor
  · rintro ⟨hwithin, hbefore, hcnt⟩
    have hst : Store.Within ⟨slot, bytes⟩ := hwithin _ (by simp [Parse.store])
    refine ⟨⟨fun st h => hwithin st (by simp [Parse.store, h]), hbefore, ?_⟩, hst⟩
    rw [← int_store hst hne]
    exact hcnt
  · rintro ⟨⟨hwithin, hbefore, hcnt⟩, hst⟩
    refine ⟨fun st h => ?_, hbefore, ?_⟩
    · rcases List.mem_append.mp h with h | h
      · exact hwithin st h
      · exact List.mem_singleton.mp h ▸ hst
    · rw [int_store hst hne]
      exact hcnt

theorem cInt_cInt (x : ℤ) : cInt (cInt x) = cInt x := Int.bmod_bmod

theorem le_cInt (x : ℤ) : -2 ^ 31 ≤ cInt x := by
  unfold cInt
  rw [Int.bmod_def]
  split_ifs <;> omega

theorem cInt_int (p : Parse) (slot : Slot) : cInt (p.int slot) = p.int slot := by
  unfold Parse.int intOfBytes
  exact cInt_cInt _

theorem int_store_self (p : Parse) (slot : Slot) (x : ℤ) :
    (p.store slot (intBytes (cInt x))).int slot = cInt x := by
  have hread := readBytes_writeBytes p.mem slot.offset (intBytes (cInt x))
  rw [length_intBytes] at hread
  unfold Parse.int
  rw [Parse.mem_store, hread]
  simpa using intOfBytes_intBytes (le_cInt x) (cInt_lt x) []

theorem good_countServer : Good mem (i + 1) (countServer p) ↔ Good mem i p := by
  have hint := cInt_int p .netsCnt
  have hnew : (countServer p).int .netsCnt = cInt (p.int .netsCnt + 1) :=
    int_store_self p .netsCnt _
  have hst : Store.Within ⟨.netsCnt, intBytes (cInt (p.int .netsCnt + 1))⟩ :=
    ⟨trivial, by rw [length_intBytes]; exact le_rfl⟩
  constructor
  · rintro ⟨hwithin, hbefore, hcnt⟩
    refine ⟨fun st h => hwithin st (List.mem_append_left _ h), hbefore, ?_⟩
    rw [hnew, Nat.cast_succ] at hcnt
    rw [← hint]
    exact (Int.bmod_add_cancel_right 1).mp hcnt
  · rintro ⟨hwithin, hbefore, hcnt⟩
    refine ⟨fun st h => ?_, hbefore, ?_⟩
    · rcases List.mem_append.mp h with h | h
      · exact hwithin st h
      · exact List.mem_singleton.mp h ▸ hst
    · rw [hnew, hcnt, Nat.cast_succ]
      exact Int.bmod_add_bmod

/-! ## The parser, step by step -/

/-- A part of the parser ends well from a good state exactly under a condition. -/
def Requires (mem : ℕ → UInt8) (i i' : ℕ) (parse : Parse → Option Parse) (C : Prop) : Prop :=
  ∀ p, (∃ t, parse p = some t ∧ Good mem i' t) ↔ Good mem i p ∧ C

theorem Requires.bind {i' i'' : ℕ} {parse parse' : Parse → Option Parse} {C D : Prop}
    (h : Requires mem i i' parse C) (h' : Requires mem i' i'' parse' D) :
    Requires mem i i'' (fun p => parse p >>= parse') (C ∧ D) := by
  intro p
  rw [← and_assoc, ← h p]
  constructor
  · rintro ⟨t, ht, hgood⟩
    obtain ⟨s, hs, hst⟩ := Option.bind_eq_some_iff.mp ht
    obtain ⟨hs', hD⟩ := (h' s).mp ⟨t, hst, hgood⟩
    exact ⟨⟨s, hs, hs'⟩, hD⟩
  · rintro ⟨⟨s, hs, hs'⟩, hD⟩
    obtain ⟨t, ht, hgood⟩ := (h' s).mpr ⟨hs', hD⟩
    exact ⟨t, Option.bind_eq_some_iff.mpr ⟨s, hs, ht⟩, hgood⟩

/-- A loop over the fields of a section. -/
theorem Requires.foldlM {parse : Parse → Field → Option Parse} {C : Field → Prop}
    (h : ∀ f, Requires mem i i (fun p => parse p f) (C f)) (fs : List Field) :
    Requires mem i i (fun p => fs.foldlM parse p) (∀ f ∈ fs, C f) := by
  induction fs with
  | nil =>
    intro p
    simp
  | cons f fs ih =>
    rw [List.forall_mem_cons]
    exact (h f).bind ih

theorem Requires.congr {i' : ℕ} {parse : Parse → Option Parse} {C D : Prop}
    (h : Requires mem i i' parse C) (hCD : C ↔ D) : Requires mem i i' parse D := by
  intro p
  rw [← hCD]
  exact h p

theorem requires_copyText (harray : slot.InArray) (hne : slot ≠ .netsCnt) (name : String)
    (f : Field) : Requires mem i i (copyText name slot f) (TextFits name slot.capacity f) := by
  intro p
  unfold copyText TextFits
  by_cases hname : f.name = name
  · simp only [hname, if_true, Option.map_eq_some_iff, forall_const]
    constructor
    · rintro ⟨t, ⟨val, hval, rfl⟩, hgood⟩
      obtain ⟨hp, -, hlen⟩ := (good_store hne).mp hgood
      rw [List.length_append, List.length_singleton] at hlen
      exact ⟨hp, val, hval, hlen⟩
    · rintro ⟨hp, val, hval, hlen⟩
      refine ⟨_, ⟨val, hval, rfl⟩, (good_store hne).mpr ⟨hp, harray, ?_⟩⟩
      rw [List.length_append, List.length_singleton]
      exact hlen
  · simp [hname]

theorem requires_copyInt (harray : slot.InArray) (hne : slot ≠ .netsCnt)
    (hfour : slot.capacity = 4) (name : String) (f : Field) :
    Requires mem i i (copyInt name slot f) (HasText name f) := by
  intro p
  have hlen (x : ℤ) : (intBytes x).length ≤ slot.capacity := by rw [length_intBytes, hfour]
  unfold copyInt HasText
  by_cases hname : f.name = name
  · simp only [hname, if_true, Option.map_eq_some_iff, forall_const]
    constructor
    · rintro ⟨t, ⟨val, hval, rfl⟩, hgood⟩
      exact ⟨((good_store hne).mp hgood).1, val, hval⟩
    · rintro ⟨hp, val, hval⟩
      exact ⟨_, ⟨val, hval, rfl⟩, (good_store hne).mpr ⟨hp, harray, hlen _⟩⟩
  · simp [hname]

theorem requires_watcherField (f : Field) :
    Requires mem i i (fun p => parseWatcherField p f) (WatcherFits f) := by
  have haddr : Requires mem i i (copyText "addr" .watcherAddr f) (TextFits "addr" 18 f) :=
    requires_copyText (show Slot.watcherAddr.InArray from trivial) (by simp) "addr" f
  have hport : Requires mem i i (copyInt "port" .watcherPort f) (HasText "port" f) :=
    requires_copyInt (show Slot.watcherPort.InArray from trivial) (by simp) rfl "port" f
  exact haddr.bind hport

theorem requires_clientField (f : Field) :
    Requires mem i i (fun p => parseClientField p f) (HasText "log_level" f) := by
  intro p
  unfold parseClientField HasText
  by_cases hname : f.name = "log_level"
  · simp only [hname, if_true, Option.map_eq_some_iff, forall_const]
    constructor
    · rintro ⟨t, ⟨val, hval, rfl⟩, hgood⟩
      exact ⟨⟨hgood.within, hgood.before, hgood.nets_cnt⟩, val, hval⟩
    · rintro ⟨hp, val, hval⟩
      exact ⟨_, ⟨val, hval, rfl⟩, hp.within, hp.before, hp.nets_cnt⟩
  · simp [hname]

theorem requires_serverField (hi : i < DHMP_SERVER_NODE_NUM) (f : Field) :
    Requires mem i i (fun p => parseServerField i p f) (ServerFits f) := by
  have hnic : Requires mem i i (copyText "nic_name" (.nicName i) f)
      (TextFits "nic_name" DHMA_NIC_NAME_LEN f) :=
    requires_copyText (show (Slot.nicName i).InArray from hi) (by simp) "nic_name" f
  have haddr : Requires mem i i (copyText "addr" (.addr i) f) (TextFits "addr" DHMP_ADDR_LEN f) :=
    requires_copyText (show (Slot.addr i).InArray from hi) (by simp) "addr" f
  have hint (slot : Slot) (harray : slot.InArray) (hne : slot ≠ .netsCnt)
      (hfour : slot.capacity = 4) (name : String) :
      Requires mem i i (copyInt name slot f) (HasText name f) :=
    requires_copyInt harray hne hfour name f
  have hall := ((((((hnic.bind haddr).bind
    (hint (.port i) hi (by simp) rfl "port")).bind
    (hint (.rdelay i) hi (by simp) rfl "rdelay")).bind
    (hint (.wdelay i) hi (by simp) rfl "wdelay")).bind
    (hint (.knum i) hi (by simp) rfl "knum")).bind
    (hint (.dramNode i) hi (by simp) rfl "dram_node")).bind
    (hint (.nvmNode i) hi (by simp) rfl "nvm_node")
  refine hall.congr ?_
  simp [ServerFits, intFields, and_assoc]

/-- A section that is not the fourth server. -/
theorem requires_section (s : Section) (hi : s.name = "server" → i < DHMP_SERVER_NODE_NUM) :
    Requires mem i (if s.name = "server" then i + 1 else i) (fun p => parseSection i p s)
      (SectionFits s) := by
  unfold parseSection SectionFits
  by_cases hwatcher : s.name = "watcher"
  · simpa [hwatcher] using Requires.foldlM requires_watcherField s.fields
  by_cases hclient : s.name = "client"
  · simpa [hclient] using Requires.foldlM requires_clientField s.fields
  by_cases hserver : s.name = "server"
  · have hfields := Requires.foldlM (@requires_serverField mem i (hi hserver)) s.fields
    simp only [hserver, String.reduceEq, if_false, if_true, false_implies, true_and,
      true_implies]
    intro p
    rw [← hfields p]
    simp only [Option.map_eq_some_iff]
    constructor
    · rintro ⟨t, ⟨t', ht', rfl⟩, hgood⟩
      exact ⟨t', ht', good_countServer.mp hgood⟩
    · rintro ⟨t', ht', hgood⟩
      exact ⟨_, ⟨t', ht', rfl⟩, good_countServer.mpr hgood⟩
  · intro p
    simp [hwatcher, hclient, hserver]

/-- A document with at most three servers. -/
theorem requires_sections (sections : List Section)
    (hcount : i + serverCount sections ≤ DHMP_SERVER_NODE_NUM) :
    Requires mem i (i + serverCount sections) (fun p => parseSections i p sections)
      (∀ s ∈ sections, SectionFits s) := by
  induction sections generalizing i with
  | nil =>
    intro p
    simp [parseSections, serverCount]
  | cons s rest ih =>
    have hcons : serverCount (s :: rest) =
        serverCount rest + if s.name = "server" then 1 else 0 := by
      simp [serverCount, List.countP_cons]
    rw [hcons] at hcount ⊢
    rw [List.forall_mem_cons]
    have hhead : Requires mem i (if s.name = "server" then i + 1 else i)
        (fun p => parseSection i p s) (SectionFits s) := by
      apply requires_section
      intro hserver
      rw [if_pos hserver] at hcount
      omega
    have hend : (if s.name = "server" then i + 1 else i) + serverCount rest =
        i + (serverCount rest + if s.name = "server" then 1 else 0) := by
      split_ifs <;> omega
    have htail := ih (hend.trans_le hcount)
    rw [hend] at htail
    exact hhead.bind htail

/-! ## The whole call -/

variable {r : Root} {globalLogLevel : ℤ} {isClient : Bool} {ifs : List Ifreq}

/-- The record before the loop. -/
def started (mem : ℕ → UInt8) (globalLogLevel : ℤ) : Parse :=
  ((⟨mem, globalLogLevel, []⟩ : Parse).store .netsCnt (intBytes 0)).store .curnetId
    (intBytes (-1))

theorem good_started (mem : ℕ → UInt8) (globalLogLevel : ℤ) :
    Good mem 0 (started mem globalLogLevel) := by
  have hfour (x : ℤ) : (intBytes x).length ≤ 4 := (length_intBytes x).le
  have hzero : cInt 0 = 0 := cInt_of_range (by norm_num) (by norm_num)
  have hcnt := int_store_self ⟨mem, globalLogLevel, []⟩ .netsCnt 0
  rw [hzero] at hcnt
  refine (good_store (by simp)).mpr ⟨⟨?_, rfl, ?_⟩, trivial, hfour _⟩
  · intro st hst
    rw [List.mem_singleton.mp hst]
    exact ⟨trivial, hfour _⟩
  · rw [hcnt, Nat.cast_zero, hzero]

theorem configInit_eq (hname : r.name = "dhmp_config") :
    configInit (.root r) mem globalLogLevel isClient ifs =
      match parseSections 0 (started mem globalLogLevel) r.sections with
      | none => .crash
      | some p =>
        if isClient then .ended p none
        else match setCurnodeId (netInfos p) ifs with
          | .selected i => .ended (p.store .curnetId (intBytes i)) (some (.selected i))
          | o => .ended p (some o) :=
  if_pos hname

/-- The search for the own node at most adds a store to `curnet_id`. -/
theorem configInit_root (hname : r.name = "dhmp_config") :
    configInit (.root r) mem globalLogLevel isClient ifs = .crash ∧
        parseSections 0 (started mem globalLogLevel) r.sections = none ∨
      ∃ p search t, configInit (.root r) mem globalLogLevel isClient ifs = .ended p search ∧
        parseSections 0 (started mem globalLogLevel) r.sections = some t ∧
        ∀ i, Good mem i p ↔ Good mem i t := by
  have hcurnet (t : Parse) (x : ℤ) (i : ℕ) :
      Good mem i (t.store .curnetId (intBytes x)) ↔ Good mem i t := by
    rw [good_store (by simp)]
    exact and_iff_left ⟨trivial, (length_intBytes x).le⟩
  rw [configInit_eq hname]
  cases parseSections 0 (started mem globalLogLevel) r.sections with
  | none => exact .inl ⟨rfl, rfl⟩
  | some t =>
    right
    cases isClient with
    | true => exact ⟨t, none, t, rfl, rfl, fun _ => Iff.rfl⟩
    | false =>
      dsimp only
      cases setCurnodeId (netInfos t) ifs with
      | selected i => exact ⟨_, _, t, rfl, rfl, hcurnet t i⟩
      | exit => exact ⟨t, _, t, rfl, rfl, fun _ => Iff.rfl⟩
      | overrun => exact ⟨t, _, t, rfl, rfl, fun _ => Iff.rfl⟩

theorem contained_iff_good (hcount : serverCount r.sections ≤ DHMP_SERVER_NODE_NUM) :
    Contained mem r.sections p ↔ Good mem (serverCount r.sections) p := by
  have hthree : DHMP_SERVER_NODE_NUM < 2 ^ 31 := by decide
  have hint : cInt (serverCount r.sections) = serverCount r.sections := cInt_natCast (by omega)
  constructor
  · intro h
    exact ⟨h.within, h.before, h.nets_cnt.trans hint.symm⟩
  · intro h
    refine ⟨h.before, h.nets_cnt.trans hint, hcount, h.within, fun slot hslot j hj => ?_⟩
    rw [Parse.mem, h.before]
    exact replay_filter h.within mem hslot hj

/-- A configuration stays in the record exactly when it fits. -/
theorem staysWithin_root (hname : r.name = "dhmp_config") :
    StaysWithin (.root r) mem (configInit (.root r) mem globalLogLevel isClient ifs) ↔ Fits r := by
  have hroot := @configInit_root mem r globalLogLevel isClient ifs hname
  by_cases hcount : serverCount r.sections ≤ DHMP_SERVER_NODE_NUM
  case neg =>
    refine iff_of_false (fun h => ?_) (fun h => hcount h.1)
    rcases hroot with ⟨hcrash, -⟩ | ⟨p, search, t, hend, -, -⟩
    · rw [hcrash] at h
      exact h
    · rw [hend] at h
      obtain ⟨r', hr', hcontained⟩ := h
      cases hr'
      exact hcount hcontained.count_le
  have hsections := @requires_sections mem 0 r.sections (by rwa [zero_add])
  have hrun := hsections (started mem globalLogLevel)
  rw [zero_add] at hrun
  have hfits : Fits r ↔ ∃ t, parseSections 0 (started mem globalLogLevel) r.sections = some t ∧
      Good mem (serverCount r.sections) t := by
    rw [hrun]
    exact ⟨fun h => ⟨good_started mem globalLogLevel, h.2⟩, fun h => ⟨hcount, h.2⟩⟩
  rw [hfits]
  rcases hroot with ⟨hcrash, hnone⟩ | ⟨p, search, t, hend, ht, hgood⟩
  · rw [hcrash, hnone]
    exact iff_of_false id (fun ⟨t, ht, _⟩ => by cases ht)
  · rw [hend, ht]
    constructor
    · rintro ⟨r', hr', hcontained⟩
      cases hr'
      exact ⟨t, rfl, (hgood _).mp ((contained_iff_good hcount).mp hcontained)⟩
    · rintro ⟨t', ht', h⟩
      cases ht'
      exact ⟨r, rfl, (contained_iff_good hcount).mpr ((hgood _).mpr h)⟩

/-- The configuration is read into the record exactly when the document is not one of this
program, or there is a record for every server and every text is there and fits its field. -/
theorem staysWithin_iff (doc : Document) (mem : ℕ → UInt8) (globalLogLevel : ℤ) (isClient : Bool)
    (ifs : List Ifreq) :
    StaysWithin doc mem (configInit doc mem globalLogLevel isClient ifs) ↔
      ∀ r, doc = .root r → r.name = "dhmp_config" → Fits r := by
  cases doc with
  | unparsed => exact iff_of_true trivial (fun r h => by cases h)
  | noRoot => exact iff_of_true trivial (fun r h => by cases h)
  | root r =>
    by_cases hname : r.name = "dhmp_config"
    case neg =>
      have hfailed : configInit (.root r) mem globalLogLevel isClient ifs = .failed := if_neg hname
      rw [hfailed]
      exact iff_of_true trivial (fun r' hr' hname' => by cases hr'; exact absurd hname' hname)
    have hright : (∀ r', Document.root r = .root r' → r'.name = "dhmp_config" → Fits r') ↔
        Fits r := by
      constructor
      · exact fun h => h r rfl hname
      · rintro h r' hr' -
        cases hr'
        exact h
    rw [hright]
    exact staysWithin_root hname

/-- The terminator of a NIC name of ten bytes is already in the address field behind it. -/
def longNic : Root :=
  ⟨"dhmp_config", [⟨"server", [⟨"nic_name", some ⟨List.replicate 10 101, by decide⟩⟩]⟩]⟩

theorem not_staysWithin_longNic :
    ¬ ∀ (doc : Document) (mem : ℕ → UInt8) (globalLogLevel : ℤ) (isClient : Bool)
      (ifs : List Ifreq),
      StaysWithin doc mem (configInit doc mem globalLogLevel isClient ifs) := by
  intro h
  have hfits : Fits longNic := (staysWithin_root rfl).mp (h (.root longNic) (fun _ => 0) 0 true [])
  obtain ⟨-, -, hserver⟩ := hfits.2 _ (List.mem_singleton_self _)
  obtain ⟨hnic, -, -⟩ := hserver rfl _ (List.mem_singleton_self _)
  obtain ⟨val, hval, hlen⟩ := hnic rfl
  cases hval
  exact absurd hlen (by decide)

end RdmaMiddleware.ConfigParsing
