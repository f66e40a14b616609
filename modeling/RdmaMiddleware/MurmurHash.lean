import RdmaMiddleware.AddressTable
import RdmaMiddleware.BitMixing
import Mathlib.Data.Int.CardIntervalMod

/-!
# The hash of the address table

`MurmurHash3_x86_32` mixes a key block by block into 32 bits; `dhmp_hash_in_client` takes the
eight bytes of a `dhmp_addr` as the key. Mixing one block is injective in the block and in the
state before it, so keys that differ in a single block never collide.
-/
namespace RdmaMiddleware.MurmurHash
open BitMixing AddressTable Function

abbrev Word := BitVec 32
abbrev Byte := BitVec 8

/-- The bytes hashed; `nblocks * 4` fits an `int`. -/
structure Key where
  bytes : List Byte
  length_lt : bytes.length < 2 ^ 31

/-! ## The function -/

def rotl32 (x : Word) (r : ℕ) : Word := x <<< r ||| x >>> (32 - r)

def byte (key : Key) (i : ℕ) : Byte := key.bytes.getD i 0

def nblocks (key : Key) : ℕ := key.bytes.length / 4

/-- A block as a little-endian machine loads it. -/
def getblock32 (key : Key) (i : ℕ) : Word :=
  BitVec.ofNat 32 ((byte key (4 * i)).toNat + 2 ^ 8 * (byte key (4 * i + 1)).toNat +
    2 ^ 16 * (byte key (4 * i + 2)).toNat + 2 ^ 24 * (byte key (4 * i + 3)).toNat)

/-- The three lines by which a block goes into the state. -/
def mixKey (k1 : Word) : Word := rotl32 (k1 * 0xcc9e2d51) 15 * 0x1b873593

def mixBlock (h1 k1 : Word) : Word := rotl32 (h1 ^^^ mixKey k1) 13 * 5 + 0xe6546b64

def body (key : Key) : Word :=
  (List.range (nblocks key)).foldl (fun h1 i => mixBlock h1 (getblock32 key i)) 0

def tailByte (key : Key) (i : ℕ) : Word := (byte key (4 * nblocks key + i)).setWidth 32

/-- The cases of the `switch` fall through. -/
def tail (key : Key) (h1 : Word) : Word :=
  match key.bytes.length % 4 with
  | 3 => h1 ^^^ mixKey (tailByte key 2 <<< 16 ^^^ tailByte key 1 <<< 8 ^^^ tailByte key 0)
  | 2 => h1 ^^^ mixKey (tailByte key 1 <<< 8 ^^^ tailByte key 0)
  | 1 => h1 ^^^ mixKey (tailByte key 0)
  | _ => h1

def fmix32 (h : Word) : Word :=
  let h := h ^^^ h >>> 16
  let h := h * 0x85ebca6b
  let h := h ^^^ h >>> 13
  let h := h * 0xc2b2ae35
  h ^^^ h >>> 16

def murmurHash3_x86_32 (key : Key) : Word :=
  fmix32 (tail key (body key) ^^^ BitVec.ofNat 32 key.bytes.length)

/-- The eight bytes of a pointer, the lowest first. -/
def addressBytes (addr : Address) : Key where
  bytes := (List.range 8).map fun i => (addr >>> (8 * i)).setWidth 8
  length_lt := by simp

/-- What `hash` is after `dhmp_hash_init`. -/
def hash (addr : Address) : Word := murmurHash3_x86_32 (addressBytes addr)

/-! ## Every step is injective -/

/-- The value of the reference implementation for the key `abcd`. -/
example : murmurHash3_x86_32 ⟨[97, 98, 99, 100], by decide⟩ = 0x43ed676a := by decide +kernel

theorem rotl32_eq {r : ℕ} (hr : r < 32) (x : Word) : rotl32 x r = x.rotateLeft r := by
  rw [rotl32, BitVec.rotateLeft_def, Nat.mod_eq_of_lt hr]

theorem rotl32_injective {r : ℕ} (hr : r < 32) : Function.Injective fun x => rotl32 x r := by
  intro x y hxy
  refine rotateLeft_injective hr ?_
  simpa only [rotl32_eq hr] using hxy

theorem mixKey_injective : Function.Injective mixKey := by
  intro x y hxy
  have hinv1 : (0xcc9e2d51 : Word) * 0xdee13bb1 = 1 := by decide
  have hinv2 : (0x1b873593 : Word) * 0x56ed309b = 1 := by decide
  exact mul_injective hinv1 (rotl32_injective (by decide) (mul_injective hinv2 hxy))

theorem mixBlock_injective (k1 : Word) : Function.Injective fun h1 => mixBlock h1 k1 := by
  intro x y hxy
  have hinv : (5 : Word) * 0xcccccccd = 1 := by decide
  exact xor_left_injective _ (rotl32_injective (by decide)
    (mul_injective hinv (add_left_injective _ hxy)))

theorem mixBlock_key_injective (h1 : Word) : Function.Injective (mixBlock h1) := by
  intro x y hxy
  have hinv : (5 : Word) * 0xcccccccd = 1 := by decide
  have hxor : h1 ^^^ mixKey x = h1 ^^^ mixKey y :=
    rotl32_injective (by decide) (mul_injective hinv (add_left_injective _ hxy))
  refine mixKey_injective (xor_left_injective h1 ?_)
  simpa only [BitVec.xor_comm _ h1] using hxor

theorem fmix32_injective : Function.Injective fmix32 := by
  intro x y hxy
  have hinv1 : (0x85ebca6b : Word) * 0xa5cb9243 = 1 := by decide
  have hinv2 : (0xc2b2ae35 : Word) * 0x7ed1b41d = 1 := by decide
  exact xor_ushiftRight_injective (by decide) (mul_injective hinv1
    (xor_ushiftRight_injective (by decide) (mul_injective hinv2
      (xor_ushiftRight_injective (by decide) hxy))))

/-! ## Keys that differ in one block -/

variable {a b : Key}

theorem getblock32_eq_iff {i : ℕ} : getblock32 a i = getblock32 b i ↔
    ∀ k < 4, byte a (4 * i + k) = byte b (4 * i + k) := by
  constructor
  · intro h
    have hnat := congrArg BitVec.toNat h
    simp only [getblock32, BitVec.toNat_ofNat] at hnat
    have hlt := fun (key : Key) (p : ℕ) => (byte key p).isLt
    have ha0 := hlt a (4 * i)
    have ha1 := hlt a (4 * i + 1)
    have ha2 := hlt a (4 * i + 2)
    have ha3 := hlt a (4 * i + 3)
    have hb0 := hlt b (4 * i)
    have hb1 := hlt b (4 * i + 1)
    have hb2 := hlt b (4 * i + 2)
    have hb3 := hlt b (4 * i + 3)
    intro k hk
    apply BitVec.eq_of_toNat_eq
    interval_cases k
    · rw [Nat.add_zero]
      omega
    · omega
    · omega
    · omega
  · intro h
    have h0 := h 0 (by decide)
    have h1 := h 1 (by decide)
    have h2 := h 2 (by decide)
    have h3 := h 3 (by decide)
    rw [Nat.add_zero] at h0
    rw [getblock32, getblock32, h0, h1, h2, h3]

/-- The loop up to a block, that block, and the loop from there. -/
theorem body_eq_of_block {j : ℕ} (hlen : a.bytes.length = b.bytes.length) (hj : j < nblocks a)
    (hblocks : ∀ i, i ≠ j → getblock32 a i = getblock32 b i) (h : body a = body b) :
    getblock32 a j = getblock32 b j := by
  have hn : nblocks b = nblocks a := by rw [nblocks, nblocks, hlen]
  obtain ⟨front, back, hrange⟩ := List.append_of_mem (List.mem_range.mpr hj)
  have hnodup := (List.nodup_range (n := nblocks a))
  rw [hrange, List.nodup_append, List.nodup_cons] at hnodup
  obtain ⟨-, ⟨hback, -⟩, hdisj⟩ := hnodup
  have hfold : ∀ (l : List ℕ) (h1 : Word), j ∉ l →
      l.foldl (fun h1 i => mixBlock h1 (getblock32 a i)) h1 =
        l.foldl (fun h1 i => mixBlock h1 (getblock32 b i)) h1 := by
    intro l h1 hl
    refine List.foldl_ext _ _ _ fun h1 i hi => ?_
    rw [hblocks i fun heq => hl (heq ▸ hi)]
  have hfront : j ∉ front := fun hmem => hdisj j hmem j List.mem_cons_self rfl
  rw [body, body, hn, hrange, List.foldl_append, List.foldl_append, List.foldl_cons,
    List.foldl_cons, hfold front 0 hfront, hfold back _ hback] at h
  exact mixBlock_key_injective _ (foldl_injective (fun i => mixBlock_injective (getblock32 b i))
    back h)

theorem body_eq (hlen : a.bytes.length = b.bytes.length)
    (hblocks : ∀ i < nblocks a, getblock32 a i = getblock32 b i) : body a = body b := by
  have hn : nblocks b = nblocks a := by rw [nblocks, nblocks, hlen]
  rw [body, body, hn]
  refine List.foldl_ext _ _ _ fun h1 i hi => ?_
  rw [hblocks i (List.mem_range.mp hi)]

/-- Bytes shifted to their places do not overlap. -/
theorem shifted_bytes_inj {x2 x1 x0 y2 y1 y0 : Byte}
    (h : x2.setWidth 32 <<< 16 ^^^ x1.setWidth 32 <<< 8 ^^^ x0.setWidth 32 =
      y2.setWidth 32 <<< 16 ^^^ y1.setWidth 32 <<< 8 ^^^ y0.setWidth 32) :
    x2 = y2 ∧ x1 = y1 ∧ x0 = y0 := by
  have hbit : ∀ (z2 z1 z0 : Byte) (i : ℕ), i < 8 →
      (z2.setWidth 32 <<< 16 ^^^ z1.setWidth 32 <<< 8 ^^^ z0.setWidth 32).getLsbD (i + 16) =
        z2.getLsbD i ∧
      (z2.setWidth 32 <<< 16 ^^^ z1.setWidth 32 <<< 8 ^^^ z0.setWidth 32).getLsbD (i + 8) =
        z1.getLsbD i ∧
      (z2.setWidth 32 <<< 16 ^^^ z1.setWidth 32 <<< 8 ^^^ z0.setWidth 32).getLsbD i =
        z0.getLsbD i := by
    intro z2 z1 z0 i hi
    refine ⟨?_, ?_, ?_⟩
    · simp [show i + 16 < 32 by omega, show i + 16 - 8 = i + 8 by omega]
    · simp [show i + 8 < 32 by omega, show i + 8 < 16 by omega]
    · simp [hi, show i < 32 by omega, show i < 16 by omega]
  refine ⟨?_, ?_, ?_⟩ <;> refine BitVec.eq_of_getLsbD_eq fun i hi => ?_
  · rw [← (hbit x2 x1 x0 i hi).1, h, (hbit y2 y1 y0 i hi).1]
  · rw [← (hbit x2 x1 x0 i hi).2.1, h, (hbit y2 y1 y0 i hi).2.1]
  · rw [← (hbit x2 x1 x0 i hi).2.2, h, (hbit y2 y1 y0 i hi).2.2]

/-- The word of the bytes after the blocks, as if there were always three. -/
def tailWord (key : Key) : Word :=
  match key.bytes.length % 4 with
  | 3 => tailByte key 2 <<< 16 ^^^ tailByte key 1 <<< 8 ^^^ tailByte key 0
  | 2 => (0 : Byte).setWidth 32 <<< 16 ^^^ tailByte key 1 <<< 8 ^^^ tailByte key 0
  | 1 => (0 : Byte).setWidth 32 <<< 16 ^^^ (0 : Byte).setWidth 32 <<< 8 ^^^ tailByte key 0
  | _ => 0

theorem mixKey_zero : mixKey 0 = 0 := by decide

theorem tail_eq (key : Key) (h1 : Word) : tail key h1 = h1 ^^^ mixKey (tailWord key) := by
  unfold tail tailWord
  split
  · rfl
  · simp
  · simp
  · rw [mixKey_zero]
    simp

/-- The bytes after the blocks, each in its place. -/
theorem tailWord_eq_iff (hlen : a.bytes.length = b.bytes.length) : tailWord a = tailWord b ↔
    ∀ k < a.bytes.length % 4, tailByte a k = tailByte b k := by
  have hbyte : ∀ k, byte a (4 * nblocks a + k) = byte b (4 * nblocks b + k) →
      tailByte a k = tailByte b k := fun k h => by rw [tailByte, tailByte, h]
  have hmod : a.bytes.length % 4 < 4 := Nat.mod_lt _ (by decide)
  unfold tailWord
  rw [← hlen]
  generalize a.bytes.length % 4 = n at hmod
  constructor
  · intro h k hk
    interval_cases n
    · omega
    · obtain ⟨-, -, h0⟩ := shifted_bytes_inj h
      obtain rfl : k = 0 := by omega
      exact hbyte 0 h0
    · obtain ⟨-, h1, h0⟩ := shifted_bytes_inj h
      interval_cases k
      · exact hbyte 0 h0
      · exact hbyte 1 h1
    · obtain ⟨h2, h1, h0⟩ := shifted_bytes_inj h
      interval_cases k
      · exact hbyte 0 h0
      · exact hbyte 1 h1
      · exact hbyte 2 h2
  · intro h
    interval_cases n
    · rfl
    · simp only [h 0 (by decide)]
    · simp only [h 0 (by decide), h 1 (by decide)]
    · simp only [h 0 (by decide), h 1 (by decide), h 2 (by decide)]

theorem tailByte_eq_iff {k : ℕ} : tailByte a k = tailByte b k ↔
    byte a (4 * nblocks a + k) = byte b (4 * nblocks b + k) := by
  refine ⟨fun h => ?_, fun h => by rw [tailByte, tailByte, h]⟩
  have hword := congrArg (BitVec.setWidth 8) h
  simpa [tailByte, BitVec.setWidth_setWidth_of_le] using hword

/-- Keys of one length that differ in one block only, or only after the blocks, never
collide. -/
theorem bytes_eq_of_hash_eq (j : ℕ) (hlen : a.bytes.length = b.bytes.length)
    (hagree : ∀ p, p / 4 ≠ j → a.bytes[p]? = b.bytes[p]?)
    (h : murmurHash3_x86_32 a = murmurHash3_x86_32 b) : a.bytes = b.bytes := by
  have hn : nblocks b = nblocks a := by rw [nblocks, nblocks, hlen]
  have hbyte : ∀ p, p / 4 ≠ j → byte a p = byte b p := by
    intro p hp
    rw [byte, byte, List.getD_eq_getElem?_getD, List.getD_eq_getElem?_getD, hagree p hp]
  have hblocks : ∀ i, i ≠ j → getblock32 a i = getblock32 b i :=
    fun i hi => getblock32_eq_iff.mpr fun k hk => hbyte _ (by omega)
  have htail : tail a (body a) = tail b (body b) := by
    have hmix := fmix32_injective h
    rw [hlen] at hmix
    exact xor_left_injective _ hmix
  have hall : ∀ p < a.bytes.length, byte a p = byte b p := by
    by_cases hj : j < nblocks a
    · have hsame : tailWord a = tailWord b := by
        refine (tailWord_eq_iff hlen).mpr fun k hk => tailByte_eq_iff.mpr ?_
        rw [hn]
        exact hbyte _ (by omega)
      rw [tail_eq, tail_eq, hsame] at htail
      have hbody : body a = body b := xor_left_injective _ htail
      have hblock := getblock32_eq_iff.mp (body_eq_of_block hlen hj hblocks hbody)
      intro p hp
      by_cases hpj : p / 4 = j
      · have := hblock (p % 4) (Nat.mod_lt _ (by decide))
        rwa [show 4 * j + p % 4 = p by omega] at this
      · exact hbyte p hpj
    · have hbody : body a = body b :=
        body_eq hlen fun i hi => hblocks i (by omega)
      rw [tail_eq, tail_eq, hbody] at htail
      have hword : tailWord a = tailWord b := by
        refine mixKey_injective (xor_left_injective (body b) ?_)
        simpa only [BitVec.xor_comm _ (body b)] using htail
      have hbytes := (tailWord_eq_iff hlen).mp hword
      intro p hp
      by_cases hpj : p / 4 = j
      · have hrest := tailByte_eq_iff.mp
          (hbytes (p - 4 * nblocks a) (by unfold nblocks at *; omega))
        rwa [hn, show 4 * nblocks a + (p - 4 * nblocks a) = p by unfold nblocks at *; omega]
          at hrest
      · exact hbyte p hpj
  refine List.ext_getElem hlen fun p hp hp' => ?_
  have hget := hall p hp
  simpa [byte, List.getD_eq_getElem?_getD, hp, hp'] using hget

/-- Two keys of one length get different hashes when all that tells them apart lies in one
block, or after the last. -/
theorem hash_ne_of_one_block (hne : a.bytes ≠ b.bytes) (hlen : a.bytes.length = b.bytes.length)
    {j : ℕ} (hagree : ∀ p, p / 4 ≠ j → a.bytes[p]? = b.bytes[p]?) :
    murmurHash3_x86_32 a ≠ murmurHash3_x86_32 b := by
  intro hcollide
  exact hne (bytes_eq_of_hash_eq j hlen hagree hcollide)

theorem hash_ne_of_one_block_tail :
    murmurHash3_x86_32 ⟨[97, 98, 99, 100, 101, 102, 103], by decide⟩ ≠
      murmurHash3_x86_32 ⟨[97, 98, 99, 100, 107, 102, 108], by decide⟩ := by
  refine hash_ne_of_one_block (j := 1) (by decide) rfl fun p hp => ?_
  match p, hp with
  | 0, _ | 1, _ | 2, _ | 3, _ => rfl
  | 4, hp | 5, hp | 6, hp | 7, hp => exact absurd rfl hp
  | p + 8, _ => rfl

/-! ## Addresses -/

section Addresses
variable {x y : Address}

theorem addressBytes_getElem? (x : Address) (p : ℕ) : (addressBytes x).bytes[p]? =
    if p < 8 then some ((x >>> (8 * p)).setWidth 8) else none := by
  rw [addressBytes, List.getElem?_map]
  by_cases hp : p < 8
  · rw [if_pos hp, List.getElem?_range hp, Option.map_some]
  · rw [if_neg hp, List.getElem?_eq_none (by simpa using hp), Option.map_none]

theorem addressBytes_injective : Injective fun x => (addressBytes x).bytes := by
  intro x y hxy
  refine BitVec.eq_of_getLsbD_eq fun i hi => ?_
  have hbyte := congrArg (fun l : List Byte => l[i / 8]?) hxy
  simp only [addressBytes_getElem?, show i / 8 < 8 by omega, if_true, Option.some.injEq] at hbyte
  have hbit := congrArg (fun z : Byte => z.getLsbD (i % 8)) hbyte
  simpa [show i % 8 < 8 by omega, show 8 * (i / 8) + i % 8 = i by omega] using hbit

/-- Addresses of which one half is the same have different hashes. -/
theorem hash_injective_half
    (hhalf : x >>> 32 = y >>> 32 ∨ x.setWidth 32 = y.setWidth 32) (h : hash x = hash y) :
    x = y := by
  refine addressBytes_injective ?_
  rcases hhalf with hhigh | hlow
  · refine bytes_eq_of_hash_eq 0 rfl (fun p hp => ?_) h
    rw [addressBytes_getElem?, addressBytes_getElem?]
    have hshift : ∀ z : Address, z >>> (8 * p) = z >>> 32 >>> (8 * p - 32) := by
      intro z
      rw [← BitVec.shiftRight_add]
      congr 1
      omega
    rw [hshift x, hshift y, hhigh]
  · refine bytes_eq_of_hash_eq 1 rfl (fun p hp => ?_) h
    rw [addressBytes_getElem?, addressBytes_getElem?]
    by_cases hp8 : p < 8
    · rw [if_pos hp8, if_pos hp8]
      congr 1
      refine BitVec.eq_of_getLsbD_eq fun i hi => ?_
      have hlowbit := congrArg (fun z : Word => z.getLsbD (8 * p + i)) hlow
      simpa [hi, show 8 * p + i < 32 by omega] using hlowbit
    · rw [if_neg hp8, if_neg hp8]

theorem hashInClient_eq (x : Address) :
    hashInClient hash x = (hash x).toNat % DHMP_CLIENT_HT_SIZE := by
  unfold hashInClient
  generalize DHMP_CLIENT_HT_SIZE = n
  rw [Nat.add_mod_right, Nat.mod_mod]

/-- The address with the two halves. -/
def ofHalves (high low : Word) : Address := high.setWidth 64 <<< 32 ||| low.setWidth 64

theorem hash_ofHalves_injective (high : Word) :
    Injective fun low : Word => hash (ofHalves high low) := by
  intro x y hxy
  have hhigh : ∀ low : Word, ofHalves high low >>> 32 = high.setWidth 64 := by
    intro low
    refine BitVec.eq_of_getLsbD_eq fun i hi => ?_
    by_cases hi32 : i < 32
    · simp [ofHalves, hi, show 32 + i < 64 by omega]
    · simp [ofHalves, show ¬ 32 + i < 64 by omega, BitVec.getLsbD_of_ge high i (by omega)]
  have heq := hash_injective_half (.inl ((hhigh x).trans (hhigh y).symm)) hxy
  refine BitVec.eq_of_getLsbD_eq fun i hi => ?_
  have hbit := congrArg (fun z : Address => z.getLsbD i) heq
  simpa [ofHalves, hi, show i < 64 by omega] using hbit

end Addresses

end RdmaMiddleware.MurmurHash
