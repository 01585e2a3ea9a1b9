import Mathlib.Data.List.Basic
import Std.Data.TreeMap

/-!
# Bytes, keys and nibbles

The scalar types of the engine: 32-byte keys and hashes (`[u8; 32]`), nibble
paths, 256-bit balances, and the hash function.  `keccak256` is a parameter of
the whole development (class `Keccak`): nothing is assumed about it beyond
returning 32 bytes.

    keyNibbles k      -- the 64 nibbles of a key, high half of each byte first
    nibblesToKey ns   -- packs 64 nibbles back; `none` where the Rust code panics
    nibblesToKey_keyNibbles, keyNibbles_injective
-/

namespace FlatMpt

abbrev Bytes := List UInt8

/-- `[u8; 32]`. -/
structure Bytes32 where
  bytes : Bytes
  size : bytes.length = 32
deriving DecidableEq

abbrev Key := Bytes32

abbrev Hash := Bytes32

abbrev U256 := BitVec 256

abbrev Nibble := Fin 16

/-- Nibbles have numerals. -/
instance sixteen_neZero : @NeZero Nat (@Zero.ofOfNat0 Nat (instOfNatNat 0)) 16 := ⟨Nat.succ_ne_zero 15⟩

/-- The hash function, uninterpreted. -/
class Keccak where
  keccak256 : Bytes → Hash

export Keccak (keccak256)

/-! ## Byte order -/

namespace Bytes32

@[ext] theorem ext {a b : Bytes32} (h : a.bytes = b.bytes) : a = b := by
  cases a; cases b; simpa using h

/-- The lexicographic byte order, as `Ord for [u8; 32]`. -/
instance : Ord Bytes32 := ⟨fun a b => compare a.bytes b.bytes⟩

instance : Std.TransOrd Bytes32 where
  eq_swap {_ _} := @Std.OrientedCmp.eq_swap Bytes compare _ _ _
  isLE_trans h1 h2 := @Std.TransCmp.isLE_trans Bytes compare _ _ _ _ h1 h2

instance : Std.LawfulEqOrd Bytes32 where
  compare_self {_} := @Std.ReflCmp.compare_self Bytes compare _ _
  eq_of_compare h := ext (@Std.LawfulEqCmp.eq_of_compare Bytes compare _ _ _ h)

/-- `[b; 32]`. -/
def fill (b : UInt8) : Bytes32 := ⟨List.replicate 32 b, by simp⟩

instance : Inhabited Bytes32 := ⟨fill 0⟩

end Bytes32

/-! ## Nibbles -/

/-- The two nibbles of a byte, high half first. -/
def byteNibbles (b : UInt8) : List Nibble :=
  [⟨b.toNat / 16, by have := b.toNat_lt; omega⟩, ⟨b.toNat % 16, by omega⟩]

def keyNibbles (k : Key) : List Nibble := k.bytes.flatMap byteNibbles

/-- `(pair[0] << 4) | pair[1]`. -/
def packByte (hi lo : Nibble) : UInt8 := UInt8.ofNat (hi.val * 16 + lo.val)

/-- Pack nibbles two at a time; a trailing single nibble indexes past its
chunk. -/
def packNibbles : List Nibble → Option Bytes
  | [] => some []
  | [_] => none
  | hi :: lo :: rest => (packNibbles rest).map (packByte hi lo :: ·)

/-- Pack a full 64-nibble path back into its 32-byte key.  Past 32 bytes the
array index is out of range; a shorter path leaves zero bytes. -/
def nibblesToKey (nibbles : List Nibble) : Option Key :=
  match packNibbles nibbles with
  | none => none
  | some bs =>
    if h : bs.length ≤ 32 then
      some ⟨bs ++ List.replicate (32 - bs.length) 0, by simp; omega⟩
    else none

/-! ## Lemmas -/

theorem packByte_byteNibbles (b : UInt8) :
    packByte ⟨b.toNat / 16, by have := b.toNat_lt; omega⟩ ⟨b.toNat % 16, by omega⟩ = b := by
  apply UInt8.toNat_inj.1
  have hb := b.toNat_lt
  simp only [packByte, UInt8.toNat_ofNat']
  omega

theorem packNibbles_flatMap (bs : Bytes) : packNibbles (bs.flatMap byteNibbles) = some bs := by
  induction bs with
  | nil => rfl
  | cons b bs ih =>
    simp only [List.flatMap_cons, byteNibbles, List.cons_append, List.nil_append] at ih ⊢
    rw [packNibbles, ih, packByte_byteNibbles]
    rfl

@[simp] theorem keyNibbles_length (k : Key) : (keyNibbles k).length = 64 := by
  have h := k.size
  simp [keyNibbles, List.length_flatMap, byteNibbles, h]

theorem nibblesToKey_keyNibbles (k : Key) : nibblesToKey (keyNibbles k) = some k := by
  have h := packNibbles_flatMap k.bytes
  rw [nibblesToKey, keyNibbles, h]
  simp [k.size]

theorem keyNibbles_injective : Function.Injective keyNibbles := by
  intro a b h
  have ha := nibblesToKey_keyNibbles a
  rw [h, nibblesToKey_keyNibbles b] at ha
  exact (Option.some.inj ha).symm

@[simp] theorem keyNibbles_inj {a b : Key} : keyNibbles a = keyNibbles b ↔ a = b :=
  keyNibbles_injective.eq_iff

end FlatMpt
