import Mathlib.Data.Nat.Digits.Lemmas
import FlatMpt.Basic
import FlatMpt.Lib.Radix

/-!
# Ethereum node encoding (`eth.rs`)

RLP, hex-prefix paths, the account leaf value, and the reference trie root the
whole engine is measured against.  RLP itself (`alloy_rlp` in the source) is the
canonical encoding: shortest headers, integers without leading zero bytes, and a
decoder that refuses anything else.

    encodeNode entries      -- RLP of the node spanning sorted, distinct entries
    root entries            -- keccak of it over raw byte keys, last write wins
    Account.decode a.rlp = some a                              (Account.decode_rlp)
-/

namespace FlatMpt.Eth

open FlatMpt

/-! ## RLP -/

/-- Minimal big-endian bytes of a number; `0` has none. -/
def beBytes (n : Nat) : Bytes := (Nat.digits 256 n).reverse.map UInt8.ofNat

/-- `alloy_rlp::Header::encode`. -/
def rlpHeader (list : Bool) (payloadLength : Nat) : Bytes :=
  let base := if list then 0xc0 else 0x80
  if payloadLength < 56 then [UInt8.ofNat (base + payloadLength)]
  else
    let be := beBytes payloadLength
    UInt8.ofNat (base + 55 + be.length) :: be

/-- RLP-encode a byte string. -/
def rlpString (bytes : Bytes) : Bytes :=
  match bytes with
  | [b] => if b < 0x80 then [b] else rlpHeader false 1 ++ [b]
  | bs => rlpHeader false bs.length ++ bs

/-- RLP-encode a list whose items are already RLP-encoded elements. -/
def rlpList (items : List Bytes) : Bytes :=
  rlpHeader true items.flatten.length ++ items.flatten

/-- Integers encode as their minimal big-endian bytes. -/
def rlpNat (n : Nat) : Bytes := rlpString (beBytes n)

/-- `alloy_rlp::Header::decode`: list flag, payload length and the bytes from the
payload on.  A single byte below `0x80` is its own payload. -/
def decodeHeader : Bytes → Option (Bool × Nat × Bytes)
  | [] => none
  | b :: rest =>
    let n := b.toNat
    let fits (list : Bool) (len : Nat) (payload : Bytes) :=
      if payload.length < len then none else some (list, len, payload)
    if n < 0x80 then fits false 1 (b :: rest)
    else if n < 0xb8 then
      let len := n - 0x80
      if len = 1 ∧ (rest.head?.map UInt8.toNat).getD 0x80 < 0x80 then none else fits false len rest
    else if 0xc0 ≤ n ∧ n < 0xf8 then fits true (n - 0xc0) rest
    else
      let list := decide (0xf8 ≤ n)
      let lenOfLen := n - (if list then 0xf7 else 0xb7)
      if rest.length < lenOfLen then none
      else
        let be := rest.take lenOfLen
        let len := be.foldl (fun acc b => acc * 256 + b.toNat) 0
        if be.head? = some 0 ∨ len < 56 then none else fits list len (rest.drop lenOfLen)

/-- `Header::decode_bytes`: a byte string and what follows it. -/
def decodeBytes (bs : Bytes) : Option (Bytes × Bytes) :=
  match decodeHeader bs with
  | some (false, len, payload) => some (payload.take len, payload.drop len)
  | _ => none

/-- An unsigned integer of at most `width` bytes, without leading zeros. -/
def decodeNat (width : Nat) (bs : Bytes) : Option (Nat × Bytes) :=
  match decodeBytes bs with
  | none => none
  | some (be, rest) =>
    if width < be.length ∨ be.head? = some 0 then none
    else some (be.foldl (fun acc b => acc * 256 + b.toNat) 0, rest)

/-- A 32-byte string. -/
def decodeHash (bs : Bytes) : Option (Hash × Bytes) :=
  match decodeBytes bs with
  | none => none
  | some (h, rest) => if hs : h.length = 32 then some (⟨h, hs⟩, rest) else none

/-! ## Accounts -/

section
variable [Keccak]

/-- `keccak256(RLP(""))`. -/
def EMPTY_ROOT : Hash := keccak256 (rlpString [])

/-- `keccak256("")`. -/
def EMPTY_CODE_HASH : Hash := keccak256 []

end

/-- The value of an account's state-trie leaf, before encoding. -/
structure Account where
  nonce : UInt64
  balance : U256
  storageRoot : Hash
  codeHash : Hash
deriving DecidableEq

/-- `RLP([nonce, balance, storageRoot, codeHash])`. -/
def Account.rlp (a : Account) : Bytes :=
  rlpList [rlpNat a.nonce.toNat, rlpNat a.balance.toNat, rlpString a.storageRoot.bytes,
    rlpString a.codeHash.bytes]

/-- Decode an account from its leaf value; the four fields must fill the list
exactly, bytes after the list are ignored. -/
def Account.decode (bytes : Bytes) : Option Account := do
  let (list, len, payload) ← decodeHeader bytes
  guard list
  let (nonce, r1) ← decodeNat 8 payload
  let (balance, r2) ← decodeNat 32 r1
  let (storageRoot, r3) ← decodeHash r2
  let (codeHash, r4) ← decodeHash r3
  guard (payload.length - r4.length = len)
  some ⟨UInt64.ofNat nonce, BitVec.ofNat 256 balance, storageRoot, codeHash⟩

/-! ## Node encoding -/

/-- Hex-prefix (compact) encoding of a nibble path: a flag nibble (`2` leaf,
`+1` odd length), then the nibbles packed two to a byte. -/
def hexPrefix (nibbles : List Nibble) (leaf : Bool) : Bytes :=
  let flag : Nibble := if leaf then 2 else 0
  let full := if nibbles.length % 2 = 1 then (flag + 1) :: nibbles else flag :: 0 :: nibbles
  (packNibbles full).getD []

/-- An entry of the reference trie: nibble key and value. -/
abbrev Entry := List Nibble × Bytes

section
variable [Keccak]

/-- A node's reference as embedded in its parent: its RLP when shorter than 32
bytes, else the RLP string of its hash. -/
def nodeRef (nodeRlp : Bytes) : Bytes :=
  if nodeRlp.length < 32 then nodeRlp else rlpString (keccak256 nodeRlp).bytes

end

/-- Longest common prefix across a sorted, non-empty entry set (first vs last). -/
def commonPrefixLen (entries : List Entry) : Nat :=
  Radix.commonPrefix ((entries.head?.map Prod.fst).getD []) ((entries.getLast?.map Prod.fst).getD [])

/-- The entries below branch slot `i`, their first nibble dropped. -/
def bucket (i : Nibble) (entries : List Entry) : List Entry :=
  entries.filterMap fun e =>
    match e.1 with
    | [] => none
    | n :: rest => if n = i then some (rest, e.2) else none

section
variable [Keccak]

/-- The recursion of `encode_node`; every call below strips a nibble from the
keys, so the longest key bounds the depth. -/
def encodeNodeAt : Nat → List Entry → Bytes
  | _, [] => []
  | _, [(k, v)] => rlpList [rlpString (hexPrefix k true), rlpString v]
  | 0, _ => []
  | depth + 1, entries =>
    let cp := commonPrefixLen entries
    if 0 < cp then
      let stripped := entries.map fun e => (e.1.drop cp, e.2)
      let child := encodeNodeAt depth stripped
      let path := ((entries.head?.map Prod.fst).getD []).take cp
      rlpList [rlpString (hexPrefix path false), nodeRef child]
    else
      let items := (List.finRange 16).map fun i =>
        let b := bucket i entries
        if b.isEmpty then rlpString [] else nodeRef (encodeNodeAt depth b)
      let value := match entries.find? (fun e => e.1.isEmpty) with
        | some e => rlpString e.2
        | none => rlpString []
      rlpList (items ++ [value])

/-- RLP of the trie node spanning `entries` (sorted by nibble key, distinct). -/
def encodeNode (entries : List Entry) : Bytes :=
  encodeNodeAt ((entries.map fun e => e.1.length).foldr max 0 + 1) entries

/-- Nibbles of a raw byte key. -/
def rawNibbles (key : Bytes) : List Nibble := key.flatMap byteNibbles

/-- Trie root over `(key, value)` pairs: last write wins, an empty value is
absent. -/
def root (entries : List (Bytes × Bytes)) : Hash :=
  let map := entries.foldl (fun (m : Std.TreeMap (List Nibble) Bytes compare) e =>
    if e.2.isEmpty then m.erase (rawNibbles e.1) else m.insert (rawNibbles e.1) e.2) ∅
  if map.isEmpty then keccak256 [0x80] else keccak256 (encodeNode map.toList)

end

end FlatMpt.Eth
