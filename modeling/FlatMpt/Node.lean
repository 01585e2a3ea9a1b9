import FlatMpt.Eth

/-!
# Record nodes

The node tree held by one record, with its cached references.  A `NodeRef` is
what a parent embeds: the node's RLP when shorter than 32 bytes, else its hash.
The constructors `leafNode`, `accountNode`, `makeExtension` and `makeBranch`
compute the reference from the children's cached ones.
-/

namespace FlatMpt

open Eth (rlpString rlpList hexPrefix)

/-! ## Errors -/

/-- How an operation fails: an I/O error, one of the program's own errors, or a
panic. -/
inductive Err
  | io
  | recordTooLarge (len : Nat)
  | addressLimit
  | oversizedUnsplittable (size : Nat)
  | oversizedUnsplittableMem (size : Nat)
  | valueOnPromoted
  | valueDeleteOnPromoted
  | keyAtBranch
  | singleAccountRoot
  | singleLeafRoot
  | opaqueStorageWrite
  | opaqueStorageDelete
  | leafOpMismatch
  | deleteOpMismatch
  | trailingBytes
  | trailingRawBytes
  | trailingSpanBytes
  | spanOutOfRange
  | recordPathTooLong
  | pathTooLong
  | invalidPath
  | truncated
  | accountDecode
  | accountLeafRlp
  | accountInStorage
  | leafPathLength (len : Nat)
  | spillInstall (pfx : List Nibble)
  | invalidRefTag (tag : UInt8)
  | invalidNodeTag (tag : UInt8)
  | panic
deriving DecidableEq

/-- The texts of the program's own errors. -/
def Err.text : Err → String
  | .io => "I/O error"
  | .recordTooLarge len => s!"record payload {len} B exceeds the region capacity"
  | .addressLimit => "flat file exceeds the DiskPtr addressing limit"
  | .oversizedUnsplittable size => s!"oversized unsplittable record ({size} B)"
  | .oversizedUnsplittableMem size => s!"oversized unsplittable Mem record ({size} B)"
  | .valueOnPromoted => "value op on a promoted account leaf"
  | .valueDeleteOnPromoted => "value delete on a promoted account leaf"
  | .keyAtBranch => "key terminates at a frontier branch; keys must be distinct and fixed-length"
  | .singleAccountRoot =>
    "trie collapsed to a single account at the root (unsupported below 2 keys)"
  | .singleLeafRoot => "trie collapsed to a single leaf at the root (unsupported below 2 keys)"
  | .opaqueStorageWrite => "storage write on an account with opaque (unmaterialized) storage — " ++
    "the checkpoint was built without nested storage (rethload); rebuild it with rethload_nested"
  | .opaqueStorageDelete => "storage delete on an account with opaque (unmaterialized) storage — " ++
    "the checkpoint was built without nested storage (rethload); rebuild it with rethload_nested"
  | .leafOpMismatch => "leaf op does not match the existing node kind at this key"
  | .deleteOpMismatch => "delete op does not match the existing node kind at this key"
  | .trailingBytes => "trailing bytes in flat-file record"
  | .trailingRawBytes => "trailing bytes in raw node"
  | .trailingSpanBytes => "trailing bytes in span record"
  | .spanOutOfRange => "span record out of range"
  | .recordPathTooLong => "compact subtree nibble path too long"
  | .pathTooLong => "nibble path too long"
  | .invalidPath => "invalid nibble path"
  | .truncated => "truncated compact subtree record"
  | .accountDecode => "account leaf did not decode"
  | .accountLeafRlp => "account leaf RLP"
  | .accountInStorage => "account node inside a storage trie"
  | .leafPathLength len => s!"leaf path sums to {len} nibbles, want 64"
  | .spillInstall pfx => s!"spill install found no Disk slot at prefix {pfx.map Fin.val}"
  | .invalidRefTag tag => s!"invalid node-ref tag {tag}"
  | .invalidNodeTag tag => s!"invalid compact subtree node tag {tag}"
  | .panic => "panic"

theorem bind_ok {α β : Type} {x : Except Err α} {f : α → Except Err β} {b : β}
    (h : (x >>= f) = .ok b) : ∃ a, x = .ok a ∧ f a = .ok b := by
  cases x with
  | error e => cases h
  | ok a => exact ⟨a, rfl, h⟩

/-! ## References -/

inductive NodeRef
  | hash (h : Hash)
  | inline (rlp : Bytes)
deriving DecidableEq

section
variable [Keccak]

/-- The bytes a reference contributes as one item of its parent's RLP list. -/
def NodeRef.embed : NodeRef → Bytes
  | .hash h => rlpString h.bytes
  | .inline rlp => rlp

/-- The hash a node exposes as a trie root; an inlined node is hashed. -/
def NodeRef.finalize : NodeRef → Hash
  | .hash h => h
  | .inline rlp => keccak256 rlp

/-- Inline a node's RLP if it is shorter than 32 bytes, else hash it. -/
def mkRef (rlp : Bytes) : NodeRef :=
  if rlp.length < 32 then .inline rlp else .hash (keccak256 rlp)

def emptyHash : Hash := keccak256 (rlpString [])

def extRlp (path : List Nibble) (child : NodeRef) : Bytes :=
  rlpList [rlpString (hexPrefix path false), child.embed]

def extRef (path : List Nibble) (child : NodeRef) : NodeRef := mkRef (extRlp path child)

def leafRlp (path : List Nibble) (value : Bytes) : Bytes :=
  rlpList [rlpString (hexPrefix path true), rlpString value]

def leafRef (path : List Nibble) (value : Bytes) : NodeRef := mkRef (leafRlp path value)

/-- Items of a branch: the children's references in slot order, absent slots and
the value slot as the empty string. -/
def branchRlp (children : Nibble → Option NodeRef) : Bytes :=
  rlpList (((List.finRange 16).map fun i =>
    match children i with
    | some ch => ch.embed
    | none => rlpString []) ++ [rlpString []])

def branchRef (children : Nibble → Option NodeRef) : NodeRef := mkRef (branchRlp children)

end

/-! ## Nodes -/

/-- A node of a record.  `account` nests the account's storage trie. -/
inductive Node where
  | empty
  | leaf (path : List Nibble) (value : Bytes) (nref : NodeRef)
  | extension (path : List Nibble) (child : Node) (nref : NodeRef)
  | branch (children : Nibble → Option Node) (nref : NodeRef)
  | account (path : List Nibble) (nonce : UInt64) (balance : U256) (codeHash : Hash)
      (storage : Node) (storageRoot : Hash) (nref : NodeRef)

theorem Node.induct {P : Node → Prop} (hempty : P .empty)
    (hleaf : ∀ path value nref, P (.leaf path value nref))
    (hext : ∀ path child nref, P child → P (.extension path child nref))
    (hbranch : ∀ children nref, (∀ i c, children i = some c → P c) → P (.branch children nref))
    (hacct : ∀ path nonce balance codeHash storage storageRoot nref, P storage →
      P (.account path nonce balance codeHash storage storageRoot nref)) (n : Node) : P n :=
  Node.rec (motive_1 := P) (motive_2 := fun o => ∀ c, o = some c → P c) hempty hleaf hext
    (fun children nref ih => hbranch children nref fun i c hc => ih i c hc) hacct
    (fun _ hc => by cases hc) (fun _ ih _ hc => by cases hc; exact ih) n

def Node.isBranch : Node → Bool
  | .branch .. => true
  | _ => false

/-- A record: the nibbles leading to its node, and the node. -/
structure DiskSubtree where
  pfx : List Nibble
  node : Node

section
variable [Keccak]

/-- The cached reference of a node. -/
def hashNode : Node → NodeRef
  | .empty => .hash emptyHash
  | .leaf _ _ nref => nref
  | .extension _ _ nref => nref
  | .branch _ nref => nref
  | .account _ _ _ _ _ _ nref => nref

def leafNode (path : List Nibble) (value : Bytes) : Node := .leaf path value (leafRef path value)

/-- The leaf value of an account with the given storage root. -/
def accountRlp (nonce : UInt64) (balance : U256) (codeHash storageRoot : Hash) : Bytes :=
  Eth.Account.rlp ⟨nonce, balance, storageRoot, codeHash⟩

def accountNode (path : List Nibble) (nonce : UInt64) (balance : U256) (codeHash : Hash)
    (storage : Node) : Node :=
  let storageRoot := (hashNode storage).finalize
  .account path nonce balance codeHash storage storageRoot
    (leafRef path (accountRlp nonce balance codeHash storageRoot))

def makeExtension (path : List Nibble) (child : Node) : Node :=
  .extension path child (extRef path (hashNode child))

def makeBranch (children : Nibble → Option Node) : Node :=
  .branch children (branchRef fun i => (children i).map hashNode)

end

end FlatMpt
