import FlatMpt.Node

/-!
# Operations inside one record

Insertion and deletion in a record's node tree.  `nodeInsert` and `nodeDelete`
are the descents of `record_node_insert` and `record_node_delete`, over the
nibbles of the key that remain below the node; what happens at the leaf position
is a parameter, since a storage trie (value leaves) and the state trie (accounts,
whose slots are themselves inserted in a nested trie) share the descent.
-/

namespace FlatMpt

open Eth (EMPTY_ROOT EMPTY_CODE_HASH)
open Radix (commonPrefix)

/-- What to place or update at a key's leaf position. -/
inductive LeafOp
  /-- A generic value leaf (storage slot, or a plain trie). -/
  | value (v : Bytes)
  /-- Account fields, keeping any existing storage. -/
  | account (nonce : UInt64) (balance : U256) (codeHash : Hash)
  /-- One storage slot of the account at this key. -/
  | storage (slot : Key) (value : Bytes)
deriving DecidableEq

/-- What to delete at a key's leaf position. -/
inductive DeleteOp
  | value
  /-- The account with its storage; also an account stored as a value leaf. -/
  | account
  | storage (slot : Key)
  /-- All storage of the account, keeping its fields. -/
  | wipeStorage
deriving DecidableEq

/-- Outcome of a delete inside a record's node tree. -/
inductive NodeDelete
  | absent
  | changed
  | removed
deriving DecidableEq

/-- Result of applying a `DeleteOp` at an exact key match. -/
inductive Applied
  | absent (node : Node)
  | changed (node : Node)
  | removed

section
variable [Keccak]

/-! ## Insertion -/

/-- Re-home a leaf or account under a shorter suffix after a divergence. -/
def rehome (node : Node) (path : List Nibble) : Except Err Node :=
  match node with
  | .leaf _ value _ => .ok (leafNode path value)
  | .account _ nonce balance codeHash storage _ _ =>
    .ok (accountNode path nonce balance codeHash storage)
  | _ => .error .panic

/-- Two children in an otherwise empty child array. -/
def twoChildren (i : Nibble) (a : Node) (j : Nibble) (b : Node) : Nibble → Option Node :=
  Function.update (Function.update (fun _ => none) i (some a)) j (some b)

/-- A branch under the shared stretch, if there is one. -/
def underPath (path : List Nibble) (branch : Node) : Node :=
  if path.length = 0 then branch else makeExtension path branch

/-- The leaf position reached: apply in place, or split where the key diverges. -/
def insertAtLeaf (place : List Nibble → Except Err Node)
    (apply : Node → List Nibble → Except Err Node) (old : Node) (path remaining : List Nibble) :
    Except Err Node :=
  let common := commonPrefix path remaining
  if common = path.length then apply old path
  else
    match path.drop common, remaining.drop common with
    | oldIdx :: oldRest, newIdx :: newRest => do
      let a ← rehome old oldRest
      let b ← place newRest
      return underPath (path.take common) (makeBranch (twoChildren oldIdx a newIdx b))
    | _, _ => .error .panic

mutual

/-- The descent of `record_node_insert`. -/
def nodeInsert (place : List Nibble → Except Err Node)
    (apply : Node → List Nibble → Except Err Node) : Node → List Nibble → Except Err Node
  | .empty, remaining => place remaining
  | .leaf path value nref, remaining =>
    insertAtLeaf place apply (.leaf path value nref) path remaining
  | .account path nonce balance codeHash storage storageRoot nref, remaining =>
    insertAtLeaf place apply (.account path nonce balance codeHash storage storageRoot nref) path
      remaining
  | .extension path child _, remaining =>
    let common := commonPrefix path remaining
    if common = path.length then do
      let child ← nodeInsert place apply child (remaining.drop path.length)
      return makeExtension path child
    else
      match path.drop common, remaining.drop common with
      | oldIdx :: oldRest, newIdx :: newRest => do
        let a := if oldRest = [] then child else makeExtension oldRest child
        let b ← place newRest
        return underPath (path.take common) (makeBranch (twoChildren oldIdx a newIdx b))
      | _, _ => .error .panic
  | .branch children _, remaining =>
    match remaining with
    | [] => .error .panic
    | idx :: rest => do
      let child ← nodeInsertSlot place apply (children idx) rest
      return makeBranch (Function.update children idx (some child))

def nodeInsertSlot (place : List Nibble → Except Err Node)
    (apply : Node → List Nibble → Except Err Node) : Option Node → List Nibble → Except Err Node
  | none, rest => place rest
  | some child, rest => nodeInsert place apply child rest

end

/-- `place_new` of a value leaf. -/
def placeValue (value : Bytes) (path : List Nibble) : Except Err Node := .ok (leafNode path value)

/-- `apply_op` of a value. -/
def applyValue (value : Bytes) (old : Node) (path : List Nibble) : Except Err Node :=
  match old with
  | .leaf .. => .ok (leafNode path value)
  | _ => .error .leafOpMismatch

/-- A slot write into a storage trie. -/
def storageInsert (storage : Node) (slot : Key) (value : Bytes) : Except Err Node :=
  nodeInsert (placeValue value) (applyValue value) storage (keyNibbles slot)

/-- Create a fresh node for a brand-new key. -/
def placeNew (op : LeafOp) (path : List Nibble) : Except Err Node :=
  match op with
  | .value v => placeValue v path
  | .account nonce balance codeHash => .ok (accountNode path nonce balance codeHash .empty)
  | .storage slot value => do
    let storage ← storageInsert .empty slot value
    return accountNode path 0 0 EMPTY_CODE_HASH storage

/-- Apply a `LeafOp` to the existing node at an exact key match. -/
def applyOp (op : LeafOp) (old : Node) (path : List Nibble) : Except Err Node :=
  match old, op with
  | .leaf _ value _, .account nonce balance codeHash =>
    -- an account stored as an opaque value leaf keeps its storage root
    match Eth.Account.decode value with
    | some prior =>
      if prior.storageRoot ≠ EMPTY_ROOT then
        .ok (leafNode path (accountRlp nonce balance codeHash prior.storageRoot))
      else .ok (accountNode path nonce balance codeHash .empty)
    | none => .ok (accountNode path nonce balance codeHash .empty)
  | .account _ _ _ _ storage _ _, .account nonce balance codeHash =>
    .ok (accountNode path nonce balance codeHash storage)
  | .account _ nonce balance codeHash storage _ _, .storage slot value => do
    let storage ← storageInsert storage slot value
    return accountNode path nonce balance codeHash storage
  | .leaf _ value _, .storage slot sval =>
    match Eth.Account.decode value with
    | some prior =>
      if prior.storageRoot = EMPTY_ROOT then do
        let storage ← storageInsert .empty slot sval
        return accountNode path prior.nonce prior.balance prior.codeHash storage
      else .error .opaqueStorageWrite
    | none => .error .leafOpMismatch
  | old, .value v => applyValue v old path
  | _, _ => .error .leafOpMismatch

/-- Insert or update the leaf at `remaining`, the key's nibbles from the node's
position on. -/
def recordNodeInsert (node : Node) (remaining : List Nibble) (op : LeafOp) : Except Err Node :=
  nodeInsert (placeNew op) (applyOp op) node remaining

/-! ## Deletion -/

/-- Re-root a node by prepending `edge` to its top path. -/
def prependPath (node : Node) (edge : List Nibble) : Except Err Node :=
  if edge = [] then .ok node
  else
    match node with
    | .leaf path value _ => .ok (leafNode (edge ++ path) value)
    | .account path nonce balance codeHash storage _ _ =>
      .ok (accountNode (edge ++ path) nonce balance codeHash storage)
    | .extension path child _ => .ok (makeExtension (edge ++ path) child)
    | .branch children nref => .ok (makeExtension edge (.branch children nref))
    | .empty => .error .panic

/-- The occupied slots of a child array, in order. -/
def survivors {β : Type} (children : Nibble → Option β) : List Nibble :=
  (List.finRange 16).filter fun i => (children i).isSome

/-- The leaf position reached by a delete. -/
def deleteAtLeaf (apply : Node → Except Err Applied) (old : Node) (path remaining : List Nibble) :
    Except Err (Node × NodeDelete) :=
  if path = remaining then do
    match ← apply old with
    | .absent n => return (n, .absent)
    | .changed n => return (n, .changed)
    | .removed => return (.empty, .removed)
  else .ok (old, .absent)

/-- A branch whose child at `idx` was removed: gone, collapsed into its lone
survivor, or re-folded. -/
def removeChild (children : Nibble → Option Node) : Except Err (Node × NodeDelete) :=
  match survivors children with
  | [] => .ok (.empty, .removed)
  | [j] =>
    match children j with
    | none => .error .panic
    | some survivor => do
      let n ← prependPath survivor [j]
      return (n, .changed)
  | _ => .ok (makeBranch children, .changed)

mutual

/-- The descent of `record_node_delete`. -/
def nodeDelete (apply : Node → Except Err Applied) :
    Node → List Nibble → Except Err (Node × NodeDelete)
  | .empty, _ => .ok (.empty, .absent)
  | .leaf path value nref, remaining => deleteAtLeaf apply (.leaf path value nref) path remaining
  | .account path nonce balance codeHash storage storageRoot nref, remaining =>
    deleteAtLeaf apply (.account path nonce balance codeHash storage storageRoot nref) path remaining
  | .extension path child nref, remaining =>
    if path.isPrefixOf remaining then do
      let (child, out) ← nodeDelete apply child (remaining.drop path.length)
      match out with
      | .absent => return (.extension path child nref, .absent)
      | .removed => return (.empty, .removed)
      | .changed => do
        let n ← prependPath child path
        return (n, .changed)
    else .ok (.extension path child nref, .absent)
  | .branch children nref, remaining =>
    match remaining with
    | [] => .error .panic
    | idx :: rest => do
      let (child, out) ← nodeDeleteSlot apply (children idx) rest
      match out with
      | .absent => return (.branch (Function.update children idx child) nref, .absent)
      | .changed => return (makeBranch (Function.update children idx child), .changed)
      | .removed => removeChild (Function.update children idx none)

def nodeDeleteSlot (apply : Node → Except Err Applied) :
    Option Node → List Nibble → Except Err (Option Node × NodeDelete)
  | none, _ => .ok (none, .absent)
  | some child, rest => do
    let (child, out) ← nodeDelete apply child rest
    return (some child, out)

end

/-- `apply_delete_op` of a value delete. -/
def applyValueDelete (old : Node) : Except Err Applied :=
  match old with
  | .leaf .. => .ok .removed
  | _ => .error .deleteOpMismatch

/-- A slot delete in a storage trie. -/
def storageDelete (storage : Node) (slot : Key) : Except Err (Node × NodeDelete) :=
  nodeDelete applyValueDelete storage (keyNibbles slot)

/-- Apply a `DeleteOp` to the existing node at an exact key match. -/
def applyDeleteOp (op : DeleteOp) (old : Node) : Except Err Applied :=
  match old, op with
  | .leaf .., .account => .ok .removed
  | .account .., .account => .ok .removed
  | .account path nonce balance codeHash storage _ _, .storage slot => do
    let (storage, out) ← storageDelete storage slot
    match out with
    | .absent => return .absent (accountNode path nonce balance codeHash storage)
    | .removed => return .changed (accountNode path nonce balance codeHash .empty)
    | .changed => return .changed (accountNode path nonce balance codeHash storage)
  | .account path nonce balance codeHash storage _ _, .wipeStorage =>
    match storage with
    | .empty => .ok (.absent (accountNode path nonce balance codeHash .empty))
    | _ => .ok (.changed (accountNode path nonce balance codeHash .empty))
  | .leaf path value nref, .storage _ =>
    match Eth.Account.decode value with
    | some prior =>
      if prior.storageRoot = EMPTY_ROOT then .ok (.absent (.leaf path value nref))
      else .error .opaqueStorageDelete
    | none => .error .deleteOpMismatch
  | .leaf path value _, .wipeStorage =>
    match Eth.Account.decode value with
    | some prior =>
      if prior.storageRoot = EMPTY_ROOT then .ok (.absent (leafNode path value))
      else .ok (.changed (accountNode path prior.nonce prior.balance prior.codeHash .empty))
    | none => .error .deleteOpMismatch
  | old, .value => applyValueDelete old
  | _, _ => .error .deleteOpMismatch

/-- Delete the leaf at `remaining` and re-fold the structure canonically. -/
def recordNodeDelete (node : Node) (remaining : List Nibble) (op : DeleteOp) :
    Except Err (Node × NodeDelete) :=
  nodeDelete (applyDeleteOp op) node remaining

end

end FlatMpt
