import FlatMpt.Block
import FlatMpt.Frontier

/-!
# Reads and the root

Point reads through the frontier into records, the enumeration of an account's
storage, and the root hash with its caches.  Reading never changes the frontier
except for filling hash caches, which `fillRam` does where a root is computed.

    ramGet, ramGetStorage     -- `get_value`, `get_storage`
    hashRam, fillRam          -- the root, and the frontier with its caches filled
-/

namespace FlatMpt

section
variable [Keccak]

/-! ## Records -/

mutual

/-- The value at the key's remaining nibbles; an account reads as its RLP. -/
def nodeGet : Node → List Nibble → Option Bytes
  | .empty, _ => none
  | .leaf path value _, rest => if rest = path then some value else none
  | .account path nonce balance codeHash _ storageRoot _, rest =>
    if rest = path then some (accountRlp nonce balance codeHash storageRoot) else none
  | .extension path child _, rest =>
    if path.isPrefixOf rest then nodeGet child (rest.drop path.length) else none
  | .branch children _, rest =>
    match rest with
    | [] => none
    | idx :: rest => nodeGetSlot (children idx) rest

def nodeGetSlot : Option Node → List Nibble → Option Bytes
  | none, _ => none
  | some child, rest => nodeGet child rest

end

mutual

/-- A slot of the account at the key's remaining nibbles. -/
def nodeGetStorage : Node → List Nibble → Key → Option Bytes
  | .empty, _, _ => none
  | .leaf .., _, _ => none
  | .account path _ _ _ storage _ _, rest, slot =>
    if rest = path then nodeGet storage (keyNibbles slot) else none
  | .extension path child _, rest, slot =>
    if path.isPrefixOf rest then nodeGetStorage child (rest.drop path.length) slot else none
  | .branch children _, rest, slot =>
    match rest with
    | [] => none
    | idx :: rest => nodeGetStorageSlot (children idx) rest slot

def nodeGetStorageSlot : Option Node → List Nibble → Key → Option Bytes
  | none, _, _ => none
  | some child, rest, slot => nodeGetStorage child rest slot

end

mutual

/-- Every slot of a storage subtree below `path`, in key order. -/
def collectStorageSubtree : Node → List Nibble → Except Err (List (Key × Bytes))
  | .empty, _ => .ok []
  | .leaf lpath value _, path =>
    match nibblesToKey (path ++ lpath) with
    | some key => .ok [(key, value)]
    | none => .error .panic
  | .extension epath child _, path => collectStorageSubtree child (path ++ epath)
  | .branch children _, path => do
    let parts ← (List.finRange 16).mapM fun i => collectStorageSlot (children i) (path ++ [i])
    return parts.flatten
  | .account .., _ => .error .panic

def collectStorageSlot : Option Node → List Nibble → Except Err (List (Key × Bytes))
  | none, _ => .ok []
  | some child, path => collectStorageSubtree child path

end

mutual

/-- All slots of the account at the key's remaining nibbles. -/
def nodeCollectStorage : Node → List Nibble → Except Err (List (Key × Bytes))
  | .empty, _ => .ok []
  | .leaf .., _ => .ok []
  | .account path _ _ _ storage _ _, rest =>
    if rest = path then collectStorageSubtree storage [] else .ok []
  | .extension path child _, rest =>
    if path.isPrefixOf rest then nodeCollectStorage child (rest.drop path.length) else .ok []
  | .branch children _, rest =>
    match rest with
    | [] => .error .panic
    | idx :: rest => nodeCollectStorageSlot (children idx) rest

def nodeCollectStorageSlot : Option Node → List Nibble → Except Err (List (Key × Bytes))
  | none, _ => .ok []
  | some child, rest => nodeCollectStorage child rest

end

/-- Prior account fields at a key: both structured accounts and opaque leaves
carry the account RLP. -/
def nodePriorAccount (node : Node) (rest : List Nibble) : Except Err (Option Eth.Account) :=
  match nodeGet node rest with
  | none => .ok none
  | some rlp =>
    match Eth.Account.decode rlp with
    | some a => .ok (some a)
    | none => .error .accountDecode

/-! ## Hashes -/

mutual

/-- The hash of a frontier node, from the caches where they are filled. -/
def hashRam : RamNode → Hash
  | .empty => emptyHash
  | .extension path child hash => hash.getD (extRef path (.hash (hashRam child))).finalize
  | .branch children hash =>
    hash.getD (branchRef fun i => (ramChildHash (children i)).map .hash).finalize

/-- The hash of a frontier child. -/
def ramChildHash : RamSlot → Option Hash
  | .none => none
  | .ram node => some (hashRam node)
  | .disk _ root => some root
  | .account path nonce balance codeHash storage =>
    some (leafRef path (accountRlp nonce balance codeHash (hashRam storage))).finalize
  | .mem _ root => some root

end

mutual

/-- The node with the caches that `hashRam` fills. -/
def fillRam : RamNode → RamNode
  | .empty => .empty
  | .extension path child none =>
    .extension path (fillRam child) (some (hashRam (.extension path child none)))
  | .extension path child (some h) => .extension path child (some h)
  | .branch children none =>
    .branch (fun i => fillSlot (children i)) (some (hashRam (.branch children none)))
  | .branch children (some h) => .branch children (some h)

def fillSlot : RamSlot → RamSlot
  | .none => .none
  | .ram node => .ram (fillRam node)
  | .disk ptr root => .disk ptr root
  | .account path nonce balance codeHash storage =>
    .account path nonce balance codeHash (fillRam storage)
  | .mem bytes root => .mem bytes root

end

/-! ## Frontier -/

mutual

/-- `get_value` from a depth on. -/
def ramGet : RamNode → List Nibble → Nat → Act (Option Bytes)
  | .empty, _, _ => Act.ok none
  | .extension path child _, nibbles, depth =>
    if path.isPrefixOf (nibbles.drop depth) then ramGet child nibbles (depth + path.length)
    else Act.ok none
  | .branch children _, nibbles, depth =>
    match nibbles[depth]? with
    | none => Act.fail .panic
    | some idx => slotGet (children idx) nibbles depth

def slotGet : RamSlot → List Nibble → Nat → Act (Option Bytes)
  | .none, _, _ => Act.ok none
  | .ram child, nibbles, depth => ramGet child nibbles (depth + 1)
  | .disk ptr _, nibbles, _ =>
    attempt (readLazy ptr) .error fun sub =>
    Act.ok (nodeGet sub.node (nibbles.drop (localDepth sub.pfx)))
  | .mem bytes _, nibbles, _ =>
    attempt (.pure (deserializeSubtree bytes)) .error fun sub =>
    Act.ok (nodeGet sub.node (nibbles.drop (localDepth sub.pfx)))
  | .account path nonce balance codeHash storage, nibbles, depth =>
    Act.ok (if nibbles.drop (depth + 1) = path then
      some (accountRlp nonce balance codeHash (hashRam storage)) else none)

end

mutual

/-- `get_storage` from a depth on. -/
def ramGetStorage : RamNode → List Nibble → Nat → Key → Act (Option Bytes)
  | .empty, _, _, _ => Act.ok none
  | .extension path child _, nibbles, depth, slot =>
    if path.isPrefixOf (nibbles.drop depth) then
      ramGetStorage child nibbles (depth + path.length) slot
    else Act.ok none
  | .branch children _, nibbles, depth, slot =>
    match nibbles[depth]? with
    | none => Act.fail .panic
    | some idx => slotGetStorage (children idx) nibbles depth slot

def slotGetStorage : RamSlot → List Nibble → Nat → Key → Act (Option Bytes)
  | .none, _, _, _ => Act.ok none
  | .ram child, nibbles, depth, slot => ramGetStorage child nibbles (depth + 1) slot
  | .disk ptr _, nibbles, _, slot =>
    attempt (readLazy ptr) .error fun sub =>
    Act.ok (nodeGetStorage sub.node (nibbles.drop (localDepth sub.pfx)) slot)
  | .mem bytes _, nibbles, _, slot =>
    attempt (.pure (deserializeSubtree bytes)) .error fun sub =>
    Act.ok (nodeGetStorage sub.node (nibbles.drop (localDepth sub.pfx)) slot)
  | .account path _ _ _ storage, nibbles, depth, slot =>
    if nibbles.drop (depth + 1) = path then ramGet storage (keyNibbles slot) 0 else Act.ok none

end

/-- The slots of the records, each at its stored prefix, in order. -/
def collectRecords : List (Act DiskSubtree) → Act (List (Key × Bytes))
  | [] => Act.ok []
  | read :: rest =>
    attempt read .error fun sub =>
    attempt (.pure (collectStorageSubtree sub.node sub.pfx)) .error fun slots =>
    attempt (collectRecords rest) .error fun more => Act.ok (slots ++ more)

mutual

/-- How to read each record of a storage frontier, in slot order. -/
def storageRecords : RamNode → List (Act DiskSubtree)
  | .empty => []
  | .extension _ child _ => storageRecords child
  | .branch children _ => (List.finRange 16).flatMap fun i => slotRecords (children i)

def slotRecords : RamSlot → List (Act DiskSubtree)
  | .none => []
  | .ram sub => storageRecords sub
  | .disk ptr _ => [readLazy ptr]
  | .mem bytes _ => [.pure (deserializeSubtree bytes)]
  | .account .. => [Act.fail .panic]

end

/-- Every slot of a promoted account's storage frontier. -/
def ramCollectStorage (node : RamNode) : Act (List (Key × Bytes)) :=
  collectRecords (storageRecords node)

end

end FlatMpt
