import FlatMpt.Reads

/-!
# Ordered leaf cursors

`seek` descends from the root to the smallest leaf that is not below the target, and
`next` seeks the successor of the last key.  A cursor keeps the record parsed last.  A
debug build checks the depth of a record reached from the frontier and the length of a
leaf's path.  `scan` walks the whole trie.

    nodeSeek, ramSeek             -- the walks in a record and through the frontier
    AccountCursor, StorageCursor
    scan
-/

namespace FlatMpt

/-! ## Keys -/

/-- Add one to the bytes, the last one first, with the carry out of the first. -/
def incBytes : Bytes → Bytes × Bool
  | [] => ([], true)
  | b :: bs =>
    if (incBytes bs).2 then ((b + 1) :: (incBytes bs).1, b == 255)
    else (b :: (incBytes bs).1, false)

theorem incBytes_length (bs : Bytes) : (incBytes bs).1.length = bs.length := by
  induction bs with
  | nil => rfl
  | cons b bs ih =>
    unfold incBytes
    split
    · rw [List.length_cons, List.length_cons, ih]
    · rw [List.length_cons, List.length_cons, ih]

/-- The next key; none after the last. -/
def keySuccessor (key : Key) : Option Key :=
  if (incBytes key.bytes).2 then none
  else some ⟨(incBytes key.bytes).1, (incBytes_length key.bytes).trans key.size⟩

/-- A leaf's path as its key. -/
def leafKey (debug : Bool) (nibbles : List Nibble) : Except Err Key :=
  if debug && nibbles.length != 64 then .error .panic
  else (nibblesToKey nibbles).elim (.error .panic) .ok

/-! ## Positions and the target -/

/-- Where the leaves below a position lie. -/
inductive Rel
  | onPath
  | allGreater
  | allLess
deriving DecidableEq

def rel (pfx target : List Nibble) : Rel :=
  let n := min pfx.length target.length
  match compare (pfx.take n) (target.take n) with
  | .lt => .allLess
  | .gt => .allGreater
  | .eq => .onPath

/-- `path[..] >= target[..]`. -/
def notBelow (target path : List Nibble) : Bool := (compare path target).isGE

/-- Whether a leaf is taken. -/
def takes (minMode : Bool) (target full : List Nibble) : Bool := minMode || notBelow target full

/-- The mode below an extension that ends at `full`; none where all leaves are less. -/
def extensionMode (minMode : Bool) (target full : List Nibble) : Option Bool :=
  if minMode then some true
  else
    match rel full target with
    | .allLess => none
    | .allGreater => some true
    | .onPath => some false

/-- The first child of a branch at `pfx` to look at. -/
def branchStart (minMode : Bool) (target pfx : List Nibble) : Nibble :=
  if minMode then 0 else target.getD pfx.length 0

/-- The children to look at, in order. -/
def branchRange (minMode : Bool) (target pfx : List Nibble) : List Nibble :=
  (List.finRange 16).drop (branchStart minMode target pfx)

/-- The mode below a child of a branch at `pfx`. -/
def branchMode (minMode : Bool) (target pfx : List Nibble) (i : Nibble) : Bool :=
  minMode || branchStart minMode target pfx < i || target.length ≤ pfx.length

/-! ## Leaves -/

/-- What a seek finds at a leaf position. -/
inductive LeafOut
  | account (nonce : UInt64) (balance : U256) (codeHash storageRoot : Hash)
  | value (v : Bytes)

/-- A leaf found, with its path. -/
abbrev Hit := List Nibble × LeafOut

mutual

/-- The smallest leaf that is not below `target`, in a record node at `pfx`; in minimum
mode the smallest of all. -/
def nodeSeek : Node → List Nibble → List Nibble → Bool → Option Hit
  | .empty, _, _, _ => none
  | .leaf path value _, pfx, target, minMode =>
    if minMode || (notBelow (target.take (min (pfx ++ path).length target.length)) (pfx ++ path) &&
        rel (pfx ++ path) target != .allLess) then
      if takes minMode target (pfx ++ path) then some (pfx ++ path, .value value) else none
    else none
  | .account path nonce balance codeHash _ storageRoot _, pfx, target, minMode =>
    if takes minMode target (pfx ++ path) then
      some (pfx ++ path, .account nonce balance codeHash storageRoot)
    else none
  | .extension path child _, pfx, target, minMode =>
    (extensionMode minMode target (pfx ++ path)).bind fun m =>
      nodeSeek child (pfx ++ path) target m
  | .branch children _, pfx, target, minMode =>
    (branchRange minMode target pfx).findSome? fun i =>
      nodeSeekSlot (children i) (pfx ++ [i]) target (branchMode minMode target pfx i)

def nodeSeekSlot : Option Node → List Nibble → List Nibble → Bool → Option Hit
  | none, _, _, _ => none
  | some child, pfx, target, minMode => nodeSeek child pfx target minMode

end

/-! ## The frontier -/

/-- The record parsed last, with its unit. -/
abbrev RecordMemo := Option (Nat × DiskSubtree)

section
variable [Keccak]

def RecordMemo.fetch (memo : RecordMemo) (ptr : DiskPtr) : Upd RecordMemo DiskSubtree :=
  attempt (readLazy ptr) (fun e => (memo, .error e)) fun sub =>
  .pure (some (ptr.unit, sub), .ok sub)

def RecordMemo.read (memo : RecordMemo) (ptr : DiskPtr) : Upd RecordMemo DiskSubtree :=
  match memo with
  | none => memo.fetch ptr
  | some (unit, sub) =>
    if unit = ptr.unit then .pure (memo, .ok sub) else memo.fetch ptr

/-- The first hit among the children. -/
def seekFirst {β : Type} (seek : Nibble → RecordMemo → Upd RecordMemo (Option β)) :
    List Nibble → RecordMemo → Upd RecordMemo (Option β)
  | [], memo => .pure (memo, .ok none)
  | i :: rest, memo =>
    thenUpd (seek i memo) fun memo r =>
      match r with
      | .ok none => seekFirst seek rest memo
      | r => .pure (memo, r)

mutual

def ramSeek (debug : Bool) : RamNode → List Nibble → List Nibble → Bool → RecordMemo →
    Upd RecordMemo (Option Hit)
  | .empty, _, _, _, memo => .pure (memo, .ok none)
  | .extension path child _, pfx, target, minMode, memo =>
    match extensionMode minMode target (pfx ++ path) with
    | none => .pure (memo, .ok none)
    | some m => ramSeek debug child (pfx ++ path) target m memo
  | .branch children _, pfx, target, minMode, memo =>
    seekFirst (fun i => ramChildSeek debug (children i) (pfx ++ [i]) target
      (branchMode minMode target pfx i)) (branchRange minMode target pfx) memo

def ramChildSeek (debug : Bool) : RamSlot → List Nibble → List Nibble → Bool → RecordMemo →
    Upd RecordMemo (Option Hit)
  | .none, _, _, _, memo => .pure (memo, .ok none)
  | .ram sub, pfx, target, minMode, memo => ramSeek debug sub pfx target minMode memo
  | .disk ptr _, pfx, target, minMode, memo =>
    thenUpd (memo.read ptr) fun memo r =>
      match r with
      | .error e => .pure (memo, .error e)
      | .ok sub =>
        if debug && sub.pfx.length != pfx.length then .pure (memo, .error .panic)
        else .pure (memo, .ok (nodeSeek sub.node pfx target minMode))
  | .mem bytes _, pfx, target, minMode, memo =>
    .pure (memo, (deserializeSubtree bytes).map fun sub => nodeSeek sub.node pfx target minMode)
  | .account path nonce balance codeHash storage, pfx, target, minMode, memo =>
    .pure (memo, .ok (if takes minMode target (pfx ++ path) then
      some (pfx ++ path, .account nonce balance codeHash (hashRam storage)) else none))

end

/-! ## Accounts -/

structure AccountEntry where
  key : Key
  nonce : UInt64
  balance : U256
  codeHash : Hash
  storageRoot : Hash
deriving DecidableEq

/-- The entry of a leaf; a plain value is decoded as an account's RLP. -/
def accountEntry (key : Key) : LeafOut → Except Err AccountEntry
  | .account nonce balance codeHash storageRoot => .ok ⟨key, nonce, balance, codeHash, storageRoot⟩
  | .value v =>
    match Eth.Account.decode v with
    | some a => .ok ⟨key, a.nonce, a.balance, a.codeHash, a.storageRoot⟩
    | none => .error .accountLeafRlp

structure AccountCursor where
  upper : RamNode
  memo : RecordMemo
  last : Option Key

/-- A cursor over a frontier. -/
def accountCursor (upper : RamNode) : AccountCursor := ⟨upper, none, none⟩

/-- What a cursor makes of a hit. -/
def AccountCursor.found (debug : Bool) (c : AccountCursor) :
    Except Err (Option Hit) → AccountCursor × Except Err (Option AccountEntry)
  | .error e => (c, .error e)
  | .ok none => ({ c with last := none }, .ok none)
  | .ok (some (nibbles, out)) =>
    match leafKey debug nibbles with
    | .error e => (c, .error e)
    | .ok key => ({ c with last := some key }, (accountEntry key out).map some)

def AccountCursor.seek (debug : Bool) (c : AccountCursor) (key : Key) :
    Upd AccountCursor (Option AccountEntry) :=
  thenUpd (ramSeek debug c.upper [] (keyNibbles key) false c.memo) fun memo r =>
    .pure ({ c with memo := memo }.found debug r)

def AccountCursor.next (debug : Bool) (c : AccountCursor) :
    Upd AccountCursor (Option AccountEntry) :=
  match c.last with
  | none => .pure (c, .ok none)
  | some last =>
    match keySuccessor last with
    | none => .pure ({ c with last := none }, .ok none)
    | some succ => c.seek debug succ

/-! ## Storage -/

/-- An account's storage subtree, in its record or promoted. -/
inductive StorageRef
  | node (node : Node)
  | ram (node : RamNode)

mutual

/-- The storage of the account at the key's remaining nibbles. -/
def recordAccountStorage : Node → List Nibble → Option StorageRef
  | .empty, _ => none
  | .leaf .., _ => none
  | .account path _ _ _ storage _ _, rest => if rest = path then some (.node storage) else none
  | .extension path child _, rest =>
    if path.isPrefixOf rest then recordAccountStorage child (rest.drop path.length) else none
  | .branch children _, rest =>
    match rest with
    | [] => none
    | idx :: rest => recordAccountStorageSlot (children idx) rest

def recordAccountStorageSlot : Option Node → List Nibble → Option StorageRef
  | none, _ => none
  | some child, rest => recordAccountStorage child rest

end

mutual

/-- The storage of an account, from a depth on; none if there is no such account. -/
def withAccountStorage : RamNode → List Nibble → Nat → Act (Option StorageRef)
  | .empty, _, _ => Act.ok none
  | .extension path child _, nibbles, depth =>
    if path.isPrefixOf (nibbles.drop depth) then
      withAccountStorage child nibbles (depth + path.length)
    else Act.ok none
  | .branch children _, nibbles, depth =>
    match nibbles[depth]? with
    | none => Act.fail .panic
    | some idx => slotAccountStorage (children idx) nibbles depth

def slotAccountStorage : RamSlot → List Nibble → Nat → Act (Option StorageRef)
  | .none, _, _ => Act.ok none
  | .ram sub, nibbles, depth => withAccountStorage sub nibbles (depth + 1)
  | .account path _ _ _ storage, nibbles, depth =>
    Act.ok (if nibbles.drop (depth + 1) = path then some (.ram storage) else none)
  | .disk ptr _, nibbles, _ =>
    attempt (readLazy ptr) .error fun sub =>
    Act.ok (recordAccountStorage sub.node (nibbles.drop sub.pfx.length))
  | .mem bytes _, nibbles, _ =>
    attempt (.pure (deserializeSubtree bytes)) .error fun sub =>
    Act.ok (recordAccountStorage sub.node (nibbles.drop sub.pfx.length))

end

structure StorageCursor where
  upper : RamNode
  memo : RecordMemo
  accountKey : Key
  last : Option Key

def storageCursor (upper : RamNode) (accountKey : Key) : StorageCursor := ⟨upper, none, accountKey, none⟩

def StorageCursor.found (debug : Bool) (c : StorageCursor) :
    Except Err (Option Hit) → StorageCursor × Except Err (Option (Key × Bytes))
  | .error e => (c, .error e)
  | .ok none => ({ c with last := none }, .ok none)
  | .ok (some (_, .account ..)) => (c, .error .accountInStorage)
  | .ok (some (nibbles, .value v)) =>
    match leafKey debug nibbles with
    | .error e => (c, .error e)
    | .ok key => ({ c with last := some key }, .ok (some (key, v)))

/-- The seek in an account's storage. -/
def StorageRef.seek (debug : Bool) (target : List Nibble) (memo : RecordMemo) :
    Option StorageRef → Upd RecordMemo (Option Hit)
  | none => .pure (memo, .ok none)
  | some (.node n) => .pure (memo, .ok (nodeSeek n [] target false))
  | some (.ram n) => ramSeek debug n [] target false memo

def StorageCursor.seek (debug : Bool) (c : StorageCursor) (slot : Key) :
    Upd StorageCursor (Option (Key × Bytes)) :=
  attempt (withAccountStorage c.upper (keyNibbles c.accountKey) 0) (fun e => (c, .error e)) fun ref =>
  thenUpd (StorageRef.seek debug (keyNibbles slot) c.memo ref) fun memo r =>
    .pure ({ c with memo := memo }.found debug r)

def StorageCursor.next (debug : Bool) (c : StorageCursor) :
    Upd StorageCursor (Option (Key × Bytes)) :=
  match c.last with
  | none => .pure (c, .ok none)
  | some last =>
    match keySuccessor last with
    | none => .pure ({ c with last := none }, .ok none)
    | some succ => c.seek debug succ

/-! ## Scans -/

inductive ScanEntry
  | account (key : Key) (nonce : UInt64) (balance : U256) (codeHash : Hash)
  | opaqueValue (key : Key) (value : Bytes)
  | slot (account slot : Key) (value : Bytes)

/-- The entries emitted, and how the walk ended. -/
abbrev Emitted := List ScanEntry × Except Err Unit

/-- One walk after the other; an error ends both. -/
def Emitted.andThen (a b : Emitted) : Emitted :=
  match a.2 with
  | .ok _ => (a.1 ++ b.1, b.2)
  | .error e => (a.1, .error e)

/-- A leaf's path as its key, with its length checked. -/
def nibblesToKeyChecked (nibbles : List Nibble) : Except Err Key :=
  if nibbles.length != 64 then .error (.leafPathLength nibbles.length)
  else (nibblesToKey nibbles).elim (.error .panic) .ok

/-- Emit what depends on a leaf's key. -/
def emitAt (nibbles : List Nibble) (emit : Key → Emitted) : Emitted :=
  match nibblesToKeyChecked nibbles with
  | .error e => ([], .error e)
  | .ok key => emit key

/-- A value leaf: a slot of the account in `ctx`, or an opaque leaf of the state trie. -/
def valueEntry (ctx : Option Key) (key : Key) (value : Bytes) : ScanEntry :=
  match ctx with
  | some account => .slot account key value
  | none => .opaqueValue key value

mutual

def scanRecordNode : Node → List Nibble → Option Key → Emitted
  | .empty, _, _ => ([], .ok ())
  | .leaf lpath value _, path, ctx =>
    emitAt (path ++ lpath) fun key => ([valueEntry ctx key value], .ok ())
  | .account lpath nonce balance codeHash storage _ _, path, _ =>
    emitAt (path ++ lpath) fun key =>
      Emitted.andThen ([.account key nonce balance codeHash], .ok ())
        (scanRecordNode storage [] (some key))
  | .extension epath child _, path, ctx => scanRecordNode child (path ++ epath) ctx
  | .branch children _, path, ctx =>
    ((List.finRange 16).map fun i => scanRecordSlot (children i) (path ++ [i]) ctx).foldr
      Emitted.andThen ([], .ok ())

def scanRecordSlot : Option Node → List Nibble → Option Key → Emitted
  | none, _, _ => ([], .ok ())
  | some child, path, ctx => scanRecordNode child path ctx

end

/-- The part of a record's prefix in its own trie. -/
def scanStart (pfx : List Nibble) : List Nibble := pfx.drop (pfx.length - localDepth pfx)

/-- Walk the children in slot order. -/
def scanAll (walk : Nibble → Prog Resp Emitted) : List Nibble → Prog Resp Emitted
  | [] => .pure ([], .ok ())
  | i :: rest =>
    (walk i).bind fun out =>
      match out.2 with
      | .error e => .pure (out.1, .error e)
      | .ok _ => (scanAll walk rest).bind fun more => .pure (out.andThen more)

mutual

def scanRamNode : RamNode → List Nibble → Option Key → Prog Resp Emitted
  | .empty, _, _ => .pure ([], .ok ())
  | .extension path child _, pfx, ctx => scanRamNode child (pfx ++ path) ctx
  | .branch children _, pfx, ctx =>
    scanAll (fun i => scanRamChild (children i) (pfx ++ [i]) ctx) (List.finRange 16)

def scanRamChild : RamSlot → List Nibble → Option Key → Prog Resp Emitted
  | .none, _, _ => .pure ([], .ok ())
  | .ram node, pfx, ctx => scanRamNode node pfx ctx
  | .mem bytes _, _, ctx =>
    attempt (.pure (deserializeSubtree bytes)) (fun e => ([], .error e)) fun sub =>
    .pure (scanRecordNode sub.node (scanStart sub.pfx) ctx)
  | .disk ptr _, _, ctx =>
    attempt (readLazy ptr) (fun e => ([], .error e)) fun sub =>
    .pure (scanRecordNode sub.node (scanStart sub.pfx) ctx)
  | .account path nonce balance codeHash storage, pfx, _ =>
    match nibblesToKeyChecked (pfx ++ path) with
    | .error e => .pure ([], .error e)
    | .ok key =>
      (scanRamNode storage [] (some key)).bind fun out =>
      .pure (Emitted.andThen ([.account key nonce balance codeHash], .ok ()) out)

end

/-- Every account and slot, in key order. -/
def scan (upper : RamNode) : Prog Resp Emitted := scanRamNode upper [] none

end

end FlatMpt
