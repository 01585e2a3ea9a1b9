import FlatMpt.Cursor

/-!
# Branch cursors

A trie cursor surfaces the branches of the account trie or of one account's storage, a
branch before those below it, each with its path and what its children are: which are
there, which have a branch below them, and which are referred to by a hash.

    classifyNode, classifyRamChild   -- what a child of a branch is
    nodeBranchSeek, ramBranchSeek
    TrieNodeCursor, StorageTrieNodeCursor
-/

namespace FlatMpt

/-! ## Entries -/

structure TrieNodeEntry where
  path : List Nibble
  /-- Children present. -/
  stateMask : Nat
  /-- Children with a branch below. -/
  treeMask : Nat
  /-- Children whose hashes are listed. -/
  hashMask : Nat
  hashes : List Hash
deriving DecidableEq

structure ChildInfo where
  hash : Option Hash
  hasBranchBelow : Bool

/-- The hash of a reference; none where the child is embedded. -/
def NodeRef.hash? : NodeRef → Option Hash
  | .hash h => some h
  | .inline _ => none

/-- Note the child at a slot. -/
def TrieNodeEntry.add (e : TrieNodeEntry) (i : Nibble) (info : ChildInfo) : TrieNodeEntry :=
  { e with
    stateMask := e.stateMask ||| 1 <<< i.val
    treeMask := if info.hasBranchBelow then e.treeMask ||| 1 <<< i.val else e.treeMask
    hashMask := if info.hash.isSome then e.hashMask ||| 1 <<< i.val else e.hashMask
    hashes := e.hashes ++ info.hash.toList }

def TrieNodeEntry.addChild (e : TrieNodeEntry) (i : Nibble) : Option ChildInfo → TrieNodeEntry
  | none => e
  | some info => e.add i info

/-- The entry of a branch whose children are all known. -/
def entryOf (path : List Nibble) (infos : Nibble → Option ChildInfo) : TrieNodeEntry :=
  (List.finRange 16).foldl (fun e i => e.addChild i (infos i)) ⟨path, 0, 0, 0, []⟩

/-! ## Records -/

def classifyNode : Node → ChildInfo
  | .empty => ⟨none, false⟩
  | .leaf _ _ nref => ⟨nref.hash?, false⟩
  | .account _ _ _ _ _ _ nref => ⟨nref.hash?, false⟩
  | .extension _ child nref => ⟨nref.hash?, (classifyNode child).hasBranchBelow || child.isBranch⟩
  | .branch _ nref => ⟨nref.hash?, true⟩

/-- `path >= target`, a position before those below it. -/
def lexGe (path target : List Nibble) : Bool :=
  let n := min path.length target.length
  match compare (path.take n) (target.take n) with
  | .gt => true
  | .lt => false
  | .eq => target.length ≤ path.length

/-- Everything at or below `pfx` comes before the target. -/
def prefixRangeAllLess (pfx target : List Nibble) : Bool :=
  let n := min pfx.length target.length
  match compare (pfx.take n) (target.take n) with
  | .lt => true
  | .gt => false
  | .eq => false

mutual

/-- The first branch of a record node at `pfx` that is not before the target. -/
def nodeBranchSeek : Node → List Nibble → List Nibble → Option TrieNodeEntry
  | .empty, _, _ => none
  | .leaf .., _, _ => none
  | .account .., _, _ => none
  | .extension path child _, pfx, target =>
    if prefixRangeAllLess (pfx ++ path) target then none else nodeBranchSeek child (pfx ++ path) target
  | .branch children _, pfx, target =>
    if lexGe pfx target then some (entryOf pfx fun i => (children i).map classifyNode)
    else (List.finRange 16).findSome? fun i => nodeBranchSeekSlot (children i) (pfx ++ [i]) target

def nodeBranchSeekSlot : Option Node → List Nibble → List Nibble → Option TrieNodeEntry
  | none, _, _ => none
  | some child, pfx, target =>
    if prefixRangeAllLess pfx target then none else nodeBranchSeek child pfx target

end

/-! ## The frontier -/

section
variable [Keccak]

/-- The info of a record whose root hash is known. -/
def classifyRecord (root : Hash) (sub : DiskSubtree) : ChildInfo :=
  ⟨some root, (classifyNode sub.node).hasBranchBelow || sub.node.isBranch⟩

def RamNode.isInner : RamNode → Bool
  | .branch .. => true
  | .extension .. => true
  | .empty => false

/-- What a child of a frontier branch is; none for an empty slot. -/
def classifyRamChild : RamSlot → RecordMemo → Upd RecordMemo (Option ChildInfo)
  | .none, memo => .pure (memo, .ok none)
  | .ram sub, memo => .pure (memo, .ok (some ⟨some (hashRam sub), sub.isInner⟩))
  | .disk ptr root, memo =>
    thenUpd (memo.read ptr) fun memo r => .pure (memo, r.map fun sub => some (classifyRecord root sub))
  | .mem bytes root, memo =>
    .pure (memo, (deserializeSubtree bytes).map fun sub => some (classifyRecord root sub))
  | .account .., memo => .pure (memo, .ok (some ⟨none, false⟩))

/-- Note the children of a branch one after the other. -/
def buildBranchEntry (child : Nibble → RecordMemo → Upd RecordMemo (Option ChildInfo)) :
    List Nibble → TrieNodeEntry → RecordMemo → Upd RecordMemo (Option TrieNodeEntry)
  | [], e, memo => .pure (memo, .ok (some e))
  | i :: rest, e, memo =>
    thenUpd (child i memo) fun memo r =>
      match r with
      | .error er => .pure (memo, .error er)
      | .ok info => buildBranchEntry child rest (e.addChild i info) memo

mutual

/-- The first branch of a frontier at `pfx` that is not before the target. -/
def ramBranchSeek : RamNode → List Nibble → List Nibble → RecordMemo →
    Upd RecordMemo (Option TrieNodeEntry)
  | .empty, _, _, memo => .pure (memo, .ok none)
  | .extension path child _, pfx, target, memo =>
    if prefixRangeAllLess (pfx ++ path) target then .pure (memo, .ok none)
    else ramBranchSeek child (pfx ++ path) target memo
  | .branch children _, pfx, target, memo =>
    if lexGe pfx target then
      buildBranchEntry (fun i => classifyRamChild (children i)) (List.finRange 16) ⟨pfx, 0, 0, 0, []⟩ memo
    else seekFirst (fun i => ramChildBranchSeek (children i) (pfx ++ [i]) target) (List.finRange 16) memo

def ramChildBranchSeek : RamSlot → List Nibble → List Nibble → RecordMemo →
    Upd RecordMemo (Option TrieNodeEntry)
  | .none, _, _, memo => .pure (memo, .ok none)
  | .ram sub, pfx, target, memo =>
    if prefixRangeAllLess pfx target then .pure (memo, .ok none) else ramBranchSeek sub pfx target memo
  | .disk ptr _, pfx, target, memo =>
    if prefixRangeAllLess pfx target then .pure (memo, .ok none)
    else thenUpd (memo.read ptr) fun memo r =>
      .pure (memo, r.map fun sub => nodeBranchSeek sub.node pfx target)
  | .mem bytes _, pfx, target, memo =>
    if prefixRangeAllLess pfx target then .pure (memo, .ok none)
    else .pure (memo, (deserializeSubtree bytes).map fun sub => nodeBranchSeek sub.node pfx target)
  | .account .., _, _, memo => .pure (memo, .ok none)

end

/-! ## Cursors -/

structure TrieNodeCursor where
  upper : RamNode
  memo : RecordMemo
  last : Option (List Nibble)

def trieNodeCursor (upper : RamNode) : TrieNodeCursor := ⟨upper, none, none⟩

/-- The root's own position is never sought. -/
def trieTarget (path : List Nibble) : List Nibble := if path.isEmpty then [0] else path

def TrieNodeCursor.found (c : TrieNodeCursor) :
    Except Err (Option TrieNodeEntry) → TrieNodeCursor × Except Err (Option TrieNodeEntry)
  | .error e => (c, .error e)
  | .ok out => ({ c with last := out.map TrieNodeEntry.path }, .ok out)

def TrieNodeCursor.seek (c : TrieNodeCursor) (path : List Nibble) :
    Upd TrieNodeCursor (Option TrieNodeEntry) :=
  thenUpd (ramBranchSeek c.upper [] (trieTarget path) c.memo) fun memo r =>
    .pure ({ c with memo := memo }.found r)

def TrieNodeCursor.next (c : TrieNodeCursor) : Upd TrieNodeCursor (Option TrieNodeEntry) :=
  match c.last with
  | none => .pure (c, .ok none)
  | some last => c.seek (last ++ [0])

structure StorageTrieNodeCursor where
  upper : RamNode
  memo : RecordMemo
  accountKey : Key
  last : Option (List Nibble)

def storageTrieNodeCursor (upper : RamNode) (accountKey : Key) : StorageTrieNodeCursor :=
  ⟨upper, none, accountKey, none⟩

def StorageTrieNodeCursor.found (c : StorageTrieNodeCursor) :
    Except Err (Option TrieNodeEntry) → StorageTrieNodeCursor × Except Err (Option TrieNodeEntry)
  | .error e => (c, .error e)
  | .ok out => ({ c with last := out.map TrieNodeEntry.path }, .ok out)

/-- The seek in an account's storage. -/
def StorageRef.branchSeek (target : List Nibble) (memo : RecordMemo) :
    Option StorageRef → Upd RecordMemo (Option TrieNodeEntry)
  | none => .pure (memo, .ok none)
  | some (.node n) => .pure (memo, .ok (nodeBranchSeek n [] target))
  | some (.ram n) => ramBranchSeek n [] target memo

def StorageTrieNodeCursor.seek (c : StorageTrieNodeCursor) (path : List Nibble) :
    Upd StorageTrieNodeCursor (Option TrieNodeEntry) :=
  attempt (withAccountStorage c.upper (keyNibbles c.accountKey) 0) (fun e => (c, .error e)) fun ref =>
  thenUpd (StorageRef.branchSeek (trieTarget path) c.memo ref) fun memo r =>
    .pure ({ c with memo := memo }.found r)

def StorageTrieNodeCursor.next (c : StorageTrieNodeCursor) :
    Upd StorageTrieNodeCursor (Option TrieNodeEntry) :=
  match c.last with
  | none => .pure (c, .ok none)
  | some last => c.seek (last ++ [0])

end

end FlatMpt
