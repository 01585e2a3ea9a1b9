import FlatMpt.TrieCursor

/-!
# Revealed paths

For each target key the walk copies out the nodes from the root to the key's leaf, or to
the node that shows that it is absent, with the references of all their children.  Targets
share what their paths have in common: a position is emitted once.

    Emitter             -- what is emitted so far
    walkNode, walkRam   -- one target in a record and through the frontier
    revealAccountPaths, revealStoragePaths
    getValueReveal      -- a read whose walk is revealed
-/

namespace FlatMpt

/-! ## Nodes -/

/-- A child reference copied out of the store. -/
inductive RevealRef
  | hash (h : Hash)
  | inline (rlp : Bytes)
deriving DecidableEq

/-- One node on a revealed path. -/
inductive RevealNode
  | branch (path : List Nibble) (children : Nibble → Option RevealRef) (treeMask hashMask : Nat)
  | extension (path key : List Nibble) (child : RevealRef)
  | leaf (path key : List Nibble) (value : Bytes)
  | emptyRoot

def RevealNode.position : RevealNode → List Nibble
  | .branch path _ _ _ => path
  | .extension path _ _ => path
  | .leaf path _ _ => path
  | .emptyRoot => []

/-- A failure of the store, or an empty child of a record node. -/
inductive RevealErr
  | store (e : Err)
  | emptyChild

def RevealErr.text : RevealErr → String
  | .store e => e.text
  | .emptyChild => "empty child has no ref"

/-- Positions are emitted once. -/
structure Emitter where
  memo : RecordMemo
  out : List RevealNode
  seen : List (List Nibble)

def Emitter.hasSeen (e : Emitter) (path : List Nibble) : Bool := e.seen.any fun p => p = path

def Emitter.emit (e : Emitter) (x : RevealNode) : Emitter :=
  if e.hasSeen x.position then e
  else { e with out := e.out ++ [x], seen := x.position :: e.seen }

/-! ## Records -/

def NodeRef.reveal : NodeRef → RevealRef
  | .hash h => .hash h
  | .inline b => .inline b

def nodeChildRef : Node → Except RevealErr RevealRef
  | .empty => .error .emptyChild
  | .leaf _ _ nref => .ok nref.reveal
  | .account _ _ _ _ _ _ nref => .ok nref.reveal
  | .extension _ _ nref => .ok nref.reveal
  | .branch _ nref => .ok nref.reveal

/-- Whether the child has a branch below it, and whether it is referred to by a hash. -/
def nodeChildMasks : Node → Bool × Bool
  | .empty => (false, false)
  | .leaf _ _ nref => (false, nref.hash?.isSome)
  | .account _ _ _ _ _ _ nref => (false, nref.hash?.isSome)
  | .extension _ child nref => ((nodeChildMasks child).1 || child.isBranch, nref.hash?.isSome)
  | .branch _ nref => (true, nref.hash?.isSome)

/-- The references of the children, none for an absent one. -/
def nodeChildRefs (children : Nibble → Option Node) :
    List Nibble → Except RevealErr (Nibble → Option RevealRef)
  | [] => .ok fun _ => none
  | i :: rest =>
    match children i with
    | none => nodeChildRefs children rest
    | some c => do
      let r ← nodeChildRef c
      let refs ← nodeChildRefs children rest
      return fun j => if j = i then some r else refs j

def Emitter.emitNodeBranch (e : Emitter) (path : List Nibble) (children : Nibble → Option Node) :
    Except RevealErr Emitter :=
  if e.hasSeen path then .ok e
  else do
    let refs ← nodeChildRefs children (List.finRange 16)
    return e.emit (.branch path refs
      (bitmap fun i => (children i).any fun c => (nodeChildMasks c).1)
      (bitmap fun i => (children i).any fun c => (nodeChildMasks c).2))

section
variable [Keccak]

mutual

/-- Walk one target through a record's nodes.  Where it parts from an extension, the child is
emitted alone. -/
def walkNode : Node → List Nibble → List Nibble → Emitter → Except RevealErr Emitter
  | .empty, _, _, e => .ok e
  | .leaf path value _, pfx, _, e => .ok (e.emit (.leaf pfx path value))
  | .account path nonce balance codeHash _ storageRoot _, pfx, _, e =>
    .ok (e.emit (.leaf pfx path (accountRlp nonce balance codeHash storageRoot)))
  | .extension path child _, pfx, target, e => do
    let r ← nodeChildRef child
    let e := e.emit (.extension pfx path r)
    if target.length < pfx.length then .error (.store .panic)
    else
      let target := if path.isPrefixOf (target.drop pfx.length) then target else []
      match target.isEmpty, child with
      | true, .branch children _ => e.emitNodeBranch (pfx ++ path) children
      | _, _ => walkNode child (pfx ++ path) target e
  | .branch children _, pfx, target, e => do
    let e ← e.emitNodeBranch pfx children
    match target.drop pfx.length with
    | [] => .ok e
    | i :: _ => walkNodeSlot (children i) (pfx ++ [i]) target e

def walkNodeSlot : Option Node → List Nibble → List Nibble → Emitter → Except RevealErr Emitter
  | none, _, _, e => .ok e
  | some child, pfx, target, e => walkNode child pfx target e

end

/-! ## The frontier -/

/-- As `nodeChildMasks`; a record counts as a branch, a promoted account is never hashed. -/
def ramChildMasks : RamSlot → Bool × Bool
  | .none => (false, false)
  | .ram sub => (sub.isInner, true)
  | .disk .. => (true, true)
  | .mem .. => (true, true)
  | .account .. => (false, false)

def Emitter.emitRamBranch (e : Emitter) (path : List Nibble) (children : Nibble → RamSlot) : Emitter :=
  e.emit (.branch path (fun i => (ramChildHash (children i)).map .hash)
    (bitmap fun i => (ramChildMasks (children i)).1) (bitmap fun i => (ramChildMasks (children i)).2))

/-- Emit the branch that a target parts from. -/
def walkRamStep : RamNode → List Nibble → Emitter → Emitter
  | .branch children _, pfx, e => e.emitRamBranch pfx children
  | _, _, e => e

mutual

/-- Walk one target through the frontier. -/
def walkRam : RamNode → List Nibble → List Nibble → Emitter → Prog Resp (Except RevealErr Emitter)
  | .empty, pfx, _, e => .pure (.ok (if pfx = [] then e.emit .emptyRoot else e))
  | .extension path child _, pfx, target, e =>
    let e := e.emit (.extension pfx path (.hash (hashRam child)))
    if target.length < pfx.length then .pure (.error (.store .panic))
    else if path.isPrefixOf (target.drop pfx.length) then walkRam child (pfx ++ path) target e
    else .pure (.ok (walkRamStep child (pfx ++ path) e))
  | .branch children _, pfx, target, e =>
    let e := e.emitRamBranch pfx children
    match target.drop pfx.length with
    | [] => .pure (.ok e)
    | i :: _ => walkRamChild (children i) (pfx ++ [i]) target e

def walkRamChild : RamSlot → List Nibble → List Nibble → Emitter → Prog Resp (Except RevealErr Emitter)
  | .none, _, _, e => .pure (.ok e)
  | .ram sub, pfx, target, e => walkRam sub pfx target e
  | .disk ptr _, pfx, target, e =>
    (e.memo.read ptr).bind fun r =>
      match r.2 with
      | .error er => .pure (.error (.store er))
      | .ok sub => .pure (walkNode sub.node pfx target { e with memo := r.1 })
  | .mem bytes _, pfx, target, e =>
    match deserializeSubtree bytes with
    | .error er => .pure (.error (.store er))
    | .ok sub => .pure (walkNode sub.node pfx target e)
  | .account path nonce balance codeHash storage, pfx, _, e =>
    .pure (.ok (e.emit (.leaf pfx path (accountRlp nonce balance codeHash (hashRam storage)))))

end

/-! ## Reveals -/

/-- Walk the targets one after the other. -/
def walkTargets (walk : List Nibble → Emitter → Prog Resp (Except RevealErr Emitter)) :
    List Key → Emitter → Prog Resp (Except RevealErr Emitter)
  | [], e => .pure (.ok e)
  | key :: rest, e =>
    (walk (keyNibbles key) e).bind fun r =>
      match r with
      | .error er => .pure (.error er)
      | .ok e => walkTargets walk rest e

def revealAccountPaths (upper : RamNode) (keys : List Key) :
    Prog Resp (Except RevealErr (List RevealNode)) :=
  (walkTargets (walkRam upper []) keys ⟨none, [], []⟩).bind fun r => .pure (r.map Emitter.out)

def StorageRef.walk : StorageRef → List Nibble → Emitter → Prog Resp (Except RevealErr Emitter)
  | .node n, target, e => .pure (walkNode n [] target e)
  | .ram n, target, e => walkRam n [] target e

/-- Where nothing is emitted, the trie is taken to be empty. -/
def StorageRef.reveal (ref : StorageRef) (slots : List Key) :
    Prog Resp (Except RevealErr (Option (List RevealNode))) :=
  (walkTargets ref.walk slots ⟨none, [], []⟩).bind fun r =>
    .pure (r.map fun e => some (if e.out.isEmpty then [.emptyRoot] else e.out))

/-- The paths of slots in an account's storage trie; none without the account. -/
def revealStoragePaths (upper : RamNode) (account : Key) (slots : List Key) :
    Prog Resp (Except RevealErr (Option (List RevealNode))) :=
  (withAccountStorage upper (keyNibbles account) 0).bind fun r =>
    match r with
    | .error er => .pure (.error (.store er))
    | .ok none => .pure (.ok none)
    | .ok (some ref) => ref.reveal slots

/-- The value of a leaf that spans the target. -/
def RevealNode.valueAt (target : List Nibble) : RevealNode → Option Bytes
  | .leaf path rest value =>
    if path.length + rest.length = target.length ∧ target.take path.length = path ∧
      target.drop path.length = rest then some value else none
  | _ => none

def extractExact (nodes : List RevealNode) (key : Key) : Option Bytes :=
  nodes.findSome? (RevealNode.valueAt (keyNibbles key))

/-- `get_value`, with the nodes that the walk visits. -/
def getValueReveal (upper : RamNode) (key : Key) :
    Prog Resp (Except RevealErr (Option Bytes × List RevealNode)) :=
  (revealAccountPaths upper [key]).bind fun r => .pure (r.map fun nodes => (extractExact nodes key, nodes))

/-- `get_storage`, with the nodes that the walk visits; without the account, the plain read. -/
def getStorageReveal (upper : RamNode) (account slot : Key) :
    Prog Resp (Except RevealErr (Option Bytes × Option (List RevealNode))) :=
  (revealStoragePaths upper account [slot]).bind fun r =>
    match r with
    | .error er => .pure (.error er)
    | .ok (some nodes) => .pure (.ok (extractExact nodes slot, some nodes))
    | .ok none =>
      (ramGetStorage upper (keyNibbles account) 0 slot).bind fun r =>
        match r with
        | .error er => .pure (.error (.store er))
        | .ok v => .pure (.ok (v, none))

end

end FlatMpt
