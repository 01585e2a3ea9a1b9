import FlatMpt.Record
import FlatMpt.Store

/-!
# The frontier

The part of the trie held in RAM: branches and extensions whose slots hold
further frontier nodes, records on disk or in RAM, or promoted accounts.  The
functions here are the descents of single inserts and deletes.  They return the
frontier as they leave it together with their result, since an error leaves a
slot as it was when the error occurred.

    promoteNode           -- lift a record's top branch into the frontier
    insertRam, deleteRam  -- one insert, one delete
    collapseRoot          -- rebuild the root from a lone survivor
-/

namespace FlatMpt

open Radix (commonPrefix)

structure Config where
  targetLeafBytes : Nat
  maxLeafBytes : Nat
  minPromoteBytes : Nat

/-- The configuration and the hot-record mode. -/
structure Env where
  cfg : Config
  hot : Bool

mutual

inductive RamNode
  | empty
  | extension (path : List Nibble) (child : RamNode) (hash : Option Hash)
  | branch (children : Nibble → RamSlot) (hash : Option Hash)

/-- A branch slot: `Option<RamChild>`. -/
inductive RamSlot
  | none
  | ram (node : RamNode)
  | disk (ptr : DiskPtr) (root : Hash)
  /-- A promoted account with its storage frontier. -/
  | account (path : List Nibble) (nonce : UInt64) (balance : U256) (codeHash : Hash)
      (storage : RamNode)
  /-- A record kept in RAM. -/
  | mem (bytes : Bytes) (root : Hash)

end

def RamSlot.isSome : RamSlot → Bool
  | .none => false
  | _ => true

def emptyChildren : Nibble → RamSlot := fun _ => .none

/-- Outcome of a delete descending the frontier.  A `collapsed` survivor must be
re-homed below the nibbles of `edge`. -/
inductive RamDelete
  | absent
  | changed
  | removed
  | collapsed (edge : List Nibble) (survivor : RamSlot)

/-- Programs that may fail. -/
abbrev Act (α : Type) := Prog Resp (Except Err α)

/-- Programs that update a part of the frontier. -/
abbrev Upd (σ α : Type) := Prog Resp (σ × Except Err α)

/-- Go on with the result of `p`, or end with `fail`. -/
def attempt {α β : Type} (p : Act α) (fail : Err → β) (k : α → Prog Resp β) : Prog Resp β :=
  p.bind fun
    | .ok a => k a
    | .error e => .pure (fail e)

def Act.ok {α : Type} (a : α) : Act α := .pure (.ok a)

def Act.fail {α : Type} (e : Err) : Act α := .pure (.error e)

/-- Go on with the frontier part a callee left, whatever its result. -/
def thenUpd {σ α β : Type} (p : Upd σ α) (k : σ → Except Err α → Prog Resp β) : Prog Resp β :=
  p.bind fun r => k r.1 r.2

/-! ## Depths -/

/-- Key depth of a prefix during a walk: below an account's 64 nibbles storage
starts over. -/
def walkDepth (pfx : List Nibble) : Nat := if 64 ≤ pfx.length then pfx.length - 64 else pfx.length

/-- Key depth of a record's stored prefix. -/
def localDepth (pfx : List Nibble) : Nat := if 64 < pfx.length then pfx.length - 64 else pfx.length

/-! ## Records -/

section
variable [Keccak]

def readLazy (ptr : DiskPtr) : Act DiskSubtree :=
  attempt (Prog.ask (Req.read ptr)) .error fun bytes => .pure (deserializeSubtree bytes)

/-- Bail out on a subtree that fits no record. -/
def refuse {α : Type} (e : Err) : Act α := .step (.refuse e) fun _ => .pure (.error e)

/-- The payload of a record; a path too long for the format is refused. -/
def encode (subtree : DiskSubtree) : Act Bytes :=
  match serializeSubtree subtree with
  | .ok payload => Act.ok payload
  | .error e => refuse e

/-- Serialize a subtree into a record kept in RAM. -/
def makeMemLeaf (subtree : DiskSubtree) : Act RamSlot :=
  attempt (encode subtree) .error fun payload =>
  Act.ok (.mem payload (hashNode subtree.node).finalize)

/-- Serialize a subtree and write it as a record. -/
def makeDiskLeaf (subtree : DiskSubtree) : Act RamSlot :=
  attempt (encode subtree) .error fun payload =>
  attempt (Prog.ask (Req.writePayload payload)) .error fun ptr =>
  Act.ok (.disk ptr (hashNode subtree.node).finalize)

/-- A leaf child: in RAM in RAM-build mode or under the hot-record cache, else on
disk. -/
def makeLeafChild (env : Env) (ram : Bool) (subtree : DiskSubtree) : Act RamSlot :=
  if ram || env.hot then makeMemLeaf subtree else makeDiskLeaf subtree

/-! ## Promotion -/

/-- Whether the record holds a top branch, possibly below an extension. -/
def hasTopBranch : Node → Bool
  | .branch .. => true
  | .extension _ (.branch ..) _ => true
  | _ => false

/-- Whether a record grew past `maxLeafBytes` and has a top branch to lift. -/
def shouldPromote (cfg : Config) (subtree : DiskSubtree) : Bool :=
  cfg.maxLeafBytes < recordSize subtree.pfx.length subtree.node && hasTopBranch subtree.node

/-- Whether a single-account record grew past `maxLeafBytes` and its storage has a
top branch. -/
def shouldPromoteAccount (cfg : Config) (subtree : DiskSubtree) : Bool :=
  cfg.maxLeafBytes < recordSize subtree.pfx.length subtree.node &&
    match subtree.node with
    | .account _ _ _ _ storage _ _ =>
      match storage with
      | .branch .. => true
      | .extension .. => true
      | _ => false
    | _ => false

/-- A child on its way to the frontier: finished, or a payload for the batch. -/
inductive Lifted
  | none
  | done (slot : RamSlot)
  | pending (payload : Bytes) (root : Hash)

/-- Lift the children in slot order. -/
def liftAll (lift : Nibble → Act Lifted) : List Nibble → (Nibble → Lifted) → Act (Nibble → Lifted)
  | [], acc => Act.ok acc
  | i :: rest, acc =>
    attempt (lift i) .error fun l => liftAll lift rest (Function.update acc i l)

def pendingPayloads (lifts : Nibble → Lifted) : List Nibble → List Bytes
  | [] => []
  | i :: rest =>
    match lifts i with
    | .pending payload _ => payload :: pendingPayloads lifts rest
    | _ => pendingPayloads lifts rest

/-- Install the written records in slot order. -/
def assignPtrs (lifts : Nibble → Lifted) : List Nibble → List DiskPtr → Nibble → RamSlot
  | [], _ => emptyChildren
  | i :: rest, ptrs =>
    match lifts i with
    | .none => assignPtrs lifts rest ptrs
    | .done slot => Function.update (assignPtrs lifts rest ptrs) i slot
    | .pending _ root =>
      match ptrs with
      | [] => assignPtrs lifts rest []
      | ptr :: ptrs => Function.update (assignPtrs lifts rest ptrs) i (.disk ptr root)

/-- A frontier branch over lifted children; on disk they are written in one batch. -/
def liftBranch (ram : Bool) (lift : Nibble → Act Lifted) : Act RamNode :=
  attempt (liftAll lift (List.finRange 16) fun _ => .none) .error fun lifts =>
  if ram then Act.ok (.branch (assignPtrs lifts (List.finRange 16) []) none)
  else
    attempt (Prog.ask (Req.writeBatch (pendingPayloads lifts (List.finRange 16)))) .error fun ptrs =>
    Act.ok (.branch (assignPtrs lifts (List.finRange 16) ptrs) none)

/-- Put the leading extension of a promoted record back. -/
def wrapPath (path : List Nibble) (branch : RamNode) : RamNode :=
  if path = [] then branch else .extension path branch none

mutual

/-- One child of a promoted branch: its own record, or promoted further. -/
def promoteChild (env : Env) : Option Node → (ram : Bool) → List Nibble → Act Lifted
  | none, _, _ => Act.ok .none
  | some node, ram, pfx =>
    if MAX_RECORD_BYTES < recordSize pfx.length node then
      attempt (promoteOversized env node ram pfx) .error fun slot => Act.ok (.done slot)
    else if ram then
      attempt (makeMemLeaf ⟨pfx, node⟩) .error fun slot => Act.ok (.done slot)
    else
      attempt (encode ⟨pfx, node⟩) .error fun payload =>
      Act.ok (.pending payload (hashNode node).finalize)

/-- Promote a subtree that cannot be one record. -/
def promoteOversized (env : Env) : Node → (ram : Bool) → List Nibble → Act RamSlot
  | .branch children _, ram, pfx =>
    attempt (liftBranch ram fun i => promoteChild env (children i) ram (pfx ++ [i])) .error
      fun branch => Act.ok (.ram branch)
  | .extension path (.branch children _) _, ram, pfx =>
    attempt (liftBranch ram fun i => promoteChild env (children i) ram (pfx ++ path ++ [i])) .error
      fun branch => Act.ok (.ram (wrapPath path branch))
  | .extension .., _, _ => Act.fail .panic
  | .account path nonce balance codeHash (.branch children _) _ _, _, pfx =>
    attempt (liftBranch env.hot fun i =>
      promoteChild env (children i) env.hot (pfx ++ path ++ [i])) .error
      fun branch => Act.ok (.account path nonce balance codeHash branch)
  | .account path nonce balance codeHash (.extension spath (.branch children _) _) _ _, _, pfx =>
    attempt (liftBranch env.hot fun i =>
      promoteChild env (children i) env.hot (pfx ++ path ++ spath ++ [i])) .error
      fun branch => Act.ok (.account path nonce balance codeHash (wrapPath spath branch))
  | .account .., _, _ => Act.fail .panic
  | node, ram, pfx =>
    let size := recordSize pfx.length node
    refuse (if ram then .oversizedUnsplittableMem size else .oversizedUnsplittable size)

end

/-- Lift the top branch of a record: `promote_to_mem` if `ram`, else
`promote_record_to_ram`. -/
def promoteNode (env : Env) (ram : Bool) (subtree : DiskSubtree) : Act RamNode :=
  match subtree.node with
  | .branch children _ =>
    liftBranch ram fun i => promoteChild env (children i) ram (subtree.pfx ++ [i])
  | .extension path (.branch children _) _ =>
    attempt (liftBranch ram fun i => promoteChild env (children i) ram (subtree.pfx ++ path ++ [i]))
      .error fun branch => Act.ok (wrapPath path branch)
  | _ => Act.fail .panic

def promoteToRam (env : Env) (ram : Bool) (subtree : DiskSubtree) : Act RamSlot :=
  attempt (promoteNode env ram subtree) .error fun node => Act.ok (.ram node)

/-- Lift an account's storage into the frontier, under the account's full path. -/
def promoteAccountToRam (env : Env) (ram : Bool) (subtree : DiskSubtree) : Act RamSlot :=
  match subtree.node with
  | .account path nonce balance codeHash storage _ _ =>
    attempt (promoteNode env ram ⟨subtree.pfx ++ path, storage⟩) .error fun node =>
    Act.ok (.account path nonce balance codeHash node)
  | _ => Act.fail .panic

/-! ## Insertion -/

/-- A branch below the first `common` nibbles of a path. -/
def underCommon (path : List Nibble) (common : Nat) (children : Nibble → RamSlot) : RamNode :=
  if common = 0 then .branch children none
  else .extension (path.take common) (.branch children none) none

/-- Place a new key's leaf in a slot of its own. -/
def placeLeaf (env : Env) (ram : Bool) (pfx : List Nibble) (key : Key) (op : LeafOp) : Act RamSlot :=
  attempt (.pure (placeNew op ((keyNibbles key).drop (walkDepth pfx)))) .error fun node =>
  makeLeafChild env ram ⟨pfx, node⟩

/-- A rewritten in-RAM record: promoted if it outgrew the caps. -/
def rewriteMem (env : Env) (ram : Bool) (subtree : DiskSubtree) : Act RamSlot :=
  if shouldPromote env.cfg subtree then promoteToRam env true subtree
  else if shouldPromoteAccount env.cfg subtree then
    promoteAccountToRam env (ram || env.hot) subtree
  else makeMemLeaf subtree

/-- A rewritten disk record, freed before the new one is made; an error leaves the
slot on the old record. -/
def rewriteDisk (env : Env) (ram : Bool) (ptr : DiskPtr) (root : Hash) (subtree : DiskSubtree) :
    Upd RamSlot Unit :=
  if shouldPromote env.cfg subtree then
    .step (.free ptr) fun _ =>
    attempt (promoteToRam env env.hot subtree) (fun e => (.disk ptr root, .error e)) fun slot =>
    .pure (slot, .ok ())
  else if shouldPromoteAccount env.cfg subtree then
    .step (.free ptr) fun _ =>
    attempt (promoteAccountToRam env (ram || env.hot) subtree)
      (fun e => (.disk ptr root, .error e)) fun slot => .pure (slot, .ok ())
  else if env.hot then
    .step (.free ptr) fun _ =>
    attempt (makeMemLeaf subtree) (fun e => (.disk ptr root, .error e)) fun slot =>
    .pure (slot, .ok ())
  else
    attempt (.pure (serializeSubtree subtree)) (fun e => (.disk ptr root, .error e)) fun payload =>
    .step (.free ptr) fun _ =>
    attempt (Prog.ask (Req.writePayload payload)) (fun e => (.disk ptr root, .error e)) fun ptr' =>
    .pure (.disk ptr' (hashNode subtree.node).finalize, .ok ())

mutual

/-- Insert a key below a frontier node. -/
def insertRam (env : Env) : RamNode → List Nibble → Key → LeafOp → (ram : Bool) → Upd RamNode Unit
  | .empty, pfx, key, op, ram =>
    match (keyNibbles key)[walkDepth pfx]? with
    | none => .pure (.empty, .error .panic)
    | some idx =>
      attempt (placeLeaf env ram (pfx ++ [idx]) key op) (fun e => (.empty, .error e)) fun leaf =>
      .pure (.branch (Function.update emptyChildren idx leaf) none, .ok ())
  | .extension path child _, pfx, key, op, ram =>
    let rest := (keyNibbles key).drop (walkDepth pfx)
    let common := commonPrefix path rest
    if common < path.length then
      match path.drop common, rest.drop common with
      | oldIdx :: oldRest, newIdx :: _ =>
        attempt (placeLeaf env ram (pfx ++ path.take common ++ [newIdx]) key op)
          (fun e => (.empty, .error e)) fun leaf =>
        .pure (underCommon path common (Function.update
          (Function.update emptyChildren oldIdx (.ram (wrapPath oldRest child))) newIdx leaf), .ok ())
      | _, _ => .pure (.empty, .error .panic)
    else
      thenUpd (insertRam env child (pfx ++ path) key op ram) fun child r =>
      .pure (.extension path child none, r)
  | .branch children _, pfx, key, op, ram =>
    if walkDepth pfx = 64 then .pure (.branch children none, .error .keyAtBranch)
    else
      match (keyNibbles key)[walkDepth pfx]? with
      | none => .pure (.branch children none, .error .panic)
      | some idx =>
        thenUpd (insertIntoChild env (children idx) (pfx ++ [idx]) key op ram) fun slot r =>
        .pure (.branch (Function.update children idx slot) none, r)

/-- Insert a key into a branch slot. -/
def insertIntoChild (env : Env) : RamSlot → List Nibble → Key → LeafOp → (ram : Bool) →
    Upd RamSlot Unit
  | .ram child, pfx, key, op, ram =>
    thenUpd (insertRam env child pfx key op ram) fun child r => .pure (.ram child, r)
  | .mem bytes _, _, key, op, ram =>
    attempt (.pure (deserializeSubtree bytes)) (fun e => (.none, .error e)) fun subtree =>
    attempt (.pure (recordNodeInsert subtree.node ((keyNibbles key).drop (localDepth subtree.pfx)) op))
      (fun e => (.none, .error e)) fun node =>
    attempt (rewriteMem env ram ⟨subtree.pfx, node⟩) (fun e => (.none, .error e)) fun slot =>
    .pure (slot, .ok ())
  | .disk ptr root, _, key, op, ram =>
    attempt (readLazy ptr) (fun e => (.disk ptr root, .error e)) fun subtree =>
    attempt (.pure (recordNodeInsert subtree.node ((keyNibbles key).drop (localDepth subtree.pfx)) op))
      (fun e => (.disk ptr root, .error e)) fun node =>
    rewriteDisk env ram ptr root ⟨subtree.pfx, node⟩
  | .account path nonce balance codeHash storage, pfx, key, op, ram =>
    let rest := (keyNibbles key).drop (walkDepth pfx)
    let common := commonPrefix path rest
    if common = path.length then
      match op with
      | .storage slot value =>
        -- storage records carry the account's full path, and go to disk
        thenUpd (insertRam env storage (keyNibbles key) slot (.value value) false) fun storage r =>
        .pure (.account path nonce balance codeHash storage, r)
      | .account nonce balance codeHash =>
        .pure (.account path nonce balance codeHash storage, .ok ())
      | .value _ => .pure (.account path nonce balance codeHash storage, .error .valueOnPromoted)
    else
      match path.drop common, rest.drop common with
      | oldIdx :: oldRest, newIdx :: _ =>
        attempt (placeLeaf env ram (pfx ++ rest.take common ++ [newIdx]) key op)
          (fun e => (.none, .error e)) fun leaf =>
        .pure (.ram (underCommon path common (Function.update
          (Function.update emptyChildren oldIdx (.account oldRest nonce balance codeHash storage))
          newIdx leaf)), .ok ())
      | _, _ => .pure (.none, .error .panic)
  | .none, pfx, key, op, ram =>
    attempt (placeLeaf env ram pfx key op) (fun e => (.none, .error e)) fun leaf =>
    .pure (leaf, .ok ())

end

/-! ## Deletion -/

mutual

/-- Every disk record below a frontier node, in slot order. -/
def diskPtrs : RamNode → List DiskPtr
  | .empty => []
  | .extension _ child _ => diskPtrs child
  | .branch children _ => (List.finRange 16).flatMap fun i => slotPtrs (children i)

def slotPtrs : RamSlot → List DiskPtr
  | .none => []
  | .ram node => diskPtrs node
  | .disk ptr _ => [ptr]
  | .account _ _ _ _ storage => diskPtrs storage
  | .mem .. => []

end

def freeAll : List DiskPtr → Prog Resp Unit
  | [] => .pure ()
  | ptr :: rest => .step (.free ptr) fun _ => freeAll rest

/-- Free every record below a frontier node. -/
def freeRamRecords (node : RamNode) : Prog Resp Unit := freeAll (diskPtrs node)

/-- A frontier node below a stretch of path, merged into one extension. -/
def extendBy (edge : List Nibble) : RamNode → Except Err RamNode
  | .extension path child _ => .ok (.extension (edge ++ path) child none)
  | .branch children hash => .ok (.extension edge (.branch children hash) none)
  | .empty => .error .panic

/-- The extension over a child that changed: two extensions merge. -/
def mergeExtension (path : List Nibble) : RamNode → RamNode
  | .extension cpath child _ => .extension (path ++ cpath) child none
  | other => .extension path other none

/-- The occupied slots, in order. -/
def ramSurvivors (children : Nibble → RamSlot) : List Nibble :=
  (List.finRange 16).filter fun i => (children i).isSome

/-- A branch that lost a child: gone, merged into an extension, collapsed into its
lone record, or kept. -/
def refoldBranch (children : Nibble → RamSlot) : RamNode × Except Err RamDelete :=
  match ramSurvivors children with
  | [] => (.empty, .ok .removed)
  | [j] =>
    match children j with
    | .ram sub =>
      match extendBy [j] sub with
      | .ok node => (node, .ok .changed)
      | .error e => (.empty, .error e)
    | other => (.empty, .ok (.collapsed [j] other))
  | _ => (.branch children none, .ok .changed)

/-- What a branch becomes after a delete in one of its slots. -/
def afterChild (children : Nibble → RamSlot) (hash : Option Hash) (out : RamDelete) :
    RamNode × Except Err RamDelete :=
  match out with
  | .absent => (.branch children hash, .ok .absent)
  | .changed => (.branch children none, .ok .changed)
  | .collapsed .. => (.empty, .error .panic)
  | .removed => refoldBranch children

/-- What an extension becomes after a delete below it. -/
def afterExtension (path : List Nibble) (child : RamNode) (hash : Option Hash) (out : RamDelete) :
    RamNode × Except Err RamDelete :=
  match out with
  | .absent => (.extension path child hash, .ok .absent)
  | .removed => (.empty, .ok .removed)
  | .collapsed edge survivor => (.empty, .ok (.collapsed (path ++ edge) survivor))
  | .changed => (mergeExtension path child, .ok .changed)

/-- Re-home a collapse survivor at a new prefix, below `edge`. -/
def rehomeChild (env : Env) (ram : Bool) (survivor : RamSlot) (edge newPrefix : List Nibble) :
    Act RamSlot :=
  match survivor with
  | .none => Act.fail .panic
  | .ram sub => .pure ((extendBy edge sub).map .ram)
  | .disk ptr _ =>
    attempt (readLazy ptr) .error fun subtree =>
    attempt (.pure (prependPath subtree.node edge)) .error fun node =>
    .step (.free ptr) fun _ => makeLeafChild env ram ⟨newPrefix, node⟩
  | .mem bytes _ =>
    attempt (.pure (deserializeSubtree bytes)) .error fun subtree =>
    attempt (.pure (prependPath subtree.node edge)) .error fun node =>
    makeMemLeaf ⟨newPrefix, node⟩
  | .account path nonce balance codeHash storage =>
    Act.ok (.account (edge ++ path) nonce balance codeHash storage)

/-- A collapsed storage survivor as an inline storage node. -/
def materializeStorageSurvivor (survivor : RamSlot) (edge : List Nibble) : Act Node :=
  match survivor with
  | .disk ptr _ =>
    attempt (readLazy ptr) .error fun subtree =>
    attempt (.pure (prependPath subtree.node edge)) .error fun node =>
    .step (.free ptr) fun _ => Act.ok node
  | .mem bytes _ =>
    attempt (.pure (deserializeSubtree bytes)) .error fun subtree =>
    .pure (prependPath subtree.node edge)
  | _ => Act.fail .panic

/-- The storage node left when a storage frontier fell below promoted form. -/
def demotedStorage : RamDelete → Act Node
  | .removed => Act.ok .empty
  | .collapsed edge survivor => materializeStorageSurvivor survivor edge
  | _ => Act.fail .panic

mutual

/-- Delete a key below a frontier node. -/
def deleteRam (env : Env) : RamNode → List Nibble → Key → DeleteOp → (ram : Bool) →
    Upd RamNode RamDelete
  | .empty, _, _, _, _ => .pure (.empty, .ok .absent)
  | .extension path child hash, pfx, key, op, ram =>
    if path.isPrefixOf ((keyNibbles key).drop (walkDepth pfx)) then
      thenUpd (deleteRam env child (pfx ++ path) key op ram) fun child r =>
      match r with
      | .error e => .pure (.empty, .error e)
      | .ok out => .pure (afterExtension path child hash out)
    else .pure (.extension path child hash, .ok .absent)
  | .branch children hash, pfx, key, op, ram =>
    match (keyNibbles key)[walkDepth pfx]? with
    | none => .pure (.empty, .error .panic)
    | some idx =>
      thenUpd (deleteInChild env (children idx) (pfx ++ [idx]) key op ram) fun slot r =>
      match r with
      | .error e => .pure (.empty, .error e)
      | .ok out => .pure (afterChild (Function.update children idx slot) hash out)

/-- Delete a key from a branch slot. -/
def deleteInChild (env : Env) : RamSlot → List Nibble → Key → DeleteOp → (ram : Bool) →
    Upd RamSlot RamDelete
  | .none, _, _, _, _ => .pure (.none, .ok .absent)
  | .ram sub, pfx, key, op, ram =>
    thenUpd (deleteRam env sub pfx key op ram) fun sub r =>
    match r with
    | .error e => .pure (.ram sub, .error e)
    | .ok .absent => .pure (.ram sub, .ok .absent)
    | .ok .changed => .pure (.ram sub, .ok .changed)
    | .ok .removed => .pure (.none, .ok .removed)
    | .ok (.collapsed edge survivor) =>
      attempt (rehomeChild env ram survivor edge pfx) (fun e => (.ram sub, .error e)) fun slot =>
      .pure (slot, .ok .changed)
  | .mem bytes root, _, key, op, _ =>
    attempt (.pure (deserializeSubtree bytes)) (fun e => (.none, .error e)) fun subtree =>
    attempt (.pure (recordNodeDelete subtree.node ((keyNibbles key).drop (localDepth subtree.pfx)) op))
      (fun e => (.none, .error e)) fun (node, out) =>
    match out with
    | .absent => .pure (.mem bytes root, .ok .absent)
    | .changed =>
      attempt (makeMemLeaf ⟨subtree.pfx, node⟩) (fun e => (.none, .error e)) fun slot =>
      .pure (slot, .ok .changed)
    | .removed => .pure (.none, .ok .removed)
  | .disk ptr root, _, key, op, _ =>
    attempt (readLazy ptr) (fun e => (.disk ptr root, .error e)) fun subtree =>
    attempt (.pure (recordNodeDelete subtree.node ((keyNibbles key).drop (localDepth subtree.pfx)) op))
      (fun e => (.disk ptr root, .error e)) fun (node, out) =>
    match out with
    | .absent => .pure (.disk ptr root, .ok .absent)
    | .changed =>
      .step (.free ptr) fun _ =>
      attempt (makeLeafChild env false ⟨subtree.pfx, node⟩) (fun e => (.disk ptr root, .error e))
        fun slot => .pure (slot, .ok .changed)
    | .removed => .step (.free ptr) fun _ => .pure (.none, .ok .removed)
  | .account path nonce balance codeHash storage, pfx, key, op, ram =>
    if (keyNibbles key).drop (walkDepth pfx) ≠ path then
      .pure (.account path nonce balance codeHash storage, .ok .absent)
    else
      match op with
      | .value =>
        .pure (.account path nonce balance codeHash storage, .error .valueDeleteOnPromoted)
      | .account => (freeRamRecords storage).bind fun _ => .pure (.none, .ok .removed)
      | .wipeStorage =>
        (freeRamRecords storage).bind fun _ =>
        attempt (makeLeafChild env ram ⟨pfx, accountNode path nonce balance codeHash .empty⟩)
          (fun e => (.none, .error e)) fun slot => .pure (slot, .ok .changed)
      | .storage slot =>
        thenUpd (deleteRam env storage (keyNibbles key) slot .value false) fun storage r =>
        match r with
        | .error e => .pure (.account path nonce balance codeHash storage, .error e)
        | .ok .absent => .pure (.account path nonce balance codeHash storage, .ok .absent)
        | .ok .changed => .pure (.account path nonce balance codeHash storage, .ok .changed)
        | .ok out =>
          -- the storage frontier shrank below promoted form
          attempt (demotedStorage out) (fun e => (.none, .error e)) fun storageNode =>
          let subtree : DiskSubtree := ⟨pfx, accountNode path nonce balance codeHash storageNode⟩
          attempt (if shouldPromoteAccount env.cfg subtree then
              promoteAccountToRam env (ram || env.hot) subtree
            else makeLeafChild env ram subtree) (fun e => (.none, .error e)) fun slot =>
          .pure (slot, .ok .changed)

end

/-- Rebuild the root after the frontier collapsed to a single record. -/
def collapseRoot (env : Env) (edge : List Nibble) (survivor : RamSlot) : Act RamNode :=
  let rebuild (node : Node) : Act RamNode :=
    if hasTopBranch node then promoteNode env false ⟨[], node⟩ else Act.fail .singleLeafRoot
  match survivor with
  | .disk ptr _ =>
    attempt (readLazy ptr) .error fun subtree =>
    attempt (.pure (prependPath subtree.node edge)) .error fun node =>
    .step (.free ptr) fun _ => rebuild node
  | .mem bytes _ =>
    attempt (.pure (deserializeSubtree bytes)) .error fun subtree =>
    attempt (.pure (prependPath subtree.node edge)) .error fun node => rebuild node
  | .account .. => Act.fail .singleAccountRoot
  | _ => Act.fail .panic

end

end FlatMpt
