import FlatMpt.Gc

/-!
# Batch inserts

`insert_batch`: the keys are routed to the disk records they fall into, every
touched record is rebuilt once by parallel workers, and the results are spliced
into the frontier; keys without a record are inserted one by one.  The map from
record to group has no order of its own, so `arrange` gives one.

    groupsOf                       -- the routed groups and the fresh keys
    processChunk, processCoalesced -- one worker
    insertBatchTo                  -- the batch on the frontier
-/

namespace FlatMpt

section
variable [Keccak]

/-! ## Routing -/

mutual

/-- The disk record that a key routes to. -/
def findDiskPtrKey : RamNode → List Nibble → Option DiskPtr
  | .empty, _ => none
  | .extension path child _, nibbles =>
    if path.isPrefixOf nibbles then findDiskPtrKey child (nibbles.drop path.length) else none
  | .branch children _, nibbles =>
    match nibbles with
    | [] => none
    | idx :: rest => findSlotPtrKey (children idx) rest

def findSlotPtrKey : RamSlot → List Nibble → Option DiskPtr
  | .ram child, rest => findDiskPtrKey child rest
  | .disk ptr _, _ => some ptr
  | _, _ => none

end

/-- The keys of a batch that route to one record. -/
structure Group where
  ptr : DiskPtr
  rep : Key
  keys : List (Key × Bytes)

/-- Add a routed key to its record's group. -/
def addToGroup (ptr : DiskPtr) (e : Key × Bytes) : List Group → List Group
  | [] => [⟨ptr, e.1, [e]⟩]
  | g :: rest =>
    if g.ptr.unit = ptr.unit then { g with keys := g.keys ++ [e] } :: rest
    else g :: addToGroup ptr e rest

/-- The groups of a batch and the keys that need fresh structure. -/
def groupsOf (upper : RamNode) (leaves : List (Key × Bytes)) :
    List Group × List (Key × Bytes) :=
  leaves.foldl (fun acc e =>
    match findDiskPtrKey upper (keyNibbles e.1) with
    | some ptr => (addToGroup ptr e acc.1, acc.2)
    | none => (acc.1, acc.2 ++ [e])) ([], [])

/-- Last write wins, in key order. -/
def dedupLeaves (entries : List (Key × Bytes)) : List (Key × Bytes) :=
  (entries.foldl (fun m e => m.insert e.1 e.2) (∅ : Std.TreeMap Key Bytes compare)).toList

/-! ## Folding groups -/

/-- A folded group: promoted, or a payload to write. -/
inductive GroupOut
  | promoted (slot : RamSlot)
  | leaf (payload : Bytes) (root : Hash)

/-- The values of a group, one after the other, in its record. -/
def insertValues (depth : Nat) : List (Key × Bytes) → Node → Except Err Node
  | [], node => .ok node
  | (key, value) :: rest, node => do
    let node ← recordNodeInsert node ((keyNibbles key).drop depth) (.value value)
    insertValues depth rest node

/-- Apply a group's keys to its record and free the old record. -/
def foldGroup (env : Env) (ptr : DiskPtr) (subtree : DiskSubtree) (keys : List (Key × Bytes)) :
    Act GroupOut :=
  attempt (.pure (insertValues subtree.pfx.length keys subtree.node)) .error fun node =>
  let subtree : DiskSubtree := { subtree with node }
  if shouldPromote env.cfg subtree then
    .step (.free ptr) fun _ =>
    attempt (promoteToRam env false subtree) .error fun slot => Act.ok (.promoted slot)
  else
    attempt (.pure (serializeSubtree subtree)) .error fun payload =>
    .step (.free ptr) fun _ => Act.ok (.leaf payload (hashNode subtree.node).finalize)

/-- A worker's results so far and the leaves it has yet to write. -/
structure Folded where
  pending : List (Key × Hash × Bytes)
  out : List (Key × RamSlot)

def flushLeaves (acc : Folded) : Act Folded :=
  if acc.pending = [] then Act.ok acc
  else
    attempt (Prog.ask (Req.writeBatch (acc.pending.map fun e => e.2.2))) .error fun ptrs =>
    Act.ok ⟨[], acc.out ++ (acc.pending.zip ptrs).map fun e => (e.1.1, .disk e.2 e.1.2.1)⟩

/-- Take a folded group up, writing the pending leaves once there are `limit`. -/
def absorb (limit : Nat) (acc : Folded) (rep : Key) (out : GroupOut) : Act Folded :=
  match out with
  | .promoted slot => Act.ok { acc with out := acc.out ++ [(rep, slot)] }
  | .leaf payload root =>
    let acc := { acc with pending := acc.pending ++ [(rep, root, payload)] }
    if limit ≤ acc.pending.length then flushLeaves acc else Act.ok acc

def BATCH_LEAVES : Nat := 8

def FOLD_WRITE_LEAVES : Nat := 256

def FOLD_SPAN_BYTES : Nat := 8388608

def FOLD_MAX_GAP : Nat := 0

/-- A chunk of groups, each record read on its own. -/
def processGroups (env : Env) : List Group → Folded → Act Folded
  | [], acc => flushLeaves acc
  | g :: rest, acc =>
    attempt (readLazy g.ptr) .error fun subtree =>
    attempt (foldGroup env g.ptr subtree g.keys) .error fun out =>
    attempt (absorb BATCH_LEAVES acc g.rep out) .error fun acc => processGroups env rest acc

def processChunk (env : Env) (chunk : List Group) : Act (List (Key × RamSlot)) :=
  attempt (processGroups env chunk ⟨[], []⟩) .error fun acc => Act.ok acc.out

/-- Where a record ends in the file. -/
def recEnd (p : DiskPtr) : Nat := p.offset + RECORD_HDR + p.len

/-- Groups whose records are read at once: consecutive in the file with small gaps,
at most `FOLD_SPAN_BYTES` together.  `start` and `last` are the open span's. -/
def growSpans (start : Nat) (last : DiskPtr) (cur : List Group) : List Group → List (List Group)
  | [] => [cur]
  | g :: rest =>
    if FOLD_MAX_GAP < g.ptr.offset - recEnd last ∨ FOLD_SPAN_BYTES < recEnd g.ptr - start then
      cur :: growSpans g.ptr.offset g.ptr [g] rest
    else growSpans start g.ptr (cur ++ [g]) rest

def spansOf : List Group → List (List Group)
  | [] => []
  | g :: rest => growSpans g.ptr.offset g.ptr [g] rest

/-- The groups of one span, their records cut out of its bytes. -/
def processSpan (env : Env) (start : Nat) (span : Bytes) : List Group → Folded → Act Folded
  | [], acc => Act.ok acc
  | g :: rest, acc =>
    attempt (.pure (deserializeSubtree
        ((span.drop (g.ptr.offset - start + RECORD_HDR)).take g.ptr.len))) .error fun subtree =>
    attempt (foldGroup env g.ptr subtree g.keys) .error fun out =>
    attempt (absorb FOLD_WRITE_LEAVES acc g.rep out) .error fun acc =>
    processSpan env start span rest acc

def processSpans (env : Env) : List (List Group) → Folded → Act Folded
  | [], acc => flushLeaves acc
  | [] :: rest, acc => processSpans env rest acc
  | (g :: gs) :: rest, acc =>
    let last := (gs.getLast?.getD g).ptr
    let recs := (g :: gs).map Group.ptr
    attempt (Prog.ask (Req.pread g.ptr.offset (recEnd last - g.ptr.offset) recs)) .error fun span =>
    attempt (processSpan env g.ptr.offset span (g :: gs) acc) .error fun acc =>
    processSpans env rest acc

/-- A chunk of groups in file order, neighbours read together. -/
def processCoalesced (env : Env) (chunk : List Group) : Act (List (Key × RamSlot)) :=
  attempt (processSpans env (spansOf chunk) ⟨[], []⟩) .error fun acc => Act.ok acc.out

/-! ## The batch -/

mutual

/-- Replace the record that a key routes to. -/
def installAtKey : RamNode → List Nibble → RamSlot → Option RamNode
  | .empty, _, _ => none
  | .extension path child _, nibbles, new =>
    (installAtKey child (nibbles.drop path.length) new).map fun child => .extension path child none
  | .branch children _, nibbles, new =>
    match nibbles with
    | [] => none
    | idx :: rest =>
      (installAtSlot (children idx) rest new).map fun slot =>
        .branch (Function.update children idx slot) none

def installAtSlot : RamSlot → List Nibble → RamSlot → Option RamSlot
  | .disk .., _, new => some new
  | .mem .., _, new => some new
  | .ram child, rest, new => (installAtKey child rest new).map .ram
  | _, _, _ => none

end

def installResults (results : List (Key × RamSlot)) (upper : RamNode) : RamNode :=
  results.foldl (fun upper e => (installAtKey upper (keyNibbles e.1) e.2).getD upper) upper

/-- Keys inserted one by one. -/
def insertSerial (env : Env) (ram : Bool) : List (Key × Bytes) → RamNode → Upd RamNode Unit
  | [], upper => .pure (upper, .ok ())
  | (key, value) :: rest, upper =>
    thenUpd (insertRam env upper [] key (.value value) ram) fun upper r =>
    match r with
    | .error e => .pure (upper, .error e)
    | .ok () => insertSerial env ram rest upper

def WORKERS : Nat := 192

/-- Rebuild the touched records: few groups in one worker, many sorted by file
offset and split among the workers. -/
def processAll (env : Env) (groups : List Group) : Act (List (Key × RamSlot)) :=
  if groups.length < 64 then processChunk env groups
  else
    let sorted := groups.mergeSort fun a b => a.ptr.unit ≤ b.ptr.unit
    let chunks := sorted.toChunks ((groups.length + WORKERS - 1) / WORKERS)
    (Prog.fan fun i : Fin chunks.length => processCoalesced env (chunks.get i)).bind fun rs =>
    .pure ((joinAll (List.ofFn rs)).map List.flatten)

/-- The disk path of a batch. -/
def insertBatchDisk (env : Env) (arrange : List Group → List Group) (leaves : List (Key × Bytes))
    (upper : RamNode) : Upd RamNode Unit :=
  let routed := groupsOf upper leaves
  attempt (processAll env (arrange routed.1)) (fun e => (upper, .error e)) fun results =>
  insertSerial env false routed.2 (installResults results upper)

/-- Values inserted into one top-level slot. -/
def insertBucket (env : Env) (pfx : List Nibble) :
    List (Key × Bytes) → RamSlot → Upd RamSlot Unit
  | [], slot => .pure (slot, .ok ())
  | (key, value) :: rest, slot =>
    thenUpd (insertIntoChild env slot pfx key (.value value) true) fun slot r =>
    match r with
    | .error e => .pure (slot, .error e)
    | .ok () => insertBucket env pfx rest slot

def leavesOf (leaves : List (Key × Bytes)) (i : Nibble) : List (Key × Bytes) :=
  leaves.filter fun e => (keyNibbles e.1).head? = some i

/-- The key that makes a top branch: the last one of the first occupied bucket. -/
def bootstrapKey (leaves : List (Key × Bytes)) : Option (Key × Bytes) :=
  (List.finRange 16).findSome? fun i => (leavesOf leaves i).getLast?

/-- The RAM-build path after the bootstrap: a worker per slot of the top branch. -/
def insertFanned (env : Env) (leaves : List (Key × Bytes)) (upper : RamNode) : Upd RamNode Unit :=
  match upper with
  | .branch children _ =>
    (Prog.fan fun i => insertBucket env [i] (leavesOf leaves i) (children i)).bind fun rs =>
    .pure (.branch (fun i => (rs i).1) none, (joinAll (List.ofFn fun i => (rs i).2)).map fun _ => ())
  | upper => insertSerial env true leaves upper

def isBranch : RamNode → Bool
  | .branch .. => true
  | _ => false

def insertBatchRam (env : Env) (leaves : List (Key × Bytes)) (upper : RamNode) :
    Upd RamNode Unit :=
  if isBranch upper then insertFanned env leaves upper
  else
    match bootstrapKey leaves with
    | none => insertFanned env leaves upper
    | some (key, value) =>
      thenUpd (insertRam env upper [] key (.value value) true) fun upper r =>
      match r with
      | .error e => .pure (upper, .error e)
      | .ok () => insertFanned env (leaves.filter fun e => e.1 ≠ key) upper

/-- `insert_batch` on the frontier; in RAM-build mode `spill` says whether the
memory ceiling was reached. -/
def insertBatchTo (env : Env) (ram spill : Bool) (arrange : List Group → List Group)
    (entries : List (Key × Bytes)) (upper : RamNode) : Upd RamNode Unit :=
  if entries = [] then .pure (upper, .ok ())
  else
    let leaves := dedupLeaves entries
    if ram then
      thenUpd (insertBatchRam env leaves upper) fun upper r =>
      match r with
      | .error e => .pure (upper, .error e)
      | .ok () => if spill then spillMem upper else .pure (upper, .ok ())
    else insertBatchDisk env arrange leaves upper

end

end FlatMpt
