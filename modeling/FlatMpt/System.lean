import Mathlib.Logic.Relation
import FlatMpt.Batch

/-!
# The system

One writer, any number of snapshots, background collections and the checkpoint.
Calls of the writer and collections are running programs whose store calls
interleave one at a time; snapshots are cloned and dropped at any moment.  A crash
outside `persist` loses any of the bytes written since the last sync, and `open`
rebuilds the database from the checkpoint.

    callProg        -- the public calls that need the writer
    Sys.Step        -- one event
    Sys.Crash       -- crash and reopen
    Run             -- what happens in any order
-/

namespace FlatMpt

section
variable [Keccak]

/-! ## Calls -/

/-- The writer's part of the handle. -/
structure Db where
  upper : RamNode
  ramMode : Bool

structure Snapshot where
  root : RamNode
  gen : Nat

/-- A collection that may be installed. -/
structure GcBatch where
  snap : Snapshot
  items : List Reloc

/-- Calls of the writer, with what the environment decides: the order of a batch's
groups, the records a spill evicts, the regions a collection proposes. -/
inductive Call
  | applyBlock (ops : List (Key × StateOp)) (passes : List (List Nibble → Bool))
  | insertBatch (entries : List (Key × Bytes)) (arrange : List Group → List Group) (spill : Bool)
  | insert (key : Key) (op : LeafOp)
  | delete (key : Key) (op : DeleteOp)
  | gcStep (picks : List (List Nat))
  | gcInstall (batch : GcBatch)
  | persist (picks : List (List Nat))

inductive Reply
  | done
  | root (hash : Hash)
  | block (hash : Hash) (inverse : Inverse)
  | installed (installed discarded : Nat)

/-- End a call that returns the new root. -/
def replyRoot (ram : Bool) (p : Upd RamNode Unit) : Upd Db Reply :=
  thenUpd p fun upper r =>
  match r with
  | .error e => .pure (⟨upper, ram⟩, .error e)
  | .ok () => .pure (⟨fillRam upper, ram⟩, .ok (.root (hashRam upper)))

/-- `apply_block`: the net updates, a spill if the record cache is over its budget,
the root. -/
def applyBlock (env : Env) (ops : List (Key × StateOp)) (passes : List (List Nibble → Bool))
    (db : Db) : Upd Db Reply :=
  thenUpd (applyNet env db.ramMode (normalizeBlock ops) db.upper) fun upper r =>
  match r with
  | .error e => .pure (⟨upper, db.ramMode⟩, .error e)
  | .ok inv =>
    thenUpd (if !db.ramMode && env.hot then spillQuota passes upper else .pure (upper, .ok ()))
      fun upper r =>
    match r with
    | .error e => .pure (⟨upper, db.ramMode⟩, .error e)
    | .ok () => .pure (⟨fillRam upper, db.ramMode⟩, .ok (.block (hashRam upper) inv))

/-- `delete`, `delete_account`, `delete_storage` and `wipe_storage`. -/
def deleteOp (env : Env) (key : Key) (op : DeleteOp) (db : Db) : Upd Db Reply :=
  replyRoot db.ramMode <|
    thenUpd (deleteRam env db.upper [] key op db.ramMode) fun upper r =>
    match r with
    | .error e => .pure (upper, .error e)
    | .ok out => installRoot env upper out

/-- `persist` up to its sync: spill everything, leave RAM-build mode, collect. -/
def persistBody (picks : List (List Nat)) (db : Db) : Upd Db Reply :=
  thenUpd (spillMem db.upper) fun upper r =>
  match r with
  | .error e => .pure (⟨upper, db.ramMode⟩, .error e)
  | .ok () =>
    thenUpd (gcStep picks upper) fun upper r => .pure (⟨upper, false⟩, r.map fun _ => .done)

def callProg (env : Env) (db : Db) : Call → Upd Db Reply
  | .applyBlock ops passes => applyBlock env ops passes db
  | .insertBatch entries arrange spill =>
    replyRoot db.ramMode (insertBatchTo env db.ramMode spill arrange entries db.upper)
  | .insert key op => replyRoot db.ramMode (insertRam env db.upper [] key op db.ramMode)
  | .delete key op => deleteOp env key op db
  | .gcStep picks =>
    thenUpd (gcStep picks db.upper) fun upper r => .pure (⟨upper, db.ramMode⟩, r.map fun _ => .done)
  | .gcInstall batch =>
    (gcInstall batch.items db.upper).bind fun (upper, installed, discarded) =>
    .pure (⟨upper, db.ramMode⟩, .ok (.installed installed discarded))
  | .persist picks => persistBody picks db

/-! ## Prefetching -/

/-- The record that a slot key routes to below a promoted account. -/
def routeSlot (storage : RamNode) (slot : Key) : List DiskPtr :=
  (findDiskPtrKey storage (keyNibbles slot)).toList

mutual

/-- The records that one account's update will read. -/
def routeGroup : RamNode → List Nibble → NetUpdate → List DiskPtr
  | .empty, _, _ => []
  | .extension path child _, rest, upd =>
    if path.isPrefixOf rest then routeGroup child (rest.drop path.length) upd else []
  | .branch children _, rest, upd =>
    match rest with
    | [] => []
    | idx :: rest => routeGroupSlot (children idx) rest upd

def routeGroupSlot : RamSlot → List Nibble → NetUpdate → List DiskPtr
  | .none, _, _ => []
  | .mem .., _, _ => []
  | .ram sub, rest, upd => routeGroup sub rest upd
  | .disk ptr _, _, _ => [ptr]
  | .account path _ _ _ storage, rest, upd =>
    if rest ≠ path then []
    else if upd.account = .delete ∨ upd.wipe then diskPtrs storage
    else upd.slots.flatMap fun s => routeSlot storage s.1

end

/-- The records that `prefetch_block` warms. -/
def prefetchPtrs (upper : RamNode) (ops : List (Key × StateOp)) : List DiskPtr :=
  (normalizeBlock ops).flatMap fun e => routeGroup upper (keyNibbles e.1) e.2

/-! ## State -/

/-- The manifest of the last successful `persist`. -/
structure Checkpoint where
  upper : RamNode
  endPage : Nat

structure Running where
  call : Call
  prog : Upd Db Reply

structure Sys where
  store : Store
  db : Db
  running : Option Running
  snapshots : List Snapshot
  collecting : List (Snapshot × Act (List Reloc))
  batches : List GcBatch
  checkpoint : Option Checkpoint

def Store.create (direct : Bool) (faults : List Bool) : Store where
  file := fun _ => 0
  seg := .default
  endPage := 0
  direct := direct
  readAhead := []
  unsynced := []
  faults := faults

/-- A fresh database. -/
def Sys.create (ramMode direct : Bool) (faults : List Bool) : Sys where
  store := .create direct faults
  db := ⟨.empty, ramMode⟩
  running := none
  snapshots := []
  collecting := []
  batches := []
  checkpoint := none

def Store.pin (s : Store) : Store := { s with seg := s.seg.pin }

def Store.pinAt (s : Store) (gen : Nat) : Store := { s with seg := s.seg.pinAt gen }

def Store.unpin (s : Store) (gen : Nat) : Store := { s with seg := s.seg.unpin gen }

/-- Sync the file and write the manifest; a failed sync leaves the last one. -/
def Sys.commit (σ : Sys) : Sys :=
  let (failed, store) := σ.store.fault
  if failed then { σ with store }
  else
    { σ with
      store := { store with unsynced := [], seg := store.seg.onPersisted }
      checkpoint := some ⟨σ.db.upper, store.endPage⟩ }

/-- The end of a call. -/
def Sys.finish (σ : Sys) (call : Call) (db : Db) (r : Except Err Reply) : Sys :=
  let σ : Sys := { σ with db, running := none }
  match call, r with
  | .gcInstall batch, _ => { σ with store := σ.store.unpin batch.snap.gen }
  | .persist _, .ok _ => σ.commit
  | _, _ => σ

/-- Live units by region, from the pointers of a frontier. -/
def recomputeLive (ptrs : List DiskPtr) (regions : Nat) (r : Nat) : Nat :=
  if r < regions then
    ((ptrs.filter fun p => regionOfUnit p.unit = r).map DiskPtr.units).sum
  else 0

/-- `open`: the frontier of the manifest over a file. -/
def Sys.reopen (cp : Checkpoint) (file : Nat → UInt8) (direct : Bool) (faults : List Bool) :
    Sys where
  store :=
    { Store.create direct faults with
      file := file
      seg := { RegionAlloc.default with
        regions := regionCeil cp.endPage + 1
        live := recomputeLive (diskPtrs cp.upper) (regionCeil cp.endPage)
        headRegion := regionCeil cp.endPage
        nextUnit := regionCeil cp.endPage * REGION_UNITS }
      endPage := regionCeil cp.endPage * REGION_PAGES }
  db := ⟨cp.upper, false⟩
  running := none
  snapshots := []
  collecting := []
  batches := []
  checkpoint := some cp

/-! ## Events -/

/-- One event; `ok` restricts the answers of the store under consideration. -/
inductive Sys.Step (env : Env) (ok : (r : Req) → Resp r → Prop) : Sys → Sys → Prop
  /-- A call starts; a batch to install is taken. -/
  | start {σ : Sys} (call : Call) (hidle : σ.running = none) (hcall : ∀ b, call ≠ .gcInstall b) :
      Step env ok σ { σ with running := some ⟨call, callProg env σ.db call⟩ }
  | install {σ : Sys} (l1 l2 : List GcBatch) (batch : GcBatch) (hidle : σ.running = none)
      (hb : σ.batches = l1 ++ batch :: l2) :
      Step env ok σ { σ with
        batches := l1 ++ l2
        running := some ⟨.gcInstall batch, callProg env σ.db (.gcInstall batch)⟩ }
  | work {σ : Sys} {call : Call} {p p' : Upd Db Reply} {s' : Store}
      (hrun : σ.running = some ⟨call, p⟩) (hstep : Prog.Step exec ok σ.store p s' p') :
      Step env ok σ { σ with store := s', running := some ⟨call, p'⟩ }
  /-- A call that panics never ends. -/
  | finish {σ : Sys} {call : Call} {db : Db} {r : Except Err Reply}
      (hrun : σ.running = some ⟨call, .pure (db, r)⟩) (hr : r ≠ .error .panic) :
      Step env ok σ (σ.finish call db r)
  | snapshot {σ : Sys} (hidle : σ.running = none) :
      Step env ok σ { σ with
        store := σ.store.pin
        snapshots := ⟨σ.db.upper, σ.store.seg.pinGen + 1⟩ :: σ.snapshots }
  | clone {σ : Sys} (snap : Snapshot) (hsnap : snap ∈ σ.snapshots) :
      Step env ok σ { σ with
        store := σ.store.pinAt snap.gen, snapshots := snap :: σ.snapshots }
  | drop {σ : Sys} (l1 l2 : List Snapshot) (snap : Snapshot)
      (hsnap : σ.snapshots = l1 ++ snap :: l2) :
      Step env ok σ { σ with store := σ.store.unpin snap.gen, snapshots := l1 ++ l2 }
  /-- A collection takes its snapshot. -/
  | collect {σ : Sys} (l1 l2 : List Snapshot) (snap : Snapshot) (pick : List Nat)
      (hsnap : σ.snapshots = l1 ++ snap :: l2) :
      Step env ok σ { σ with
        snapshots := l1 ++ l2, collecting := (snap, gcCollect snap.root pick) :: σ.collecting }
  | collectWork {σ : Sys} {l1 l2 : List (Snapshot × Act (List Reloc))} {snap : Snapshot}
      {p p' : Act (List Reloc)} {s' : Store} (hc : σ.collecting = l1 ++ (snap, p) :: l2)
      (hstep : Prog.Step exec ok σ.store p s' p') :
      Step env ok σ { σ with store := s', collecting := l1 ++ (snap, p') :: l2 }
  | collected {σ : Sys} {l1 l2 : List (Snapshot × Act (List Reloc))} {snap : Snapshot}
      {items : List Reloc} (hc : σ.collecting = l1 ++ (snap, .pure (.ok items)) :: l2) :
      Step env ok σ { σ with
        collecting := l1 ++ l2, batches := ⟨snap, items⟩ :: σ.batches }
  | collectFailed {σ : Sys} {l1 l2 : List (Snapshot × Act (List Reloc))} {snap : Snapshot} {e : Err}
      (hc : σ.collecting = l1 ++ (snap, .pure (.error e)) :: l2) :
      Step env ok σ { σ with store := σ.store.unpin snap.gen, collecting := l1 ++ l2 }
  | dropBatch {σ : Sys} (l1 l2 : List GcBatch) (batch : GcBatch)
      (hb : σ.batches = l1 ++ batch :: l2) :
      Step env ok σ { σ with store := σ.store.unpin batch.snap.gen, batches := l1 ++ l2 }
  /-- The workers of `prefetch_block` warm the routed records in any order. -/
  | prefetch {σ : Sys} (ops : List (Key × StateOp)) (order : List DiskPtr)
      (hidle : σ.running = none) (horder : order ⊆ prefetchPtrs σ.db.upper ops) :
      Step env ok σ { σ with store := order.foldl Store.prefetchRecord σ.store }
  | prefetchClear {σ : Sys} (hidle : σ.running = none) :
      Step env ok σ { σ with store := σ.store.readAheadClear }

/-- The bytes outside what was written since the last sync are on disk. -/
def Survives (s : Store) (file : Nat → UInt8) : Prop :=
  ∀ x, (∀ e ∈ s.unsynced, x < e.1 ∨ e.1 + e.2 ≤ x) → file x = s.file x

/-- A crash outside `persist`, and the database reopened, buffered or not.  Where `O_DIRECT`
reads past the end of a file that was written without it, `faults` lets the call fail. -/
inductive Sys.Crash : Sys → Sys → Prop
  | mk {σ : Sys} {cp : Checkpoint} {file : Nat → UInt8} (direct : Bool) (faults : List Bool)
      (hcp : σ.checkpoint = some cp) (hout : ∀ r ∈ σ.running, ∀ picks, r.call ≠ .persist picks)
      (hfile : Survives σ.store file) : Crash σ (.reopen cp file direct faults)

/-- Any number of events and crashes. -/
def Run (env : Env) (ok : (r : Req) → Resp r → Prop) : Sys → Sys → Prop :=
  Relation.ReflTransGen fun σ σ' => Sys.Step env ok σ σ' ∨ Sys.Crash σ σ'

end

end FlatMpt
