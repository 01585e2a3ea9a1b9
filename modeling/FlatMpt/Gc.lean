import FlatMpt.Apply

/-!
# Moving records

Writing the records kept in RAM to disk, and copying live records out of sparse
regions.  Either way a record keeps its bytes and its root; only the pointer in
its frontier slot changes.  Which records a spill evicts (clock bits and the byte
budget) and which regions a collection proposes (utilization and age) are given
by the caller.

    findDiskPtr, installPtr   -- the slot at a record's stored prefix
    spillQuota                -- RAM records to disk
    gcStep                    -- evacuate regions under the writer
    gcCollect, gcInstall      -- the same in two phases
-/

namespace FlatMpt

section
variable [Keccak]

/-! ## Slots by prefix -/

mutual

/-- The pointer of the disk slot that a stored prefix resolves to. -/
def findDiskPtr : RamNode → List Nibble → Option DiskPtr
  | .empty, _ => none
  | .extension path child _, nibbles =>
    if path.isPrefixOf nibbles then findDiskPtr child (nibbles.drop path.length) else none
  | .branch children _, nibbles =>
    match nibbles with
    | [] => none
    | idx :: rest => findSlotPtr (children idx) rest

def findSlotPtr : RamSlot → List Nibble → Option DiskPtr
  | .none, _ => none
  | .ram child, rest => findDiskPtr child rest
  | .disk ptr _, _ => some ptr
  | .account path _ _ _ storage, rest =>
    if path.isPrefixOf rest then findDiskPtr storage (rest.drop path.length) else none
  | .mem .., _ => none

end

mutual

/-- Retarget the disk slot at a stored prefix; its cached root stays.  `none` if
there is no such slot. -/
def installPtr : RamNode → List Nibble → DiskPtr → Option RamNode
  | .empty, _, _ => none
  | .extension path child hash, nibbles, ptr =>
    if path.isPrefixOf nibbles then
      (installPtr child (nibbles.drop path.length) ptr).map fun child => .extension path child hash
    else none
  | .branch children hash, nibbles, ptr =>
    match nibbles with
    | [] => none
    | idx :: rest =>
      (installSlotPtr (children idx) rest ptr).map fun slot =>
        .branch (Function.update children idx slot) hash

def installSlotPtr : RamSlot → List Nibble → DiskPtr → Option RamSlot
  | .none, _, _ => none
  | .ram child, rest, ptr => (installPtr child rest ptr).map .ram
  | .disk _ root, _, ptr => some (.disk ptr root)
  | .account path nonce balance codeHash storage, rest, ptr =>
    if path.isPrefixOf rest then
      (installPtr storage (rest.drop path.length) ptr).map (.account path nonce balance codeHash)
    else none
  | .mem .., _, _ => none

end

/-! ## Spilling -/

/-- The pending chunk of a spill, and the pointers to install. -/
structure SpillBuf where
  pending : List (List Nibble × Bytes)
  installs : List (List Nibble × DiskPtr)

/-- Records per write of a spill. -/
def SPILL_CHUNK : Nat := 8192

/-- Write the pending chunk and queue its pointers. -/
def flushSpill (buf : SpillBuf) : Act SpillBuf :=
  if buf.pending = [] then Act.ok buf
  else
    attempt (Prog.ask (Req.writeBatch (buf.pending.map Prod.snd))) .error fun ptrs =>
    Act.ok ⟨[], buf.installs ++ (buf.pending.map Prod.fst).zip ptrs⟩

/-- Thread the buffer through the slots of a branch. -/
def spillSlots (spill : Nibble → SpillBuf → Upd RamSlot SpillBuf) :
    List Nibble → (Nibble → RamSlot) → SpillBuf → Upd (Nibble → RamSlot) SpillBuf
  | [], children, buf => .pure (children, .ok buf)
  | i :: rest, children, buf =>
    thenUpd (spill i buf) fun slot r =>
    match r with
    | .error e => .pure (Function.update children i slot, .error e)
    | .ok buf => spillSlots spill rest (Function.update children i slot) buf

mutual

/-- Replace the RAM records that `evict` picks by disk placeholders, writing a chunk
whenever one is full. -/
def spillWalk (evict : List Nibble → Bool) : RamNode → List Nibble → SpillBuf → Upd RamNode SpillBuf
  | .empty, _, buf => .pure (.empty, .ok buf)
  | .extension path child hash, pfx, buf =>
    thenUpd (spillWalk evict child (pfx ++ path) buf) fun child r =>
    .pure (.extension path child hash, r)
  | .branch children hash, pfx, buf =>
    thenUpd (spillSlots (fun i buf => spillSlot evict (children i) (pfx ++ [i]) buf)
      (List.finRange 16) children buf) fun children r =>
    .pure (.branch children hash, r)

def spillSlot (evict : List Nibble → Bool) : RamSlot → List Nibble → SpillBuf → Upd RamSlot SpillBuf
  | .none, _, buf => .pure (.none, .ok buf)
  | .ram child, pfx, buf =>
    thenUpd (spillWalk evict child pfx buf) fun child r => .pure (.ram child, r)
  | .disk ptr root, _, buf => .pure (.disk ptr root, .ok buf)
  | .account path nonce balance codeHash storage, pfx, buf =>
    thenUpd (spillWalk evict storage (pfx ++ path) buf) fun storage r =>
    .pure (.account path nonce balance codeHash storage, r)
  | .mem bytes root, pfx, buf =>
    if evict pfx then
      let buf : SpillBuf := { buf with pending := buf.pending ++ [(pfx, bytes)] }
      (if SPILL_CHUNK ≤ buf.pending.length then flushSpill buf else Act.ok buf).bind fun r =>
      .pure (.disk ⟨0, bytes.length⟩ root, r)
    else .pure (.mem bytes root, .ok buf)

end

/-- The passes of a spill. -/
def spillPasses : List (List Nibble → Bool) → RamNode → SpillBuf → Upd RamNode SpillBuf
  | [], upper, buf => .pure (upper, .ok buf)
  | evict :: rest, upper, buf =>
    thenUpd (spillWalk evict upper [] buf) fun upper r =>
    match r with
    | .error e => .pure (upper, .error e)
    | .ok buf => spillPasses rest upper buf

/-- Install the written records; a placeholder that cannot be found again fails. -/
def installSpilled : List (List Nibble × DiskPtr) → RamNode → RamNode × Except Err Unit
  | [], upper => (upper, .ok ())
  | (pfx, ptr) :: rest, upper =>
    match installPtr upper pfx ptr with
    | some upper => installSpilled rest upper
    | none => (upper, .error (.spillInstall pfx))

def spillQuota (passes : List (List Nibble → Bool)) (upper : RamNode) : Upd RamNode Unit :=
  thenUpd (spillPasses passes upper ⟨[], []⟩) fun upper r =>
  match r with
  | .error e => .pure (upper, .error e)
  | .ok buf =>
    attempt (flushSpill buf) (fun e => (upper, .error e)) fun buf =>
    .pure (installSpilled buf.installs upper)

/-- Spill everything. -/
def spillMem (upper : RamNode) : Upd RamNode Unit := spillQuota [fun _ => true] upper

/-! ## Evacuation -/

/-- The framed records of a region's bytes, from a unit on: unit and payload.  Zero
lengths are padding; a record never straddles the region. -/
def scanRecords (buf : Bytes) : (fuel : Nat) → Nat → List (Nat × Bytes)
  | 0, _ => []
  | fuel + 1, u =>
    let bytes := buf.drop (u * ADDR_UNIT)
    if bytes.length < RECORD_HDR then []
    else
      let len := leValue (bytes.take RECORD_HDR)
      if len = 0 then scanRecords buf fuel (u + 1)
      else if bytes.length < RECORD_HDR + len then []
      else
        (u, (bytes.drop RECORD_HDR).take len) ::
          scanRecords buf fuel (u + unitsFor (RECORD_HDR + len))

/-- A live record found in a region: its prefix, its payload, its pointer. -/
structure Found where
  pfx : List Nibble
  payload : Bytes
  old : DiskPtr

/-- The records of a region that the frontier still points at. -/
def liveRecords (root : RamNode) (region : Nat) (buf : Bytes) : List Found :=
  (scanRecords buf REGION_UNITS 0).filterMap fun (u, payload) =>
    let ptr : DiskPtr := ⟨region * REGION_UNITS + u, payload.length⟩
    match parsePrefix payload with
    | .error _ => none
    | .ok pfx => if findDiskPtr root pfx = some ptr then some ⟨pfx, payload, ptr⟩ else none

def readRegion (root : RamNode) (region : Nat) : Act (List Found) :=
  attempt (Prog.ask (Req.pread (region * REGION_BYTES) REGION_BYTES [])) .error fun buf =>
  Act.ok (liveRecords root region buf)

def readRegions (root : RamNode) : List Nat → Act (List Found)
  | [] => Act.ok []
  | region :: rest =>
    attempt (readRegion root region) .error fun found =>
    attempt (readRegions root rest) .error fun more => Act.ok (found ++ more)

/-- Copy the live records of the victims to the head and free the old copies. -/
def evacuateRegions (upper : RamNode) (victims : List Nat) : Act (List (List Nibble × DiskPtr)) :=
  attempt (readRegions upper victims) .error fun live =>
  if live = [] then Act.ok []
  else
    attempt (Prog.ask (Req.writeBatch (live.map Found.payload))) .error fun ptrs =>
    (freeAll (live.map Found.old)).bind fun _ => Act.ok ((live.map Found.pfx).zip ptrs)

/-- Retarget relocated records; a failed install is only reported. -/
def installReloc (reloc : List (List Nibble × DiskPtr)) (upper : RamNode) : RamNode :=
  reloc.foldl (fun upper e => (installPtr upper e.1 e.2).getD upper) upper

/-- Rounds of evacuation, each with the regions its controller proposes. -/
def gcStep : List (List Nat) → RamNode → Upd RamNode Unit
  | [], upper => .pure (upper, .ok ())
  | pick :: rest, upper =>
    .step (.selectVictims pick) fun victims =>
    if victims = [] then .pure (upper, .ok ())
    else
      attempt (evacuateRegions upper victims) (fun e => (upper, .error e)) fun reloc =>
      gcStep rest (installReloc reloc upper)

/-! ## Two-phase collection -/

/-- A collected relocation. -/
structure Reloc where
  pfx : List Nibble
  old : DiskPtr
  new : DiskPtr

/-- Read the victims in parallel and copy the records that the snapshot's frontier
references; the old copies stay. -/
def gcCollect (root : RamNode) (pick : List Nat) : Act (List Reloc) :=
  .step (.selectVictims pick) fun victims =>
  if victims = [] then Act.ok []
  else
    (Prog.fan fun i : Fin victims.length => readRegion root (victims.get i)).bind fun rs =>
    attempt (.pure ((joinAll (List.ofFn rs)).map List.flatten)) .error fun live =>
    if live = [] then Act.ok []
    else
      attempt (Prog.ask (Req.writeBatchParallel (live.map Found.payload))) .error fun ptrs =>
      Act.ok ((live.zip ptrs).map fun e => ⟨e.1.pfx, e.1.old, e.2⟩)

/-- Install one relocation, or discard its copy if the record died or moved since. -/
def installItem (item : Reloc) (upper : RamNode) : Prog Resp (RamNode × Bool) :=
  if findDiskPtr upper item.pfx = some item.old then
    match installPtr upper item.pfx item.new with
    | some upper => .step (.free item.old) fun _ => .pure (upper, true)
    | none => .step (.free item.new) fun _ => .pure (upper, false)
  else .step (.free item.new) fun _ => .pure (upper, false)

/-- The relocations in order; how many were installed and how many discarded. -/
def gcInstall : List Reloc → RamNode → Prog Resp (RamNode × Nat × Nat)
  | [], upper => .pure (upper, 0, 0)
  | item :: rest, upper =>
    (installItem item upper).bind fun r =>
    (gcInstall rest r.1).bind fun (upper, installed, discarded) =>
    .pure (if r.2 then (upper, installed + 1, discarded) else (upper, installed, discarded + 1))

end

end FlatMpt
