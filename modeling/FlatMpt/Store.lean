import FlatMpt.Codec
import FlatMpt.Lib.Prog

/-!
# The flat file

A log of records in fixed regions.  A record is framed by its length and starts
at a 256-byte unit; new records go to the head region, and a region is reused
once no record in it is live.  Vectors indexed by region are functions with the
length `regions`; lists that the code pushes and pops at the end are kept with
their end first.  The generations of the live pins are a list with repetitions.

    RegionAlloc.alloc, free, onPersisted, pin, unpin, drainStaged
    Store.writePayload, writeBatch, writeBatchParallel, read
    Req, exec             -- the calls the engine makes, as requests of a `Prog`
-/

namespace FlatMpt

def PAGE : Nat := 16384

def ADDR_UNIT : Nat := 256

def REGION_PAGES : Nat := 8

def UNITS_PER_PAGE : Nat := PAGE / ADDR_UNIT

def REGION_UNITS : Nat := REGION_PAGES * UNITS_PER_PAGE

def REGION_BYTES : Nat := REGION_PAGES * PAGE

def RECORD_HDR : Nat := 4

def MAX_RECORD_BYTES : Nat := REGION_BYTES - RECORD_HDR

def DIO_ALIGN : Nat := 4096

def U32_MAX : Nat := 2 ^ 32 - 1

/-- Below this file size nothing is evacuated. -/
def GC_MIN_PAGES : Nat := 64 * REGION_PAGES

/-- A record: its first unit and its payload length. -/
structure DiskPtr where
  unit : Nat
  len : Nat
deriving DecidableEq

/-- Units needed to hold `bytes`. -/
def unitsFor (bytes : Nat) : Nat := (bytes + ADDR_UNIT - 1) / ADDR_UNIT

def DiskPtr.offset (p : DiskPtr) : Nat := p.unit * ADDR_UNIT

def DiskPtr.units (p : DiskPtr) : Nat := unitsFor (RECORD_HDR + p.len)

/-! ## Region allocator -/

structure RegionAlloc where
  regions : Nat
  live : Nat → Nat
  headRegion : Nat
  nextUnit : Nat
  freeRegions : List Nat
  fresh : Nat → Bool
  quarantine : List Nat
  pinGen : Nat
  livePins : List Nat
  stagedFree : List Nat
  snapHold : List (Nat × Nat)

def regionOfUnit (unit : Nat) : Nat := unit / REGION_UNITS

/-- Pages rounded up to regions. -/
def regionCeil (pages : Nat) : Nat := (pages + REGION_PAGES - 1) / REGION_PAGES

/-- Units rounded up to pages. -/
def pageCeil (units : Nat) : Nat := (units + UNITS_PER_PAGE - 1) / UNITS_PER_PAGE

namespace RegionAlloc

def default : RegionAlloc where
  regions := 0
  live := fun _ => 0
  headRegion := 0
  nextUnit := 0
  freeRegions := []
  fresh := fun _ => false
  quarantine := []
  pinGen := 0
  livePins := []
  stagedFree := []
  snapHold := []

/-- The region the next head opens: a reclaimed one, else one past the file end. -/
def nextHead (s : RegionAlloc) (endPage : Nat) : Nat := s.freeRegions.headD (regionCeil endPage)

def openNewHead (s : RegionAlloc) (endPage : Nat) : RegionAlloc :=
  let r := s.nextHead endPage
  { s with
    freeRegions := s.freeRegions.tail
    headRegion := r
    nextUnit := r * REGION_UNITS
    regions := max s.regions (r + 1)
    fresh := Function.update s.fresh r true }

/-- The allocator a run of `runUnits` is placed in: a new head is opened first if
the run does not fit the current one. -/
def withRoom (s : RegionAlloc) (runUnits endPage : Nat) : RegionAlloc :=
  if s.regions = 0 ∨ s.headRegion * REGION_UNITS + REGION_UNITS < s.nextUnit + runUnits then
    s.openNewHead endPage
  else s

/-- Reserve `runUnits` at the head, `liveUnits` of them live; the start unit, the
allocator and the file end afterwards. -/
def alloc (s : RegionAlloc) (runUnits liveUnits endPage : Nat) :
    Except Err (Nat × RegionAlloc × Nat) :=
  if REGION_UNITS < runUnits then .error .panic
  else
    let s' := s.withRoom runUnits endPage
    .ok (s'.nextUnit,
      { s' with
        nextUnit := s'.nextUnit + runUnits
        live := Function.update s'.live s'.headRegion (s'.live s'.headRegion + liveUnits) },
      max endPage (pageCeil (s'.nextUnit + runUnits)))

/-- A dead region goes where nothing that may still read it is overwritten. -/
def retire (s : RegionAlloc) (r : Nat) : RegionAlloc :=
  if s.livePins ≠ [] then { s with snapHold := s.snapHold ++ [(r, s.pinGen)] }
  else if s.fresh r then { s with stagedFree := r :: s.stagedFree }
  else { s with quarantine := r :: s.quarantine }

/-- Mark a record's units dead; retire its region once it is fully dead. -/
def free (s : RegionAlloc) (unit units : Nat) : RegionAlloc :=
  let r := regionOfUnit unit
  if s.regions ≤ r then s
  else
    let was := s.live r
    let s' := { s with live := Function.update s.live r (was - units) }
    if 0 < was ∧ was - units = 0 ∧ r ≠ s.headRegion then s'.retire r else s'

/-- After a successful persist. -/
def onPersisted (s : RegionAlloc) : RegionAlloc :=
  let s' :=
    if s.livePins ≠ [] then
      { s with
        snapHold := s.snapHold ++ s.quarantine.reverse.map fun r => (r, s.pinGen)
        quarantine := [] }
    else { s with stagedFree := s.quarantine ++ s.stagedFree, quarantine := [] }
  { s' with fresh := fun _ => false }

/-- Some live pin is at most the tag. -/
def held (s : RegionAlloc) (tag : Nat) : Bool := s.livePins.any fun g => g ≤ tag

/-- The parked regions that no live pin holds any more leave `snapHold`. -/
def releaseSnapHold (s : RegionAlloc) : RegionAlloc :=
  let released := (s.snapHold.filter fun e => !s.held e.2).map Prod.fst
  { s with
    snapHold := s.snapHold.filter fun e => s.held e.2
    stagedFree := (released.filter fun r => s.fresh r).reverse ++ s.stagedFree
    quarantine := (released.filter fun r => !s.fresh r).reverse ++ s.quarantine }

def pin (s : RegionAlloc) : RegionAlloc :=
  { s with pinGen := s.pinGen + 1, livePins := (s.pinGen + 1) :: s.livePins }

def pinAt (s : RegionAlloc) (gen : Nat) : RegionAlloc := { s with livePins := gen :: s.livePins }

def unpin (s : RegionAlloc) (gen : Nat) : RegionAlloc :=
  releaseSnapHold { s with livePins := s.livePins.erase gen }

def drainStaged (s : RegionAlloc) : RegionAlloc :=
  { s with freeRegions := s.stagedFree ++ s.freeRegions, stagedFree := [] }

end RegionAlloc

/-! ## The file -/

/-- The flat file: its bytes (zero where none was written), the allocator, the high-water
mark, and the read-ahead payloads by unit.  `unsynced` are the ranges written
since the last sync, as offset and length; `faults` says which coming I/O calls
fail. -/
structure Store where
  file : Nat → UInt8
  seg : RegionAlloc
  endPage : Nat
  direct : Bool
  readAhead : List (Nat × Bytes)
  unsynced : List (Nat × Nat)
  faults : List Bool

/-- Write bytes at an offset. -/
def overwrite (file : Nat → UInt8) (off : Nat) (bytes : Bytes) : Nat → UInt8 := fun x =>
  if off ≤ x ∧ x < off + bytes.length then bytes.getD (x - off) 0 else file x

def readBytesAt (file : Nat → UInt8) (off len : Nat) : Bytes :=
  (List.range len).map fun i => file (off + i)

/-- The payload stored at a pointer. -/
def payloadAt (file : Nat → UInt8) (p : DiskPtr) : Bytes :=
  readBytesAt file (p.offset + RECORD_HDR) p.len

/-- A record as framed in the file: length, payload, padding to whole units. -/
def frame (payload : Bytes) : Bytes :=
  let body := leBytes 4 payload.length ++ payload
  body ++ List.replicate (unitsFor (RECORD_HDR + payload.length) * ADDR_UNIT - body.length) 0

/-- The pointers of records packed from a unit on. -/
def layout (base : Nat) : List Bytes → List DiskPtr
  | [] => []
  | p :: ps => ⟨base, p.length⟩ :: layout (base + unitsFor (RECORD_HDR + p.length)) ps

/-- Units of packed records. -/
def runLive (ps : List Bytes) : Nat := (ps.map fun p => unitsFor (RECORD_HDR + p.length)).sum

/-- Greedy runs of records, each at most one region; `cur` is the open run. -/
def packRuns (cur : List Bytes) : List Bytes → List (List Bytes)
  | [] => [cur]
  | p :: ps =>
    if REGION_UNITS < runLive cur + unitsFor (RECORD_HDR + p.length) then cur :: packRuns [p] ps
    else packRuns (cur ++ [p]) ps

def runsOf : List Bytes → List (List Bytes)
  | [] => []
  | p :: ps => packRuns [p] ps

namespace Store

def alignUnits (s : Store) : Nat := if s.direct then DIO_ALIGN / ADDR_UNIT else 1

/-- Units rounded up to the I/O alignment. -/
def paddedUnits (s : Store) (units : Nat) : Nat :=
  (units + s.alignUnits - 1) / s.alignUnits * s.alignUnits

/-- Whether the next I/O call fails. -/
def fault (s : Store) : Bool × Store := (s.faults.headD false, { s with faults := s.faults.tail })

/-- A positioned write. -/
def pwrite (s : Store) (off : Nat) (bytes : Bytes) : Except Err Unit × Store :=
  let s' := { s.fault.2 with unsynced := (off, bytes.length) :: s.unsynced }
  if s.fault.1 then (.error .io, s')
  else (.ok (), { s' with file := overwrite s.file off bytes })

/-- Reserve room for a run of records.  `unpadded` selects which count the
addressing limit is checked on. -/
def allocRun (s : Store) (ps : List Bytes) (unpadded : Bool) : Except Err Nat × Store :=
  let liveUnits := runLive ps
  let runUnits := s.paddedUnits liveUnits
  match s.seg.alloc runUnits liveUnits s.endPage with
  | .error e => (.error e, s)
  | .ok (unit, seg, endPage) =>
    let s' := { s with seg, endPage }
    if U32_MAX < unit + (if unpadded then liveUnits else runUnits) then (.error .addressLimit, s')
    else (.ok unit, s')

/-- The bytes of a run: the framed records, zeros up to the I/O alignment. -/
def runBytes (s : Store) (ps : List Bytes) : Bytes :=
  let body := ps.flatMap frame
  body ++ List.replicate (s.paddedUnits (runLive ps) * ADDR_UNIT - body.length) 0

def writeRun (s : Store) (ps : List Bytes) (unpadded : Bool) : Except Err (List DiskPtr) × Store :=
  match s.allocRun ps unpadded with
  | (.error e, s') => (.error e, s')
  | (.ok unit, s') =>
    match s'.pwrite (unit * ADDR_UNIT) (s.runBytes ps) with
    | (.error e, s'') => (.error e, s'')
    | (.ok _, s'') => (.ok (layout unit ps), s'')

/-- Append one record. -/
def writePayload (s : Store) (payload : Bytes) : Except Err DiskPtr × Store :=
  if MAX_RECORD_BYTES < payload.length then (.error (.recordTooLarge payload.length), s)
  else
    match s.writeRun [payload] true with
    | (.error e, s') => (.error e, s')
    | (.ok ptrs, s') => (.ok (ptrs.headD ⟨0, 0⟩), s')

def drainStagedIfUnaliased (s : Store) : Store :=
  if s.readAhead.isEmpty then { s with seg := s.seg.drainStaged } else s

def tooLarge (ps : List Bytes) : Option Bytes := ps.find? fun p => MAX_RECORD_BYTES < p.length

def writeRuns (s : Store) : List (List Bytes) → Except Err (List DiskPtr) × Store
  | [] => (.ok [], s)
  | run :: rest =>
    match s.writeRun run false with
    | (.error e, s') => (.error e, s')
    | (.ok ps, s') =>
      match s'.writeRuns rest with
      | (.error e, s'') => (.error e, s'')
      | (.ok qs, s'') => (.ok (ps ++ qs), s'')

/-- Append several records in dense runs. -/
def writeBatch (s : Store) (payloads : List Bytes) : Except Err (List DiskPtr) × Store :=
  let s := s.drainStagedIfUnaliased
  match tooLarge payloads with
  | some p => (.error (.recordTooLarge p.length), s)
  | none => s.writeRuns (runsOf payloads)

def allocRuns (s : Store) : List (List Bytes) → Except Err (List Nat) × Store
  | [] => (.ok [], s)
  | run :: rest =>
    match s.allocRun run false with
    | (.error e, s') => (.error e, s')
    | (.ok unit, s') =>
      match s'.allocRuns rest with
      | (.error e, s'') => (.error e, s'')
      | (.ok units, s'') => (.ok (unit :: units), s'')

def pwriteRuns (s : Store) : List (Nat × List Bytes) → Except Err Unit × Store
  | [] => (.ok (), s)
  | (unit, run) :: rest =>
    match s.pwrite (unit * ADDR_UNIT) (s.runBytes run) with
    | (.error e, s') => (.error e, s')
    | (.ok _, s') => s'.pwriteRuns rest

/-- Like `writeBatch`, with all the room reserved before the first write.  The
writes go to disjoint ranges, so one order of them stands for all. -/
def writeBatchParallel (s : Store) (payloads : List Bytes) : Except Err (List DiskPtr) × Store :=
  let s := s.drainStagedIfUnaliased
  match tooLarge payloads with
  | some p => (.error (.recordTooLarge p.length), s)
  | none =>
    let runs := runsOf payloads
    match s.allocRuns runs with
    | (.error e, s') => (.error e, s')
    | (.ok units, s') =>
      match s'.pwriteRuns (units.zip runs) with
      | (.error e, s'') => (.error e, s'')
      | (.ok _, s'') => (.ok ((units.zip runs).flatMap fun (unit, run) => layout unit run), s'')

/-- A positioned read. -/
def pread (s : Store) (off len : Nat) : Except Err Bytes × Store :=
  (if s.fault.1 then .error .io else .ok (readBytesAt s.file off len), s.fault.2)

def readAheadTake (s : Store) (unit : Nat) : Option Bytes := s.readAhead.lookup unit

def readAheadInsert (s : Store) (unit : Nat) (payload : Bytes) : Store :=
  { s with readAhead := (unit, payload) :: s.readAhead.filter fun e => e.1 ≠ unit }

def readAheadClear (s : Store) : Store :=
  { s with readAhead := [], seg := s.seg.drainStaged }

/-- A record's payload: from the read-ahead if it is there, else from the file. -/
def read (s : Store) (p : DiskPtr) : Except Err Bytes × Store :=
  match s.readAheadTake p.unit with
  | some payload => (.ok payload, s)
  | none => s.pread (p.offset + RECORD_HDR) p.len

/-- Warm the read-ahead with a record; a failed read is skipped. -/
def prefetchRecord (s : Store) (p : DiskPtr) : Store :=
  match s.pread (p.offset + RECORD_HDR) p.len with
  | (.ok payload, s') => s'.readAheadInsert p.unit payload
  | (.error _, s') => s'

def free (s : Store) (p : DiskPtr) : Store := { s with seg := s.seg.free p.unit p.units }

/-- The regions of `pick` that may be evacuated: not dead, not the head, not free. -/
def selectVictims (s : Store) (pick : List Nat) : List Nat :=
  if s.endPage < GC_MIN_PAGES then []
  else
    (pick.filter fun r =>
      s.seg.live r ≠ 0 ∧ r ≠ s.seg.headRegion ∧ r ∉ s.seg.freeRegions).dedup

end Store

/-! ## Requests -/

/-- The store calls of the engine; each runs without interruption by another
thread's.  `refuse` records that a subtree fits no record; `recs` names the records that
are cut out of a span, which the call itself never reads. -/
inductive Req
  | read (p : DiskPtr)
  | pread (off len : Nat) (recs : List DiskPtr)
  | writePayload (payload : Bytes)
  | writeBatch (payloads : List Bytes)
  | writeBatchParallel (payloads : List Bytes)
  | free (p : DiskPtr)
  | selectVictims (pick : List Nat)
  | refuse (e : Err)

abbrev Resp : Req → Type
  | .read _ => Except Err Bytes
  | .pread _ _ _ => Except Err Bytes
  | .writePayload _ => Except Err DiskPtr
  | .writeBatch _ => Except Err (List DiskPtr)
  | .writeBatchParallel _ => Except Err (List DiskPtr)
  | .free _ => Unit
  | .selectVictims _ => List Nat
  | .refuse _ => Unit

def exec : (r : Req) → Store → Resp r × Store
  | .read p, s => s.read p
  | .pread off len _, s => s.pread off len
  | .writePayload payload, s => s.writePayload payload
  | .writeBatch payloads, s => s.writeBatch payloads
  | .writeBatchParallel payloads, s => s.writeBatchParallel payloads
  | .free p, s => ((), s.free p)
  | .selectVictims pick, s => (s.selectVictims pick, s)
  | .refuse _, s => ((), s)

/-- The error of an answer. -/
def failed : (r : Req) → Resp r → Option Err
  | .read _, .error e => some e
  | .pread _ _ _, .error e => some e
  | .writePayload _, .error e => some e
  | .writeBatch _, .error e => some e
  | .writeBatchParallel _, .error e => some e
  | .refuse e, _ => some e
  | _, _ => none

/-- An answer without error: no I/O call failed and no record was refused. -/
def Quiet (r : Req) (x : Resp r) : Prop := failed r x = none

end FlatMpt
