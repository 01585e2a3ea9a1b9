import FlatMpt.Enumerate
import FlatMpt.Malformed

/-!
# Hash audit

The audit recomputes every hash from the bytes of the records and compares it with what
is cached: in the hash cells of the frontier, beside its records, and in the nodes of the
records.  It finds nothing if and only if the caches hold what is recomputed.

The audit of a record is a parameter of the walk: `lazyAudit` reads it lazily and expands
the serialized children one by one, as the source does, `wholeAudit` with the full reader.

    auditHashes             -- `audit_hashes`
    RecordSpec, UpToDate       -- what a clean report stands for
    auditRamNode_audits
    audit_run
-/

namespace FlatMpt

open Prog
open Radix (Tree)
open Radix.Tree (Canon)

/-! ## Reports -/

/-- Counts by layer, and the first mismatches in words. -/
structure HashAudit where
  trueRoot : Hash := .fill 0
  frontierNodes : Nat := 0
  staleCells : Nat := 0
  diskLeaves : Nat := 0
  badDiskRoots : Nat := 0
  memLeaves : Nat := 0
  badMemRoots : Nat := 0
  badPrefixes : Nat := 0
  accounts : Nat := 0
  badRecordNrefs : Nat := 0
  badRecordStorageRoots : Nat := 0
  samples : List String := []

def HashAudit.maxSamples : Nat := 40

def HashAudit.sample (st : HashAudit) (s : String) : HashAudit :=
  if st.samples.length < maxSamples then { st with samples := st.samples ++ [s] } else st

/-- The counts of a part are added, its samples appended while there is room. -/
def HashAudit.merge (st o : HashAudit) : HashAudit :=
  o.samples.foldl HashAudit.sample { st with
    frontierNodes := st.frontierNodes + o.frontierNodes
    staleCells := st.staleCells + o.staleCells
    diskLeaves := st.diskLeaves + o.diskLeaves
    badDiskRoots := st.badDiskRoots + o.badDiskRoots
    memLeaves := st.memLeaves + o.memLeaves
    badMemRoots := st.badMemRoots + o.badMemRoots
    badPrefixes := st.badPrefixes + o.badPrefixes
    accounts := st.accounts + o.accounts
    badRecordNrefs := st.badRecordNrefs + o.badRecordNrefs
    badRecordStorageRoots := st.badRecordStorageRoots + o.badRecordStorageRoots }

/-- Whether every cache agreed with what was recomputed. -/
def HashAudit.clean (st : HashAudit) : Bool :=
  st.staleCells = 0 && st.badDiskRoots = 0 && st.badMemRoots = 0 && st.badPrefixes = 0 &&
    st.badRecordNrefs = 0 && st.badRecordStorageRoots = 0

/-- A layer of caches. -/
inductive Layer
  | cell
  | diskRoot
  | memRoot
  | pfx
  | recordNref
  | recordStorageRoot

/-- One mismatch more in a layer. -/
def HashAudit.bump (st : HashAudit) : Layer → HashAudit
  | .cell => { st with staleCells := st.staleCells + 1 }
  | .diskRoot => { st with badDiskRoots := st.badDiskRoots + 1 }
  | .memRoot => { st with badMemRoots := st.badMemRoots + 1 }
  | .pfx => { st with badPrefixes := st.badPrefixes + 1 }
  | .recordNref => { st with badRecordNrefs := st.badRecordNrefs + 1 }
  | .recordStorageRoot => { st with badRecordStorageRoots := st.badRecordStorageRoots + 1 }

/-- Count a mismatch and describe it. -/
def HashAudit.check (st : HashAudit) (layer : Layer) (agrees : Bool) (text : String) : HashAudit :=
  if agrees then st else (st.bump layer).sample text

def nibHex (nibbles : List Nibble) : String := String.ofList (nibbles.map fun n => n.val.digitChar)

/-- A hash in hexadecimal. -/
def hexText (h : Hash) : String := nibHex (h.bytes.flatMap byteNibbles)

/-! ## Records -/

/-- The audit of one record: the prefix in its bytes, and its reference from scratch with the
report of the way there. -/
abbrev RecordAudit := Bytes → Except Err (List Nibble × (HashAudit → Except Err (NodeRef × HashAudit)))

/-- The children in slot order, one report after the other. -/
def auditRefs (walk : Nibble → HashAudit → Except Err (Option NodeRef × HashAudit)) :
    List Nibble → HashAudit → Except Err ((Nibble → Option NodeRef) × HashAudit)
  | [], st => .ok (fun _ => none, st)
  | i :: rest, st => do
    let (ref, st) ← walk i st
    let (refs, st) ← auditRefs walk rest st
    return (Function.update refs i ref, st)

section
variable [Keccak]

mutual

/-- A record node's reference from scratch, every reference on the way checked; `raw` audits
what a serialized child expands to. -/
def Lazy.auditNode (raw : Bytes → Nat → Nat → HashAudit → Except Err (NodeRef × HashAudit)) :
    Lazy.Node → HashAudit → Except Err (NodeRef × HashAudit)
  | .empty, st => .ok (.hash emptyHash, st)
  | .leaf path value nref, st => do
    let computed := leafRef path value
    return (computed, st.check .recordNref (computed = nref) "stale in-record leaf nref")
  | .extension path child nref, st => do
    let (cr, st) ← Lazy.auditNode raw child st
    let computed := extRef path cr
    return (computed, st.check .recordNref (computed = nref) "stale in-record ext nref")
  | .branch children nref, st => do
    let (refs, st) ← auditRefs (fun i => Lazy.auditSlot raw (children i)) (List.finRange 16) st
    let computed := branchRef refs
    return (computed, st.check .recordNref (computed = nref) "stale in-record branch nref")
  | .account path nonce balance codeHash storage storageRoot nref, st => do
    let (ref, st) ← Lazy.auditNode raw storage st
    let sr := ref.finalize
    let st := st.check .recordStorageRoot (sr = storageRoot)
      s!"stale in-record account storage_root: cached {hexText storageRoot} recomputed {hexText sr}"
    let computed := leafRef path (accountRlp nonce balance codeHash sr)
    return (computed, st.check .recordNref (computed = nref) "stale in-record account nref")
  -- a child in a record of its own is taken on trust
  | .overflow _ _ root, st => .ok (.hash root, st)
  | .raw buf off len nref, st => do
    let (computed, st) ← raw buf off len st
    return (computed, st.check .recordNref (computed = nref) "stale Raw header nref")

def Lazy.auditSlot (raw : Bytes → Nat → Nat → HashAudit → Except Err (NodeRef × HashAudit)) :
    Option Lazy.Node → HashAudit → Except Err (Option NodeRef × HashAudit)
  | none, st => .ok (none, st)
  | some child, st => do
    let (computed, st) ← Lazy.auditNode raw child st
    return (some computed, st)

end

/-- A serialized child, expanded one level; each lies further on in the buffer than the one it
is in, which bounds the fuel. -/
def Lazy.auditRaw : Nat → Bytes → Nat → Nat → HashAudit → Except Err (NodeRef × HashAudit)
  | 0, _, _, _, _ => .error .truncated
  | fuel + 1, buf, off, len, st => do
    let node ← Lazy.parseNodeLazy buf off len
    Lazy.auditNode (Lazy.auditRaw fuel) node st

/-- `audit_record_ref`. -/
def Lazy.auditRecordRef (node : Lazy.Node) (st : HashAudit) : Except Err (NodeRef × HashAudit) :=
  Lazy.auditNode (fun buf => Lazy.auditRaw (buf.length + 1) buf) node st

/-- The record read lazily. -/
def lazyAudit : RecordAudit := fun bytes => do
  let sub ← Lazy.deserializeSubtreeLazy bytes
  return (sub.pfx, Lazy.auditRecordRef sub.node)

mutual

/-- The same on a record node that was read whole. -/
def auditWholeRef : Node → HashAudit → Except Err (NodeRef × HashAudit)
  | .empty, st => .ok (.hash emptyHash, st)
  | .leaf path value nref, st => do
    let computed := leafRef path value
    return (computed, st.check .recordNref (computed = nref) "stale in-record leaf nref")
  | .extension path child nref, st => do
    let (cr, st) ← auditWholeRef child st
    let computed := extRef path cr
    return (computed, st.check .recordNref (computed = nref) "stale in-record ext nref")
  | .branch children nref, st => do
    let (refs, st) ← auditRefs (fun i => auditWholeSlot (children i)) (List.finRange 16) st
    let computed := branchRef refs
    return (computed, st.check .recordNref (computed = nref) "stale in-record branch nref")
  | .account path nonce balance codeHash storage storageRoot nref, st => do
    let (ref, st) ← auditWholeRef storage st
    let sr := ref.finalize
    let st := st.check .recordStorageRoot (sr = storageRoot)
      s!"stale in-record account storage_root: cached {hexText storageRoot} recomputed {hexText sr}"
    let computed := leafRef path (accountRlp nonce balance codeHash sr)
    return (computed, st.check .recordNref (computed = nref) "stale in-record account nref")

/-- A child that the lazy reader leaves serialized has a reference in its header, which is
checked too. -/
def auditWholeSlot : Option Node → HashAudit → Except Err (Option NodeRef × HashAudit)
  | none, st => .ok (none, st)
  | some child, st => do
    let (computed, st) ← auditWholeRef child st
    match child with
    | .leaf .. | .extension .. | .branch .. =>
      return (some computed, st.check .recordNref (computed = hashNode child) "stale Raw header nref")
    | _ => return (some computed, st)

end

/-- The record read whole. -/
def wholeAudit : RecordAudit := fun bytes => do
  let sub ← deserializeSubtree bytes
  return (sub.pfx, auditWholeRef sub.node)

/-! ## Frontier -/

/-- The children in slot order, one report after the other. -/
def auditSeq (walk : Nibble → HashAudit → Act (Option (Hash × HashAudit))) :
    List Nibble → HashAudit → Act ((Nibble → Option Hash) × HashAudit)
  | [], st => Act.ok (fun _ => none, st)
  | i :: rest, st =>
    attempt (walk i st) .error fun r =>
    attempt (auditSeq walk rest ((r.map Prod.snd).getD st)) .error fun more =>
    Act.ok (Function.update more.1 i (r.map Prod.fst), more.2)

/-- Two joined threads: a panic of either, else the first error, else both results. -/
def joinBoth {α β γ : Type} (f : α → β → γ) (r : Except Err α) (more : Except Err β) : Except Err γ :=
  if isPanic r || isPanic more then .error .panic
  else do
    let a ← r
    let b ← more
    return f a b

/-- The children on threads of their own, each with its own report. -/
def auditJoin (walk : Nibble → Act (Option (Hash × HashAudit))) :
    List Nibble → Act (List (Nibble × Hash × HashAudit))
  | [] => Act.ok []
  | i :: rest =>
    (walk i).bind fun r =>
    (auditJoin walk rest).bind fun more =>
    .pure (joinBoth (fun r more => (r.map (i, ·)).toList ++ more) r more)

/-- The hashes of the children, and their reports merged in slot order. -/
def mergeAudits (results : List (Nibble × Hash × HashAudit)) (st : HashAudit) :
    (Nibble → Option Hash) × HashAudit :=
  (fun i => (results.find? fun r => r.1 = i).map fun r => r.2.1,
    results.foldl (fun st r => st.merge r.2.2) st)

/-- The children of a branch, on threads for `levels` levels. -/
def auditBranch (walk : Nibble → HashAudit → Nat → Act (Option (Hash × HashAudit)))
    (st : HashAudit) : Nat → Act ((Nibble → Option Hash) × HashAudit)
  | 0 => auditSeq (fun i st => walk i st 0) (List.finRange 16) st
  | levels + 1 =>
    attempt (auditJoin (fun i => walk i {} levels) (List.finRange 16)) .error fun results =>
    Act.ok (mergeAudits results st)

/-- A record against its position and the root beside it. -/
def auditRecord (look : RecordAudit) (bytes : Bytes) (pfx : List Nibble) (root : Hash) (layer : Layer)
    (prefixText : List Nibble → String) (rootText : Hash → String) (st : HashAudit) :
    Except Err (Option (Hash × HashAudit)) := do
  let (carried, ref) ← look bytes
  let (r, st) ← ref (st.check .pfx (carried = pfx) (prefixText carried))
  let computed := r.finalize
  return some (computed, st.check layer (computed = root) (rootText computed))

mutual

/-- A frontier node's hash from scratch, its cache checked. -/
def auditRamNode (look : RecordAudit) : RamNode → List Nibble → HashAudit → Nat → Act (Hash × HashAudit)
  | .empty, _, st, _ => Act.ok (emptyHash, st)
  | .extension path child hash, pfx, st, levels =>
    attempt (auditRamNode look child (pfx ++ path)
      { st with frontierNodes := st.frontierNodes + 1 } levels) .error fun r =>
    let computed := (extRef path (.hash r.1)).finalize
    Act.ok (computed, r.2.check .cell (hash.all (· = computed))
      s!"stale ext HashCell at [{nibHex pfx}]")
  | .branch children hash, pfx, st, levels =>
    attempt (auditBranch (fun i st levels => auditRamChild look (children i) (pfx ++ [i]) st levels)
      { st with frontierNodes := st.frontierNodes + 1 } levels) .error fun r =>
    let computed := (branchRef fun i => (r.1 i).map .hash).finalize
    Act.ok (computed, r.2.check .cell (hash.all (· = computed))
      s!"stale branch HashCell at [{nibHex pfx}]")

/-- A frontier child's hash from scratch; the root beside a record and the prefix in it are
checked. -/
def auditRamChild (look : RecordAudit) : RamSlot → List Nibble → HashAudit → Nat → Act (Option (Hash × HashAudit))
  | .none, _, _, _ => Act.ok none
  | .ram node, pfx, st, levels => attempt (auditRamNode look node pfx st levels) .error fun r => Act.ok (some r)
  | .mem bytes root, pfx, st, _ =>
    .pure (auditRecord look bytes pfx root .memRoot
      (fun carried => s!"Mem record at [{nibHex pfx}] carries prefix [{nibHex carried}]")
      (fun computed => s!"Mem root at [{nibHex pfx}]: cached {hexText root} recomputed {hexText computed}")
      { st with memLeaves := st.memLeaves + 1 })
  | .disk ptr root, pfx, st, _ =>
    attempt (Prog.ask (Req.read ptr)) .error fun bytes =>
    .pure (auditRecord look bytes pfx root .diskRoot
      (fun carried => s!"Disk record at [{nibHex pfx}] (unit {ptr.unit}) carries prefix [{nibHex carried}]")
      (fun computed => s!"Disk root at [{nibHex pfx}] (unit {ptr.unit}): " ++
        s!"cached {hexText root} recomputed {hexText computed}")
      { st with diskLeaves := st.diskLeaves + 1 })
  | .account path nonce balance codeHash storage, pfx, st, _ =>
    -- storage records carry the account's 64 nibbles before their own
    attempt (auditRamNode look storage (pfx ++ path) { st with accounts := st.accounts + 1 } 0) .error fun r =>
    Act.ok (some ((leafRef path (accountRlp nonce balance codeHash r.1)).finalize, r.2))

end

/-- The audit of a whole frontier. -/
def auditHashes (look : RecordAudit) (upper : RamNode) : Act HashAudit :=
  attempt (auditRamNode look upper [] {} 2) .error fun r => Act.ok { r.2 with trueRoot := r.1 }

/-! ## What a clean report stands for -/

/-- What the bytes of records stand for. -/
structure RecordSpec where
  /-- The root recomputed from the bytes. -/
  root : Bytes → Hash
  /-- The bytes are a record for the position `pfx` with the references it should have, its root
  beside it. -/
  Holds : (pfx : List Nibble) → Bytes → (root : Hash) → Prop
  root_eq : ∀ {pfx bytes h}, Holds pfx bytes h → root bytes = h

variable (R : RecordSpec)

mutual

/-- The frontier without its caches, each record's root taken from its bytes. -/
def refreshed (s : Store) : RamNode → RamNode
  | .empty => .empty
  | .extension path child _ => .extension path (refreshed s child) none
  | .branch children _ => .branch (fun i => refreshedSlot s (children i)) none

def refreshedSlot (s : Store) : RamSlot → RamSlot
  | .none => .none
  | .ram node => .ram (refreshed s node)
  | .disk ptr _ => .disk ptr (R.root (s.payload ptr))
  | .mem bytes _ => .mem bytes (R.root bytes)
  | .account path nonce balance codeHash storage =>
    .account path nonce balance codeHash (refreshed s storage)

end

mutual

/-- Every hash cell is empty or holds the hash of the refreshed node, and every record holds. -/
def UpToDate (s : Store) : RamNode → List Nibble → Prop
  | .empty, _ => True
  | .extension path child hash, pfx =>
    UpToDate s child (pfx ++ path) ∧
      ∀ h, hash = some h → h = hashRam (refreshed R s (.extension path child none))
  | .branch children hash, pfx =>
    (∀ i, UpToDateSlot s (children i) (pfx ++ [i])) ∧
      ∀ h, hash = some h → h = hashRam (refreshed R s (.branch children none))

def UpToDateSlot (s : Store) : RamSlot → List Nibble → Prop
  | .none, _ => True
  | .ram node, pfx => UpToDate s node pfx
  | .disk ptr root, pfx => R.Holds pfx (s.payload ptr) root
  | .mem bytes root, pfx => R.Holds pfx bytes root
  | .account path _ _ _ storage, pfx => UpToDate s storage (pfx ++ path)

end

variable {R}

mutual

/-- Up-to-date caches are not seen in the root. -/
theorem UpToDate.hash {s : Store} (n : RamNode) {pfx : List Nibble} (h : UpToDate R s n pfx) :
    hashRam n = hashRam (refreshed R s n) := by
  match n with
  | .empty => rfl
  | .extension path child hash =>
    unfold UpToDate at h
    cases hash with
    | some c => exact h.2 c rfl
    | none =>
      rw [refreshed, hashRam, hashRam, UpToDate.hash child h.1]
  | .branch children hash =>
    unfold UpToDate at h
    cases hash with
    | some c => exact h.2 c rfl
    | none =>
      rw [refreshed, hashRam, hashRam]
      refine congrArg (fun f => (none.getD (branchRef f).finalize)) (funext fun i => ?_)
      rw [UpToDateSlot.hash (children i) (h.1 i)]

theorem UpToDateSlot.hash {s : Store} (slot : RamSlot) {pfx : List Nibble} (h : UpToDateSlot R s slot pfx) :
    ramChildHash slot = ramChildHash (refreshedSlot R s slot) := by
  match slot with
  | .none => rfl
  | .ram node =>
    unfold UpToDateSlot at h
    rw [refreshedSlot, ramChildHash, ramChildHash, UpToDate.hash node h]
  | .disk ptr root =>
    unfold UpToDateSlot at h
    rw [refreshedSlot, ramChildHash, ramChildHash, R.root_eq h]
  | .mem bytes root =>
    unfold UpToDateSlot at h
    rw [refreshedSlot, ramChildHash, ramChildHash, R.root_eq h]
  | .account path nonce balance codeHash storage =>
    unfold UpToDateSlot at h
    rw [refreshedSlot, ramChildHash, ramChildHash, UpToDate.hash storage h]

end

/-! ## Counting -/

omit [Keccak] in
theorem clean_sample (st : HashAudit) (text : String) : (st.sample text).clean = st.clean := by
  unfold HashAudit.sample
  split <;> rfl

omit [Keccak] in
theorem clean_bump (st : HashAudit) (layer : Layer) : (st.bump layer).clean = false := by
  cases layer <;> simp [HashAudit.bump, HashAudit.clean]

omit [Keccak] in
theorem clean_check (st : HashAudit) (layer : Layer) (agrees : Bool) (text : String) :
    (st.check layer agrees text).clean = (st.clean && agrees) := by
  cases agrees with
  | true => exact (Bool.and_true _).symm
  | false =>
    rw [Bool.and_false]
    exact (clean_sample _ _).trans (clean_bump st layer)

omit [Keccak] in
theorem clean_merge (st o : HashAudit) : (st.merge o).clean = (st.clean && o.clean) := by
  have hfold : ∀ (samples : List String) (acc : HashAudit),
      (samples.foldl HashAudit.sample acc).clean = acc.clean := by
    intro samples
    induction samples with
    | nil => exact fun _ => rfl
    | cons text samples ih => exact fun acc => (ih _).trans (clean_sample acc text)
  unfold HashAudit.merge
  rw [hfold, Bool.eq_iff_iff]
  simp only [HashAudit.clean, Bool.and_eq_true, decide_eq_true_eq]
  omega

/-- An audit of a part: what it recomputes, and when it leaves the report clean. -/
def Judges {α : Type} (r : α × HashAudit) (st : HashAudit) (a : α) (E : Prop) : Prop :=
  r.1 = a ∧ (r.2.clean ↔ st.clean ∧ E)

/-- The same of an audit that may end in an error, with the value and the report in what it
returns. -/
structure Verdict {α β : Type} (x : Except Err β) (view : β → α × HashAudit) (st : HashAudit) (a : α)
    (E : Prop) : Prop where
  total : E → ∃ b, x = .ok b
  judges : ∀ b, x = .ok b → Judges (view b) st a E

/-- The hash and the report of a slot; an absent one leaves the report as it is. -/
def reportOr (st : HashAudit) (o : Option (Hash × HashAudit)) : Option Hash × HashAudit :=
  (o.map Prod.fst, (o.map Prod.snd).getD st)

/-- A record audit recomputes the root, and finds nothing exactly if the record holds. -/
def RecordAudit.Finds (look : RecordAudit) (R : RecordSpec) : Prop :=
  ∀ bytes pfx root layer prefixText rootText st st',
    Verdict (auditRecord look bytes pfx root layer prefixText rootText st) (reportOr st') st
      (some (R.root bytes)) (R.Holds pfx bytes root)

/-! ## Frontiers -/

variable {α β γ : Type}

/-- The same of a program, where no I/O call fails; `view` reads the value and the report off
what it returns. -/
def Audits (s : Store) (p : Act β) (view : β → α × HashAudit) (st : HashAudit) (a : α) (E : Prop) :
    Prop :=
  ∃ r, run exec p s.healthy = (r, s.healthy) ∧ Verdict r view st a E

omit [Keccak] in
theorem Audits.ok {s : Store} {b : β} {view : β → α × HashAudit} {st : HashAudit} {a : α} {E : Prop}
    (h : Judges (view b) st a E) : Audits s (Act.ok b) view st a E := by
  refine ⟨.ok b, rfl, fun _ => ⟨b, rfl⟩, ?_⟩
  rintro _ ⟨⟩
  exact h

omit [Keccak] in
theorem Audits.mono {s : Store} {p : Act β} {view : β → α × HashAudit} {st st' : HashAudit} {a a' : α}
    {E E' : Prop} (h : Audits s p view st a E) (hst : st.clean = st'.clean) (ha : a = a') (hE : E ↔ E') :
    Audits s p view st' a' E' := by
  obtain ⟨r, hrun, htotal, hjudges⟩ := h
  refine ⟨r, hrun, fun he => htotal (hE.mpr he), fun b hb => ?_⟩
  obtain ⟨hval, hclean⟩ := hjudges b hb
  exact ⟨hval.trans ha, by rw [hclean, hst, hE]⟩

omit [Keccak] in
/-- Counts of what was visited do not matter. -/
theorem Audits.of_clean {s : Store} {p : Act β} {view : β → α × HashAudit} (st : HashAudit)
    {st' : HashAudit} {a : α} {E : Prop} (h : Audits s p view st a E) (hst : st.clean = st'.clean) :
    Audits s p view st' a E :=
  h.mono hst rfl Iff.rfl

omit [Keccak] in
/-- One audit after the other. -/
theorem Audits.attempt {α' : Type} {s : Store} {p : Act β} {k : β → Act γ} {view : β → α × HashAudit}
    {view' : γ → α' × HashAudit} {st : HashAudit} {a : α} {a' : α'} {E E' : Prop}
    (h : Audits s p view st a E) (hk : ∀ b, (view b).1 = a → Audits s (k b) view' (view b).2 a' E') :
    Audits s (attempt p .error k) view' st a' (E ∧ E') := by
  obtain ⟨r, hrun, htotal, hjudges⟩ := h
  unfold FlatMpt.attempt
  cases r with
  | error e =>
    refine ⟨.error e, by rw [run_bind, hrun]; rfl, fun he => ?_, fun b hb => (by cases hb)⟩
    obtain ⟨b, hb⟩ := htotal he.1
    cases hb
  | ok b =>
    obtain ⟨hval, hclean⟩ := hjudges b rfl
    obtain ⟨r', hrun', htotal', hjudges'⟩ := hk b hval
    refine ⟨r', by rw [run_bind, hrun]; exact hrun', fun he => htotal' he.2, fun c hc => ?_⟩
    obtain ⟨hval', hclean'⟩ := hjudges' c hc
    exact ⟨hval', by rw [hclean', hclean, and_assoc]⟩

omit [Keccak] in
/-- What is returned is made of what the audit returned, the report left as it is. -/
theorem Audits.map {α' : Type} {s : Store} {p : Act β} {f : β → γ} {view : β → α × HashAudit}
    {view' : γ → α' × HashAudit} {st : HashAudit} {a : α} {a' : α'} {E : Prop} (h : Audits s p view st a E)
    (hval : ∀ b, (view b).1 = a → (view' (f b)).1 = a') (hst : ∀ b, (view' (f b)).2 = (view b).2) :
    Audits s (FlatMpt.attempt p .error fun b => Act.ok (f b)) view' st a' E := by
  refine (h.attempt fun b hb => Audits.ok (E := True) ⟨hval b hb, ?_⟩).mono rfl rfl (and_iff_left trivial)
  rw [hst b, and_iff_left trivial]

omit [Keccak] in
theorem auditSeq_audits {s : Store} {walk : Nibble → HashAudit → Act (Option (Hash × HashAudit))}
    {hashes : Nibble → Option Hash} {E : Nibble → Prop}
    (h : ∀ i st, Audits s (walk i st) (reportOr st) st (hashes i) (E i)) (is : List Nibble)
    (st : HashAudit) : Audits s (auditSeq walk is st) id st (fun i => if i ∈ is then hashes i else none)
      (∀ i ∈ is, E i) := by
  induction is generalizing st with
  | nil =>
    refine Audits.ok ⟨rfl, ?_⟩
    show st.clean ↔ _
    simp
  | cons i is ih =>
    rw [auditSeq]
    have hrest (o : Option (Hash × HashAudit)) (ho : (reportOr st o).1 = hashes i) :
        Audits s (attempt (auditSeq walk is ((o.map Prod.snd).getD st)) .error fun more =>
            Act.ok (Function.update more.1 i (o.map Prod.fst), more.2)) id ((o.map Prod.snd).getD st)
          (fun j => if j ∈ i :: is then hashes j else none) (∀ j ∈ is, E j) := by
      refine (ih _).map (fun more hmore => ?_) fun _ => rfl
      show Function.update more.1 i (o.map Prod.fst) = _
      rw [show more.1 = _ from hmore, show o.map Prod.fst = _ from ho]
      funext j
      by_cases hj : j = i
      · subst hj
        rw [Function.update_self, if_pos List.mem_cons_self]
      · rw [Function.update_of_ne hj]
        simp only [List.mem_cons, hj, false_or]
    exact ((h i st).attempt hrest).mono rfl rfl List.forall_mem_cons.symm

/-- What the joined threads of the slots `is` return. -/
structure Joined (hashes : Nibble → Option Hash) (E : Nibble → Prop) (is : List Nibble)
    (r : Except Err (List (Nibble × Hash × HashAudit))) : Prop where
  total : (∀ i ∈ is, E i) → ∃ results, r = .ok results
  hash : ∀ results, r = .ok results → ∀ i,
    ((results.find? fun x => x.1 = i).map fun x => x.2.1) = if i ∈ is then hashes i else none
  clean : ∀ results, r = .ok results → ((∀ x ∈ results, x.2.2.clean) ↔ ∀ i ∈ is, E i)

omit [Keccak] in
/-- Threads of which one fails do not return. -/
theorem joinBoth_error {α' β' : Type} (f : α' → β' → γ) {r : Except Err α'} {more : Except Err β'}
    (h : (∃ e, r = .error e) ∨ ∃ e, more = .error e) : ∃ e, joinBoth f r more = .error e := by
  unfold joinBoth
  split
  · exact ⟨_, rfl⟩
  · rcases h with ⟨e, rfl⟩ | ⟨e, rfl⟩
    · exact ⟨e, rfl⟩
    · cases r with
      | error e' => exact ⟨e', rfl⟩
      | ok a => exact ⟨e, rfl⟩

omit [Keccak] in
/-- Threads that do not return judge nothing. -/
theorem Joined.of_error {hashes : Nibble → Option Hash} {E : Nibble → Prop} {is : List Nibble}
    {r : Except Err (List (Nibble × Hash × HashAudit))} (hr : ∃ e, r = .error e)
    (h : ¬ ∀ i ∈ is, E i) : Joined hashes E is r := by
  obtain ⟨e, rfl⟩ := hr
  exact ⟨fun he => absurd he h, nofun, nofun⟩

omit [Keccak] in
theorem auditJoin_joined {s : Store} {walk : Nibble → Act (Option (Hash × HashAudit))}
    {hashes : Nibble → Option Hash} {E : Nibble → Prop}
    (h : ∀ i, Audits s (walk i) (reportOr {}) {} (hashes i) (E i)) (is : List Nibble) :
    ∃ r, run exec (auditJoin walk is) s.healthy = (r, s.healthy) ∧ Joined hashes E is r := by
  induction is with
  | nil =>
    refine ⟨.ok [], rfl, fun _ => ⟨[], rfl⟩, ?_, ?_⟩
    · rintro _ ⟨⟩ i
      rfl
    · rintro _ ⟨⟩
      simp
  | cons i is ih =>
    obtain ⟨r, hrun, htotal, hjudges⟩ := h i
    obtain ⟨r', hrun', hjoined⟩ := ih
    refine ⟨_, by rw [auditJoin, run_bind, hrun, run_bind, hrun']; rfl, ?_⟩
    cases r with
    | error e =>
      refine .of_error (joinBoth_error _ (.inl ⟨e, rfl⟩)) fun he => ?_
      obtain ⟨b, hb⟩ := htotal (he i List.mem_cons_self)
      cases hb
    | ok o =>
      cases r' with
      | error e =>
        refine .of_error (joinBoth_error _ (.inr ⟨e, rfl⟩)) fun he => ?_
        obtain ⟨b, hb⟩ := hjoined.total fun j hj => he j (List.mem_cons_of_mem i hj)
        cases hb
      | ok more =>
        obtain ⟨hval, hclean⟩ := hjudges o rfl
        have hmore := hjoined.hash more rfl
        have hall := hjoined.clean more rfl
        refine ⟨fun _ => ⟨_, rfl⟩, ?_, ?_⟩
        · rintro _ ⟨⟩ j
          have hnone : hashes i = none → (if j ∈ i :: is then hashes j else none) =
              if j ∈ is then hashes j else none := by
            intro hn
            by_cases hj : j = i
            · subst hj
              rw [if_pos List.mem_cons_self, hn, ite_self]
            · simp only [List.mem_cons, hj, false_or]
          cases o with
          | none => rw [hnone hval.symm, ← hmore j]; rfl
          | some x =>
            show (((i, x) :: more).find? fun y => y.1 = j).map _ = _
            rw [List.find?_cons]
            by_cases hj : i = j
            · subst hj
              rw [decide_eq_true rfl, if_pos List.mem_cons_self]
              exact hval
            · rw [decide_eq_false hj]
              show (more.find? _).map _ = _
              rw [hmore j]
              simp only [List.mem_cons, Ne.symm hj, false_or]
        · rintro _ ⟨⟩
          rw [List.forall_mem_cons, ← hall]
          cases o with
          | none =>
            have hE : E i := (hclean.mp rfl).2
            exact (and_iff_right hE).symm
          | some x =>
            show (∀ y ∈ (i, x) :: more, _) ↔ _
            rw [List.forall_mem_cons]
            exact and_congr_left fun _ => hclean.trans (and_iff_right rfl)

omit [Keccak] in
theorem clean_mergeAudits (results : List (Nibble × Hash × HashAudit)) (st : HashAudit) :
    (mergeAudits results st).2.clean ↔ st.clean ∧ ∀ x ∈ results, x.2.2.clean := by
  show (results.foldl _ st).clean ↔ _
  induction results generalizing st with
  | nil => simp
  | cons x results ih =>
    rw [List.foldl_cons, ih, clean_merge, Bool.and_eq_true, List.forall_mem_cons, and_assoc]

omit [Keccak] in
/-- The threads of a branch, their reports merged. -/
theorem join_audits {s : Store} {walk : Nibble → Act (Option (Hash × HashAudit))}
    {hashes : Nibble → Option Hash} {E : Nibble → Prop}
    (h : ∀ i, Audits s (walk i) (reportOr {}) {} (hashes i) (E i)) (st : HashAudit) :
    Audits s (attempt (auditJoin walk (List.finRange 16)) .error fun results =>
        Act.ok (mergeAudits results st)) id st hashes (∀ i, E i) := by
  obtain ⟨r, hrun, hjoined⟩ := auditJoin_joined h (List.finRange 16)
  obtain ⟨htotal, hhash, hclean⟩ := hjoined
  simp only [List.mem_finRange, if_true, true_imp_iff] at htotal hhash hclean
  unfold attempt
  cases r with
  | error e =>
    refine ⟨.error e, by rw [run_bind, hrun]; rfl, fun he => ?_, fun b hb => (by cases hb)⟩
    obtain ⟨b, hb⟩ := htotal he
    cases hb
  | ok results =>
    refine ⟨.ok (mergeAudits results st), by rw [run_bind, hrun]; rfl, fun _ => ⟨_, rfl⟩, ?_⟩
    rintro _ ⟨⟩
    exact ⟨funext (hhash results rfl), (clean_mergeAudits results st).trans
      (and_congr_right fun _ => hclean results rfl)⟩

omit [Keccak] in
/-- On threads or in sequence, the children are judged alike. -/
theorem branch_audits {s : Store} {walk : Nibble → HashAudit → Nat → Act (Option (Hash × HashAudit))}
    {hashes : Nibble → Option Hash} {E : Nibble → Prop}
    (h : ∀ i st levels, Audits s (walk i st levels) (reportOr st) st (hashes i) (E i)) (st : HashAudit)
    (levels : Nat) : Audits s (auditBranch walk st levels) id st hashes (∀ i, E i) := by
  cases levels with
  | zero =>
    refine (auditSeq_audits (fun i st => h i st 0) (List.finRange 16) st).mono rfl ?_ ?_
    · simp only [List.mem_finRange, if_true]
    · simp only [List.mem_finRange, true_imp_iff]
  | succ levels => exact join_audits (fun i => h i {} levels) st

omit [Keccak] in
/-- A record read and what becomes of its bytes. -/
theorem run_read (s : Store) (ptr : DiskPtr) (f : Bytes → Except Err β) :
    run exec (attempt (Prog.ask (Req.read ptr)) .error fun bytes => .pure (f bytes)) s.healthy =
      (f (s.payload ptr), s.healthy) := by
  unfold attempt Prog.ask
  show run exec (.step (.read ptr) _) s.healthy = _
  rw [run, read_healthy]
  rfl

omit [Keccak] in
/-- A hash cell against the hash recomputed. -/
theorem judges_cell {computed fresh : Hash} (h : computed = fresh) (st : HashAudit) (cell : Option Hash)
    (text : String) : Judges (id (computed, st.check .cell (cell.all (· = computed)) text)) st fresh
      (∀ c, cell = some c → c = fresh) := by
  subst h
  refine ⟨rfl, ?_⟩
  show (st.check _ _ _).clean ↔ _
  rw [clean_check, Bool.and_eq_true]
  refine and_congr_right fun _ => ?_
  cases cell with
  | none => simp
  | some c => simp

variable {look : RecordAudit}

mutual

/-- **The audit of a frontier** recomputes the hash of the refreshed frontier, and finds nothing
exactly if every cache is up to date. -/
theorem auditRamNode_audits (hlook : look.Finds R) (s : Store) (n : RamNode) (pfx : List Nibble) (st : HashAudit) (levels : Nat) :
    Audits s (auditRamNode look n pfx st levels) id st (hashRam (refreshed R s n))
      (UpToDate R s n pfx) := by
  match n with
  | .empty => exact Audits.ok ⟨rfl, by rw [UpToDate, and_iff_left trivial]; rfl⟩
  | .extension path child hash =>
    rw [auditRamNode, UpToDate]
    refine Audits.of_clean { st with frontierNodes := st.frontierNodes + 1 } ?_ rfl
    refine (auditRamNode_audits hlook s child (pfx ++ path) _ levels).attempt fun r hr => Audits.ok ?_
    refine judges_cell (show (extRef path (.hash r.1)).finalize = _ from ?_) r.2 hash _
    rw [show r.1 = _ from hr]
    rfl
  | .branch children hash =>
    rw [auditRamNode, UpToDate]
    refine Audits.of_clean { st with frontierNodes := st.frontierNodes + 1 } ?_ rfl
    have hjoin := branch_audits (s := s)
      (fun i st levels => auditRamChild_audits hlook s (children i) (pfx ++ [i]) st levels)
    refine Audits.attempt (hjoin _ _) fun r hr => Audits.ok ?_
    refine judges_cell (show (branchRef fun i => (r.1 i).map .hash).finalize = _ from ?_) r.2 hash _
    rw [show r.1 = _ from hr]
    rfl

theorem auditRamChild_audits (hlook : look.Finds R) (s : Store) (slot : RamSlot) (pfx : List Nibble) (st : HashAudit)
    (levels : Nat) :
    Audits s (auditRamChild look slot pfx st levels) (reportOr st) st (ramChildHash (refreshedSlot R s slot))
      (UpToDateSlot R s slot pfx) := by
  match slot with
  | .none => exact Audits.ok ⟨rfl, by rw [UpToDateSlot, and_iff_left trivial]; rfl⟩
  | .ram node =>
    rw [auditRamChild, UpToDateSlot, refreshedSlot, ramChildHash]
    exact (auditRamNode_audits hlook s node pfx st levels).map (fun r hr => congrArg some hr) fun _ => rfl
  | .mem bytes root =>
    rw [auditRamChild, UpToDateSlot, refreshedSlot, ramChildHash]
    refine Audits.of_clean { st with memLeaves := st.memLeaves + 1 } ?_ rfl
    exact ⟨_, rfl, hlook bytes pfx root .memRoot _ _ _ st⟩
  | .disk ptr root =>
    rw [auditRamChild, UpToDateSlot, refreshedSlot, ramChildHash]
    refine Audits.of_clean { st with diskLeaves := st.diskLeaves + 1 } ?_ rfl
    exact ⟨_, run_read s ptr _, hlook (s.payload ptr) pfx root .diskRoot _ _ _ st⟩
  | .account path nonce balance codeHash storage =>
    rw [auditRamChild, UpToDateSlot, refreshedSlot, ramChildHash]
    refine Audits.of_clean { st with accounts := st.accounts + 1 } ?_ rfl
    refine (auditRamNode_audits hlook s storage (pfx ++ path) _ 0).map (fun r hr => ?_) fun _ => rfl
    rw [← show r.1 = _ from hr]
    rfl

end

/-- The audit of a frontier, when no I/O call fails. -/
def audit (look : RecordAudit) (s : Store) (n : RamNode) : Except Err HashAudit :=
  (run exec (auditHashes look n) s.healthy).1

/-- The audit ends if every cache is up to date; the root is the one recomputed, and the report is
clean exactly then. -/
theorem audit_run (hlook : look.Finds R) (s : Store) (n : RamNode) :
    (UpToDate R s n [] → ∃ st, audit look s n = .ok st) ∧ ∀ st, audit look s n = .ok st →
      st.trueRoot = hashRam (refreshed R s n) ∧ (st.clean ↔ UpToDate R s n []) := by
  obtain ⟨r, hrun, htotal, hjudges⟩ := auditRamNode_audits hlook s n [] {} 2
  have haudit : audit look s n = r.bind fun x => .ok { x.2 with trueRoot := x.1 } := by
    unfold audit auditHashes attempt
    rw [run_bind, hrun]
    cases r <;> rfl
  refine ⟨fun h => ?_, fun st hst => ?_⟩
  · obtain ⟨x, hx⟩ := htotal h
    exact ⟨_, by rw [haudit, hx]; rfl⟩
  · cases r with
    | error e =>
      rw [haudit] at hst
      cases hst
    | ok x =>
      obtain ⟨hval, hclean⟩ := hjudges x rfl
      rw [haudit] at hst
      cases hst
      exact ⟨hval, hclean.trans (and_iff_right rfl)⟩


end

end FlatMpt
