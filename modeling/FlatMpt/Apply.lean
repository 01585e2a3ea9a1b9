import FlatMpt.Reads

/-!
# Block application

One descent per account applies its whole net update: it splits like an insert
where the update creates, and collapses like a delete where it removes.  Every
change pushes the operations that undo it onto the inverse block.

    applyNetInRecord               -- one account inside one record
    applyRamGroup, applyGroupChild -- one account below a frontier node
    applyBlockTo                   -- a normalised block on the whole frontier
-/

namespace FlatMpt

open Radix (commonPrefix)

/-- An inverse block, as its operations are pushed. -/
abbrev Inverse := List (Key × StateOp)

section
variable [Keccak]

/-! ## Inside a record -/

/-- The operations that bring back an account's fields and slots. -/
def restoreAccount (key : Key) (nonce : UInt64) (balance : U256) (codeHash : Hash)
    (slots : List (Key × Bytes)) : Inverse :=
  (key, .wipeStorage) :: (key, .setAccount nonce balance codeHash) ::
    slots.map fun s => (key, .setStorage s.1 s.2)

/-- The inverse of one slot write. -/
def undoSlot (key slot : Key) (prior value : Option Bytes) : Inverse :=
  match prior, value with
  | some p, _ => [(key, .setStorage slot p)]
  | none, some _ => [(key, .deleteStorage slot)]
  | none, none => []

/-- The wipe of a net update. -/
def wipeInRecord (node : Node) (rest : List Nibble) (key : Key) (prior : Option Eth.Account) :
    Except Err (Node × Bool × Inverse) := do
  let slots ← nodeCollectStorage node rest
  let inv : Inverse := if prior.isNone then []
    else (key, .wipeStorage) :: slots.map fun s => (key, .setStorage s.1 s.2)
  -- no slots: storage is empty, or its root is folded into an opaque leaf
  let opaqueNonempty := slots.isEmpty && prior.any fun p => p.storageRoot ≠ Eth.EMPTY_ROOT
  if !slots.isEmpty || opaqueNonempty then
    let (node, out) ← recordNodeDelete node rest .wipeStorage
    return (node, out ≠ .absent, inv)
  else return (node, false, inv)

/-- The account outcome of a net update, deletes apart. -/
def setInRecord (node : Node) (rest : List Nibble) (key : Key) (prior : Option Eth.Account)
    (out : AccountOutcome) : Except Err (Node × Bool × Inverse) :=
  match out with
  | .set nonce balance codeHash => do
    let node ← recordNodeInsert node rest (.account nonce balance codeHash)
    return (node, true, match prior with
      | some p => [(key, .setAccount p.nonce p.balance p.codeHash)]
      | none => [])
  | _ => .ok (node, false, [])

/-- One final slot value. -/
def slotInRecord (node : Node) (rest : List Nibble) (key : Key) (created : Bool)
    (s : Key × Option Bytes) : Except Err (Node × Bool × Inverse) := do
  let inv := if created then [] else undoSlot key s.1 (nodeGetStorage node rest s.1) s.2
  match s.2 with
  | some value =>
    let node ← recordNodeInsert node rest (.storage s.1 value)
    return (node, true, inv)
  | none =>
    let (node, out) ← recordNodeDelete node rest (.storage s.1)
    return (node, out ≠ .absent, inv)

def slotsInRecord (node : Node) (rest : List Nibble) (key : Key) (created : Bool) :
    List (Key × Option Bytes) → Except Err (Node × Bool × Inverse)
  | [] => .ok (node, false, [])
  | s :: slots => do
    let (node, changed, inv) ← slotInRecord node rest key created s
    let (node, changed', inv') ← slotsInRecord node rest key created slots
    return (node, changed || changed', inv ++ inv')

/-- Apply one account's net update inside a record's node tree, in the order wipe,
account outcome, slots. -/
def applyNetInRecord (node : Node) (rest : List Nibble) (key : Key) (upd : NetUpdate) :
    Except Err (Node × NodeDelete × Inverse) := do
  let prior ← nodePriorAccount node rest
  if upd.account = .delete then
    match prior with
    | none => return (node, .absent, [])
    | some p =>
      let slots ← nodeCollectStorage node rest
      let (node, out) ← recordNodeDelete node rest .account
      return (node, out, restoreAccount key p.nonce p.balance p.codeHash slots)
  else
    let (node, wiped, invW) ←
      if upd.wipe then wipeInRecord node rest key prior else .ok (node, false, [])
    let (node, set, invA) ← setInRecord node rest key prior upd.account
    let (node, wrote, invS) ← slotsInRecord node rest key prior.isNone upd.slots
    let changed := wiped || set || wrote
    -- an account created by this block rolls back to absent
    let invD : Inverse := if prior.isNone && changed then [(key, .deleteAccount)] else []
    return (node, if changed then .changed else .absent, invW ++ invA ++ invS ++ invD)

/-! ## Finished children -/

/-- Turn a rebuilt subtree into a frontier child: promoted if over the caps, else one
record. -/
def finishChild (env : Env) (ram : Bool) (subtree : DiskSubtree) : Act RamSlot :=
  if shouldPromote env.cfg subtree then promoteToRam env ram subtree
  else if shouldPromoteAccount env.cfg subtree then
    promoteAccountToRam env (ram || env.hot) subtree
  else makeLeafChild env ram subtree

/-- A fresh child for an account that doesn't exist yet; `none` if nothing was
created. -/
def creationChild (env : Env) (ram : Bool) (childPrefix : List Nibble) (key : Key)
    (upd : NetUpdate) : Act (RamSlot × Inverse) :=
  attempt (.pure (applyNetInRecord .empty ((keyNibbles key).drop childPrefix.length) key upd)) .error
    fun (node, _, inv) =>
  match node with
  | .empty => Act.ok (.none, inv)
  | node =>
    attempt (finishChild env ram ⟨childPrefix, node⟩) .error fun slot => Act.ok (slot, inv)

/-! ## Promoted accounts -/

/-- A promoted account leaves the frontier; the inverse holds all of it. -/
def captureStorage (key : Key) (nonce : UInt64) (balance : U256) (codeHash : Hash)
    (storage : RamNode) : Act Inverse :=
  attempt (ramCollectStorage storage) .error fun slots =>
  (freeRamRecords storage).bind fun _ =>
  Act.ok (restoreAccount key nonce balance codeHash slots)

/-- An account in record form again, with the rest of its update. -/
def demoteAccount (env : Env) (ram : Bool) (pfx : List Nibble) (key : Key) (account : Node)
    (upd : NetUpdate) : Act (RamSlot × Inverse) :=
  attempt (.pure (applyNetInRecord account ((keyNibbles key).drop pfx.length) key upd)) .error
    fun (node, _, inv) =>
  attempt (finishChild env ram ⟨pfx, node⟩) .error fun slot => Act.ok (slot, inv)

/-- What the slots before contributed to an outcome. -/
def afterSlot (changed : Bool) (inv : Inverse) (p : Upd RamSlot (Bool × Inverse)) :
    Upd RamSlot (Bool × Inverse) :=
  p.bind fun r => .pure (r.1, r.2.map fun out => (changed || out.1, inv ++ out.2))

/-- The slots of a net update on a promoted account.  When storage falls below the
promoted form, the rest runs on the record form. -/
def applySlots (env : Env) (ram : Bool) (pfx : List Nibble) (key : Key) (path : List Nibble)
    (nonce : UInt64) (balance : U256) (codeHash : Hash) :
    List (Key × Option Bytes) → RamNode → Upd RamSlot (Bool × Inverse)
  | [], storage => .pure (.account path nonce balance codeHash storage, .ok (false, []))
  | (slot, value) :: rest, storage =>
    attempt (ramGet storage (keyNibbles slot) 0)
      (fun e => (.account path nonce balance codeHash storage, .error e)) fun prior =>
    let inv := undoSlot key slot prior value
    match value with
    | some value =>
      thenUpd (insertRam env storage (keyNibbles key) slot (.value value) false) fun storage r =>
      match r with
      | .error e => .pure (.account path nonce balance codeHash storage, .error e)
      | .ok () =>
        afterSlot true inv (applySlots env ram pfx key path nonce balance codeHash rest storage)
    | none =>
      thenUpd (deleteRam env storage (keyNibbles key) slot .value false) fun storage r =>
      match r with
      | .error e => .pure (.account path nonce balance codeHash storage, .error e)
      | .ok .absent =>
        afterSlot false inv (applySlots env ram pfx key path nonce balance codeHash rest storage)
      | .ok .changed =>
        afterSlot true inv (applySlots env ram pfx key path nonce balance codeHash rest storage)
      | .ok out =>
        attempt (demotedStorage out) (fun e => (.none, .error e)) fun storageNode =>
        attempt (demoteAccount env ram pfx key
            (accountNode path nonce balance codeHash storageNode) ⟨false, .keep, rest⟩)
          (fun e => (.none, .error e)) fun (slot, inv') =>
        .pure (slot, .ok (true, inv ++ inv'))

/-- A net update on the promoted account it names. -/
def applyPromoted (env : Env) (ram : Bool) (pfx : List Nibble) (key : Key) (upd : NetUpdate)
    (path : List Nibble) (nonce : UInt64) (balance : U256) (codeHash : Hash) (storage : RamNode) :
    Upd RamSlot (RamDelete × Inverse) :=
  if upd.account = .delete then
    attempt (captureStorage key nonce balance codeHash storage) (fun e => (.none, .error e))
      fun inv => .pure (.none, .ok (.removed, inv))
  else if upd.wipe then
    attempt (captureStorage key nonce balance codeHash storage) (fun e => (.none, .error e))
      fun inv =>
    -- the inverse is complete; the rest of the update adds none
    attempt (demoteAccount env ram pfx key (accountNode path nonce balance codeHash .empty)
        ⟨false, upd.account, upd.slots⟩) (fun e => (.none, .error e)) fun (slot, _) =>
    .pure (slot, .ok (.changed, inv))
  else
    let finish (set : Bool) (inv : Inverse) (p : Upd RamSlot (Bool × Inverse)) :
        Upd RamSlot (RamDelete × Inverse) :=
      (afterSlot set inv p).bind fun r => .pure (r.1, r.2.map fun out =>
        (if out.1 then .changed else .absent, out.2))
    match upd.account with
    | .set nonce' balance' codeHash' =>
      finish true [(key, .setAccount nonce balance codeHash)]
        (applySlots env ram pfx key path nonce' balance' codeHash' upd.slots storage)
    | _ => finish false [] (applySlots env ram pfx key path nonce balance codeHash upd.slots storage)

/-! ## The descent -/

mutual

/-- Apply one account's net update below a frontier node. -/
def applyRamGroup (env : Env) : RamNode → List Nibble → Key → NetUpdate → (ram : Bool) →
    Upd RamNode (RamDelete × Inverse)
  | .empty, pfx, key, upd, ram =>
    if !upd.creates then .pure (.empty, .ok (.absent, []))
    else
      match (keyNibbles key)[pfx.length]? with
      | none => .pure (.empty, .error .panic)
      | some idx =>
        attempt (creationChild env ram (pfx ++ [idx]) key upd) (fun e => (.empty, .error e))
          fun (child, inv) =>
        if child.isSome then
          .pure (.branch (Function.update emptyChildren idx child) none, .ok (.changed, inv))
        else .pure (.empty, .ok (.absent, inv))
  | .extension path child hash, pfx, key, upd, ram =>
    let rest := (keyNibbles key).drop pfx.length
    let common := commonPrefix path rest
    if common < path.length then
      if !upd.creates then .pure (.extension path child hash, .ok (.absent, []))
      else
        match path.drop common, rest.drop common with
        | oldIdx :: oldRest, newIdx :: _ =>
          attempt (creationChild env ram (pfx ++ path.take common ++ [newIdx]) key upd)
            (fun e => (.empty, .error e)) fun (leaf, inv) =>
          .pure (underCommon path common (Function.update
            (Function.update emptyChildren oldIdx (.ram (wrapPath oldRest child))) newIdx leaf),
            .ok (.changed, inv))
        | _, _ => .pure (.empty, .error .panic)
    else
      thenUpd (applyRamGroup env child (pfx ++ path) key upd ram) fun child r =>
      match r with
      | .error e => .pure (.empty, .error e)
      | .ok (out, inv) =>
        let (node, out) := afterExtension path child hash out
        .pure (node, out.map fun out => (out, inv))
  | .branch children hash, pfx, key, upd, ram =>
    match (keyNibbles key)[pfx.length]? with
    | none => .pure (.empty, .error .panic)
    | some idx =>
      thenUpd (applyGroupChild env (children idx) (pfx ++ [idx]) key upd ram) fun slot r =>
      match r with
      | .error e => .pure (.empty, .error e)
      | .ok (out, inv) =>
        let (node, out) := afterChild (Function.update children idx slot) hash out
        .pure (node, out.map fun out => (out, inv))

/-- Apply one account's net update in a branch slot. -/
def applyGroupChild (env : Env) : RamSlot → List Nibble → Key → NetUpdate → (ram : Bool) →
    Upd RamSlot (RamDelete × Inverse)
  | .none, pfx, key, upd, ram =>
    if !upd.creates then .pure (.none, .ok (.absent, []))
    else
      attempt (creationChild env ram pfx key upd) (fun e => (.none, .error e)) fun (child, inv) =>
      .pure (child, .ok (if child.isSome then .changed else .absent, inv))
  | .ram sub, pfx, key, upd, ram =>
    thenUpd (applyRamGroup env sub pfx key upd ram) fun sub r =>
    match r with
    | .error e => .pure (.ram sub, .error e)
    | .ok (.absent, inv) => .pure (.ram sub, .ok (.absent, inv))
    | .ok (.changed, inv) => .pure (.ram sub, .ok (.changed, inv))
    | .ok (.removed, inv) => .pure (.none, .ok (.removed, inv))
    | .ok (.collapsed edge survivor, inv) =>
      attempt (rehomeChild env ram survivor edge pfx) (fun e => (.ram sub, .error e)) fun slot =>
      .pure (slot, .ok (.changed, inv))
  | .mem bytes root, _, key, upd, _ =>
    attempt (.pure (deserializeSubtree bytes)) (fun e => (.none, .error e)) fun subtree =>
    attempt (.pure (applyNetInRecord subtree.node
        ((keyNibbles key).drop (localDepth subtree.pfx)) key upd)) (fun e => (.none, .error e))
      fun (node, out, inv) =>
    match out with
    | .absent => .pure (.mem bytes root, .ok (.absent, inv))
    | .changed =>
      attempt (finishChild env true ⟨subtree.pfx, node⟩) (fun e => (.none, .error e)) fun slot =>
      .pure (slot, .ok (.changed, inv))
    | .removed => .pure (.none, .ok (.removed, inv))
  | .disk ptr root, _, key, upd, ram =>
    attempt (readLazy ptr) (fun e => (.disk ptr root, .error e)) fun subtree =>
    attempt (.pure (applyNetInRecord subtree.node ((keyNibbles key).drop subtree.pfx.length) key upd))
      (fun e => (.disk ptr root, .error e)) fun (node, out, inv) =>
    match out with
    | .absent => .pure (.disk ptr root, .ok (.absent, inv))
    | .changed =>
      .step (.free ptr) fun _ =>
      attempt (finishChild env (ram || env.hot) ⟨subtree.pfx, node⟩)
        (fun e => (.disk ptr root, .error e)) fun slot => .pure (slot, .ok (.changed, inv))
    | .removed => .step (.free ptr) fun _ => .pure (.none, .ok (.removed, inv))
  | .account path nonce balance codeHash storage, pfx, key, upd, ram =>
    let rest := (keyNibbles key).drop pfx.length
    if rest ≠ path then
      if !upd.creates then .pure (.account path nonce balance codeHash storage, .ok (.absent, []))
      else
        -- a different account: split into a frontier branch
        let common := commonPrefix path rest
        match path.drop common, rest.drop common with
        | oldIdx :: oldRest, newIdx :: _ =>
          attempt (creationChild env ram (pfx ++ rest.take (common + 1)) key upd)
            (fun e => (.none, .error e)) fun (leaf, inv) =>
          .pure (.ram (underCommon path common (Function.update
            (Function.update emptyChildren oldIdx (.account oldRest nonce balance codeHash storage))
            newIdx leaf)), .ok (.changed, inv))
        | _, _ => .pure (.none, .error .panic)
    else applyPromoted env ram pfx key upd path nonce balance codeHash storage

end

/-! ## The block -/

/-- Net updates of one top-level slot, in order. -/
def applyBucket (env : Env) (ram : Bool) (pfx : List Nibble) :
    List (Key × NetUpdate) → RamSlot → Upd RamSlot Inverse
  | [], slot => .pure (slot, .ok [])
  | (key, upd) :: rest, slot =>
    thenUpd (applyGroupChild env slot pfx key upd ram) fun slot r =>
    match r with
    | .error e => .pure (slot, .error e)
    | .ok (_, inv) =>
      thenUpd (applyBucket env ram pfx rest slot) fun slot r =>
      .pure (slot, r.map fun inv' => inv ++ inv')

/-- The net updates whose keys start with a nibble. -/
def bucketOf (net : List (Key × NetUpdate)) (i : Nibble) : List (Key × NetUpdate) :=
  net.filter fun e => (keyNibbles e.1).head? = some i

def isPanic {α : Type} : Except Err α → Bool
  | .error .panic => true
  | _ => false

def firstError {α : Type} : List (Except Err α) → Except Err (List α)
  | [] => .ok []
  | .error e :: _ => .error e
  | .ok a :: rest => (firstError rest).map (a :: ·)

/-- Join the workers: the panic of any of them, else the first error, else all
results in order. -/
def joinAll {α : Type} (rs : List (Except Err α)) : Except Err (List α) :=
  if rs.any isPanic then .error .panic else firstError rs

omit [Keccak] in
theorem firstError_ok {α : Type} {rs : List (Except Err α)} {as : List α} (h : firstError rs = .ok as) :
    rs = as.map .ok := by
  induction rs generalizing as with
  | nil =>
    cases h
    rfl
  | cons r rs ih =>
    cases r with
    | error e => cases h
    | ok a =>
      unfold firstError at h
      cases hr : firstError rs with
      | error e => rw [hr] at h; cases h
      | ok as' =>
        rw [hr] at h
        cases h
        rw [ih hr, List.map_cons]

omit [Keccak] in
theorem joinAll_ok {α : Type} {rs : List (Except Err α)} {as : List α} (h : joinAll rs = .ok as) :
    rs = as.map .ok := by
  unfold joinAll at h
  split at h
  · cases h
  · exact firstError_ok h

omit [Keccak] in
/-- No worker fails in a join that does not. -/
theorem joinAll_each {α : Type} {n : Nat} {rs : Fin n → Except Err α} {as : List α}
    (h : joinAll (List.ofFn rs) = .ok as) (i : Fin n) : ∃ a, rs i = .ok a := by
  obtain ⟨a, -, ha⟩ := List.mem_map.mp
    (joinAll_ok h ▸ List.mem_ofFn.mpr ⟨i, rfl⟩ : rs i ∈ as.map Except.ok)
  exact ⟨a, ha.symm⟩

omit [Keccak] in
/-- The error of a join is that of a worker. -/
theorem joinAll_error {α : Type} {rs : List (Except Err α)} {e : Err} (h : joinAll rs = .error e) :
    .error e ∈ rs := by
  unfold joinAll at h
  split at h
  · rename_i hp
    obtain ⟨r, hr, hpanic⟩ := List.any_eq_true.mp hp
    cases h
    unfold isPanic at hpanic
    split at hpanic
    · exact hr
    · cases hpanic
  · clear * - h
    induction rs with
    | nil => cases h
    | cons r rs ih =>
      cases r with
      | error e' =>
        cases h
        exact List.mem_cons_self
      | ok a =>
        unfold firstError at h
        cases hf : firstError rs with
        | ok l =>
          rw [hf] at h
          cases h
        | error e' =>
          rw [hf] at ih h
          cases h
          exact List.mem_cons_of_mem _ (ih rfl)

/-- Keep the top branch canonical after deletions emptied slots. -/
def refoldTop (env : Env) (children : Nibble → RamSlot) : Upd RamNode Unit :=
  match ramSurvivors children with
  | [] => .pure (.empty, .ok ())
  | [j] =>
    let left : RamNode := .branch (Function.update children j .none) none
    match children j with
    | .ram sub =>
      match extendBy [j] sub with
      | .ok node => .pure (node, .ok ())
      | .error e => .pure (left, .error e)
    | survivor =>
      attempt (collapseRoot env [j] survivor) (fun e => (left, .error e)) fun node =>
      .pure (node, .ok ())
  | _ => .pure (.branch children none, .ok ())

/-- The root after a descent. -/
def installRoot (env : Env) (node : RamNode) (out : RamDelete) : Upd RamNode Unit :=
  match out with
  | .absent => .pure (node, .ok ())
  | .changed => .pure (node, .ok ())
  | .removed => .pure (.empty, .ok ())
  | .collapsed edge survivor =>
    attempt (collapseRoot env edge survivor) (fun e => (node, .error e)) fun node =>
    .pure (node, .ok ())

/-- One account after the other, from the root. -/
def applySerial (env : Env) (ram : Bool) :
    List (Key × NetUpdate) → RamNode → Upd RamNode Inverse
  | [], upper => .pure (upper, .ok [])
  | (key, upd) :: rest, upper =>
    thenUpd (applyRamGroup env upper [] key upd ram) fun upper r =>
    match r with
    | .error e => .pure (upper, .error e)
    | .ok (out, inv) =>
      thenUpd (installRoot env upper out) fun upper r =>
      match r with
      | .error e => .pure (upper, .error e)
      | .ok () =>
        thenUpd (applySerial env ram rest upper) fun upper r =>
        .pure (upper, r.map fun inv' => inv ++ inv')

/-- Net updates on the frontier: one worker per slot of a top branch, else one
account after the other. -/
def applyNet (env : Env) (ram : Bool) (net : List (Key × NetUpdate)) (upper : RamNode) :
    Upd RamNode Inverse :=
  match upper with
  | .branch children _ =>
    (Prog.fan fun i => applyBucket env ram [i] (bucketOf net i) (children i)).bind fun rs =>
    let children : Nibble → RamSlot := fun i => (rs i).1
    match joinAll (List.ofFn fun i => (rs i).2) with
    | .error e => .pure (.branch children none, .error e)
    | .ok invs =>
      thenUpd (refoldTop env children) fun upper r => .pure (upper, r.map fun _ => invs.flatten)
  | upper => applySerial env ram net upper

end

end FlatMpt
