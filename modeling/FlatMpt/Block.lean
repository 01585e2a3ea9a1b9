import Mathlib.Logic.Function.Basic
import FlatMpt.Eth

/-!
# Block operations and their normalisation

A block is a list of `StateOp`s on hashed account keys.  `normalizeBlock` folds
it into one `NetUpdate` per account, which the trie then applies in the fixed
order wipe, account outcome, final slot values.

The reference meaning of a single operation is `execOp` on `Logical` states
(account key to fields and slots); the reference meaning of a net update is
`NetUpdate.apply` on one account.
-/

namespace FlatMpt

open Eth (EMPTY_CODE_HASH)

/-! ## Operations -/

/-- One state-trie operation of a block. -/
inductive StateOp
  /-- Create or update the account's fields. -/
  | setAccount (nonce : UInt64) (balance : U256) (codeHash : Hash)
  /-- Remove the account entirely, including its storage. -/
  | deleteAccount
  /-- Clear all storage, keeping the account fields. -/
  | wipeStorage
  | setStorage (slot : Key) (value : Bytes)
  | deleteStorage (slot : Key)
deriving DecidableEq

/-- An account's per-block outcome after normalization. -/
inductive AccountOutcome
  | keep
  | set (nonce : UInt64) (balance : U256) (codeHash : Hash)
  | delete
deriving DecidableEq

/-- One account's net update for a block. -/
structure NetUpdate where
  wipe : Bool
  account : AccountOutcome
  /-- Final value per touched slot (`none` = delete). -/
  slots : List (Key × Option Bytes)
deriving DecidableEq

/-- Whether this update can create structure (a missing account or leaf). -/
def NetUpdate.creates (upd : NetUpdate) : Bool :=
  match upd.account with
  | .set .. => true
  | _ => upd.slots.any fun s => s.2.isSome

/-- What `entry(key).or_insert` starts from. -/
def NetUpdate.fresh : NetUpdate := ⟨false, .keep, []⟩

/-! ## `normalize_block` -/

/-- The two maps the fold carries: the net updates, and the position of each
touched slot in its account's list. -/
structure NormState where
  map : Std.TreeMap Key NetUpdate compare
  slotIdx : Key → Key → Option Nat

def NormState.empty : NormState := ⟨∅, fun _ _ => none⟩

/-- `slot_idx.remove(&(key, k))` for every drained slot. -/
def clearIdx (key : Key) (slots : List (Key × Option Bytes)) (idx : Key → Key → Option Nat) :
    Key → Key → Option Nat :=
  slots.foldl (fun idx s => Function.update idx key (Function.update (idx key) s.1 none)) idx

section
variable [Keccak]

/-- Write a slot's final value: in place when the index map knows the slot, else
appended and indexed. -/
def noteSlot (key slot : Key) (value : Option Bytes) (upd : NetUpdate)
    (idx : Key → Key → Option Nat) : NetUpdate × (Key → Key → Option Nat) :=
  match idx key slot with
  | some i => ({ upd with slots := upd.slots.modify i fun s => (s.1, value) }, idx)
  | none =>
    ({ upd with slots := upd.slots ++ [(slot, value)] },
      Function.update idx key (Function.update (idx key) slot (some upd.slots.length)))

/-- One operation on the account's entry of the map. -/
def normalizeOp (key : Key) (op : StateOp) (upd : NetUpdate) (idx : Key → Key → Option Nat) :
    NetUpdate × (Key → Key → Option Nat) :=
  match op with
  | .setAccount nonce balance codeHash =>
    ({ upd with account := .set nonce balance codeHash }, idx)
  | .deleteAccount => (⟨true, .delete, []⟩, clearIdx key upd.slots idx)
  | .wipeStorage => ({ upd with wipe := true, slots := [] }, clearIdx key upd.slots idx)
  | .setStorage slot value =>
    -- a slot write on the just-deleted account creates an empty one
    let upd := if upd.account = .delete then { upd with account := .set 0 0 EMPTY_CODE_HASH }
      else upd
    noteSlot key slot (some value) upd idx
  | .deleteStorage slot =>
    if upd.account = .delete then (upd, idx) else noteSlot key slot none upd idx

def normalizeStep (st : NormState) (e : Key × StateOp) : NormState :=
  let upd := (st.map[e.1]?).getD .fresh
  let r := normalizeOp e.1 e.2 upd st.slotIdx
  ⟨st.map.insert e.1 r.1, r.2⟩

/-- Fold a block's op list into per-account net updates, in key order. -/
def normalizeBlock (ops : List (Key × StateOp)) : List (Key × NetUpdate) :=
  (ops.foldl normalizeStep .empty).map.toList

end

/-! ## Reference semantics -/

/-- A structured account: its fields and its live slots. -/
structure Acct where
  nonce : UInt64
  balance : U256
  codeHash : Hash
  slots : Key → Option Bytes

/-- The logical content of the store. -/
abbrev Logical := Key → Option Acct

section
variable [Keccak]

/-- What a slot write creates on a missing account. -/
def Acct.empty : Acct := ⟨0, 0, EMPTY_CODE_HASH, fun _ => none⟩

/-- Sequential meaning of one operation on the account it names. -/
def execAcct (a : Option Acct) : StateOp → Option Acct
  | .setAccount nonce balance codeHash =>
    some ⟨nonce, balance, codeHash, match a with | some a => a.slots | none => fun _ => none⟩
  | .deleteAccount => none
  | .wipeStorage => a.map fun a => { a with slots := fun _ => none }
  | .setStorage slot value =>
    let a := a.getD .empty
    some { a with slots := Function.update a.slots slot (some value) }
  | .deleteStorage slot => a.map fun a => { a with slots := Function.update a.slots slot none }

def execOp (l : Logical) (e : Key × StateOp) : Logical :=
  Function.update l e.1 (execAcct (l e.1) e.2)

/-- A block executed one operation at a time. -/
def execBlock (l : Logical) (ops : List (Key × StateOp)) : Logical := ops.foldl execOp l

/-- One final slot value on an account: `some` creates the account if missing. -/
def applySlot (a : Option Acct) (s : Key × Option Bytes) : Option Acct :=
  match s.2 with
  | some value => execAcct a (.setStorage s.1 value)
  | none => execAcct a (.deleteStorage s.1)

/-- A net update on one account, in the order wipe, account outcome, slots. -/
def NetUpdate.apply (upd : NetUpdate) (a : Option Acct) : Option Acct :=
  let a := if upd.wipe then execAcct a .wipeStorage else a
  let a := match upd.account with
    | .keep => a
    | .set nonce balance codeHash => execAcct a (.setAccount nonce balance codeHash)
    | .delete => execAcct a .deleteAccount
  upd.slots.foldl applySlot a

/-- Per-account net updates applied in list order. -/
def applyNets (l : Logical) (nets : List (Key × NetUpdate)) : Logical :=
  nets.foldl (fun l e => Function.update l e.1 (e.2.apply (l e.1))) l

end

end FlatMpt
