import FlatMpt.RecordTree

/-!
# Storage tries and the state trie

The two kinds of record content.  A storage trie has value leaves; a leaf of the
state trie is a raw value (an account stored as its RLP only, or a plain value)
or an account with its `Storage`, the canonical tree of its slots.

    storageInsert_toNode, storageDelete_toNode    -- one slot
    recordNodeInsert_toNode, recordNodeDelete_toNode
                       -- one state key, by `leafInsert` and `leafDelete`
-/

namespace FlatMpt

open Radix (Tree)
open Radix.Tree (Canon)
open Eth (EMPTY_ROOT EMPTY_CODE_HASH)

/-- The slots of an account: the canonical tree of a slot map. -/
structure Storage where
  tree : Tree 16 Bytes
  canon : Canon 64 tree

namespace Storage

def empty : Storage := ⟨.empty, .empty⟩

def get (s : Storage) (slot : Key) : Option Bytes := s.tree.get (keyNibbles slot)

def put (s : Storage) (slot : Key) (v : Option Bytes) : Storage :=
  ⟨s.tree.put 64 (keyNibbles slot) v, Tree.canon_put ..⟩

@[simp] theorem get_empty (slot : Key) : empty.get slot = none := rfl

theorem get_put (s : Storage) (slot q : Key) (v : Option Bytes) :
    (s.put slot v).get q = if q = slot then v else s.get q := by
  rw [get, put, Tree.get_put s.canon (keyNibbles_length slot)]
  simp only [keyNibbles_inj]
  rfl

theorem put_self (s : Storage) (slot : Key) : s.put slot (s.get slot) = s := by
  obtain ⟨t, ht⟩ := s
  simp only [put, get, ht.put_self]

end Storage

/-- A leaf of the state trie. -/
inductive StateLeaf
  | raw (value : Bytes)
  | account (nonce : UInt64) (balance : U256) (codeHash : Hash) (storage : Storage)

section
variable [Keccak]

/-- Value leaves. -/
def valueLeaf : LeafForm Bytes where
  node := leafNode
  leaf_or_account _ v := Or.inl ⟨v, _, rfl⟩
  rehome_node _ _ _ := rfl

/-- The node of an account's storage. -/
def Storage.toNode (s : Storage) : Node := FlatMpt.toNode valueLeaf s.tree

def stateLeaf : LeafForm StateLeaf where
  node p
    | .raw v => leafNode p v
    | .account n b c s => accountNode p n b c s.toNode
  leaf_or_account _
    | .raw v => Or.inl ⟨v, _, rfl⟩
    | .account n b c _ => Or.inr ⟨n, b, c, _, _, _, rfl⟩
  rehome_node _
    | .raw _, _ => rfl
    | .account .., _ => rfl

@[simp] theorem Storage.toNode_empty : Storage.empty.toNode = .empty := rfl

/-! ## Slots -/

theorem storageInsert_toNode (s : Storage) (slot : Key) (v : Bytes) :
    storageInsert s.toNode slot v = .ok (s.put slot (some v)).toNode := by
  exact nodeInsert_toNode valueLeaf s.canon (keyNibbles_length slot) (placeValue v) (applyValue v)
    (fun _ => .ok v) (fun _ => rfl) (fun _ _ => rfl)

theorem storageDelete_toNode (s : Storage) (slot : Key) :
    storageDelete s.toNode slot =
      .ok ((s.put slot none).toNode,
        if (s.get slot).isNone then .absent else refolded (s.put slot none).tree) := by
  have h := nodeDelete_toNode valueLeaf s.canon (keyNibbles_length slot) applyValueDelete
    (fun _ => .ok .removed) (fun _ _ => rfl)
  have hg : s.tree.get (keyNibbles slot) = s.get slot := rfl
  rw [storageDelete, Storage.toNode, h, deleteTree, hg]
  cases h : s.get slot with
  | none =>
    have hs : s.put slot none = s := by rw [← h, Storage.put_self]
    rw [hs]
    rfl
  | some v => rfl

/-! ## State keys -/

/-- What a `LeafOp` does to the leaf at its key. -/
def leafInsert (op : LeafOp) : Option StateLeaf → Except Err StateLeaf
  | none =>
    match op with
    | .value v => .ok (.raw v)
    | .account n b c => .ok (.account n b c .empty)
    | .storage slot v => .ok (.account 0 0 EMPTY_CODE_HASH (Storage.empty.put slot (some v)))
  | some (.raw old) =>
    match op with
    | .value v => .ok (.raw v)
    | .account n b c =>
      match Eth.Account.decode old with
      | some prior =>
        if prior.storageRoot ≠ EMPTY_ROOT then .ok (.raw (accountRlp n b c prior.storageRoot))
        else .ok (.account n b c .empty)
      | none => .ok (.account n b c .empty)
    | .storage slot v =>
      match Eth.Account.decode old with
      | some prior =>
        if prior.storageRoot = EMPTY_ROOT then
          .ok (.account prior.nonce prior.balance prior.codeHash (Storage.empty.put slot (some v)))
        else .error .opaqueStorageWrite
      | none => .error .leafOpMismatch
  | some (.account n b c s) =>
    match op with
    | .value _ => .error .leafOpMismatch
    | .account n b c => .ok (.account n b c s)
    | .storage slot v => .ok (.account n b c (s.put slot (some v)))

theorem placeNew_stateLeaf (op : LeafOp) (p : List Nibble) :
    placeNew op p = (leafInsert op none).map (stateLeaf.node p) := by
  cases op with
  | value v => rfl
  | account n b c => rfl
  | storage slot v =>
    have h := storageInsert_toNode .empty slot v
    rw [Storage.toNode_empty] at h
    rw [placeNew, h]
    rfl

theorem applyOp_stateLeaf (op : LeafOp) (p : List Nibble) (a : StateLeaf) :
    applyOp op (stateLeaf.node p a) p = (leafInsert op (some a)).map (stateLeaf.node p) := by
  cases a with
  | raw old =>
    cases op with
    | value v => rfl
    | account n b c =>
      simp only [stateLeaf, leafNode, applyOp, leafInsert]
      cases Eth.Account.decode old with
      | none => rfl
      | some prior =>
        simp only
        split <;> rfl
    | storage slot v =>
      simp only [stateLeaf, leafNode, applyOp, leafInsert]
      cases Eth.Account.decode old with
      | none => rfl
      | some prior =>
        have h := storageInsert_toNode .empty slot v
        rw [Storage.toNode_empty] at h
        simp only
        split
        · rw [h]; rfl
        · rfl
  | account n b c s =>
    cases op with
    | value v => rfl
    | account n' b' c' => rfl
    | storage slot v =>
      show Except.bind (storageInsert s.toNode slot v) _ = _
      rw [storageInsert_toNode]
      rfl

/-- An insert into a state record acts on the leaf at its key. -/
theorem recordNodeInsert_toNode {n : Nat} {t : Tree 16 StateLeaf} (ht : Canon n t)
    {k : List Nibble} (hk : k.length = n) (op : LeafOp) :
    recordNodeInsert (toNode stateLeaf t) k op =
      (leafInsert op (t.get k)).map fun b => toNode stateLeaf (t.put n k (some b)) :=
  nodeInsert_toNode stateLeaf ht hk _ _ (leafInsert op) (placeNew_stateLeaf op)
    (applyOp_stateLeaf op)

/-- What a `DeleteOp` does to the leaf at its key. -/
def leafDelete (op : DeleteOp) : StateLeaf → Except Err (LeafDelete StateLeaf)
  | .raw old =>
    match op with
    | .value => .ok .removed
    | .account => .ok .removed
    | .storage _ =>
      match Eth.Account.decode old with
      | some prior =>
        if prior.storageRoot = EMPTY_ROOT then .ok .absent else .error .opaqueStorageDelete
      | none => .error .deleteOpMismatch
    | .wipeStorage =>
      match Eth.Account.decode old with
      | some prior =>
        if prior.storageRoot = EMPTY_ROOT then .ok .absent
        else .ok (.changed (.account prior.nonce prior.balance prior.codeHash .empty))
      | none => .error .deleteOpMismatch
  | .account n b c s =>
    match op with
    | .value => .error .deleteOpMismatch
    | .account => .ok .removed
    | .storage slot =>
      if (s.get slot).isNone then .ok .absent else .ok (.changed (.account n b c (s.put slot none)))
    | .wipeStorage =>
      if s.tree.isEmpty then .ok .absent else .ok (.changed (.account n b c .empty))

theorem applyDeleteOp_stateLeaf (op : DeleteOp) (p : List Nibble) (a : StateLeaf) :
    applyDeleteOp op (stateLeaf.node p a) =
      (leafDelete op a).map (LeafDelete.applied stateLeaf p a) := by
  cases a with
  | raw old =>
    cases op with
    | value => rfl
    | account => rfl
    | storage slot =>
      simp only [stateLeaf, leafNode, applyDeleteOp, leafDelete]
      cases Eth.Account.decode old with
      | none => rfl
      | some prior => simp only; split <;> rfl
    | wipeStorage =>
      simp only [stateLeaf, leafNode, applyDeleteOp, leafDelete]
      cases Eth.Account.decode old with
      | none => rfl
      | some prior => simp only; split <;> rfl
  | account n b c s =>
    cases op with
    | value => rfl
    | account => rfl
    | storage slot =>
      show Except.bind (storageDelete s.toNode slot) _ = _
      rw [storageDelete_toNode, leafDelete]
      cases hs : s.get slot with
      | none =>
        have hput : s.put slot none = s := by rw [← hs, Storage.put_self]
        rw [hput]
        rfl
      | some v =>
        simp only [Option.isNone_some, Bool.false_eq_true, if_false]
        by_cases he : (s.put slot none).tree = .empty
        · have hput : s.put slot none = .empty := by
            cases hp : s.put slot none
            rw [hp] at he
            simp only at he
            subst he
            rfl
          rw [hput]
          rfl
        · rw [refolded_of_ne he]
          rfl
    | wipeStorage =>
      obtain ⟨t, ht⟩ := s
      cases t with
      | empty => rfl
      | leaf q v => rfl
      | ext q c => rfl
      | branch cs => rfl

/-- A delete in a state record acts on the leaf at its key. -/
theorem recordNodeDelete_toNode {n : Nat} {t : Tree 16 StateLeaf} (ht : Canon n t)
    {k : List Nibble} (hk : k.length = n) (op : DeleteOp) :
    recordNodeDelete (toNode stateLeaf t) k op =
      (deleteTree n t k (leafDelete op)).map fun r => (toNode stateLeaf r.1, r.2) :=
  nodeDelete_toNode stateLeaf ht hk (applyDeleteOp op) (leafDelete op) (applyDeleteOp_stateLeaf op)

end

end FlatMpt
