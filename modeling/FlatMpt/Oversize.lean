import FlatMpt.Answers
import FlatMpt.Inserts
import FlatMpt.System

/-!
# Values past the length field

A record stores a value's length in four bytes.  The writer cuts a longer length down, so
no read of a record returns a value of 2^32 bytes or more; yet in RAM-build mode a write of
one ends well.

    getStorage_short
    insert_slot_ram, block_slot_ram
-/

namespace FlatMpt

open Prog
open Radix (Tree)
open Eth (EMPTY_CODE_HASH)

/-! ## Reads of a record -/

/-- Every slot value read in the node fits the length field. -/
def ReadsShort (n : Node) : Prop :=
  (∀ rest v, nodeGet n rest = some v → ShortValue v) ∧
    ∀ rest slot v, nodeGetStorage n rest slot = some v → ShortValue v

theorem readsShort_empty : ReadsShort .empty := ⟨nofun, nofun⟩

theorem readsShort_leaf {path : List Nibble} {v : Bytes} {nref : NodeRef} (hv : ShortValue v) :
    ReadsShort (.leaf path v nref) := by
  refine ⟨fun rest w hw => ?_, nofun⟩
  rw [nodeGet] at hw
  split at hw
  · cases hw
    exact hv
  · cases hw

theorem ReadsShort.extension {path : List Nibble} {child : Node} {nref : NodeRef}
    (h : ReadsShort child) : ReadsShort (.extension path child nref) := by
  constructor
  · intro rest v hv
    rw [nodeGet] at hv
    split at hv
    · exact h.1 _ v hv
    · cases hv
  · intro rest slot v hv
    rw [nodeGetStorage] at hv
    split at hv
    · exact h.2 _ slot v hv
    · cases hv

theorem readsShort_branch {children : Nibble → Option Node} {nref : NodeRef}
    (h : ∀ i c, children i = some c → ReadsShort c) : ReadsShort (.branch children nref) := by
  constructor
  · intro rest v hv
    cases rest with
    | nil => cases hv
    | cons i rest =>
      rw [nodeGet] at hv
      cases hc : children i with
      | none =>
        rw [hc] at hv
        cases hv
      | some c =>
        rw [hc] at hv
        exact (h i c hc).1 rest v hv
  · intro rest slot v hv
    cases rest with
    | nil => cases hv
    | cons i rest =>
      rw [nodeGetStorage] at hv
      cases hc : children i with
      | none =>
        rw [hc] at hv
        cases hv
      | some c =>
        rw [hc] at hv
        exact (h i c hc).2 rest slot v hv

/-- The nodes that a reader of children returns. -/
theorem readSlots_short {read : Reader Node}
    (h : ∀ bs n rest, read bs = .ok (n, rest) → ReadsShort n) (present : Nibble → Bool)
    (is : List Nibble) : ∀ acc bs children rest, (∀ i c, acc i = some c → ReadsShort c) →
      readSlots read present is acc bs = .ok (children, rest) →
      ∀ i c, children i = some c → ReadsShort c := by
  induction is with
  | nil =>
    intro acc bs children rest hacc hr
    cases hr
    exact hacc
  | cons i is ih =>
    intro acc bs children rest hacc hr
    unfold readSlots at hr
    split at hr
    · obtain ⟨⟨child, bs'⟩, hchild, hr⟩ := bind_ok hr
      refine ih _ bs' children rest (fun j c hc => ?_) hr
      by_cases hj : j = i
      · subst hj
        rw [Function.update_self] at hc
        cases hc
        exact h bs _ bs' hchild
      · rw [Function.update_of_ne hj] at hc
        exact hacc j c hc
    · exact ih acc bs children rest hacc hr

section
variable [Keccak]

theorem ReadsShort.account {path : List Nibble} {nonce : UInt64} {balance : U256} {codeHash : Hash}
    {storage : Node} (h : ReadsShort storage) :
    ReadsShort (accountNode path nonce balance codeHash storage) := by
  constructor
  · intro rest v hv
    unfold accountNode at hv
    rw [nodeGet] at hv
    split at hv
    · cases hv
      exact shortValue_accountRlp ..
    · cases hv
  · intro rest slot v hv
    unfold accountNode at hv
    rw [nodeGetStorage] at hv
    split at hv
    · exact h.1 _ v hv
    · cases hv

/-- **A node read from a record returns values that fit the length field.** -/
theorem readNode_short (fuel : Nat) : ∀ bs n rest, readNode fuel bs = .ok (n, rest) → ReadsShort n := by
  induction fuel with
  | zero => exact fun bs n rest h => absurd h nofun
  | succ fuel ih =>
    intro bs n rest h
    unfold readNode at h
    obtain ⟨⟨tag, r1⟩, -, h⟩ := bind_ok h
    dsimp only at h
    split at h
    · cases h
      exact readsShort_empty
    · obtain ⟨⟨path, r2⟩, -, h⟩ := bind_ok h
      obtain ⟨⟨vlen, r3⟩, hlen, h⟩ := bind_ok h
      obtain ⟨⟨v, r4⟩, hv, h⟩ := bind_ok h
      obtain ⟨⟨nref, r5⟩, -, h⟩ := bind_ok h
      cases h
      refine readsShort_leaf ?_
      unfold ShortValue
      rw [readBytes_ok hv]
      exact readLe_lt hlen
    · obtain ⟨⟨path, r2⟩, -, h⟩ := bind_ok h
      obtain ⟨⟨nref, r3⟩, -, h⟩ := bind_ok h
      obtain ⟨⟨child, r4⟩, hchild, h⟩ := bind_ok h
      cases h
      exact (ih _ _ _ hchild).extension
    · obtain ⟨⟨bits, r2⟩, -, h⟩ := bind_ok h
      obtain ⟨⟨nref, r3⟩, -, h⟩ := bind_ok h
      obtain ⟨⟨table, r4⟩, -, h⟩ := bind_ok h
      obtain ⟨⟨children, r5⟩, hchildren, h⟩ := bind_ok h
      cases h
      have hnone : ∀ i c, (fun _ => none : Nibble → Option Node) i = some c → ReadsShort c :=
        fun _ _ hc => absurd hc (by simp)
      exact readsShort_branch (readSlots_short ih _ _ _ _ _ _ hnone hchildren)
    · obtain ⟨⟨path, r2⟩, -, h⟩ := bind_ok h
      obtain ⟨⟨nonce, r3⟩, -, h⟩ := bind_ok h
      obtain ⟨⟨balance, r4⟩, -, h⟩ := bind_ok h
      obtain ⟨⟨codeHash, r5⟩, -, h⟩ := bind_ok h
      obtain ⟨⟨storage, r6⟩, hstorage, h⟩ := bind_ok h
      cases h
      exact (ih _ _ _ hstorage).account
    · cases h

theorem deserializeSubtree_short {bytes : Bytes} {sub : DiskSubtree}
    (h : deserializeSubtree bytes = .ok sub) : ReadsShort sub.node := by
  obtain ⟨⟨pfx, r1⟩, -, h⟩ := bind_ok h
  obtain ⟨⟨node, r2⟩, hnode, h⟩ := bind_ok h
  dsimp only at h
  split at h
  · cases h
    exact readNode_short _ _ _ _ hnode
  · cases h

/-! ## Reads of a frontier -/

omit [Keccak] in
/-- A record read and a short value found in it. -/
theorem value_read_short {read : Act DiskSubtree} {f : DiskSubtree → Option Bytes}
    (hread : ∀ sub, value ideal read = .ok sub → ReadsShort sub.node)
    (hf : ∀ sub v, ReadsShort sub.node → f sub = some v → ShortValue v) {v : Bytes}
    (h : value ideal (attempt read .error fun sub => Act.ok (f sub)) = .ok (some v)) :
    ShortValue v := by
  unfold attempt at h
  rw [value_bind] at h
  cases hr : value ideal read with
  | error e =>
    rw [hr] at h
    cases h
  | ok sub =>
    rw [hr] at h
    exact hf sub v (hread sub hr) (Except.ok.inj h)

theorem readLazy_short (ptr : DiskPtr) (sub : DiskSubtree) (h : value ideal (readLazy ptr) = .ok sub) :
    ReadsShort sub.node := by
  unfold readLazy attempt at h
  rw [value_bind] at h
  generalize value ideal (ask (.read ptr)) = r at h
  cases r with
  | error e => cases h
  | ok bytes => exact deserializeSubtree_short h

theorem mem_short (bytes : Bytes) (sub : DiskSubtree)
    (h : value ideal (.pure (deserializeSubtree bytes)) = .ok sub) : ReadsShort sub.node :=
  deserializeSubtree_short h

mutual

theorem ramGet_short (n : RamNode) (nibbles : List Nibble) (depth : Nat) (v : Bytes)
    (h : value ideal (ramGet n nibbles depth) = .ok (some v)) : ShortValue v := by
  match n with
  | .empty => cases h
  | .extension path child hash =>
    rw [ramGet] at h
    split at h
    · exact ramGet_short child nibbles _ v h
    · cases h
  | .branch children hash =>
    rw [ramGet] at h
    split at h
    · cases h
    · exact slotGet_short (children _) nibbles depth v h

theorem slotGet_short (s : RamSlot) (nibbles : List Nibble) (depth : Nat) (v : Bytes)
    (h : value ideal (slotGet s nibbles depth) = .ok (some v)) : ShortValue v := by
  match s with
  | .none => cases h
  | .ram child => exact ramGet_short child nibbles _ v h
  | .disk ptr root =>
    exact value_read_short (readLazy_short ptr) (fun _ _ hs hv => hs.1 _ _ hv) h
  | .mem bytes root =>
    exact value_read_short (mem_short bytes) (fun _ _ hs hv => hs.1 _ _ hv) h
  | .account path nonce balance codeHash storage =>
    rw [slotGet] at h
    have h := Except.ok.inj h
    split at h
    · cases h
      exact shortValue_accountRlp ..
    · cases h

end

mutual

theorem ramGetStorage_short (n : RamNode) (nibbles : List Nibble) (depth : Nat) (slot : Key)
    (v : Bytes) (h : value ideal (ramGetStorage n nibbles depth slot) = .ok (some v)) :
    ShortValue v := by
  match n with
  | .empty => cases h
  | .extension path child hash =>
    rw [ramGetStorage] at h
    split at h
    · exact ramGetStorage_short child nibbles _ slot v h
    · cases h
  | .branch children hash =>
    rw [ramGetStorage] at h
    split at h
    · cases h
    · exact slotGetStorage_short (children _) nibbles depth slot v h

theorem slotGetStorage_short (s : RamSlot) (nibbles : List Nibble) (depth : Nat) (slot : Key)
    (v : Bytes) (h : value ideal (slotGetStorage s nibbles depth slot) = .ok (some v)) :
    ShortValue v := by
  match s with
  | .none => cases h
  | .ram child => exact ramGetStorage_short child nibbles _ slot v h
  | .disk ptr root =>
    exact value_read_short (readLazy_short ptr) (fun _ _ hs hv => hs.2 _ _ _ hv) h
  | .mem bytes root =>
    exact value_read_short (mem_short bytes) (fun _ _ hs hv => hs.2 _ _ _ hv) h
  | .account path nonce balance codeHash storage =>
    rw [slotGetStorage] at h
    split at h
    · exact ramGet_short storage _ 0 v h
    · cases h

end

/-- **No read of a slot returns a value past the length field**, whatever the state. -/
theorem getStorage_short {s : Store} {n : RamNode} {key slot : Key} {v : Bytes}
    (h : getStorage s n key slot = .ok (some v)) : ShortValue v := by
  rw [getStorage_loaded] at h
  exact ramGetStorage_short _ _ _ slot v h

/-! ## A slot on an empty database -/

theorem normalizeBlock_slot (key slot : Key) (v : Bytes) :
    normalizeBlock [(key, .setStorage slot v)] = [(key, ⟨false, .keep, [(slot, some v)]⟩)] := by
  rfl

/-- The record node of an account made by its first slot. -/
def slotNode (path : List Nibble) (slot : Key) (v : Bytes) : Node :=
  accountNode path 0 0 EMPTY_CODE_HASH (leafNode (keyNibbles slot) v)

theorem serialize_slotNode (idx : Nibble) {path : List Nibble} (slot : Key) (v : Bytes)
    (hp : path.length ≤ 255) : ∃ payload, serializeSubtree ⟨[idx], slotNode path slot v⟩ = .ok payload := by
  have hpath : writeNibblePath path = .ok (UInt8.ofNat path.length :: packPath path) :=
    if_neg (by omega)
  have hslot : writeNibblePath (keyNibbles slot) =
      .ok (UInt8.ofNat (keyNibbles slot).length :: packPath (keyNibbles slot)) :=
    if_neg (by rw [keyNibbles_length]; omega)
  unfold slotNode accountNode leafNode serializeSubtree
  dsimp only
  rw [writeNode, writeNode, hpath, hslot]
  exact ⟨_, rfl⟩

theorem applyNet_slot (path : List Nibble) (key slot : Key) (v : Bytes) :
    ∃ inv, applyNetInRecord .empty path key ⟨false, .keep, [(slot, some v)]⟩ =
      .ok (slotNode path slot v, .changed, inv) :=
  ⟨_, rfl⟩


/-- The slot of the frontier that holds the account. -/
def slotLeaf (key slot : Key) (v payload : Bytes) : RamSlot :=
  .mem payload (hashNode (slotNode ((keyNibbles key).drop 1) slot v)).finalize

theorem makeLeaf_slot (env : Env) {idx : Nibble} {key slot : Key} {v payload : Bytes}
    (hser : serializeSubtree ⟨[idx], slotNode ((keyNibbles key).drop 1) slot v⟩ = .ok payload) :
    makeLeafChild env true ⟨[idx], slotNode ((keyNibbles key).drop 1) slot v⟩ =
      Act.ok (slotLeaf key slot v payload) := by
  show makeMemLeaf _ = _
  unfold makeMemLeaf encode
  rw [hser]
  rfl

/-- In RAM-build mode a slot of any size creates its account. -/
theorem insert_slot_ram {env : Env} {key slot : Key} {v payload : Bytes} {idx : Nibble}
    (hidx : (keyNibbles key)[0]? = some idx)
    (hser : serializeSubtree ⟨[idx], slotNode ((keyNibbles key).drop 1) slot v⟩ = .ok payload) :
    ∃ db reply, callProg env ⟨.empty, true⟩ (.insert key (.storage slot v)) = .pure (db, .ok reply) := by
  have hplace : placeLeaf env true [idx] key (.storage slot v) =
      makeLeafChild env true ⟨[idx], slotNode ((keyNibbles key).drop 1) slot v⟩ := rfl
  have hprog : insertRam env .empty [] key (.storage slot v) true =
      .pure (.branch (Function.update emptyChildren idx (slotLeaf key slot v payload)) none, .ok ()) := by
    rw [insertRam]
    have hwalk : (keyNibbles key)[walkDepth []]? = some idx := hidx
    rw [hwalk]
    dsimp only
    rw [List.nil_append, hplace, makeLeaf_slot env hser]
    rfl
  show ∃ db reply, replyRoot true (insertRam env .empty [] key (.storage slot v) true) = _
  rw [hprog]
  exact ⟨_, _, rfl⟩

/-- A fresh account with one slot becomes one record. -/
theorem creationChild_slot {env : Env} {key slot : Key} {v payload : Bytes} {idx : Nibble}
    (hser : serializeSubtree ⟨[idx], slotNode ((keyNibbles key).drop 1) slot v⟩ = .ok payload) :
    ∃ inv, creationChild env true [idx] key ⟨false, .keep, [(slot, some v)]⟩ =
      Act.ok (slotLeaf key slot v payload, inv) := by
  obtain ⟨inv, hnet⟩ := applyNet_slot ((keyNibbles key).drop 1) key slot v
  have hbranch : shouldPromote env.cfg ⟨[idx], slotNode ((keyNibbles key).drop 1) slot v⟩ = false :=
    Bool.and_false _
  have haccount :
      shouldPromoteAccount env.cfg ⟨[idx], slotNode ((keyNibbles key).drop 1) slot v⟩ = false :=
    Bool.and_false _
  have hfinish : finishChild env true ⟨[idx], slotNode ((keyNibbles key).drop 1) slot v⟩ =
      Act.ok (slotLeaf key slot v payload) := by
    rw [finishChild, hbranch, haccount]
    exact makeLeaf_slot env hser
  refine ⟨inv, ?_⟩
  unfold creationChild
  rw [show (keyNibbles key).drop [idx].length = (keyNibbles key).drop 1 from rfl, hnet]
  generalize hnode : slotNode ((keyNibbles key).drop 1) slot v = node at hfinish
  cases node with
  | account =>
    show attempt (finishChild env true _) _ _ = _
    rw [hfinish]
    rfl
  | empty => cases hnode
  | leaf => cases hnode
  | extension => cases hnode
  | branch => cases hnode

theorem block_slot_ram {env : Env} {key slot : Key} {v payload : Bytes} {idx : Nibble}
    (hidx : (keyNibbles key)[0]? = some idx)
    (hser : serializeSubtree ⟨[idx], slotNode ((keyNibbles key).drop 1) slot v⟩ = .ok payload) :
    ∃ db reply, callProg env ⟨.empty, true⟩ (.applyBlock [(key, .setStorage slot v)] []) =
      .pure (db, .ok reply) := by
  obtain ⟨inv, hcreate⟩ := @creationChild_slot _ env key slot v payload idx hser
  have happly : applyRamGroup env .empty [] key ⟨false, .keep, [(slot, some v)]⟩ true =
      .pure (.branch (Function.update emptyChildren idx (slotLeaf key slot v payload)) none,
        .ok (.changed, inv)) := by
    rw [applyRamGroup]
    have hstart : (keyNibbles key)[([] : List Nibble).length]? = some idx := hidx
    rw [hstart]
    dsimp only
    rw [List.nil_append, hcreate]
    rfl
  have hnet : applyNet env true [(key, ⟨false, .keep, [(slot, some v)]⟩)] .empty =
      .pure (.branch (Function.update emptyChildren idx (slotLeaf key slot v payload)) none,
        .ok (inv ++ [])) := by
    show applySerial env true _ .empty = _
    rw [applySerial, happly]
    rfl
  show ∃ db reply, applyBlock env [(key, .setStorage slot v)] [] ⟨.empty, true⟩ = _
  rw [applyBlock, normalizeBlock_slot, hnet]
  exact ⟨_, _, rfl⟩

theorem applyNets_slot (key slot : Key) (v : Bytes) :
    (applyNets (fun _ => none) (normalizeBlock [(key, .setStorage slot v)]) key).bind (·.slots slot) =
      some v := by
  rw [normalizeBlock_slot]
  show (Function.update (fun _ => none) key
    (NetUpdate.apply ⟨false, .keep, [(slot, some v)]⟩ none) key).bind (·.slots slot) = some v
  rw [Function.update_self]
  exact Function.update_self ..

theorem execBlock_slot (key slot : Key) (v : Bytes) :
    (execBlock (fun _ => none) [(key, .setStorage slot v)] key).bind (·.slots slot) = some v := by
  show (Function.update (fun _ => none) key (execAcct none (.setStorage slot v)) key).bind
    (·.slots slot) = some v
  rw [Function.update_self]
  exact Function.update_self ..

end

/-- One byte more than the length field can say. -/
def oversizeValue : Bytes := List.replicate (2 ^ 32) 0

theorem oversizeValue_long : ¬ ShortValue oversizeValue := by
  unfold ShortValue oversizeValue
  rw [List.length_replicate]
  exact lt_irrefl _

end FlatMpt
