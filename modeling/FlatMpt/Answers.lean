import FlatMpt.Inline

/-!
# Reads of a database at rest

`get_value` and `get_storage` where no I/O call fails.  They depend on the frontier with
every record loaded: a record is served from the read-ahead, else from the file.

    getValue, getStorage    -- the reads
    loaded                  -- the frontier with its records
    getValue_loaded, getStorage_loaded
-/

namespace FlatMpt

open Prog

/-! ## Records -/

/-- The store with I/O calls that do not fail. -/
def Store.healthy (s : Store) : Store := { s with faults := [] }

/-- What a read of the record returns. -/
def Store.payload (s : Store) (p : DiskPtr) : Bytes :=
  (s.readAheadTake p.unit).getD (payloadAt s.file p)

/-- A read succeeds and changes nothing. -/
theorem read_healthy (s : Store) (p : DiskPtr) :
    exec (.read p) s.healthy = (.ok (s.payload p), s.healthy) := by
  show Store.read s.healthy p = _
  unfold Store.read Store.payload
  have htake : s.healthy.readAheadTake p.unit = s.readAheadTake p.unit := rfl
  rw [htake]
  cases s.readAheadTake p.unit <;> rfl

/-- A visible record is served with its own payload. -/
theorem StoreInv.payload {W : Holds} {s : Store} {g : Multiset Rec} (hI : StoreInv W s g) {x : Rec}
    (hx : W.Visible g x) : s.payload x.1 = x.2 ∧ payloadAt s.file x.1 = x.2 := by
  have hstored : Stored s x := hI.kept (hx.elim .inl fun h => .inr (.inl h))
  refine ⟨?_, hstored.payloadAt⟩
  unfold Store.payload
  cases ht : s.readAheadTake x.1.unit with
  | none => exact hstored.payloadAt
  | some bytes =>
    obtain ⟨l1, l2, he, -⟩ := List.lookup_eq_some_iff.mp ht
    have hmem : (x.1.unit, bytes) ∈ s.readAhead := by
      rw [he]
      exact List.mem_append_right _ List.mem_cons_self
    exact hI.cacheOk x.1.unit bytes hmem x hx rfl

/-- A slot with its record in RAM. -/
def fetch (s : Store) (_ : List Nibble) : RamSlot → RamSlot
  | .disk ptr root => .mem (s.payload ptr) root
  | slot => slot

/-- The frontier with every record loaded. -/
def loaded (s : Store) (n : RamNode) : RamNode := mapLeaves (fetch s) n []

section
variable {s s' : Store} {n n' : RamNode}

theorem loaded_congr (h : ∀ p ∈ diskPtrs n, s.payload p = s'.payload p) :
    loaded s n = loaded s' n := by
  refine mapLeaves_congr n [] fun e he => ?_
  obtain ⟨path, slot⟩ := e
  cases slot with
  | disk ptr root =>
    have hmem : ptr ∈ diskPtrs n := by
      rw [diskPtrs_eq_leaves n []]
      exact List.mem_flatMap.mpr ⟨_, he, List.mem_cons_self⟩
    exact congrArg (RamSlot.mem · root) (h ptr hmem)
  | _ => rfl

/-- With its own payloads, a frontier loads what it holds over the ideal store. -/
theorem loaded_inline {pay : List Nibble → Bytes} (h : ∀ x ∈ recsAt pay n, s.payload x.1 = x.2) :
    loaded s n = inline (mapLeaves (toNamed pay) n []) := by
  unfold inline inlineAt
  rw [mapLeaves_comp (toNamed_keeps pay)]
  refine mapLeaves_congr n [] fun e he => ?_
  obtain ⟨path, slot⟩ := e
  cases slot with
  | disk ptr root =>
    show RamSlot.mem (s.payload ptr) root = .mem (nameOf (named (pay path))) root
    rw [nameOf_named, h (ptr, pay path) (leafRecs_mem he)]
  | _ => rfl

/-- Moving records does not change what is loaded. -/
theorem Moved.loaded {pay pay' : List Nibble → Bytes} (h : Moved pay n pay' n')
    (hs : ∀ x ∈ recsAt pay n, s.payload x.1 = x.2)
    (hs' : ∀ x ∈ recsAt pay' n', s'.payload x.1 = x.2) : FlatMpt.loaded s' n' = FlatMpt.loaded s n := by
  rw [loaded_inline hs, loaded_inline hs', h.inline]

end

/-! ## Values -/

section
variable [Keccak]

mutual

/-- Changing leaf slots for others of the same root keeps the hashes. -/
theorem hashRam_mapLeaves {f : List Nibble → RamSlot → RamSlot}
    (hf : ∀ p s, s.isLeaf → ramChildHash (f p s) = ramChildHash s) (node : RamNode)
    (pfx : List Nibble) : hashRam (mapLeaves f node pfx) = hashRam node := by
  match node with
  | .empty => rfl
  | .extension path child hash =>
    show hash.getD (extRef path (.hash (hashRam (mapLeaves f child _)))).finalize = _
    rw [hashRam_mapLeaves hf child]
    rfl
  | .branch children hash =>
    show hash.getD (branchRef fun i =>
      (ramChildHash (mapLeavesIn f (children i) (pfx ++ [i]))).map .hash).finalize = _
    rw [funext fun i => congrArg (Option.map NodeRef.hash)
      (ramChildHash_mapLeaves hf (children i) (pfx ++ [i]))]
    rfl

theorem ramChildHash_mapLeaves {f : List Nibble → RamSlot → RamSlot}
    (hf : ∀ p s, s.isLeaf → ramChildHash (f p s) = ramChildHash s) (slot : RamSlot)
    (pfx : List Nibble) : ramChildHash (mapLeavesIn f slot pfx) = ramChildHash slot := by
  match slot with
  | .none => rfl
  | .ram child => exact congrArg some (hashRam_mapLeaves hf child pfx)
  | .disk ptr root => exact hf pfx (.disk ptr root) rfl
  | .mem bytes root => exact hf pfx (.mem bytes root) rfl
  | .account path nonce balance codeHash storage =>
    show some (leafRef path (accountRlp nonce balance codeHash
      (hashRam (mapLeaves f storage (pfx ++ path))))).finalize = _
    rw [hashRam_mapLeaves hf storage]
    rfl

end

theorem fetch_hash (s : Store) (p : List Nibble) (slot : RamSlot) (_ : slot.isLeaf) :
    ramChildHash (fetch s p slot) = ramChildHash slot := by
  cases slot <;> rfl

theorem hashRam_loaded (s : Store) (n : RamNode) : hashRam (loaded s n) = hashRam n :=
  hashRam_mapLeaves (fetch_hash s) n []

/-- `get_value`, when no I/O call fails. -/
def getValue (s : Store) (n : RamNode) (key : Key) : Except Err (Option Bytes) :=
  (run exec (ramGet n (keyNibbles key) 0) s.healthy).1

/-- `get_storage`, when no I/O call fails. -/
def getStorage (s : Store) (n : RamNode) (key slot : Key) : Except Err (Option Bytes) :=
  (run exec (ramGetStorage n (keyNibbles key) 0 slot) s.healthy).1

/-- A record read and what becomes of it. -/
theorem run_readLazy {β : Type} (s : Store) (p : DiskPtr) (f : DiskSubtree → Except Err β) :
    (run exec (attempt (readLazy p) .error fun sub => .pure (f sub)) s.healthy).1 =
      (deserializeSubtree (s.payload p)).bind f := by
  have hrun : run exec (readLazy p) s.healthy = (deserializeSubtree (s.payload p), s.healthy) := by
    unfold readLazy attempt Prog.ask
    show run exec (.step (.read p) _) s.healthy = _
    rw [run, read_healthy]
    rfl
  unfold attempt
  rw [run_bind, hrun]
  cases deserializeSubtree (s.payload p) <;> rfl

theorem value_mem {β : Type} (bytes : Bytes) (f : DiskSubtree → Except Err β) :
    value ideal (attempt (.pure (deserializeSubtree bytes)) .error fun sub => .pure (f sub)) =
      (deserializeSubtree bytes).bind f := by
  cases deserializeSubtree bytes <;> rfl

mutual

theorem ramGet_loaded (s : Store) (n : RamNode) (pfx nibbles : List Nibble) (depth : Nat) :
    (run exec (ramGet n nibbles depth) s.healthy).1 =
      value ideal (ramGet (mapLeaves (fetch s) n pfx) nibbles depth) := by
  match n with
  | .empty => rfl
  | .extension path child hash =>
    rw [mapLeaves, ramGet, ramGet]
    split
    · exact ramGet_loaded s child (pfx ++ path) nibbles _
    · rfl
  | .branch cs hash =>
    rw [mapLeaves, ramGet, ramGet]
    cases nibbles[depth]? with
    | none => rfl
    | some idx => exact slotGet_loaded s (cs idx) (pfx ++ [idx]) nibbles depth

theorem slotGet_loaded (s : Store) (slot : RamSlot) (pfx nibbles : List Nibble) (depth : Nat) :
    (run exec (slotGet slot nibbles depth) s.healthy).1 =
      value ideal (slotGet (mapLeavesIn (fetch s) slot pfx) nibbles depth) := by
  match slot with
  | .none => rfl
  | .ram child => exact ramGet_loaded s child pfx nibbles (depth + 1)
  | .disk ptr root => exact (run_readLazy s ptr _).trans (value_mem _ _).symm
  | .mem bytes root => 
    show (run exec (attempt (.pure (deserializeSubtree bytes)) _ _) _).1 = value ideal (attempt _ _ _)
    cases deserializeSubtree bytes <;> rfl
  | .account path nonce balance codeHash storage =>
    rw [mapLeavesIn, slotGet, slotGet, hashRam_mapLeaves (fetch_hash s)]
    rfl

end

mutual

theorem ramGetStorage_loaded (s : Store) (n : RamNode) (pfx nibbles : List Nibble) (depth : Nat)
    (key : Key) : (run exec (ramGetStorage n nibbles depth key) s.healthy).1 =
      value ideal (ramGetStorage (mapLeaves (fetch s) n pfx) nibbles depth key) := by
  match n with
  | .empty => rfl
  | .extension path child hash =>
    rw [mapLeaves, ramGetStorage, ramGetStorage]
    split
    · exact ramGetStorage_loaded s child (pfx ++ path) nibbles _ key
    · rfl
  | .branch cs hash =>
    rw [mapLeaves, ramGetStorage, ramGetStorage]
    cases nibbles[depth]? with
    | none => rfl
    | some idx => exact slotGetStorage_loaded s (cs idx) (pfx ++ [idx]) nibbles depth key

theorem slotGetStorage_loaded (s : Store) (slot : RamSlot) (pfx nibbles : List Nibble) (depth : Nat)
    (key : Key) : (run exec (slotGetStorage slot nibbles depth key) s.healthy).1 =
      value ideal (slotGetStorage (mapLeavesIn (fetch s) slot pfx) nibbles depth key) := by
  match slot with
  | .none => rfl
  | .ram child => exact ramGetStorage_loaded s child pfx nibbles (depth + 1) key
  | .disk ptr root => exact (run_readLazy s ptr _).trans (value_mem _ _).symm
  | .mem bytes root =>
    show (run exec (attempt (.pure (deserializeSubtree bytes)) _ _) _).1 = value ideal (attempt _ _ _)
    cases deserializeSubtree bytes <;> rfl
  | .account path nonce balance codeHash storage =>
    rw [mapLeavesIn, slotGetStorage, slotGetStorage]
    split
    · exact ramGet_loaded s storage (pfx ++ path) _ 0
    · rfl

end

/-- Reads depend on the loaded frontier alone. -/
theorem getValue_loaded (s : Store) (n : RamNode) (key : Key) :
    getValue s n key = value ideal (ramGet (loaded s n) (keyNibbles key) 0) :=
  ramGet_loaded s n [] (keyNibbles key) 0

theorem getStorage_loaded (s : Store) (n : RamNode) (key slot : Key) :
    getStorage s n key slot = value ideal (ramGetStorage (loaded s n) (keyNibbles key) 0 slot) :=
  ramGetStorage_loaded s n [] (keyNibbles key) 0 slot

/-- Two databases with the same root that answer every read alike. -/
structure SameState (s : Store) (n : RamNode) (s' : Store) (n' : RamNode) : Prop where
  root : hashRam n' = hashRam n
  value : ∀ key, getValue s' n' key = getValue s n key
  slot : ∀ key slot, getStorage s' n' key slot = getStorage s n key slot

theorem sameState_of_loaded {s s' : Store} {n n' : RamNode} (h : loaded s' n' = loaded s n) :
    SameState s n s' n' where
  root := by rw [← hashRam_loaded s' n', h, hashRam_loaded]
  value key := by rw [getValue_loaded, getValue_loaded, h]
  slot key slot := by rw [getStorage_loaded, getStorage_loaded, h]

end

end FlatMpt
