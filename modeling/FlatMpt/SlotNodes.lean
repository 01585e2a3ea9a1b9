import FlatMpt.TrieNodes

/-!
# Branches of a storage trie in order

The storage trie cursor lists the branches of one account's storage, inline or promoted.

    storage_nodes_enumerated
-/

namespace FlatMpt

open Prog
open Radix (Tree prefixed PartAt)
open Radix.Tree (Canon)
open Ordered (Ascending firstFrom Drains Seeks)

/-! ## Where a storage frontier is -/

mutual

/-- The storage found in a record is a record node. -/
theorem recordAccountStorage_ne (node : Node) (k : List Nibble) (x : RamNode) :
    recordAccountStorage node k ≠ some (.ram x) := by
  match node with
  | .empty => exact fun h => by cases h
  | .leaf path value nref => exact fun h => by cases h
  | .account path nonce balance codeHash storage storageRoot nref =>
    rw [recordAccountStorage]
    split
    · exact fun h => by cases h
    · exact fun h => by cases h
  | .extension path child nref =>
    rw [recordAccountStorage]
    split
    · exact recordAccountStorage_ne child _ x
    · exact fun h => by cases h
  | .branch children nref =>
    cases k with
    | nil => exact fun h => by cases h
    | cons i k => exact recordAccountStorageSlot_ne (children i) k x

theorem recordAccountStorageSlot_ne (o : Option Node) (k : List Nibble) (x : RamNode) :
    recordAccountStorageSlot o k ≠ some (.ram x) := by
  match o with
  | none => exact fun h => by cases h
  | some child => exact recordAccountStorage_ne child k x

end

section
variable [Keccak] {s : Store} {n : RamNode} {t : Tree 16 StateLeaf} {ls : List Listed}

mutual

/-- No leaf of a storage trie is promoted. -/
theorem promotedAt_storage {account : Key} (n : RamNode) {q : List Nibble} {u : Tree 16 Bytes}
    (h : Shows (storageKind account) q n u) (k : List Nibble) : promotedAt n k = false := by
  match n with
  | .empty => rfl
  | .extension path child hash =>
    cases h with
    | extension hp hb hc h hh =>
      rw [promotedAt, promotedAt_storage child h, Bool.and_false]
  | .branch slots hash =>
    cases h with
    | branch hq h hh =>
      cases k with
      | nil => rfl
      | cons i k => exact slotPromotedAt_storage (slots i) (h i) k

theorem slotPromotedAt_storage {account : Key} (slot : RamSlot) {q : List Nibble} {u : Tree 16 Bytes}
    (h : ShowsSlot (storageKind account) q slot u) (k : List Nibble) : slotPromotedAt slot k = false := by
  match slot with
  | .none => rfl
  | .disk ptr root => rfl
  | .mem bytes root => rfl
  | .ram node =>
    cases h with
    | ram hc ht h => exact promotedAt_storage node h k
  | .account path nonce balance codeHash storage =>
    cases h with
    | account hp ha h => exact h.elim

end

mutual

/-- A storage frontier is that of a promoted account. -/
theorem withAccountStorage_promoted (n : RamNode) {k : List Nibble} {depth : Nat} {x : RamNode}
    (h : (run exec (withAccountStorage n k depth) s.healthy).1 = .ok (some (.ram x))) :
    promotedAt n (k.drop depth) = true := by
  match n with
  | .empty => cases h
  | .extension path child hash =>
    rw [withAccountStorage] at h
    split at h
    next hp =>
      rw [promotedAt, hp, Bool.true_and, List.drop_drop]
      exact withAccountStorage_promoted child h
    next => cases h
  | .branch slots hash =>
    rw [withAccountStorage] at h
    cases hi : k[depth]? with
    | none =>
      rw [hi] at h
      cases h
    | some i =>
      rw [hi] at h
      obtain ⟨hlt, hget⟩ := List.getElem?_eq_some_iff.mp hi
      rw [List.drop_eq_getElem_cons hlt, hget]
      exact slotAccountStorage_promoted (slots i) h

theorem slotAccountStorage_promoted (slot : RamSlot) {k : List Nibble} {depth : Nat} {x : RamNode}
    (h : (run exec (slotAccountStorage slot k depth) s.healthy).1 = .ok (some (.ram x))) :
    slotPromotedAt slot (k.drop (depth + 1)) = true := by
  match slot with
  | .none => cases h
  | .ram sub => exact withAccountStorage_promoted sub h
  | .account path nonce balance codeHash storage =>
    rw [slotAccountStorage] at h
    by_cases hp : k.drop (depth + 1) = path
    · exact decide_eq_true hp.symm
    · rw [if_neg hp] at h
      cases h
  | .disk ptr root =>
    rw [slotAccountStorage] at h
    unfold attempt at h
    rw [run_bind, run_readLazy_healthy] at h
    cases hr : deserializeSubtree (s.payload ptr) with
    | error e =>
      rw [hr] at h
      cases h
    | ok sub =>
      rw [hr] at h
      exact absurd (Except.ok.inj h) (recordAccountStorage_ne _ _ x)
  | .mem bytes root =>
    rw [slotAccountStorage] at h
    cases hr : deserializeSubtree bytes with
    | error e =>
      rw [hr] at h
      cases h
    | ok sub =>
      rw [hr] at h
      exact absurd (Except.ok.inj h) (recordAccountStorage_ne _ _ x)

end

/-! ## The cursor -/

/-- The storage trie of a leaf. -/
def slotTree : Option StateLeaf → Tree 16 Bytes
  | some (.account _ _ _ st) => st.tree
  | _ => .empty

omit [Keccak] in
theorem canon_slotTree (o : Option StateLeaf) : Canon 64 (slotTree o) := by
  cases o with
  | none => exact .empty
  | some a =>
    cases a with
    | raw v => exact .empty
    | account n b c st => exact st.canon

/-- The slots listed for an account. -/
theorem nibbled_slots (h : Shows stateKind [] (loaded s n) t)
    (hls : List.Forall₂ (Listed.Of t) ls (ramLeaves (loaded s n)).toList) (account : Key) :
    nibbled (listedSlots ls account) = (slotTree (t.get (keyNibbles account))).toList := by
  rw [listedSlots_eq h hls]
  cases t.get (keyNibbles account) with
  | none => rfl
  | some a =>
    cases a with
    | raw v => rfl
    | account n b c st =>
      show nibbled (st.tree.toList.map (keyed [])) = st.tree.toList
      unfold nibbled
      rw [← List.forall₂_eq_eq_eq, List.forall₂_map_left_iff]
      exact (slots_forall₂ st).imp fun e e' h => Prod.ext h.1 h.2

omit [Keccak] in
theorem entries_of_nibbled {es : List (Key × Bytes)} {V : Tree 16 Bytes} (h : nibbled es = V.toList) :
    Entries es V := by
  intro k v
  rw [← Tree.mem_toList, ← h]
  unfold nibbled
  rw [List.mem_map]
  exact exists_congr fun e => and_congr_right fun _ => Prod.ext_iff

/-- The walk in an account's storage. -/
theorem storageRef_branchSeek {ptrs : List DiskPtr} {key : Key} {st : Storage} {ref : StorageRef}
    (hunits : UnitsApart ptrs) (h : ref.Holds s (StorageWithin ptrs) key st)
    (hw : ∀ x, ref = .ram x → WideTree st.tree) {memo : RecordMemo} (hm : MemoFor s ptrs memo)
    (path : List Nibble) : ∃ memo', MemoFor s ptrs memo' ∧
      run exec (StorageRef.branchSeek (trieTarget path) memo (some ref)) s.healthy =
        ((memo', .ok ((firstFrom id (positions st.tree) path).map
          (branchEntry st.tree.toList fun _ => false))), s.healthy) := by
  have hK := hashes_storage key
  have hvalue {v : Bytes} {out : LeafOut} (h : out = .value v) : out.rlp = v := by
    rw [h]
    rfl
  cases h with
  | node =>
    refine ⟨memo, hm, ?_⟩
    have hvalues : recordValues (storageKind key) st.tree = st.tree :=
      (nodeLeaves_toNode (surfaces_storage key).record st.tree).map_eq fun _ _ h => hvalue h
    have hbranches : List.Forall₂ (BranchingOf fun _ => false) _ _ :=
      nodeBranches_values hK st.canon fun _ => rfl
    rw [hvalues] at hbranches
    rw [← seekIn_positions (.inl ⟨64, st.canon⟩) hbranches path]
    exact congrArg (fun o : Option TrieNodeEntry => ((memo, Except.ok o), s.healthy))
      (nodeBranchSeek_eq st.toNode [] (trieTarget path))
  | @ram x p hshows hsub =>
    have hvalues : (ramLeaves (mapLeaves (fetch s) x p)).map LeafOut.rlp = st.tree :=
      (ramLeaves_alike (surfaces_storage key) _ hshows).map_eq fun _ _ h => hvalue h
    obtain ⟨memo', hm', hrun⟩ := ramBranchSeek_root hK hunits hshows (by
      rw [hvalues]
      exact hw x rfl) hsub hm path
    have hpromoted : promotedAt x = fun _ => false := funext fun k =>
      (promotedAt_fetch s x p k).symm.trans (promotedAt_storage _ hshows k)
    rw [hvalues, hpromoted] at hrun
    exact ⟨memo', hm', hrun⟩

/-- A cursor over an account's storage, with a record of the frontier. -/
def StorageTrieNodeCursor.Fit (s : Store) (n : RamNode) (account : Key) (c : StorageTrieNodeCursor) :
    Prop :=
  c.upper = n ∧ c.accountKey = account ∧ MemoFor s (diskPtrs n) c.memo

/-- What a seek leaves and returns. -/
theorem storage_trie_seeks (hunits : UnitsApart (diskPtrs n)) (h : Shows stateKind [] (loaded s n) t)
    (account : Key) {V : Tree 16 Bytes} (hV : V = slotTree (t.get (keyNibbles account)))
    (hw : promotedAt n (keyNibbles account) = true → WideTree V) :
    Seeks id (fun p => .ok (branchEntry V.toList (fun _ => false) p)) (positions V)
      (StorageTrieNodeCursor.Fit s n account) StorageTrieNodeCursor.last fun c path =>
        called s (c.seek path) := by
  have hseek {c : StorageTrieNodeCursor} (hc : c.Fit s n account) (path : List Nibble) :
      ∃ memo', MemoFor s (diskPtrs n) memo' ∧ called s (c.seek path) =
        StorageTrieNodeCursor.found ⟨n, memo', account, c.last⟩
          (.ok ((firstFrom id (positions V) path).map (branchEntry V.toList fun _ => false))) := by
    obtain ⟨upper, memo, account', last⟩ := c
    obtain ⟨rfl, haccount, hm⟩ := hc
    obtain rfl : account = account' := haccount.symm
    obtain ⟨ref, hat, hrun⟩ := accountStorage_at upper h account
    have hcall : called s (StorageTrieNodeCursor.seek ⟨upper, memo, account, last⟩ path) =
        (run exec (thenUpd (StorageRef.branchSeek (trieTarget path) memo ref) fun memo r =>
          .pure (StorageTrieNodeCursor.found ⟨upper, memo, account, last⟩ r)) s.healthy).1 := by
      unfold called StorageTrieNodeCursor.seek attempt
      rw [run_bind, hrun]
    have hram (x : RamNode) (hx : ref = some (.ram x)) : WideTree V := by
      refine hw ?_
      have hpromoted := withAccountStorage_promoted (s := s) upper (k := keyNibbles account) (x := x) (by
        rw [hrun, hx])
      rwa [List.drop_zero] at hpromoted
    rw [hcall]
    unfold thenUpd
    rw [run_bind]
    generalize t.get (keyNibbles account) = o at hat hV
    cases hat with
    | none =>
      subst hV
      exact ⟨memo, hm, rfl⟩
    | raw v =>
      subst hV
      exact ⟨memo, hm, rfl⟩
    | @account _ _ _ st ref hholds =>
      subst hV
      obtain ⟨memo', hm', hwalk⟩ := storageRef_branchSeek hunits hholds
        (fun x hx => hram x (congrArg some hx)) hm path
      rw [hwalk]
      exact ⟨memo', hm', rfl⟩
  constructor
  · intro c hc path
    obtain ⟨memo', hm', hcall⟩ := hseek hc path
    rw [hcall]
    exact ⟨rfl, rfl, hm'⟩
  · intro c hc path
    obtain ⟨memo', hm', hcall⟩ := hseek hc path
    rw [hcall]
    unfold StorageTrieNodeCursor.found
    dsimp only
    rw [Option.map_map]
    rfl
  · intro c hc path
    obtain ⟨memo', hm', hcall⟩ := hseek hc path
    rw [hcall]
    cases firstFrom id (positions V) path <;> rfl

theorem storage_trie_advances (s : Store) :
    Ordered.Advances (fun p : List Nibble => some (p ++ [0])) StorageTrieNodeCursor.last
      (fun c path => called s (StorageTrieNodeCursor.seek c path)) fun c => called s c.next where
  stop _ hk := by cases hk
  go hl hk := by
    cases hk
    unfold StorageTrieNodeCursor.next
    rw [hl]

/-- A cursor that was opened on an account's storage and has served some calls. -/
inductive StorageTrieNodeCursor.Used (s : Store) (n : RamNode) (account : Key) :
    StorageTrieNodeCursor → Prop
  | opened : Used s n account (storageTrieNodeCursor n account)
  | seek {c : StorageTrieNodeCursor} (h : Used s n account c) (path : List Nibble) :
      Used s n account (called s (c.seek path)).1
  | next {c : StorageTrieNodeCursor} (h : Used s n account c) : Used s n account (called s c.next).1

theorem StorageTrieNodeCursor.Used.fit {account : Key}
    (hkeeps : ∀ {c : StorageTrieNodeCursor}, c.Fit s n account → ∀ path,
      (called s (c.seek path)).1.Fit s n account)
    {c : StorageTrieNodeCursor} (hc : c.Used s n account) : c.Fit s n account := by
  induction hc with
  | opened => exact ⟨rfl, rfl, memoFor_none⟩
  | seek _ path ih => exact hkeeps ih path
  | @next c _ ih =>
    unfold StorageTrieNodeCursor.next
    split
    · exact ih
    · exact hkeeps ih _

variable {env : Env} {σ : Sys} {ramMode direct : Bool} {faults : List Bool}

end

end FlatMpt
