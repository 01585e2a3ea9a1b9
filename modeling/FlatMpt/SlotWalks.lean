import FlatMpt.Enumerate

/-!
# Slots in order

The storage cursor lists an account's slots, inline or promoted.  A debug build checks that
a record's stored prefix is as long as the walk; the records of a promoted storage carry the
account's 64 nibbles as well, so there the check fails.

    slots_enumerated
    depth_checked_iff
-/

namespace FlatMpt

open Prog
open Radix (Tree prefixed atLeast)
open Ordered (Ascending firstFrom Drains Seeks)

/-! ## Promoted storage -/

mutual

/-- The storage frontiers of the promoted accounts. -/
def promotedStorages : RamNode → List RamNode
  | .empty => []
  | .extension _ child _ => promotedStorages child
  | .branch children _ => (List.finRange 16).flatMap fun i => slotStorages (children i)

def slotStorages : RamSlot → List RamNode
  | .none => []
  | .ram node => promotedStorages node
  | .disk .. => []
  | .account _ _ _ _ storage => [storage]
  | .mem .. => []

end

mutual

theorem mem_diskPtrs_of_promoted (n : RamNode) {x : RamNode} (hx : x ∈ promotedStorages n) {p : DiskPtr}
    (hp : p ∈ diskPtrs x) : p ∈ diskPtrs n := by
  match n with
  | .empty => cases hx
  | .extension path child hash => exact mem_diskPtrs_of_promoted child hx hp
  | .branch children hash =>
    obtain ⟨i, hi, hx⟩ := List.mem_flatMap.mp hx
    exact List.mem_flatMap.mpr ⟨i, hi, mem_slotPtrs_of_promoted (children i) hx hp⟩

theorem mem_slotPtrs_of_promoted (slot : RamSlot) {x : RamNode} (hx : x ∈ slotStorages slot)
    {p : DiskPtr} (hp : p ∈ diskPtrs x) : p ∈ slotPtrs slot := by
  match slot with
  | .none => cases hx
  | .ram node => exact mem_diskPtrs_of_promoted node hx hp
  | .disk ptr root => cases hx
  | .account path nonce balance codeHash storage =>
    obtain rfl := List.mem_singleton.mp hx
    exact hp
  | .mem bytes root => cases hx

end

section
variable [Keccak] {t : Tree 16 StateLeaf} {s : Store} {n : RamNode} {ls : List Listed}

/-! ## Descent to the storage -/

/-- The storage `st` of the account at `key`. -/
inductive StorageRef.Holds (s : Store) (P : RamNode → Prop) (key : Key) (st : Storage) :
    StorageRef → Prop
  | node : Holds s P key st (.node st.toNode)
  | ram {n : RamNode} {p : List Nibble}
      (h : Shows (storageKind key) [] (mapLeaves (fetch s) n p) st.tree) (hP : P n) :
      Holds s P key st (.ram n)

theorem StorageRef.Holds.imp {s : Store} {P Q : RamNode → Prop} {key : Key} {st : Storage}
    {ref : StorageRef} (h : ref.Holds s P key st) (hPQ : ∀ x, ref = .ram x → P x → Q x) :
    ref.Holds s Q key st := by
  cases h with
  | node => exact .node
  | ram h hP => exact .ram h (hPQ _ rfl hP)

/-- The storage found for a leaf of the state trie. -/
inductive StorageAt (s : Store) (P : RamNode → Prop) (key : Key) :
    Option StateLeaf → Option StorageRef → Prop
  | none : StorageAt s P key none none
  | raw (v : Bytes) : StorageAt s P key (some (.raw v)) none
  | account {n : UInt64} {b : U256} {c : Hash} {st : Storage} {ref : StorageRef}
      (h : ref.Holds s P key st) : StorageAt s P key (some (.account n b c st)) (some ref)

variable {P : RamNode → Prop} {ptrs : List DiskPtr} {key : Key}

theorem recordAccountStorage_at (s : Store) (P : RamNode → Prop) (key : Key) (t : Tree 16 StateLeaf)
    (k : List Nibble) : StorageAt s P key (t.get k) (recordAccountStorage (toNode stateLeaf t) k) := by
  induction t generalizing k with
  | empty => exact .none
  | leaf p a =>
    rw [Tree.get_leaf]
    cases a with
    | raw v =>
      show StorageAt s P key _ none
      split
      · exact .raw v
      · exact .none
    | account n b c st =>
      show StorageAt s P key _ (if k = p then some (.node st.toNode) else none)
      split
      · exact .account .node
      · exact .none
  | ext p c ih =>
    show StorageAt s P key _ (if p.isPrefixOf k then _ else _)
    by_cases hpre : ∃ r, k = p ++ r
    · obtain ⟨r, rfl⟩ := hpre
      rw [isPrefixOf_append, if_pos rfl, Tree.get_ext_append, List.drop_left]
      exact ih r
    · rw [not_isPrefixOf hpre, get_ext_off hpre]
      exact .none
  | branch cs ih =>
    cases k with
    | nil => exact .none
    | cons i k =>
      show StorageAt s P key _ (recordAccountStorageSlot (asChild (toNode stateLeaf (cs i))) k)
      have hslot : recordAccountStorageSlot (asChild (toNode stateLeaf (cs i))) k =
          recordAccountStorage (toNode stateLeaf (cs i)) k := by
        cases toNode stateLeaf (cs i) <;> rfl
      rw [hslot]
      exact ih i k

mutual

/-- The descent to an account's storage. -/
theorem withAccountStorage_run (n : RamNode) {p q rest : List Nibble} {t : Tree 16 StateLeaf}
    (h : Shows stateKind q (mapLeaves (fetch s) n p) t) (hP : ∀ x ∈ promotedStorages n, P x)
    (hk : keyNibbles key = q ++ rest) : ∃ ref, StorageAt s P key (t.get rest) ref ∧
      run exec (withAccountStorage n (keyNibbles key) q.length) s.healthy = (.ok ref, s.healthy) := by
  match n with
  | .empty =>
    cases h
    exact ⟨none, .none, rfl⟩
  | .extension path child hash =>
    rw [mapLeaves] at h
    cases h with
    | @extension _ _ _ t _ hp hb hcc hch hh =>
    rw [withAccountStorage, hk, List.drop_left, ← hk]
    by_cases hpre : ∃ r, rest = path ++ r
    · obtain ⟨r, rfl⟩ := hpre
      rw [isPrefixOf_append, if_pos rfl, Tree.get_ext_append, ← List.length_append]
      exact withAccountStorage_run child hch hP (by rw [hk, List.append_assoc])
    · rw [not_isPrefixOf hpre, get_ext_off hpre]
      exact ⟨none, .none, rfl⟩
  | .branch slots hash =>
    rw [mapLeaves] at h
    cases h with
    | @branch _ _ ts _ hq hs hh =>
    have hlen := key_length hk
    cases rest with
    | nil =>
      rw [List.length_nil] at hlen
      omega
    | cons i r =>
      have hi : (keyNibbles key)[q.length]? = some i := by
        rw [hk, List.getElem?_append_right (le_refl _), Nat.sub_self]
        rfl
      rw [withAccountStorage, hi, Tree.get_branch_cons]
      have hslot := slotAccountStorage_run (slots i) (hs i)
        (fun x hx => hP x (List.mem_flatMap.mpr ⟨i, List.mem_finRange i, hx⟩)) (by simp)
        (show keyNibbles key = (q ++ [i]) ++ r by rw [hk, List.append_assoc]; rfl)
      rwa [List.length_append, List.length_singleton, Nat.add_sub_cancel] at hslot

theorem slotAccountStorage_run (slot : RamSlot) {p q rest : List Nibble} {t : Tree 16 StateLeaf}
    (h : ShowsSlot stateKind q (mapLeavesIn (fetch s) slot p) t) (hP : ∀ x ∈ slotStorages slot, P x)
    (hq : q ≠ []) (hk : keyNibbles key = q ++ rest) : ∃ ref, StorageAt s P key (t.get rest) ref ∧
      run exec (slotAccountStorage slot (keyNibbles key) (q.length - 1)) s.healthy =
        (.ok ref, s.healthy) := by
  have hpos := List.length_pos_of_ne_nil hq
  have hdepth : q.length - 1 + 1 = q.length := by omega
  match slot with
  | .none =>
    cases h
    exact ⟨none, .none, rfl⟩
  | .ram sub =>
    rw [mapLeavesIn] at h
    cases h with
    | ram hc ht h =>
      rw [slotAccountStorage, hdepth]
      exact withAccountStorage_run sub h hP hk
  | .account path nonce balance codeHash storage =>
    rw [mapLeavesIn] at h
    cases h with
    | account hp ha hl =>
      obtain ⟨account, st, hfull, rfl, -, hshows⟩ := hl
      rw [slotAccountStorage, hdepth, hk, List.drop_left, Tree.get_leaf]
      by_cases hr : path = rest
      · obtain rfl := hr
        obtain rfl : account = key := keyNibbles_injective (hfull.symm.trans hk.symm)
        rw [if_pos rfl, if_pos rfl]
        exact ⟨_, .account (.ram hshows (hP storage List.mem_cons_self)), rfl⟩
      · rw [if_neg (Ne.symm hr), if_neg (Ne.symm hr)]
        exact ⟨none, .none, rfl⟩
  | .disk ptr root =>
    change ShowsSlot stateKind q (.mem (s.payload ptr) root) t at h
    cases h with
    | mem h =>
      refine ⟨_, recordAccountStorage_at s P key t rest, ?_⟩
      rw [slotAccountStorage]
      unfold attempt
      rw [run_bind, run_readLazy_healthy, h.read]
      show (Except.ok (recordAccountStorage _ ((keyNibbles key).drop q.length)), _) = _
      rw [hk, List.drop_left]
      rfl
  | .mem bytes root =>
    change ShowsSlot stateKind q (.mem bytes root) t at h
    cases h with
    | mem h =>
      refine ⟨_, recordAccountStorage_at s P key t rest, ?_⟩
      rw [slotAccountStorage, h.read]
      show (Except.ok (recordAccountStorage _ ((keyNibbles key).drop q.length)), _) = _
      rw [hk, List.drop_left]
      rfl

end

/-- The slots listed for an account. -/
def listedSlots (ls : List Listed) (account : Key) : List (Key × Bytes) :=
  (ls.find? fun l => l.key = account).elim [] Listed.slots

def StorageCursor.Fit (s : Store) (n : RamNode) (account : Key) (c : StorageCursor) : Prop :=
  c.upper = n ∧ c.accountKey = account ∧ MemoFor s (diskPtrs n) c.memo

/-- A slot and the leaf that it is surfaced as. -/
def SlotOf (x : Key × Bytes) (e : List Nibble × LeafOut) : Prop := keyNibbles x.1 = e.1 ∧ e.2 = .value x.2

omit [Keccak] in
/-- The first slot from a target on is the first leaf. -/
theorem firstFrom_slots {st : Storage} {T : Tree 16 LeafOut}
    (h : Tree.Alike (fun v out => out = LeafOut.value v) st.tree T) (slot : Key) :
    Option.Rel SlotOf (firstFrom Prod.fst (st.tree.toList.map (keyed [])) slot)
      (T.seek (some (keyNibbles slot))) := by
  have hfirst : Option.Rel (fun (x : Key × Bytes) (e : List Nibble × Bytes) =>
      keyNibbles x.1 = e.1 ∧ x.2 = e.2) (firstFrom Prod.fst (st.tree.toList.map (keyed [])) slot)
      (st.tree.seek (some (keyNibbles slot))) :=
    Radix.find_rel (slots_forall₂ st) fun h => by
      unfold atLeast
      rw [Option.all_some, ← h.1, compare_keyNibbles]
  have hseek := h.seek (some (keyNibbles slot))
  generalize firstFrom Prod.fst _ slot = o at hfirst ⊢
  generalize st.tree.seek _ = o' at hfirst hseek
  generalize T.seek _ = o'' at hseek ⊢
  cases hfirst with
  | none =>
    cases hseek
    exact .none
  | some h1 =>
    cases hseek with
    | some h2 => exact .some ⟨h1.1.trans h2.1, h2.2.trans (congrArg _ h1.2.symm)⟩

/-- A storage frontier whose walks meet the depth check. -/
def Walkable (debug : Bool) (ptrs : List DiskPtr) (storage : RamNode) : Prop :=
  (∀ x ∈ diskPtrs storage, x ∈ ptrs) ∧ (debug = true → diskPtrs storage = [])

/-- The seek in an account's storage. -/
theorem storageRef_seek (hunits : UnitsApart ptrs) {debug : Bool} {st : Storage} {ref : StorageRef}
    (h : ref.Holds s (Walkable debug ptrs) key st) {memo : RecordMemo} (hm : MemoFor s ptrs memo)
    (slot : Key) : ∃ memo' o, MemoFor s ptrs memo' ∧
      Option.Rel SlotOf (firstFrom Prod.fst (st.tree.toList.map (keyed [])) slot) o ∧
      run exec (StorageRef.seek debug (keyNibbles slot) memo (some ref)) s.healthy =
        ((memo', .ok o), s.healthy) := by
  cases h with
  | node =>
    have halike := nodeLeaves_toNode (surfaces_storage key).record st.tree
    refine ⟨memo, _, hm, firstFrom_slots halike slot, ?_⟩
    have hseek := nodeSeek_eq st.toNode (positioned_root false (keyNibbles slot))
    show ((memo, Except.ok (nodeSeek _ _ _ _)), _) = _
    rw [hseek]
    have hid : prefixed (α := LeafOut) (r := 16) [] = id := rfl
    rw [hid, Option.map_id]
    rfl
  | ram h hP =>
    obtain ⟨memo', hm', hrun⟩ :=
      ramSeek_root hunits (fun hd => .inr (hP.2 hd)) h hP.1 hm (keyNibbles slot)
    exact ⟨memo', _, hm', firstFrom_slots (ramLeaves_alike (surfaces_storage key) _ h) slot, hrun⟩

/-- The slots of an account in a listing. -/
theorem listedSlots_eq (h : Shows stateKind [] (loaded s n) t)
    (hls : List.Forall₂ (Listed.Of t) ls (ramLeaves (loaded s n)).toList) (account : Key) :
    listedSlots ls account = (t.get (keyNibbles account)).elim [] StateLeaf.slots := by
  have hget := (ramLeaves_alike surfaces_state (loaded s n) h).get (keyNibbles account)
  rw [Tree.get_eq_find (ramLeaves _)] at hget
  have hfind := find_listed hls account
  unfold listedSlots
  generalize hf : (ramLeaves (loaded s n)).toList.find? _ = o' at hget hfind
  generalize ls.find? _ = o at hfind ⊢
  cases hfind with
  | none =>
    cases ht : t.get (keyNibbles account) with
    | none => rfl
    | some a =>
      rw [ht] at hget
      cases hget
  | @some l e hof =>
    have hkey : e.1 = keyNibbles account := by simpa using List.find?_some hf
    obtain ⟨a, ha, -, hslots⟩ := hof.leaf
    rw [← hkey, ha]
    exact hslots

/-- A storage frontier whose records are among those of the frontier. -/
def StorageWithin (ptrs : List DiskPtr) (storage : RamNode) : Prop := ∀ x ∈ diskPtrs storage, x ∈ ptrs

/-- The storage of an account of a view, with the records of the frontier. -/
theorem accountStorage_at (n : RamNode) (h : Shows stateKind [] (loaded s n) t) (account : Key) :
    ∃ ref, StorageAt s (StorageWithin (diskPtrs n)) account (t.get (keyNibbles account)) ref ∧
      run exec (withAccountStorage n (keyNibbles account) 0) s.healthy = (.ok ref, s.healthy) :=
  withAccountStorage_run n h (fun _ hx _ hp => mem_diskPtrs_of_promoted n hx hp) (List.nil_append _).symm

/-- The account's storage is promoted, to the frontier `x`. -/
def PromotedTo (s : Store) (n : RamNode) (account : Key) (x : RamNode) : Prop :=
  (run exec (withAccountStorage n (keyNibbles account) 0) s.healthy).1 = .ok (some (.ram x))

/-- The key's leaf has a storage of its own: it is kept as an account. -/
def StructuredAt (s : Store) (n : RamNode) (key : Key) : Prop :=
  ∃ ref, (run exec (withAccountStorage n (keyNibbles key) 0) s.healthy).1 = .ok (some ref)

theorem structuredAt_iff (h : Shows stateKind [] (loaded s n) t) :
    StructuredAt s n key ↔ ∃ m b c st, t.get (keyNibbles key) = some (.account m b c st) := by
  obtain ⟨ref, hat, hrun⟩ := accountStorage_at n h key
  unfold StructuredAt
  rw [hrun]
  generalize t.get (keyNibbles key) = o at hat ⊢
  cases hat with
  | none => simp
  | raw v => simp
  | account hholds => exact ⟨fun _ => ⟨_, _, _, _, rfl⟩, fun _ => ⟨_, rfl⟩⟩

/-- What a seek of a slot leaves and returns. -/
theorem storage_seek (hunits : UnitsApart (diskPtrs n)) {debug : Bool}
    {account : Key} (hw : debug = true → ∀ x, PromotedTo s n account x → diskPtrs x = [])
    (h : Shows stateKind [] (loaded s n) t)
    (hls : List.Forall₂ (Listed.Of t) ls (ramLeaves (loaded s n)).toList)
    {c : StorageCursor} (hc : c.Fit s n account) (slot : Key) :
    ∃ c' : StorageCursor, c'.Fit s n account ∧
      c'.last = (firstFrom Prod.fst (listedSlots ls account) slot).map Prod.fst ∧
      called s (c.seek debug slot) =
        (c', (firstFrom Prod.fst (listedSlots ls account) slot).elim (.ok none) fun e => .ok (some e)) := by
  obtain ⟨upper, memo, account', last⟩ := c
  obtain ⟨rfl, haccount, hm⟩ := hc
  obtain rfl : account = account' := haccount.symm
  rw [listedSlots_eq h hls]
  obtain ⟨ref, hat, hrun⟩ := accountStorage_at upper h account
  have hwalk (x : RamNode) (hx : ref = some (.ram x)) (hin : StorageWithin (diskPtrs upper) x) :
      Walkable debug (diskPtrs upper) x :=
    ⟨hin, fun hd => hw hd x (by rw [PromotedTo, hrun, hx])⟩
  have hcall : called s (StorageCursor.seek debug ⟨upper, memo, account, last⟩ slot) =
      (run exec (thenUpd (StorageRef.seek debug (keyNibbles slot) memo ref) fun memo r =>
        .pure (StorageCursor.found debug ⟨upper, memo, account, last⟩ r)) s.healthy).1 := by
    unfold called StorageCursor.seek attempt
    rw [run_bind, hrun]
  rw [hcall]
  unfold thenUpd
  rw [run_bind]
  generalize t.get (keyNibbles account) = o at hat ⊢
  cases hat with
  | none => exact ⟨⟨upper, memo, account, none⟩, ⟨rfl, rfl, hm⟩, rfl, rfl⟩
  | raw v => exact ⟨⟨upper, memo, account, none⟩, ⟨rfl, rfl, hm⟩, rfl, rfl⟩
  | @account _ _ _ st ref hholds =>
    have hfound := hholds.imp fun x hx => hwalk x (congrArg some hx)
    obtain ⟨memo', o, hm', hrel, hseek⟩ := storageRef_seek hunits hfound hm slot
    rw [hseek]
    show ∃ c' : StorageCursor, _ ∧ c'.last = (firstFrom Prod.fst (st.tree.toList.map _) slot).map _ ∧
      StorageCursor.found debug ⟨upper, memo', account, last⟩ (.ok o) =
        (c', (firstFrom Prod.fst (st.tree.toList.map _) slot).elim _ _)
    generalize firstFrom Prod.fst _ slot = o1 at hrel ⊢
    cases hrel with
    | none => exact ⟨⟨upper, memo', account, none⟩, ⟨rfl, rfl, hm'⟩, rfl, rfl⟩
    | @some x e hof =>
      obtain ⟨path, out⟩ := e
      obtain ⟨hkey, hout⟩ := hof
      obtain rfl : keyNibbles x.1 = path := hkey
      obtain rfl : out = .value x.2 := hout
      refine ⟨⟨upper, memo', account, some x.1⟩, ⟨rfl, rfl, hm'⟩, rfl, ?_⟩
      unfold StorageCursor.found
      dsimp only
      rw [leafKey_keyNibbles]
      rfl

theorem storage_seeks (hunits : UnitsApart (diskPtrs n)) {debug : Bool} {account : Key}
    (hw : debug = true → ∀ x, PromotedTo s n account x → diskPtrs x = [])
    (h : Shows stateKind [] (loaded s n) t)
    (hls : List.Forall₂ (Listed.Of t) ls (ramLeaves (loaded s n)).toList) :
    Seeks Prod.fst (fun e => .ok e) (listedSlots ls account) (StorageCursor.Fit s n account)
      StorageCursor.last fun c slot => called s (c.seek debug slot) where
  keeps hc slot := by
    obtain ⟨c', hc', -, hcall⟩ := storage_seek hunits hw h hls hc slot
    rw [hcall]
    exact hc'
  last hc slot := by
    obtain ⟨c', -, hlast, hcall⟩ := storage_seek hunits hw h hls hc slot
    rw [hcall]
    exact hlast
  result hc slot := by
    obtain ⟨c', -, -, hcall⟩ := storage_seek hunits hw h hls hc slot
    rw [hcall]
    rfl

theorem storage_advances (s : Store) (debug : Bool) :
    Ordered.Advances keySuccessor StorageCursor.last (fun c slot => called s (c.seek debug slot))
      fun c => called s (c.next debug) where
  stop hl hk := by
    unfold called StorageCursor.next
    rw [hl]
    dsimp only
    rw [hk]
    rfl
  go hl hk := by
    unfold StorageCursor.next
    rw [hl]
    dsimp only
    rw [hk]

/-! ## The depth check -/

section
variable {account : Key}

mutual

/-- A debug walk to a record below promoted storage fails. -/
theorem ramSeek_panics (hunits : UnitsApart ptrs) (n : RamNode) {p q : List Nibble} {u : Tree 16 Bytes}
    (h : Shows (storageKind account) q (mapLeaves (fetch s) n p) u) (hsub : ∀ x ∈ diskPtrs n, x ∈ ptrs)
    (hne : diskPtrs n ≠ []) : ∃ rest, rest.length = 64 - q.length ∧ ∀ memo, MemoFor s ptrs memo →
      (run exec (ramSeek true n q (q ++ rest) false memo) s.healthy).1.2 = .error .panic := by
  match n with
  | .empty => exact absurd rfl hne
  | .extension path child hash =>
    rw [mapLeaves] at h
    cases h with
    | @extension _ _ _ u _ hp hb hc h hh =>
    obtain ⟨rest, hlen, hpanic⟩ := ramSeek_panics hunits child h hsub hne
    have hdepth : (q ++ path).length < 64 := by
      cases hb with
      | intro children =>
        cases hc with
        | branch hn hcs h2 => omega
    rw [List.length_append] at hlen hdepth
    refine ⟨path ++ rest, by rw [List.length_append]; omega, fun memo hm => ?_⟩
    have hmode : extensionMode false (q ++ (path ++ rest)) (q ++ path) = some false := by
      have hside : Radix.side (q ++ path) (q ++ (path ++ rest)) = .eq :=
        Radix.side_eq_iff.mpr (.inl ⟨rest, (List.append_assoc q path rest).symm⟩)
      unfold Radix.side at hside
      unfold extensionMode rel
      rw [if_neg Bool.false_ne_true]
      simp only [hside]
    rw [ramSeek, hmode]
    have := hpanic memo hm
    rwa [List.append_assoc] at this
  | .branch slots hash =>
    rw [mapLeaves] at h
    cases h with
    | @branch _ _ ts _ hq hs hh =>
    obtain ⟨i, hi⟩ : ∃ i, slotPtrs (slots i) ≠ [] := by
      by_contra hall
      refine hne (List.flatMap_eq_nil_iff.mpr fun i _ => ?_)
      by_contra hi
      exact hall ⟨i, hi⟩
    obtain ⟨rest, hlen, hpanic⟩ := ramChildSeek_panics hunits (slots i) (hs i)
      (fun x hx => hsub x (List.mem_flatMap.mpr ⟨i, List.mem_finRange i, hx⟩)) hi
    rw [List.length_append, List.length_singleton] at hlen
    refine ⟨i :: rest, by rw [List.length_cons]; omega, fun memo hm => ?_⟩
    have hstart : branchStart false (q ++ i :: rest) q = i := by
      unfold branchStart
      rw [if_neg Bool.false_ne_true, List.getD_eq_getElem?_getD,
        List.getElem?_append_right (le_refl _), Nat.sub_self]
      rfl
    have hmode : branchMode false (q ++ i :: rest) q i = false := by
      unfold branchMode
      rw [hstart, decide_eq_false (lt_irrefl i), List.length_append, List.length_cons,
        decide_eq_false (by omega)]
      rfl
    obtain ⟨is, his⟩ : ∃ is, branchRange false (q ++ i :: rest) q = i :: is := by
      unfold branchRange
      rw [hstart, List.drop_eq_getElem_cons (by simp)]
      refine ⟨_, congrArg (· :: _) ?_⟩
      rw [List.getElem_finRange]
      rfl
    have hchild := hpanic memo hm
    rw [List.append_assoc, List.singleton_append] at hchild
    rw [ramSeek, his, seekFirst, hmode]
    unfold thenUpd
    rw [run_bind]
    dsimp only
    generalize run exec (ramChildSeek true (slots i) (q ++ [i]) (q ++ i :: rest) false memo) s.healthy = r
      at hchild ⊢
    obtain ⟨⟨memo', o⟩, s'⟩ := r
    obtain rfl : o = .error .panic := hchild
    rfl

theorem ramChildSeek_panics (hunits : UnitsApart ptrs) (slot : RamSlot) {p q : List Nibble}
    {u : Tree 16 Bytes} (h : ShowsSlot (storageKind account) q (mapLeavesIn (fetch s) slot p) u)
    (hsub : ∀ x ∈ slotPtrs slot, x ∈ ptrs) (hne : slotPtrs slot ≠ []) :
    ∃ rest, rest.length = 64 - q.length ∧ ∀ memo, MemoFor s ptrs memo →
      (run exec (ramChildSeek true slot q (q ++ rest) false memo) s.healthy).1.2 = .error .panic := by
  match slot with
  | .none => exact absurd rfl hne
  | .ram sub =>
    rw [mapLeavesIn] at h
    cases h with
    | ram hc ht h => exact ramSeek_panics hunits sub h hsub hne
  | .mem bytes root => exact absurd rfl hne
  | .account path nonce balance codeHash storage =>
    rw [mapLeavesIn] at h
    cases h with
    | account hp ha hl => exact hl.elim
  | .disk ptr root =>
    change ShowsSlot (storageKind account) q (.mem (s.payload ptr) root) u at h
    cases h with
    | mem h =>
      obtain ⟨k, v, hk⟩ := h.canon.exists_get h.ne_empty
      refine ⟨k, h.canon.get_length hk, fun memo hm => ?_⟩
      obtain ⟨memo', -, hrun⟩ := MemoFor.read hunits hm (hsub ptr List.mem_cons_self) h.read
      rw [ramChildSeek]
      unfold thenUpd
      rw [run_bind, hrun]
      dsimp only
      rw [if_pos]
      · rfl
      · rw [Bool.true_and, bne_iff_ne, storageKind_root, List.length_append, keyNibbles_length]
        omega

end

end

/-- A debug seek of some slot in promoted storage with a record fails. -/
theorem storage_seek_panics {n x : RamNode} (hunits : UnitsApart (diskPtrs n)) {t : Tree 16 StateLeaf}
    (h : Shows stateKind [] (loaded s n) t) {account : Key} (hx : PromotedTo s n account x)
    (hne : diskPtrs x ≠ []) :
    ∃ slot, (called s ((storageCursor n account).seek true slot)).2 = .error .panic := by
  obtain ⟨ref, hat, hrun⟩ := accountStorage_at n h account
  unfold PromotedTo at hx
  rw [hrun] at hx
  obtain rfl : ref = some (.ram x) := by
    cases hx
    rfl
  generalize t.get (keyNibbles account) = o at hat
  cases hat with
  | account hholds =>
    cases hholds with
    | ram hshows hin =>
      obtain ⟨path, hlen, hpanic⟩ := ramSeek_panics hunits x hshows hin hne
      obtain ⟨slot, rfl⟩ := exists_key hlen
      have hseek := hpanic none memoFor_none
      rw [List.nil_append] at hseek
      refine ⟨slot, ?_⟩
      show (called s (StorageCursor.seek true ⟨n, none, account, none⟩ slot)).2 = _
      unfold called StorageCursor.seek attempt
      rw [run_bind, hrun]
      show (run exec (thenUpd (ramSeek true x [] (keyNibbles slot) false none) fun memo r =>
        .pure (StorageCursor.found true ⟨n, memo, account, none⟩ r)) s.healthy).1.2 = _
      unfold thenUpd
      rw [run_bind]
      generalize run exec (ramSeek true x [] (keyNibbles slot) false none) _ = r at hseek ⊢
      obtain ⟨⟨memo', o⟩, s'⟩ := r
      obtain rfl : o = .error .panic := hseek
      rfl

end

/-! ## Slots in order -/

section
variable [Keccak] {env : Env} {σ : Sys} {n : RamNode} {ramMode direct : Bool} {faults : List Bool}

/-- A cursor that was opened on an account's storage and has served some calls. -/
inductive StorageCursor.Used (debug : Bool) (s : Store) (n : RamNode) (account : Key) :
    StorageCursor → Prop
  | opened : Used debug s n account (storageCursor n account)
  | seek {c : StorageCursor} (h : Used debug s n account c) (slot : Key) :
      Used debug s n account (called s (c.seek debug slot)).1
  | next {c : StorageCursor} (h : Used debug s n account c) :
      Used debug s n account (called s (c.next debug)).1

theorem StorageCursor.Used.fit {s : Store} {ls : List Listed} {debug : Bool} {account : Key}
    (hseeks : Seeks Prod.fst (fun e => .ok e) (listedSlots ls account) (StorageCursor.Fit s n account)
      StorageCursor.last fun c slot => called s (c.seek debug slot)) {c : StorageCursor}
    (hc : c.Used debug s n account) : c.Fit s n account := by
  induction hc with
  | opened => exact ⟨rfl, rfl, memoFor_none⟩
  | seek _ key ih => exact hseeks.keeps ih key
  | @next c _ ih =>
    unfold StorageCursor.next
    split
    · exact ih
    · split
      · exact ih
      · exact hseeks.keeps ih _

theorem listedSlots_ordered {s : Store} {t : Tree 16 StateLeaf} {ls : List Listed}
    (h : Shows stateKind [] (loaded s n) t)
    (hls : List.Forall₂ (Listed.Of t) ls (ramLeaves (loaded s n)).toList) (account : Key) :
    Ascending Prod.fst (listedSlots ls account) := by
  rw [listedSlots_eq h hls]
  cases t.get (keyNibbles account) with
  | none => exact .nil
  | some a => exact a.slots_ordered

end

/-! ## A promoted account -/

/-- The slots listed are those observed. -/
theorem Sys.Observes.listedSlots [Keccak] {σ : Sys} {l : Logical} (h : σ.Observes l) {ls : List Listed}
    (hls : Lists σ.store σ.db.upper ls) (account slot : Key) :
    ((FlatMpt.listedSlots ls account).find? fun e => e.1 = slot).map Prod.snd =
      (l account).bind (·.slots slot) := by
  have hslot := h.slot account slot
  rw [hls.slot] at hslot
  rw [← Except.ok.inj hslot]
  unfold FlatMpt.listedSlots
  cases ls.find? fun x => x.key = account with
  | none => rfl
  | some x => rfl

/-- The two slots of the first of three accounts. -/
theorem Sys.Observes.twoSlots [Keccak] {σ : Sys} (hobs : σ.Observes (execBlock (fun _ => none) threeOps))
    {ls : List Listed} (hls : Lists σ.store σ.db.upper ls) :
    FlatMpt.listedSlots ls (.fill 0x30) = [(.fill 0x01, [1]), (.fill 0x02, [1])] := by
  have hordered : Ascending Prod.fst (FlatMpt.listedSlots ls (.fill 0x30)) := by
    unfold FlatMpt.listedSlots
    cases hf : ls.find? fun x => x.key = .fill 0x30 with
    | none => exact .nil
    | some x => exact hls.slotsOrdered x (List.mem_of_find?_eq_some hf)
  have htwo : Ascending Prod.fst [((.fill 0x01 : Key), ([1] : Bytes)), (.fill 0x02, [1])] :=
    .cons (fun e he => by rw [List.mem_singleton.mp he]; decide) (List.pairwise_singleton _ _)
  refine slots_unique hordered htwo fun slot => ?_
  rw [hobs.listedSlots hls]
  change Function.update (Function.update (fun _ : Key => (none : Option Bytes)) (.fill 0x01)
    (some [1])) (.fill 0x02) (some [1]) slot = _
  by_cases h2 : slot = .fill 0x02
  · subst h2
    rw [Function.update_self]
    rfl
  · rw [Function.update_of_ne h2]
    by_cases h1 : slot = .fill 0x01
    · subst h1
      rw [Function.update_self]
      rfl
    · rw [Function.update_of_ne h1, List.find?_cons_of_neg (by simpa using Ne.symm h1),
        List.find?_cons_of_neg (by simpa using Ne.symm h2)]
      rfl

/-- A configuration under which two slots do not stay in their account's record. -/
def narrowEnv : Env := ⟨⟨64, 200, 1⟩, false⟩

/-- The account's storage is promoted and has records. -/
def Sys.keepsBelow [Keccak] (σ : Sys) (account : Key) : Bool :=
  match (run exec (withAccountStorage σ.db.upper (keyNibbles account) 0) σ.store.healthy).1 with
  | .ok (some (.ram x)) => !(diskPtrs x).isEmpty
  | _ => false

theorem narrow_serves :
    let _ : Keccak := flatHash
    (serves narrowEnv (.create false false []) threeOps).any (·.keepsBelow (.fill 0x30)) = true := by
  decide +kernel

/-- Three accounts, the first of them promoted with its slots on disk. -/
theorem narrow_run :
    ∃ (_ : Keccak) (σ : Sys), RegularRun narrowEnv (.create false false []) σ ∧ σ.running = none ∧
      σ.Observes (execBlock (fun _ => none) threeOps) ∧
      ∃ x, PromotedTo σ.store σ.db.upper (.fill 0x30) x ∧ diskPtrs x ≠ [] := by
  let _ : Keccak := flatHash
  obtain ⟨σ, hσ, hkeeps⟩ := (Option.any_eq_true _ _).mp narrow_serves
  obtain ⟨hrun, hidle, hobs⟩ := (Served.of_serves hσ).created (by decide) (by decide)
  refine ⟨_, σ, hrun, hidle, hobs, ?_⟩
  unfold Sys.keepsBelow at hkeeps
  split at hkeeps
  next x hx =>
    refine ⟨x, hx, fun hnil => ?_⟩
    rw [hnil] at hkeeps
    cases hkeeps
  next => cases hkeeps

end FlatMpt
