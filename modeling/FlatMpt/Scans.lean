import FlatMpt.SlotWalks

/-!
# Scans

A scan emits every account and every slot once, in key order, each account before its
slots.

    scan_enumerated
-/

namespace FlatMpt

open Prog
open Radix (Tree prefixed)

section
variable [Keccak] {t : Tree 16 StateLeaf} {s : Store} {n : RamNode} {ls : List Listed}

/-! ## Records -/

/-- What is emitted for a leaf of a kind in a record. -/
def Kind.Emits {α : Type} (K : Kind α) (ctx : Option Key) (emits : Key → α → List ScanEntry) : Prop :=
  ∀ p a path, scanRecordNode (K.form.node p a) path ctx =
    emitAt (path ++ p) fun key => (emits key a, .ok ())

omit [Keccak] in
theorem emitAt_eq {nibbles : List Nibble} (h : nibbles.length = 64) (emit : Key → Emitted) :
    emitAt nibbles emit = emit (keyOf nibbles) := by
  unfold emitAt nibblesToKeyChecked
  rw [h, bne_self_eq_false, if_neg Bool.false_ne_true, nibblesToKey_of_length h]
  rfl

omit [Keccak] in
theorem foldr_andThen {f : Nibble → Emitted} {g : Nibble → List ScanEntry} (h : ∀ i, f i = (g i, .ok ()))
    (is : List Nibble) : (is.map f).foldr Emitted.andThen ([], .ok ()) = (is.flatMap g, .ok ()) := by
  induction is with
  | nil => rfl
  | cons i is ih =>
    rw [List.map_cons, List.foldr_cons, ih, h i]
    rfl

/-- What is emitted for an entry of a tree below `path`. -/
def emitted {α : Type} (emits : Key → α → List ScanEntry) (path : List Nibble)
    (e : List Nibble × α) : List ScanEntry := emits (keyOf (path ++ e.1)) e.2

omit [Keccak] in
theorem flatMap_emitted {α : Type} (emits : Key → α → List ScanEntry) (path p : List Nibble)
    (es : List (List Nibble × α)) :
    (es.map (prefixed p)).flatMap (emitted emits path) = es.flatMap (emitted emits (path ++ p)) := by
  rw [List.flatMap_map]
  refine congrArg (List.flatMap · es) (funext fun e => ?_)
  unfold emitted prefixed
  rw [List.append_assoc]

/-- The scan of a record. -/
theorem scanRecordNode_toNode {α : Type} {K : Kind α} {ctx : Option Key}
    {emits : Key → α → List ScanEntry} (hE : K.Emits ctx emits) {m : Nat} {u : Tree 16 α}
    (hu : Tree.Canon m u) {path : List Nibble} (hp : path.length + m = 64) :
    scanRecordNode (toNode K.form u) path ctx = (u.toList.flatMap (emitted emits path), .ok ()) := by
  induction u generalizing m path with
  | empty => rfl
  | leaf p a =>
    cases hu with
    | leaf hl =>
      rw [toNode, hE, emitAt_eq (by rw [List.length_append]; omega), Tree.toList,
        List.flatMap_singleton]
      rfl
  | ext p c ih =>
    cases hu with
    | ext hne hn hb hc =>
      rw [Tree.toList, flatMap_emitted]
      exact ih hc (by rw [List.length_append]; omega)
  | branch cs ih =>
    cases hu with
    | branch hn hc h2 =>
      have hchild (i : Nibble) : scanRecordSlot (asChild (toNode K.form (cs i))) (path ++ [i]) ctx =
          ((cs i).toList.flatMap (emitted emits (path ++ [i])), .ok ()) := by
        have hslot : scanRecordSlot (asChild (toNode K.form (cs i))) (path ++ [i]) ctx =
            scanRecordNode (toNode K.form (cs i)) (path ++ [i]) ctx := by
          cases toNode K.form (cs i) <;> rfl
        rw [hslot]
        exact ih i (hc i) (by rw [List.length_append, List.length_singleton]; omega)
      rw [Tree.toList, List.flatMap_assoc]
      refine (foldr_andThen hchild _).trans ?_
      simp only [flatMap_emitted]

/-- The slots of an account in a scan. -/
def slotEntries (account : Key) (key : Key) (v : Bytes) : List ScanEntry := [.slot account key v]

theorem emits_storage (account : Key) :
    (storageKind account).Emits (some account) (slotEntries account) := fun _ _ _ => rfl

/-- What is emitted for a leaf of the state trie. -/
def StateLeaf.entries (key : Key) : StateLeaf → List ScanEntry
  | .raw v => [.opaqueValue key v]
  | .account n b c s => .account key n b c :: s.tree.toList.flatMap (emitted (slotEntries key) [])

theorem emits_state : stateKind.Emits none StateLeaf.entries := by
  intro p a path
  cases a with
  | raw v => rfl
  | account n b c s =>
    show emitAt (path ++ p) _ = emitAt (path ++ p) _
    refine congrArg (emitAt (path ++ p)) (funext fun key => ?_)
    have hslots := scanRecordNode_toNode (emits_storage key) s.canon
      (show ([] : List Nibble).length + 64 = 64 from rfl)
    show Emitted.andThen _ (scanRecordNode (toNode valueLeaf s.tree) [] (some key)) = _
    rw [show scanRecordNode (toNode valueLeaf s.tree) [] (some key) = _ from hslots]
    rfl

omit [Keccak] in
theorem scanAll_run {walk : Nibble → Prog Resp Emitted} {f : Nibble → List ScanEntry}
    (h : ∀ i, run exec (walk i) s.healthy = ((f i, .ok ()), s.healthy)) (is : List Nibble) :
    run exec (scanAll walk is) s.healthy = ((is.flatMap f, .ok ()), s.healthy) := by
  induction is with
  | nil => rfl
  | cons i is ih =>
    rw [scanAll, run_bind, h i]
    dsimp only
    rw [run_bind, ih]
    rfl

/-- A leaf promoted into the frontier is scanned like one in a record. -/
def Kind.EmitsLone {α : Type} (K : Kind α) (s : Store) (emits : Key → α → List ScanEntry) : Prop :=
  ∀ {key nonce balance codeHash storage p q path a}, keyNibbles key = q ++ path →
    K.lone (K.root ++ q ++ path) nonce balance codeHash (mapLeaves (fetch s) storage p) a →
    ∃ rest, run exec (scanRamNode storage [] (some key)) s.healthy = ((rest, .ok ()), s.healthy) ∧
      emits key a = .account key nonce balance codeHash :: rest

/-- The part of a stored prefix in its own trie. -/
theorem scanStart_root {α : Type} (K : Kind α) {q : List Nibble} (hq : q ≠ []) (hlen : q.length ≤ 64) :
    scanStart (K.root ++ q) = q := by
  unfold scanStart
  rw [K.localDepth hq hlen, List.length_append, Nat.add_sub_cancel, List.drop_left]

mutual

/-- The scan of a frontier. -/
theorem scanRamNode_run {α : Type} {K : Kind α} {ctx : Option Key} {emits : Key → α → List ScanEntry}
    (hE : K.Emits ctx emits) (hL : K.EmitsLone s emits) (n : RamNode) {p q : List Nibble}
    {u : Tree 16 α} (h : Shows K q (mapLeaves (fetch s) n p) u) :
    run exec (scanRamNode n q ctx) s.healthy =
      ((u.toList.flatMap (emitted emits q), .ok ()), s.healthy) := by
  match n with
  | .empty =>
    cases h
    rfl
  | .extension path child hash =>
    rw [mapLeaves] at h
    cases h with
    | extension hp hb hc h hh =>
      rw [Tree.toList, flatMap_emitted]
      exact scanRamNode_run hE hL child h
  | .branch slots hash =>
    rw [mapLeaves] at h
    cases h with
    | branch hq h hh =>
      rw [Tree.toList, List.flatMap_assoc, scanRamNode]
      simp only [flatMap_emitted]
      exact scanAll_run (fun i => scanRamChild_run hE hL (slots i) (by simp)
        (by rw [List.length_append, List.length_singleton]; omega) (h i)) _

theorem scanRamChild_run {α : Type} {K : Kind α} {ctx : Option Key} {emits : Key → α → List ScanEntry}
    (hE : K.Emits ctx emits) (hL : K.EmitsLone s emits) (slot : RamSlot) {p q : List Nibble}
    {u : Tree 16 α} (hq : q ≠ []) (hlen : q.length ≤ 64)
    (h : ShowsSlot K q (mapLeavesIn (fetch s) slot p) u) :
    run exec (scanRamChild slot q ctx) s.healthy =
      ((u.toList.flatMap (emitted emits q), .ok ()), s.healthy) := by
  match slot with
  | .none =>
    cases h
    rfl
  | .ram sub =>
    rw [mapLeavesIn] at h
    cases h with
    | ram hc ht h => exact scanRamNode_run hE hL sub h
  | .disk ptr root =>
    change ShowsSlot K q (.mem (s.payload ptr) root) u at h
    cases h with
    | mem h =>
      have hscan := scanRecordNode_toNode hE h.canon (show q.length + (64 - q.length) = 64 by omega)
      rw [scanRamChild]
      unfold attempt
      rw [run_bind, run_readLazy_healthy, h.read, ← hscan]
      show ((scanRecordNode _ (scanStart _) _), _) = _
      rw [scanStart_root K hq h.length]
  | .mem bytes root =>
    change ShowsSlot K q (.mem bytes root) u at h
    cases h with
    | mem h =>
      have hscan := scanRecordNode_toNode hE h.canon (show q.length + (64 - q.length) = 64 by omega)
      rw [scanRamChild, h.read, ← hscan]
      show ((scanRecordNode _ (scanStart _) _), _) = _
      rw [scanStart_root K hq h.length]
  | .account path nonce balance codeHash storage =>
    rw [mapLeavesIn] at h
    cases h with
    | @account _ _ _ _ _ _ a hp ha hl =>
      obtain ⟨key, hkey⟩ := exists_account hp hlen
      obtain ⟨rest, hrun, hemits⟩ := hL hkey hl
      have hchecked : nibblesToKeyChecked (q ++ path) = .ok key := by
        unfold nibblesToKeyChecked
        rw [← hkey, keyNibbles_length, nibblesToKey_keyNibbles]
        rfl
      rw [scanRamChild, hchecked, Tree.toList, List.flatMap_singleton]
      unfold emitted
      rw [← hkey, keyOf_keyNibbles, hemits]
      dsimp only
      rw [run_bind, hrun]
      rfl

end

theorem emitsLone_storage (account : Key) (s : Store) :
    (storageKind account).EmitsLone s (slotEntries account) := fun _ h => h.elim

theorem emitsLone_state (s : Store) : stateKind.EmitsLone s StateLeaf.entries := by
  rintro key n b c storage p q path _ hkey ⟨account, st, hfull, rfl, -, hshows⟩
  obtain rfl : account = key := keyNibbles_injective (hfull.symm.trans hkey.symm)
  exact ⟨_, scanRamNode_run (emits_storage account) (emitsLone_storage account s) storage hshows, rfl⟩

/-- What a scan emits for a listed key: the account with its slots if the key is kept as one,
and else the value. -/
inductive Listed.Scanned (s : Store) (n : RamNode) (l : Listed) : List ScanEntry → Prop
  | account {m : UInt64} {b : U256} {c root : Hash} (hst : StructuredAt s n l.key)
      (h : l.value = accountRlp m b c root) :
      Scanned s n l (.account l.key m b c :: l.slots.map fun e => .slot l.key e.1 e.2)
  | opaqueValue (hst : ¬StructuredAt s n l.key) (h : l.slots = []) :
      Scanned s n l [.opaqueValue l.key l.value]

/-- The whole scan. -/
theorem scan_run (h : Shows stateKind [] (loaded s n) t)
    (hls : List.Forall₂ (Listed.Of t) ls (ramLeaves (loaded s n)).toList) :
    ∃ groups, List.Forall₂ (Listed.Scanned s n) ls groups ∧
      run exec (scan n) s.healthy = ((groups.flatten, .ok ()), s.healthy) := by
  have hscan := scanRamNode_run emits_state (emitsLone_state s) n h
  refine ⟨t.toList.map (emitted StateLeaf.entries []), ?_, hscan⟩
  have hleaves := (ramLeaves_alike surfaces_state (loaded s n) h).toList
  have hget : ∀ e ∈ t.toList, t.get e.1 = some e.2 := fun e he => Tree.mem_toList.mp he
  clear hscan
  generalize t.toList = m at hleaves hget ⊢
  generalize (ramLeaves (loaded s n)).toList = es at hls hleaves
  induction hls generalizing m with
  | nil =>
    cases hleaves
    exact .nil
  | @cons l e ls es hof hls ih =>
    cases hleaves with
    | @cons x _ m _ hx hm =>
    refine .cons ?_ (ih m (fun e he => hget e (List.mem_cons_of_mem _ he)) hm)
    obtain ⟨a, ha, hsurf, hslots⟩ := hof.leaf
    have hxa : x.2 = a := Option.some.inj ((hget x List.mem_cons_self).symm.trans (hx.1 ▸ ha))
    unfold emitted
    rw [List.nil_append, hx.1, ← hof.key, keyOf_keyNibbles, hxa]
    cases a with
    | raw v =>
      have hv : l.value = v := by
        rw [hof.value, show e.2 = .value v from hsurf]
        rfl
      rw [← hv]
      refine .opaqueValue (fun hst => ?_) hslots
      obtain ⟨m, b, c, st, hget⟩ := (structuredAt_iff h).mp hst
      rw [hof.key, ha] at hget
      cases hget
    | account n b c st =>
      obtain ⟨root, hroot⟩ := hsurf
      have hentries : st.tree.toList.flatMap (emitted (slotEntries l.key) []) =
          l.slots.map fun e => ScanEntry.slot l.key e.1 e.2 := by
        rw [hslots]
        unfold StateLeaf.slots
        rw [List.map_map, List.map_eq_flatMap]
        rfl
      show Listed.Scanned s _ l (.account l.key n b c :: _)
      rw [hentries]
      exact .account ((structuredAt_iff h).mpr ⟨n, b, c, st, by rw [hof.key]; exact ha⟩)
        (by rw [hof.value, hroot]; rfl)

end

end FlatMpt
