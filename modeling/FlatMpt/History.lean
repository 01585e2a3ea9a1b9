import FlatMpt.LazyOps
import FlatMpt.Reference

/-!
# Records do not remember their history

Operations on a record from any start, parsed or lazily read, in any order.  Value
operations leave the canonical node of the final map, whatever led to it; operations on
accounts act on the leaf at their key, and every account has the root of its own slots.

    runOps                 -- one operation after another
    runOps_values          -- writes and deletes of values
    runOps_agrees          -- all operations, against the run on the tree
    history_independent
-/

namespace FlatMpt.Lazy

open FlatMpt
open Radix (Tree)
open Radix.Tree (Canon)

/-- A call of `record_node_insert` or `record_node_delete`. -/
inductive RecordOp
  | insert (key : Key) (op : LeafOp)
  | delete (key : Key) (op : DeleteOp)

/-- A value write, or a delete: `root` reads an empty value that way, too. -/
def valueOp (w : Key × Bytes) : RecordOp :=
  if w.2.isEmpty then .delete w.1 .value else .insert w.1 (.value w.2)

/-- The entries that `root` takes. -/
def rawWrites (ws : List (Key × Bytes)) : List (Bytes × Bytes) := ws.map fun w => (w.1.bytes, w.2)

/-- The map after these writes. -/
def valueMap (ws : List (Key × Bytes)) : List Nibble → Option Bytes := written (rawWrites ws)

/-- What a delete of `k` from the map `f` reports. -/
inductive Reports (f : List Nibble → Option Bytes) (k : List Nibble) : NodeDelete → Prop
  | absent (h : f k = none) : Reports f k .absent
  | changed (h : f k ≠ none) {q : List Nibble} (hq : q ≠ k) (hf : f q ≠ none) : Reports f k .changed
  | removed (h : f k ≠ none) (hf : ∀ q, q ≠ k → f q = none) : Reports f k .removed

/-- What the deletes among the writes `ws` report, after the writes `es`. -/
def Reported (es : List (Key × Bytes)) : List (Key × Bytes) → List NodeDelete → Prop
  | [], outs => outs = []
  | w :: ws, outs =>
    if w.2.isEmpty then
      ∃ out rest, outs = out :: rest ∧ Reports (valueMap es) (keyNibbles w.1) out ∧
        Reported (es ++ [w]) ws rest
    else Reported (es ++ [w]) ws outs

/-- The slots of an account, as writes. -/
def SlotsOf (s : Storage) (ws : List (Key × Bytes)) : Prop :=
  ∀ q, s.tree.get q = valueMap ws q

/-- An account's slots are those of some writes. -/
inductive LeafWritten : StateLeaf → Prop
  | raw (value : Bytes) : LeafWritten (.raw value)
  | account (nonce : UInt64) (balance : U256) (codeHash : Hash) {s : Storage}
      {ws : List (Key × Bytes)} (h : SlotsOf s ws) : LeafWritten (.account nonce balance codeHash s)

/-- Slots are written with values. -/
def Valued (ops : List RecordOp) : Prop :=
  ∀ key slot value, .insert key (.storage slot value) ∈ ops → value ≠ []

section
variable [Keccak]

/-- The operations in turn, with what the deletes report. -/
def runOps : List RecordOp → Node → Except Err (Node × List NodeDelete)
  | [], node => .ok (node, [])
  | .insert key op :: ops, node => do
    let node ← recordNodeInsert node 0 key op
    runOps ops node
  | .delete key op :: ops, node => do
    let (node, out) ← recordNodeDelete node 0 key op
    let (node, outs) ← runOps ops node
    return (node, out :: outs)

/-- The same on the tree of the state: each acts on the leaf at its key. -/
def treeRun : List RecordOp → Tree 16 StateLeaf → Except Err (Tree 16 StateLeaf × List NodeDelete)
  | [], t => .ok (t, [])
  | .insert key op :: ops, t => do
    let b ← leafInsert op (t.get (keyNibbles key))
    treeRun ops (t.put 64 (keyNibbles key) (some b))
  | .delete key op :: ops, t => do
    let (t, out) ← deleteTree 64 t (keyNibbles key) (leafDelete op)
    let (t, outs) ← treeRun ops t
    return (t, out :: outs)

/-- The canonical record of the map after these writes. -/
def valueNode (ws : List (Key × Bytes)) : FlatMpt.Node := toNode valueLeaf (writtenTree (rawWrites ws))

/-- Every account has the root of its own slots. -/
inductive AccountsRooted : FlatMpt.Node → Prop
  | empty : AccountsRooted .empty
  | leaf (path : List Nibble) (value : Bytes) (nref : NodeRef) : AccountsRooted (.leaf path value nref)
  | extension (path : List Nibble) {child : FlatMpt.Node} (nref : NodeRef) (h : AccountsRooted child) :
      AccountsRooted (.extension path child nref)
  | branch {children : Nibble → Option FlatMpt.Node} (nref : NodeRef)
      (h : ∀ i c, children i = some c → AccountsRooted c) : AccountsRooted (.branch children nref)
  | account (path : List Nibble) (nonce : UInt64) (balance : U256) (codeHash : Hash) {s : Storage}
      {ws : List (Key × Bytes)} (nref : NodeRef) (h : SlotsOf s ws) :
      AccountsRooted (.account path nonce balance codeHash s.toNode (Eth.root (rawWrites ws)) nref)

/-! ## Maps -/

omit [Keccak] in
theorem rawWrites_length (ws : List (Key × Bytes)) : ∀ e ∈ rawWrites ws, e.1.length = 32 := by
  intro e he
  obtain ⟨w, -, rfl⟩ := List.mem_map.mp he
  exact w.1.size

omit [Keccak] in
theorem valueMap_concat (es : List (Key × Bytes)) (w : Key × Bytes) :
    valueMap (es ++ [w]) =
      Function.update (valueMap es) (keyNibbles w.1) (if w.2.isEmpty then none else some w.2) := by
  unfold valueMap rawWrites written
  rw [List.map_append, List.foldl_append]
  rfl

omit [Keccak] in
theorem get_writtenTree_raw (ws : List (Key × Bytes)) (k : List Nibble) :
    (writtenTree (rawWrites ws)).get k = valueMap ws k := get_writtenTree (rawWrites_length ws) k

omit [Keccak] in
/-- A further write is a `put`. -/
theorem writtenTree_concat (es : List (Key × Bytes)) (w : Key × Bytes) :
    writtenTree (rawWrites (es ++ [w])) =
      (writtenTree (rawWrites es)).put 64 (keyNibbles w.1) (if w.2.isEmpty then none else some w.2) := by
  refine (canon_writtenTree _).eq_put fun q => ?_
  rw [get_writtenTree_raw, get_writtenTree_raw, valueMap_concat, Function.update_apply]

omit [Keccak] in
/-- The tree depends on the map only. -/
theorem writtenTree_congr {es fs : List (Key × Bytes)} (h : valueMap fs = valueMap es) :
    writtenTree (rawWrites fs) = writtenTree (rawWrites es) := congrArg (Tree.build 64) h

/-- A record that stands for the map's has its root. -/
theorem finalize_of_standsFor {ws : List (Key × Bytes)} {l : Node} (h : StandsFor l (valueNode ws)) :
    (hashNode l).finalize = Eth.root (rawWrites ws) := by
  rw [h.hash, root_eq (rawWrites_length ws)]
  exact finalize_toNode (canon_writtenTree _)

/-! ## Values -/

omit [Keccak] in
theorem Agrees.ok_iff {α β : Type} {R : α → β → Prop} {x : Except Err α} {b : β}
    (h : Agrees R x (.ok b)) : ∃ a, x = .ok a ∧ R a b := by
  cases h with
  | ok h => exact ⟨_, rfl, h⟩

theorem atLeaf_value {l : Node} {p : List Nibble} {v : Bytes} (h : AtLeaf l (valueLeaf.node p v)) :
    ∃ nref, l = .leaf p v nref := by
  rcases h with ⟨p', v', nref, rfl, hn⟩ | ⟨p', n, b, c, ls, ns, sr, nref, -, hn, -⟩
  · cases hn
    exact ⟨_, rfl⟩
  · cases hn

/-- A value is written. -/
theorem insertValue {t : Tree 16 Bytes} (ht : Canon 64 t) {l : Node}
    (hl : StandsFor l (toNode valueLeaf t)) (key : Key) (value : Bytes) :
    ∃ l', recordNodeInsert l 0 key (.value value) = .ok l' ∧
      StandsFor l' (toNode valueLeaf (t.put 64 (keyNibbles key) (some value))) := by
  have hagrees : Agrees StandsFor (recordNodeInsert l 0 key (.value value))
      (FlatMpt.nodeInsert (FlatMpt.placeValue value) (FlatMpt.applyValue value) (toNode valueLeaf t)
        (keyNibbles key)) := by
    refine nodeInsert_agrees (L := valueLeaf) (fun p => .ok (standsFor_leafNode p value)) ?_ ht hl
      (keyNibbles_length key) (by decide)
    intro l p a h
    obtain ⟨nref, rfl⟩ := atLeaf_value h
    exact .ok (standsFor_leafNode p value)
  rw [nodeInsert_toNode valueLeaf ht (keyNibbles_length key) (FlatMpt.placeValue value)
    (FlatMpt.applyValue value) (fun _ => .ok value) (fun _ => rfl) fun _ _ => rfl] at hagrees
  exact hagrees.ok_iff

/-- A value is deleted. -/
theorem deleteValue {t : Tree 16 Bytes} (ht : Canon 64 t) {l : Node}
    (hl : StandsFor l (toNode valueLeaf t)) (key : Key) :
    ∃ l' out, recordNodeDelete l 0 key .value = .ok (l', out) ∧
      StandsFor l' (toNode valueLeaf (t.put 64 (keyNibbles key) none)) ∧
      out = if (t.get (keyNibbles key)).isNone then .absent
        else refolded (t.put 64 (keyNibbles key) none) := by
  have hagrees : Agrees SameDelete (recordNodeDelete l 0 key .value)
      (FlatMpt.nodeDelete FlatMpt.applyValueDelete (toNode valueLeaf t) (keyNibbles key)) := by
    refine nodeDelete_agrees (L := valueLeaf) ?_ ht hl (keyNibbles_length key) (by decide)
    intro l p a h
    obtain ⟨nref, rfl⟩ := atLeaf_value h
    exact .ok .removed
  rw [nodeDelete_toNode valueLeaf ht (keyNibbles_length key) _ (fun _ => .ok .removed) fun _ _ => rfl,
    deleteTree] at hagrees
  cases hg : t.get (keyNibbles key) with
  | none =>
    rw [hg] at hagrees
    obtain ⟨⟨l', out⟩, hrun, hs, rfl⟩ := hagrees.ok_iff
    rw [ht.put_self hg]
    exact ⟨l', _, hrun, hs, rfl⟩
  | some a =>
    rw [hg] at hagrees
    obtain ⟨⟨l', out⟩, hrun, hs, rfl⟩ := hagrees.ok_iff
    exact ⟨l', _, hrun, hs, rfl⟩

omit [Keccak] in
/-- A delete reports what the map says. -/
theorem reports_delete (es : List (Key × Bytes)) (k : Key) :
    Reports (valueMap es) (keyNibbles k)
      (if ((writtenTree (rawWrites es)).get (keyNibbles k)).isNone then .absent
        else refolded ((writtenTree (rawWrites es)).put 64 (keyNibbles k) none)) := by
  rw [get_writtenTree_raw]
  have hput : ∀ q, ((writtenTree (rawWrites es)).put 64 (keyNibbles k) none).get q =
      if q = keyNibbles k then none else valueMap es q := by
    intro q
    have hconcat : _ = (writtenTree (rawWrites es)).put 64 (keyNibbles k) none :=
      writtenTree_concat es (k, [])
    rw [← hconcat, get_writtenTree_raw, valueMap_concat, Function.update_apply]
    rfl
  have hcanon := Tree.canon_put 64 (writtenTree (rawWrites es)) (keyNibbles k) none
  generalize (writtenTree (rawWrites es)).put 64 (keyNibbles k) none = t at hput hcanon ⊢
  cases hk : valueMap es (keyNibbles k) with
  | none => exact .absent hk
  | some v =>
    show Reports _ _ (refolded t)
    unfold refolded
    have hsome : valueMap es (keyNibbles k) ≠ none := by
      rw [hk]
      nofun
    by_cases ht : t = .empty
    · rw [if_pos (Tree.isEmpty_iff.mpr ht)]
      refine .removed hsome fun q hq => ?_
      have hput := hput q
      rw [if_neg hq, ht] at hput
      exact hput.symm
    · rw [if_neg fun he => ht (Tree.isEmpty_iff.mp he)]
      obtain ⟨q, a, hq⟩ := hcanon.exists_get ht
      refine .changed (q := q) hsome ?_ ?_
      · rintro rfl
        rw [hput, if_pos rfl] at hq
        cases hq
      · intro hn
        rw [hput, hn] at hq
        split at hq <;> cases hq

/-- **Value operations leave the canonical record of the final map.** -/
theorem runOps_values (ws : List (Key × Bytes)) :
    ∀ (es : List (Key × Bytes)) (l : Node), StandsFor l (valueNode es) →
      ∃ l' outs, runOps (ws.map valueOp) l = .ok (l', outs) ∧ StandsFor l' (valueNode (es ++ ws)) ∧
        Reported es ws outs := by
  induction ws with
  | nil => exact fun es l hl => ⟨l, [], rfl, by rwa [List.append_nil], rfl⟩
  | cons w ws ih =>
    intro es l hl
    have happend : es ++ w :: ws = es ++ [w] ++ ws := by
      rw [List.append_assoc]
      rfl
    have htree := writtenTree_concat es w
    rw [List.map_cons, happend]
    cases hw : w.2.isEmpty with
    | true =>
      obtain ⟨l₁, out, hdel, hl₁, hout⟩ := deleteValue (t := writtenTree (rawWrites es)) (canon_writtenTree _) hl w.1
      rw [hw, if_pos rfl] at htree
      have hl₁ : StandsFor l₁ (valueNode (es ++ [w])) := by
        rw [valueNode, htree]
        exact hl₁
      obtain ⟨l', outs, hrun, hl', hreported⟩ := ih (es ++ [w]) l₁ hl₁
      have hreports : Reports (valueMap es) (keyNibbles w.1) out := by
        rw [hout]
        exact reports_delete es w.1
      refine ⟨l', out :: outs, ?_, hl', ?_⟩
      · rw [valueOp, hw, if_pos rfl, runOps, hdel, ok_bind]
        show (runOps (ws.map valueOp) l₁ >>= _) = _
        rw [hrun]
        rfl
      · rw [Reported, if_pos hw]
        exact ⟨out, outs, rfl, hreports, hreported⟩
    | false =>
      obtain ⟨l₁, hins, hl₁⟩ := insertValue (t := writtenTree (rawWrites es)) (canon_writtenTree _) hl w.1 w.2
      have hne : ¬ w.2.isEmpty = true := by
        rw [hw]
        exact Bool.false_ne_true
      rw [if_neg hne] at htree
      have hl₁ : StandsFor l₁ (valueNode (es ++ [w])) := by
        rw [valueNode, htree]
        exact hl₁
      obtain ⟨l', outs, hrun, hl', hreported⟩ := ih (es ++ [w]) l₁ hl₁
      refine ⟨l', outs, ?_, hl', ?_⟩
      · rw [valueOp, if_neg hne, runOps, hins]
        exact hrun
      · rw [Reported, if_neg hne]
        exact hreported

/-! ## Accounts -/

omit [Keccak] in
theorem Agrees.of_map {α β γ : Type} {R : α → γ → Prop} {x : Except Err α} {y : Except Err β}
    {f : β → γ} (h : Agrees R x (y.map f)) : Agrees (fun a b => R a (f b)) x y := by
  cases y with
  | ok b =>
    obtain ⟨a, rfl, hr⟩ := h.ok_iff
    exact .ok hr
  | error e =>
    cases h
    exact .error e

omit [Keccak] in
theorem canon_deleteTree {t : Tree 16 StateLeaf} (ht : Canon 64 t) {k : List Nibble}
    {f : StateLeaf → Except Err (LeafDelete StateLeaf)} {r : Tree 16 StateLeaf × NodeDelete}
    (h : deleteTree 64 t k f = .ok r) : Canon 64 r.1 := by
  unfold deleteTree at h
  split at h
  · cases h
    exact ht
  · rename_i a _
    cases hf : f a with
    | error e =>
      rw [hf] at h
      cases h
    | ok d =>
      rw [hf] at h
      cases h
      exact Tree.canon_put ..

/-- The run on a lazily read record is the run on the tree. -/
theorem runOps_agrees (ops : List RecordOp) :
    ∀ {t : Tree 16 StateLeaf} {l : Node}, Canon 64 t → StandsFor l (toNode stateLeaf t) →
      Agrees (fun r r' => StandsFor r.1 (toNode stateLeaf r'.1) ∧ r.2 = r'.2) (runOps ops l)
        (treeRun ops t) := by
  induction ops with
  | nil => exact fun _ hl => .ok ⟨hl, rfl⟩
  | cons op ops ih =>
    intro t l ht hl
    cases op with
    | insert key op =>
      have hins := recordNodeInsert_agrees 0 ht hl key op
      rw [List.drop_zero, recordNodeInsert_toNode ht (keyNibbles_length key)] at hins
      exact hins.of_map.bind fun _ _ h => ih (Tree.canon_put ..) h
    | delete key op =>
      have hdel := recordNodeDelete_agrees 0 ht hl key op
      rw [List.drop_zero, recordNodeDelete_toNode ht (keyNibbles_length key)] at hdel
      rw [runOps, treeRun]
      cases hd : deleteTree 64 t (keyNibbles key) (leafDelete op) with
      | error e =>
        rw [hd] at hdel
        generalize recordNodeDelete l 0 key op = x at hdel ⊢
        cases hdel
        exact .error e
      | ok r =>
        rw [hd] at hdel
        obtain ⟨⟨l₁, out⟩, hrun, hs, rfl⟩ := hdel.ok_iff
        rw [hrun]
        exact (ih (canon_deleteTree ht hd) hs).bind fun a b h => .ok ⟨h.1, congrArg _ h.2⟩

omit [Keccak] in
theorem slotsOf_empty : SlotsOf .empty [] := fun _ => rfl

omit [Keccak] in
theorem SlotsOf.tree_eq {s : Storage} {ws : List (Key × Bytes)} (h : SlotsOf s ws) :
    s.tree = writtenTree (rawWrites ws) :=
  s.canon.ext_get (canon_writtenTree _) fun q => by rw [get_writtenTree_raw, h q]

omit [Keccak] in
theorem SlotsOf.concat {s : Storage} {ws : List (Key × Bytes)} (h : SlotsOf s ws) (w : Key × Bytes) :
    SlotsOf (s.put w.1 (if w.2.isEmpty then none else some w.2)) (ws ++ [w]) := by
  intro q
  rw [← get_writtenTree_raw, writtenTree_concat, ← h.tree_eq]
  rfl

omit [Keccak] in
/-- A slot is written. -/
theorem SlotsOf.insert {s : Storage} {ws : List (Key × Bytes)} (h : SlotsOf s ws) (slot : Key)
    {value : Bytes} (hv : value ≠ []) : SlotsOf (s.put slot (some value)) (ws ++ [(slot, value)]) := by
  have hput := h.concat (slot, value)
  rw [if_neg fun he => hv (List.isEmpty_iff.mp he)] at hput
  exact hput

omit [Keccak] in
/-- A slot is deleted. -/
theorem SlotsOf.delete {s : Storage} {ws : List (Key × Bytes)} (h : SlotsOf s ws) (slot : Key) :
    SlotsOf (s.put slot none) (ws ++ [(slot, [])]) := h.concat (slot, [])

theorem leafInsert_written {op : LeafOp} {o : Option StateLeaf} {b : StateLeaf}
    (hop : ∀ slot value, op = .storage slot value → value ≠ [])
    (ho : ∀ a, o = some a → LeafWritten a) (h : leafInsert op o = .ok b) : LeafWritten b := by
  unfold leafInsert at h
  split at h
  · split at h
    · cases h
      exact .raw _
    · cases h
      exact .account _ _ _ slotsOf_empty
    · cases h
      exact .account _ _ _ (slotsOf_empty.insert _ (hop _ _ rfl))
  · split at h
    · cases h
      exact .raw _
    · split at h
      · split at h
        · cases h
          exact .raw _
        · cases h
          exact .account _ _ _ slotsOf_empty
      · cases h
        exact .account _ _ _ slotsOf_empty
    · split at h
      · split at h
        · cases h
          exact .account _ _ _ (slotsOf_empty.insert _ (hop _ _ rfl))
        · cases h
      · cases h
  · cases ho _ rfl with
    | account _ _ _ hws =>
      split at h
      · cases h
      · cases h
        exact .account _ _ _ hws
      · cases h
        exact .account _ _ _ (hws.insert _ (hop _ _ rfl))

theorem leafDelete_written {op : DeleteOp} {a : StateLeaf} {d : LeafDelete StateLeaf}
    (ha : LeafWritten a) (h : leafDelete op a = .ok d) {b : StateLeaf} (hb : d.result a = some b) :
    LeafWritten b := by
  cases d with
  | absent =>
    cases hb
    exact ha
  | removed => cases hb
  | changed c =>
    cases hb
    unfold leafDelete at h
    split at h
    · split at h
      · cases h
      · cases h
      · split at h
        · split at h <;> cases h
        · cases h
      · split at h
        · split at h
          · cases h
          · cases h
            exact .account _ _ _ slotsOf_empty
        · cases h
    · cases ha with
      | account _ _ _ hws =>
        split at h
        · cases h
        · cases h
        · split at h
          · cases h
          · cases h
            exact .account _ _ _ (hws.delete _)
        · split at h
          · cases h
          · cases h
            exact .account _ _ _ slotsOf_empty

/-- Runs keep slots written. -/
theorem treeRun_written (ops : List RecordOp) :
    ∀ {t t' : Tree 16 StateLeaf} {outs : List NodeDelete}, Canon 64 t →
      (∀ k a, t.get k = some a → LeafWritten a) → Valued ops → treeRun ops t = .ok (t', outs) →
      Canon 64 t' ∧ ∀ k a, t'.get k = some a → LeafWritten a := by
  induction ops with
  | nil =>
    intro t t' outs ht hw _ h
    cases h
    exact ⟨ht, hw⟩
  | cons op ops ih =>
    intro t t' outs ht hw hops h
    have hrest : Valued ops := fun key slot value hm => hops key slot value (List.mem_cons_of_mem _ hm)
    -- setting the key to a written leaf, or clearing it, keeps the leaves written
    have hput : ∀ (key : Key) (v : Option StateLeaf), (∀ b, v = some b → LeafWritten b) →
        ∀ q a, (t.put 64 (keyNibbles key) v).get q = some a → LeafWritten a := by
      intro key v hv q a hq
      rw [Tree.get_put ht (keyNibbles_length key)] at hq
      split at hq
      · exact hv a hq
      · exact hw q a hq
    cases op with
    | insert key op =>
      obtain ⟨b, hb, h⟩ := bind_ok h
      refine ih (Tree.canon_put ..) (hput _ _ ?_) hrest h
      rintro _ ⟨⟩
      refine leafInsert_written (fun slot value ho => ?_) (fun a ha => hw _ a ha) hb
      subst ho
      exact hops key slot value List.mem_cons_self
    | delete key op =>
      obtain ⟨⟨t₁, out⟩, hd, h⟩ := bind_ok h
      obtain ⟨⟨t₂, outs'⟩, hr, h⟩ := bind_ok h
      cases h
      refine ih (canon_deleteTree ht hd) ?_ hrest hr
      unfold deleteTree at hd
      split at hd
      · cases hd
        exact hw
      · rename_i a ha
        cases hf : leafDelete op a with
        | error e =>
          rw [hf] at hd
          cases hd
        | ok d =>
          rw [hf] at hd
          cases hd
          exact hput _ _ fun b hb => leafDelete_written (hw _ a ha) hf hb

/-- An account's slots have the root of their writes. -/
theorem finalize_storage {s : Storage} {ws : List (Key × Bytes)} (h : SlotsOf s ws) :
    (FlatMpt.hashNode s.toNode).finalize = Eth.root (rawWrites ws) := by
  rw [root_eq (rawWrites_length ws), ← h.tree_eq]
  exact finalize_toNode s.canon

theorem accountsRooted_toNode {n : Nat} {t : Tree 16 StateLeaf} (ht : Canon n t)
    (hw : ∀ k a, t.get k = some a → LeafWritten a) : AccountsRooted (toNode stateLeaf t) := by
  induction ht with
  | empty => exact .empty
  | @leaf n path a hp =>
    have ha := hw path a (if_pos rfl)
    cases ha with
    | raw v => exact .leaf ..
    | account nonce balance codeHash h =>
      show AccountsRooted (FlatMpt.accountNode ..)
      rw [FlatMpt.accountNode, finalize_storage h]
      exact .account _ _ _ _ _ h
  | @ext n m path child hp hn hb hc ih =>
    exact .extension _ _ (ih fun k a hk => hw (path ++ k) a (by rw [Tree.get_ext_append, hk]))
  | @branch n m children hn hc h2 ih =>
    refine .branch _ fun i c hi => ?_
    by_cases he : children i = .empty
    · rw [he] at hi
      cases hi
    · rw [asChild_toNode stateLeaf he] at hi
      cases hi
      exact ih i fun k a hk => hw (i :: k) a hk

theorem leafInsert_ne_panic {op : LeafOp} {o : Option StateLeaf} {e : Err}
    (h : leafInsert op o = .error e) : e ≠ .panic := by
  unfold leafInsert at h
  repeat' split at h
  all_goals cases h
  all_goals exact nofun

theorem leafDelete_ne_panic {op : DeleteOp} {a : StateLeaf} {e : Err}
    (h : leafDelete op a = .error e) : e ≠ .panic := by
  unfold leafDelete at h
  repeat' split at h
  all_goals cases h
  all_goals exact nofun

theorem treeRun_ne_panic (ops : List RecordOp) :
    ∀ {t : Tree 16 StateLeaf} {e : Err}, treeRun ops t = .error e → e ≠ .panic := by
  induction ops with
  | nil => exact nofun
  | cons op ops ih =>
    intro t e h
    cases op with
    | insert key op =>
      rw [treeRun] at h
      cases hb : leafInsert op (t.get (keyNibbles key)) with
      | error e' =>
        rw [hb] at h
        cases h
        exact leafInsert_ne_panic hb
      | ok b =>
        rw [hb] at h
        exact ih h
    | delete key op =>
      rw [treeRun] at h
      cases hd : deleteTree 64 t (keyNibbles key) (leafDelete op) with
      | error e' =>
        rw [hd] at h
        cases h
        unfold deleteTree at hd
        split at hd
        · cases hd
        · rename_i a _
          cases hf : leafDelete op a with
          | error e'' =>
            rw [hf] at hd
            cases hd
            exact leafDelete_ne_panic hf
          | ok d =>
            rw [hf] at hd
            cases hd
      | ok r =>
        rw [hd] at h
        cases hr : treeRun ops r.1 with
        | error e' =>
          have h : (treeRun ops r.1 >>= fun q => pure (q.1, r.2 :: q.2)) = .error e := h
          rw [hr] at h
          cases h
          exact ih hr
        | ok q =>
          have h : (treeRun ops r.1 >>= fun q => pure (q.1, r.2 :: q.2)) = .error e := h
          rw [hr] at h
          cases h

/-- A record that the engine wrote, read lazily. -/
theorem standsFor_of_record {s : FlatMpt.DiskSubtree} {payload : Bytes} (hpfx : s.pfx.length ≤ 128)
    (hn : Fits (ofNode s.node)) (hs : FlatMpt.serializeSubtree s = .ok payload) :
    ∃ l, deserializeSubtreeLazy payload = .ok ⟨s.pfx, l⟩ ∧ StandsFor l s.node := by
  obtain ⟨l, hread, hl, -⟩ := lazy_of_record hpfx hn hs
  exact ⟨l, hread, .of_lazily hl hn⟩

/-- **Records do not remember their history.**  From any start, in part serialized, value
operations reach the canonical record of the final map, whichever writes are taken to lead
to it, and every delete reports what it did.  With accounts, each operation acts on the
leaf at its key or refuses, and the accounts have the roots of their slots. -/
theorem history_independent :
    (∀ (es ws : List (Key × Bytes)) (l : Node), StandsFor l (valueNode es) →
      ∃ l' outs, runOps (ws.map valueOp) l = .ok (l', outs) ∧ Reported es ws outs ∧
        ∀ fs, valueMap fs = valueMap (es ++ ws) →
          Expands l' (ofNode (valueNode fs)) ∧ (hashNode l').finalize = Eth.root (rawWrites fs)) ∧
    ∀ (t : Tree 16 StateLeaf) (ops : List RecordOp) (l : Node), Canon 64 t →
      (∀ k a, t.get k = some a → LeafWritten a) → Valued ops → StandsFor l (toNode stateLeaf t) →
      match treeRun ops t with
      | .ok (t', outs) => ∃ l', runOps ops l = .ok (l', outs) ∧
          Expands l' (ofNode (toNode stateLeaf t')) ∧ AccountsRooted (toNode stateLeaf t')
      | .error e => runOps ops l = .error e ∧ e ≠ .panic := by
  refine ⟨fun es ws l hl => ?_, fun t ops l ht hw hops hl => ?_⟩
  · obtain ⟨l', outs, hrun, hl', hreported⟩ := runOps_values ws es l hl
    refine ⟨l', outs, hrun, hreported, fun fs hfs => ?_⟩
    have hnode : valueNode (es ++ ws) = valueNode fs :=
      congrArg (toNode valueLeaf) (writtenTree_congr hfs).symm
    rw [hnode] at hl'
    exact ⟨hl'.expands, finalize_of_standsFor hl'⟩
  · have hagrees := runOps_agrees ops ht hl
    cases hrun : treeRun ops t with
    | error e =>
      rw [hrun] at hagrees
      generalize runOps ops l = x at hagrees ⊢
      cases hagrees
      exact ⟨rfl, treeRun_ne_panic ops hrun⟩
    | ok r =>
      obtain ⟨t', outs⟩ := r
      rw [hrun] at hagrees
      obtain ⟨⟨l', _⟩, hrun', hs, rfl⟩ := hagrees.ok_iff
      obtain ⟨hcanon, hw'⟩ := treeRun_written ops ht hw hops hrun
      exact ⟨l', hrun', hs.expands, accountsRooted_toNode hcanon hw'⟩

theorem standsFor_nil : StandsFor .empty (valueNode []) := by
  have hempty : writtenTree (rawWrites []) = .empty :=
    (canon_writtenTree _).eq_empty_of_get fun k => get_writtenTree_raw [] k
  rw [valueNode, hempty]
  exact .empty

end

/-- A key written, another written, the first deleted. -/
def threeWrites : List (Key × Bytes) := [(.fill 1, [1]), (.fill 0x21, [2, 3]), (.fill 1, [])]

/-- Slots of two accounts. -/
def accountOps : List RecordOp :=
  [.insert (.fill 1) (.account 1 2 (.fill 3)), .insert (.fill 0x21) (.storage (.fill 4) [5]),
    .insert (.fill 1) (.storage (.fill 6) [7]), .delete (.fill 0x21) (.storage (.fill 4)),
    .delete (.fill 9) .account]

theorem history_independent_run :
    let _ : Keccak := ⟨fun bs => .fill (UInt8.ofNat bs.length)⟩
    (∃ l' outs, runOps (threeWrites.map valueOp) .empty = .ok (l', outs) ∧
      Reported [] threeWrites outs ∧ Expands l' (ofNode (valueNode [(.fill 0x21, [2, 3])])) ∧
      (hashNode l').finalize = Eth.root (rawWrites [(.fill 0x21, [2, 3])])) ∧
    match treeRun accountOps .empty with
    | .ok (t', outs) => ∃ l', runOps accountOps .empty = .ok (l', outs) ∧
        Expands l' (ofNode (toNode stateLeaf t')) ∧ AccountsRooted (toNode stateLeaf t')
    | .error e => runOps accountOps .empty = .error e ∧ e ≠ .panic := by
  intro _
  refine ⟨?_, history_independent.2 .empty accountOps .empty .empty nofun ?_ .empty⟩
  · obtain ⟨l', outs, hrun, hreported, h⟩ := history_independent.1 [] threeWrites .empty standsFor_nil
    refine ⟨l', outs, hrun, hreported, h _ ?_⟩
    have hne : keyNibbles (.fill 0x21) ≠ keyNibbles (.fill 1) := by decide
    -- the write of the first key is undone, the two keys being different
    have hundone : ∀ a b : Option Bytes, Function.update (Function.update (Function.update
        (fun _ : List Nibble => none) (keyNibbles (.fill 1)) a) (keyNibbles (.fill 0x21)) b)
          (keyNibbles (.fill 1)) none = Function.update (fun _ => none) (keyNibbles (.fill 0x21)) b := by
      intro a b
      rw [Function.update_comm hne, Function.update_idem, Function.update_eq_self]
    exact (hundone _ _).symm
  · intro key slot value hm
    simp [accountOps] at hm
    rcases hm with ⟨-, -, rfl⟩ | ⟨-, -, rfl⟩ <;> nofun

end FlatMpt.Lazy
