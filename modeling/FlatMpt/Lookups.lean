import FlatMpt.Lib.Listing
import FlatMpt.Inserts

/-!
# Reads of a tree

Point reads in records and through the frontier return what the tree holds; the slots
of a record's account are listed in key order.

    nodeGet_toNode, nodeGetStorage_toNode, collectStorageSubtree_toNode
    ramGet_shows, ramGetStorage_shows
-/

namespace FlatMpt

open Prog
open Radix (Tree)
open Radix.Tree (Canon)

section
variable [Keccak] {α : Type}

/-! ## Records -/

omit [Keccak] in
theorem isPrefixOf_append (p r : List Nibble) : p.isPrefixOf (p ++ r) = true := by
  rw [List.isPrefixOf_iff_prefix]
  exact List.prefix_append p r

omit [Keccak] in
theorem not_isPrefixOf {p k : List Nibble} (h : ¬∃ r, k = p ++ r) : p.isPrefixOf k = false := by
  rw [Bool.eq_false_iff, ne_eq, List.isPrefixOf_iff_prefix]
  rintro ⟨r, hr⟩
  exact h ⟨r, hr.symm⟩

omit [Keccak] in
theorem get_ext_off {p k : List Nibble} {c : Tree 16 α} (h : ¬∃ r, k = p ++ r) :
    (Tree.ext p c).get k = none := by
  cases hg : (Tree.ext p c).get k with
  | none => rfl
  | some a =>
    obtain ⟨r, hr, -⟩ := Tree.get_ext_eq_some hg
    exact absurd ⟨r, hr⟩ h

/-- A read in a record; `read` is the value of a leaf. -/
theorem nodeGet_toNode (L : LeafForm α) (read : α → Bytes)
    (hL : ∀ p a k, nodeGet (L.node p a) k = if k = p then some (read a) else none)
    (t : Tree 16 α) (k : List Nibble) : nodeGet (toNode L t) k = (t.get k).map read := by
  induction t generalizing k with
  | empty => rfl
  | leaf p a =>
    rw [toNode, hL, Tree.get_leaf]
    split <;> rfl
  | ext p c ih =>
    rw [toNode, makeExtension, nodeGet]
    by_cases hp : ∃ r, k = p ++ r
    · obtain ⟨r, rfl⟩ := hp
      rw [isPrefixOf_append, if_pos rfl, List.drop_left, ih, Tree.get_ext_append]
    · rw [not_isPrefixOf hp, get_ext_off hp]
      rfl
  | branch cs ih =>
    cases k with
    | nil => rfl
    | cons i k =>
      show nodeGetSlot (asChild (toNode L (cs i))) k = _
      rw [Tree.get_branch_cons, ← ih]
      by_cases he : cs i = .empty
      · rw [he]
        rfl
      · rw [asChild_toNode L he, nodeGetSlot]

/-- The value read at a leaf of the state trie in a record. -/
def StateLeaf.value : StateLeaf → Bytes
  | .raw v => v
  | .account n b c s => accountRlp n b c (hashNode s.toNode).finalize

theorem nodeGet_state (t : Tree 16 StateLeaf) (k : List Nibble) :
    nodeGet (toNode stateLeaf t) k = (t.get k).map StateLeaf.value :=
  nodeGet_toNode stateLeaf _ (fun _ a _ => by cases a <;> rfl) t k

theorem nodeGet_slots (t : Tree 16 Bytes) (k : List Nibble) :
    nodeGet (toNode valueLeaf t) k = t.get k :=
  (nodeGet_toNode valueLeaf id (fun _ _ _ => rfl) t k).trans Option.map_id'

/-- A slot of a leaf. -/
def StateLeaf.slot : StateLeaf → Key → Option Bytes
  | .raw _, _ => none
  | .account _ _ _ s, slot => s.get slot

theorem nodeGetStorage_toNode (t : Tree 16 StateLeaf) (k : List Nibble) (slot : Key) :
    nodeGetStorage (toNode stateLeaf t) k slot = (t.get k).bind (·.slot slot) := by
  induction t generalizing k with
  | empty => rfl
  | leaf p a =>
    rw [toNode, Tree.get_leaf]
    cases a with
    | raw v =>
      show none = _
      split <;> rfl
    | account n b c s =>
      show (if k = p then nodeGet s.toNode (keyNibbles slot) else none) = _
      rw [Storage.toNode, nodeGet_slots]
      split <;> rfl
  | ext p c ih =>
    rw [toNode, makeExtension, nodeGetStorage]
    by_cases hp : ∃ r, k = p ++ r
    · obtain ⟨r, rfl⟩ := hp
      rw [isPrefixOf_append, if_pos rfl, List.drop_left, ih, Tree.get_ext_append]
    · rw [not_isPrefixOf hp, get_ext_off hp]
      rfl
  | branch cs ih =>
    cases k with
    | nil => rfl
    | cons i k =>
      show nodeGetStorageSlot (asChild (toNode stateLeaf (cs i))) k slot = _
      rw [Tree.get_branch_cons, ← ih]
      by_cases he : cs i = .empty
      · rw [he]
        rfl
      · rw [asChild_toNode stateLeaf he, nodeGetStorageSlot]

/-! ## Listings -/

/-- The key that a path of 64 nibbles packs to. -/
def keyOf (path : List Nibble) : Key := (nibblesToKey path).getD default

omit [Keccak] in
@[simp] theorem keyOf_keyNibbles (k : Key) : keyOf (keyNibbles k) = k := by
  rw [keyOf, nibblesToKey_keyNibbles]
  rfl

omit [Keccak] in
theorem nibblesToKey_of_length {path : List Nibble} (h : path.length = 64) :
    nibblesToKey path = some (keyOf path) := by
  obtain ⟨k, rfl⟩ := exists_key h
  rw [nibblesToKey_keyNibbles, keyOf_keyNibbles]

/-- An entry of a tree at `path`, under its full key. -/
def keyed (path : List Nibble) (e : List Nibble × α) : Key × α := (keyOf (path ++ e.1), e.2)

omit [Keccak] in
theorem keyed_prefixed (path p : List Nibble) (es : List (List Nibble × α)) :
    (es.map (Radix.prefixed p)).map (keyed path) = es.map (keyed (path ++ p)) := by
  rw [List.map_map]
  refine List.map_congr_left fun e _ => ?_
  simp only [Function.comp, keyed, Radix.prefixed, List.append_assoc]

/-- The slots of a storage subtree, in key order. -/
theorem collectStorageSubtree_toNode {n : Nat} {t : Tree 16 Bytes} (ht : Canon n t)
    {path : List Nibble} (hp : path.length + n = 64) :
    collectStorageSubtree (toNode valueLeaf t) path = .ok (t.toList.map (keyed path)) := by
  induction ht generalizing path with
  | empty => rfl
  | @leaf n p a hlen =>
    show collectStorageSubtree (.leaf p a (leafRef p a)) path = _
    rw [collectStorageSubtree, nibblesToKey_of_length (by rw [List.length_append]; omega)]
    rfl
  | @ext n m p c _ hn hb hc ih =>
    show collectStorageSubtree (toNode valueLeaf c) (path ++ p) = _
    rw [ih (by rw [List.length_append]; omega), Tree.toList, keyed_prefixed]
  | @branch n m cs hn hc h2 ih =>
    have hslot (i : Nibble) : collectStorageSlot (asChild (toNode valueLeaf (cs i))) (path ++ [i]) =
        .ok ((cs i).toList.map (keyed (path ++ [i]))) := by
      rw [← ih i (by rw [List.length_append, List.length_singleton]; omega)]
      by_cases he : cs i = .empty
      · rw [he]
        rfl
      · rw [asChild_toNode valueLeaf he, collectStorageSlot]
    show ((List.finRange 16).mapM _ >>= _) = _
    rw [mapM_ok _ fun i _ => hslot i, Tree.toList, List.map_flatMap]
    simp only [keyed_prefixed]
    rfl

/-- The slots of a leaf, in key order. -/
def StateLeaf.slots : StateLeaf → List (Key × Bytes)
  | .raw _ => []
  | .account _ _ _ s => s.tree.toList.map (keyed [])

theorem nodeCollectStorage_toNode {n : Nat} {t : Tree 16 StateLeaf} (ht : Canon n t)
    {k : List Nibble} (hk : k.length = n) :
    nodeCollectStorage (toNode stateLeaf t) k = .ok ((t.get k).elim [] StateLeaf.slots) := by
  induction ht generalizing k with
  | empty => rfl
  | @leaf n p a hp =>
    rw [toNode, Tree.get_leaf]
    cases a with
    | raw v =>
      show Except.ok [] = _
      split <;> rfl
    | account n b c s =>
      show (if k = p then collectStorageSubtree s.toNode [] else .ok []) = _
      rw [Storage.toNode, collectStorageSubtree_toNode s.canon rfl]
      split <;> rfl
  | @ext n m p c _ hn hb hc ih =>
    rw [toNode, makeExtension, nodeCollectStorage]
    by_cases hp : ∃ r, k = p ++ r
    · obtain ⟨r, rfl⟩ := hp
      rw [List.length_append] at hk
      rw [isPrefixOf_append, if_pos rfl, List.drop_left, ih (by omega), Tree.get_ext_append]
    · rw [not_isPrefixOf hp, get_ext_off hp]
      rfl
  | @branch n m cs hn hc h2 ih =>
    cases k with
    | nil =>
      rw [List.length_nil] at hk
      omega
    | cons i k =>
      rw [List.length_cons] at hk
      show nodeCollectStorageSlot (asChild (toNode stateLeaf (cs i))) k = _
      rw [Tree.get_branch_cons, ← ih i (by omega)]
      by_cases he : cs i = .empty
      · rw [he]
        rfl
      · rw [asChild_toNode stateLeaf he, nodeCollectStorageSlot]

/-- The fields recorded for a leaf. -/
theorem nodePriorAccount_toNode (t : Tree 16 StateLeaf) (k : List Nibble) :
    nodePriorAccount (toNode stateLeaf t) k =
      match t.get k with
      | none => .ok none
      | some a =>
        match Eth.Account.decode a.value with
        | some p => .ok (some p)
        | none => .error .accountDecode := by
  unfold nodePriorAccount
  rw [nodeGet_state]
  cases t.get k <;> rfl

/-! ## The frontier -/

/-- How the leaves of a kind are read, in a record and promoted. -/
structure Kind.Reads (K : Kind α) (read : α → Bytes) (R : α → Bytes → Prop) : Prop where
  record : ∀ p a k, nodeGet (K.form.node p a) k = if k = p then some (read a) else none
  reads : ∀ a, R a (read a)
  lone : ∀ {full nonce balance codeHash storage a},
    K.lone full nonce balance codeHash storage a →
    R a (accountRlp nonce balance codeHash (hashRam storage))

variable {K : Kind α} {read : α → Bytes} {R : α → Bytes → Prop} {key : Key}

/-- A read in a record at a slot. -/
theorem recordGet_reads (hR : K.Reads read R) {q rest : List Nibble} {t : Tree 16 α} (hq : q ≠ [])
    (hlen : q.length ≤ 64) (hk : keyNibbles key = q ++ rest) : Option.Rel R (t.get rest)
      (nodeGet (toNode K.form t) ((keyNibbles key).drop (localDepth (K.root ++ q)))) := by
  rw [K.localDepth hq hlen, hk, List.drop_left, nodeGet_toNode K.form read hR.record]
  cases t.get rest with
  | none => exact .none
  | some a => exact .some (hR.reads a)

mutual

theorem ramGet_shows (hR : K.Reads read R) (n : RamNode) {q rest : List Nibble} {t : Tree 16 α}
    (h : Shows K q n t) (hk : keyNibbles key = q ++ rest) :
    ∃ o, value ideal (ramGet n (keyNibbles key) q.length) = .ok o ∧
      Option.Rel R (t.get rest) o := by
  match n with
  | .empty =>
    cases h
    exact ⟨none, rfl, .none⟩
  | .extension path child hash =>
    cases h with
    | @extension _ _ _ t _ hp hb hcc hch hh =>
    rw [ramGet, hk, List.drop_left, ← hk]
    by_cases hpre : ∃ r, rest = path ++ r
    · obtain ⟨r, rfl⟩ := hpre
      rw [isPrefixOf_append, if_pos rfl, Tree.get_ext_append, ← List.length_append]
      exact ramGet_shows hR child hch (by rw [hk, List.append_assoc])
    · rw [not_isPrefixOf hpre, get_ext_off hpre]
      exact ⟨none, rfl, .none⟩
  | .branch slots hash =>
    cases h with
    | @branch _ _ ts _ hq hs hh =>
    have hlen := key_length hk
    cases rest with
    | nil =>
      rw [List.length_nil] at hlen
      omega
    | cons i r =>
      have hi : (keyNibbles key)[q.length]? = some i := by
        rw [hk, List.getElem?_append_right (le_refl _), Nat.sub_self]
        rfl
      rw [ramGet, hi, Tree.get_branch_cons]
      have hslot := slotGet_shows hR (slots i) (hs i) (by simp) (by rw [hk, List.append_assoc]; rfl)
      rwa [List.length_append, List.length_singleton, Nat.add_sub_cancel] at hslot

theorem slotGet_shows (hR : K.Reads read R) (s : RamSlot) {q rest : List Nibble} {t : Tree 16 α}
    (h : ShowsSlot K q s t) (hq : q ≠ []) (hk : keyNibbles key = q ++ rest) :
    ∃ o, value ideal (slotGet s (keyNibbles key) (q.length - 1)) = .ok o ∧
      Option.Rel R (t.get rest) o := by
  have hpos := List.length_pos_of_ne_nil hq
  have hdepth : q.length - 1 + 1 = q.length := by omega
  match s with
  | .none =>
    cases h
    exact ⟨none, rfl, .none⟩
  | .ram child =>
    cases h with
    | ram hc ht h =>
      rw [slotGet, hdepth]
      exact ramGet_shows hR child h hk
  | .disk ptr root =>
    cases h with
    | disk h =>
      refine ⟨_, ?_, recordGet_reads hR hq h.length hk⟩
      rw [slotGet, value_attempt, value_readLazy, h.read]
      rfl
  | .mem bytes root =>
    cases h with
    | mem h =>
      refine ⟨_, ?_, recordGet_reads hR hq h.length hk⟩
      rw [slotGet, value_attempt, h.read]
      rfl
  | .account path nonce balance codeHash storage =>
    cases h with
    | @account _ _ _ _ _ _ a hp ha hl =>
      rw [slotGet, hdepth, hk, List.drop_left, Tree.get_leaf]
      refine ⟨_, rfl, ?_⟩
      split
      · exact .some (hR.lone hl)
      · exact .none

end

/-! ## The kinds -/

theorem reads_storage (account : Key) : (storageKind account).Reads id fun v w => w = v where
  record _ _ _ := rfl
  reads _ := rfl
  lone h := h.elim

/-- What a read returns for a leaf of the state trie. -/
def StateLeaf.Reads : StateLeaf → Bytes → Prop
  | .raw v, w => w = v
  | .account n b c _, w => ∃ root, w = accountRlp n b c root

theorem reads_state : stateKind.Reads StateLeaf.value StateLeaf.Reads where
  record _ a _ := by cases a <;> rfl
  reads a := by
    cases a with
    | raw v => rfl
    | account n b c s => exact ⟨_, rfl⟩
  lone := by
    rintro _ n b c storage _ ⟨account, s, -, rfl, -, -⟩
    exact ⟨_, rfl⟩

/-- A slot of a storage frontier. -/
theorem ramGet_storage {account : Key} {s : Storage} {storage : RamNode}
    (h : Shows (storageKind account) [] storage s.tree) (slot : Key) :
    value ideal (ramGet storage (keyNibbles slot) 0) = .ok (s.get slot) := by
  obtain ⟨o, ho, hr⟩ := ramGet_shows (reads_storage account) storage h (List.nil_append _).symm
  rw [show value ideal (ramGet storage (keyNibbles slot) 0) = .ok o from ho]
  change Option.Rel _ (s.get slot) o at hr
  cases hs : s.get slot with
  | none =>
    rw [hs] at hr
    cases hr
    rfl
  | some v =>
    rw [hs] at hr
    cases hr with
    | some h => rw [h]

theorem recordGetStorage {q rest : List Nibble} {t : Tree 16 StateLeaf} (hq : q ≠ [])
    (hlen : q.length ≤ 64) (hk : keyNibbles key = q ++ rest) (slot : Key) :
    nodeGetStorage (toNode stateLeaf t) ((keyNibbles key).drop (localDepth (stateKind.root ++ q))) slot =
      (t.get rest).bind (·.slot slot) := by
  rw [stateKind.localDepth hq hlen, hk, List.drop_left, nodeGetStorage_toNode]

mutual

theorem ramGetStorage_shows (n : RamNode) {q rest : List Nibble} {t : Tree 16 StateLeaf}
    (h : Shows stateKind q n t) (hk : keyNibbles key = q ++ rest) (slot : Key) :
    value ideal (ramGetStorage n (keyNibbles key) q.length slot) =
      .ok ((t.get rest).bind (·.slot slot)) := by
  match n with
  | .empty =>
    cases h
    rfl
  | .extension path child hash =>
    cases h with
    | @extension _ _ _ t _ hp hb hcc hch hh =>
    rw [ramGetStorage, hk, List.drop_left, ← hk]
    by_cases hpre : ∃ r, rest = path ++ r
    · obtain ⟨r, rfl⟩ := hpre
      rw [isPrefixOf_append, if_pos rfl, Tree.get_ext_append, ← List.length_append]
      exact ramGetStorage_shows child hch (by rw [hk, List.append_assoc]) slot
    · rw [not_isPrefixOf hpre, get_ext_off hpre]
      rfl
  | .branch slots hash =>
    cases h with
    | @branch _ _ ts _ hq hs hh =>
    have hlen := key_length hk
    cases rest with
    | nil =>
      rw [List.length_nil] at hlen
      omega
    | cons i r =>
      have hi : (keyNibbles key)[q.length]? = some i := by
        rw [hk, List.getElem?_append_right (le_refl _), Nat.sub_self]
        rfl
      rw [ramGetStorage, hi, Tree.get_branch_cons]
      have hslot := slotGetStorage_shows (slots i) (hs i) (by simp)
        (by rw [hk, List.append_assoc]; rfl) slot
      rwa [List.length_append, List.length_singleton, Nat.add_sub_cancel] at hslot

theorem slotGetStorage_shows (s : RamSlot) {q rest : List Nibble} {t : Tree 16 StateLeaf}
    (h : ShowsSlot stateKind q s t) (hq : q ≠ []) (hk : keyNibbles key = q ++ rest) (slot : Key) :
    value ideal (slotGetStorage s (keyNibbles key) (q.length - 1) slot) =
      .ok ((t.get rest).bind (·.slot slot)) := by
  have hpos := List.length_pos_of_ne_nil hq
  have hdepth : q.length - 1 + 1 = q.length := by omega
  match s with
  | .none =>
    cases h
    rfl
  | .ram child =>
    cases h with
    | ram hc ht h =>
      rw [slotGetStorage, hdepth]
      exact ramGetStorage_shows child h hk slot
  | .disk ptr root =>
    cases h with
    | disk h =>
      rw [slotGetStorage, value_attempt, value_readLazy, h.read, ← recordGetStorage hq h.length hk]
      rfl
  | .mem bytes root =>
    cases h with
    | mem h =>
      have hread : value ideal (.pure (deserializeSubtree bytes)) = .ok _ := h.read
      rw [slotGetStorage, value_attempt, hread, ← recordGetStorage hq h.length hk]
      rfl
  | .account path nonce balance codeHash storage =>
    cases h with
    | @account _ _ _ _ _ _ a hp ha hl =>
      obtain ⟨account, s, hf, rfl, ht, hshow⟩ := hl
      rw [slotGetStorage, hdepth, hk, List.drop_left, Tree.get_leaf]
      split
      · exact ramGet_storage hshow slot
      · rfl

end

end

end FlatMpt
