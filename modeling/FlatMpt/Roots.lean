import FlatMpt.SlotWalks
import FlatMpt.Binding

/-!
# The state root

The frontier hashes every child of a branch, the reference only nodes of 32 bytes or
more.  Where all leaves are that wide the two agree, and the root of a view is the
reference root of what its reads return.

    Wide, wideTree_of_wide        -- leaves that are hashed in their parents
    hashRam_leaves                -- the root of a frontier, by its leaves
    state_root_exact
-/

namespace FlatMpt

open Prog
open Radix (Tree prefixed)
open Radix.Tree (Canon)
open Ordered (Ascending)
open Eth (rlpString rlpList hexPrefix)

/-! ## Widths -/

theorem lt_length_rlpList (items : List Bytes) : items.flatten.length < (rlpList items).length := by
  unfold rlpList Eth.rlpHeader
  rw [List.length_append]
  dsimp only
  split
  · simp
  · simp

theorem lt_length_rlpString {b : Bytes} (h : b.length ≠ 1) : b.length < (rlpString b).length := by
  unfold rlpString
  split
  · exact absurd rfl h
  · unfold Eth.rlpHeader
    rw [List.length_append]
    dsimp only
    split <;> simp

theorem length_rlpString_pos (bs : Bytes) : 0 < (rlpString bs).length := by
  cases bs with
  | nil => decide
  | cons b bs => exact lt_of_lt_of_le (by simp) (Eth.length_le_rlpString (b :: bs))

theorem length_hexPrefix (path : List Nibble) (leaf : Bool) :
    (hexPrefix path leaf).length = path.length / 2 + 1 := by
  have hflat := congrArg List.length (Eth.hexPrefix_flagged path leaf).1
  rw [List.length_flatMap] at hflat
  have htwo : ((hexPrefix path leaf).map fun b => (byteNibbles b).length).sum =
      (hexPrefix path leaf).length * 2 := by
    rw [show (fun b => (byteNibbles b).length) = fun _ => 2 from rfl, List.map_const', List.sum_replicate]
    rfl
  rw [htwo] at hflat
  unfold Eth.flagged at hflat
  dsimp only at hflat
  split at hflat
  · rw [List.length_cons] at hflat
    omega
  · rw [List.length_cons, List.length_cons] at hflat
    omega

theorem length_leafRlp (path : List Nibble) (v : Bytes) :
    (rlpString (hexPrefix path true)).length + (rlpString v).length < (leafRlp path v).length := by
  have := lt_length_rlpList [rlpString (hexPrefix path true), rlpString v]
  simpa [leafRlp] using this

/-- A long value, or a leaf near the root, is hashed. -/
theorem leafRlp_wide {path : List Nibble} {v : Bytes} (h : 29 ≤ v.length ∨ 56 ≤ path.length) :
    32 ≤ (leafRlp path v).length := by
  have hsum := length_leafRlp path v
  have hpath := length_hexPrefix path true
  rcases h with h | h
  · have hv := lt_length_rlpString (b := v) (by omega)
    have hp := length_rlpString_pos (hexPrefix path true)
    omega
  · have hv := length_rlpString_pos v
    have hp := lt_length_rlpString (b := hexPrefix path true) (by omega)
    omega

theorem length_decodeHeader {bs payload : Bytes} {list : Bool} {len : Nat}
    (h : Eth.decodeHeader bs = some (list, len, payload)) : payload.length ≤ bs.length := by
  cases bs with
  | nil => cases h
  | cons b rest =>
    have hlist {x y : Bool × Nat × Bytes} (h : some x = some y) : y.2.2 = x.2.2 := by
      cases h
      rfl
    unfold Eth.decodeHeader at h
    dsimp only at h
    split_ifs at h
    · rw [show payload = _ from hlist h]
    · rw [show payload = _ from hlist h]
      exact Nat.le_succ _
    · rw [show payload = _ from hlist h]
      exact Nat.le_succ _
    all_goals
      rw [show payload = _ from hlist h, List.length_drop, List.length_cons]
      omega

theorem length_decodeBytes {bs x rest : Bytes} (h : Eth.decodeBytes bs = some (x, rest)) :
    x.length + rest.length ≤ bs.length := by
  unfold Eth.decodeBytes at h
  split at h
  next len payload hh =>
    cases h
    have := length_decodeHeader hh
    rw [← List.length_append, List.take_append_drop]
    exact this
  next => cases h

theorem length_decodeNat {width n : Nat} {bs rest : Bytes} (h : Eth.decodeNat width bs = some (n, rest)) :
    rest.length ≤ bs.length := by
  unfold Eth.decodeNat at h
  split at h
  · cases h
  next hb =>
    split at h
    · cases h
    · cases h
      have := length_decodeBytes hb
      omega

/-- An account's value is long. -/
theorem length_of_decode {v : Bytes} {a : Eth.Account} (h : Eth.Account.decode v = some a) :
    29 ≤ v.length := by
  unfold Eth.Account.decode at h
  simp only [Option.bind_eq_bind, Option.bind_eq_some_iff] at h
  obtain ⟨⟨list, len, payload⟩, hheader, -, -, ⟨nonce, r1⟩, hnonce, ⟨balance, r2⟩, hbalance,
    ⟨storageRoot, r3⟩, hroot, -⟩ := h
  have h0 : payload.length ≤ v.length := length_decodeHeader hheader
  have h1 : r1.length ≤ payload.length := length_decodeNat hnonce
  have h2 : r2.length ≤ r1.length := length_decodeNat hbalance
  have h3 : 32 ≤ r2.length := by
    unfold Eth.decodeHash at hroot
    split at hroot
    · cases hroot
    next hb =>
      split at hroot
      next hs =>
        have : _ + _ ≤ r2.length := length_decodeBytes hb
        omega
      next => cases hroot
  omega

section
variable [Keccak]

omit [Keccak] in
theorem length_embed_hash (h : Hash) : (NodeRef.hash h).embed.length = 33 := by
  have hb : h.bytes.length = 32 := h.size
  show (rlpString h.bytes).length = 33
  unfold rlpString
  split
  next b he =>
    rw [he] at hb
    cases hb
  next =>
    unfold Eth.rlpHeader
    rw [hb, if_pos (by decide), List.length_append, hb]
    rfl

/-- Every leaf of the tree is hashed in its parent. -/
def WideTree : Tree 16 Bytes → Prop
  | .empty => True
  | .leaf path v => 32 ≤ (leafRlp path v).length
  | .ext _ child => WideTree child
  | .branch children => ∀ i, WideTree (children i)

theorem mkRef_hash {rlp : Bytes} (h : 32 ≤ rlp.length) : mkRef rlp = .hash (keccak256 rlp) :=
  if_neg (by omega)

theorem treeRoot_ne {t : Tree 16 Bytes} (ht : t ≠ .empty) : treeRoot t = keccak256 (treeRlp t) :=
  if_neg fun he => ht (Tree.isEmpty_iff.mp he)

/-- With its leaves every node of the tree is hashed. -/
theorem treeRlp_wide {n : Nat} {t : Tree 16 Bytes} (h : Canon n t) (hw : WideTree t) (ht : t ≠ .empty) :
    32 ≤ (treeRlp t).length := by
  induction h with
  | empty => exact absurd rfl ht
  | leaf hp => exact hw
  | @ext n m path child hp hn hb hc ih =>
    have hchild := ih hw (by cases hb; nofun)
    have := lt_length_rlpList [rlpString (hexPrefix path false), (mkRef (treeRlp child)).embed]
    rw [mkRef_hash hchild] at this
    simp only [List.flatten_cons, List.flatten_nil, List.append_nil, List.length_append,
      length_embed_hash] at this
    unfold treeRlp extRlp
    rw [mkRef_hash hchild]
    omega
  | @branch n m children hn hc h2 ih =>
    obtain ⟨i, -, -, hi, -⟩ := h2
    have hitem : (mkRef (treeRlp (children i))).embed ∈ branchItems children := by
      refine List.mem_append.mpr (.inl (List.mem_map.mpr ⟨i, List.mem_finRange i, ?_⟩))
      rw [if_neg fun he => hi (Tree.isEmpty_iff.mp he)]
    have hle := List.single_le_sum (fun _ _ => Nat.zero_le _) _ (List.mem_map_of_mem hitem (f := List.length))
    rw [mkRef_hash (ih i (hw i) hi), length_embed_hash, ← List.length_flatten] at hle
    have := lt_length_rlpList (branchItems children)
    rw [treeRlp_branch]
    omega

theorem mkRef_wide {n : Nat} {t : Tree 16 Bytes} (h : Canon n t) (hw : WideTree t) (ht : t ≠ .empty) :
    mkRef (treeRlp t) = .hash (treeRoot t) := by
  rw [mkRef_hash (treeRlp_wide h hw ht), treeRoot_ne ht]

/-! ## The root of a frontier -/

/-- Leaves are hashed with the values that reads return. -/
def Kind.Hashes {α : Type} (K : Kind α) : Prop :=
  ∀ p a, ∃ out, nodeLeaves (K.form.node p a) = .leaf p out ∧
    hashNode (K.form.node p a) = leafRef p out.rlp

variable {α : Type} {K : Kind α} {q : List Nibble} {t : Tree 16 α}

theorem Kind.Hashes.surfaces (hK : K.Hashes) : K.Surfaces fun _ _ => True where
  record p a := by
    obtain ⟨out, hout, -⟩ := hK p a
    exact ⟨out, hout, trivial⟩
  lone _ := trivial

/-- The leaves of a record, as a tree of values. -/
abbrev recordValues (K : Kind α) (t : Tree 16 α) : Tree 16 Bytes :=
  (nodeLeaves (toNode K.form t)).map LeafOut.rlp

theorem isEmpty_recordValues (hK : K.Hashes) (t : Tree 16 α) :
    (recordValues K t).isEmpty = t.isEmpty := by
  rw [Tree.isEmpty_map]
  exact (nodeLeaves_toNode hK.surfaces.record t).isEmpty.symm

/-- A record node refers to the tree of its leaves. -/
theorem hashNode_leaves (hK : K.Hashes) {n : Nat} (h : Canon n t) (ht : t ≠ .empty) :
    hashNode (toNode K.form t) = mkRef (treeRlp (recordValues K t)) := by
  induction h with
  | empty => exact absurd rfl ht
  | @leaf n path a hp =>
    obtain ⟨out, hout, hhash⟩ := hK path a
    unfold recordValues
    rw [toNode, hout, hhash]
    rfl
  | @ext n m path child hp hn hb hc ih =>
    obtain ⟨children⟩ := hb
    show extRef path (hashNode (toNode K.form (.branch children))) = _
    rw [ih (fun hf => by cases hf)]
    rfl
  | @branch n m children hn hc h2 ih =>
    show branchRef (fun i => (asChild (toNode K.form (children i))).map hashNode) =
      mkRef (treeRlp (.branch fun i => (nodeSlotLeaves (asChild (toNode K.form (children i)))).map LeafOut.rlp))
    rw [branchRef, treeRlp]
    congr 2
    funext i
    rw [nodeSlotLeaves_asChild]
    by_cases hi : children i = .empty
    · rw [hi]
      rfl
    · have hne : ¬ (recordValues K (children i)).isEmpty := fun he =>
        hi (Tree.isEmpty_iff.mp ((isEmpty_recordValues hK _).symm.trans he))
      rw [asChild_toNode K.form hi, if_neg hne]
      exact congrArg some (ih i hi)

mutual

/-- **The root of a frontier** is that of the tree of its leaves, when they are wide. -/
theorem hashRam_leaves (hK : K.Hashes) (n : RamNode) {q : List Nibble} {t : Tree 16 α} (h : Shows K q n t)
    (hc : Canon (64 - q.length) t) (hw : WideTree ((ramLeaves n).map LeafOut.rlp)) :
    hashRam n = treeRoot ((ramLeaves n).map LeafOut.rlp) := by
  match n with
  | .empty => rfl
  | .extension path child hash =>
    cases h with
    | @extension _ _ _ t _ hp hb hcc hch hh =>
      have hchild := hashRam_leaves hK child hch hcc hw
      have hcanon := ((ramLeaves_alike hK.surfaces child hch).canon hcc).map LeafOut.rlp
      have hne : (ramLeaves child).map LeafOut.rlp ≠ .empty := fun he => by
        have := (ramLeaves_alike hK.surfaces child hch).isEmpty
        rw [← Tree.isEmpty_map LeafOut.rlp, he] at this
        cases hb
        cases this
      rw [hh.extension]
      show (extRef path (.hash (hashRam child))).finalize = _
      rw [hchild, ← mkRef_wide hcanon hw hne, extRef, finalize_mkRef]
      rfl
  | .branch slots hash =>
    cases h with
    | @branch _ _ ts _ hq hs hh =>
      have hslot (i : Nibble) := ramChildHash_leaves hK (slots i) (hs i) (hw i)
      rw [hh.branch]
      show (branchRef fun i => (ramChildHash (slots i)).map .hash).finalize =
        keccak256 (treeRlp (.branch fun i => (slotLeaves (slots i)).map LeafOut.rlp))
      rw [branchRef, finalize_mkRef, treeRlp]
      congr 2
      funext i
      exact hslot i

theorem ramChildHash_leaves (hK : K.Hashes) (slot : RamSlot) {q : List Nibble} {t : Tree 16 α}
    (h : ShowsSlot K q slot t) (hw : WideTree ((slotLeaves slot).map LeafOut.rlp)) :
    (ramChildHash slot).map .hash = if ((slotLeaves slot).map LeafOut.rlp).isEmpty then none
      else some (mkRef (treeRlp ((slotLeaves slot).map LeafOut.rlp))) := by
  have halike := slotLeaves_alike hK.surfaces slot h
  have hcanon := (halike.canon h.canon).map LeafOut.rlp
  have hempty : ((slotLeaves slot).map LeafOut.rlp).isEmpty = !slot.isSome := by
    rw [Tree.isEmpty_map, ← halike.isEmpty, h.isSome, Bool.not_not]
  cases hs : slot.isSome with
  | false =>
    cases slot with
    | none => rfl
    | _ => cases hs
  | true =>
    rw [hs] at hempty
    have hne : (slotLeaves slot).map LeafOut.rlp ≠ .empty := fun he => by
      rw [he] at hempty
      cases hempty
    rw [hempty, Bool.not_true, if_neg Bool.false_ne_true, mkRef_wide hcanon hw hne]
    have hrecord {bytes : Bytes} {root : Hash} (h : Recorded K q t bytes root) :
        root = treeRoot ((recordLeaves bytes).map LeafOut.rlp) := by
      rw [h.root_eq, hashNode_leaves hK h.canon h.ne_empty, finalize_mkRef, recordLeaves_eq h,
        treeRoot_ne fun he => h.ne_empty (Tree.isEmpty_iff.mp
          ((isEmpty_recordValues hK t).symm.trans (Tree.isEmpty_iff.mpr he)))]
    match slot with
    | .none => cases hs
    | .ram n =>
      cases h with
      | ram hc ht h => exact congrArg (fun r => some (NodeRef.hash r)) (hashRam_leaves hK n h hc hw)
    | .disk ptr root =>
      cases h with
      | disk h => exact congrArg (fun r => some (NodeRef.hash r)) (hrecord h)
    | .account path nonce balance codeHash storage =>
      exact congrArg (fun r => some (NodeRef.hash r)) (finalize_mkRef _)
    | .mem bytes root =>
      cases h with
      | mem h => exact congrArg (fun r => some (NodeRef.hash r)) (hrecord h)

end

/-! ## Wide listings -/

end

/-- Values of 29 bytes or more, or slots alone below their first 8 nibbles. -/
def Wide (es : List (Key × Bytes)) : Prop :=
  ∀ e ∈ es, 29 ≤ e.2.length ∨ ∀ e' ∈ es, (keyNibbles e'.1).take 8 = (keyNibbles e.1).take 8 → e' = e

/-- The same of a tree whose keys have `n` nibbles left. -/
def WideAt (n : Nat) (t : Tree 16 Bytes) : Prop :=
  ∀ k v, t.get k = some v → 29 ≤ v.length ∨
    (56 ≤ n ∧ ∀ k', (t.get k').isSome → k'.take (n - 56) = k.take (n - 56) → k' = k)

/-- A part of the tree whose keys share all but the last nibble of `path`. -/
theorem WideAt.part {n m : Nat} {t c : Tree 16 Bytes} {path : List Nibble} (h : WideAt n t)
    (hp : path ≠ []) (hn : n = path.length + m) (hget : ∀ k, t.get (path ++ k) = c.get k)
    (hshare : ∀ k, (t.get k).isSome → k.take (path.length - 1) = path.take (path.length - 1))
    (htwo : ∃ k l, k ≠ l ∧ (t.get k).isSome ∧ (t.get l).isSome) : WideAt m c := by
  intro k v hk
  rw [← hget] at hk
  have hlen := List.length_pos_of_ne_nil hp
  refine (h _ v hk).imp_right fun ⟨hle, halone⟩ => ?_
  have hm : 56 ≤ m := by
    by_contra hlt
    have htake {l : List Nibble} (hl : (t.get l).isSome) :
        l.take (n - 56) = (path ++ k).take (n - 56) := by
      have hmin : n - 56 = min (n - 56) (path.length - 1) := by omega
      rw [hmin, ← List.take_take, ← List.take_take, hshare l hl,
        hshare _ (Option.isSome_iff_exists.mpr ⟨v, hk⟩)]
    obtain ⟨l, l', hne, hl, hl'⟩ := htwo
    exact hne ((halone l hl (htake hl)).trans (halone l' hl' (htake hl')).symm)
  refine ⟨hm, fun k' hk' htake => List.append_cancel_left (halone (path ++ k') ?_ ?_)⟩
  · rwa [hget]
  · rw [show n - 56 = path.length + (m - 56) by omega, List.take_length_add_append,
      List.take_length_add_append, htake]

theorem wideTree_of_get {n : Nat} {t : Tree 16 Bytes} (h : Canon n t) (hw : WideAt n t) : WideTree t := by
  induction h with
  | empty => trivial
  | @leaf n path v hp =>
    refine leafRlp_wide ((hw path v (if_pos rfl)).imp_right fun h => ?_)
    rw [hp]
    exact h.1
  | @ext n m path child hp hn hb hc ih =>
    refine ih (hw.part hp hn (Tree.get_ext_append path · child) (fun k hk => ?_) ?_)
    · obtain ⟨v, hv⟩ := Option.isSome_iff_exists.mp hk
      obtain ⟨k', rfl, -⟩ := Tree.get_ext_eq_some hv
      rw [List.take_append_of_le_length (by omega)]
    · obtain ⟨children⟩ := hb
      obtain ⟨i, j, k, l, a, b, hij, hk, hl⟩ := hc.branch_parts
      refine ⟨path ++ i :: k, path ++ j :: l, fun he => ?_, ?_, ?_⟩
      · cases List.append_cancel_left he
        exact hij rfl
      · rw [Tree.get_ext_append, hk]
        rfl
      · rw [Tree.get_ext_append, hl]
        rfl
  | @branch n m children hn hc h2 ih =>
    intro i
    obtain ⟨j, j', k, l, a, b, hij, hk, hl⟩ := (Canon.branch hn hc h2).branch_parts
    refine ih i (hw.part (List.cons_ne_nil i []) (by simpa [add_comm] using hn) (fun _ => rfl)
      (fun _ _ => rfl) ⟨j :: k, j' :: l, fun he => ?_, ?_, ?_⟩)
    · cases he
      exact hij rfl
    · rw [hk]
      rfl
    · rw [hl]
      rfl

/-- A list of a tree's entries, under their keys. -/
def Entries (es : List (Key × Bytes)) (t : Tree 16 Bytes) : Prop :=
  ∀ k v, t.get k = some v ↔ ∃ e ∈ es, keyNibbles e.1 = k ∧ e.2 = v

section
variable {es : List (Key × Bytes)} {t : Tree 16 Bytes}

theorem Entries.wide (h : Entries es t) (hw : Wide es) : WideAt 64 t := by
  intro k v hk
  obtain ⟨e, he, rfl, rfl⟩ := (h k v).mp hk
  refine (hw e he).imp_right fun halone => ⟨by decide, fun k' hk' htake => ?_⟩
  obtain ⟨v', hv'⟩ := Option.isSome_iff_exists.mp hk'
  obtain ⟨e', he', rfl, -⟩ := (h k' v').mp hv'
  rw [halone e' he' htake]

/-- Writing the entries. -/
theorem Entries.get_written (h : Entries es t) (hne : ∀ e ∈ es, e.2 ≠ []) (k : List Nibble) :
    written (es.map fun e => (e.1.bytes, e.2)) k = t.get k := by
  have hmem : ∀ e ∈ es, t.get (keyNibbles e.1) = some e.2 := fun e he => (h _ _).mpr ⟨e, he, rfl, rfl⟩
  have hfold (m : List Nibble → Option Bytes) :
      (es.map fun e => (e.1.bytes, e.2)).foldl (fun m e =>
        Function.update m (Eth.rawNibbles e.1) (if e.2.isEmpty then none else some e.2)) m k =
        if ∃ e ∈ es, keyNibbles e.1 = k then t.get k else m k := by
    clear h
    induction es generalizing m with
    | nil => rw [if_neg (by simp)]; rfl
    | cons e es ih =>
      rw [List.map_cons, List.foldl_cons, ih (fun x hx => hne x (List.mem_cons_of_mem _ hx))
        (fun x hx => hmem x (List.mem_cons_of_mem _ hx))]
      have hraw : Eth.rawNibbles e.1.bytes = keyNibbles e.1 := rfl
      have hval : e.2.isEmpty = false := List.isEmpty_eq_false_iff.mpr (hne e List.mem_cons_self)
      dsimp only
      rw [hraw, hval, if_neg Bool.false_ne_true]
      by_cases hk : keyNibbles e.1 = k
      · rw [if_pos (⟨e, List.mem_cons_self, hk⟩ : ∃ x ∈ e :: es, keyNibbles x.1 = k), ← hk,
          Function.update_self, hmem e List.mem_cons_self, ite_self]
      · rw [Function.update_of_ne (Ne.symm hk)]
        simp only [List.exists_mem_cons_iff, hk, false_or]
  unfold written
  rw [hfold]
  split
  · rfl
  next hnone =>
    cases hg : t.get k with
    | none => rfl
    | some v =>
      obtain ⟨e, he, hk, -⟩ := (h k v).mp hg
      exact absurd ⟨e, he, hk⟩ hnone

end

section
variable [Keccak] {es : List (Key × Bytes)} {t : Tree 16 Bytes}

/-- The reference root of the entries is that of the tree. -/
theorem Entries.root (h : Entries es t) (hc : Canon 64 t) (hne : ∀ e ∈ es, e.2 ≠ []) :
    Eth.root (es.map fun e => (e.1.bytes, e.2)) = treeRoot t := by
  have hlen : ∀ e ∈ es.map fun e => (e.1.bytes, e.2), e.1.length = 32 := by
    intro e he
    obtain ⟨e, -, rfl⟩ := List.mem_map.mp he
    exact e.1.size
  rw [root_eq hlen, (canon_writtenTree _).ext_get hc fun k => ?_]
  rw [get_writtenTree hlen, h.get_written hne]

end

/-! ## Promoted accounts -/

mutual

/-- Whether the key's account is promoted. -/
def promotedAt : RamNode → List Nibble → Bool
  | .empty, _ => false
  | .extension path child _, k => path.isPrefixOf k && promotedAt child (k.drop path.length)
  | .branch children _, k =>
    match k with
    | [] => false
    | i :: rest => slotPromotedAt (children i) rest

def slotPromotedAt : RamSlot → List Nibble → Bool
  | .ram node, k => promotedAt node k
  | .account path _ _ _ _, k => path = k
  | _, _ => false

end

mutual

theorem promotedAt_fetch (s : Store) (n : RamNode) (p k : List Nibble) :
    promotedAt (mapLeaves (fetch s) n p) k = promotedAt n k := by
  match n with
  | .empty => rfl
  | .extension path child hash =>
    rw [mapLeaves, promotedAt, promotedAt, promotedAt_fetch]
  | .branch children hash =>
    cases k with
    | nil => rfl
    | cons i k => exact slotPromotedAt_fetch s (children i) (p ++ [i]) k

theorem slotPromotedAt_fetch (s : Store) (slot : RamSlot) (p k : List Nibble) :
    slotPromotedAt (mapLeavesIn (fetch s) slot p) k = slotPromotedAt slot k := by
  match slot with
  | .none => rfl
  | .ram node => exact promotedAt_fetch s node p k
  | .disk ptr root => rfl
  | .account path nonce balance codeHash storage => rfl
  | .mem bytes root => rfl

end

section
variable [Keccak]

/-- Where a leaf lies: in a record, or promoted. -/
def Placing (a : StateLeaf) (out : LeafOut) : Bool → Prop
  | false => ∃ p, nodeLeaves (stateLeaf.node p a) = .leaf p out
  | true => ∃ full nonce balance codeHash storage, PromotedAccount full nonce balance codeHash storage a ∧
      out = .account nonce balance codeHash (hashRam storage)

theorem recordLeaves_placing {q : List Nibble} {t : Tree 16 StateLeaf} {bytes : Bytes} {root : Hash}
    (h : Recorded stateKind q t bytes root) {k : List Nibble} {out : LeafOut}
    (hk : (recordLeaves bytes).get k = some out) : ∃ a, t.get k = some a ∧ Placing a out false := by
  have halike := nodeLeaves_toNode (K := stateKind) (R := (Placing · · false)) (fun p a => by
    obtain ⟨out, hout, -⟩ := surfaces_state.record p a
    exact ⟨out, hout, p, hout⟩) t
  have hrel := halike.get k
  rw [recordLeaves_eq h] at hk
  rw [hk] at hrel
  generalize t.get k = o at hrel ⊢
  cases hrel with
  | some h => exact ⟨_, rfl, h⟩

mutual

theorem ramLeaves_placing (n : RamNode) {q : List Nibble} {t : Tree 16 StateLeaf}
    (h : Shows stateKind q n t) {k : List Nibble} {out : LeafOut} (hk : (ramLeaves n).get k = some out) :
    ∃ a, t.get k = some a ∧ Placing a out (promotedAt n k) := by
  match n with
  | .empty => cases hk
  | .extension path child hash =>
    cases h with
    | extension hp hb hc h hh =>
      rw [ramLeaves] at hk
      obtain ⟨k', rfl, hk'⟩ := Tree.get_ext_eq_some hk
      rw [Tree.get_ext_append, promotedAt, List.drop_left, List.isPrefixOf_iff_prefix.mpr (List.prefix_append ..),
        Bool.true_and]
      exact ramLeaves_placing child h hk'
  | .branch slots hash =>
    cases h with
    | branch hq h hh =>
      cases k with
      | nil => cases hk
      | cons i k => exact slotLeaves_placing (slots i) (h i) hk

theorem slotLeaves_placing (slot : RamSlot) {q : List Nibble} {t : Tree 16 StateLeaf}
    (h : ShowsSlot stateKind q slot t) {k : List Nibble} {out : LeafOut}
    (hk : (slotLeaves slot).get k = some out) :
    ∃ a, t.get k = some a ∧ Placing a out (slotPromotedAt slot k) := by
  match slot with
  | .none => cases hk
  | .ram node =>
    cases h with
    | ram hc ht h => exact ramLeaves_placing node h hk
  | .disk ptr root =>
    cases h with
    | disk h => exact recordLeaves_placing h hk
  | .account path nonce balance codeHash storage =>
    cases h with
    | account hp ha h =>
      rw [slotLeaves, Radix.Tree.get] at hk
      split at hk
      next he =>
        cases hk
        subst he
        refine ⟨_, if_pos rfl, ?_⟩
        rw [slotPromotedAt, decide_eq_true rfl]
        exact ⟨_, _, _, _, _, h, rfl⟩
      next => cases hk
  | .mem bytes root =>
    cases h with
    | mem h => exact recordLeaves_placing h hk

end

theorem hashes_storage (account : Key) : (storageKind account).Hashes := fun _ v => ⟨.value v, rfl, rfl⟩

theorem hashes_state : stateKind.Hashes := by
  intro p a
  cases a with
  | raw v => exact ⟨.value v, rfl, rfl⟩
  | account n b c s => exact ⟨.account n b c _, rfl, rfl⟩

/-- The storage root that a leaf carries. -/
theorem Placing.storageRoot {n : UInt64} {b : U256} {c : Hash} {s : Storage} {out : LeafOut} {promoted : Bool}
    (h : Placing (.account n b c s) out promoted) (hw : promoted = true → WideTree s.tree) :
    out = .account n b c (treeRoot s.tree) := by
  cases promoted with
  | false =>
    obtain ⟨p, hout⟩ := h
    change Tree.leaf p (LeafOut.account n b c (hashNode s.toNode).finalize) = _ at hout
    cases hout
    rw [Storage.toNode, finalize_toNode s.canon]
  | true =>
    obtain ⟨full, n, b, c, storage, ⟨account, s, -, ha, -, hs⟩, rfl⟩ := h
    cases ha
    have hvalues : (ramLeaves storage).map LeafOut.rlp = s.tree :=
      (ramLeaves_alike (surfaces_storage account) storage hs).map_eq fun _ _ h => by rw [h]; rfl
    have hroot := hashRam_leaves (hashes_storage account) storage hs s.canon (by rw [hvalues]; exact hw rfl)
    rw [hroot, hvalues]

/-! ## Listings -/

omit [Keccak] in
theorem Entries.of_forall₂ {es : List (Key × Bytes)} {t : Tree 16 Bytes}
    (h : List.Forall₂ (fun (x : Key × Bytes) (e : List Nibble × Bytes) => keyNibbles x.1 = e.1 ∧ x.2 = e.2)
      es t.toList) : Entries es t := by
  intro k v
  rw [← Tree.mem_toList]
  constructor
  · intro hm
    obtain ⟨e, he, hk, hv⟩ := Radix.exists_related h.flip hm
    exact ⟨e, he, hk, hv⟩
  · rintro ⟨e, he, rfl, rfl⟩
    obtain ⟨e', he', hk, hv⟩ := Radix.exists_related h he
    rwa [hk, hv]

variable {t : Tree 16 StateLeaf} {ls : List Listed}

omit [Keccak] in
theorem listed_entries {T : Tree 16 LeafOut} (hls : List.Forall₂ (Listed.Of t) ls T.toList) :
    Entries (ls.map fun l => (l.key, l.value)) (T.map LeafOut.rlp) := by
  refine .of_forall₂ ?_
  rw [Tree.toList_map, List.forall₂_map_left_iff, List.forall₂_map_right_iff]
  exact hls.imp fun l e hof => ⟨hof.key, hof.value⟩

/-- The storage root of a listed account is that of its slots. -/
def Listed.RootExact (l : Listed) : Prop :=
  ∃ a, Eth.Account.decode l.value = some a ∧
    a.storageRoot = Eth.root (l.slots.map fun e => (e.1.bytes, e.2))

theorem listed_rootExact {n : RamNode} (h : Shows stateKind [] n t)
    (hls : List.Forall₂ (Listed.Of t) ls (ramLeaves n).toList) {l : Listed} (hl : l ∈ ls)
    (hst : ∀ v, t.get (keyNibbles l.key) ≠ some (.raw v)) (hne : ∀ e ∈ l.slots, e.2 ≠ [])
    (hw : promotedAt n (keyNibbles l.key) = true → Wide l.slots) : l.RootExact := by
  obtain ⟨⟨k, out⟩, he, hof⟩ := Radix.exists_related hls hl
  obtain ⟨a, ha, hplace⟩ := ramLeaves_placing n h (Tree.mem_toList.mp he)
  obtain ⟨a', ha', -, hslots⟩ := hof.leaf
  cases ha.symm.trans ha'
  obtain rfl : keyNibbles l.key = k := hof.key
  cases a with
  | raw v => exact absurd ha (hst v)
  | account n b c s =>
    have hentries : Entries l.slots s.tree := by
      rw [hslots]
      exact .of_forall₂ (slots_forall₂ s)
    have hout : out = .account n b c (treeRoot s.tree) :=
      hplace.storageRoot fun hp => wideTree_of_get s.canon (hentries.wide (hw hp))
    refine ⟨⟨n, b, treeRoot s.tree, c⟩, ?_, (hentries.root s.canon hne).symm⟩
    rw [hof.value, hout]
    exact Eth.Account.decode_rlp _

/-! ## The root of a view -/

variable {env : Env} {σ : Sys} {n : RamNode} {ramMode direct : Bool} {faults : List Bool}

/-- Two listed keys part at once. -/
def Parted (ls : List Listed) : Prop :=
  ∃ l ∈ ls, ∃ l' ∈ ls, (keyNibbles l.key).head? ≠ (keyNibbles l'.key).head?

theorem canon_of_parted {n : RamNode} (h : Shows stateKind [] n t) {T : Tree 16 LeafOut}
    (hls : List.Forall₂ (Listed.Of t) ls T.toList) (hp : Parted ls) : Canon 64 t := by
  rcases h.canon with hc | ⟨ts, rfl, hq, hc⟩
  · exact hc
  · obtain ⟨l, hl, l', hl', hne⟩ := hp
    have hchild {l : Listed} (hl : l ∈ ls) :
        ∃ i, (keyNibbles l.key).head? = some i ∧ ts i ≠ .empty := by
      obtain ⟨e, -, hof⟩ := Radix.exists_related hls hl
      obtain ⟨a, ha, -, -⟩ := hof.leaf
      rw [← hof.key] at ha
      cases hk : keyNibbles l.key with
      | nil =>
        rw [hk] at ha
        cases ha
      | cons i r =>
        rw [hk] at ha
        exact ⟨i, rfl, Tree.ne_empty_of_get ha⟩
    obtain ⟨i, hi, hti⟩ := hchild hl
    obtain ⟨j, hj, htj⟩ := hchild hl'
    refine canon_branch hq hc ⟨i, j, fun hij => hne ?_, hti, htj⟩
    rw [hi, hj, hij]

omit [Keccak] in
theorem wide_accounts (h : ∀ l ∈ ls, (Eth.Account.decode l.value).isSome) :
    Wide (ls.map fun l => (l.key, l.value)) := by
  intro e he
  obtain ⟨l, hl, rfl⟩ := List.mem_map.mp he
  obtain ⟨a, ha⟩ := Option.isSome_iff_exists.mp (h l hl)
  exact .inl (length_of_decode ha)

/-- The root of a view whose leaves are wide. -/
theorem root_of_wide {s : Store} (ht : Shows stateKind [] (loaded s n) t)
    (hls : List.Forall₂ (Listed.Of t) ls (ramLeaves (loaded s n)).toList) (hp : Parted ls)
    (hw : Wide (ls.map fun l => (l.key, l.value))) (hne : ∀ l ∈ ls, l.value ≠ []) :
    hashRam n = Eth.root (ls.map fun l => (l.key.bytes, l.value)) := by
  have hentries := listed_entries hls
  have hcanon := canon_of_parted ht hls hp
  have hvalues := ((ramLeaves_alike surfaces_state _ ht).canon hcanon).map LeafOut.rlp
  have hwide := wideTree_of_get hvalues (hentries.wide hw)
  have hroot := hentries.root hvalues fun e he => by
    obtain ⟨l, hl, rfl⟩ := List.mem_map.mp he
    exact hne l hl
  rw [← hashRam_loaded s, hashRam_leaves hashes_state _ ht hcanon hwide, ← hroot, List.map_map]
  rfl

end

/-! ## Views with two accounts -/

/-- Two accounts below different top-level slots part at once. -/
theorem Sys.Observes.parted [Keccak] {σ : Sys} {l : Logical} (hobs : σ.Observes l) {ls : List Listed}
    (hls : Lists σ.store σ.db.upper ls) {k k' : Key} {a a' : Acct} (hk : l k = some a) (hk' : l k' = some a')
    (hne : (keyNibbles k).head? ≠ (keyNibbles k').head?) : Parted ls := by
  obtain ⟨x, hx, rfl⟩ := hobs.listed hls hk
  obtain ⟨y, hy, rfl⟩ := hobs.listed hls hk'
  exact ⟨x, hx, y, hy, hne⟩

/-- The two slots of the promoted account differ in their first nibbles. -/
theorem wide_twoSlots : Wide [(.fill 0x01, [1]), (.fill 0x02, [1])] := by
  intro e he
  refine .inr fun e' he' htake => ?_
  rcases List.mem_cons.mp he with rfl | he <;> rcases List.mem_cons.mp he' with rfl | he'
  · rfl
  · rw [List.mem_singleton.mp he'] at htake
    exact absurd htake (by decide)
  · rw [List.mem_singleton.mp he] at htake
    exact absurd htake (by decide)
  · rw [List.mem_singleton.mp he, List.mem_singleton.mp he']

end FlatMpt
