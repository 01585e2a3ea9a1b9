import FlatMpt.Lib.Listing
import FlatMpt.RecordState
import FlatMpt.Rlp

/-!
# The reference root as the hash of a tree

`encode_node` over the sorted entries of a map writes the map's canonical radix tree,
node by node, and `root` hashes it.

    treeRlp, treeRoot       -- the tree's nodes encoded, its root
    hashedStrings           -- the strings that `root` hashes
    encodeNodeAt_toList
    root_eq                 -- `root` of any writes, by their map
    finalize_toNode         -- a record node has the root of its tree
-/

namespace FlatMpt

open Radix (Tree commonPrefix prefixed Sorted)
open Radix.Tree (Canon)
open Eth (Entry encodeNodeAt commonPrefixLen bucket nodeRef encodeNode rawNibbles rlpString rlpList
  hexPrefix)

section
variable [Keccak]

/-! ## Trees -/

/-- The top node of a tree; `[]` for the empty tree. -/
def treeRlp : Tree 16 Bytes → Bytes
  | .empty => []
  | .leaf path value => leafRlp path value
  | .ext path child => extRlp path (mkRef (treeRlp child))
  | .branch children => branchRlp fun i =>
    if (children i).isEmpty then none else some (mkRef (treeRlp (children i)))

def treeRoot (t : Tree 16 Bytes) : Hash :=
  if t.isEmpty then keccak256 (rlpString []) else keccak256 (treeRlp t)

/-- A reference of 32 bytes or more is hashed. -/
def refHashes (rlp : Bytes) : List Bytes := if rlp.length < 32 then [] else [rlp]

/-- The strings hashed below the top node. -/
def treeHashed : Tree 16 Bytes → List Bytes
  | .empty => []
  | .leaf _ _ => []
  | .ext _ child => refHashes (treeRlp child) ++ treeHashed child
  | .branch children => (List.finRange 16).flatMap fun i =>
    if (children i).isEmpty then [] else refHashes (treeRlp (children i)) ++ treeHashed (children i)

/-- The strings that `encodeNodeAt` hashes. -/
def hashedNodes : Nat → List Entry → List Bytes
  | _, [] => []
  | _, [_] => []
  | 0, _ => []
  | depth + 1, entries =>
    let cp := commonPrefixLen entries
    if 0 < cp then
      let stripped := entries.map fun e => (e.1.drop cp, e.2)
      refHashes (encodeNodeAt depth stripped) ++ hashedNodes depth stripped
    else
      (List.finRange 16).flatMap fun i =>
        let b := bucket i entries
        if b.isEmpty then [] else refHashes (encodeNodeAt depth b) ++ hashedNodes depth b

theorem embed_mkRef (rlp : Bytes) : (mkRef rlp).embed = nodeRef rlp := by
  unfold mkRef nodeRef
  split <;> rfl

theorem finalize_mkRef (rlp : Bytes) : (mkRef rlp).finalize = keccak256 rlp := by
  unfold mkRef
  split <;> rfl

/-! ## Encoding a tree's entries -/

omit [Keccak] in
/-- The entries of a tree below one digit. -/
theorem bucket_toList (children : Nibble → Tree 16 Bytes) (i : Nibble) :
    bucket i (Tree.branch children).toList = (children i).toList := by
  have hmem : ∀ e l, e ∈ bucket i l ↔ (i :: e.1, e.2) ∈ l := by
    intro e l
    unfold bucket
    rw [List.mem_filterMap]
    constructor
    · rintro ⟨⟨k, v⟩, hm, he⟩
      cases k with
      | nil => cases he
      | cons n rest =>
        dsimp only at he
        split at he
        · rename_i hn
          cases he
          rw [← hn]
          exact hm
        · cases he
    · intro hm
      exact ⟨_, hm, if_pos rfl⟩
  refine Tree.eq_toList ?_ fun k a => ?_
  · refine List.pairwise_filterMap.mpr ((Radix.Tree.sorted_toList _).imp fun {a b} hlt x hx y hy => ?_)
    obtain ⟨ka, va⟩ := a
    obtain ⟨kb, vb⟩ := b
    cases ka with
    | nil => cases hx
    | cons n ka =>
      cases kb with
      | nil => cases hy
      | cons m kb =>
        dsimp only at hx hy hlt
        split at hx
        · rename_i hn
          split at hy
          · rename_i hm
            cases hx
            cases hy
            rw [hn, hm] at hlt
            exact (Radix.compare_append [i] ka kb).symm.trans hlt
          · cases hy
        · cases hx
  · rw [hmem, Tree.mem_toList, Tree.get_branch_cons]

/-- Two entries or more. -/
theorem encodeNodeAt_many (depth : Nat) (e1 e2 : Entry) (rest : List Entry) :
    encodeNodeAt (depth + 1) (e1 :: e2 :: rest) =
      (let entries := e1 :: e2 :: rest
      let cp := commonPrefixLen entries
      if 0 < cp then
        rlpList [rlpString (hexPrefix (e1.1.take cp) false),
          nodeRef (encodeNodeAt depth (entries.map fun e => (e.1.drop cp, e.2)))]
      else
        rlpList (((List.finRange 16).map fun i =>
          if (bucket i entries).isEmpty then rlpString []
          else nodeRef (encodeNodeAt depth (bucket i entries))) ++
          [match entries.find? (fun e => e.1.isEmpty) with
            | some e => rlpString e.2
            | none => rlpString []])) := rfl

theorem hashedNodes_many (depth : Nat) (e1 e2 : Entry) (rest : List Entry) :
    hashedNodes (depth + 1) (e1 :: e2 :: rest) =
      (let entries := e1 :: e2 :: rest
      let cp := commonPrefixLen entries
      if 0 < cp then
        refHashes (encodeNodeAt depth (entries.map fun e => (e.1.drop cp, e.2))) ++
          hashedNodes depth (entries.map fun e => (e.1.drop cp, e.2))
      else
        (List.finRange 16).flatMap fun i =>
          if (bucket i entries).isEmpty then []
          else refHashes (encodeNodeAt depth (bucket i entries)) ++
            hashedNodes depth (bucket i entries)) := rfl

omit [Keccak] in
/-- A branch has two entries or more, and its keys part at once. -/
theorem toList_branch {n : Nat} {children : Nibble → Tree 16 Bytes} (h : Canon n (.branch children))
    (p : List Nibble) : ∃ e1 e2 rest,
      (Tree.branch children).toList.map (prefixed p) = prefixed p e1 :: prefixed p e2 :: rest ∧
      commonPrefixLen (prefixed p e1 :: prefixed p e2 :: rest) = p.length := by
  obtain ⟨i, j, k, l, a, b, hij, hhead, hlast⟩ := Tree.ends_branch h
  cases hl : (Tree.branch children).toList with
  | nil =>
    rw [hl] at hhead
    cases hhead
  | cons e1 tail =>
    cases tail with
    | nil =>
      rw [hl] at hhead hlast
      cases hhead
      cases hlast
      exact absurd rfl hij
    | cons e2 rest =>
      refine ⟨e1, e2, rest.map (prefixed p), rfl, ?_⟩
      have hhead' : ((e1 :: e2 :: rest).map (prefixed p)).head? = some (prefixed p (i :: k, a)) := by
        rw [List.head?_map, ← hl, hhead]
        rfl
      have hlast' : ((e1 :: e2 :: rest).map (prefixed p)).getLast? = some (prefixed p (j :: l, b)) := by
        rw [List.getLast?_map, ← hl, hlast]
        rfl
      have hcp : commonPrefix (p ++ i :: k) (p ++ j :: l) = p.length := by
        rw [Radix.commonPrefix_append_append, commonPrefix, if_neg hij, Nat.add_zero]
      show commonPrefixLen ((e1 :: e2 :: rest).map (prefixed p)) = p.length
      unfold commonPrefixLen
      rw [hhead', hlast']
      exact hcp

omit [Keccak] in
theorem isEmpty_toList {n : Nat} {t : Tree 16 Bytes} (h : Canon n t) :
    t.toList.isEmpty = t.isEmpty := by
  cases t with
  | empty => rfl
  | leaf path a => rfl
  | ext path child =>
    exact List.isEmpty_eq_false_iff.mpr (Tree.toList_ne_nil h (by nofun))
  | branch children =>
    exact List.isEmpty_eq_false_iff.mpr (Tree.toList_ne_nil h (by nofun))

/-- The entries of a canonical tree are encoded as the tree. -/
theorem encodeNodeAt_toList {n : Nat} {t : Tree 16 Bytes} (h : Canon n t) {depth : Nat}
    (hd : n < depth) :
    encodeNodeAt depth t.toList = treeRlp t ∧ hashedNodes depth t.toList = treeHashed t := by
  induction h generalizing depth with
  | empty => cases depth <;> exact ⟨rfl, rfl⟩
  | leaf hp => cases depth <;> exact ⟨rfl, rfl⟩
  | @ext n m path child hp hn hb hc ih =>
    obtain ⟨children⟩ := hb
    obtain ⟨e1, e2, rest, hl, hcp⟩ := toList_branch hc path
    have hpos : 0 < path.length := List.length_pos_iff.mpr hp
    cases depth with
    | zero => cases hd
    | succ depth =>
      obtain ⟨ih1, ih2⟩ := @ih depth (by omega)
      have hstrip : (prefixed path e1 :: prefixed path e2 :: rest).map
          (fun e => (e.1.drop path.length, e.2)) = (Tree.branch children).toList := by
        rw [← hl, List.map_map]
        refine (List.map_congr_left fun e _ => ?_).trans (List.map_id _)
        exact Prod.ext (List.drop_left) rfl
      have htake : (prefixed path e1).1.take path.length = path := List.take_left
      rw [Tree.toList, hl, encodeNodeAt_many, hashedNodes_many]
      dsimp only
      rw [hcp, if_pos hpos, if_pos hpos, hstrip, htake, ih1, ih2, ← embed_mkRef]
      exact ⟨rfl, rfl⟩
  | @branch n m children hn hc h2 ih =>
    obtain ⟨e1, e2, rest, hl, hcp⟩ := toList_branch (.branch hn hc h2) []
    have hid : (Tree.branch children).toList.map (prefixed []) = (Tree.branch children).toList :=
      List.map_id _
    rw [hid] at hl
    have hbucket : ∀ i, bucket i (prefixed [] e1 :: prefixed [] e2 :: rest) = (children i).toList := by
      intro i
      rw [← hl, bucket_toList]
    have hfind : (prefixed [] e1 :: prefixed [] e2 :: rest).find? (fun e => e.1.isEmpty) = none := by
      rw [← hl, List.find?_eq_none]
      rintro ⟨k, a⟩ hm hk
      obtain rfl : k = [] := List.isEmpty_iff.mp hk
      cases Tree.mem_toList.mp hm
    cases depth with
    | zero => cases hd
    | succ depth =>
      have ih' := fun i => @ih i depth (by omega)
      rw [hl, encodeNodeAt_many, hashedNodes_many]
      have hcp0 : ¬ 0 < ([] : List Nibble).length := Nat.not_lt_zero 0
      dsimp only
      rw [hcp, if_neg hcp0, if_neg hcp0, hfind]
      simp only [hbucket, isEmpty_toList (hc _), (ih' _).1, (ih' _).2]
      refine ⟨?_, rfl⟩
      rw [treeRlp, branchRlp]
      congr 2
      refine List.map_congr_left fun i _ => ?_
      by_cases hi : (children i).isEmpty = true
      · rw [if_pos hi, if_pos hi]
      · rw [if_neg hi, if_neg hi]
        exact (embed_mkRef _).symm

/-! ## The root of writes -/

omit [Keccak] in
theorem foldr_max {l : List Entry} {n : Nat} (hne : l ≠ []) (h : ∀ e ∈ l, e.1.length = n) :
    (l.map fun e => e.1.length).foldr max 0 = n := by
  induction l with
  | nil => exact absurd rfl hne
  | cons e l ih =>
    rw [List.map_cons, List.foldr_cons, h e List.mem_cons_self]
    cases l with
    | nil => exact Nat.max_zero n
    | cons e' l =>
      rw [ih (List.cons_ne_nil _ _) fun x hx => h x (List.mem_cons_of_mem _ hx), Nat.max_self]

theorem encodeNode_toList {n : Nat} {t : Tree 16 Bytes} (h : Canon n t) (ht : t ≠ .empty) :
    encodeNode t.toList = treeRlp t := by
  have hlen : (t.toList.map fun e => e.1.length).foldr max 0 = n :=
    foldr_max (Tree.toList_ne_nil h ht) fun e he => h.get_length (Tree.mem_toList.mp he)
  unfold encodeNode
  rw [hlen]
  exact (encodeNodeAt_toList h (Nat.lt_succ_self n)).1

omit [Keccak] in
/-- The map after these writes: last write wins, an empty value is absent. -/
def written (entries : List (Bytes × Bytes)) : List Nibble → Option Bytes :=
  entries.foldl (fun m e =>
    Function.update m (rawNibbles e.1) (if e.2.isEmpty then none else some e.2)) fun _ => none

/-- The sorted map that `root` builds. -/
def writtenMap (entries : List (Bytes × Bytes)) : Std.TreeMap (List Nibble) Bytes compare :=
  entries.foldl (fun m e =>
    if e.2.isEmpty then m.erase (rawNibbles e.1) else m.insert (rawNibbles e.1) e.2) ∅

omit [Keccak] in
theorem getElem_writtenMap (entries : List (Bytes × Bytes)) (k : List Nibble) :
    (writtenMap entries)[k]? = written entries k := by
  have hstep : ∀ (m : Std.TreeMap (List Nibble) Bytes compare) (f : List Nibble → Option Bytes),
      (∀ k, m[k]? = f k) → ∀ k, (entries.foldl (fun m e =>
        if e.2.isEmpty then m.erase (rawNibbles e.1) else m.insert (rawNibbles e.1) e.2) m)[k]? =
      entries.foldl (fun m e =>
        Function.update m (rawNibbles e.1) (if e.2.isEmpty then none else some e.2)) f k := by
    induction entries with
    | nil => exact fun m f h => h
    | cons e entries ih =>
      intro m f h
      refine ih _ _ fun k => ?_
      dsimp only
      by_cases hk : k = rawNibbles e.1
      · rw [hk, Function.update_self]
        split
        · rw [Std.TreeMap.getElem?_erase, if_pos Std.ReflOrd.compare_self]
        · rw [Std.TreeMap.getElem?_insert, if_pos Std.ReflOrd.compare_self]
      · have hne : compare (rawNibbles e.1) k ≠ .eq := fun he =>
          hk (Std.LawfulEqCmp.eq_of_compare he).symm
        rw [Function.update_of_ne hk, ← h k]
        split
        · rw [Std.TreeMap.getElem?_erase, if_neg hne]
        · rw [Std.TreeMap.getElem?_insert, if_neg hne]
  exact hstep ∅ _ (fun k => Std.TreeMap.getElem?_emptyc) k

omit [Keccak] in
theorem written_length {entries : List (Bytes × Bytes)} (h : ∀ e ∈ entries, e.1.length = 32) :
    ∀ {k : List Nibble}, written entries k ≠ none → k.length = 64 := by
  have hstep : ∀ f : List Nibble → Option Bytes, (∀ k, f k ≠ none → k.length = 64) →
      ∀ k, entries.foldl (fun m e =>
        Function.update m (rawNibbles e.1) (if e.2.isEmpty then none else some e.2)) f k ≠ none →
      k.length = 64 := by
    induction entries with
    | nil => exact fun f hf => hf
    | cons e entries ih =>
      intro f hf
      refine ih (fun e he => h e (List.mem_cons_of_mem _ he)) _ fun k hk => ?_
      dsimp only at hk
      by_cases hke : k = rawNibbles e.1
      · have hlen : e.1.length = 32 := h e List.mem_cons_self
        rw [hke]
        exact keyNibbles_length ⟨e.1, hlen⟩
      · rw [Function.update_of_ne hke] at hk
        exact hf k hk
  exact fun {k} hk => hstep _ (fun k hk => absurd rfl hk) k hk

/-- The canonical tree of these writes to 32-byte keys. -/
def writtenTree (entries : List (Bytes × Bytes)) : Tree 16 Bytes := Tree.build 64 (written entries)

omit [Keccak] in
theorem canon_writtenTree (entries : List (Bytes × Bytes)) : Canon 64 (writtenTree entries) :=
  Tree.canon_build _ _

omit [Keccak] in
theorem get_writtenTree {entries : List (Bytes × Bytes)} (h : ∀ e ∈ entries, e.1.length = 32)
    (k : List Nibble) : (writtenTree entries).get k = written entries k := by
  by_cases hk : k.length = 64
  · exact Tree.get_build hk
  · rw [(canon_writtenTree entries).get_eq_none hk]
    by_contra hne
    exact hk (written_length h (Ne.symm hne))

omit [Keccak] in
theorem toList_writtenMap {entries : List (Bytes × Bytes)} (h : ∀ e ∈ entries, e.1.length = 32) :
    (writtenMap entries).toList = (writtenTree entries).toList :=
  Tree.eq_toList Std.TreeMap.ordered_keys_toList fun k a => by
    rw [Std.TreeMap.mem_toList_iff_getElem?_eq_some, getElem_writtenMap, get_writtenTree h]

/-- **The reference root hashes the tree of the map.** -/
theorem root_eq {entries : List (Bytes × Bytes)} (h : ∀ e ∈ entries, e.1.length = 32) :
    Eth.root entries = treeRoot (writtenTree entries) := by
  have hcanon := canon_writtenTree entries
  have hempty : (writtenMap entries).isEmpty = (writtenTree entries).isEmpty := by
    rw [← Std.TreeMap.isEmpty_toList, toList_writtenMap h, isEmpty_toList hcanon]
  show (if (writtenMap entries).isEmpty then keccak256 [0x80]
    else keccak256 (encodeNode (writtenMap entries).toList)) = _
  unfold treeRoot
  rw [hempty, toList_writtenMap h]
  split
  · rfl
  · rename_i hne
    rw [encodeNode_toList hcanon fun he => hne (by rw [he]; rfl)]

/-- The strings that `root` hashes. -/
def hashedStrings (entries : List (Bytes × Bytes)) : List Bytes :=
  let map := writtenMap entries
  if map.isEmpty then [[0x80]]
  else encodeNode map.toList ::
    hashedNodes ((map.toList.map fun e => e.1.length).foldr max 0 + 1) map.toList

theorem hashedStrings_eq {entries : List (Bytes × Bytes)} (h : ∀ e ∈ entries, e.1.length = 32) :
    hashedStrings entries = if (writtenTree entries).isEmpty then [rlpString []]
      else treeRlp (writtenTree entries) :: treeHashed (writtenTree entries) := by
  have hcanon := canon_writtenTree entries
  have hempty : (writtenMap entries).isEmpty = (writtenTree entries).isEmpty := by
    rw [← Std.TreeMap.isEmpty_toList, toList_writtenMap h, isEmpty_toList hcanon]
  unfold hashedStrings
  dsimp only
  rw [hempty, toList_writtenMap h]
  split
  · rfl
  · rename_i hne
    have ht : writtenTree entries ≠ .empty := fun he => hne (by rw [he]; rfl)
    rw [encodeNode_toList hcanon ht, foldr_max (Tree.toList_ne_nil hcanon ht)
      fun e he => hcanon.get_length (Tree.mem_toList.mp he)]
    exact congrArg _ (encodeNodeAt_toList hcanon (Nat.lt_succ_self 64)).2

/-! ## Record nodes -/

/-- The reference of a tree's record node. -/
theorem hashNode_toNode {n : Nat} {t : Tree 16 Bytes} (h : Canon n t) (ht : t ≠ .empty) :
    hashNode (toNode valueLeaf t) = mkRef (treeRlp t) := by
  induction h with
  | empty => exact absurd rfl ht
  | leaf hp => rfl
  | @ext n m path child hp hn hb hc ih =>
    obtain ⟨children⟩ := hb
    show extRef path (hashNode (toNode valueLeaf (.branch children))) = _
    rw [ih (by nofun)]
    rfl
  | @branch n m children hn hc h2 ih =>
    show branchRef (fun i => (asChild (toNode valueLeaf (children i))).map hashNode) = _
    rw [branchRef, treeRlp]
    congr 2
    funext i
    by_cases hi : children i = .empty
    · rw [hi]
      rfl
    · rw [asChild_toNode valueLeaf hi, if_neg fun he => hi (Tree.isEmpty_iff.mp he)]
      exact congrArg some (ih i hi)

/-- A record node has the root of its tree. -/
theorem finalize_toNode {n : Nat} {t : Tree 16 Bytes} (h : Canon n t) :
    (hashNode (toNode valueLeaf t)).finalize = treeRoot t := by
  unfold treeRoot
  by_cases ht : t = .empty
  · rw [ht]
    rfl
  · rw [hashNode_toNode h ht, finalize_mkRef, if_neg fun he => ht (Tree.isEmpty_iff.mp he)]

end

end FlatMpt
