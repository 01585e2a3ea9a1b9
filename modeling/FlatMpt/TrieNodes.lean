import FlatMpt.TrieWalks
import FlatMpt.SlotWalks
import FlatMpt.Roots

/-!
# Branches in order

In a regular run the trie cursors list the positions at which the keys that the reads find
part, a position before those below it.  An entry says of each child what the reference
trie has there: whether it is there, whether it branches further, and its hash.

    branchEntry                -- the entry that the reference has at a position
    ramBranches_values
    trie_nodes_enumerated
-/

namespace FlatMpt

open Prog
open Radix (Tree prefixed atLeast strip PartAt)
open Radix.Tree (Canon)
open Ordered (Ascending firstFrom Drains Seeks)

/-! ## What the reference has -/

/-- Entries under the nibbles of their keys. -/
def nibbled (es : List (Key × Bytes)) : List Eth.Entry := es.map fun e => (keyNibbles e.1, e.2)

/-- A single entry whose key is marked. -/
def loneMarked (marked : List Nibble → Bool) : List Eth.Entry → Bool
  | [(rest, _)] => marked rest
  | _ => false

section
variable [Keccak]

/-- A child that is referred to by its hash and is no promoted account. -/
def childHashed (marked : List Nibble → Bool) (below : List Eth.Entry) : Bool :=
  !below.isEmpty && decide (32 ≤ (Eth.encodeNode below).length) && !loneMarked marked below

/-- The branch at a position, from the entries of the trie. -/
def branchEntry (es : List Eth.Entry) (promoted : List Nibble → Bool) (path : List Nibble) :
    TrieNodeEntry :=
  let below (i : Nibble) := strip (path ++ [i]) es
  let hashed (i : Nibble) := childHashed (fun rest => promoted (path ++ i :: rest)) (below i)
  { path := path
    stateMask := bitmap fun i => !(below i).isEmpty
    treeMask := bitmap fun i => decide (2 ≤ (below i).length)
    hashMask := bitmap hashed
    hashes := ((List.finRange 16).filter hashed).map fun i => keccak256 (Eth.encodeNode (below i)) }

end

/-! ## Entries noted child by child -/

theorem foldl_addChild (infos : Nibble → Option ChildInfo) (is : List Nibble) (e : TrieNodeEntry) :
    is.foldl (fun e i => e.addChild i (infos i)) e =
      { path := e.path
        stateMask := is.foldl (fun b i => if (infos i).isSome then b ||| 1 <<< i.val else b) e.stateMask
        treeMask := is.foldl (fun b i => if (infos i).any ChildInfo.hasBranchBelow then b ||| 1 <<< i.val
          else b) e.treeMask
        hashMask := is.foldl (fun b i => if ((infos i).bind ChildInfo.hash).isSome then b ||| 1 <<< i.val
          else b) e.hashMask
        hashes := e.hashes ++ is.filterMap fun i => (infos i).bind ChildInfo.hash } := by
  induction is generalizing e with
  | nil => rw [List.foldl_nil, List.filterMap_nil, List.append_nil]; rfl
  | cons i is ih =>
    simp only [List.foldl_cons, ih, List.filterMap_cons]
    cases infos i with
    | none => rfl
    | some info =>
      obtain ⟨hash, below⟩ := info
      cases hash with
      | none => simp [TrieNodeEntry.addChild, TrieNodeEntry.add]
      | some h => simp [TrieNodeEntry.addChild, TrieNodeEntry.add]

theorem entryOf_eq (path : List Nibble) (infos : Nibble → Option ChildInfo) :
    entryOf path infos =
      { path := path
        stateMask := bitmap fun i => (infos i).isSome
        treeMask := bitmap fun i => (infos i).any ChildInfo.hasBranchBelow
        hashMask := bitmap fun i => ((infos i).bind ChildInfo.hash).isSome
        hashes := (List.finRange 16).filterMap fun i => (infos i).bind ChildInfo.hash } :=
  foldl_addChild infos _ _

/-! ## Children as trees of values -/

section
variable [Keccak] {α : Type} {K : Kind α} {s : Store}

/-- A marked leaf. -/
def markedLeaf (marked : List Nibble → Bool) : Tree 16 Bytes → Bool
  | .leaf rest _ => marked rest
  | _ => false

/-- What a child is, from its values. -/
def infoOf (marked : List Nibble → Bool) (u : Tree 16 Bytes) : Option ChildInfo :=
  if u.isEmpty then none
  else some ⟨if markedLeaf marked u then none else (mkRef (treeRlp u)).hash?, !u.branches.isEmpty⟩

/-- A branch walked over, and the branch of the tree of values. -/
def BranchingOf (marked : List Nibble → Bool) (e : Branching) (x : List Nibble × (Nibble → Tree 16 Bytes)) :
    Prop :=
  e.1 = x.1 ∧ ∀ i, e.2 i = infoOf (fun rest => marked (x.1 ++ i :: rest)) (x.2 i)

omit [Keccak] in
theorem loneMarked_toList {n : Nat} {u : Tree 16 Bytes} (h : Canon n u) (marked : List Nibble → Bool) :
    loneMarked marked u.toList = markedLeaf marked u := by
  have hmany {l : List Eth.Entry} (hl : 2 ≤ l.length) : loneMarked marked l = false := by
    match l with
    | [] => rfl
    | [_] => exact absurd hl (by simp)
    | _ :: _ :: _ => rfl
  cases h with
  | empty => rfl
  | leaf hp => rfl
  | ext hp hn hb hc =>
    obtain ⟨cs⟩ := hb
    exact hmany ((Tree.branches_ne_nil_iff (.ext hp hn ⟨cs⟩ hc)).mp (by simp [Tree.branches]))
  | branch hn hc h2 =>
    exact hmany ((Tree.branches_ne_nil_iff (.branch hn hc h2)).mp (by simp [Tree.branches]))

section
variable {n : Nat} {u : Tree 16 Bytes}

theorem infoOf_isSome (h : Canon n u) (marked : List Nibble → Bool) :
    (infoOf marked u).isSome = !u.toList.isEmpty := by
  rw [isEmpty_toList h]
  unfold infoOf
  cases u.isEmpty <;> rfl

theorem infoOf_below (h : Canon n u) (marked : List Nibble → Bool) :
    (infoOf marked u).any ChildInfo.hasBranchBelow = decide (2 ≤ u.toList.length) := by
  rw [Bool.eq_iff_iff, decide_eq_true_iff, ← Tree.branches_ne_nil_iff h]
  unfold infoOf
  split
  next he =>
    rw [Tree.isEmpty_iff.mp he]
    exact ⟨(fun h => by cases h), fun h => absurd rfl h⟩
  next => simp

theorem infoOf_hash (h : Canon n u) (marked : List Nibble → Bool) : (infoOf marked u).bind ChildInfo.hash =
    if childHashed marked u.toList then some (keccak256 (Eth.encodeNode u.toList)) else none := by
  unfold infoOf childHashed
  rw [isEmpty_toList h, loneMarked_toList h]
  by_cases he : u.isEmpty = true
  · rw [if_pos he, he]
    rfl
  · have hne : u ≠ .empty := fun h => he (Tree.isEmpty_iff.mpr h)
    rw [if_neg he, Bool.eq_false_of_not_eq_true he, encodeNode_toList h hne]
    unfold mkRef
    cases markedLeaf marked u with
    | true => simp
    | false =>
      by_cases hlen : (treeRlp u).length < 32
      · simp [hlen, NodeRef.hash?]
      · simp [hlen, NodeRef.hash?, Nat.not_lt.mp hlen]

end

/-- The entry of a branch, whose children are known by their trees. -/
theorem entryOf_values {V : Tree 16 Bytes} {path : List Nibble} {cs : Nibble → Tree 16 Bytes}
    {infos : Nibble → Option ChildInfo} {marked : List Nibble → Bool} (hmem : (path, cs) ∈ V.branches)
    (hc : ∀ i, ∃ m, Canon m (cs i))
    (hof : ∀ i, infos i = infoOf (fun rest => marked (path ++ i :: rest)) (cs i)) :
    entryOf path infos = branchEntry V.toList marked path := by
  rw [entryOf_eq]
  unfold branchEntry
  have hstate (i : Nibble) : (infos i).isSome = !(strip (path ++ [i]) V.toList).isEmpty := by
    obtain ⟨m, hm⟩ := hc i
    rw [hof i, infoOf_isSome hm, Tree.strip_branches hmem]
  have htree (i : Nibble) : (infos i).any ChildInfo.hasBranchBelow =
      decide (2 ≤ (strip (path ++ [i]) V.toList).length) := by
    obtain ⟨m, hm⟩ := hc i
    rw [hof i, infoOf_below hm, Tree.strip_branches hmem]
  have hhash (i : Nibble) : (infos i).bind ChildInfo.hash =
      if childHashed (fun rest => marked (path ++ i :: rest)) (strip (path ++ [i]) V.toList) then
        some (keccak256 (Eth.encodeNode (strip (path ++ [i]) V.toList))) else none := by
    obtain ⟨m, hm⟩ := hc i
    rw [hof i, infoOf_hash hm, Tree.strip_branches hmem]
  simp only [hstate, htree, hhash]
  congr 1
  · refine congrArg bitmap (funext fun i => ?_)
    split
    next h => exact h.symm
    next h => exact (Bool.eq_false_of_not_eq_true h).symm
  · rw [← List.filterMap_eq_filter, List.map_filterMap]
    refine List.filterMap_congr fun i _ => ?_
    unfold Option.guard
    split <;> rfl

/-! ## Records and frontiers -/

omit [Keccak] in
theorem forall₂_prefixed {marked marked' : List Nibble → Bool} {l : List Branching}
    {m : List (List Nibble × (Nibble → Tree 16 Bytes))} [Keccak] (p : List Nibble)
    (hm : ∀ k, marked (p ++ k) = marked' k) (h : List.Forall₂ (BranchingOf marked') l m) :
    List.Forall₂ (BranchingOf marked) (l.map (prefixed p)) (m.map (prefixed p)) := by
  rw [List.forall₂_map_left_iff, List.forall₂_map_right_iff]
  refine h.imp fun e x hex => ⟨congrArg (p ++ ·) hex.1, fun i => ?_⟩
  unfold prefixed
  simp only [List.append_assoc, hm]
  exact hex.2 i

/-- A branch and what is below it. -/
theorem forall₂_branch {marked : List Nibble → Bool} {infos : Nibble → Option ChildInfo}
    {cs : Nibble → Tree 16 Bytes} {below : Nibble → List Branching}
    (hinfos : ∀ i, infos i = infoOf (fun rest => marked (i :: rest)) (cs i))
    (h : ∀ i, List.Forall₂ (BranchingOf fun k => marked (i :: k)) (below i) (cs i).branches) :
    List.Forall₂ (BranchingOf marked)
      (([], infos) :: (List.finRange 16).flatMap fun i => (below i).map (prefixed [i]))
      (Tree.branch cs).branches := by
  refine .cons ⟨rfl, hinfos⟩ ?_
  induction List.finRange 16 with
  | nil => exact .nil
  | cons i is ih =>
    rw [List.flatMap_cons, List.flatMap_cons]
    exact List.rel_append (forall₂_prefixed [i] (fun _ => rfl) (h i)) ih

omit [Keccak] in
/-- A branch is not empty. -/
theorem or_isBranch (n : Node) : (!((nodeLeaves n).map LeafOut.rlp).branches.isEmpty || n.isBranch) =
    !((nodeLeaves n).map LeafOut.rlp).branches.isEmpty := by
  cases n with
  | branch children nref => rfl
  | _ => exact Bool.or_false _

omit [Keccak] in
theorem classifyNode_below (n : Node) :
    (classifyNode n).hasBranchBelow = !((nodeLeaves n).map LeafOut.rlp).branches.isEmpty := by
  induction n using Node.induct with
  | hempty => rfl
  | hleaf path value nref => rfl
  | hext path child nref ih =>
    have hbranches : ((nodeLeaves (.extension path child nref)).map LeafOut.rlp).branches =
        ((nodeLeaves child).map LeafOut.rlp).branches.map (prefixed path) := rfl
    rw [classifyNode, ih, hbranches, List.isEmpty_map]
    exact or_isBranch child
  | hbranch children nref ih => rfl
  | hacct path nonce balance codeHash storage storageRoot nref ih => rfl

theorem classifyNode_hash {n : Node} (h : n ≠ .empty) : (classifyNode n).hash = (hashNode n).hash? := by
  cases n with
  | empty => exact absurd rfl h
  | _ => rfl

/-- A child in a record. -/
theorem classify_values (hK : K.Hashes) {n : Nat} {t : Tree 16 α} (h : Canon n t)
    (marked : List Nibble → Bool) (hm : ∀ k, marked k = false) :
    (asChild (toNode K.form t)).map classifyNode = infoOf marked (recordValues K t) := by
  unfold infoOf
  rw [isEmpty_recordValues hK]
  by_cases ht : t = .empty
  · subst ht
    rfl
  · rw [if_neg fun he => ht (Tree.isEmpty_iff.mp he), asChild_toNode K.form ht, Option.map_some]
    have hlone : markedLeaf marked (recordValues K t) = false := by
      unfold markedLeaf
      split
      · exact hm _
      · rfl
    rw [hlone, if_neg Bool.false_ne_true, ← hashNode_leaves hK h ht,
      ← classifyNode_hash (toNode_ne_empty K.form ht),
      ← classifyNode_below]

/-- **The branches of a record** are those of its values. -/
theorem nodeBranches_values (hK : K.Hashes) {n : Nat} {t : Tree 16 α} (h : Canon n t)
    {marked : List Nibble → Bool} (hm : ∀ k, marked k = false) :
    List.Forall₂ (BranchingOf marked) (nodeBranches (toNode K.form t)) (recordValues K t).branches := by
  induction h generalizing marked with
  | empty => exact .nil
  | @leaf n path a hp =>
    obtain ⟨out, hout, -⟩ := hK path a
    have hnil : nodeBranches (K.form.node path a) = [] := by
      cases hn : K.form.node path a with
      | leaf _ _ _ => rfl
      | account _ _ _ _ _ _ _ => rfl
      | empty => rfl
      | _ =>
        rw [hn] at hout
        cases hout
    unfold recordValues
    rw [toNode, hnil, hout]
    exact .nil
  | ext hp hn hb hc ih =>
    exact forall₂_prefixed _ (fun k => hm _) (ih (fun _ => rfl : ∀ k, (fun _ => false) k = false))
  | @branch n m children hn hc h2 ih =>
    have hvalues (i : Nibble) : (nodeSlotLeaves (asChild (toNode K.form (children i)))).map LeafOut.rlp =
        recordValues K (children i) := by rw [nodeSlotLeaves_asChild]
    have hslot (i : Nibble) : nodeSlotBranches (asChild (toNode K.form (children i))) =
        nodeBranches (toNode K.form (children i)) := by cases toNode K.form (children i) <;> rfl
    refine forall₂_branch (fun i => ?_) fun i => ?_
    · rw [hvalues]
      exact classify_values hK (hc i) _ fun _ => hm _
    · rw [hvalues, hslot]
      exact ih i fun _ => hm _

/-- A record of a slot. -/
theorem recordInfo_values (hK : K.Hashes) {q : List Nibble} {t : Tree 16 α} {bytes : Bytes} {root : Hash}
    (h : Recorded K q t bytes root) (hw : WideTree ((recordLeaves bytes).map LeafOut.rlp)) :
    some (recordInfo bytes root) = infoOf (fun _ => false) ((recordLeaves bytes).map LeafOut.rlp) := by
  rw [recordLeaves_eq h] at hw ⊢
  have hcanon := ((nodeLeaves_toNode hK.surfaces.record t).canon h.canon).map LeafOut.rlp
  have hne : ¬ (recordValues K t).isEmpty = true := fun he =>
    h.ne_empty (Tree.isEmpty_iff.mp ((isEmpty_recordValues hK t).symm.trans he))
  have hlone : markedLeaf (fun _ => false) (recordValues K t) = false := by
    unfold markedLeaf
    split <;> rfl
  unfold infoOf
  rw [if_neg hne, hlone, if_neg Bool.false_ne_true, recordInfo_eq h, classifyRecord, classifyNode_below,
    or_isBranch, mkRef_wide hcanon hw fun he => hne (Tree.isEmpty_iff.mpr he), h.root_eq,
    hashNode_leaves hK h.canon h.ne_empty, finalize_mkRef,
    treeRoot_ne fun he => hne (Tree.isEmpty_iff.mpr he)]
  rfl

theorem isInner_values {q : List Nibble} {n : RamNode} {t : Tree 16 α} (h : Shows K q n t) :
    n.isInner = !((ramLeaves n).map LeafOut.rlp).branches.isEmpty := by
  cases h with
  | empty => rfl
  | extension hp hb hc h hh =>
    obtain ⟨ts⟩ := hb
    cases h with
    | branch hq h hh => rfl
  | branch hq h hh => rfl

/-- A child of a frontier branch. -/
theorem slotInfo_values (hK : K.Hashes) (slot : RamSlot) {q : List Nibble} {t : Tree 16 α}
    (h : ShowsSlot K q slot t) (hw : WideTree ((slotLeaves slot).map LeafOut.rlp)) :
    slotInfo slot = infoOf (slotPromotedAt slot) ((slotLeaves slot).map LeafOut.rlp) := by
  cases slot with
  | none => rfl
  | disk ptr root =>
    cases h with
    | disk h => exact recordInfo_values hK h hw
  | mem bytes root =>
    cases h with
    | mem h => exact recordInfo_values hK h hw
  | account path nonce balance codeHash storage =>
    have hlone : markedLeaf (slotPromotedAt (.account path nonce balance codeHash storage))
        ((slotLeaves (.account path nonce balance codeHash storage)).map LeafOut.rlp) = true :=
      decide_eq_true rfl
    unfold infoOf
    rw [hlone]
    rfl
  | ram n =>
    cases h with
    | ram hc ht h =>
      have halike := ramLeaves_alike hK.surfaces n h
      have hcanon := (halike.canon hc).map LeafOut.rlp
      have hempty : ((ramLeaves n).map LeafOut.rlp).isEmpty = false := by
        rw [Tree.isEmpty_map, ← halike.isEmpty]
        exact Bool.eq_false_of_not_eq_true fun he => ht (Tree.isEmpty_iff.mp he)
      have hne : (ramLeaves n).map LeafOut.rlp ≠ .empty := fun he => by
        rw [he] at hempty
        cases hempty
      have hlone : markedLeaf (slotPromotedAt (.ram n)) ((ramLeaves n).map LeafOut.rlp) = false := by
        cases h with
        | empty => rfl
        | extension hp hb hc h hh => rfl
        | branch hq h hh => rfl
      unfold infoOf
      rw [slotLeaves, hempty, if_neg Bool.false_ne_true, hlone, if_neg Bool.false_ne_true,
        mkRef_wide hcanon hw hne, ← isInner_values h, slotInfo, hashRam_leaves hK n h hc hw]
      rfl

mutual

/-- **The branches of a frontier** are those of its values, when these are wide. -/
theorem ramBranches_values (hK : K.Hashes) (n : RamNode) {q : List Nibble} {t : Tree 16 α}
    (h : Shows K q n t) (hw : WideTree ((ramLeaves n).map LeafOut.rlp)) :
    List.Forall₂ (BranchingOf (promotedAt n)) (ramBranches n)
      ((ramLeaves n).map LeafOut.rlp).branches := by
  match n with
  | .empty => exact .nil
  | .extension path child hash =>
    cases h with
    | extension hp hb hc h hh =>
      refine forall₂_prefixed path (fun k => ?_) (ramBranches_values hK child h hw)
      rw [promotedAt, List.drop_left, List.isPrefixOf_iff_prefix.mpr (List.prefix_append path k),
        Bool.true_and]
  | .branch slots hash =>
    cases h with
    | branch hq h hh =>
      exact forall₂_branch (fun i => slotInfo_values hK (slots i) (h i) (hw i)) fun i =>
        slotBranches_values hK (slots i) (h i) (hw i)

theorem slotBranches_values (hK : K.Hashes) (slot : RamSlot) {q : List Nibble} {t : Tree 16 α}
    (h : ShowsSlot K q slot t) (hw : WideTree ((slotLeaves slot).map LeafOut.rlp)) :
    List.Forall₂ (BranchingOf (slotPromotedAt slot)) (slotBranches slot)
      ((slotLeaves slot).map LeafOut.rlp).branches := by
  have hrecord {bytes : Bytes} {root : Hash} (h : Recorded K q t bytes root) :
      List.Forall₂ (BranchingOf fun _ => false) (recordBranches bytes)
        ((recordLeaves bytes).map LeafOut.rlp).branches := by
    rw [recordBranches_eq h, recordLeaves_eq h]
    exact nodeBranches_values hK h.canon fun _ => rfl
  match slot with
  | .none => exact .nil
  | .ram n =>
    cases h with
    | ram hc ht h => exact ramBranches_values hK n h hw
  | .disk ptr root =>
    cases h with
    | disk h => exact hrecord h
  | .account path nonce balance codeHash storage => exact .nil
  | .mem bytes root =>
    cases h with
    | mem h => exact hrecord h

end

end

/-! ## Positions in order -/

/-- The next position: a first child. -/
theorem position_successor : Ordered.Successor fun p : List Nibble => some (p ++ [0]) where
  some := by
    rintro p _ ⟨⟩ q
    induction p generalizing q with
    | nil =>
      cases q with
      | nil => exact ⟨(fun h => by cases h), (fun h => by cases h)⟩
      | cons i q =>
        rw [List.nil_append, List.compare_cons_cons]
        refine ⟨fun _ => rfl, fun _ => ?_⟩
        rcases (Fin.zero_le i).lt_or_eq with hlt | rfl
        · rw [show compare (0 : Nibble) i = .lt from compare_lt_iff_lt.mpr hlt]
          rfl
        · cases q <;> rfl
    | cons j p ih =>
      cases q with
      | nil => exact ⟨(fun h => by cases h), (fun h => by cases h)⟩
      | cons i q =>
        rw [List.cons_append, List.compare_cons_cons, List.compare_cons_cons]
        cases compare j i with
        | lt => exact ⟨fun _ => rfl, fun _ => rfl⟩
        | gt => exact ⟨(fun h => by cases h), (fun h => by cases h)⟩
        | eq => exact ih q
  none := fun h => by cases h

theorem nil_le_position (p : List Nibble) : (compare [] p).isLE := by
  cases p <;> rfl

/-- The positions that a seek looks at. -/
theorem sought_eq (path p : List Nibble) :
    (!p.isEmpty && (compare path p).isLE) = lexGe p (trieTarget path) := by
  rw [lexGe_eq]
  unfold trieTarget
  cases path with
  | nil =>
    cases p with
    | nil => rfl
    | cons i p =>
      have hfirst : (compare [0] (i :: p)).isLE := (position_successor.some (k := []) rfl (i :: p)).mpr rfl
      show (compare [] (i :: p)).isLE = (compare [0] (i :: p)).isLE
      rw [hfirst, nil_le_position]
  | cons j path =>
    cases p with
    | nil => rfl
    | cons i p => rfl

/-- The positions of the branches below the root. -/
def positions (V : Tree 16 Bytes) : List (List Nibble) :=
  (V.branches.map Prod.fst).filter fun p => !p.isEmpty

/-- A tree that is canonical but for a top branch. -/
def CanonBelow (V : Tree 16 Bytes) : Prop :=
  (∃ m, Canon m V) ∨ ∃ ts, V = .branch ts ∧ ∀ i, ∃ m, Canon m (ts i)

section
variable {V : Tree 16 Bytes} {p : List Nibble} {cs : Nibble → Tree 16 Bytes}

theorem positions_ascending (V : Tree 16 Bytes) : Ascending id (positions V) := by
  refine List.Pairwise.filter _ (List.pairwise_map.mpr ?_)
  exact Tree.sorted_branches V

theorem CanonBelow.child (h : CanonBelow V) (hmem : (p, cs) ∈ V.branches) (i : Nibble) :
    ∃ m, Canon m (cs i) := by
  have hbranch {m : Nat} (hc : Canon m (.branch cs)) : ∃ m, Canon m (cs i) := by
    cases hc with
    | branch hn hc h2 => exact ⟨_, hc i⟩
  rcases h with ⟨m, hc⟩ | ⟨ts, rfl, hc⟩
  · obtain ⟨m, hc⟩ := Tree.canon_branches hc hmem
    exact hbranch hc
  · rcases Tree.mem_branches_branch.mp hmem with ⟨-, rfl⟩ | ⟨j, q, -, hq⟩
    · exact hc i
    · obtain ⟨m, hj⟩ := hc j
      obtain ⟨m, hc⟩ := Tree.canon_branches hj hq
      exact hbranch hc

theorem CanonBelow.branch (h : CanonBelow V) (hp : p ≠ []) (hmem : (p, cs) ∈ V.branches) :
    ∃ m, Canon m (.branch cs) := by
  rcases h with ⟨m, hc⟩ | ⟨ts, rfl, hc⟩
  · exact Tree.canon_branches hc hmem
  · rcases Tree.mem_branches_branch.mp hmem with ⟨rfl, -⟩ | ⟨j, q, -, hq⟩
    · exact absurd rfl hp
    · obtain ⟨m, hj⟩ := hc j
      exact Tree.canon_branches hj hq

/-- The positions below the root at which keys part. -/
theorem mem_positions (h : CanonBelow V) : p ∈ positions V ↔ p ≠ [] ∧ PartAt V.toList p := by
  unfold positions
  rw [List.mem_filter, List.mem_map, Bool.not_eq_true', List.isEmpty_eq_false_iff, and_comm]
  refine and_congr_right fun hp => ?_
  constructor
  · rintro ⟨⟨q, cs⟩, hmem, rfl⟩
    obtain ⟨m, hc⟩ := h.branch hp hmem
    exact Tree.partAt_of_branch hc hmem
  · intro hpart
    obtain ⟨cs, hmem⟩ := Tree.exists_branch_of_partAt hpart
    exact ⟨(p, cs), hmem, rfl⟩

/-- The first position from a path on. -/
theorem firstFrom_positions (V : Tree 16 Bytes) (path : List Nibble) : firstFrom id (positions V) path =
    (V.branches.find? fun x => lexGe x.1 (trieTarget path)).map Prod.fst := by
  unfold firstFrom positions
  rw [List.find?_filter, List.find?_map]
  refine congrArg (Option.map Prod.fst) (congrArg (List.find? · V.branches) (funext fun x => ?_))
  rw [← sought_eq, Function.comp_apply, Bool.decide_and, Bool.decide_eq_true, Bool.decide_eq_true]
  rfl

/-- The walk returns the entry of the first position. -/
theorem seekIn_positions [Keccak] (h : CanonBelow V) {l : List Branching} {marked : List Nibble → Bool}
    (hl : List.Forall₂ (BranchingOf marked) l V.branches) (path : List Nibble) :
    seekIn [] (trieTarget path) l =
      (firstFrom id (positions V) path).map (branchEntry V.toList marked) := by
  have hfind := Radix.find_rel hl (p := fun e => lexGe ([] ++ e.1) (trieTarget path))
    (q := fun x => lexGe x.1 (trieTarget path)) fun hbc => congrArg (lexGe · (trieTarget path)) hbc.1
  unfold seekIn
  rw [firstFrom_positions, Option.map_map]
  generalize l.find? _ = o at hfind
  generalize ho : V.branches.find? _ = o' at hfind
  cases hfind with
  | none => rfl
  | @some e x hof =>
    obtain ⟨q, infos⟩ := e
    obtain ⟨q', cs⟩ := x
    obtain ⟨rfl, hinfos⟩ := hof
    have hmem := List.mem_of_find?_eq_some ho
    exact congrArg some (entryOf_values hmem (h.child hmem) hinfos)

end

/-! ## Cursors -/

section
variable [Keccak] {t : Tree 16 StateLeaf} {s : Store} {n : RamNode} {ls : List Listed}

omit [Keccak] in
/-- Values below the root that are hashed in their parents. -/
theorem wideTree_of_long {V : Tree 16 Bytes} (h : CanonBelow V)
    (hlong : ∀ k v, V.get k = some v → 29 ≤ v.length) : WideTree V := by
  rcases h with ⟨m, hc⟩ | ⟨ts, rfl, hc⟩
  · exact wideTree_of_get hc fun k v hk => .inl (hlong k v hk)
  · intro i
    obtain ⟨m, hi⟩ := hc i
    exact wideTree_of_get hi fun k v hk => .inl (hlong (i :: k) v hk)

theorem Shows.canonBelow {α : Type} {K : Kind α} (hK : K.Hashes) {u : Tree 16 α} (h : Shows K [] n u) :
    CanonBelow ((ramLeaves n).map LeafOut.rlp) := by
  have halike := ramLeaves_alike hK.surfaces n h
  cases h with
  | empty => exact .inl ⟨0, .empty⟩
  | extension hp hb hc h hh =>
    rcases (Shows.extension hp hb hc h hh).canon with hcanon | ⟨ts, he, -⟩
    · exact .inl ⟨_, (halike.canon hcanon).map _⟩
    · cases he
  | @branch _ slots _ _ hq h hh =>
    refine .inr ⟨_, rfl, fun i => ?_⟩
    have hslot := (slotLeaves_alike hK.surfaces (slots i) (h i)).canon (h i).canon
    exact ⟨_, hslot.map LeafOut.rlp⟩

/-- A cursor over the frontier, with a record of it. -/
def TrieNodeCursor.Fit (s : Store) (n : RamNode) (c : TrieNodeCursor) : Prop :=
  c.upper = n ∧ MemoFor s (diskPtrs n) c.memo

/-- The walk of a cursor from the root. -/
theorem ramBranchSeek_root {α : Type} {K : Kind α} (hK : K.Hashes) {u : Tree 16 α} {ptrs : List DiskPtr}
    {q : List Nibble} (hunits : UnitsApart ptrs) (h : Shows K [] (mapLeaves (fetch s) n q) u)
    (hw : WideTree ((ramLeaves (mapLeaves (fetch s) n q)).map LeafOut.rlp))
    (hsub : ∀ x ∈ diskPtrs n, x ∈ ptrs) {memo : RecordMemo} (hm : MemoFor s ptrs memo)
    (path : List Nibble) : ∃ memo', MemoFor s ptrs memo' ∧
      run exec (ramBranchSeek n [] (trieTarget path) memo) s.healthy =
        ((memo', .ok ((firstFrom id
          (positions ((ramLeaves (mapLeaves (fetch s) n q)).map LeafOut.rlp)) path).map
            (branchEntry ((ramLeaves (mapLeaves (fetch s) n q)).map LeafOut.rlp).toList (promotedAt n)))),
          s.healthy) := by
  obtain ⟨memo', hm', hrun⟩ := ramBranchSeek_run hunits n h hsub (trieTarget path) hm
  refine ⟨memo', hm', hrun.trans ?_⟩
  have hpromoted : promotedAt (mapLeaves (fetch s) n q) = promotedAt n := funext (promotedAt_fetch s n q)
  rw [seekIn_positions (h.canonBelow hK) (ramBranches_values hK _ h hw), hpromoted]

/-- What a seek leaves and returns. -/
theorem trie_seeks (hunits : UnitsApart (diskPtrs n)) (h : Shows stateKind [] (loaded s n) t)
    {V : Tree 16 Bytes} (hV : V = (ramLeaves (loaded s n)).map LeafOut.rlp) (hw : WideTree V) :
    Seeks id (fun p => .ok (branchEntry V.toList (promotedAt n) p)) (positions V) (TrieNodeCursor.Fit s n)
      TrieNodeCursor.last fun c path => called s (c.seek path) := by
  subst hV
  have hseek {c : TrieNodeCursor} (hc : c.Fit s n) (path : List Nibble) :
      ∃ memo', MemoFor s (diskPtrs n) memo' ∧ called s (c.seek path) =
        TrieNodeCursor.found ⟨n, memo', c.last⟩
          (.ok ((firstFrom id (positions ((ramLeaves (loaded s n)).map LeafOut.rlp)) path).map
            (branchEntry ((ramLeaves (loaded s n)).map LeafOut.rlp).toList (promotedAt n)))) := by
    obtain ⟨upper, memo, last⟩ := c
    obtain ⟨rfl, hm⟩ := hc
    obtain ⟨memo', hm', hrun⟩ := ramBranchSeek_root hashes_state hunits h hw (fun _ hx => hx) hm path
    refine ⟨memo', hm', ?_⟩
    unfold called TrieNodeCursor.seek thenUpd
    rw [run_bind, hrun]
    rfl
  constructor
  · intro c hc path
    obtain ⟨memo', hm', hcall⟩ := hseek hc path
    rw [hcall]
    exact ⟨rfl, hm'⟩
  · intro c hc path
    obtain ⟨memo', hm', hcall⟩ := hseek hc path
    rw [hcall]
    unfold TrieNodeCursor.found
    dsimp only
    rw [Option.map_map]
    rfl
  · intro c hc path
    obtain ⟨memo', hm', hcall⟩ := hseek hc path
    rw [hcall]
    cases firstFrom id (positions _) path <;> rfl

theorem trie_advances (s : Store) :
    Ordered.Advances (fun p : List Nibble => some (p ++ [0])) TrieNodeCursor.last
      (fun c path => called s (TrieNodeCursor.seek c path)) fun c => called s c.next where
  stop _ hk := by cases hk
  go hl hk := by
    cases hk
    unfold TrieNodeCursor.next
    rw [hl]

/-- A cursor that was opened on a frontier and has served some calls. -/
inductive TrieNodeCursor.Used (s : Store) (n : RamNode) : TrieNodeCursor → Prop
  | opened : Used s n (trieNodeCursor n)
  | seek {c : TrieNodeCursor} (h : Used s n c) (path : List Nibble) : Used s n (called s (c.seek path)).1
  | next {c : TrieNodeCursor} (h : Used s n c) : Used s n (called s c.next).1

theorem TrieNodeCursor.Used.fit
    (hkeeps : ∀ {c : TrieNodeCursor}, c.Fit s n → ∀ path, (called s (c.seek path)).1.Fit s n)
    {c : TrieNodeCursor} (hc : c.Used s n) : c.Fit s n := by
  induction hc with
  | opened => exact ⟨rfl, memoFor_none⟩
  | seek _ path ih => exact hkeeps ih path
  | @next c _ ih =>
    unfold TrieNodeCursor.next
    split
    · exact ih
    · exact hkeeps ih _

/-- Accounts are hashed in their parents. -/
theorem wideTree_of_accounts (h : Shows stateKind [] (loaded s n) t)
    (hls : List.Forall₂ (Listed.Of t) ls (ramLeaves (loaded s n)).toList)
    (haccounts : ∀ l ∈ ls, (Eth.Account.decode l.value).isSome) :
    WideTree ((ramLeaves (loaded s n)).map LeafOut.rlp) := by
  refine wideTree_of_long (h.canonBelow hashes_state) fun k v hk => ?_
  obtain ⟨e, he, -, rfl⟩ := (listed_entries hls k v).mp hk
  obtain ⟨l, hl, rfl⟩ := List.mem_map.mp he
  obtain ⟨a, ha⟩ := Option.isSome_iff_exists.mp (haccounts l hl)
  exact length_of_decode ha

omit [Keccak] in
/-- The listed values under the nibbles of their keys. -/
theorem nibbled_listed {T : Tree 16 LeafOut} (hls : List.Forall₂ (Listed.Of t) ls T.toList) :
    nibbled (ls.map fun l => (l.key, l.value)) = (T.map LeafOut.rlp).toList := by
  unfold nibbled
  rw [Tree.toList_map, List.map_map, ← List.forall₂_eq_eq_eq, List.forall₂_map_left_iff,
    List.forall₂_map_right_iff]
  exact hls.imp fun l e hof => Prod.ext hof.key hof.value

variable {env : Env} {σ : Sys} {ramMode direct : Bool} {faults : List Bool}

omit [Keccak] in
/-- A result for the position found. -/
theorem elim_map {β γ : Type} (o : Option β) (f : β → γ) :
    (o.elim (.ok none) fun p => (Except.ok (f p)).map some : Except Err (Option γ)) = .ok (o.map f) := by
  cases o <;> rfl

end

/-! ## A view with three accounts -/

/-- An entry behind a position. -/
theorem strip_of_mem {es : List (Key × Bytes)} {e : Key × Bytes} {key : Key} {p rest : List Nibble}
    {i : Nibble} (he : e ∈ es) (hkey : e.1 = key) (hk : keyNibbles key = p ++ i :: rest) :
    strip (p ++ [i]) (nibbled es) ≠ [] := by
  refine Radix.strip_ne_nil.mpr ⟨rest, e.2, ?_⟩
  rw [← hk, ← hkey]
  exact List.mem_map_of_mem he

end FlatMpt
