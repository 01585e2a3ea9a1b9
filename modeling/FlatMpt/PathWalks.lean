import FlatMpt.Reveal
import FlatMpt.TrieNodes

/-!
# Walks to a target

The walk of a target emits the nodes of the trie on its path.

    Emitter.Once, mem_foldl_emit   -- what is emitted, once a position
    pathNodes                      -- the nodes on a path
    walkNode_eq, walkRam_run
-/

namespace FlatMpt

open Prog
open Radix (Tree)
open Radix.Tree (Canon)

/-! ## What is emitted, and where records are -/

mutual

/-- Whether the child at the position is held in a record of its own. -/
def recordedAt : RamNode → List Nibble → Bool
  | .empty, _ => false
  | .extension path child _, k => path.isPrefixOf k && recordedAt child (k.drop path.length)
  | .branch children _, k =>
    match k with
    | [] => false
    | i :: rest => slotRecordedAt (children i) rest

def slotRecordedAt : RamSlot → List Nibble → Bool
  | .ram node, k => recordedAt node k
  | .disk .., k => k.isEmpty
  | .mem .., k => k.isEmpty
  | _, _ => false

end

mutual

theorem recordedAt_fetch (s : Store) (n : RamNode) (p k : List Nibble) :
    recordedAt (mapLeaves (fetch s) n p) k = recordedAt n k := by
  match n with
  | .empty => rfl
  | .extension path child hash =>
    rw [mapLeaves, recordedAt, recordedAt, recordedAt_fetch]
  | .branch children hash =>
    cases k with
    | nil => rfl
    | cons i k => exact slotRecordedAt_fetch s (children i) (p ++ [i]) k

theorem slotRecordedAt_fetch (s : Store) (slot : RamSlot) (p k : List Nibble) :
    slotRecordedAt (mapLeavesIn (fetch s) slot p) k = slotRecordedAt slot k := by
  match slot with
  | .none => rfl
  | .ram node => exact recordedAt_fetch s node p k
  | .disk ptr root => rfl
  | .account path nonce balance codeHash storage => rfl
  | .mem bytes root => rfl

end

theorem recordedAt_nil (n : RamNode) : recordedAt n [] = false := by
  match n with
  | .empty => rfl
  | .extension path child hash =>
    rw [recordedAt, List.drop_nil, recordedAt_nil child, Bool.and_false]
  | .branch children hash => rfl

@[simp] theorem emit_memo (e : Emitter) (x : RevealNode) : (e.emit x).memo = e.memo := by
  unfold Emitter.emit
  split <;> rfl

@[simp] theorem foldl_emit_memo (l : List RevealNode) (e : Emitter) :
    (l.foldl Emitter.emit e).memo = e.memo := by
  induction l generalizing e with
  | nil => rfl
  | cons x l ih => rw [List.foldl_cons, ih, emit_memo]

theorem foldl_emit_same (l : List RevealNode) (e : Emitter) :
    { l.foldl Emitter.emit e with memo := e.memo } = l.foldl Emitter.emit e := by
  rw [← foldl_emit_memo l e]

/-- The parsed record plays no part in what is emitted. -/
theorem foldl_emit_with (l : List RevealNode) (e : Emitter) (memo : RecordMemo) :
    l.foldl Emitter.emit { e with memo := memo } = { l.foldl Emitter.emit e with memo := memo } := by
  induction l generalizing e with
  | nil => rfl
  | cons x l ih =>
    have hemit : Emitter.emit { e with memo := memo } x = { e.emit x with memo := memo } := by
      have hseen : Emitter.hasSeen { e with memo := memo } x.position = e.hasSeen x.position := rfl
      unfold Emitter.emit
      rw [hseen]
      split <;> rfl
    rw [List.foldl_cons, List.foldl_cons, hemit, ih]

theorem hasSeen_iff {e : Emitter} {p : List Nibble} : e.hasSeen p = true ↔ p ∈ e.seen := by
  unfold Emitter.hasSeen
  simp

/-- The positions seen are those emitted, each once. -/
structure Emitter.Once (e : Emitter) : Prop where
  seen : ∀ p, p ∈ e.seen ↔ p ∈ e.out.map RevealNode.position
  nodup : (e.out.map RevealNode.position).Nodup

theorem Emitter.Once.emit {e : Emitter} (h : e.Once) (x : RevealNode) : (e.emit x).Once := by
  unfold Emitter.emit
  by_cases hx : e.hasSeen x.position = true
  · rw [if_pos hx]
    exact h
  · rw [if_neg hx]
    constructor
    · intro p
      rw [List.mem_cons, List.map_append, List.mem_append, h.seen, or_comm, List.map_singleton,
        List.mem_singleton]
    · rw [List.map_append, List.nodup_append]
      refine ⟨h.nodup, List.nodup_singleton _, fun p hp q hq => ?_⟩
      rintro rfl
      rw [List.map_singleton, List.mem_singleton] at hq
      exact hx (hasSeen_iff.mpr ((h.seen _).mpr (hq ▸ hp)))

theorem Emitter.Once.foldl {e : Emitter} (h : e.Once) (l : List RevealNode) :
    (l.foldl Emitter.emit e).Once := by
  induction l generalizing e with
  | nil => exact h
  | cons x l ih => exact ih (h.emit x)

/-- What is emitted stays. -/
theorem out_kept (l : List RevealNode) (e : Emitter) : e.out <+: (l.foldl Emitter.emit e).out := by
  induction l generalizing e with
  | nil => exact List.prefix_rfl
  | cons x l ih =>
    refine List.IsPrefix.trans ?_ (ih (e.emit x))
    unfold Emitter.emit
    split
    · exact List.prefix_rfl
    · exact List.prefix_append _ _

/-- Nodes at positions of their own are all emitted. -/
theorem mem_foldl_emit {l : List RevealNode} {e : Emitter} (h : e.Once)
    (hone : ∀ x ∈ e.out ++ l, ∀ y ∈ e.out ++ l, x.position = y.position → x = y) (x : RevealNode) :
    x ∈ (l.foldl Emitter.emit e).out ↔ x ∈ e.out ∨ x ∈ l := by
  induction l generalizing e with
  | nil => exact ⟨.inl, fun h => h.resolve_right List.not_mem_nil⟩
  | cons y l ih =>
    have hout (z : RevealNode) : z ∈ (e.emit y).out ↔ z ∈ e.out ∨ z = y := by
      unfold Emitter.emit
      by_cases hy : e.hasSeen y.position = true
      · rw [if_pos hy]
        refine ⟨.inl, fun h' => h'.elim id ?_⟩
        rintro rfl
        obtain ⟨w, hw, hpos⟩ := List.mem_map.mp ((h.seen _).mp (hasSeen_iff.mp hy))
        rwa [← hone w (List.mem_append_left _ hw) z (by simp) hpos]
      · rw [if_neg hy, List.mem_append, List.mem_singleton]
    have hin {z : RevealNode} (hz : z ∈ (e.emit y).out ++ l) : z ∈ e.out ++ y :: l := by
      rw [List.mem_append, hout] at hz
      rw [List.mem_append, List.mem_cons, ← or_assoc]
      exact hz
    rw [List.foldl_cons, ih (h.emit y) fun z hz w hw => hone z (hin hz) w (hin hw), hout, or_assoc,
      List.mem_cons]

/-! ## Nodes on a path -/

section
variable [Keccak]

/-- The branch of the trie, its children referred to as their parent's hash does. -/
def branchNode (promoted recorded : List Nibble → Bool) (pfx : List Nibble) (cs : Nibble → Tree 16 Bytes) :
    RevealNode :=
  let info (i : Nibble) := infoOf (fun k => promoted (i :: k)) (cs i)
  .branch pfx (fun i => if (cs i).isEmpty then none else some (mkRef (treeRlp (cs i))).reveal)
    (bitmap fun i => (info i).any ChildInfo.hasBranchBelow || recorded [i])
    (bitmap fun i => ((info i).bind ChildInfo.hash).isSome)

def topBranch (promoted recorded : List Nibble → Bool) (pfx : List Nibble) : Tree 16 Bytes → List RevealNode
  | .branch cs => [branchNode promoted recorded pfx cs]
  | _ => []

/-- The nodes of the trie from the root to the target's leaf, or to the one that shows its
absence; behind an extension that it parts from, the branch there. -/
def pathNodes : Tree 16 Bytes → (List Nibble → Bool) → (List Nibble → Bool) → List Nibble → List Nibble →
    List RevealNode
  | .empty, _, _, pfx, _ => if pfx = [] then [.emptyRoot] else []
  | .leaf path value, _, _, pfx, _ => [.leaf pfx path value]
  | .ext path child, promoted, recorded, pfx, target =>
    .extension pfx path (mkRef (treeRlp child)).reveal ::
      if path.isPrefixOf (target.drop pfx.length) then
        pathNodes child (fun k => promoted (path ++ k)) (fun k => recorded (path ++ k)) (pfx ++ path) target
      else topBranch (fun k => promoted (path ++ k)) (fun k => recorded (path ++ k)) (pfx ++ path) child
  | .branch cs, promoted, recorded, pfx, target =>
    branchNode promoted recorded pfx cs ::
      match target.drop pfx.length with
      | [] => []
      | i :: _ =>
        pathNodes (cs i) (fun k => promoted (i :: k)) (fun k => recorded (i :: k)) (pfx ++ [i]) target

/-! ## Records -/

variable {α : Type} {K : Kind α}

omit [Keccak] in
theorem nodeChildMasks_eq (n : Node) :
    nodeChildMasks n = ((classifyNode n).hasBranchBelow, (classifyNode n).hash.isSome) := by
  induction n using Node.induct with
  | hempty => rfl
  | hleaf path value nref => rfl
  | hext path child nref ih =>
    rw [nodeChildMasks, ih]
    rfl
  | hbranch children nref ih => rfl
  | hacct path nonce balance codeHash storage storageRoot nref ih => rfl

theorem nodeChildRef_toNode (hK : K.Hashes) {n : Nat} {t : Tree 16 α} (h : Canon n t) (ht : t ≠ .empty) :
    nodeChildRef (toNode K.form t) = .ok (mkRef (treeRlp (recordValues K t))).reveal := by
  rw [← hashNode_leaves hK h ht]
  have hne := toNode_ne_empty K.form ht
  cases hn : toNode K.form t with
  | empty => exact absurd hn hne
  | _ => rfl

/-- The references of a branch in a record. -/
theorem nodeChildRefs_toNode (hK : K.Hashes) {n : Nat} {ts : Nibble → Tree 16 α} (hc : ∀ i, Canon n (ts i))
    (is : List Nibble) : nodeChildRefs (fun i => asChild (toNode K.form (ts i))) is = .ok fun i =>
      if i ∈ is then (if (recordValues K (ts i)).isEmpty then none
        else some (mkRef (treeRlp (recordValues K (ts i)))).reveal) else none := by
  induction is with
  | nil => rfl
  | cons i is ih =>
    rw [nodeChildRefs, ih]
    by_cases ht : ts i = .empty
    · have hempty : (recordValues K (ts i)).isEmpty = true := by rw [ht]; rfl
      have hchild : asChild (toNode K.form (ts i)) = none := by rw [ht]; rfl
      rw [hchild]
      refine congrArg Except.ok (funext fun j => ?_)
      by_cases hj : j = i
      · subst hj
        rw [if_pos hempty, if_pos List.mem_cons_self]
        exact ite_self none
      · simp only [List.mem_cons, hj, false_or]
    · have hempty : ¬ (recordValues K (ts i)).isEmpty = true := by
        rw [isEmpty_recordValues hK]
        exact fun he => ht (Tree.isEmpty_iff.mp he)
      rw [asChild_toNode K.form ht]
      dsimp only
      rw [nodeChildRef_toNode hK (hc i) ht]
      refine congrArg Except.ok (funext fun j => ?_)
      by_cases hj : j = i
      · subst hj
        rw [if_pos rfl, if_pos List.mem_cons_self, if_neg hempty]
      · simp only [List.mem_cons, hj, false_or, if_false]

theorem recordValues_branch (ts : Nibble → Tree 16 α) :
    recordValues K (.branch ts) = .branch fun i => recordValues K (ts i) := by
  refine congrArg Tree.branch (funext fun i => ?_)
  show (nodeSlotLeaves (asChild (toNode K.form (ts i)))).map LeafOut.rlp = _
  rw [nodeSlotLeaves_asChild]

variable {promoted recorded : List Nibble → Bool} {pfx target : List Nibble}

/-- A branch of a record. -/
theorem emitNodeBranch_eq (hK : K.Hashes) {n : Nat} {ts : Nibble → Tree 16 α} (hc : ∀ i, Canon n (ts i))
    (hpr : ∀ k, promoted k = false) (hrc : ∀ k, k ≠ [] → recorded k = false) (e : Emitter) :
    e.emitNodeBranch pfx (fun i => asChild (toNode K.form (ts i))) =
      .ok (e.emit (branchNode promoted recorded pfx fun i => recordValues K (ts i))) := by
  have hinfo (i : Nibble) := classify_values hK (hc i) (fun k => promoted (i :: k)) fun k => hpr (i :: k)
  unfold Emitter.emitNodeBranch
  by_cases hseen : e.hasSeen pfx = true
  · rw [if_pos hseen]
    unfold Emitter.emit
    exact congrArg Except.ok (if_pos hseen).symm
  · rw [if_neg hseen, nodeChildRefs_toNode hK hc]
    refine congrArg (fun x => Except.ok (e.emit x)) ?_
    unfold branchNode
    simp only [List.mem_finRange, if_true, ← hinfo, hrc _ (List.cons_ne_nil _ _), Bool.or_false,
      nodeChildMasks_eq]
    congr 2
    · refine funext fun i => ?_
      cases asChild (toNode K.form (ts i)) <;> rfl
    · refine funext fun i => ?_
      cases asChild (toNode K.form (ts i)) <;> rfl

/-- **The walk in a record** emits the nodes on the path. -/
theorem walkNode_eq (hK : K.Hashes) {n : Nat} {t : Tree 16 α} (h : Canon n t) (h0 : t = .empty → pfx ≠ [])
    (hpr : ∀ k, promoted k = false) (hrc : ∀ k, k ≠ [] → recorded k = false)
    (hlen : pfx.length ≤ target.length) (e : Emitter) : walkNode (toNode K.form t) pfx target e =
      .ok ((pathNodes (recordValues K t) promoted recorded pfx target).foldl Emitter.emit e) := by
  induction h generalizing promoted recorded pfx e with
  | empty =>
    show Except.ok e = .ok ((if pfx = [] then [RevealNode.emptyRoot] else []).foldl Emitter.emit e)
    rw [if_neg (h0 rfl)]
    rfl
  | @leaf n path a hp =>
    obtain ⟨out, hout, -⟩ := hK path a
    unfold recordValues
    rw [toNode, hout]
    cases hn : K.form.node path a with
    | leaf path' value nref =>
      rw [hn] at hout
      cases hout
      rfl
    | account path' nonce balance codeHash storage storageRoot nref =>
      rw [hn] at hout
      cases hout
      rfl
    | _ =>
      rw [hn] at hout
      cases hout
  | @ext n m path child hp hn hb hc ih =>
    obtain ⟨ts⟩ := hb
    have hvalues : recordValues K (.ext path (.branch ts)) = .ext path (recordValues K (.branch ts)) := rfl
    rw [hvalues, toNode, makeExtension, walkNode, nodeChildRef_toNode hK hc (by simp), pathNodes,
      List.foldl_cons]
    show (if _ then _ else _) = _
    rw [if_neg (by omega)]
    by_cases hon : path.isPrefixOf (target.drop pfx.length) = true
    · have hpre := (List.isPrefixOf_iff_prefix.mp hon).length_le
      rw [List.length_drop] at hpre
      have hpos := List.length_pos_iff.mpr hp
      have htarget : target.isEmpty = false := by
        rw [List.isEmpty_eq_false_iff]
        rintro rfl
        rw [List.length_nil] at hpre
        omega
      rw [if_pos hon, if_pos hon, htarget]
      refine ih (fun h => by cases h) (fun k => hpr _) (fun k _ => hrc _ (by simp [hp])) ?_ _
      rw [List.length_append]
      omega
    · rw [if_neg hon, if_neg hon, recordValues_branch]
      cases hc with
      | branch hn hc h2 =>
        exact emitNodeBranch_eq hK hc (fun k => hpr _) (fun k _ => hrc _ (by simp [hp])) _
  | @branch n m ts hn hc h2 ih =>
    rw [recordValues_branch, toNode, makeBranch, walkNode, emitNodeBranch_eq hK hc hpr hrc, pathNodes,
      List.foldl_cons]
    cases hd : target.drop pfx.length with
    | nil => rfl
    | cons i rest =>
      have hlt : pfx.length < target.length := by
        have := congrArg List.length hd
        rw [List.length_drop, List.length_cons] at this
        omega
      have hslot : ∀ e, walkNodeSlot (asChild (toNode K.form (ts i))) (pfx ++ [i]) target e =
          walkNode (toNode K.form (ts i)) (pfx ++ [i]) target e := by
        intro e
        cases toNode K.form (ts i) <;> rfl
      refine (hslot _).trans (ih i (fun _ => by simp) (fun k => hpr _)
        (fun k _ => hrc _ (List.cons_ne_nil _ _)) ?_ _)
      rw [List.length_append, List.length_singleton]
      omega

/-! ## The frontier -/

variable {s : Store} {ptrs : List DiskPtr} {q : List Nibble}

/-- The masks are those of the cursors, but that a record counts as a branch. -/
theorem ramChildMasks_eq {slot : RamSlot} {t : Tree 16 α} (h : ShowsSlot K q slot t) : ramChildMasks slot =
    ((slotInfo slot).any ChildInfo.hasBranchBelow || slotRecordedAt slot [],
      ((slotInfo slot).bind ChildInfo.hash).isSome) := by
  cases h with
  | none => rfl
  | @ram _ n _ hc ht h =>
    rw [slotRecordedAt, recordedAt_nil, Bool.or_false]
    rfl
  | disk h =>
    rw [slotInfo, recordInfo_eq h]
    exact Prod.ext (Bool.or_true _).symm rfl
  | mem h =>
    rw [slotInfo, recordInfo_eq h]
    exact Prod.ext (Bool.or_true _).symm rfl
  | account hp ha h => rfl

/-- A branch of the frontier. -/
theorem emitRamBranch_eq (hK : K.Hashes) {slots : Nibble → RamSlot} {ts : Nibble → Tree 16 α}
    (hs : ∀ i, ShowsSlot K (q ++ [i]) (slots i) (ts i))
    (hw : ∀ i, WideTree ((slotLeaves (slots i)).map LeafOut.rlp)) (e : Emitter)
    (hash : Option Hash) : e.emitRamBranch pfx slots = e.emit (branchNode (promotedAt (.branch slots hash))
      (recordedAt (.branch slots hash)) pfx fun i => (slotLeaves (slots i)).map LeafOut.rlp) := by
  have hinfo (i : Nibble) : infoOf (fun k => promotedAt (.branch slots hash) (i :: k))
      ((slotLeaves (slots i)).map LeafOut.rlp) = slotInfo (slots i) :=
    (slotInfo_values hK (slots i) (hs i) (hw i)).symm
  have hrecorded (i : Nibble) : recordedAt (.branch slots hash) [i] = slotRecordedAt (slots i) [] := rfl
  have href (i : Nibble) : (ramChildHash (slots i)).map RevealRef.hash =
      if ((slotLeaves (slots i)).map LeafOut.rlp).isEmpty then none
      else some (mkRef (treeRlp ((slotLeaves (slots i)).map LeafOut.rlp))).reveal := by
    have hmap := congrArg (Option.map NodeRef.reveal) (ramChildHash_leaves hK (slots i) (hs i) (hw i))
    rw [Option.map_map] at hmap
    refine hmap.trans ?_
    split <;> rfl
  unfold Emitter.emitRamBranch branchNode
  simp only [hinfo, hrecorded, href, ramChildMasks_eq (hs _)]

omit [Keccak] in
theorem ramChildMasks_fetch (slot : RamSlot) (p : List Nibble) :
    ramChildMasks (mapLeavesIn (fetch s) slot p) = ramChildMasks slot := by
  cases slot with
  | ram sub => exact congrArg (·, true) (isInner_fetch sub p)
  | _ => rfl

theorem emitRamBranch_fetch (e : Emitter) (slots : Nibble → RamSlot) (p : List Nibble) :
    e.emitRamBranch pfx (fun i => mapLeavesIn (fetch s) (slots i) (p ++ [i])) =
      e.emitRamBranch pfx slots := by
  unfold Emitter.emitRamBranch
  simp only [ramChildMasks_fetch, ramChildHash_mapLeaves (fetch_hash s)]

mutual

/-- **The walk through the frontier** emits the nodes on the path. -/
theorem walkRam_run (hunits : UnitsApart ptrs) (hK : K.Hashes) (n : RamNode) {p q : List Nibble}
    {t : Tree 16 α} (h : Shows K q (mapLeaves (fetch s) n p) t) (hsub : ∀ x ∈ diskPtrs n, x ∈ ptrs)
    (hw : WideTree ((ramLeaves (mapLeaves (fetch s) n p)).map LeafOut.rlp))
    (hlen : q.length ≤ target.length) {e : Emitter} (hm : MemoFor s ptrs e.memo) :
    ∃ memo', MemoFor s ptrs memo' ∧ run exec (walkRam n q target e) s.healthy =
      (.ok { (pathNodes ((ramLeaves (mapLeaves (fetch s) n p)).map LeafOut.rlp)
        (promotedAt (mapLeaves (fetch s) n p)) (recordedAt (mapLeaves (fetch s) n p)) q
          target).foldl Emitter.emit e with memo := memo' }, s.healthy) := by
  match n with
  | .empty =>
    refine ⟨e.memo, hm, ?_⟩
    have hvalues : (ramLeaves (mapLeaves (fetch s) .empty p)).map LeafOut.rlp = .empty := rfl
    rw [foldl_emit_same, hvalues, pathNodes, walkRam]
    by_cases hq : q = []
    · rw [if_pos hq, if_pos hq]
      rfl
    · rw [if_neg hq, if_neg hq]
      rfl
  | .extension path child hash =>
    rw [mapLeaves] at h hw ⊢
    cases h with
    | @extension _ _ _ u _ hp hb hc h hh =>
      have hstrip (k : List Nibble) (f : RamNode → List Nibble → Bool) (a : RamNode) :
          (path.isPrefixOf (path ++ k) && f a ((path ++ k).drop path.length)) = f a k := by
        rw [List.drop_left, List.isPrefixOf_iff_prefix.mpr (List.prefix_append path k), Bool.true_and]
      have hpromoted : (fun k => promotedAt (.extension path (mapLeaves (fetch s) child (p ++ path)) hash)
          (path ++ k)) = promotedAt (mapLeaves (fetch s) child (p ++ path)) :=
        funext fun k => hstrip k promotedAt _
      have hrecorded : (fun k => recordedAt (.extension path (mapLeaves (fetch s) child (p ++ path)) hash)
          (path ++ k)) = recordedAt (mapLeaves (fetch s) child (p ++ path)) :=
        funext fun k => hstrip k recordedAt _
      have href : RevealRef.hash (hashRam child) = (mkRef (treeRlp
          ((ramLeaves (mapLeaves (fetch s) child (p ++ path))).map LeafOut.rlp))).reveal := by
        have halike := ramLeaves_alike hK.surfaces _ h
        have hne : (ramLeaves (mapLeaves (fetch s) child (p ++ path))).map LeafOut.rlp ≠ .empty := by
          obtain ⟨ts⟩ := hb
          intro he
          have hempty := halike.isEmpty
          rw [← Tree.isEmpty_map LeafOut.rlp, he] at hempty
          cases hempty
        rw [mkRef_wide ((halike.canon hc).map _) hw hne, ← hashRam_leaves hK _ h hc hw,
          hashRam_mapLeaves (fetch_hash s)]
        rfl
      have hvalues : (ramLeaves (.extension path (mapLeaves (fetch s) child (p ++ path)) hash)).map
          LeafOut.rlp = .ext path ((ramLeaves (mapLeaves (fetch s) child (p ++ path))).map LeafOut.rlp) :=
        rfl
      rw [hvalues, pathNodes, hpromoted, hrecorded, walkRam, if_neg (by omega), href,
        List.foldl_cons]
      by_cases hon : path.isPrefixOf (target.drop q.length) = true
      · have hpre := (List.isPrefixOf_iff_prefix.mp hon).length_le
        rw [List.length_drop] at hpre
        rw [if_pos hon, if_pos hon]
        refine walkRam_run hunits hK child h hsub hw ?_ (by rwa [emit_memo])
        rw [List.length_append]
        have := List.length_pos_iff.mpr hp
        omega
      · rw [if_neg hon, if_neg hon]
        obtain ⟨ts⟩ := hb
        cases child with
        | empty => cases h
        | extension path' child' hash' => cases h
        | branch slots hash' =>
          rw [mapLeaves] at h hw ⊢
          cases h with
          | branch hq hs hh =>
            refine ⟨e.memo, hm, ?_⟩
            rw [walkRamStep, ← emitRamBranch_fetch _ slots (p ++ path), emitRamBranch_eq hK hs hw _ hash',
              ← emit_memo e, foldl_emit_same]
            rfl
  | .branch slots hash =>
    rw [mapLeaves] at h hw ⊢
    cases h with
    | @branch _ _ ts _ hq hs hh =>
      have hvalues : (ramLeaves (.branch (fun i => mapLeavesIn (fetch s) (slots i) (p ++ [i])) hash)).map
          LeafOut.rlp = .branch fun i =>
            (slotLeaves (mapLeavesIn (fetch s) (slots i) (p ++ [i]))).map LeafOut.rlp := rfl
      rw [hvalues, pathNodes, List.foldl_cons, walkRam, ← emitRamBranch_fetch _ slots p,
        emitRamBranch_eq hK hs hw e hash]
      cases hd : target.drop q.length with
      | nil =>
        refine ⟨e.memo, hm, ?_⟩
        rw [← emit_memo e, foldl_emit_same]
        rfl
      | cons i rest =>
        have hlt : q.length < target.length := by
          have := congrArg List.length hd
          rw [List.length_drop, List.length_cons] at this
          omega
        refine walkRamChild_run hunits hK (slots i) (hs i) (fun x hx =>
          hsub x (List.mem_flatMap.mpr ⟨i, List.mem_finRange i, hx⟩)) (by simp) (hw i) ?_
          (by rwa [emit_memo])
        rw [List.length_append, List.length_singleton]
        omega

theorem walkRamChild_run (hunits : UnitsApart ptrs) (hK : K.Hashes) (slot : RamSlot) {p q : List Nibble}
    {t : Tree 16 α} (h : ShowsSlot K q (mapLeavesIn (fetch s) slot p) t)
    (hsub : ∀ x ∈ slotPtrs slot, x ∈ ptrs) (hq : q ≠ [])
    (hw : WideTree ((slotLeaves (mapLeavesIn (fetch s) slot p)).map LeafOut.rlp))
    (hlen : q.length ≤ target.length) {e : Emitter} (hm : MemoFor s ptrs e.memo) :
    ∃ memo', MemoFor s ptrs memo' ∧ run exec (walkRamChild slot q target e) s.healthy =
      (.ok { (pathNodes ((slotLeaves (mapLeavesIn (fetch s) slot p)).map LeafOut.rlp)
        (slotPromotedAt (mapLeavesIn (fetch s) slot p)) (slotRecordedAt (mapLeavesIn (fetch s) slot p)) q
          target).foldl Emitter.emit e with memo := memo' }, s.healthy) := by
  match slot with
  | .none =>
    refine ⟨e.memo, hm, ?_⟩
    have hvalues : (slotLeaves (mapLeavesIn (fetch s) .none p)).map LeafOut.rlp = .empty := rfl
    rw [foldl_emit_same, hvalues, pathNodes, if_neg hq]
    rfl
  | .account path nonce balance codeHash storage =>
    refine ⟨e.memo, hm, ?_⟩
    have hvalues : (slotLeaves (mapLeavesIn (fetch s) (.account path nonce balance codeHash storage) p)).map
        LeafOut.rlp = .leaf path (accountRlp nonce balance codeHash (hashRam storage)) := by
      rw [mapLeavesIn, slotLeaves, hashRam_mapLeaves (fetch_hash s)]
      rfl
    rw [foldl_emit_same, hvalues]
    rfl
  | .ram sub =>
    rw [mapLeavesIn] at h hw ⊢
    cases h with
    | ram hc ht h => exact walkRam_run hunits hK sub h hsub hw hlen hm
  | .disk ptr root =>
    change ShowsSlot K q (.mem (s.payload ptr) root) t at h
    cases h with
    | mem h =>
      have hvalues : slotLeaves (mapLeavesIn (fetch s) (.disk ptr root) p) =
          nodeLeaves (toNode K.form t) := recordLeaves_eq h
      obtain ⟨memo', hm', hrun⟩ := MemoFor.read hunits hm (hsub ptr List.mem_cons_self) h.read
      refine ⟨memo', hm', ?_⟩
      rw [walkRamChild, run_bind, hrun, hvalues, ← foldl_emit_with]
      exact congrArg (·, s.healthy) (walkNode_eq hK h.canon (fun _ => hq) (fun _ => rfl)
        (fun k hk => List.isEmpty_eq_false_iff.mpr hk) hlen _)
  | .mem bytes root =>
    change ShowsSlot K q (.mem bytes root) t at h
    cases h with
    | mem h =>
      have hvalues : slotLeaves (mapLeavesIn (fetch s) (.mem bytes root) p) =
          nodeLeaves (toNode K.form t) := recordLeaves_eq h
      refine ⟨e.memo, hm, ?_⟩
      rw [foldl_emit_same, walkRamChild, h.read, hvalues]
      exact congrArg (·, s.healthy) (walkNode_eq hK h.canon (fun _ => hq) (fun _ => rfl)
        (fun k hk => List.isEmpty_eq_false_iff.mpr hk) hlen e)

end

end

end FlatMpt
