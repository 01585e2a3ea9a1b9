import FlatMpt.Lib.Seek
import FlatMpt.Cursor
import FlatMpt.Answers
import FlatMpt.Lookups

/-!
# Cursor walks over trees

A record node and a loaded frontier are read as trees of their leaves.  A walk returns the
first leaf of the tree that is not below what is left of its target, and the record it has
parsed last makes no difference.

    nodeLeaves, ramLeaves    -- the leaves as a cursor surfaces them
    nodeSeek_eq
    ramSeek_run
-/

namespace FlatMpt

open Prog
open Radix (Tree prefixed atLeast side)

/-! ## Positions -/

/-- What is left of the target below a position. -/
def boundBelow (minMode : Bool) (target pfx : List Nibble) : Option (List Nibble) :=
  if minMode then none else some (target.drop pfx.length)

/-- A position where the target still counts lies on its path. -/
def Positioned (minMode : Bool) (target pfx : List Nibble) : Prop :=
  minMode = true ∨ side pfx target = .eq

theorem positioned_root (minMode : Bool) (target : List Nibble) : Positioned minMode target [] :=
  .inr (Radix.nil_side target)

theorem prefixed_prefixed {α : Type} (p q : List Nibble) (e : List Nibble × α) :
    prefixed p (prefixed q e) = prefixed (p ++ q) e := by
  unfold prefixed
  rw [List.append_assoc]

section
variable {m : Bool} {target pfx : List Nibble} {α : Type}

theorem takes_eq (h : Positioned m target pfx) (path : List Nibble) :
    takes m target (pfx ++ path) = atLeast (boundBelow m target pfx) path := by
  unfold takes boundBelow notBelow
  cases m with
  | true => rfl
  | false =>
    have hside : side pfx target = .eq := h.resolve_left Bool.false_ne_true
    rw [← Radix.atLeast_eq, Radix.atLeast_drop hside]
    rfl

/-- A leaf that is not below the target passes the comparison of the common stretch. -/
theorem leaf_passes {full : List Nibble} (h : takes m target full = true) :
    (m || (notBelow (target.take (min full.length target.length)) full &&
      rel full target != .allLess)) = true := by
  cases m with
  | true => rfl
  | false =>
    change (compare full target).isGE = true at h
    have hoff (hne : side full target ≠ .eq) : compare full target = side full target := by
      have hc := Radix.compare_of_side hne []
      rwa [List.append_nil] at hc
    have htake : side full (target.take (min full.length target.length)) = side full target := by
      have hmin : min full.length (target.take (min full.length target.length)).length =
          min full.length target.length := by
        rw [List.length_take]
        omega
      unfold side
      rw [hmin, List.take_take, min_self]
    rw [Bool.false_or, Bool.and_eq_true]
    unfold notBelow rel
    cases hs : side full target with
    | lt =>
      rw [hoff (by rw [hs]; decide), hs] at h
      cases h
    | gt =>
      rw [hs] at htake
      have hc := Radix.compare_of_side (by rw [htake]; decide) []
      rw [List.append_nil, htake] at hc
      unfold side at hs
      rw [hc]
      simp only [hs]
      exact ⟨rfl, rfl⟩
    | eq =>
      have heq := Std.LawfulEqOrd.eq_of_compare hs
      unfold side at hs
      simp only [hs]
      refine ⟨?_, rfl⟩
      rw [← heq]
      conv_lhs => rw [← List.take_append_drop (min full.length target.length) full]
      rw [List.take_left' (by simp)]
      have hc := Radix.compare_append (full.take (min full.length target.length))
        (full.drop (min full.length target.length)) []
      rw [List.append_nil] at hc
      rw [hc]
      cases full.drop (min full.length target.length) <;> rfl

/-- An extension on the way. -/
theorem extension_seek (h : Positioned m target pfx) (path : List Nibble) (c : Tree 16 α) :
    (extensionMode m target (pfx ++ path) = none ∧
      (Tree.ext path c).seek (boundBelow m target pfx) = none) ∨
    ∃ m', extensionMode m target (pfx ++ path) = some m' ∧ Positioned m' target (pfx ++ path) ∧
      (Tree.ext path c).seek (boundBelow m target pfx) =
        (c.seek (boundBelow m' target (pfx ++ path))).map (prefixed path) := by
  cases m with
  | true => exact .inr ⟨true, rfl, .inl rfl, Tree.seek_ext_none path c⟩
  | false =>
    have hside := Radix.side_drop (h.resolve_left Bool.false_ne_true) path
    have hbound : boundBelow false target pfx = some (target.drop pfx.length) := rfl
    rw [hbound]
    unfold extensionMode rel
    rw [if_neg Bool.false_ne_true]
    cases hs : side (pfx ++ path) target with
    | lt =>
      have hless := Tree.seek_ext_less c (hside.symm.trans hs)
      unfold side at hs
      exact .inl ⟨by simp only [hs], hless⟩
    | gt =>
      have hgreater := Tree.seek_ext_greater c (hside.symm.trans hs)
      unfold side at hs
      exact .inr ⟨true, by simp only [hs], .inl rfl, hgreater⟩
    | eq =>
      have hmode := hs
      unfold side at hmode
      refine .inr ⟨false, by simp only [hmode], .inr hs, ?_⟩
      rw [Tree.seek_ext_on c (hside.symm.trans hs), List.drop_drop, ← List.length_append]
      rfl

/-- The children of a branch that are looked at. -/
theorem branch_seek (h : Positioned m target pfx) (cs : Nibble → Tree 16 α) :
    (∀ i ∈ branchRange m target pfx, Positioned (branchMode m target pfx i) target (pfx ++ [i])) ∧
      (Tree.branch cs).seek (boundBelow m target pfx) =
        (branchRange m target pfx).findSome? fun i =>
          ((cs i).seek (boundBelow (branchMode m target pfx i) target (pfx ++ [i]))).map
            (prefixed [i]) := by
  cases m with
  | true => exact ⟨fun _ _ => .inl rfl, Tree.seek_branch_none cs⟩
  | false =>
    have hside : side pfx target = .eq := h.resolve_left Bool.false_ne_true
    unfold boundBelow branchRange branchMode branchStart
    rw [if_neg Bool.false_ne_true, if_neg Bool.false_ne_true]
    cases hrest : target.drop pfx.length with
    | nil =>
      have hle : target.length ≤ pfx.length := List.drop_eq_nil_iff.mp hrest
      rw [List.getD_eq_getElem?_getD, List.getElem?_eq_none hle, Option.getD_none, Tree.seek_nil, Tree.seek_branch_none]
      simp only [decide_eq_true hle, Bool.or_true]
      exact ⟨fun _ _ => .inl rfl, rfl⟩
    | cons j l =>
      have htarget : target = pfx ++ j :: l := by
        rcases Radix.side_eq_iff.mp hside with ⟨r, rfl⟩ | ⟨r, rfl⟩
        · rw [List.drop_left] at hrest
          rw [hrest]
        · rw [List.drop_eq_nil_of_le (by simp)] at hrest
          cases hrest
      have hlen : ¬ target.length ≤ pfx.length := by
        rw [htarget, List.length_append, List.length_cons]
        omega
      have hj : target.getD pfx.length 0 = j := by
        rw [htarget, List.getD_eq_getElem?_getD, List.getElem?_append_right (le_refl _), Nat.sub_self]
        rfl
      rw [hj]
      simp only [decide_eq_false hlen, Bool.or_false, Bool.false_or]
      refine ⟨fun i hi => ?_, ?_⟩
      · by_cases hji : j < i
        · exact .inl (decide_eq_true hji)
        · obtain rfl := (Radix.le_of_mem_drop hi).eq_of_not_lt hji
          refine .inr ?_
          rw [htarget, Radix.side_append, Radix.side_cons, Std.ReflOrd.compare_self,
            Radix.nil_side]
          rfl
      · rw [Tree.seek_branch_cons]
        refine Radix.findSome_congr fun i _ => ?_
        by_cases hji : j < i
        · rw [if_pos hji, if_pos (decide_eq_true hji)]
        · rw [if_neg hji, if_neg (by rw [decide_eq_false hji]; exact Bool.false_ne_true), htarget,
            List.length_append, List.length_singleton, ← List.drop_drop, List.drop_left]
          rfl

end

/-! ## Records -/

mutual

/-- The leaves of a record node. -/
def nodeLeaves : Node → Tree 16 LeafOut
  | .empty => .empty
  | .leaf path value _ => .leaf path (.value value)
  | .account path nonce balance codeHash _ storageRoot _ =>
    .leaf path (.account nonce balance codeHash storageRoot)
  | .extension path child _ => .ext path (nodeLeaves child)
  | .branch children _ => .branch fun i => nodeSlotLeaves (children i)

def nodeSlotLeaves : Option Node → Tree 16 LeafOut
  | none => .empty
  | some child => nodeLeaves child

end

theorem leaf_seek {m : Bool} {target pfx : List Nibble} (h : Positioned m target pfx)
    (path : List Nibble) (out : LeafOut) :
    (if takes m target (pfx ++ path) then some (pfx ++ path, out) else none) =
      ((Tree.leaf path out).seek (boundBelow m target pfx)).map (prefixed pfx) := by
  rw [Tree.seek_leaf, takes_eq h]
  split
  · rfl
  · rfl

mutual

/-- **The walk in a record** finds the first leaf that is not below the target. -/
theorem nodeSeek_eq (n : Node) {pfx target : List Nibble} {m : Bool} (h : Positioned m target pfx) :
    nodeSeek n pfx target m =
      ((nodeLeaves n).seek (boundBelow m target pfx)).map (prefixed pfx) := by
  match n with
  | .empty => rfl
  | .leaf path value nref =>
    rw [nodeSeek, nodeLeaves, ← leaf_seek h]
    by_cases ht : takes m target (pfx ++ path) = true
    · rw [if_pos (leaf_passes ht)]
    · rw [if_neg ht, ite_self]
  | .account path nonce balance codeHash storage storageRoot nref =>
    rw [nodeSeek, nodeLeaves, ← leaf_seek h]
  | .extension path child nref =>
    rw [nodeSeek, nodeLeaves]
    rcases extension_seek h path (nodeLeaves child) with ⟨hm, hs⟩ | ⟨m', hm, hpos, hs⟩
    · rw [hm, hs]
      rfl
    · rw [hm, hs, Option.bind_some, nodeSeek_eq child hpos, Option.map_map]
      exact congrArg (Option.map · _) (funext fun e => (prefixed_prefixed pfx path e).symm)
  | .branch children nref =>
    obtain ⟨hpos, hs⟩ := branch_seek h fun i => nodeSlotLeaves (children i)
    rw [nodeSeek, nodeLeaves, hs, List.map_findSome?]
    refine Radix.findSome_congr fun i hi => ?_
    rw [nodeSeekSlot_eq (children i) (hpos i hi), Function.comp_apply, Option.map_map]
    exact congrArg (Option.map · _) (funext fun e => (prefixed_prefixed pfx [i] e).symm)

theorem nodeSeekSlot_eq (s : Option Node) {pfx target : List Nibble} {m : Bool}
    (h : Positioned m target pfx) : nodeSeekSlot s pfx target m =
      ((nodeSlotLeaves s).seek (boundBelow m target pfx)).map (prefixed pfx) := by
  match s with
  | none => rfl
  | some child => exact nodeSeek_eq child h

end

/-- The value of a leaf, as point reads return it. -/
def LeafOut.rlp : LeafOut → Bytes
  | .account nonce balance codeHash storageRoot => accountRlp nonce balance codeHash storageRoot
  | .value v => v

mutual

theorem nodeGet_leaves (n : Node) (k : List Nibble) :
    nodeGet n k = ((nodeLeaves n).get k).map LeafOut.rlp := by
  match n with
  | .empty => rfl
  | .leaf path value nref =>
    rw [nodeGet, nodeLeaves, Tree.get_leaf]
    split <;> rfl
  | .account path nonce balance codeHash storage storageRoot nref =>
    rw [nodeGet, nodeLeaves, Tree.get_leaf]
    split <;> rfl
  | .extension path child nref =>
    rw [nodeGet, nodeLeaves]
    by_cases hpre : ∃ r, k = path ++ r
    · obtain ⟨r, rfl⟩ := hpre
      rw [isPrefixOf_append, if_pos rfl, Tree.get_ext_append, List.drop_left]
      exact nodeGet_leaves child r
    · rw [not_isPrefixOf hpre, get_ext_off hpre]
      rfl
  | .branch children nref =>
    cases k with
    | nil => rfl
    | cons i k => exact nodeGetSlot_leaves (children i) k

theorem nodeGetSlot_leaves (s : Option Node) (k : List Nibble) :
    nodeGetSlot s k = ((nodeSlotLeaves s).get k).map LeafOut.rlp := by
  match s with
  | none => rfl
  | some child => exact nodeGet_leaves child k

end

/-! ## The record parsed last -/

/-- Records at the same unit are the same. -/
def UnitsApart (ptrs : List DiskPtr) : Prop := ∀ p ∈ ptrs, ∀ p' ∈ ptrs, p.unit = p'.unit → p = p'

section
variable [Keccak]

/-- What is kept is a record of the frontier. -/
def MemoFor (s : Store) (ptrs : List DiskPtr) (memo : RecordMemo) : Prop :=
  ∀ unit sub, memo = some (unit, sub) →
    ∃ p ∈ ptrs, p.unit = unit ∧ deserializeSubtree (s.payload p) = .ok sub

variable {s : Store} {ptrs : List DiskPtr} {memo : RecordMemo}

theorem memoFor_none : MemoFor s ptrs none := nofun

theorem run_readLazy_healthy (s : Store) (p : DiskPtr) :
    run exec (readLazy p) s.healthy = (deserializeSubtree (s.payload p), s.healthy) := by
  unfold readLazy attempt Prog.ask
  show run exec (.step (.read p) _) s.healthy = _
  rw [run, read_healthy]
  rfl

/-- A read leaves the record behind. -/
theorem MemoFor.fetch (memo : RecordMemo) {p : DiskPtr} (hp : p ∈ ptrs) {sub : DiskSubtree}
    (hsub : deserializeSubtree (s.payload p) = .ok sub) : ∃ memo', MemoFor s ptrs memo' ∧
      run exec (memo.fetch p) s.healthy = ((memo', .ok sub), s.healthy) := by
  refine ⟨some (p.unit, sub), ?_, ?_⟩
  · rintro _ _ ⟨⟩
    exact ⟨p, hp, rfl, hsub⟩
  · unfold RecordMemo.fetch attempt
    rw [run_bind, run_readLazy_healthy, hsub]
    rfl

theorem MemoFor.read (hunits : UnitsApart ptrs) (hm : MemoFor s ptrs memo) {p : DiskPtr}
    (hp : p ∈ ptrs) {sub : DiskSubtree} (hsub : deserializeSubtree (s.payload p) = .ok sub) :
    ∃ memo', MemoFor s ptrs memo' ∧
      run exec (memo.read p) s.healthy = ((memo', .ok sub), s.healthy) := by
  cases memo with
  | none => exact MemoFor.fetch none hp hsub
  | some e =>
    obtain ⟨unit, kept⟩ := e
    show ∃ memo', MemoFor s ptrs memo' ∧ run exec (if unit = p.unit then
      .pure (some (unit, kept), .ok kept) else RecordMemo.fetch (some (unit, kept)) p) s.healthy = _
    by_cases hu : unit = p.unit
    · obtain ⟨p', hp', hunit, hkept⟩ := hm unit kept rfl
      obtain rfl := hunits p' hp' p hp (hunit.trans hu)
      rw [hsub] at hkept
      cases hkept
      rw [if_pos hu]
      exact ⟨_, hm, rfl⟩
    · rw [if_neg hu]
      exact MemoFor.fetch _ hp hsub

/-- Searching the children one after the other. -/
theorem seekFirst_run {β : Type} {seek : Nibble → RecordMemo → Upd RecordMemo (Option β)}
    {f : Nibble → Option β} {is : List Nibble}
    (h : ∀ i ∈ is, ∀ memo, MemoFor s ptrs memo → ∃ memo', MemoFor s ptrs memo' ∧
      run exec (seek i memo) s.healthy = ((memo', .ok (f i)), s.healthy))
    (hm : MemoFor s ptrs memo) : ∃ memo', MemoFor s ptrs memo' ∧
      run exec (seekFirst seek is memo) s.healthy = ((memo', .ok (is.findSome? f)), s.healthy) := by
  induction is generalizing memo with
  | nil => exact ⟨memo, hm, rfl⟩
  | cons i is ih =>
    obtain ⟨memo1, hm1, hrun⟩ := h i List.mem_cons_self memo hm
    rw [seekFirst]
    unfold thenUpd
    rw [run_bind, hrun, List.findSome?_cons]
    cases f i with
    | none => exact ih (fun j hj => h j (List.mem_cons_of_mem _ hj)) hm1
    | some b => exact ⟨memo1, hm1, rfl⟩

/-! ## The frontier -/

/-- The leaves of a record. -/
def recordLeaves (bytes : Bytes) : Tree 16 LeafOut :=
  match deserializeSubtree bytes with
  | .ok sub => nodeLeaves sub.node
  | .error _ => .empty

mutual

/-- The leaves of a frontier over the ideal store. -/
def ramLeaves : RamNode → Tree 16 LeafOut
  | .empty => .empty
  | .extension path child _ => .ext path (ramLeaves child)
  | .branch children _ => .branch fun i => slotLeaves (children i)

def slotLeaves : RamSlot → Tree 16 LeafOut
  | .none => .empty
  | .ram node => ramLeaves node
  | .disk ptr _ => recordLeaves (nameOf ptr)
  | .account path nonce balance codeHash storage =>
    .leaf path (.account nonce balance codeHash (hashRam storage))
  | .mem bytes _ => recordLeaves bytes

end

variable {α : Type} {K : Kind α}

theorem recordLeaves_eq {q : List Nibble} {t : Tree 16 α} {bytes : Bytes} {root : Hash}
    (h : Recorded K q t bytes root) : recordLeaves bytes = nodeLeaves (toNode K.form t) := by
  unfold recordLeaves
  rw [h.read]

mutual

/-- **The walk through the frontier** finds the first leaf that is not below the target. -/
theorem ramSeek_run (hunits : UnitsApart ptrs) {debug : Bool} (n : RamNode)
    (hd : debug = true → K.root = [] ∨ diskPtrs n = []) {p q : List Nibble} {t : Tree 16 α} (h : Shows K q (mapLeaves (fetch s) n p) t)
    (hsub : ∀ x ∈ diskPtrs n, x ∈ ptrs) {m : Bool} {target : List Nibble}
    (hpos : Positioned m target q) {memo : RecordMemo} (hm : MemoFor s ptrs memo) :
    ∃ memo', MemoFor s ptrs memo' ∧ run exec (ramSeek debug n q target m memo) s.healthy =
      ((memo', .ok (((ramLeaves (mapLeaves (fetch s) n p)).seek (boundBelow m target q)).map
        (prefixed q))), s.healthy) := by
  match n with
  | .empty => exact ⟨memo, hm, rfl⟩
  | .extension path child hash =>
    rw [mapLeaves] at h ⊢
    rw [ramLeaves, ramSeek]
    cases h with
    | @extension _ _ _ t _ hp hb hc h hh =>
    rcases extension_seek hpos path (ramLeaves (mapLeaves (fetch s) child (p ++ path))) with
      ⟨hmode, hs⟩ | ⟨m', hmode, hpos', hs⟩
    · rw [hmode, hs]
      exact ⟨memo, hm, rfl⟩
    · obtain ⟨memo', hm', hrun⟩ := ramSeek_run hunits child hd h hsub hpos' hm
      refine ⟨memo', hm', ?_⟩
      rw [hmode, hs, Option.map_map]
      have hfun : prefixed (α := LeafOut) (q ++ path) = prefixed q ∘ prefixed path :=
        funext fun e => (prefixed_prefixed q path e).symm
      rw [← hfun]
      exact hrun
  | .branch slots hash =>
    rw [mapLeaves] at h ⊢
    rw [ramLeaves, ramSeek]
    cases h with
    | @branch _ _ ts _ hq hs hh =>
    obtain ⟨hposs, hseek⟩ := branch_seek hpos fun i =>
      slotLeaves (mapLeavesIn (fetch s) (slots i) (p ++ [i]))
    obtain ⟨memo', hm', hrun⟩ := seekFirst_run
      (f := fun i => ((slotLeaves (mapLeavesIn (fetch s) (slots i) (p ++ [i]))).seek
        (boundBelow (branchMode m target q i) target (q ++ [i]))).map (prefixed (q ++ [i])))
      (fun i hi memo hm => ramChildSeek_run hunits (slots i)
        (fun hdebug => (hd hdebug).imp_right fun hnil => List.flatMap_eq_nil_iff.mp hnil i
          (List.mem_finRange i)) (hs i)
        (fun x hx => hsub x (List.mem_flatMap.mpr ⟨i, List.mem_finRange i, hx⟩)) (hposs i hi) hm) hm
    refine ⟨memo', hm', ?_⟩
    rw [hseek, List.map_findSome?, hrun]
    refine congrArg (fun o : Option Hit => ((memo', Except.ok o), s.healthy)) ?_
    refine Radix.findSome_congr fun i _ => ?_
    rw [Function.comp_apply, Option.map_map]
    exact congrArg (Option.map · _) (funext fun e => (prefixed_prefixed q [i] e).symm)

theorem ramChildSeek_run (hunits : UnitsApart ptrs) {debug : Bool} (slot : RamSlot)
    (hd : debug = true → K.root = [] ∨ slotPtrs slot = []) {p q : List Nibble} {t : Tree 16 α}
    (h : ShowsSlot K q (mapLeavesIn (fetch s) slot p) t) (hsub : ∀ x ∈ slotPtrs slot, x ∈ ptrs)
    {m : Bool} {target : List Nibble} (hpos : Positioned m target q) {memo : RecordMemo}
    (hm : MemoFor s ptrs memo) :
    ∃ memo', MemoFor s ptrs memo' ∧ run exec (ramChildSeek debug slot q target m memo) s.healthy =
      ((memo', .ok (((slotLeaves (mapLeavesIn (fetch s) slot p)).seek
        (boundBelow m target q)).map (prefixed q))), s.healthy) := by
  match slot with
  | .none => exact ⟨memo, hm, rfl⟩
  | .ram sub =>
    rw [mapLeavesIn] at h ⊢
    cases h with
    | ram hc ht h => exact ramSeek_run hunits sub hd h hsub hpos hm
  | .disk ptr root =>
    change ShowsSlot K q (.mem (s.payload ptr) root) t at h
    cases h with
    | mem h =>
      obtain ⟨memo', hm', hrun⟩ := MemoFor.read hunits hm (hsub ptr List.mem_cons_self) h.read
      refine ⟨memo', hm', ?_⟩
      have hguard : (debug && (K.root ++ q).length != q.length) = false := by
        cases debug with
        | false => rfl
        | true =>
          rw [(hd rfl).resolve_right (List.cons_ne_nil _ _), List.nil_append, bne_self_eq_false,
            Bool.and_false]
      have hleaves : slotLeaves (mapLeavesIn (fetch s) (.disk ptr root) p) =
          nodeLeaves (toNode K.form t) := recordLeaves_eq h
      rw [hleaves, ← nodeSeek_eq _ hpos, ramChildSeek]
      unfold thenUpd
      rw [run_bind, hrun]
      dsimp only
      rw [hguard]
      rfl
  | .mem bytes root =>
    change ShowsSlot K q (.mem bytes root) t at h
    cases h with
    | mem h =>
      have hleaves : slotLeaves (mapLeavesIn (fetch s) (.mem bytes root) p) =
          nodeLeaves (toNode K.form t) := recordLeaves_eq h
      refine ⟨memo, hm, ?_⟩
      rw [hleaves, ← nodeSeek_eq _ hpos, ramChildSeek, h.read]
      rfl
  | .account path nonce balance codeHash storage =>
    refine ⟨memo, hm, ?_⟩
    rw [mapLeavesIn, slotLeaves, hashRam_mapLeaves (fetch_hash s), ← leaf_seek hpos]
    rfl

end

/-! ## Leaves of the tree -/

/-- How the leaves of a kind are surfaced, in a record and promoted. -/
structure Kind.Surfaces (K : Kind α) (R : α → LeafOut → Prop) : Prop where
  record : ∀ p a, ∃ out, nodeLeaves (K.form.node p a) = .leaf p out ∧ R a out
  lone : ∀ {full nonce balance codeHash storage a},
    K.lone full nonce balance codeHash storage a →
    R a (.account nonce balance codeHash (hashRam storage))

variable {R : α → LeafOut → Prop}

omit [Keccak] in
theorem nodeSlotLeaves_asChild (n : Node) : nodeSlotLeaves (asChild n) = nodeLeaves n := by
  cases n <;> rfl

/-- A record shows the leaves of its tree. -/
theorem nodeLeaves_toNode (hR : ∀ p a, ∃ out, nodeLeaves (K.form.node p a) = .leaf p out ∧ R a out)
    (t : Tree 16 α) : Tree.Alike R t (nodeLeaves (toNode K.form t)) := by
  induction t with
  | empty => exact .empty
  | leaf p a =>
    obtain ⟨out, hout, hr⟩ := hR p a
    rw [toNode, hout]
    exact .leaf p hr
  | ext p c ih => exact .ext p ih
  | branch cs ih =>
    refine .branch fun i => ?_
    rw [nodeSlotLeaves_asChild]
    exact ih i

mutual

/-- A frontier shows the leaves of its tree. -/
theorem ramLeaves_alike (hR : K.Surfaces R) (n : RamNode) {q : List Nibble} {t : Tree 16 α}
    (h : Shows K q n t) : Tree.Alike R t (ramLeaves n) := by
  match n with
  | .empty =>
    cases h
    exact .empty
  | .extension path child hash =>
    cases h with
    | extension hp hb hc h hh => exact .ext path (ramLeaves_alike hR child h)
  | .branch slots hash =>
    cases h with
    | branch hq h hh => exact .branch fun i => slotLeaves_alike hR (slots i) (h i)

theorem slotLeaves_alike (hR : K.Surfaces R) (slot : RamSlot) {q : List Nibble} {t : Tree 16 α}
    (h : ShowsSlot K q slot t) : Tree.Alike R t (slotLeaves slot) := by
  match slot with
  | .none =>
    cases h
    exact .empty
  | .ram n =>
    cases h with
    | ram hc ht h => exact ramLeaves_alike hR n h
  | .disk ptr root =>
    cases h with
    | disk h =>
      rw [slotLeaves, recordLeaves_eq h]
      exact nodeLeaves_toNode hR.record t
  | .mem bytes root =>
    cases h with
    | mem h =>
      rw [slotLeaves, recordLeaves_eq h]
      exact nodeLeaves_toNode hR.record t
  | .account path nonce balance codeHash storage =>
    cases h with
    | account hp ha h => exact .leaf path (hR.lone h)

end

theorem surfaces_storage (account : Key) :
    (storageKind account).Surfaces fun v out => out = .value v where
  record _ v := ⟨.value v, rfl, rfl⟩
  lone h := h.elim

/-- How a leaf of the state trie is surfaced. -/
def StateLeaf.Surfaces : StateLeaf → LeafOut → Prop
  | .raw v, out => out = .value v
  | .account n b c _, out => ∃ root, out = .account n b c root

theorem surfaces_state : stateKind.Surfaces StateLeaf.Surfaces where
  record p a := by
    cases a with
    | raw v => exact ⟨.value v, rfl, rfl⟩
    | account n b c s => exact ⟨_, rfl, _, rfl⟩
  lone := by
    rintro _ n b c storage _ ⟨account, s, -, rfl, -, -⟩
    exact ⟨_, rfl⟩

/-! ## Values -/

variable {key : Key}

/-- A record at a slot. -/
theorem recordGet_leaves {q rest : List Nibble} {t : Tree 16 α} {bytes : Bytes} {root : Hash}
    (h : Recorded K q t bytes root) (hq : q ≠ []) (hk : keyNibbles key = q ++ rest) :
    nodeGet (toNode K.form t) ((keyNibbles key).drop (localDepth (K.root ++ q))) =
      ((recordLeaves bytes).get rest).map LeafOut.rlp := by
  rw [K.localDepth hq h.length, hk, List.drop_left, nodeGet_leaves, recordLeaves_eq h]

mutual

/-- Point reads return the leaves. -/
theorem ramGet_leaves (n : RamNode) {q rest : List Nibble} {t : Tree 16 α} (h : Shows K q n t)
    (hk : keyNibbles key = q ++ rest) : value ideal (ramGet n (keyNibbles key) q.length) =
      .ok (((ramLeaves n).get rest).map LeafOut.rlp) := by
  match n with
  | .empty => rfl
  | .extension path child hash =>
    cases h with
    | @extension _ _ _ t _ hp hb hcc hch hh =>
    rw [ramGet, hk, List.drop_left, ← hk, ramLeaves]
    by_cases hpre : ∃ r, rest = path ++ r
    · obtain ⟨r, rfl⟩ := hpre
      rw [isPrefixOf_append, if_pos rfl, Tree.get_ext_append, ← List.length_append]
      exact ramGet_leaves child hch (by rw [hk, List.append_assoc])
    · rw [not_isPrefixOf hpre, get_ext_off hpre]
      rfl
  | .branch slots hash =>
    cases h with
    | @branch _ _ ts _ hq hs hh =>
    have hlen := key_length hk
    cases rest with
    | nil =>
      rw [List.length_nil] at hlen
      omega
    | cons i r =>
      have hi : (keyNibbles key)[q.length]? = some i := by
        rw [hk, List.getElem?_append_right (le_refl _), Nat.sub_self]
        rfl
      rw [ramGet, hi, ramLeaves, Tree.get_branch_cons]
      have hslot := slotGet_leaves (slots i) (hs i) (by simp) (by rw [hk, List.append_assoc]; rfl)
      rwa [List.length_append, List.length_singleton, Nat.add_sub_cancel] at hslot

theorem slotGet_leaves (slot : RamSlot) {q rest : List Nibble} {t : Tree 16 α}
    (h : ShowsSlot K q slot t) (hq : q ≠ []) (hk : keyNibbles key = q ++ rest) :
    value ideal (slotGet slot (keyNibbles key) (q.length - 1)) =
      .ok (((slotLeaves slot).get rest).map LeafOut.rlp) := by
  have hpos := List.length_pos_of_ne_nil hq
  have hdepth : q.length - 1 + 1 = q.length := by omega
  match slot with
  | .none => rfl
  | .ram child =>
    cases h with
    | ram hc ht h =>
      rw [slotGet, hdepth]
      exact ramGet_leaves child h hk
  | .disk ptr root =>
    cases h with
    | disk h =>
      rw [slotGet, value_attempt, value_readLazy, h.read, slotLeaves, ← recordGet_leaves h hq hk]
      rfl
  | .mem bytes root =>
    cases h with
    | mem h =>
      rw [slotGet, value_attempt, h.read, slotLeaves, ← recordGet_leaves h hq hk]
      rfl
  | .account path nonce balance codeHash storage =>
    rw [slotGet, hdepth, hk, List.drop_left, slotLeaves, Tree.get_leaf]
    split <;> rfl

end

end

end FlatMpt
