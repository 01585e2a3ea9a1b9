import FlatMpt.Lib.Branches
import FlatMpt.TrieCursor
import FlatMpt.Walks

/-!
# Branch walks

A record node and a loaded frontier are read as the lists of their branches, each with what
its children are.  A walk returns the first branch whose position is not before its target.

    nodeBranches, ramBranches
    nodeBranchSeek_eq
    ramBranchSeek_run
-/

namespace FlatMpt

open Prog
open Radix (Tree prefixed atLeast side)

/-! ## Positions -/

theorem lexGe_eq (path target : List Nibble) : lexGe path target = atLeast (some target) path := by
  rw [Radix.atLeast_eq]
  have hoff (hne : side path target ≠ .eq) : compare path target = side path target := by
    have hc := Radix.compare_of_side hne []
    rwa [List.append_nil] at hc
  unfold lexGe
  cases hs : side path target with
  | lt =>
    rw [hoff (by rw [hs]; decide), hs]
    unfold side at hs
    simp only [hs]
    rfl
  | gt =>
    rw [hoff (by rw [hs]; decide), hs]
    unfold side at hs
    simp only [hs]
    rfl
  | eq =>
    have heq := Radix.side_eq_iff.mp hs
    unfold side at hs
    simp only [hs]
    rcases heq with ⟨m, rfl⟩ | ⟨m, rfl⟩
    · have hc := Radix.compare_append path [] m
      rw [List.append_nil] at hc
      rw [hc, List.length_append]
      cases m with
      | nil => simp
      | cons i m => simp
    · have hc := Radix.compare_append target m []
      rw [List.append_nil] at hc
      rw [hc, List.length_append]
      cases m with
      | nil => simp
      | cons i m => simp

/-- A subtree that is skipped holds no position that is sought. -/
theorem lexGe_of_allLess {pfx target : List Nibble} (h : prefixRangeAllLess pfx target = true)
    (rest : List Nibble) : lexGe (pfx ++ rest) target = false := by
  have hs : side pfx target = .lt := by
    unfold prefixRangeAllLess at h
    unfold side
    dsimp only at h
    split at h
    · assumption
    · cases h
    · cases h
  rw [lexGe_eq, Radix.atLeast_eq, Radix.compare_of_side (by rw [hs]; decide), hs]
  rfl

/-! ## Searches -/

/-- A branch position, with what the children are. -/
abbrev Branching := List Nibble × (Nibble → Option ChildInfo)

/-- The first entry from the target on. -/
def seekIn (pfx target : List Nibble) (l : List Branching) : Option TrieNodeEntry :=
  (l.find? fun e => lexGe (pfx ++ e.1) target).map fun e => entryOf (pfx ++ e.1) e.2

theorem seekIn_prefixed (pfx target path : List Nibble) (l : List Branching) :
    seekIn pfx target (l.map (prefixed path)) = seekIn (pfx ++ path) target l := by
  unfold seekIn
  rw [List.find?_map, Option.map_map]
  unfold prefixed Function.comp
  simp only [List.append_assoc]

theorem seekIn_allLess {pfx target : List Nibble} (h : prefixRangeAllLess pfx target = true)
    (l : List Branching) : seekIn pfx target l = none := by
  unfold seekIn
  rw [Option.map_eq_none_iff, List.find?_eq_none]
  intro e _
  rw [lexGe_of_allLess h]
  exact Bool.false_ne_true

/-- A branch and what is below it. -/
theorem seekIn_branch (pfx target : List Nibble) (infos : Nibble → Option ChildInfo)
    (below : Nibble → List Branching) :
    seekIn pfx target (([], infos) :: (List.finRange 16).flatMap fun i => (below i).map (prefixed [i])) =
      if lexGe pfx target then some (entryOf pfx infos)
      else (List.finRange 16).findSome? fun i => seekIn (pfx ++ [i]) target (below i) := by
  unfold seekIn
  rw [List.find?_cons, List.append_nil]
  cases lexGe pfx target with
  | true =>
    rw [if_pos rfl, Option.map_some, List.append_nil]
  | false =>
    rw [if_neg Bool.false_ne_true, List.find?_flatMap, List.map_findSome?]
    exact Radix.findSome_congr fun i _ => seekIn_prefixed pfx target [i] (below i)

/-! ## Records -/

mutual

/-- The branches of a record node. -/
def nodeBranches : Node → List Branching
  | .empty => []
  | .leaf .. => []
  | .account .. => []
  | .extension path child _ => (nodeBranches child).map (prefixed path)
  | .branch children _ =>
    ([], fun i => (children i).map classifyNode) ::
      (List.finRange 16).flatMap fun i => (nodeSlotBranches (children i)).map (prefixed [i])

def nodeSlotBranches : Option Node → List Branching
  | none => []
  | some child => nodeBranches child

end

mutual

/-- **The walk in a record** finds the first branch that is not before the target. -/
theorem nodeBranchSeek_eq (n : Node) (pfx target : List Nibble) :
    nodeBranchSeek n pfx target = seekIn pfx target (nodeBranches n) := by
  match n with
  | .empty => rfl
  | .leaf path value nref => rfl
  | .account path nonce balance codeHash storage storageRoot nref => rfl
  | .extension path child nref =>
    rw [nodeBranchSeek, nodeBranches, seekIn_prefixed]
    split
    · rw [seekIn_allLess (by assumption)]
    · exact nodeBranchSeek_eq child (pfx ++ path) target
  | .branch children nref =>
    rw [nodeBranchSeek, nodeBranches, seekIn_branch]
    split
    · rfl
    · exact Radix.findSome_congr fun i _ => nodeBranchSeekSlot_eq (children i) (pfx ++ [i]) target

theorem nodeBranchSeekSlot_eq (s : Option Node) (pfx target : List Nibble) :
    nodeBranchSeekSlot s pfx target = seekIn pfx target (nodeSlotBranches s) := by
  match s with
  | none => rfl
  | some child =>
    rw [nodeBranchSeekSlot, nodeSlotBranches]
    split
    · rw [seekIn_allLess (by assumption)]
    · exact nodeBranchSeek_eq child pfx target

end

/-! ## The frontier -/

section
variable [Keccak]

/-- The branches of a record. -/
def recordBranches (bytes : Bytes) : List Branching :=
  match deserializeSubtree bytes with
  | .ok sub => nodeBranches sub.node
  | .error _ => []

def recordInfo (bytes : Bytes) (root : Hash) : ChildInfo :=
  match deserializeSubtree bytes with
  | .ok sub => classifyRecord root sub
  | .error _ => ⟨none, false⟩

/-- What a child is over the ideal store. -/
def slotInfo : RamSlot → Option ChildInfo
  | .none => none
  | .ram sub => some ⟨some (hashRam sub), sub.isInner⟩
  | .disk ptr root => some (recordInfo (nameOf ptr) root)
  | .account .. => some ⟨none, false⟩
  | .mem bytes root => some (recordInfo bytes root)

mutual

/-- The branches of a frontier over the ideal store. -/
def ramBranches : RamNode → List Branching
  | .empty => []
  | .extension path child _ => (ramBranches child).map (prefixed path)
  | .branch children _ =>
    ([], fun i => slotInfo (children i)) ::
      (List.finRange 16).flatMap fun i => (slotBranches (children i)).map (prefixed [i])

def slotBranches : RamSlot → List Branching
  | .none => []
  | .ram sub => ramBranches sub
  | .disk ptr _ => recordBranches (nameOf ptr)
  | .account .. => []
  | .mem bytes _ => recordBranches bytes

end

variable {α : Type} {K : Kind α} {s : Store} {ptrs : List DiskPtr} {memo : RecordMemo}

theorem recordBranches_eq {q : List Nibble} {t : Tree 16 α} {bytes : Bytes} {root : Hash}
    (h : Recorded K q t bytes root) : recordBranches bytes = nodeBranches (toNode K.form t) := by
  unfold recordBranches
  rw [h.read]

theorem recordInfo_eq {q : List Nibble} {t : Tree 16 α} {bytes : Bytes} {root : Hash}
    (h : Recorded K q t bytes root) :
    recordInfo bytes root = classifyRecord root ⟨K.root ++ q, toNode K.form t⟩ := by
  unfold recordInfo
  rw [h.read]

omit [Keccak] in
theorem isInner_fetch (n : RamNode) (p : List Nibble) : (mapLeaves (fetch s) n p).isInner = n.isInner := by
  cases n <;> rfl

/-- What a child of a branch is. -/
theorem classifyRamChild_run (hunits : UnitsApart ptrs) (slot : RamSlot) {p q : List Nibble} {t : Tree 16 α}
    (h : ShowsSlot K q (mapLeavesIn (fetch s) slot p) t) (hsub : ∀ x ∈ slotPtrs slot, x ∈ ptrs)
    (hm : MemoFor s ptrs memo) : ∃ memo', MemoFor s ptrs memo' ∧
      run exec (classifyRamChild slot memo) s.healthy =
        ((memo', .ok (slotInfo (mapLeavesIn (fetch s) slot p))), s.healthy) := by
  cases slot with
  | none => exact ⟨memo, hm, rfl⟩
  | ram sub =>
    refine ⟨memo, hm, ?_⟩
    rw [mapLeavesIn, slotInfo, hashRam_mapLeaves (fetch_hash s), isInner_fetch]
    rfl
  | disk ptr root =>
    change ShowsSlot K q (.mem (s.payload ptr) root) t at h
    cases h with
    | mem h =>
      obtain ⟨memo', hm', hrun⟩ := MemoFor.read hunits hm (hsub ptr List.mem_cons_self) h.read
      refine ⟨memo', hm', ?_⟩
      have hinfo : slotInfo (mapLeavesIn (fetch s) (.disk ptr root) p) =
          some (classifyRecord root ⟨K.root ++ q, toNode K.form t⟩) := congrArg some (recordInfo_eq h)
      rw [hinfo, classifyRamChild]
      unfold thenUpd
      rw [run_bind, hrun]
      rfl
  | account path nonce balance codeHash storage => exact ⟨memo, hm, rfl⟩
  | mem bytes root =>
    change ShowsSlot K q (.mem bytes root) t at h
    cases h with
    | mem h =>
      have hinfo : slotInfo (mapLeavesIn (fetch s) (.mem bytes root) p) =
          some (classifyRecord root ⟨K.root ++ q, toNode K.form t⟩) := congrArg some (recordInfo_eq h)
      refine ⟨memo, hm, ?_⟩
      rw [hinfo, classifyRamChild, h.read]
      rfl

/-- Noting the children of a branch one after the other. -/
theorem buildBranchEntry_run {child : Nibble → RecordMemo → Upd RecordMemo (Option ChildInfo)}
    {infos : Nibble → Option ChildInfo} (is : List Nibble)
    (h : ∀ i ∈ is, ∀ memo, MemoFor s ptrs memo → ∃ memo', MemoFor s ptrs memo' ∧
      run exec (child i memo) s.healthy = ((memo', .ok (infos i)), s.healthy))
    (e : TrieNodeEntry) (hm : MemoFor s ptrs memo) : ∃ memo', MemoFor s ptrs memo' ∧
      run exec (buildBranchEntry child is e memo) s.healthy =
        ((memo', .ok (some (is.foldl (fun e i => e.addChild i (infos i)) e))), s.healthy) := by
  induction is generalizing e memo with
  | nil => exact ⟨memo, hm, rfl⟩
  | cons i is ih =>
    obtain ⟨memo1, hm1, hrun⟩ := h i List.mem_cons_self memo hm
    rw [buildBranchEntry]
    unfold thenUpd
    rw [run_bind, hrun]
    exact ih (fun j hj => h j (List.mem_cons_of_mem _ hj)) _ hm1

mutual

/-- **The walk through the frontier** finds the first branch that is not before the target. -/
theorem ramBranchSeek_run (hunits : UnitsApart ptrs) (n : RamNode) {p q : List Nibble} {t : Tree 16 α}
    (h : Shows K q (mapLeaves (fetch s) n p) t) (hsub : ∀ x ∈ diskPtrs n, x ∈ ptrs) (target : List Nibble)
    {memo : RecordMemo} (hm : MemoFor s ptrs memo) : ∃ memo', MemoFor s ptrs memo' ∧
      run exec (ramBranchSeek n q target memo) s.healthy =
        ((memo', .ok (seekIn q target (ramBranches (mapLeaves (fetch s) n p)))), s.healthy) := by
  match n with
  | .empty => exact ⟨memo, hm, rfl⟩
  | .extension path child hash =>
    rw [mapLeaves] at h ⊢
    rw [ramBranchSeek, ramBranches, seekIn_prefixed]
    cases h with
    | extension hp hb hc h hh =>
      split
      · rw [seekIn_allLess (by assumption)]
        exact ⟨memo, hm, rfl⟩
      · exact ramBranchSeek_run hunits child h hsub target hm
  | .branch slots hash =>
    rw [mapLeaves] at h ⊢
    rw [ramBranchSeek, ramBranches, seekIn_branch]
    cases h with
    | branch hq hs hh =>
      have hsubs (i : Nibble) : ∀ x ∈ slotPtrs (slots i), x ∈ ptrs := fun x hx =>
        hsub x (List.mem_flatMap.mpr ⟨i, List.mem_finRange i, hx⟩)
      split
      · exact buildBranchEntry_run _ (fun i _ memo hm =>
          classifyRamChild_run hunits (slots i) (hs i) (hsubs i) hm) _ hm
      · exact seekFirst_run (fun i _ memo hm =>
          ramChildBranchSeek_run hunits (slots i) (hs i) (hsubs i) target hm) hm

theorem ramChildBranchSeek_run (hunits : UnitsApart ptrs) (slot : RamSlot) {p q : List Nibble}
    {t : Tree 16 α} (h : ShowsSlot K q (mapLeavesIn (fetch s) slot p) t)
    (hsub : ∀ x ∈ slotPtrs slot, x ∈ ptrs) (target : List Nibble) {memo : RecordMemo}
    (hm : MemoFor s ptrs memo) : ∃ memo', MemoFor s ptrs memo' ∧
      run exec (ramChildBranchSeek slot q target memo) s.healthy =
        ((memo', .ok (seekIn q target (slotBranches (mapLeavesIn (fetch s) slot p)))), s.healthy) := by
  match slot with
  | .none => exact ⟨memo, hm, rfl⟩
  | .account path nonce balance codeHash storage => exact ⟨memo, hm, rfl⟩
  | .ram sub =>
    rw [mapLeavesIn] at h ⊢
    rw [ramChildBranchSeek, slotBranches]
    cases h with
    | ram hc ht h =>
      split
      · rw [seekIn_allLess (by assumption)]
        exact ⟨memo, hm, rfl⟩
      · exact ramBranchSeek_run hunits sub h hsub target hm
  | .disk ptr root =>
    change ShowsSlot K q (.mem (s.payload ptr) root) t at h
    cases h with
    | mem h =>
      have hbranches : slotBranches (mapLeavesIn (fetch s) (.disk ptr root) p) =
          nodeBranches (toNode K.form t) := recordBranches_eq h
      rw [ramChildBranchSeek, hbranches]
      split
      · rw [seekIn_allLess (by assumption)]
        exact ⟨memo, hm, rfl⟩
      · obtain ⟨memo', hm', hrun⟩ := MemoFor.read hunits hm (hsub ptr List.mem_cons_self) h.read
        refine ⟨memo', hm', ?_⟩
        unfold thenUpd
        rw [run_bind, hrun, ← nodeBranchSeek_eq]
        rfl
  | .mem bytes root =>
    change ShowsSlot K q (.mem bytes root) t at h
    cases h with
    | mem h =>
      have hbranches : slotBranches (mapLeavesIn (fetch s) (.mem bytes root) p) =
          nodeBranches (toNode K.form t) := recordBranches_eq h
      rw [ramChildBranchSeek, hbranches]
      split
      · rw [seekIn_allLess (by assumption)]
        exact ⟨memo, hm, rfl⟩
      · refine ⟨memo, hm, ?_⟩
        rw [h.read, ← nodeBranchSeek_eq]
        rfl

end

end

end FlatMpt
