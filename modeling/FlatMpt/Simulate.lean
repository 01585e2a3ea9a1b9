import FlatMpt.Ideal

/-!
# The engine over the ideal store

Over the file the engine computes what it computes over the ideal store, and the
frontier it leaves owns exactly the records of its pointers: nothing is freed twice,
kept after a free, or forgotten.

    promoteNode_sim, makeLeafChild_sim    -- new records
    insertRam_sim, deleteRam_sim          -- one insert, one delete
    applyRamGroup_sim, applyNet_sim       -- a block
-/

namespace FlatMpt

open Prog
open Radix (commonPrefix)

/-! ## Branches -/

/-- The records of a branch's other slots. -/
def otherRecs (gs : Nibble → Multiset Rec) (i : Nibble) : Multiset Rec :=
  ∑ j ∈ Finset.univ.erase i, gs j

theorem sum_recs_at (gs : Nibble → Multiset Rec) (i : Nibble) :
    ∑ j, gs j = gs i + otherRecs gs i := (Finset.add_sum_erase _ _ (Finset.mem_univ i)).symm

theorem sum_recs_update (gs : Nibble → Multiset Rec) (i : Nibble) (g : Multiset Rec) :
    ∑ j, Function.update gs i g j = g + otherRecs gs i := by
  rw [sum_recs_at _ i, Function.update_self]
  congr 1
  refine Finset.sum_congr rfl fun j hj => ?_
  rw [Function.update_of_ne (Finset.ne_of_mem_erase hj)]

theorem placedSlot_update {ns cs : Nibble → RamSlot} {gs : Nibble → Multiset Rec}
    (h : ∀ i, PlacedSlot (ns i) (cs i) (gs i)) (i : Nibble) {s t : RamSlot} {g : Multiset Rec}
    (hs : PlacedSlot s t g) (j : Nibble) :
    PlacedSlot (Function.update ns i s j) (Function.update cs i t j) (Function.update gs i g j) := by
  by_cases hj : j = i
  · subst hj
    simpa only [Function.update_self] using hs
  · simpa only [Function.update_of_ne hj] using h j

theorem placed_update {ns cs : Nibble → RamSlot} {gs : Nibble → Multiset Rec}
    (h : ∀ i, PlacedSlot (ns i) (cs i) (gs i)) (i : Nibble) {s t : RamSlot} {g : Multiset Rec}
    (hs : PlacedSlot s t g) (hash : Option Hash) :
    Placed (.branch (Function.update ns i s) hash) (.branch (Function.update cs i t) hash)
      (g + otherRecs gs i) := by
  rw [← sum_recs_update]
  exact .branch (placedSlot_update h i hs)

theorem placed_emptyChildren (i : Nibble) :
    PlacedSlot (emptyChildren i) (emptyChildren i) ((fun _ => 0 : Nibble → Multiset Rec) i) := .none

theorem placed_single {s t : RamSlot} {g : Multiset Rec} (h : PlacedSlot s t g) (i : Nibble)
    (hash : Option Hash) : Placed (.branch (Function.update emptyChildren i s) hash)
      (.branch (Function.update emptyChildren i t) hash) g := by
  have hz : otherRecs (fun _ => 0) i = 0 := Finset.sum_eq_zero fun _ _ => rfl
  have := placed_update placed_emptyChildren i h hash
  rwa [hz, add_zero] at this

theorem placed_pair {s t s' t' : RamSlot} {g g' : Multiset Rec} (h : PlacedSlot s t g)
    (h' : PlacedSlot s' t' g') {i j : Nibble} (hij : i ≠ j) (hash : Option Hash) :
    Placed (.branch (Function.update (Function.update emptyChildren i s) j s') hash)
      (.branch (Function.update (Function.update emptyChildren i t) j t') hash) (g' + g) := by
  have hone := placedSlot_update placed_emptyChildren i h
  have hg : otherRecs (Function.update (fun _ => 0) i g) j = g := by
    have hsum := sum_recs_at (Function.update (fun _ => 0) i g) j
    rw [Function.update_of_ne hij.symm, zero_add, sum_recs_update] at hsum
    rw [← hsum]
    have hz : otherRecs (fun _ => 0) i = 0 := Finset.sum_eq_zero fun _ _ => rfl
    rw [hz, add_zero]
  have := placed_update hone j h' hash
  rwa [hg] at this

theorem placed_underCommon {path : List Nibble} {common : Nat} {ns cs : Nibble → RamSlot}
    {g : Multiset Rec} (h : Placed (.branch ns none) (.branch cs none) g) :
    Placed (underCommon path common ns) (underCommon path common cs) g := by
  unfold underCommon
  split
  · exact h
  · exact .extension h

theorem placed_wrapPath {path : List Nibble} {n c : RamNode} {g : Multiset Rec} (h : Placed n c g) :
    Placed (wrapPath path n) (wrapPath path c) g := by
  unfold wrapPath
  split
  · exact h
  · exact .extension h

theorem placed_mergeExtension {path : List Nibble} {n c : RamNode} {g : Multiset Rec}
    (h : Placed n c g) : Placed (mergeExtension path n) (mergeExtension path c) g := by
  cases h with
  | empty => exact .extension .empty
  | extension h => exact .extension h
  | branch h => exact .extension (.branch h)

/-- Merging a stretch of path is the same in both stores. -/
theorem placed_extendBy (edge : List Nibble) {n c : RamNode} {g : Multiset Rec} (h : Placed n c g) :
    (∃ n' c', extendBy edge n = .ok n' ∧ extendBy edge c = .ok c' ∧ Placed n' c' g) ∨
      ∃ e, extendBy edge n = .error e ∧ extendBy edge c = .error e := by
  cases h with
  | empty => exact .inr ⟨_, rfl, rfl⟩
  | extension h => exact .inl ⟨_, _, rfl, rfl, .extension h⟩
  | branch h => exact .inl ⟨_, _, rfl, rfl, .extension (.branch h)⟩

/-- Two nibbles after the common part differ. -/
theorem head_ne_of_common {path rest oldRest newRest : List Nibble} {i j : Nibble}
    (h : path.drop (commonPrefix path rest) = i :: oldRest)
    (h' : rest.drop (commonPrefix path rest) = j :: newRest) : i ≠ j := by
  obtain ⟨l, p', k', rfl, rfl, hl, hne⟩ := Radix.commonPrefix_spec path rest
  rw [hl, List.drop_left] at h h'
  exact hne i oldRest j newRest h h'

/-! ## Outcomes of a delete -/

section
variable {c : Prop} {W : Holds} {ok : (r : Req) → Resp r → Prop}

/-- A node after a delete: what is handed to the caller is no longer below it. -/
inductive DeletedNode : RamNode → RamNode → RamDelete → RamDelete → Multiset Rec → Prop
  | absent {n n' : RamNode} {g : Multiset Rec} (h : Placed n n' g) : DeletedNode n n' .absent .absent g
  | changed {n n' : RamNode} {g : Multiset Rec} (h : Placed n n' g) :
      DeletedNode n n' .changed .changed g
  | removed : DeletedNode .empty .empty .removed .removed 0
  | collapsed {edge : List Nibble} {s t : RamSlot} {g : Multiset Rec} (h : PlacedSlot s t g) :
      DeletedNode .empty .empty (.collapsed edge s) (.collapsed edge t) g

inductive DeletedSlot : RamSlot → RamSlot → RamDelete → RamDelete → Multiset Rec → Prop
  | absent {s t : RamSlot} {g : Multiset Rec} (h : PlacedSlot s t g) : DeletedSlot s t .absent .absent g
  | changed {s t : RamSlot} {g : Multiset Rec} (h : PlacedSlot s t g) :
      DeletedSlot s t .changed .changed g
  | removed : DeletedSlot .none .none .removed .removed 0

theorem PlacedSlot.isSome_eq {s t : RamSlot} {g : Multiset Rec} (h : PlacedSlot s t g) :
    t.isSome = s.isSome := by
  cases h <;> rfl

theorem PlacedSlot.recs_eq_zero {s t : RamSlot} {g : Multiset Rec} (h : PlacedSlot s t g)
    (hs : s.isSome = false) : g = 0 := by
  cases h with
  | none => rfl
  | _ => cases hs

theorem ramSurvivors_eq {ns cs : Nibble → RamSlot} {gs : Nibble → Multiset Rec}
    (h : ∀ i, PlacedSlot (ns i) (cs i) (gs i)) : ramSurvivors cs = ramSurvivors ns := by
  unfold ramSurvivors
  congr 1
  funext i
  rw [(h i).isSome_eq]

theorem recs_of_not_survivor {ns cs : Nibble → RamSlot} {gs : Nibble → Multiset Rec}
    (h : ∀ i, PlacedSlot (ns i) (cs i) (gs i)) {i : Nibble} (hi : i ∉ ramSurvivors ns) : gs i = 0 := by
  refine (h i).recs_eq_zero ?_
  unfold ramSurvivors at hi
  simpa using hi

theorem refoldBranch_sim {ns cs : Nibble → RamSlot} {gs : Nibble → Multiset Rec}
    (h : ∀ i, PlacedSlot (ns i) (cs i) (gs i)) :
    AgreeOn c Placed DeletedNode (refoldBranch ns) (refoldBranch cs) (∑ i, gs i) := by
  have hz : ∀ i, i ∉ ramSurvivors ns → gs i = 0 := fun i hi => recs_of_not_survivor h hi
  unfold refoldBranch
  rw [ramSurvivors_eq h]
  split
  · rename_i hs
    have hsum : ∑ i, gs i = 0 := Finset.sum_eq_zero fun i _ => hz i (by rw [hs]; exact List.not_mem_nil)
    rw [hsum]
    exact DeletedNode.removed
  · rename_i j hs
    have hsum : ∑ i, gs i = gs j := by
      rw [sum_recs_at gs j, otherRecs, Finset.sum_eq_zero, add_zero]
      intro i hi
      refine hz i ?_
      rw [hs, List.mem_singleton]
      exact Finset.ne_of_mem_erase hi
    rw [hsum]
    have hj := h j
    generalize ns j = s, cs j = t, gs j = g at hj
    cases hj with
    | ram hn =>
      rcases placed_extendBy [j] hn with ⟨n', c', hn', hc', hp⟩ | ⟨e, hn', hc'⟩
      · simp only [hn', hc']
        exact DeletedNode.changed hp
      · simp only [hn', hc']
        exact Or.inr ⟨rfl, _, .empty⟩
    | none => exact DeletedNode.collapsed .none
    | disk => exact DeletedNode.collapsed .disk
    | account hn => exact DeletedNode.collapsed (.account hn)
    | mem => exact DeletedNode.collapsed .mem
  · exact DeletedNode.changed (.branch h)

theorem afterChild_sim {ns cs : Nibble → RamSlot} {gs : Nibble → Multiset Rec}
    (h : ∀ i, PlacedSlot (ns i) (cs i) (gs i)) (hash : Option Hash) (i : Nibble) {s t : RamSlot}
    {out out' : RamDelete} {g : Multiset Rec} (hd : DeletedSlot s t out out' g) :
    AgreeOn c Placed DeletedNode (afterChild (Function.update ns i s) hash out)
      (afterChild (Function.update cs i t) hash out') (g + otherRecs gs i) := by
  cases hd with
  | absent hs => exact DeletedNode.absent (placed_update h i hs hash)
  | changed hs => exact DeletedNode.changed (placed_update h i hs none)
  | removed =>
    rw [← sum_recs_update]
    exact refoldBranch_sim (placedSlot_update h i .none)

theorem afterExtension_sim {n n' : RamNode} {out out' : RamDelete} {g : Multiset Rec}
    (h : DeletedNode n n' out out' g) (path : List Nibble) (hash : Option Hash) :
    AgreeOn c Placed DeletedNode (afterExtension path n hash out) (afterExtension path n' hash out')
      g := by
  cases h with
  | absent h => exact DeletedNode.absent (.extension h)
  | changed h => exact DeletedNode.changed (placed_mergeExtension h)
  | removed => exact DeletedNode.removed
  | collapsed h => exact DeletedNode.collapsed h

mutual

/-- The records are those of the pointers, in slot order. -/
theorem Placed.recs {n n' : RamNode} {g : Multiset Rec} (h : Placed n n' g) :
    ∃ payloads, (diskPtrs n).length = payloads.length ∧ diskPtrs n' = payloads.map named ∧
      g = recsOf (diskPtrs n) payloads := by
  match h with
  | .empty => exact ⟨[], rfl, rfl, rfl⟩
  | .extension h => exact h.recs
  | @Placed.branch ns cs _ gs h =>
    have hi : ∀ i, ∃ payloads, (slotPtrs (ns i)).length = payloads.length ∧
        slotPtrs (cs i) = payloads.map named ∧ gs i = recsOf (slotPtrs (ns i)) payloads :=
      fun i => (h i).recs
    choose bs h1 h2 h3 using hi
    have hall : ∀ is : List Nibble,
        (is.flatMap fun i => slotPtrs (ns i)).length = (is.flatMap bs).length ∧
        (is.flatMap fun i => slotPtrs (cs i)) = (is.flatMap bs).map named ∧
        (is.map gs).sum = recsOf (is.flatMap fun i => slotPtrs (ns i)) (is.flatMap bs) := by
      intro is
      induction is with
      | nil => exact ⟨rfl, rfl, rfl⟩
      | cons i is ih =>
        obtain ⟨l1, l2, l3⟩ := ih
        refine ⟨?_, ?_, ?_⟩
        · rw [List.flatMap_cons, List.flatMap_cons, List.length_append, List.length_append, h1, l1]
        · rw [List.flatMap_cons, List.flatMap_cons, List.map_append, h2, l2]
        · rw [List.flatMap_cons, List.flatMap_cons, recsOf_append (h1 i), List.map_cons,
            List.sum_cons, h3, l3]
    obtain ⟨l1, l2, l3⟩ := hall (List.finRange 16)
    exact ⟨_, l1, l2, (Fin.sum_univ_def gs).trans l3⟩

theorem PlacedSlot.recs {s t : RamSlot} {g : Multiset Rec} (h : PlacedSlot s t g) :
    ∃ payloads, (slotPtrs s).length = payloads.length ∧ slotPtrs t = payloads.map named ∧
      g = recsOf (slotPtrs s) payloads := by
  match h with
  | .none => exact ⟨[], rfl, rfl, rfl⟩
  | .ram h => exact h.recs
  | @PlacedSlot.disk _ payload _ => exact ⟨[payload], rfl, rfl, rfl⟩
  | .account h => exact h.recs
  | .mem => exact ⟨[], rfl, rfl, rfl⟩

end

theorem freeAll_sim (ptrs ptrs' : List DiskPtr) (payloads : List Bytes)
    (hlen : ptrs.length = payloads.length) (hlen' : ptrs'.length = payloads.length) :
    IdealSim W ok (freeAll ptrs) (freeAll ptrs') (recsOf ptrs payloads) fun _ _ g => g = 0 := by
  induction ptrs generalizing ptrs' payloads with
  | nil =>
    cases payloads with
    | cons _ _ => cases hlen
    | nil =>
      cases ptrs' with
      | cons _ _ => cases hlen'
      | nil => exact rfl
  | cons p ptrs ih =>
    cases payloads with
    | nil => cases hlen
    | cons b payloads =>
      cases ptrs' with
      | nil => cases hlen'
      | cons p' ptrs' =>
        have hrec : recsOf (p :: ptrs) (b :: payloads) = {(p, b)} + recsOf ptrs payloads := rfl
        rw [hrec]
        exact free_sim (ih ptrs' payloads (Nat.succ.inj hlen) (Nat.succ.inj hlen'))

theorem freeRamRecords_sim {n n' : RamNode} {g : Multiset Rec} (h : Placed n n' g) :
    IdealSim W ok (freeRamRecords n) (freeRamRecords n') g fun _ _ g => g = 0 := by
  obtain ⟨payloads, hlen, hmap, rfl⟩ := h.recs
  exact freeAll_sim _ _ _ hlen (by rw [hmap, List.length_map])

end

section
variable [Keccak] {c : Prop} {W : Holds} {ok : (r : Req) → Resp r → Prop} (hok : Faithful ok c)

/-! ## Records -/

include hok in
theorem readLazy_sim {p : DiskPtr} {payload : Bytes} {g : Multiset Rec}
    (hv : W.Visible g (p, payload)) :
    IdealSim W ok (readLazy p) (readLazy (named payload)) g
      (Agree c fun a b g' => b = a ∧ deserializeSubtree payload = .ok a ∧ g' = g) := by
  refine attempt_sim (read_sim hok hv) ?_
  rintro _ bytes g' ⟨rfl, rfl, rfl⟩
  cases hd : deserializeSubtree bytes with
  | ok s => exact ⟨rfl, rfl, rfl⟩
  | error e => exact Or.inr rfl

omit [Keccak] in
theorem encode_sim (subtree : DiskSubtree) :
    IdealSim W ok (encode subtree) (encode subtree) 0 (Agree c Same) := by
  unfold encode
  cases serializeSubtree subtree with
  | ok payload => exact ⟨rfl, rfl⟩
  | error e => exact refuse_sim e

theorem makeMemLeaf_sim (subtree : DiskSubtree) :
    IdealSim W ok (makeMemLeaf subtree) (makeMemLeaf subtree) 0 (Agree c PlacedSlot) := by
  refine attempt_sim (encode_sim subtree) ?_
  rintro a b g' ⟨rfl, rfl⟩
  exact .mem

include hok in
theorem makeDiskLeaf_sim (subtree : DiskSubtree) :
    IdealSim W ok (makeDiskLeaf subtree) (makeDiskLeaf subtree) 0 (Agree c PlacedSlot) := by
  refine attempt_sim (encode_sim subtree) ?_
  rintro a b g' ⟨rfl, rfl⟩
  refine attempt_sim (writePayload_sim hok a) ?_
  rintro p q g ⟨rfl, rfl⟩
  exact .disk

include hok in
theorem makeLeafChild_sim (env : Env) (ram : Bool) (subtree : DiskSubtree) :
    IdealSim W ok (makeLeafChild env ram subtree) (makeLeafChild env ram subtree) 0
      (Agree c PlacedSlot) := by
  unfold makeLeafChild
  split
  · exact makeMemLeaf_sim subtree
  · exact makeDiskLeaf_sim hok subtree

/-! ## Promotion -/

/-- A lifted child in both stores. -/
inductive PlacedLifted : Lifted → Lifted → Multiset Rec → Prop
  | none : PlacedLifted .none .none 0
  | done {s t : RamSlot} {g : Multiset Rec} (h : PlacedSlot s t g) : PlacedLifted (.done s) (.done t) g
  | pending {payload : Bytes} {root : Hash} :
      PlacedLifted (.pending payload root) (.pending payload root) 0

/-- All lifted children. -/
def PlacedLifts (a b : Nibble → Lifted) (g : Multiset Rec) : Prop :=
  ∃ gs : Nibble → Multiset Rec, g = ∑ i, gs i ∧ ∀ i, PlacedLifted (a i) (b i) (gs i)

omit [Keccak] in
theorem liftAll_sim {lift : Nibble → Act Lifted}
    (hlift : ∀ i, IdealSim W ok (lift i) (lift i) 0 (Agree c PlacedLifted)) (is : List Nibble)
    (his : is.Nodup) (a b : Nibble → Lifted) (gs : Nibble → Multiset Rec)
    (h : ∀ i, PlacedLifted (a i) (b i) (gs i)) (hz : ∀ i ∈ is, gs i = 0) :
    IdealSim W ok (liftAll lift is a) (liftAll lift is b) (∑ i, gs i) (Agree c PlacedLifts) := by
  induction is generalizing a b gs with
  | nil => exact ⟨gs, rfl, h⟩
  | cons i is ih =>
    obtain ⟨hi, his⟩ := List.nodup_cons.mp his
    have hsum : ∑ j, gs j = 0 + otherRecs gs i := by
      rw [sum_recs_at gs i, hz i List.mem_cons_self]
    rw [hsum]
    refine attempt_frame_sim (hlift i) fun l l' g' hl => ?_
    rw [← sum_recs_update]
    refine ih his _ _ _ (fun j => ?_) fun j hj => ?_
    · by_cases hji : j = i
      · subst hji
        simpa only [Function.update_self] using hl
      · simpa only [Function.update_of_ne hji] using h j
    · have hji : j ≠ i := by
        rintro rfl
        exact hi hj
      rw [Function.update_of_ne hji]
      exact hz j (List.mem_cons_of_mem _ hj)

omit [Keccak] in
theorem pendingPayloads_eq {a b : Nibble → Lifted} {gs : Nibble → Multiset Rec}
    (h : ∀ i, PlacedLifted (a i) (b i) (gs i)) (is : List Nibble) :
    pendingPayloads b is = pendingPayloads a is := by
  induction is with
  | nil => rfl
  | cons i is ih =>
    have hi := h i
    unfold pendingPayloads
    generalize a i = x, b i = y, gs i = g at hi
    cases hi with
    | none => exact ih
    | done _ => exact ih
    | pending => exact congrArg _ ih

omit [Keccak] in
/-- Records of a slot that was empty before. -/
theorem sum_recs_put {hs : Nibble → Multiset Rec} {i : Nibble} (hi : hs i = 0) (g : Multiset Rec) :
    ∑ j, Function.update hs i g j = g + ∑ j, hs j := by
  rw [sum_recs_update, sum_recs_at hs i, hi, zero_add]

omit [Keccak] in
/-- The branch over lifted children and written records owns exactly these. -/
theorem assignPtrs_placed {a b : Nibble → Lifted} {gs : Nibble → Multiset Rec}
    (h : ∀ i, PlacedLifted (a i) (b i) (gs i)) (is : List Nibble) (his : is.Nodup)
    (ptrs : List DiskPtr) (payloads : List Bytes)
    (hp : (ptrs = [] ∧ payloads = []) ∨
      ptrs.length = payloads.length ∧ payloads = pendingPayloads a is) :
    ∃ hs : Nibble → Multiset Rec,
      (∀ i, PlacedSlot (assignPtrs a is ptrs i) (assignPtrs b is (payloads.map named) i) (hs i)) ∧
      (∀ i, i ∉ is → hs i = 0) ∧ ∑ i, hs i = (is.map gs).sum + recsOf ptrs payloads := by
  induction is generalizing ptrs payloads with
  | nil =>
    have hnil : recsOf ptrs payloads = 0 := by
      rcases hp with ⟨rfl, rfl⟩ | ⟨-, rfl⟩
      · rfl
      · unfold recsOf pendingPayloads
        rw [List.zip_nil_right]
        rfl
    exact ⟨fun _ => 0, fun i => .none, fun i _ => rfl, by simp [hnil]⟩
  | cons i is ih =>
    obtain ⟨hi, his⟩ := List.nodup_cons.mp his
    have hlift := h i
    rw [List.map_cons, List.sum_cons]
    unfold assignPtrs
    unfold pendingPayloads at hp
    generalize a i = x, b i = y, gs i = g at hlift hp
    cases hlift with
    | none =>
      obtain ⟨hs, hslot, hz, hsum⟩ := ih his ptrs payloads hp
      exact ⟨hs, hslot, fun j hj => hz j fun hm => hj (List.mem_cons_of_mem _ hm), by
        rw [hsum, zero_add]⟩
    | done hd =>
      obtain ⟨hs, hslot, hz, hsum⟩ := ih his ptrs payloads hp
      refine ⟨_, placedSlot_update hslot i hd, fun j hj => ?_, ?_⟩
      · rw [Function.update_of_ne (List.ne_of_not_mem_cons hj)]
        exact hz j fun hm => hj (List.mem_cons_of_mem _ hm)
      · rw [sum_recs_put (hz i hi), hsum, add_assoc]
    | @pending payload root =>
      rcases hp with ⟨rfl, rfl⟩ | ⟨hlen, rfl⟩
      · obtain ⟨hs, hslot, hz, hsum⟩ := ih his [] [] (.inl ⟨rfl, rfl⟩)
        exact ⟨hs, hslot, fun j hj => hz j fun hm => hj (List.mem_cons_of_mem _ hm), by
          rw [hsum, zero_add]⟩
      · cases ptrs with
        | nil => cases hlen
        | cons ptr ptrs =>
          obtain ⟨hs, hslot, hz, hsum⟩ := ih his ptrs (pendingPayloads a is)
            (.inr ⟨Nat.succ.inj hlen, rfl⟩)
          refine ⟨_, placedSlot_update hslot i .disk, fun j hj => ?_, ?_⟩
          · rw [Function.update_of_ne (List.ne_of_not_mem_cons hj)]
            exact hz j fun hm => hj (List.mem_cons_of_mem _ hm)
          · rw [sum_recs_put (hz i hi), hsum, zero_add, add_left_comm]
            rfl

omit [Keccak] in
include hok in
theorem liftBranch_sim (ram : Bool) {lift : Nibble → Act Lifted}
    (hlift : ∀ i, IdealSim W ok (lift i) (lift i) 0 (Agree c PlacedLifted)) :
    IdealSim W ok (liftBranch ram lift) (liftBranch ram lift) 0 (Agree c Placed) := by
  have hall := liftAll_sim hlift (List.finRange 16) (List.nodup_finRange 16) _ _ _
    (fun _ => PlacedLifted.none) fun _ _ => rfl
  rw [Finset.sum_const_zero] at hall
  refine attempt_sim hall ?_
  rintro a b _ ⟨gs, rfl, hab⟩
  have hsum : ((List.finRange 16).map gs).sum = ∑ i, gs i := (Fin.sum_univ_def gs).symm
  by_cases hr : ram = true
  · rw [if_pos hr, if_pos hr]
    obtain ⟨hs, hslot, -, hg⟩ := assignPtrs_placed hab (List.finRange 16) (List.nodup_finRange 16)
      [] [] (.inl ⟨rfl, rfl⟩)
    rw [hsum] at hg
    have hrec : recsOf [] [] = 0 := rfl
    rw [hrec, add_zero] at hg
    rw [← hg]
    exact Placed.branch hslot
  · rw [if_neg hr, if_neg hr, pendingPayloads_eq hab, ← zero_add (∑ i, gs i)]
    refine attempt_frame_sim (writeBatch_sim hok _) ?_
    rintro ptrs _ _ ⟨hlen, rfl, rfl⟩
    obtain ⟨hs, hslot, -, hg⟩ := assignPtrs_placed hab (List.finRange 16) (List.nodup_finRange 16)
      ptrs _ (.inr ⟨hlen, rfl⟩)
    rw [hsum, add_comm] at hg
    rw [← hg]
    exact Placed.branch hslot

mutual

theorem promoteChild_sim (hok : Faithful ok c) (env : Env) (node : Option Node) (ram : Bool)
    (pfx : List Nibble) : IdealSim W ok (promoteChild env node ram pfx) (promoteChild env node ram pfx)
      0 (Agree c PlacedLifted) := by
  match node with
  | none => exact PlacedLifted.none
  | some node =>
    unfold promoteChild
    split
    · exact attempt_sim (promoteOversized_sim hok env node ram pfx) fun s t g hs => PlacedLifted.done hs
    · split
      · exact attempt_sim (makeMemLeaf_sim _) fun s t g hs => PlacedLifted.done hs
      · refine attempt_sim (encode_sim _) ?_
        rintro _ payload _ ⟨rfl, rfl⟩
        exact PlacedLifted.pending

theorem promoteOversized_sim (hok : Faithful ok c) (env : Env) (node : Node) (ram : Bool)
    (pfx : List Nibble) :
    IdealSim W ok (promoteOversized env node ram pfx) (promoteOversized env node ram pfx) 0
      (Agree c PlacedSlot) := by
  match node with
  | .branch children _ =>
    exact attempt_sim (liftBranch_sim hok ram fun i => promoteChild_sim hok env (children i) ram _)
      fun n n' g hn => PlacedSlot.ram hn
  | .extension path (.branch children _) _ =>
    exact attempt_sim (liftBranch_sim hok ram fun i => promoteChild_sim hok env (children i) ram _)
      fun n n' g hn => PlacedSlot.ram (placed_wrapPath hn)
  | .extension _ .empty _ => exact Or.inr rfl
  | .extension _ (.leaf ..) _ => exact Or.inr rfl
  | .extension _ (.extension ..) _ => exact Or.inr rfl
  | .extension _ (.account ..) _ => exact Or.inr rfl
  | .account path nonce balance codeHash (.branch children _) _ _ =>
    exact attempt_sim (liftBranch_sim hok env.hot fun i =>
      promoteChild_sim hok env (children i) env.hot _) fun n n' g hn => PlacedSlot.account hn
  | .account path nonce balance codeHash (.extension spath (.branch children _) _) _ _ =>
    exact attempt_sim (liftBranch_sim hok env.hot fun i =>
      promoteChild_sim hok env (children i) env.hot _)
      fun n n' g hn => PlacedSlot.account (placed_wrapPath hn)
  | .account _ _ _ _ .empty _ _ => exact Or.inr rfl
  | .account _ _ _ _ (.leaf ..) _ _ => exact Or.inr rfl
  | .account _ _ _ _ (.account ..) _ _ => exact Or.inr rfl
  | .account _ _ _ _ (.extension _ .empty _) _ _ => exact Or.inr rfl
  | .account _ _ _ _ (.extension _ (.leaf ..) _) _ _ => exact Or.inr rfl
  | .account _ _ _ _ (.extension _ (.extension ..) _) _ _ => exact Or.inr rfl
  | .account _ _ _ _ (.extension _ (.account ..) _) _ _ => exact Or.inr rfl
  | .empty => exact refuse_sim _
  | .leaf .. => exact refuse_sim _

end

include hok

theorem promoteNode_sim (env : Env) (ram : Bool) (subtree : DiskSubtree) :
    IdealSim W ok (promoteNode env ram subtree) (promoteNode env ram subtree) 0 (Agree c Placed) := by
  unfold promoteNode
  split
  · exact liftBranch_sim hok ram fun i => promoteChild_sim hok env _ ram _
  · exact attempt_sim (liftBranch_sim hok ram fun i => promoteChild_sim hok env _ ram _)
      fun n n' g hn => placed_wrapPath hn
  · exact Or.inr rfl

theorem promoteToRam_sim (env : Env) (ram : Bool) (subtree : DiskSubtree) :
    IdealSim W ok (promoteToRam env ram subtree) (promoteToRam env ram subtree) 0
      (Agree c PlacedSlot) :=
  attempt_sim (promoteNode_sim hok env ram subtree) fun _ _ _ hn => PlacedSlot.ram hn

theorem promoteAccountToRam_sim (env : Env) (ram : Bool) (subtree : DiskSubtree) :
    IdealSim W ok (promoteAccountToRam env ram subtree) (promoteAccountToRam env ram subtree) 0
      (Agree c PlacedSlot) := by
  unfold promoteAccountToRam
  split
  · exact attempt_sim (promoteNode_sim hok env ram _) fun _ _ _ hn => PlacedSlot.account hn
  · exact Or.inr rfl

/-! ## Insertion -/

theorem placeLeaf_sim (env : Env) (ram : Bool) (pfx : List Nibble) (key : Key) (op : LeafOp) :
    IdealSim W ok (placeLeaf env ram pfx key op) (placeLeaf env ram pfx key op) 0
      (Agree c PlacedSlot) :=
  attempt_pure_sim fun _ _ => makeLeafChild_sim hok env ram _

theorem rewriteMem_sim (env : Env) (ram : Bool) (subtree : DiskSubtree) :
    IdealSim W ok (rewriteMem env ram subtree) (rewriteMem env ram subtree) 0
      (Agree c PlacedSlot) := by
  unfold rewriteMem
  split
  · exact promoteToRam_sim hok env _ subtree
  · split
    · exact promoteAccountToRam_sim hok env _ subtree
    · exact makeMemLeaf_sim subtree

omit hok [Keccak] in
/-- A new slot ends the call. -/
theorem attempt_slot_sim {α : Type} {p q : Act RamSlot} {s t : RamSlot} (a : α)
    {g : Multiset Rec} (h : IdealSim W ok p q g (Agree c PlacedSlot)) (hs : ∃ g0, PlacedSlot s t g0) :
    IdealSim W ok (attempt p (fun e => (s, Except.error e)) fun slot => .pure (slot, .ok a))
      (attempt q (fun e => (t, Except.error e)) fun slot => .pure (slot, .ok a)) g
      (AgreeOn c PlacedSlot (Left PlacedSlot)) :=
  attempt_on_sim h hs fun _ _ _ hs => same_on_sim a hs

omit hok [Keccak] in
/-- The old record is freed, then the new one made. -/
theorem freed_sim {α : Type} {ptr : DiskPtr} {payload : Bytes} {root : Hash} {p q : Act RamSlot}
    (a : α) (h : IdealSim W ok p q 0 (Agree c PlacedSlot)) :
    IdealSim W ok (.step (.free ptr) fun _ => attempt p
        (fun e => ((RamSlot.disk ptr root), Except.error e)) fun slot => .pure (slot, .ok a))
      (.step (.free (named payload)) fun _ => attempt q
        (fun e => ((RamSlot.disk (named payload) root), Except.error e)) fun slot =>
        .pure (slot, .ok a)) {(ptr, payload)} (AgreeOn c PlacedSlot (Left PlacedSlot)) := by
  rw [← add_zero {(ptr, payload)}]
  exact free_sim (attempt_slot_sim a h ⟨_, .disk⟩)

theorem rewriteDisk_sim (env : Env) (ram : Bool) (ptr : DiskPtr) (payload : Bytes) (root : Hash)
    (subtree : DiskSubtree) :
    IdealSim W ok (rewriteDisk env ram ptr root subtree)
      (rewriteDisk env ram (named payload) root subtree) {(ptr, payload)}
      (AgreeOn c PlacedSlot (Left PlacedSlot)) := by
  unfold rewriteDisk
  split
  · exact freed_sim () (promoteToRam_sim hok env _ subtree)
  · split
    · exact freed_sim () (promoteAccountToRam_sim hok env _ subtree)
    · split
      · exact freed_sim () (makeMemLeaf_sim subtree)
      · refine attempt_pure_on_sim ⟨_, .disk⟩ fun bytes _ => ?_
        rw [← add_zero {(ptr, payload)}]
        refine free_sim (attempt_on_sim (writePayload_sim hok bytes) ⟨_, .disk⟩ ?_)
        rintro p q g ⟨rfl, rfl⟩
        exact same_on_sim () .disk

omit hok

mutual

theorem insertRam_sim (hok : Faithful ok c) (env : Env) {n n' : RamNode} {g : Multiset Rec}
    (hn : Placed n n' g) (pfx : List Nibble) (key : Key) (op : LeafOp) (ram : Bool) :
    IdealSim W ok (insertRam env n pfx key op ram) (insertRam env n' pfx key op ram) g
      (AgreeOn c Placed (Left Placed)) := by
  match hn with
  | .empty =>
    unfold insertRam
    split
    · exact error_on_sim _ ⟨_, .empty⟩
    · exact attempt_on_sim (placeLeaf_sim hok env ram _ key op) ⟨_, .empty⟩
        fun s t g hs => same_on_sim () (placed_single hs _ _)
  | .extension hn =>
    unfold insertRam
    simp only
    split
    · split
      · rename_i hold hnew
        rw [← zero_add g]
        refine attempt_on_frame_sim (placeLeaf_sim hok env ram _ key op) ⟨_, .empty⟩
          fun s t g' hs => same_on_sim () (placed_underCommon ?_)
        exact placed_pair (.ram (placed_wrapPath hn)) hs (head_ne_of_common hold hnew) none
      · exact error_on_sim _ ⟨_, .empty⟩
    · refine thenUpd_sim (fun child => .extension _ child none) (fun child => .extension _ child none)
        (insertRam_sim hok env hn _ key op ram) (fun _ _ => rfl) (fun _ _ => rfl)
        (fun s t g0 hs => ⟨g0, .extension hs⟩) ?_
      rintro s t _ _ g' ⟨hs, rfl⟩
      exact same_on_sim _ (Placed.extension hs)
  | @Placed.branch ns cs _ gs hs =>
    unfold insertRam
    split
    · exact error_on_sim _ ⟨_, .branch hs⟩
    · split
      · exact error_on_sim _ ⟨_, .branch hs⟩
      · rename_i idx _
        rw [sum_recs_at gs idx]
        refine thenUpd_frame_sim (fun slot => .branch (Function.update ns idx slot) none)
          (fun slot => .branch (Function.update cs idx slot) none)
          (insertIntoChild_sim hok env (hs idx) _ key op ram) (fun _ _ => rfl) (fun _ _ => rfl)
          (fun s t g0 hst => ⟨_, placed_update hs idx hst none⟩) ?_
        rintro s t _ _ g' ⟨hst, rfl⟩
        exact same_on_sim _ (placed_update hs idx hst none)

theorem insertIntoChild_sim (hok : Faithful ok c) (env : Env) {s s' : RamSlot} {g : Multiset Rec}
    (hs : PlacedSlot s s' g) (pfx : List Nibble) (key : Key) (op : LeafOp) (ram : Bool) :
    IdealSim W ok (insertIntoChild env s pfx key op ram) (insertIntoChild env s' pfx key op ram) g
      (AgreeOn c PlacedSlot (Left PlacedSlot)) := by
  match hs with
  | .ram hn =>
    unfold insertIntoChild
    refine thenUpd_sim RamSlot.ram RamSlot.ram (insertRam_sim hok env hn pfx key op ram)
      (fun _ _ => rfl) (fun _ _ => rfl) (fun s t g0 hs => ⟨g0, .ram hs⟩) ?_
    rintro s t _ _ g' ⟨hs, rfl⟩
    exact same_on_sim _ (PlacedSlot.ram hs)
  | .mem =>
    unfold insertIntoChild
    refine attempt_pure_on_sim ⟨_, .none⟩ fun subtree _ => ?_
    refine attempt_pure_on_sim ⟨_, .none⟩ fun node _ => ?_
    exact attempt_slot_sim () (rewriteMem_sim hok env ram _) ⟨_, .none⟩
  | @PlacedSlot.disk ptr payload root =>
    unfold insertIntoChild
    refine attempt_on_sim (readLazy_sim hok (.inl (Multiset.mem_singleton_self _))) ⟨_, .disk⟩ ?_
    rintro subtree _ _ ⟨rfl, -, rfl⟩
    exact attempt_pure_on_sim ⟨_, .disk⟩ fun node _ => rewriteDisk_sim hok env ram ptr payload root _
  | @PlacedSlot.account path nonce balance codeHash _ _ _ hn =>
    unfold insertIntoChild
    simp only
    split
    · split
      · refine thenUpd_sim (.account path nonce balance codeHash) (.account path nonce balance codeHash)
          (insertRam_sim hok env hn _ _ _ false) (fun _ _ => rfl) (fun _ _ => rfl)
          (fun s t g0 hs => ⟨g0, .account hs⟩) ?_
        rintro s t _ _ g' ⟨hs, rfl⟩
        exact same_on_sim _ (PlacedSlot.account hs)
      · exact same_on_sim () (PlacedSlot.account hn)
      · exact error_on_sim _ ⟨_, .account hn⟩
    · split
      · rename_i hold hnew
        rw [← zero_add g]
        refine attempt_on_frame_sim (placeLeaf_sim hok env ram _ key op) ⟨_, .none⟩
          fun s t g' hs => same_on_sim () (.ram (placed_underCommon ?_))
        exact placed_pair (.account hn) hs (head_ne_of_common hold hnew) none
      · exact error_on_sim _ ⟨_, .none⟩
  | .none =>
    unfold insertIntoChild
    exact attempt_slot_sim () (placeLeaf_sim hok env ram pfx key op) ⟨_, .none⟩

end

include hok

/-! ## Deletion -/

theorem rehomeChild_sim (env : Env) (ram : Bool) {s t : RamSlot} {g : Multiset Rec}
    (h : PlacedSlot s t g) (edge pfx : List Nibble) :
    IdealSim W ok (rehomeChild env ram s edge pfx) (rehomeChild env ram t edge pfx) g
      (Agree c PlacedSlot) := by
  cases h with
  | none => exact fail_sim _
  | ram hn =>
    rcases placed_extendBy edge hn with ⟨n', c', hn', hc', hp⟩ | ⟨e, hn', hc'⟩
    · simp only [rehomeChild, hn', hc']
      exact PlacedSlot.ram hp
    · simp only [rehomeChild, hn', hc']
      exact Or.inr rfl
  | disk =>
    refine attempt_sim (readLazy_sim hok (.inl (Multiset.mem_singleton_self _))) ?_
    rintro subtree _ g ⟨rfl, -, rfl⟩
    refine attempt_pure_sim fun node _ => ?_
    rw [← add_zero {(_, _)}]
    exact free_sim (makeLeafChild_sim hok env ram _)
  | mem =>
    refine attempt_pure_sim fun subtree _ => ?_
    exact attempt_pure_sim fun node _ => makeMemLeaf_sim _
  | account hn => exact ok_sim (PlacedSlot.account hn)

theorem materializeStorageSurvivor_sim {s t : RamSlot} {g : Multiset Rec} (h : PlacedSlot s t g)
    (edge : List Nibble) :
    IdealSim W ok (materializeStorageSurvivor s edge) (materializeStorageSurvivor t edge) g
      (Agree c Same) := by
  cases h with
  | disk =>
    refine attempt_sim (readLazy_sim hok (.inl (Multiset.mem_singleton_self _))) ?_
    rintro subtree _ g ⟨rfl, -, rfl⟩
    refine attempt_pure_sim fun node _ => ?_
    rw [← add_zero {(_, _)}]
    exact free_sim (ok_sim (R := Same) ⟨rfl, rfl⟩)
  | mem => exact attempt_pure_sim fun subtree _ => pure_sim _
  | none => exact fail_sim _
  | ram hn => exact fail_sim _
  | account hn => exact fail_sim _

theorem demotedStorage_sim {n n' : RamNode} {out out' : RamDelete} {g : Multiset Rec}
    (h : DeletedNode n n' out out' g) :
    IdealSim W ok (demotedStorage out) (demotedStorage out') g (Agree c Same) := by
  cases h with
  | absent => exact fail_sim _
  | changed => exact fail_sim _
  | removed => exact ok_sim (R := Same) ⟨rfl, rfl⟩
  | collapsed h => exact materializeStorageSurvivor_sim hok h _

omit hok [Keccak] in
/-- A new slot ends the delete. -/
theorem changed_slot_sim {p q : Act RamSlot} {s t : RamSlot} {g : Multiset Rec}
    (h : IdealSim W ok p q g (Agree c PlacedSlot)) (hs : ∃ g0, PlacedSlot s t g0) :
    IdealSim W ok (attempt p (fun e => (s, Except.error e)) fun slot => .pure (slot, .ok .changed))
      (attempt q (fun e => (t, Except.error e)) fun slot => .pure (slot, .ok .changed)) g
      (AgreeOn c PlacedSlot DeletedSlot) :=
  attempt_on_sim h hs fun _ _ _ hs => ok_on_sim (DeletedSlot.changed hs)

omit hok

mutual

theorem deleteRam_sim (hok : Faithful ok c) (env : Env) {n n' : RamNode} {g : Multiset Rec}
    (hn : Placed n n' g) (pfx : List Nibble) (key : Key) (op : DeleteOp) (ram : Bool) :
    IdealSim W ok (deleteRam env n pfx key op ram) (deleteRam env n' pfx key op ram) g
      (AgreeOn c Placed DeletedNode) := by
  match hn with
  | .empty => exact DeletedNode.absent .empty
  | @Placed.extension path _ _ hash _ hn =>
    unfold deleteRam
    split
    · refine thenUpd_sim (fun _ => .empty) (fun _ => .empty) (deleteRam_sim hok env hn _ key op ram)
        (fun _ _ => rfl) (fun _ _ => rfl) (fun _ _ _ _ => ⟨_, .empty⟩) ?_
      intro s t out out' g' hd
      exact afterExtension_sim hd path hash
    · exact DeletedNode.absent (.extension hn)
  | @Placed.branch ns cs hash gs hs =>
    unfold deleteRam
    split
    · exact error_on_sim _ ⟨_, .empty⟩
    · rename_i idx _
      rw [sum_recs_at gs idx]
      refine thenUpd_frame_sim (fun _ => .empty) (fun _ => .empty)
        (deleteInChild_sim hok env (hs idx) _ key op ram) (fun _ _ => rfl) (fun _ _ => rfl)
        (fun _ _ _ _ => ⟨_, .empty⟩) ?_
      intro s t out out' g' hd
      exact afterChild_sim hs hash idx hd

theorem deleteInChild_sim (hok : Faithful ok c) (env : Env) {s s' : RamSlot} {g : Multiset Rec}
    (hs : PlacedSlot s s' g) (pfx : List Nibble) (key : Key) (op : DeleteOp) (ram : Bool) :
    IdealSim W ok (deleteInChild env s pfx key op ram) (deleteInChild env s' pfx key op ram) g
      (AgreeOn c PlacedSlot DeletedSlot) := by
  match hs with
  | .none => exact DeletedSlot.absent .none
  | .ram hn =>
    unfold deleteInChild
    refine thenUpd_sim RamSlot.ram RamSlot.ram (deleteRam_sim hok env hn pfx key op ram)
      (fun _ _ => rfl) (fun _ _ => rfl) (fun s t g0 hs => ⟨g0, .ram hs⟩) ?_
    intro s t out out' g' hd
    cases hd with
    | absent h => exact DeletedSlot.absent (.ram h)
    | changed h => exact DeletedSlot.changed (.ram h)
    | removed => exact DeletedSlot.removed
    | collapsed h => exact changed_slot_sim (rehomeChild_sim hok env ram h _ pfx) ⟨_, .ram .empty⟩
  | .mem =>
    unfold deleteInChild
    refine attempt_pure_on_sim ⟨_, .none⟩ fun subtree _ => ?_
    refine attempt_pure_on_sim ⟨_, .none⟩ fun ⟨node, out⟩ _ => ?_
    cases out with
    | absent => exact DeletedSlot.absent .mem
    | changed => exact changed_slot_sim (makeMemLeaf_sim _) ⟨_, .none⟩
    | removed => exact DeletedSlot.removed
  | @PlacedSlot.disk ptr payload root =>
    unfold deleteInChild
    refine attempt_on_sim (readLazy_sim hok (.inl (Multiset.mem_singleton_self _))) ⟨_, .disk⟩ ?_
    rintro subtree _ g' ⟨rfl, -, rfl⟩
    refine attempt_pure_on_sim ⟨_, .disk⟩ fun ⟨node, out⟩ _ => ?_
    cases out with
    | absent => exact DeletedSlot.absent .disk
    | changed =>
      rw [← add_zero {(ptr, payload)}]
      exact free_sim (changed_slot_sim (makeLeafChild_sim hok env false _) ⟨_, .disk⟩)
    | removed =>
      rw [← add_zero {(ptr, payload)}]
      exact free_sim (ok_on_sim DeletedSlot.removed)
  | @PlacedSlot.account path nonce balance codeHash _ _ _ hn =>
    unfold deleteInChild
    split
    · exact DeletedSlot.absent (.account hn)
    · cases op with
      | value => exact error_on_sim _ ⟨_, .account hn⟩
      | account =>
        refine Sim.bind (freeRamRecords_sim hn) ?_
        rintro _ _ g' rfl
        exact DeletedSlot.removed
      | wipeStorage =>
        refine Sim.bind (freeRamRecords_sim hn) ?_
        rintro _ _ g' rfl
        exact changed_slot_sim (makeLeafChild_sim hok env ram _) ⟨_, .none⟩
      | storage slot =>
        simp only
        refine thenUpd_sim (.account path nonce balance codeHash) (.account path nonce balance codeHash)
          (deleteRam_sim hok env hn _ _ _ false) (fun _ _ => rfl) (fun _ _ => rfl)
          (fun s t g0 hs => ⟨g0, .account hs⟩) ?_
        intro s t out out' g' hd
        have hdem : IdealSim W ok
            (attempt (demotedStorage out) (fun e => ((RamSlot.none, Except.error e) : RamSlot × _))
              fun storageNode =>
              let subtree : DiskSubtree := ⟨pfx, accountNode path nonce balance codeHash storageNode⟩
              attempt (if shouldPromoteAccount env.cfg subtree then
                  promoteAccountToRam env (ram || env.hot) subtree
                else makeLeafChild env ram subtree) (fun e => (.none, .error e)) fun slot =>
              .pure (slot, .ok .changed))
            (attempt (demotedStorage out') (fun e => ((RamSlot.none, Except.error e) : RamSlot × _))
              fun storageNode =>
              let subtree : DiskSubtree := ⟨pfx, accountNode path nonce balance codeHash storageNode⟩
              attempt (if shouldPromoteAccount env.cfg subtree then
                  promoteAccountToRam env (ram || env.hot) subtree
                else makeLeafChild env ram subtree) (fun e => (.none, .error e)) fun slot =>
              .pure (slot, .ok .changed)) g' (AgreeOn c PlacedSlot DeletedSlot) := by
          refine attempt_on_sim (demotedStorage_sim hok hd) ⟨_, .none⟩ ?_
          rintro node _ _ ⟨rfl, rfl⟩
          refine changed_slot_sim ?_ ⟨_, .none⟩
          split
          · exact promoteAccountToRam_sim hok env _ _
          · exact makeLeafChild_sim hok env ram _
        cases hd with
        | absent h => exact DeletedSlot.absent (.account h)
        | changed h => exact DeletedSlot.changed (.account h)
        | removed => exact hdem
        | collapsed h => exact hdem

end

include hok

theorem collapseRoot_sim (env : Env) (edge : List Nibble) {s t : RamSlot} {g : Multiset Rec}
    (h : PlacedSlot s t g) :
    IdealSim W ok (collapseRoot env edge s) (collapseRoot env edge t) g (Agree c Placed) := by
  have hrebuild : ∀ node : Node, IdealSim W ok
      (if hasTopBranch node then promoteNode env false ⟨[], node⟩ else Act.fail .singleLeafRoot)
      (if hasTopBranch node then promoteNode env false ⟨[], node⟩ else Act.fail .singleLeafRoot) 0
      (Agree c Placed) := by
    intro node
    split
    · exact promoteNode_sim hok env false _
    · exact fail_sim _
  cases h with
  | disk =>
    unfold collapseRoot
    refine attempt_sim (readLazy_sim hok (.inl (Multiset.mem_singleton_self _))) ?_
    rintro subtree _ g ⟨rfl, -, rfl⟩
    refine attempt_pure_sim fun node _ => ?_
    rw [← add_zero {(_, _)}]
    exact free_sim (hrebuild node)
  | mem =>
    unfold collapseRoot
    exact attempt_pure_sim fun subtree _ => attempt_pure_sim fun node _ => hrebuild node
  | account hn => exact fail_sim _
  | none => exact fail_sim _
  | ram hn => exact fail_sim _

end

end FlatMpt
