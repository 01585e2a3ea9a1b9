import FlatMpt.SimulateBlock
import FlatMpt.Relocate

/-!
# Records taken in

A frontier over the ideal store with every record taken into RAM: what a database
holds, wherever its records are.  Spills and relocations do not change it, and the
root is a function of it.

    placed_leaves, Placed.leaves   -- frontiers over both stores, by payloads and paths
    inline                         -- the records taken in
    hashRam_inlineAt               -- the root
-/

namespace FlatMpt

open Prog

/-! ## Payloads by path -/

/-- A disk slot over the ideal store. -/
def toNamed (pay : List Nibble → Bytes) (p : List Nibble) : RamSlot → RamSlot
  | .disk _ root => .disk (named (pay p)) root
  | s => s

theorem leafRecs_branch (pay : List Nibble → Bytes) (ns : Nibble → RamSlot) (hash : Option Hash)
    (pfx : List Nibble) : leafRecs pay (leafSlots (.branch ns hash) pfx) =
      ∑ i, leafRecs pay (leafSlotsIn (ns i) (pfx ++ [i])) := by
  have hlist : ∀ is : List Nibble, leafRecs pay (is.flatMap fun i => leafSlotsIn (ns i) (pfx ++ [i])) =
      (is.map fun i => leafRecs pay (leafSlotsIn (ns i) (pfx ++ [i]))).sum := by
    intro is
    induction is with
    | nil => rfl
    | cons i is ih => rw [List.flatMap_cons, leafRecs_append, ih, List.map_cons, List.sum_cons]
  rw [leafSlots, hlist, Fin.sum_univ_def]

mutual

/-- Any payloads give a frontier over the ideal store. -/
theorem placed_leaves (pay : List Nibble → Bytes) (node : RamNode) (pfx : List Nibble) :
    Placed node (mapLeaves (toNamed pay) node pfx) (leafRecs pay (leafSlots node pfx)) := by
  match node with
  | .empty => exact .empty
  | .extension path child hash => exact .extension (placed_leaves pay child (pfx ++ path))
  | .branch ns hash =>
    rw [leafRecs_branch]
    exact .branch fun i => placedSlot_leaves pay (ns i) (pfx ++ [i])

theorem placedSlot_leaves (pay : List Nibble → Bytes) (slot : RamSlot) (pfx : List Nibble) :
    PlacedSlot slot (mapLeavesIn (toNamed pay) slot pfx) (leafRecs pay (leafSlotsIn slot pfx)) := by
  match slot with
  | .none => exact .none
  | .ram child => exact .ram (placed_leaves pay child pfx)
  | .disk ptr root =>
    have h : leafRecs pay (leafSlotsIn (.disk ptr root) pfx) = {(ptr, pay pfx)} := by
      unfold leafRecs leafSlotsIn
      rw [List.map_singleton, List.sum_singleton]
      rfl
    rw [h]
    exact .disk
  | .account path nonce balance codeHash storage =>
    exact .account (placed_leaves pay storage (pfx ++ path))
  | .mem bytes root =>
    have h : leafRecs pay (leafSlotsIn (.mem bytes root) pfx) = 0 := by
      unfold leafRecs leafSlotsIn
      rw [List.map_singleton, List.sum_singleton]
      rfl
    rw [h]
    exact .mem

end

/-- Payloads below the children of a branch at `pfx`. -/
def splitPay (pfx : List Nibble) (pays : Nibble → List Nibble → Bytes) (p : List Nibble) : Bytes :=
  match p.drop pfx.length with
  | [] => []
  | i :: _ => pays i p

theorem splitPay_child {pfx p : List Nibble} {i : Nibble} (h : pfx ++ [i] <+: p)
    (pays : Nibble → List Nibble → Bytes) : splitPay pfx pays p = pays i p := by
  obtain ⟨r, rfl⟩ := h
  unfold splitPay
  rw [List.append_assoc, List.drop_left]
  rfl

theorem splitPay_leaf {ns : Nibble → RamSlot} {pfx : List Nibble} {i : Nibble}
    (pays : Nibble → List Nibble → Bytes) :
    ∀ e ∈ leafSlotsIn (ns i) (pfx ++ [i]), splitPay pfx pays e.1 = pays i e.1 :=
  fun e he => splitPay_child (leafSlotsIn_under (ns i) (pfx ++ [i]) e he).1 pays

mutual

/-- A frontier over the ideal store is given by payloads. -/
theorem Placed.leaves {n m : RamNode} {g : Multiset Rec} (h : Placed n m g) (pfx : List Nibble) :
    ∃ pay, m = mapLeaves (toNamed pay) n pfx ∧ g = leafRecs pay (leafSlots n pfx) := by
  match h with
  | .empty => exact ⟨fun _ => [], rfl, rfl⟩
  | @Placed.extension path _ _ _ _ h =>
    obtain ⟨pay, rfl, rfl⟩ := h.leaves (pfx ++ path)
    exact ⟨pay, rfl, rfl⟩
  | @Placed.branch ns _ hash _ h =>
    choose pays hm hg using fun i => (h i).leaves (pfx ++ [i])
    refine ⟨splitPay pfx pays, ?_, ?_⟩
    · rw [mapLeaves]
      congr 1
      funext i
      rw [hm i]
      refine mapLeavesIn_congr _ _ fun e he => ?_
      unfold toNamed
      rw [splitPay_leaf pays e he]
    · rw [leafRecs_branch]
      refine Finset.sum_congr rfl fun i _ => ?_
      rw [hg i]
      refine leafRecs_congr fun e he => ?_
      rw [splitPay_leaf pays e he]

theorem PlacedSlot.leaves {s t : RamSlot} {g : Multiset Rec} (h : PlacedSlot s t g)
    (pfx : List Nibble) :
    ∃ pay, t = mapLeavesIn (toNamed pay) s pfx ∧ g = leafRecs pay (leafSlotsIn s pfx) := by
  match h with
  | .none => exact ⟨fun _ => [], rfl, rfl⟩
  | .ram h =>
    obtain ⟨pay, rfl, rfl⟩ := h.leaves pfx
    exact ⟨pay, rfl, rfl⟩
  | @PlacedSlot.disk ptr payload _ =>
    refine ⟨fun _ => payload, rfl, ?_⟩
    unfold leafRecs leafSlotsIn
    rw [List.map_singleton, List.sum_singleton]
    rfl
  | @PlacedSlot.account path _ _ _ _ _ _ h =>
    obtain ⟨pay, rfl, rfl⟩ := h.leaves (pfx ++ path)
    exact ⟨pay, rfl, rfl⟩
  | .mem =>
    refine ⟨fun _ => [], rfl, ?_⟩
    unfold leafRecs leafSlotsIn
    rw [List.map_singleton, List.sum_singleton]
    rfl

end

/-! ## Taking records in -/

/-- The record of a disk slot over the ideal store, in RAM. -/
def takeIn (_ : List Nibble) : RamSlot → RamSlot
  | .disk ptr root => .mem (nameOf ptr) root
  | s => s

def inlineAt (m : RamNode) (pfx : List Nibble) : RamNode := mapLeaves takeIn m pfx

def inlineSlotAt (s : RamSlot) (pfx : List Nibble) : RamSlot := mapLeavesIn takeIn s pfx

/-- Every record taken into RAM. -/
def inline (m : RamNode) : RamNode := inlineAt m []

theorem toNamed_keeps (pay : List Nibble → Bytes) : KeepsLeaves (toNamed pay) := by
  intro p s hs
  cases s <;> exact hs

theorem takeIn_toNamed (pay : List Nibble → Bytes) (p : List Nibble) {s : RamSlot} (hs : s.isLeaf) :
    ∃ c, content pay p s = some c ∧ takeIn p (toNamed pay p s) = .mem c.1 c.2 := by
  cases s with
  | disk ptr root => exact ⟨(pay p, root), rfl, by rw [toNamed, takeIn, nameOf_named]⟩
  | mem bytes root => exact ⟨(bytes, root), rfl, rfl⟩
  | none => cases hs
  | ram child => cases hs
  | account path nonce balance codeHash storage => cases hs

/-- Moving records does not change what a frontier holds. -/
theorem Moved.inline {pay pay' : List Nibble → Bytes} {n n' : RamNode} (h : Moved pay n pay' n') :
    inline (mapLeaves (toNamed pay') n' []) = inline (mapLeaves (toNamed pay) n []) := by
  obtain ⟨f, hf, rfl, hc⟩ := h
  unfold FlatMpt.inline inlineAt
  rw [mapLeaves_comp hf, mapLeaves_comp (toNamed_keeps pay), mapLeaves_comp fun p s hs =>
    toNamed_keeps pay' p _ (hf p s hs)]
  refine mapLeaves_congr n [] fun e he => ?_
  have hleaf := (leafSlots_under n [] e he).2
  obtain ⟨c, hc1, h1⟩ := takeIn_toNamed pay e.1 hleaf
  obtain ⟨c', hc2, h2⟩ := takeIn_toNamed pay' e.1 (hf e.1 e.2 hleaf)
  have hcc : c' = c := by
    have := hc e he
    rw [hc1, hc2] at this
    exact Option.some.inj this
  show takeIn e.1 (toNamed pay' e.1 (f e.1 e.2)) = takeIn e.1 (toNamed pay e.1 e.2)
  rw [h1, h2, hcc]

section
variable [Keccak]

/-! ## The root -/

mutual

theorem hashRam_inlineAt (m : RamNode) (pfx : List Nibble) : hashRam (inlineAt m pfx) = hashRam m := by
  match m with
  | .empty => rfl
  | .extension path child hash =>
    show hash.getD _ = hash.getD _
    rw [show hashRam (mapLeaves takeIn child (pfx ++ path)) = hashRam child from
      hashRam_inlineAt child (pfx ++ path)]
  | .branch cs hash =>
    show hash.getD _ = hash.getD _
    simp only [show ∀ i, ramChildHash (mapLeavesIn takeIn (cs i) (pfx ++ [i])) = ramChildHash (cs i) from
      fun i => ramChildHash_inlineAt (cs i) (pfx ++ [i])]

theorem ramChildHash_inlineAt (s : RamSlot) (pfx : List Nibble) :
    ramChildHash (inlineSlotAt s pfx) = ramChildHash s := by
  match s with
  | .none => rfl
  | .ram child => exact congrArg some (hashRam_inlineAt child pfx)
  | .disk ptr root => rfl
  | .mem bytes root => rfl
  | .account path nonce balance codeHash storage =>
    show some (leafRef _ (accountRlp _ _ _ (hashRam (inlineAt storage (pfx ++ path))))).finalize = _
    rw [hashRam_inlineAt storage (pfx ++ path)]
    rfl

end

mutual

theorem fillRam_inlineAt (m : RamNode) (pfx : List Nibble) :
    inlineAt (fillRam m) pfx = fillRam (inlineAt m pfx) := by
  match m with
  | .empty => rfl
  | .extension path child (some h) => rfl
  | .extension path child none =>
    show RamNode.extension path (inlineAt (fillRam child) (pfx ++ path))
        (some (hashRam (.extension path child none))) =
      .extension path (fillRam (inlineAt child (pfx ++ path)))
        (some (hashRam (inlineAt (.extension path child none) pfx)))
    rw [fillRam_inlineAt child (pfx ++ path), hashRam_inlineAt]
  | .branch cs (some h) => rfl
  | .branch cs none =>
    show RamNode.branch (fun i => inlineSlotAt (fillSlot (cs i)) (pfx ++ [i]))
        (some (hashRam (.branch cs none))) =
      .branch (fun i => fillSlot (inlineSlotAt (cs i) (pfx ++ [i])))
        (some (hashRam (inlineAt (.branch cs none) pfx)))
    rw [hashRam_inlineAt]
    simp only [fun i => fillSlot_inlineAt (cs i) (pfx ++ [i])]

theorem fillSlot_inlineAt (s : RamSlot) (pfx : List Nibble) :
    inlineSlotAt (fillSlot s) pfx = fillSlot (inlineSlotAt s pfx) := by
  match s with
  | .none => rfl
  | .ram child => exact congrArg RamSlot.ram (fillRam_inlineAt child pfx)
  | .disk ptr root => rfl
  | .mem bytes root => rfl
  | .account path nonce balance codeHash storage =>
    exact congrArg (RamSlot.account path nonce balance codeHash) (fillRam_inlineAt storage (pfx ++ path))

end

/-- Filling the caches keeps the root. -/
theorem hashRam_fillRam (m : RamNode) : hashRam (fillRam m) = hashRam m := by
  match m with
  | .empty => rfl
  | .extension path child none => rfl
  | .extension path child (some h) => rfl
  | .branch cs none => rfl
  | .branch cs (some h) => rfl

theorem ramChildHash_fillSlot (s : RamSlot) : ramChildHash (fillSlot s) = ramChildHash s := by
  cases s with
  | ram n => exact congrArg some (hashRam_fillRam n)
  | account path nonce balance codeHash storage =>
    show some _ = some _
    rw [hashRam_fillRam]
  | _ => rfl

/-! ## Reads -/

theorem value_readLazy (ptr : DiskPtr) :
    value ideal (readLazy ptr) = deserializeSubtree (nameOf ptr) := rfl

end

end FlatMpt
