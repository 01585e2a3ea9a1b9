import Mathlib.Data.List.Nodup
import FlatMpt.Gc

/-!
# Leaf slots

A frontier seen as a skeleton over its leaf slots, the disk and RAM records with
the nibbles that lead to them.  Spills and relocations change leaf slots only, so
each of them is one `mapLeaves`.

    leafSlots, mapLeaves
    leafSlots_nodup, leafSlots_apart   -- one slot per path, none above another
    findDiskPtr_iff, installPtr_eq     -- slots by stored prefix
-/

namespace FlatMpt

mutual

/-- The leaf slots below a frontier node at `pfx`, with their paths. -/
def leafSlots : RamNode → List Nibble → List (List Nibble × RamSlot)
  | .empty, _ => []
  | .extension path child _, pfx => leafSlots child (pfx ++ path)
  | .branch children _, pfx =>
    (List.finRange 16).flatMap fun i => leafSlotsIn (children i) (pfx ++ [i])

def leafSlotsIn : RamSlot → List Nibble → List (List Nibble × RamSlot)
  | .none, _ => []
  | .ram child, pfx => leafSlots child pfx
  | .disk ptr root, pfx => [(pfx, .disk ptr root)]
  | .account path _ _ _ storage, pfx => leafSlots storage (pfx ++ path)
  | .mem bytes root, pfx => [(pfx, .mem bytes root)]

end

mutual

/-- Change the leaf slots below a frontier node at `pfx`; the caches stay. -/
def mapLeaves (f : List Nibble → RamSlot → RamSlot) : RamNode → List Nibble → RamNode
  | .empty, _ => .empty
  | .extension path child hash, pfx => .extension path (mapLeaves f child (pfx ++ path)) hash
  | .branch children hash, pfx => .branch (fun i => mapLeavesIn f (children i) (pfx ++ [i])) hash

def mapLeavesIn (f : List Nibble → RamSlot → RamSlot) : RamSlot → List Nibble → RamSlot
  | .none, _ => .none
  | .ram child, pfx => .ram (mapLeaves f child pfx)
  | .disk ptr root, pfx => f pfx (.disk ptr root)
  | .account path nonce balance codeHash storage, pfx =>
    .account path nonce balance codeHash (mapLeaves f storage (pfx ++ path))
  | .mem bytes root, pfx => f pfx (.mem bytes root)

end

/-- A slot that holds a record. -/
def RamSlot.isLeaf : RamSlot → Bool
  | .disk .. => true
  | .mem .. => true
  | _ => false

theorem leafSlotsIn_leaf {s : RamSlot} (h : s.isLeaf) (pfx : List Nibble) :
    leafSlotsIn s pfx = [(pfx, s)] := by
  cases s <;> first | rfl | cases h

theorem mapLeavesIn_leaf {s : RamSlot} (h : s.isLeaf) (f : List Nibble → RamSlot → RamSlot)
    (pfx : List Nibble) : mapLeavesIn f s pfx = f pfx s := by
  cases s <;> first | rfl | cases h

mutual

theorem leafSlots_under (node : RamNode) (pfx : List Nibble) :
    ∀ e ∈ leafSlots node pfx, pfx <+: e.1 ∧ e.2.isLeaf := by
  match node with
  | .empty => exact fun e he => absurd he List.not_mem_nil
  | .extension path child _ =>
    intro e he
    obtain ⟨h1, h2⟩ := leafSlots_under child (pfx ++ path) e he
    exact ⟨(List.prefix_append pfx path).trans h1, h2⟩
  | .branch children _ =>
    intro e he
    obtain ⟨i, -, he⟩ := List.mem_flatMap.mp he
    obtain ⟨h1, h2⟩ := leafSlotsIn_under (children i) (pfx ++ [i]) e he
    exact ⟨(List.prefix_append pfx [i]).trans h1, h2⟩

theorem leafSlotsIn_under (slot : RamSlot) (pfx : List Nibble) :
    ∀ e ∈ leafSlotsIn slot pfx, pfx <+: e.1 ∧ e.2.isLeaf := by
  match slot with
  | .none => exact fun e he => absurd he List.not_mem_nil
  | .ram child => exact leafSlots_under child pfx
  | .disk ptr root =>
    intro e he
    obtain rfl := List.mem_singleton.mp he
    exact ⟨List.prefix_rfl, rfl⟩
  | .account path _ _ _ storage =>
    intro e he
    obtain ⟨h1, h2⟩ := leafSlots_under storage (pfx ++ path) e he
    exact ⟨(List.prefix_append pfx path).trans h1, h2⟩
  | .mem bytes root =>
    intro e he
    obtain rfl := List.mem_singleton.mp he
    exact ⟨List.prefix_rfl, rfl⟩

end

/-- Two branches of a prefix have nothing in common below. -/
theorem branch_eq_of_leads {pfx p q : List Nibble} {i j : Nibble} (hp : pfx ++ [i] <+: p)
    (hq : pfx ++ [j] <+: q) (h : p <+: q) : i = j := by
  have hp := hp.trans h
  have heq := List.prefix_of_prefix_length_le hp hq (by rw [List.length_append, List.length_append]; rfl)
  have := heq.eq_of_length (by rw [List.length_append, List.length_append]; rfl)
  have := (List.append_inj this rfl).2
  injection this

mutual

/-- No leaf slot lies above another. -/
theorem leafSlots_apart (node : RamNode) (pfx : List Nibble) :
    ∀ e ∈ leafSlots node pfx, ∀ e' ∈ leafSlots node pfx, e.1 <+: e'.1 → e = e' := by
  match node with
  | .empty => exact fun e he => absurd he List.not_mem_nil
  | .extension path child _ => exact leafSlots_apart child (pfx ++ path)
  | .branch children _ =>
    intro e he e' he' hp
    obtain ⟨i, -, he⟩ := List.mem_flatMap.mp he
    obtain ⟨j, -, he'⟩ := List.mem_flatMap.mp he'
    obtain rfl := branch_eq_of_leads (leafSlotsIn_under _ _ e he).1
      (leafSlotsIn_under _ _ e' he').1 hp
    exact leafSlotsIn_apart (children i) (pfx ++ [i]) e he e' he' hp

theorem leafSlotsIn_apart (slot : RamSlot) (pfx : List Nibble) :
    ∀ e ∈ leafSlotsIn slot pfx, ∀ e' ∈ leafSlotsIn slot pfx, e.1 <+: e'.1 → e = e' := by
  match slot with
  | .none => exact fun e he => absurd he List.not_mem_nil
  | .ram child => exact leafSlots_apart child pfx
  | .disk ptr root =>
    intro e he e' he' _
    rw [List.mem_singleton.mp he, List.mem_singleton.mp he']
  | .account path _ _ _ storage => exact leafSlots_apart storage (pfx ++ path)
  | .mem bytes root =>
    intro e he e' he' _
    rw [List.mem_singleton.mp he, List.mem_singleton.mp he']

end

mutual

/-- One slot per path. -/
theorem leafSlots_nodup (node : RamNode) (pfx : List Nibble) :
    ((leafSlots node pfx).map Prod.fst).Nodup := by
  match node with
  | .empty => exact List.nodup_nil
  | .extension path child _ => exact leafSlots_nodup child (pfx ++ path)
  | .branch children _ =>
    unfold leafSlots
    rw [List.map_flatMap]
    refine List.nodup_flatMap.mpr ⟨fun i _ => leafSlotsIn_nodup (children i) (pfx ++ [i]), ?_⟩
    refine (List.nodup_finRange 16).imp ?_
    intro i j hij p hp hq
    obtain ⟨e, he, rfl⟩ := List.mem_map.mp hp
    obtain ⟨e', he', hee⟩ := List.mem_map.mp hq
    refine hij (branch_eq_of_leads (leafSlotsIn_under _ _ e he).1
      (leafSlotsIn_under _ _ e' he').1 ?_)
    rw [hee]

theorem leafSlotsIn_nodup (slot : RamSlot) (pfx : List Nibble) :
    ((leafSlotsIn slot pfx).map Prod.fst).Nodup := by
  match slot with
  | .none => exact List.nodup_nil
  | .ram child => exact leafSlots_nodup child pfx
  | .disk ptr root => exact List.nodup_singleton _
  | .account path _ _ _ storage => exact leafSlots_nodup storage (pfx ++ path)
  | .mem bytes root => exact List.nodup_singleton _

end

section
variable {f k : List Nibble → RamSlot → RamSlot}

mutual

theorem mapLeaves_congr (node : RamNode) (pfx : List Nibble)
    (h : ∀ e ∈ leafSlots node pfx, f e.1 e.2 = k e.1 e.2) :
    mapLeaves f node pfx = mapLeaves k node pfx := by
  match node with
  | .empty => rfl
  | .extension path child hash =>
    unfold mapLeaves
    rw [mapLeaves_congr child (pfx ++ path) h]
  | .branch children hash =>
    unfold mapLeaves
    congr 1
    funext i
    exact mapLeavesIn_congr (children i) (pfx ++ [i])
      fun e he => h e (List.mem_flatMap.mpr ⟨i, List.mem_finRange i, he⟩)

theorem mapLeavesIn_congr (slot : RamSlot) (pfx : List Nibble)
    (h : ∀ e ∈ leafSlotsIn slot pfx, f e.1 e.2 = k e.1 e.2) :
    mapLeavesIn f slot pfx = mapLeavesIn k slot pfx := by
  match slot with
  | .none => rfl
  | .ram child =>
    unfold mapLeavesIn
    rw [mapLeaves_congr child pfx h]
  | .disk ptr root => exact h (pfx, .disk ptr root) List.mem_cons_self
  | .account path nonce balance codeHash storage =>
    unfold mapLeavesIn
    rw [mapLeaves_congr storage (pfx ++ path) h]
  | .mem bytes root => exact h (pfx, .mem bytes root) List.mem_cons_self

end

mutual

theorem mapLeaves_id (node : RamNode) (pfx : List Nibble) : mapLeaves (fun _ s => s) node pfx = node := by
  match node with
  | .empty => rfl
  | .extension path child hash =>
    unfold mapLeaves
    rw [mapLeaves_id child]
  | .branch children hash =>
    unfold mapLeaves
    congr 1
    funext i
    exact mapLeavesIn_id (children i) (pfx ++ [i])

theorem mapLeavesIn_id (slot : RamSlot) (pfx : List Nibble) :
    mapLeavesIn (fun _ s => s) slot pfx = slot := by
  match slot with
  | .none => rfl
  | .ram child =>
    unfold mapLeavesIn
    rw [mapLeaves_id child]
  | .disk ptr root => rfl
  | .account path nonce balance codeHash storage =>
    unfold mapLeavesIn
    rw [mapLeaves_id storage]
  | .mem bytes root => rfl

end

/-- A change that keeps leaves leaves. -/
def KeepsLeaves (f : List Nibble → RamSlot → RamSlot) : Prop :=
  ∀ p s, s.isLeaf → (f p s).isLeaf

mutual

theorem leafSlots_mapLeaves (hf : KeepsLeaves f) (node : RamNode) (pfx : List Nibble) :
    leafSlots (mapLeaves f node pfx) pfx = (leafSlots node pfx).map fun e => (e.1, f e.1 e.2) := by
  match node with
  | .empty => rfl
  | .extension path child hash => exact leafSlots_mapLeaves hf child (pfx ++ path)
  | .branch children hash =>
    unfold mapLeaves leafSlots
    rw [List.map_flatMap]
    congr 1
    funext i
    exact leafSlotsIn_mapLeavesIn hf (children i) (pfx ++ [i])

theorem leafSlotsIn_mapLeavesIn (hf : KeepsLeaves f) (slot : RamSlot) (pfx : List Nibble) :
    leafSlotsIn (mapLeavesIn f slot pfx) pfx =
      (leafSlotsIn slot pfx).map fun e => (e.1, f e.1 e.2) := by
  match slot with
  | .none => rfl
  | .ram child => exact leafSlots_mapLeaves hf child pfx
  | .disk ptr root => exact leafSlotsIn_leaf (hf pfx _ rfl) pfx
  | .account path nonce balance codeHash storage => exact leafSlots_mapLeaves hf storage (pfx ++ path)
  | .mem bytes root => exact leafSlotsIn_leaf (hf pfx _ rfl) pfx

end

mutual

theorem mapLeaves_comp (hf : KeepsLeaves f) (node : RamNode) (pfx : List Nibble) :
    mapLeaves k (mapLeaves f node pfx) pfx = mapLeaves (fun p s => k p (f p s)) node pfx := by
  match node with
  | .empty => rfl
  | .extension path child hash =>
    simp only [mapLeaves]
    rw [mapLeaves_comp hf child]
  | .branch children hash =>
    simp only [mapLeaves]
    congr 1
    funext i
    exact mapLeavesIn_comp hf (children i) (pfx ++ [i])

theorem mapLeavesIn_comp (hf : KeepsLeaves f) (slot : RamSlot) (pfx : List Nibble) :
    mapLeavesIn k (mapLeavesIn f slot pfx) pfx = mapLeavesIn (fun p s => k p (f p s)) slot pfx := by
  match slot with
  | .none => rfl
  | .ram child =>
    simp only [mapLeavesIn]
    rw [mapLeaves_comp hf child]
  | .disk ptr root => exact mapLeavesIn_leaf (hf pfx _ rfl) k pfx
  | .account path nonce balance codeHash storage =>
    simp only [mapLeavesIn]
    rw [mapLeaves_comp hf storage]
  | .mem bytes root => exact mapLeavesIn_leaf (hf pfx _ rfl) k pfx

end

mutual

theorem diskPtrs_eq_leaves (node : RamNode) (pfx : List Nibble) :
    diskPtrs node = (leafSlots node pfx).flatMap fun e => slotPtrs e.2 := by
  match node with
  | .empty => rfl
  | .extension path child hash => exact diskPtrs_eq_leaves child (pfx ++ path)
  | .branch children hash =>
    unfold diskPtrs leafSlots
    rw [List.flatMap_assoc]
    congr 1
    funext i
    exact slotPtrs_eq_leaves (children i) (pfx ++ [i])

theorem slotPtrs_eq_leaves (slot : RamSlot) (pfx : List Nibble) :
    slotPtrs slot = (leafSlotsIn slot pfx).flatMap fun e => slotPtrs e.2 := by
  match slot with
  | .none => rfl
  | .ram child => exact diskPtrs_eq_leaves child pfx
  | .disk ptr root => rfl
  | .account path nonce balance codeHash storage => exact diskPtrs_eq_leaves storage (pfx ++ path)
  | .mem bytes root => rfl

end

end

/-! ## Slots by stored prefix -/

/-- Point the disk slot at a path elsewhere. -/
def setPtr (path : List Nibble) (new : DiskPtr) (p : List Nibble) (s : RamSlot) : RamSlot :=
  if p = path then
    match s with
    | .disk _ root => .disk new root
    | s => s
  else s

theorem setPtr_keeps (path : List Nibble) (new : DiskPtr) : KeepsLeaves (setPtr path new) := by
  intro p s hs
  unfold setPtr
  split
  · split
    · rfl
    · exact hs
  · exact hs

theorem setPtr_ne {path p : List Nibble} (h : p ≠ path) (new : DiskPtr) (s : RamSlot) :
    setPtr path new p s = s := if_neg h

theorem mapLeavesIn_setPtr_ne {path pfx : List Nibble} {i j : Nibble} (hp : pfx ++ [i] <+: path)
    (hij : j ≠ i) (new : DiskPtr) (slot : RamSlot) :
    mapLeavesIn (setPtr path new) slot (pfx ++ [j]) = slot := by
  rw [mapLeavesIn_congr (k := fun _ s => s) slot (pfx ++ [j]) ?_, mapLeavesIn_id]
  intro e he
  refine setPtr_ne ?_ new e.2
  rintro rfl
  exact hij (branch_eq_of_leads (leafSlotsIn_under _ _ e he).1 hp List.prefix_rfl)

mutual

/-- A found pointer is that of the slot above the prefix, and `installPtr` sets it. -/
theorem installPtr_eq (node : RamNode) (pfx n : List Nibble) (ptr new : DiskPtr)
    (h : findDiskPtr node n = some ptr) :
    ∃ q root, q <+: n ∧ (pfx ++ q, .disk ptr root) ∈ leafSlots node pfx ∧
      installPtr node n new = some (mapLeaves (setPtr (pfx ++ q) new) node pfx) := by
  match node with
  | .empty => exact absurd h (by simp [findDiskPtr])
  | .extension path child hash =>
    unfold findDiskPtr at h
    unfold installPtr
    by_cases hp : path.isPrefixOf n = true
    · rw [if_pos hp] at h ⊢
      obtain ⟨r, rfl⟩ := List.isPrefixOf_iff_prefix.mp hp
      rw [List.drop_left] at h ⊢
      obtain ⟨q, root, hq, hmem, hins⟩ := installPtr_eq child (pfx ++ path) r ptr new h
      refine ⟨path ++ q, root, (List.prefix_append_right_inj path).mpr hq, ?_, ?_⟩
      · rw [← List.append_assoc]
        exact hmem
      · rw [hins, ← List.append_assoc]
        rfl
    · rw [if_neg hp] at h
      cases h
  | .branch children hash =>
    cases n with
    | nil => exact absurd h (by simp [findDiskPtr])
    | cons i r =>
      have h : findSlotPtr (children i) r = some ptr := h
      obtain ⟨q, root, hq, hmem, hins⟩ := installSlotPtr_eq (children i) (pfx ++ [i]) r ptr new h
      have hpath : pfx ++ i :: q = pfx ++ [i] ++ q := by simp
      refine ⟨i :: q, root, List.prefix_cons_inj i |>.mpr hq, ?_, ?_⟩
      · rw [hpath]
        exact List.mem_flatMap.mpr ⟨i, List.mem_finRange i, hmem⟩
      · show (installSlotPtr (children i) r new).map _ = _
        rw [hins, hpath]
        show some _ = some _
        congr 1
        show RamNode.branch _ hash = RamNode.branch _ hash
        congr 1
        funext j
        by_cases hj : j = i
        · subst hj
          rw [Function.update_self]
        · rw [Function.update_of_ne hj,
            mapLeavesIn_setPtr_ne (List.prefix_append (pfx ++ [i]) q) hj]

theorem installSlotPtr_eq (slot : RamSlot) (pfx n : List Nibble) (ptr new : DiskPtr)
    (h : findSlotPtr slot n = some ptr) :
    ∃ q root, q <+: n ∧ (pfx ++ q, .disk ptr root) ∈ leafSlotsIn slot pfx ∧
      installSlotPtr slot n new = some (mapLeavesIn (setPtr (pfx ++ q) new) slot pfx) := by
  match slot with
  | .none => exact absurd h (by simp [findSlotPtr])
  | .mem bytes root => exact absurd h (by simp [findSlotPtr])
  | .ram child =>
    obtain ⟨q, root, hq, hmem, hins⟩ := installPtr_eq child pfx n ptr new h
    refine ⟨q, root, hq, hmem, ?_⟩
    unfold installSlotPtr
    rw [hins]
    rfl
  | .disk ptr' root =>
    have h : some ptr' = some ptr := h
    cases h
    refine ⟨[], root, List.nil_prefix, ?_, ?_⟩
    · rw [List.append_nil]
      exact List.mem_cons_self
    · rw [List.append_nil]
      show some (RamSlot.disk new root) = some (setPtr pfx new pfx (.disk ptr root))
      unfold setPtr
      rw [if_pos rfl]
  | .account path nonce balance codeHash storage =>
    unfold findSlotPtr at h
    unfold installSlotPtr
    by_cases hp : path.isPrefixOf n = true
    · rw [if_pos hp] at h ⊢
      obtain ⟨r, rfl⟩ := List.isPrefixOf_iff_prefix.mp hp
      rw [List.drop_left] at h ⊢
      obtain ⟨q, root, hq, hmem, hins⟩ := installPtr_eq storage (pfx ++ path) r ptr new h
      refine ⟨path ++ q, root, (List.prefix_append_right_inj path).mpr hq, ?_, ?_⟩
      · rw [← List.append_assoc]
        exact hmem
      · rw [hins, ← List.append_assoc]
        rfl
    · rw [if_neg hp] at h
      cases h

end

mutual

/-- A stored prefix at or below a disk slot finds its pointer. -/
theorem findDiskPtr_leaf (node : RamNode) (pfx q r : List Nibble) (ptr : DiskPtr) (root : Hash)
    (h : (pfx ++ q, .disk ptr root) ∈ leafSlots node pfx) : findDiskPtr node (q ++ r) = some ptr := by
  match node with
  | .empty => exact absurd h List.not_mem_nil
  | .extension path child hash =>
    have h : (pfx ++ q, .disk ptr root) ∈ leafSlots child (pfx ++ path) := h
    obtain ⟨q', hq⟩ := (leafSlots_under _ _ _ h).1
    rw [List.append_assoc] at hq
    obtain rfl := List.append_cancel_left hq
    unfold findDiskPtr
    rw [List.append_assoc, if_pos (List.isPrefixOf_iff_prefix.mpr (List.prefix_append _ _)),
      List.drop_left]
    refine findDiskPtr_leaf child (pfx ++ path) q' r ptr root ?_
    rw [List.append_assoc]
    exact h
  | .branch children hash =>
    obtain ⟨i, -, h⟩ := List.mem_flatMap.mp h
    obtain ⟨q', hq⟩ := (leafSlotsIn_under _ _ _ h).1
    rw [List.append_assoc] at hq
    obtain rfl := List.append_cancel_left hq
    show findSlotPtr (children i) (q' ++ r) = some ptr
    refine findSlotPtr_leaf (children i) (pfx ++ [i]) q' r ptr root ?_
    rw [List.append_assoc]
    exact h

theorem findSlotPtr_leaf (slot : RamSlot) (pfx q r : List Nibble) (ptr : DiskPtr) (root : Hash)
    (h : (pfx ++ q, .disk ptr root) ∈ leafSlotsIn slot pfx) :
    findSlotPtr slot (q ++ r) = some ptr := by
  match slot with
  | .none => exact absurd h List.not_mem_nil
  | .ram child => exact findDiskPtr_leaf child pfx q r ptr root h
  | .disk ptr' root' =>
    have h := List.mem_singleton.mp h
    simp only [Prod.mk.injEq, RamSlot.disk.injEq] at h
    show some ptr' = some ptr
    rw [h.2.1]
  | .mem bytes root' =>
    have h := List.mem_singleton.mp h
    simp only [Prod.mk.injEq, reduceCtorEq, and_false] at h
  | .account path nonce balance codeHash storage =>
    have h : (pfx ++ q, .disk ptr root) ∈ leafSlots storage (pfx ++ path) := h
    obtain ⟨q', hq⟩ := (leafSlots_under _ _ _ h).1
    rw [List.append_assoc] at hq
    obtain rfl := List.append_cancel_left hq
    unfold findSlotPtr
    rw [List.append_assoc, if_pos (List.isPrefixOf_iff_prefix.mpr (List.prefix_append _ _)),
      List.drop_left]
    refine findDiskPtr_leaf storage (pfx ++ path) q' r ptr root ?_
    rw [List.append_assoc]
    exact h

end

mutual

/-- An install succeeds where a pointer is found. -/
theorem installPtr_isSome (node : RamNode) (n : List Nibble) (new : DiskPtr) :
    (installPtr node n new).isSome = (findDiskPtr node n).isSome := by
  match node with
  | .empty => rfl
  | .extension path child hash =>
    unfold installPtr findDiskPtr
    by_cases hp : path.isPrefixOf n = true
    · rw [if_pos hp, if_pos hp, Option.isSome_map]
      exact installPtr_isSome child _ new
    · rw [if_neg hp, if_neg hp]
      rfl
  | .branch children hash =>
    cases n with
    | nil => rfl
    | cons idx rest =>
      unfold installPtr findDiskPtr
      rw [Option.isSome_map]
      exact installSlotPtr_isSome (children idx) rest new

theorem installSlotPtr_isSome (slot : RamSlot) (n : List Nibble) (new : DiskPtr) :
    (installSlotPtr slot n new).isSome = (findSlotPtr slot n).isSome := by
  match slot with
  | .none => rfl
  | .ram child =>
    unfold installSlotPtr findSlotPtr
    rw [Option.isSome_map]
    exact installPtr_isSome child n new
  | .disk ptr root => rfl
  | .account path nonce balance codeHash storage =>
    unfold installSlotPtr findSlotPtr
    by_cases hp : path.isPrefixOf n = true
    · rw [if_pos hp, if_pos hp, Option.isSome_map]
      exact installPtr_isSome storage _ new
    · rw [if_neg hp, if_neg hp]
      rfl
  | .mem bytes root => rfl

end

/-- **Lookup and install agree.**  The position of a disk slot finds its pointer and
installs into it; a string finds a pointer if and only if it can be installed into, and
then it is the same slot that changes, and no other. -/
theorem find_install_agree (node : RamNode) :
    (∀ p ptr root, (p, .disk ptr root) ∈ leafSlots node [] →
      findDiskPtr node p = some ptr ∧
        ∀ new, installPtr node p new = some (mapLeaves (setPtr p new) node [])) ∧
    ∀ n new, ((installPtr node n new).isSome ↔ (findDiskPtr node n).isSome) ∧
      ∀ ptr, findDiskPtr node n = some ptr → ∃ p root, p <+: n ∧
        (p, .disk ptr root) ∈ leafSlots node [] ∧
        installPtr node n new = some (mapLeaves (setPtr p new) node []) ∧
        leafSlots (mapLeaves (setPtr p new) node []) [] = (leafSlots node []).map fun e =>
          (e.1, if e.1 = p then .disk new root else e.2) := by
  constructor
  · intro p ptr root hp
    have hfind := findDiskPtr_leaf node [] p [] ptr root hp
    rw [List.append_nil] at hfind
    refine ⟨hfind, fun new => ?_⟩
    obtain ⟨q, root', hq, hmem, hins⟩ := installPtr_eq node [] p ptr new hfind
    rw [List.nil_append] at hmem hins
    have heq := leafSlots_apart node [] _ hmem _ hp hq
    rw [hins, (Prod.mk.inj heq).1]
  · intro n new
    refine ⟨by rw [installPtr_isSome], fun ptr hfind => ?_⟩
    obtain ⟨p, root, hp, hmem, hins⟩ := installPtr_eq node [] n ptr new hfind
    rw [List.nil_append] at hmem hins
    refine ⟨p, root, hp, hmem, hins, ?_⟩
    rw [leafSlots_mapLeaves (setPtr_keeps p new)]
    refine List.map_congr_left fun e he => ?_
    obtain ⟨q, slot⟩ := e
    by_cases hq : q = p
    · subst hq
      have heq := leafSlots_apart node [] _ he _ hmem List.prefix_rfl
      rw [(Prod.mk.inj heq).2]
      simp only [setPtr, if_true]
    · simp only [setPtr_ne hq, if_neg hq]

/-- Records below an extension, one of them in a promoted account's storage. -/
def nestedRecords : RamNode :=
  let storage : RamNode := .branch (Function.update (Function.update emptyChildren 6
    (.disk ⟨20, 30⟩ (.fill 0))) 7 (.mem [0] (.fill 0))) none
  .extension [1, 2] (.branch (Function.update (Function.update (Function.update emptyChildren 3
    (.disk ⟨7, 9⟩ (.fill 0))) 4 (.account [5] 1 1 (.fill 0) storage)) 8 (.disk ⟨9, 9⟩ (.fill 0)))
    none) none

/-- A string that runs on below the storage record changes that record alone. -/
theorem find_install_agree_nested :
    findDiskPtr nestedRecords [1, 2, 4, 5, 6, 0, 1] = some ⟨20, 30⟩ ∧
      ∃ after, installPtr nestedRecords [1, 2, 4, 5, 6, 0, 1] ⟨40, 30⟩ = some after ∧
        leafSlots after [] = [([1, 2, 3], .disk ⟨7, 9⟩ (.fill 0)),
          ([1, 2, 4, 5, 6], .disk ⟨40, 30⟩ (.fill 0)), ([1, 2, 4, 5, 7], .mem [0] (.fill 0)),
          ([1, 2, 8], .disk ⟨9, 9⟩ (.fill 0))] := by
  have hfind : findDiskPtr nestedRecords [1, 2, 4, 5, 6, 0, 1] = some ⟨20, 30⟩ := rfl
  obtain ⟨p, root, -, hmem, hins, hslots⟩ :=
    ((find_install_agree nestedRecords).2 [1, 2, 4, 5, 6, 0, 1] ⟨40, 30⟩).2 _ hfind
  have hleaves : leafSlots nestedRecords [] = [([1, 2, 3], .disk ⟨7, 9⟩ (.fill 0)),
      ([1, 2, 4, 5, 6], .disk ⟨20, 30⟩ (.fill 0)), ([1, 2, 4, 5, 7], .mem [0] (.fill 0)),
      ([1, 2, 8], .disk ⟨9, 9⟩ (.fill 0))] := rfl
  have hp : p = [1, 2, 4, 5, 6] ∧ root = .fill 0 := by
    rw [hleaves] at hmem
    simpa [DiskPtr.mk.injEq] using hmem
  obtain ⟨rfl, rfl⟩ := hp
  refine ⟨hfind, _, hins, ?_⟩
  rw [hslots, hleaves]
  rfl

end FlatMpt
