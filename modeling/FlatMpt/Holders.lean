import FlatMpt.Calls
import FlatMpt.Reclaim

/-!
# Pins and checkpoints

A snapshot holds the records of the frontier it froze, the manifest those of the
frontier it names.  Both are records that were owned once; here is what pinning,
dropping, persisting, prefetching and reopening do to the invariant of the store.

    snapRecs, pinsOf          -- the records of snapshots
    StoreInv.reseg            -- the allocator alone changes
    StoreInv.pin, unpin, persisted, prefetched, reopened
-/

namespace FlatMpt

open Prog RegionAlloc

/-! ## Records of snapshots -/

/-- Payloads of the records frozen at each generation, by path. -/
abbrev Payloads := Nat → List Nibble → Bytes

def snapRecs (pay : Payloads) (snap : Snapshot) : Multiset Rec := recsAt (pay snap.gen) snap.root

/-- The records of snapshots, with their generations. -/
noncomputable def pinsOf (pay : Payloads) (snaps : Multiset Snapshot) : List (Nat × Rec) :=
  (snaps.bind fun snap => (snapRecs pay snap).map fun x => (snap.gen, x)).toList

noncomputable def heldBy (pay : Payloads) (snaps : Multiset Snapshot) (saved : List Rec) : Holds :=
  ⟨pinsOf pay snaps, saved⟩

section
variable {pay : Payloads} {snaps snaps' : Multiset Snapshot} {gen : Nat} {x : Rec}

theorem mem_pinsOf :
    (gen, x) ∈ pinsOf pay snaps ↔ ∃ snap ∈ snaps, snap.gen = gen ∧ x ∈ snapRecs pay snap := by
  unfold pinsOf
  rw [Multiset.mem_toList, Multiset.mem_bind]
  refine exists_congr fun snap => and_congr_right fun _ => ?_
  rw [Multiset.mem_map]
  constructor
  · rintro ⟨y, hy, he⟩
    cases he
    exact ⟨rfl, hy⟩
  · rintro ⟨rfl, hx⟩
    exact ⟨x, hx, rfl⟩

theorem pinsOf_mono (h : ∀ snap ∈ snaps, snap ∈ snaps') :
    ∀ e ∈ pinsOf pay snaps, e ∈ pinsOf pay snaps' := by
  rintro ⟨gen, x⟩ he
  obtain ⟨snap, hs, hg, hx⟩ := mem_pinsOf.mp he
  exact mem_pinsOf.mpr ⟨snap, h snap hs, hg, hx⟩

/-- Payloads of other generations do not matter. -/
theorem snapRecs_update {snap : Snapshot} (p : List Nibble → Bytes) (h : snap.gen ≠ gen) :
    snapRecs (Function.update pay gen p) snap = snapRecs pay snap := by
  unfold snapRecs
  rw [Function.update_of_ne h]

theorem pinsOf_update (p : List Nibble → Bytes) (h : ∀ snap ∈ snaps, snap.gen ≠ gen) :
    pinsOf (Function.update pay gen p) snaps = pinsOf pay snaps := by
  unfold pinsOf
  refine congrArg _ (Multiset.bind_congr fun snap hs => ?_)
  rw [snapRecs_update p (h snap hs)]

end

/-! ## The allocator alone changes -/

section
variable {W W' : Holds} {s : Store} {g : Multiset Rec}

/-- Records pinned and saved afterwards were visible or stored before. -/
theorem StoreInv.reseg (hI : StoreInv W s g) {seg : RegionAlloc} (hr : seg.RegionsOk s.endPage)
    (ht : ∀ u n, s.seg.Taken s.endPage u n → seg.Taken s.endPage u n) (hl : seg.live = s.seg.live)
    (hp : ∀ gen x, (gen, x) ∈ W'.pinned → W.Visible g x ∧ seg.Pinned gen (regionOfUnit x.1.unit))
    (hs : ∀ x ∈ W'.saved, Stored s x ∧ seg.Saved (regionOfUnit x.1.unit) ∧
      ∀ e ∈ s.unsynced, Outside x e) : StoreInv W' { s with seg } g := by
  have hst : ∀ {x}, Stored s x → Stored { s with seg } x := fun h =>
    ⟨h.len, h.small, ht _ _ h.taken, h.framed⟩
  exact {
    regions := hr
    stored := fun x hx => hst (hI.stored x hx)
    counted := fun r => by
      show usedUnits g r ≤ seg.live r
      rw [hl]
      exact hI.counted r
    pinned := fun gen x hx => ⟨hst (hI.visible (hp gen x hx).1), (hp gen x hx).2⟩
    saved := fun x hx => ⟨hst (hs x hx).1, (hs x hx).2.1⟩
    cacheTaken := fun u payload he => ht _ _ (hI.cacheTaken u payload he)
    cacheOk := fun u payload he x hx hu =>
      hI.cacheOk u payload he x (hx.elim .inl fun ⟨gen, hm⟩ => (hp gen x hm).1) hu
    synced := fun e he x hx => (hs x hx).2.2 e he }

theorem StoreInv.savedAs (hI : StoreInv W s g) : ∀ x ∈ W.saved,
    Stored s x ∧ s.seg.Saved (regionOfUnit x.1.unit) ∧ ∀ e ∈ s.unsynced, Outside x e :=
  fun x hx => ⟨(hI.saved x hx).1, (hI.saved x hx).2, fun e he => hI.synced e he x hx⟩

/-- Fewer pins ask for less. -/
theorem StoreInv.forget (hI : StoreInv W s g) (hp : ∀ e ∈ W'.pinned, e ∈ W.pinned)
    (hs : ∀ x ∈ W'.saved, x ∈ W.saved) : StoreInv W' s g :=
  hI.reseg hI.regions (fun _ _ h => h) rfl
    (fun gen x hx => ⟨.inr ⟨gen, hp _ hx⟩, (hI.pinned gen x (hp _ hx)).2⟩)
    fun x hx => hI.savedAs x (hs x hx)

/-- A new pin sees records that are owned. -/
theorem StoreInv.pin (hI : StoreInv W s g)
    (hp : ∀ gen x, (gen, x) ∈ W'.pinned → (gen, x) ∈ W.pinned ∨ gen = s.seg.pinGen + 1 ∧ x ∈ g)
    (hs : W'.saved = W.saved) : StoreInv W' s.pin g := by
  refine hI.reseg hI.regions.pin (fun _ _ h => h.pin) rfl (fun gen x hx => ?_) fun x hx => ?_
  · rcases hp gen x hx with h | ⟨rfl, h⟩
    · exact ⟨.inr ⟨gen, h⟩, (hI.pinned gen x h).2.pin⟩
    · exact ⟨.inl h, pinned_pin (hI.not_parked h)⟩
  · rw [hs] at hx
    obtain ⟨h1, h2, h3⟩ := hI.savedAs x hx
    exact ⟨h1, ⟨h2.notFree, h2.notStaged, h2.notFresh⟩, h3⟩

/-- A pin is shared. -/
theorem StoreInv.pinAt (hI : StoreInv W s g) (gen : Nat) (hp : ∀ e ∈ W'.pinned, e ∈ W.pinned)
    (hs : W'.saved = W.saved) : StoreInv W' (s.pinAt gen) g := by
  refine hI.reseg (hI.regions.pinAt gen) (fun _ _ h => h.pinAt gen) rfl (fun gen' x hx => ?_)
    fun x hx => ?_
  · exact ⟨.inr ⟨gen', hp _ hx⟩, (hI.pinned gen' x (hp _ hx)).2.pinAt gen⟩
  · rw [hs] at hx
    obtain ⟨h1, h2, h3⟩ := hI.savedAs x hx
    exact ⟨h1, ⟨h2.notFree, h2.notStaged, h2.notFresh⟩, h3⟩

/-- A pin is dropped; what the others see stays. -/
theorem StoreInv.unpin (hI : StoreInv W s g) (gen : Nat) (hp : ∀ e ∈ W'.pinned, e ∈ W.pinned)
    (hlive : ∀ e ∈ W'.pinned, e.1 ∈ s.seg.livePins.erase gen) (hs : W'.saved = W.saved) :
    StoreInv W' (s.unpin gen) g := by
  refine hI.reseg (hI.regions.unpin gen) (fun _ _ h => h.unpin gen) rfl (fun gen' x hx => ?_)
    fun x hx => ?_
  · exact ⟨.inr ⟨gen', hp _ hx⟩, (hI.pinned gen' x (hp _ hx)).2.unpin (hlive _ hx)⟩
  · rw [hs] at hx
    obtain ⟨h1, h2, h3⟩ := hI.savedAs x hx
    exact ⟨h1, h2.unpin gen, h3⟩

/-- A sync and a manifest: owned records are saved. -/
theorem StoreInv.persisted (hI : StoreInv W s g) (hp : W'.pinned = W.pinned)
    (hs : ∀ x ∈ W'.saved, x ∈ g) :
    StoreInv W' { s with unsynced := [], seg := s.seg.onPersisted } g := by
  have h0 : StoreInv ⟨W.pinned, []⟩ s g :=
    hI.forget (fun _ h => h) fun _ h => absurd h List.not_mem_nil
  have hI' : StoreInv ⟨W.pinned, []⟩ { s with unsynced := [] } g :=
    h0.of_eq rfl rfl rfl rfl fun _ he => absurd he List.not_mem_nil
  refine hI'.reseg hI.regions.onPersisted (fun _ _ h => h.onPersisted) (onPersisted_head s.seg).1
    (fun gen x hx => ?_) fun x hx => ?_
  · rw [hp] at hx
    exact ⟨.inr ⟨gen, hx⟩, (hI.pinned gen x hx).2.onPersisted⟩
  · exact ⟨hI'.stored x (hs x hx), saved_onPersisted (hI.not_parked (hs x hx)),
      fun e he => absurd he List.not_mem_nil⟩

theorem StoreInv.fault (hI : StoreInv W s g) : StoreInv W s.fault.2 g :=
  hI.of_eq rfl rfl rfl rfl hI.synced

/-- Warming visible records. -/
theorem StoreInv.prefetched (hI : StoreInv W s g) {order : List DiskPtr}
    (h : ∀ p ∈ order, ∃ b, W.Visible g (p, b)) :
    StoreInv W (order.foldl Store.prefetchRecord s) g := by
  induction order generalizing s with
  | nil => exact hI
  | cons p order ih =>
    obtain ⟨b, hb⟩ := h p List.mem_cons_self
    exact ih (hI.prefetchRecord hb) fun q hq => h q (List.mem_cons_of_mem _ hq)

end

/-! ## Routed records -/

mutual

theorem findDiskPtrKey_mem (node : RamNode) (nibbles : List Nibble) {p : DiskPtr}
    (h : findDiskPtrKey node nibbles = some p) : p ∈ diskPtrs node := by
  match node with
  | .empty => cases h
  | .extension path child hash =>
    unfold findDiskPtrKey at h
    split at h
    · exact findDiskPtrKey_mem child _ h
    · cases h
  | .branch children hash =>
    unfold findDiskPtrKey at h
    split at h
    · cases h
    · rename_i idx rest
      exact List.mem_flatMap.mpr ⟨idx, List.mem_finRange idx, findSlotPtrKey_mem _ rest h⟩

theorem findSlotPtrKey_mem (slot : RamSlot) (nibbles : List Nibble) {p : DiskPtr}
    (h : findSlotPtrKey slot nibbles = some p) : p ∈ slotPtrs slot := by
  match slot with
  | .ram child => exact findDiskPtrKey_mem child nibbles h
  | .disk ptr root =>
    cases h
    exact List.mem_singleton.mpr rfl
  | .none => cases h
  | .mem _ _ => cases h
  | .account .. => cases h

end

mutual

theorem routeGroup_mem (node : RamNode) (rest : List Nibble) (upd : NetUpdate) :
    ∀ p ∈ routeGroup node rest upd, p ∈ diskPtrs node := by
  intro p hp
  match node with
  | .empty => cases hp
  | .extension path child hash =>
    unfold routeGroup at hp
    split at hp
    · exact routeGroup_mem child _ upd p hp
    · cases hp
  | .branch children hash =>
    unfold routeGroup at hp
    split at hp
    · cases hp
    · rename_i idx rest
      exact List.mem_flatMap.mpr ⟨idx, List.mem_finRange idx, routeGroupSlot_mem _ rest upd p hp⟩

theorem routeGroupSlot_mem (slot : RamSlot) (rest : List Nibble) (upd : NetUpdate) :
    ∀ p ∈ routeGroupSlot slot rest upd, p ∈ slotPtrs slot := by
  intro p hp
  match slot with
  | .none => cases hp
  | .mem _ _ => cases hp
  | .ram sub => exact routeGroup_mem sub rest upd p hp
  | .disk ptr root => exact hp
  | .account path nonce balance codeHash storage =>
    unfold routeGroupSlot at hp
    split at hp
    · cases hp
    · split at hp
      · exact hp
      · obtain ⟨e, -, he⟩ := List.mem_flatMap.mp hp
        exact findDiskPtrKey_mem storage _ (Option.mem_toList.mp he)

end

theorem prefetchPtrs_mem [Keccak] (upper : RamNode) (ops : List (Key × StateOp)) :
    ∀ p ∈ prefetchPtrs upper ops, p ∈ diskPtrs upper := by
  intro p hp
  obtain ⟨e, -, he⟩ := List.mem_flatMap.mp hp
  exact routeGroup_mem upper _ e.2 p he

/-! ## Reopening -/

theorem sum_filter_units (ptrs : List DiskPtr) (r : Nat) :
    ((ptrs.filter fun p => regionOfUnit p.unit = r).map DiskPtr.units).sum =
      (ptrs.map fun p => if regionOfUnit p.unit = r then p.units else 0).sum := by
  induction ptrs with
  | nil => rfl
  | cons p ptrs ih =>
    rw [List.map_cons, List.sum_cons, ← ih, List.filter_cons]
    by_cases h : regionOfUnit p.unit = r
    · rw [if_pos (decide_eq_true h), if_pos h, List.map_cons, List.sum_cons]
    · rw [if_neg (by simp [h]), if_neg h, zero_add]

/-- Units that a frontier's records occupy. -/
theorem usedUnits_recsAt (pay : List Nibble → Bytes) (node : RamNode) (r : Nat) :
    usedUnits (recsAt pay node) r =
      (((diskPtrs node).filter fun p => regionOfUnit p.unit = r).map DiskPtr.units).sum := by
  have h := congrArg (fun ps : Multiset DiskPtr =>
    (ps.map fun p => if regionOfUnit p.unit = r then p.units else 0).sum) (map_fst_recsAt pay node)
  simp only [Multiset.map_map] at h
  rw [sum_filter_units]
  exact h

/-- The live counts of a reopened file are those of its frontier. -/
theorem recomputeLive_eq (pay : List Nibble → Bytes) {node : RamNode} {regions : Nat}
    (h : ∀ x ∈ recsAt pay node, regionOfUnit x.1.unit < regions) (r : Nat) :
    recomputeLive (diskPtrs node) regions r = usedUnits (recsAt pay node) r := by
  unfold recomputeLive
  split
  · exact (usedUnits_recsAt pay node r).symm
  · rename_i hr
    refine (usedUnits_eq_zero fun x hx he => hr ?_).symm
    rw [← he]
    exact h x hx

/-- What was saved is what `open` finds. -/
theorem StoreInv.reopened {W : Holds} {s : Store} {g : Multiset Rec} (hI : StoreInv W s g)
    {file : Nat → UInt8} (hfile : Survives s file) {cp : Checkpoint} {pay : List Nibble → Bytes}
    (hsaved : ∀ x, x ∈ W.saved ↔ x ∈ recsAt pay cp.upper)
    (hin : ∀ x ∈ W.saved, regionOfUnit x.1.unit < regionCeil cp.endPage) (direct : Bool)
    (faults : List Bool) :
    StoreInv ⟨[], W.saved⟩ (Sys.reopen cp file direct faults).store (recsAt pay cp.upper) := by
  have hceil := AllocState.reopen_ceil cp file direct faults
  have hst : ∀ x ∈ W.saved, Stored (Sys.reopen cp file direct faults).store x := by
    intro x hx
    obtain ⟨hold, -⟩ := hI.saved x hx
    refine ⟨hold.len, hold.small, ⟨hold.taken.pos, hold.taken.inRegion, ?_, List.not_mem_nil, ?_⟩, ?_⟩
    · rw [hceil]
      exact hin x hx
    · intro he
      have he : regionOfUnit x.1.unit = regionCeil cp.endPage := he
      exact absurd (hin x hx) (by rw [he]; exact lt_irrefl _)
    · have hb := Stored.units_bound x
      refine (readBytesAt_congr fun y h1 h2 => hfile y fun e he => ?_).trans hold.framed
      rcases hI.synced e he x hx with h | h
      · exact .inl (by omega)
      · exact .inr (by omega)
  exact {
    regions := (AllocState.Start.reopen cp file direct faults).ok.regions
    stored := fun x hx => hst x ((hsaved x).mpr hx)
    counted := fun r => by
      show _ ≤ recomputeLive (diskPtrs cp.upper) (regionCeil cp.endPage) r
      rw [recomputeLive_eq pay fun x hx => hin x ((hsaved x).mpr hx)]
    pinned := fun _ _ hx => absurd hx List.not_mem_nil
    saved := fun x hx => ⟨hst x hx, ⟨List.not_mem_nil, List.not_mem_nil, rfl⟩⟩
    cacheTaken := fun _ _ he => absurd he List.not_mem_nil
    cacheOk := fun _ _ he => absurd he List.not_mem_nil
    synced := fun _ he => absurd he List.not_mem_nil }

end FlatMpt
