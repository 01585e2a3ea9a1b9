import FlatMpt.Store

/-!
# Region allocator invariants

A region is parked when it waits in one of the four lists of dead regions.

    RegionsOk         -- parked regions are dead, distinct and not the head
    Taken u n         -- units handed out that no later run can overlap while the
                         region stays out of `freeRegions`
    Pinned gen r      -- a live pin of generation `gen` keeps the region from reuse
    Saved r           -- the last checkpoint keeps the region from reuse

Each step of the allocator has one lemma per predicate.
-/

namespace FlatMpt

theorem unit_pos (p : DiskPtr) : 0 < p.units := by
  unfold DiskPtr.units unitsFor RECORD_HDR ADDR_UNIT
  omega

namespace RegionAlloc

/-- The dead regions that wait for reuse. -/
def parked (s : RegionAlloc) : List Nat :=
  s.freeRegions ++ (s.stagedFree ++ (s.quarantine ++ s.snapHold.map Prod.fst))

theorem mem_parked {s : RegionAlloc} {r : Nat} :
    r ∈ s.parked ↔
      r ∈ s.freeRegions ∨ r ∈ s.stagedFree ∨ r ∈ s.quarantine ∨ ∃ tag, (r, tag) ∈ s.snapHold := by
  simp [parked]

structure RegionsOk (s : RegionAlloc) (endPage : Nat) : Prop where
  nodup : s.parked.Nodup
  dead : ∀ r ∈ s.parked, s.live r = 0 ∧ r ≠ s.headRegion ∧ r < regionCeil endPage
  live_lt : ∀ r, s.live r ≠ 0 → r < regionCeil endPage
  head_le : s.headRegion * REGION_UNITS ≤ s.nextUnit
  le_head : s.nextUnit ≤ s.headRegion * REGION_UNITS + REGION_UNITS

/-- The units `[unit, unit + n)` belong to a region that is not free, below the
next free unit if the region is the head. -/
structure Taken (s : RegionAlloc) (endPage unit n : Nat) : Prop where
  pos : 0 < n
  inRegion : unit + n ≤ regionOfUnit unit * REGION_UNITS + REGION_UNITS
  inFile : regionOfUnit unit < regionCeil endPage
  notFree : regionOfUnit unit ∉ s.freeRegions
  belowHead : regionOfUnit unit = s.headRegion → unit + n ≤ s.nextUnit

/-- The region cannot be reopened while the pin lives. -/
structure Pinned (s : RegionAlloc) (gen r : Nat) : Prop where
  live : gen ∈ s.livePins
  le_gen : gen ≤ s.pinGen
  notFree : r ∉ s.freeRegions
  notStaged : r ∉ s.stagedFree
  notQuarantined : r ∉ s.quarantine
  tagged : ∀ tag, (r, tag) ∈ s.snapHold → gen ≤ tag

/-- The region cannot be reopened before the next persist. -/
structure Saved (s : RegionAlloc) (r : Nat) : Prop where
  notFree : r ∉ s.freeRegions
  notStaged : r ∉ s.stagedFree
  notFresh : s.fresh r = false

theorem regionOfUnit_bounds (unit : Nat) :
    regionOfUnit unit * REGION_UNITS ≤ unit ∧
      unit < regionOfUnit unit * REGION_UNITS + REGION_UNITS := by
  unfold regionOfUnit REGION_UNITS REGION_PAGES UNITS_PER_PAGE PAGE ADDR_UNIT
  omega

theorem regionOfUnit_eq {unit r : Nat} (h1 : r * REGION_UNITS ≤ unit)
    (h2 : unit < r * REGION_UNITS + REGION_UNITS) : regionOfUnit unit = r := by
  unfold regionOfUnit REGION_UNITS REGION_PAGES UNITS_PER_PAGE PAGE ADDR_UNIT at *
  omega

theorem Taken.one {a : RegionAlloc} {endPage u n : Nat} (h : a.Taken endPage u n) :
    a.Taken endPage u 1 := by
  have hb := regionOfUnit_bounds u
  have hpos := h.pos
  refine ⟨Nat.one_pos, by omega, h.inFile, h.notFree, fun he => ?_⟩
  have := h.belowHead he
  omega

theorem regionCeil_mono {a b : Nat} (h : a ≤ b) : regionCeil a ≤ regionCeil b := by
  unfold regionCeil REGION_PAGES
  omega

/-- A file that reaches past a unit reaches past its region's start. -/
theorem lt_regionCeil_pageCeil {r next : Nat} (h : r * REGION_UNITS < next) :
    r < regionCeil (pageCeil next) := by
  unfold regionCeil pageCeil REGION_UNITS REGION_PAGES UNITS_PER_PAGE PAGE ADDR_UNIT at *
  omega

/-! ## Opening a head -/

theorem openNewHead_parked (s : RegionAlloc) (endPage : Nat) :
    s.parked = (s.freeRegions.head?.toList) ++ (s.openNewHead endPage).parked := by
  unfold parked openNewHead
  cases s.freeRegions <;> rfl

theorem RegionsOk.nextHead_not_parked {s : RegionAlloc} {endPage : Nat} (h : s.RegionsOk endPage) :
    s.nextHead endPage ∉ (s.openNewHead endPage).parked := by
  intro hmem
  have hn := h.nodup
  rw [openNewHead_parked s endPage] at hn
  unfold nextHead at hmem
  cases hf : s.freeRegions with
  | nil =>
    rw [hf] at hmem
    have hp : regionCeil endPage ∈ s.parked := by
      rw [openNewHead_parked s endPage]
      exact List.mem_append_right _ hmem
    exact absurd (h.dead _ hp).2.2 (lt_irrefl _)
  | cons r rest =>
    rw [hf] at hmem hn
    exact (List.nodup_cons.mp hn).1 hmem

theorem RegionsOk.openNewHead {s : RegionAlloc} {endPage : Nat} (h : s.RegionsOk endPage) :
    (s.openNewHead endPage).RegionsOk endPage where
  nodup := by
    have hn := h.nodup
    rw [openNewHead_parked s endPage] at hn
    exact (List.nodup_append.mp hn).2.1
  dead r hr := by
    have hp : r ∈ s.parked := by
      rw [openNewHead_parked s endPage]
      exact List.mem_append_right _ hr
    refine ⟨(h.dead r hp).1, ?_, (h.dead r hp).2.2⟩
    rintro rfl
    exact h.nextHead_not_parked hr
  live_lt := h.live_lt
  head_le := le_rfl
  le_head := Nat.le_add_right _ _

/-- A region outside the free list and inside the file is not the next head. -/
theorem ne_nextHead {s : RegionAlloc} {endPage r : Nat} (hf : r ∉ s.freeRegions)
    (hr : r < regionCeil endPage) : r ≠ s.nextHead endPage := by
  unfold nextHead
  cases hl : s.freeRegions with
  | nil => exact Nat.ne_of_lt hr
  | cons x rest =>
    rintro rfl
    refine hf ?_
    rw [hl]
    exact List.mem_cons_self

theorem Taken.openNewHead {s : RegionAlloc} {endPage unit n : Nat} (h : s.Taken endPage unit n) :
    (s.openNewHead endPage).Taken endPage unit n where
  pos := h.pos
  inRegion := h.inRegion
  inFile := h.inFile
  notFree hm := h.notFree (List.mem_of_mem_tail hm)
  belowHead he := absurd he (ne_nextHead h.notFree h.inFile)

theorem Pinned.openNewHead {s : RegionAlloc} {gen r : Nat} (h : s.Pinned gen r) (endPage : Nat) :
    (s.openNewHead endPage).Pinned gen r where
  live := h.live
  le_gen := h.le_gen
  notFree hm := h.notFree (List.mem_of_mem_tail hm)
  notStaged := h.notStaged
  notQuarantined := h.notQuarantined
  tagged := h.tagged

theorem Saved.openNewHead {s : RegionAlloc} {r endPage : Nat} (h : s.Saved r)
    (hr : r < regionCeil endPage) : (s.openNewHead endPage).Saved r where
  notFree hm := h.notFree (List.mem_of_mem_tail hm)
  notStaged := h.notStaged
  notFresh := by
    show Function.update s.fresh (s.nextHead endPage) true r = false
    rw [Function.update_of_ne (ne_nextHead h.notFree hr)]
    exact h.notFresh

/-! ## Allocation -/

/-- `withRoom` changes nothing or opens a new head. -/
theorem withRoom_cases (s : RegionAlloc) (runUnits endPage : Nat) :
    s.withRoom runUnits endPage = s.openNewHead endPage ∨
      s.withRoom runUnits endPage = s ∧
        s.nextUnit + runUnits ≤ s.headRegion * REGION_UNITS + REGION_UNITS := by
  unfold withRoom
  split
  · exact .inl rfl
  · exact .inr ⟨rfl, by omega⟩

/-- The new run fits in the head region. -/
theorem withRoom_fits (s : RegionAlloc) {runUnits : Nat} (endPage : Nat) (hrun : runUnits ≤ REGION_UNITS) :
    (s.withRoom runUnits endPage).nextUnit + runUnits ≤
      (s.withRoom runUnits endPage).headRegion * REGION_UNITS + REGION_UNITS := by
  obtain h | ⟨h, hfit⟩ := withRoom_cases s runUnits endPage
  · rw [h]
    show s.nextHead endPage * REGION_UNITS + runUnits ≤ s.nextHead endPage * REGION_UNITS + _
    omega
  · rw [h]
    exact hfit

theorem RegionsOk.withRoom {s : RegionAlloc} {endPage : Nat} (h : s.RegionsOk endPage)
    (runUnits : Nat) : (s.withRoom runUnits endPage).RegionsOk endPage := by
  obtain he | ⟨he, -⟩ := withRoom_cases s runUnits endPage
  · rw [he]; exact h.openNewHead
  · rw [he]; exact h

theorem Taken.withRoom {s : RegionAlloc} {endPage unit n : Nat} (h : s.Taken endPage unit n)
    (runUnits : Nat) : (s.withRoom runUnits endPage).Taken endPage unit n := by
  obtain he | ⟨he, -⟩ := withRoom_cases s runUnits endPage
  · rw [he]; exact h.openNewHead
  · rw [he]; exact h

theorem Pinned.withRoom {s : RegionAlloc} {gen r : Nat} (h : s.Pinned gen r)
    (runUnits endPage : Nat) : (s.withRoom runUnits endPage).Pinned gen r := by
  obtain he | ⟨he, -⟩ := withRoom_cases s runUnits endPage
  · rw [he]; exact h.openNewHead endPage
  · rw [he]; exact h

theorem Saved.withRoom {s : RegionAlloc} {r endPage : Nat} (h : s.Saved r)
    (hr : r < regionCeil endPage) (runUnits : Nat) : (s.withRoom runUnits endPage).Saved r := by
  obtain he | ⟨he, -⟩ := withRoom_cases s runUnits endPage
  · rw [he]; exact h.openNewHead hr
  · rw [he]; exact h

theorem withRoom_live (s : RegionAlloc) (runUnits endPage : Nat) :
    (s.withRoom runUnits endPage).live = s.live := by
  unfold RegionAlloc.withRoom
  split <;> rfl

/-- What `alloc` returns. -/
theorem alloc_eq_ok {s s' : RegionAlloc} {runUnits liveUnits endPage endPage' unit : Nat}
    (h : s.alloc runUnits liveUnits endPage = .ok (unit, s', endPage')) :
    runUnits ≤ REGION_UNITS ∧ unit = (s.withRoom runUnits endPage).nextUnit ∧
      endPage' = max endPage (pageCeil (unit + runUnits)) ∧
      s' = { s.withRoom runUnits endPage with
        nextUnit := unit + runUnits
        live := Function.update s.live (s.withRoom runUnits endPage).headRegion
          (s.live (s.withRoom runUnits endPage).headRegion + liveUnits) } := by
  unfold alloc at h
  split at h
  · cases h
  · simp only [Except.ok.injEq, Prod.mk.injEq] at h
    obtain ⟨rfl, rfl, rfl⟩ := h
    refine ⟨by omega, rfl, rfl, ?_⟩
    rw [withRoom_live]

section
variable {s s' : RegionAlloc} {runUnits liveUnits endPage endPage' unit : Nat}

theorem RegionsOk.alloc (h : s.RegionsOk endPage) (hpos : 0 < runUnits)
    (ha : s.alloc runUnits liveUnits endPage = .ok (unit, s', endPage')) :
    s'.RegionsOk endPage' := by
  obtain ⟨hrun, rfl, rfl, rfl⟩ := alloc_eq_ok ha
  have ht := h.withRoom runUnits
  have hfit := withRoom_fits s endPage hrun
  have hceil := regionCeil_mono (Nat.le_max_left endPage
    (pageCeil ((s.withRoom runUnits endPage).nextUnit + runUnits)))
  constructor
  · exact ht.nodup
  · intro r hr
    obtain ⟨hlive, hne, hlt⟩ := ht.dead r hr
    refine ⟨?_, hne, lt_of_lt_of_le hlt hceil⟩
    rw [withRoom_live] at hlive
    show Function.update s.live _ _ r = 0
    rw [Function.update_of_ne hne]
    exact hlive
  · intro r hr
    by_cases he : r = (s.withRoom runUnits endPage).headRegion
    · subst he
      refine lt_of_lt_of_le (lt_regionCeil_pageCeil ?_) (regionCeil_mono (Nat.le_max_right _ _))
      have := ht.head_le
      omega
    · refine lt_of_lt_of_le (h.live_lt r ?_) hceil
      intro h0
      apply hr
      show Function.update s.live _ _ r = 0
      rw [Function.update_of_ne he]
      exact h0
  · have := ht.head_le
    show (s.withRoom runUnits endPage).headRegion * REGION_UNITS ≤
      (s.withRoom runUnits endPage).nextUnit + runUnits
    omega
  · exact hfit

theorem Taken.alloc {u n : Nat} (h : s.Taken endPage u n)
    (ha : s.alloc runUnits liveUnits endPage = .ok (unit, s', endPage')) :
    s'.Taken endPage' u n := by
  obtain ⟨-, rfl, rfl, rfl⟩ := alloc_eq_ok ha
  have ht := h.withRoom runUnits
  exact {
    pos := ht.pos
    inRegion := ht.inRegion
    inFile := lt_of_lt_of_le ht.inFile (regionCeil_mono (Nat.le_max_left _ _))
    notFree := ht.notFree
    belowHead := fun he => Nat.le_trans (ht.belowHead he) (Nat.le_add_right _ _) }

theorem Pinned.alloc {gen r : Nat} (h : s.Pinned gen r)
    (ha : s.alloc runUnits liveUnits endPage = .ok (unit, s', endPage')) : s'.Pinned gen r := by
  obtain ⟨-, rfl, rfl, rfl⟩ := alloc_eq_ok ha
  have ht := h.withRoom runUnits endPage
  exact ⟨ht.live, ht.le_gen, ht.notFree, ht.notStaged, ht.notQuarantined, ht.tagged⟩

theorem Saved.alloc {r : Nat} (h : s.Saved r) (hr : r < regionCeil endPage)
    (ha : s.alloc runUnits liveUnits endPage = .ok (unit, s', endPage')) : s'.Saved r := by
  obtain ⟨-, rfl, rfl, rfl⟩ := alloc_eq_ok ha
  have ht := h.withRoom hr runUnits
  exact ⟨ht.notFree, ht.notStaged, ht.notFresh⟩

/-- The new run lies in one region, apart from all units taken before. -/
theorem alloc_disjoint {u n : Nat} (h : s.RegionsOk endPage) (hu : s.Taken endPage u n)
    (ha : s.alloc runUnits liveUnits endPage = .ok (unit, s', endPage')) :
    u + n ≤ unit ∨ unit + runUnits ≤ u := by
  obtain ⟨hrun, rfl, -, -⟩ := alloc_eq_ok ha
  have ht := hu.withRoom runUnits
  have hhead := (h.withRoom runUnits).head_le
  have hfit := withRoom_fits s endPage hrun
  have hb := regionOfUnit_bounds u
  have hin := ht.inRegion
  rcases Nat.lt_trichotomy (regionOfUnit u) (s.withRoom runUnits endPage).headRegion with
    hlt | heq | hgt
  · have := Nat.mul_le_mul_right REGION_UNITS (Nat.succ_le_of_lt hlt)
    rw [Nat.succ_mul] at this
    omega
  · exact .inl (ht.belowHead heq)
  · have := Nat.mul_le_mul_right REGION_UNITS (Nat.succ_le_of_lt hgt)
    rw [Nat.succ_mul] at this
    omega

/-- The units of the new run are taken. -/
theorem alloc_taken {u n : Nat} (h : s.RegionsOk endPage)
    (ha : s.alloc runUnits liveUnits endPage = .ok (unit, s', endPage')) (hn : 0 < n)
    (hle : unit ≤ u) (hend : u + n ≤ unit + runUnits) :
    s'.Taken endPage' u n ∧ regionOfUnit u = s'.headRegion := by
  have hpos : 0 < runUnits := by omega
  have hok := h.alloc hpos ha
  obtain ⟨hrun, rfl, rfl, rfl⟩ := alloc_eq_ok ha
  have ht := h.withRoom runUnits
  have hfit := withRoom_fits s endPage hrun
  have hhead := ht.head_le
  have hreg : regionOfUnit u = (s.withRoom runUnits endPage).headRegion :=
    regionOfUnit_eq (by omega) (by omega)
  refine ⟨⟨hn, ?_, ?_, ?_, fun _ => hend⟩, hreg⟩
  · rw [hreg]; omega
  · rw [hreg]
    exact lt_of_lt_of_le (lt_regionCeil_pageCeil (by omega)) (regionCeil_mono (Nat.le_max_right _ _))
  · intro hm
    exact (ht.dead _ (mem_parked.mpr (.inl hm))).2.1 hreg

end

/-! ## Freeing -/

theorem retire_parked (s : RegionAlloc) (r : Nat) : (s.retire r).parked.Perm (r :: s.parked) := by
  unfold retire parked
  split
  · simp only [List.map_append, List.map_cons, List.map_nil, ← List.append_assoc]
    exact List.perm_append_singleton r _
  · split
    · exact List.perm_middle
    · refine List.Perm.trans (List.Perm.append_left _ ?_) List.perm_middle
      exact List.perm_middle

theorem retire_live (s : RegionAlloc) (r : Nat) : (s.retire r).live = s.live := by
  unfold retire
  split
  · rfl
  · split <;> rfl

theorem retire_head (s : RegionAlloc) (r : Nat) :
    (s.retire r).headRegion = s.headRegion ∧ (s.retire r).nextUnit = s.nextUnit ∧
      (s.retire r).freeRegions = s.freeRegions := by
  unfold retire
  split
  · exact ⟨rfl, rfl, rfl⟩
  · split <;> exact ⟨rfl, rfl, rfl⟩

/-- The allocator with some units off one region's count. -/
def lowered (s : RegionAlloc) (r units : Nat) : RegionAlloc :=
  { s with live := Function.update s.live r (s.live r - units) }

/-- `free` lowers one live count, and retires the region if it was the last. -/
theorem free_cases (s : RegionAlloc) (unit units : Nat) :
    s.free unit units = s ∨ s.free unit units = s.lowered (regionOfUnit unit) units ∨
      0 < s.live (regionOfUnit unit) ∧ s.live (regionOfUnit unit) - units = 0 ∧
        regionOfUnit unit ≠ s.headRegion ∧
        s.free unit units = (s.lowered (regionOfUnit unit) units).retire (regionOfUnit unit) := by
  by_cases hr : s.regions ≤ regionOfUnit unit
  · exact .inl (if_pos hr)
  · have hfree : s.free unit units = if 0 < s.live (regionOfUnit unit) ∧
        s.live (regionOfUnit unit) - units = 0 ∧ regionOfUnit unit ≠ s.headRegion then
        (s.lowered (regionOfUnit unit) units).retire (regionOfUnit unit)
        else s.lowered (regionOfUnit unit) units := if_neg hr
    rw [hfree]
    split
    · rename_i h
      exact .inr (.inr ⟨h.1, h.2.1, h.2.2, rfl⟩)
    · exact .inr (.inl rfl)

theorem RegionsOk.lowered {s : RegionAlloc} {endPage : Nat} (h : s.RegionsOk endPage)
    (r units : Nat) :
    (s.lowered r units).RegionsOk endPage where
  nodup := h.nodup
  dead q hq := by
    obtain ⟨h0, hne, hlt⟩ := h.dead q hq
    refine ⟨?_, hne, hlt⟩
    by_cases he : q = r
    · subst he
      show Function.update s.live q _ q = 0
      rw [Function.update_self]
      omega
    · show Function.update s.live r _ q = 0
      rw [Function.update_of_ne he]
      exact h0
  live_lt q hq := by
    apply h.live_lt q
    intro h0
    apply hq
    by_cases he : q = r
    · subst he
      show Function.update s.live q _ q = 0
      rw [Function.update_self]
      omega
    · show Function.update s.live r _ q = 0
      rw [Function.update_of_ne he]
      exact h0
  head_le := h.head_le
  le_head := h.le_head

theorem RegionsOk.retire {s : RegionAlloc} {endPage r : Nat} (h : s.RegionsOk endPage)
    (h0 : s.live r = 0) (hne : r ≠ s.headRegion) (hlt : r < regionCeil endPage)
    (hr : r ∉ s.parked) : (s.retire r).RegionsOk endPage where
  nodup := (retire_parked s r).nodup_iff.mpr (List.nodup_cons.mpr ⟨hr, h.nodup⟩)
  dead q hq := by
    rw [retire_live, (retire_head s r).1]
    rcases List.mem_cons.mp ((retire_parked s r).mem_iff.mp hq) with rfl | hq
    · exact ⟨h0, hne, hlt⟩
    · exact h.dead q hq
  live_lt q hq := by
    rw [retire_live] at hq
    exact h.live_lt q hq
  head_le := by rw [(retire_head s r).1, (retire_head s r).2.1]; exact h.head_le
  le_head := by rw [(retire_head s r).1, (retire_head s r).2.1]; exact h.le_head

theorem RegionsOk.free {s : RegionAlloc} {endPage : Nat} (h : s.RegionsOk endPage)
    (unit units : Nat) : (s.free unit units).RegionsOk endPage := by
  obtain he | he | ⟨hpos, hzero, hne, he⟩ := free_cases s unit units
  · rw [he]; exact h
  · rw [he]; exact h.lowered _ _
  · rw [he]
    refine (h.lowered _ _).retire ?_ hne (h.live_lt _ (by omega)) ?_
    · show Function.update s.live _ _ _ = 0
      rw [Function.update_self, hzero]
    · intro hm
      have := (h.dead _ hm).1
      omega

theorem Taken.free {s : RegionAlloc} {endPage u n : Nat} (h : s.Taken endPage u n)
    (unit units : Nat) : (s.free unit units).Taken endPage u n := by
  obtain he | he | ⟨-, -, -, he⟩ := free_cases s unit units
  · rw [he]; exact h
  · rw [he]; exact ⟨h.pos, h.inRegion, h.inFile, h.notFree, h.belowHead⟩
  · rw [he]
    obtain ⟨hhead, hnext, hfree⟩ := retire_head (s.lowered (regionOfUnit unit) units)
      (regionOfUnit unit)
    refine ⟨h.pos, h.inRegion, h.inFile, ?_, ?_⟩
    · rw [hfree]; exact h.notFree
    · rw [hhead, hnext]; exact h.belowHead

theorem Pinned.retire {s : RegionAlloc} {gen r : Nat} (h : s.Pinned gen r) (q : Nat) :
    (s.retire q).Pinned gen r := by
  have hpins : s.livePins ≠ [] := List.ne_nil_of_mem h.live
  unfold RegionAlloc.retire
  rw [if_pos hpins]
  refine ⟨h.live, h.le_gen, h.notFree, h.notStaged, h.notQuarantined, ?_⟩
  intro tag htag
  rcases List.mem_append.mp htag with htag | htag
  · exact h.tagged tag htag
  · rw [List.mem_singleton, Prod.mk.injEq] at htag
    rw [htag.2]
    exact h.le_gen

theorem Pinned.free {s : RegionAlloc} {gen r : Nat} (h : s.Pinned gen r) (unit units : Nat) :
    (s.free unit units).Pinned gen r := by
  have hlow : ∀ q, (s.lowered q units).Pinned gen r :=
    fun _ => ⟨h.live, h.le_gen, h.notFree, h.notStaged, h.notQuarantined, h.tagged⟩
  obtain he | he | ⟨-, -, -, he⟩ := free_cases s unit units
  · rw [he]; exact h
  · rw [he]; exact hlow _
  · rw [he]; exact (hlow _).retire _

theorem Saved.retire {s : RegionAlloc} {r : Nat} (h : s.Saved r) (q : Nat) :
    (s.retire q).Saved r := by
  unfold RegionAlloc.retire
  split
  · exact ⟨h.notFree, h.notStaged, h.notFresh⟩
  · split
    · rename_i hq
      refine ⟨h.notFree, ?_, h.notFresh⟩
      rintro hm
      rcases List.mem_cons.mp hm with rfl | hm
      · rw [h.notFresh] at hq
        exact absurd hq (by simp)
      · exact h.notStaged hm
    · exact ⟨h.notFree, h.notStaged, h.notFresh⟩

theorem Saved.free {s : RegionAlloc} {r : Nat} (h : s.Saved r) (unit units : Nat) :
    (s.free unit units).Saved r := by
  have hlow : ∀ q, (s.lowered q units).Saved r :=
    fun _ => ⟨h.notFree, h.notStaged, h.notFresh⟩
  obtain he | he | ⟨-, -, -, he⟩ := free_cases s unit units
  · rw [he]; exact h
  · rw [he]; exact hlow _
  · rw [he]; exact (hlow _).retire _

/-- `free` takes at most its units off one region's count. -/
theorem le_free_live (s : RegionAlloc) (unit units r : Nat) :
    s.live r ≤ (s.free unit units).live r + (if r = regionOfUnit unit then units else 0) := by
  have hlow : s.live r ≤ (s.lowered (regionOfUnit unit) units).live r +
      (if r = regionOfUnit unit then units else 0) := by
    unfold lowered
    by_cases hr : r = regionOfUnit unit
    · subst hr
      simp only [Function.update_self, if_true]
      omega
    · simp only [Function.update_of_ne hr, if_neg hr]
      omega
  obtain he | he | ⟨-, -, -, he⟩ := free_cases s unit units
  · rw [he]; omega
  · rw [he]; exact hlow
  · rw [he, retire_live]; exact hlow

/-! ## Boundaries -/

theorem RegionsOk.of_perm {s s' : RegionAlloc} {endPage : Nat} (h : s.RegionsOk endPage)
    (hp : s'.parked.Perm s.parked) (hlive : s'.live = s.live)
    (hhead : s'.headRegion = s.headRegion) (hnext : s'.nextUnit = s.nextUnit) :
    s'.RegionsOk endPage where
  nodup := hp.nodup_iff.mpr h.nodup
  dead r hr := by rw [hlive, hhead]; exact h.dead r (hp.mem_iff.mp hr)
  live_lt r hr := by rw [hlive] at hr; exact h.live_lt r hr
  head_le := by rw [hhead, hnext]; exact h.head_le
  le_head := by rw [hhead, hnext]; exact h.le_head

theorem drainStaged_parked (s : RegionAlloc) : s.drainStaged.parked.Perm s.parked := by
  unfold drainStaged parked
  rw [List.nil_append, List.append_assoc]
  exact List.perm_append_comm_assoc ..

theorem RegionsOk.drainStaged {s : RegionAlloc} {endPage : Nat} (h : s.RegionsOk endPage) :
    s.drainStaged.RegionsOk endPage :=
  h.of_perm (drainStaged_parked s) rfl rfl rfl

theorem Taken.drainStaged {s : RegionAlloc} {endPage u n : Nat} (h : s.Taken endPage u n)
    (hs : regionOfUnit u ∉ s.stagedFree) : s.drainStaged.Taken endPage u n where
  pos := h.pos
  inRegion := h.inRegion
  inFile := h.inFile
  notFree hm := (List.mem_append.mp hm).elim hs h.notFree
  belowHead := h.belowHead

theorem Pinned.drainStaged {s : RegionAlloc} {gen r : Nat} (h : s.Pinned gen r) :
    s.drainStaged.Pinned gen r where
  live := h.live
  le_gen := h.le_gen
  notFree hm := (List.mem_append.mp hm).elim h.notStaged h.notFree
  notStaged := List.not_mem_nil
  notQuarantined := h.notQuarantined
  tagged := h.tagged

theorem Saved.drainStaged {s : RegionAlloc} {r : Nat} (h : s.Saved r) : s.drainStaged.Saved r where
  notFree hm := (List.mem_append.mp hm).elim h.notStaged h.notFree
  notStaged := List.not_mem_nil
  notFresh := h.notFresh

theorem onPersisted_parked (s : RegionAlloc) : s.onPersisted.parked.Perm s.parked := by
  unfold onPersisted parked
  split
  · simp only [List.map_append, List.map_map, List.nil_append]
    refine List.Perm.append_left _ (List.Perm.append_left _ ?_)
    refine List.perm_append_comm.trans (List.Perm.append_right _ ?_)
    rw [show (Prod.fst ∘ fun r => (r, s.pinGen)) = id from rfl, List.map_id]
    exact List.reverse_perm _
  · simp only [List.nil_append, List.append_assoc]
    exact List.Perm.append_left _ (List.perm_append_comm_assoc ..)

theorem onPersisted_head (s : RegionAlloc) :
    s.onPersisted.live = s.live ∧ s.onPersisted.headRegion = s.headRegion ∧
      s.onPersisted.nextUnit = s.nextUnit ∧ s.onPersisted.freeRegions = s.freeRegions ∧
      s.onPersisted.livePins = s.livePins ∧ s.onPersisted.pinGen = s.pinGen := by
  unfold onPersisted
  split <;> exact ⟨rfl, rfl, rfl, rfl, rfl, rfl⟩

theorem RegionsOk.onPersisted {s : RegionAlloc} {endPage : Nat} (h : s.RegionsOk endPage) :
    s.onPersisted.RegionsOk endPage := by
  obtain ⟨hl, hh, hn, -⟩ := onPersisted_head s
  exact h.of_perm (onPersisted_parked s) hl hh hn

theorem Taken.onPersisted {s : RegionAlloc} {endPage u n : Nat} (h : s.Taken endPage u n) :
    s.onPersisted.Taken endPage u n := by
  obtain ⟨-, hh, hn, hf, -⟩ := onPersisted_head s
  refine ⟨h.pos, h.inRegion, h.inFile, ?_, ?_⟩
  · rw [hf]; exact h.notFree
  · rw [hh, hn]; exact h.belowHead

theorem Pinned.onPersisted {s : RegionAlloc} {gen r : Nat} (h : s.Pinned gen r) :
    s.onPersisted.Pinned gen r := by
  have hpins : s.livePins ≠ [] := List.ne_nil_of_mem h.live
  unfold RegionAlloc.onPersisted
  rw [if_pos hpins]
  refine ⟨h.live, h.le_gen, h.notFree, h.notStaged, List.not_mem_nil, ?_⟩
  intro tag htag
  rcases List.mem_append.mp htag with htag | htag
  · exact h.tagged tag htag
  · obtain ⟨q, -, hq⟩ := List.mem_map.mp htag
    rw [Prod.mk.injEq] at hq
    rw [← hq.2]
    exact h.le_gen

/-- A region that is not parked is kept by the checkpoint just written. -/
theorem saved_onPersisted {s : RegionAlloc} {r : Nat} (h : r ∉ s.parked) :
    s.onPersisted.Saved r := by
  have hp : r ∉ s.onPersisted.parked := fun hm => h ((onPersisted_parked s).mem_iff.mp hm)
  rw [mem_parked, not_or, not_or] at hp
  exact ⟨hp.1, hp.2.1, rfl⟩

/-! ## Pins -/

theorem RegionsOk.pin {s : RegionAlloc} {endPage : Nat} (h : s.RegionsOk endPage) :
    s.pin.RegionsOk endPage := h.of_perm (List.Perm.refl _) rfl rfl rfl

theorem RegionsOk.pinAt {s : RegionAlloc} {endPage : Nat} (h : s.RegionsOk endPage) (gen : Nat) :
    (s.pinAt gen).RegionsOk endPage := h.of_perm (List.Perm.refl _) rfl rfl rfl

theorem Taken.pin {s : RegionAlloc} {endPage u n : Nat} (h : s.Taken endPage u n) :
    s.pin.Taken endPage u n := ⟨h.pos, h.inRegion, h.inFile, h.notFree, h.belowHead⟩

theorem Taken.pinAt {s : RegionAlloc} {endPage u n : Nat} (h : s.Taken endPage u n) (gen : Nat) :
    (s.pinAt gen).Taken endPage u n := ⟨h.pos, h.inRegion, h.inFile, h.notFree, h.belowHead⟩

theorem Pinned.pin {s : RegionAlloc} {gen r : Nat} (h : s.Pinned gen r) : s.pin.Pinned gen r :=
  ⟨List.mem_cons_of_mem _ h.live, Nat.le_succ_of_le h.le_gen, h.notFree, h.notStaged,
    h.notQuarantined, h.tagged⟩

theorem Pinned.pinAt {s : RegionAlloc} {gen r : Nat} (h : s.Pinned gen r) (gen' : Nat) :
    (s.pinAt gen').Pinned gen r :=
  ⟨List.mem_cons_of_mem _ h.live, h.le_gen, h.notFree, h.notStaged, h.notQuarantined, h.tagged⟩

/-- A new pin holds every region that is not parked. -/
theorem pinned_pin {s : RegionAlloc} {r : Nat} (h : r ∉ s.parked) :
    s.pin.Pinned (s.pinGen + 1) r := by
  rw [mem_parked, not_or, not_or, not_or] at h
  exact ⟨List.mem_cons_self, le_rfl, h.1, h.2.1, h.2.2.1, fun tag ht => absurd ⟨tag, ht⟩ h.2.2.2⟩

theorem unpin_parked (s : RegionAlloc) (gen : Nat) : (s.unpin gen).parked.Perm s.parked := by
  unfold unpin releaseSnapHold parked
  simp only [List.append_assoc]
  refine List.Perm.append_left _ ?_
  -- every parked entry is kept, staged or quarantined
  generalize hheld : held { s with livePins := s.livePins.erase gen } = held
  have hsplit : (s.snapHold.map Prod.fst).Perm
      ((((s.snapHold.filter fun e => !held e.2).map Prod.fst).filter fun r => s.fresh r) ++
        ((((s.snapHold.filter fun e => !held e.2).map Prod.fst).filter fun r => !s.fresh r) ++
          (s.snapHold.filter fun e => held e.2).map Prod.fst)) := by
    rw [← List.append_assoc]
    refine List.Perm.trans ?_ (List.Perm.append_right _ (List.filter_append_perm _ _).symm)
    rw [← List.map_append]
    refine List.Perm.map _ ?_
    refine (List.filter_append_perm (fun e : Nat × Nat => held e.2) s.snapHold).symm.trans ?_
    exact List.perm_append_comm
  refine List.Perm.trans ?_ (List.Perm.append_left _ (List.Perm.append_left _ hsplit.symm))
  refine List.Perm.trans (List.Perm.append_right _ (List.reverse_perm _)) ?_
  refine (List.perm_append_comm_assoc ..).trans ?_
  refine List.Perm.append_left _ ?_
  refine List.Perm.trans (List.Perm.append_left _ (List.Perm.append_right _ (List.reverse_perm _))) ?_
  refine List.Perm.trans (List.Perm.append_left _ (List.perm_append_comm_assoc ..)) ?_
  exact List.perm_append_comm_assoc ..

theorem RegionsOk.unpin {s : RegionAlloc} {endPage : Nat} (h : s.RegionsOk endPage) (gen : Nat) :
    (s.unpin gen).RegionsOk endPage :=
  h.of_perm (unpin_parked s gen) rfl rfl rfl

theorem Taken.unpin {s : RegionAlloc} {endPage u n : Nat} (h : s.Taken endPage u n) (gen : Nat) :
    (s.unpin gen).Taken endPage u n := ⟨h.pos, h.inRegion, h.inFile, h.notFree, h.belowHead⟩

theorem Saved.unpin {s : RegionAlloc} {r : Nat} (h : s.Saved r) (gen : Nat) :
    (s.unpin gen).Saved r where
  notFree := h.notFree
  notStaged hm := by
    rcases List.mem_append.mp hm with hm | hm
    · have hf := (List.mem_filter.mp (List.mem_reverse.mp hm)).2
      rw [show s.fresh r = false from h.notFresh] at hf
      exact absurd hf (by simp)
    · exact h.notStaged hm
  notFresh := h.notFresh

/-- The pins that remain keep their regions. -/
theorem Pinned.unpin {s : RegionAlloc} {gen r gen' : Nat} (h : s.Pinned gen r)
    (hgen : gen ∈ s.livePins.erase gen') : (s.unpin gen').Pinned gen r := by
  have hreleased : r ∉ (s.snapHold.filter fun e =>
      !held { s with livePins := s.livePins.erase gen' } e.2).map Prod.fst := by
    rintro hm
    obtain ⟨⟨q, tag⟩, he, rfl⟩ := List.mem_map.mp hm
    obtain ⟨he, hn⟩ := List.mem_filter.mp he
    have hheld : held { s with livePins := s.livePins.erase gen' } tag = true :=
      List.any_eq_true.mpr ⟨gen, hgen, decide_eq_true (h.tagged tag he)⟩
    rw [hheld] at hn
    exact absurd hn (by simp)
  refine ⟨hgen, h.le_gen, h.notFree, ?_, ?_, ?_⟩
  · intro hm
    rcases List.mem_append.mp hm with hm | hm
    · exact hreleased (List.mem_filter.mp (List.mem_reverse.mp hm)).1
    · exact h.notStaged hm
  · intro hm
    rcases List.mem_append.mp hm with hm | hm
    · exact hreleased (List.mem_filter.mp (List.mem_reverse.mp hm)).1
    · exact h.notQuarantined hm
  · intro tag ht
    exact h.tagged tag (List.mem_filter.mp ht).1

end RegionAlloc

end FlatMpt
