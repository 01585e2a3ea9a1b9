import FlatMpt.Regions
import FlatMpt.System

/-!
# Reclamation

Where the dead regions are.  The allocator lists a region when a free takes its
last live unit, unless it is the head at that moment; a head that is dead when the
next one opens, and a region that is dead when the file is opened, are never
listed.  Apart from these, every dead region is in exactly one of the lists, and
comes back once the pins are gone, a persist has landed and the staged regions are
drained.

    AllocState.states   -- the allocator after each call of a run
    Accounted           -- dead regions are listed once, and nothing else is
    Accounted.iff_step, accounted_iff
-/

namespace FlatMpt

open RegionAlloc

/-- The allocator and the high-water mark in pages. -/
structure AllocState where
  seg : RegionAlloc
  endPage : Nat

/-- What the store asks of its allocator. -/
inductive AllocOp
  | alloc (runUnits liveUnits : Nat)
  | free (unit units : Nat)
  | pin
  | pinAt (gen : Nat)
  | unpin (gen : Nat)
  | onPersisted
  | drainStaged

namespace AllocState

def apply (s : AllocState) : AllocOp → AllocState
  | .alloc runUnits liveUnits =>
    match s.seg.alloc runUnits liveUnits s.endPage with
    | .ok (_, seg, endPage) => ⟨seg, endPage⟩
    | .error _ => s
  | .free unit units => { s with seg := s.seg.free unit units }
  | .pin => { s with seg := s.seg.pin }
  | .pinAt gen => { s with seg := s.seg.pinAt gen }
  | .unpin gen => { s with seg := s.seg.unpin gen }
  | .onPersisted => { s with seg := s.seg.onPersisted }
  | .drainStaged => { s with seg := s.seg.drainStaged }

/-- As the store issues them: a run holds live units and fits a region, a clone
shares a live pin, and only a live pin is dropped. -/
def Issued (s : AllocState) : AllocOp → Prop
  | .alloc runUnits liveUnits => 0 < liveUnits ∧ liveUnits ≤ runUnits ∧ runUnits ≤ REGION_UNITS
  | .pinAt gen => gen ∈ s.seg.livePins
  | .unpin gen => gen ∈ s.seg.livePins
  | _ => True

instance (s : AllocState) : (op : AllocOp) → Decidable (s.Issued op)
  | .alloc _ _ => inferInstanceAs (Decidable (_ ∧ _ ∧ _))
  | .pinAt _ => inferInstanceAs (Decidable (_ ∈ _))
  | .unpin _ => inferInstanceAs (Decidable (_ ∈ _))
  | .free _ _ => .isTrue trivial
  | .pin => .isTrue trivial
  | .onPersisted => .isTrue trivial
  | .drainStaged => .isTrue trivial

def states (s : AllocState) : List AllocOp → List AllocState
  | [] => [s]
  | op :: ops => s :: (s.apply op).states ops

/-- Every call is issued in its state. -/
def IssuedAll (s : AllocState) : List AllocOp → Prop
  | [] => True
  | op :: ops => s.Issued op ∧ (s.apply op).IssuedAll ops

instance decIssuedAll (s : AllocState) : (ops : List AllocOp) → Decidable (s.IssuedAll ops)
  | [] => .isTrue trivial
  | op :: ops =>
    have := decIssuedAll (s.apply op) ops
    inferInstanceAs (Decidable (_ ∧ _))

/-- The state of a new database, or of one opened on a manifest. -/
inductive Start : AllocState → Prop
  | create (direct : Bool) (faults : List Bool) :
      Start ⟨(Store.create direct faults).seg, (Store.create direct faults).endPage⟩
  | reopen (cp : Checkpoint) (file : Nat → UInt8) (direct : Bool) (faults : List Bool) :
      Start ⟨(Sys.reopen cp file direct faults).store.seg,
        (Sys.reopen cp file direct faults).store.endPage⟩

end AllocState

/-- The pins are dropped, a persist lands, the read-ahead is cleared. -/
def settled (s : RegionAlloc) : RegionAlloc :=
  (s.livePins.foldl RegionAlloc.unpin s).onPersisted.drainStaged

/-- Below the high-water mark and apart from the head, the dead regions are listed
once and become free in the end; no other region is listed. -/
structure Accounted (s : AllocState) : Prop where
  listed : ∀ r, r < regionCeil s.endPage → r ≠ s.seg.headRegion → s.seg.live r = 0 →
    s.seg.parked.count r = 1
  dead : ∀ r ∈ s.seg.parked, s.seg.live r = 0 ∧ r ≠ s.seg.headRegion
  reusable : ∀ r, r < regionCeil s.endPage → r ≠ s.seg.headRegion → s.seg.live r = 0 →
    r ∈ (settled s.seg).freeRegions

/-- Whether a run opens a new head. -/
def opensHead (s : RegionAlloc) (runUnits : Nat) : Prop :=
  s.regions = 0 ∨ s.headRegion * REGION_UNITS + REGION_UNITS < s.nextUnit + runUnits

instance (s : RegionAlloc) (runUnits : Nat) : Decidable (opensHead s runUnits) :=
  inferInstanceAs (Decidable (_ ∨ _))

/-- A head that is left behind holds live units. -/
def AllocState.Keeps (s : AllocState) : AllocOp → Prop
  | .alloc runUnits _ => opensHead s.seg runUnits → s.seg.headRegion < regionCeil s.endPage →
      s.seg.live s.seg.headRegion ≠ 0
  | _ => True

instance (s : AllocState) : (op : AllocOp) → Decidable (s.Keeps op)
  | .alloc _ _ => inferInstanceAs (Decidable (_ → _ → _))
  | .pinAt _ => .isTrue trivial
  | .unpin _ => .isTrue trivial
  | .free _ _ => .isTrue trivial
  | .pin => .isTrue trivial
  | .onPersisted => .isTrue trivial
  | .drainStaged => .isTrue trivial

def AllocState.KeepsAll (s : AllocState) : List AllocOp → Prop
  | [] => True
  | op :: ops => s.Keeps op ∧ (s.apply op).KeepsAll ops

instance decKeepsAll (s : AllocState) : (ops : List AllocOp) → Decidable (s.KeepsAll ops)
  | [] => .isTrue trivial
  | op :: ops =>
    have := decKeepsAll (s.apply op) ops
    inferInstanceAs (Decidable (_ ∧ _))

/-! ## Invariants -/

/-- Tags are at least some live pin, and generations are counted. -/
structure PinsOk (s : RegionAlloc) : Prop where
  counted : ∀ g ∈ s.livePins, g ≤ s.pinGen
  held : ∀ e ∈ s.snapHold, ∃ g ∈ s.livePins, g ≤ e.2

namespace PinsOk

variable {s : RegionAlloc}

theorem withRoom (h : PinsOk s) (runUnits endPage : Nat) : PinsOk (s.withRoom runUnits endPage) := by
  obtain he | ⟨he, -⟩ := withRoom_cases s runUnits endPage
  · rw [he]
    exact ⟨h.counted, h.held⟩
  · rw [he]
    exact h

theorem retire (h : PinsOk s) (r : Nat) : PinsOk (s.retire r) := by
  unfold RegionAlloc.retire
  split
  · rename_i hp
    refine ⟨h.counted, fun e he => ?_⟩
    rcases List.mem_append.mp he with he | he
    · exact h.held e he
    · obtain rfl := List.mem_singleton.mp he
      obtain ⟨g, hg⟩ := List.exists_mem_of_ne_nil _ hp
      exact ⟨g, hg, h.counted g hg⟩
  · split <;> exact ⟨h.counted, h.held⟩

theorem free (h : PinsOk s) (unit units : Nat) : PinsOk (s.free unit units) := by
  have hlow : PinsOk (s.lowered (regionOfUnit unit) units) := ⟨h.counted, h.held⟩
  obtain he | he | ⟨-, -, -, he⟩ := free_cases s unit units
  · rw [he]
    exact h
  · rw [he]
    exact hlow
  · rw [he]
    exact hlow.retire _

theorem pin (h : PinsOk s) : PinsOk s.pin := by
  refine ⟨fun g hg => ?_, fun e he => ?_⟩
  · rcases List.mem_cons.mp hg with rfl | hg
    · exact le_rfl
    · exact Nat.le_succ_of_le (h.counted g hg)
  · obtain ⟨g, hg, hle⟩ := h.held e he
    exact ⟨g, List.mem_cons_of_mem _ hg, hle⟩

theorem pinAt (h : PinsOk s) {gen : Nat} (hgen : gen ∈ s.livePins) : PinsOk (s.pinAt gen) := by
  refine ⟨fun g hg => ?_, fun e he => ?_⟩
  · rcases List.mem_cons.mp hg with rfl | hg
    · exact h.counted g hgen
    · exact h.counted g hg
  · obtain ⟨g, hg, hle⟩ := h.held e he
    exact ⟨g, List.mem_cons_of_mem _ hg, hle⟩

theorem unpin (h : PinsOk s) (gen : Nat) : PinsOk (s.unpin gen) := by
  refine ⟨fun g hg => h.counted g (List.mem_of_mem_erase hg), fun e he => ?_⟩
  obtain ⟨g, hg, hle⟩ := List.any_eq_true.mp (List.mem_filter.mp he).2
  exact ⟨g, hg, of_decide_eq_true hle⟩

theorem onPersisted (h : PinsOk s) : PinsOk s.onPersisted := by
  unfold RegionAlloc.onPersisted
  split
  · rename_i hp
    refine ⟨h.counted, fun e he => ?_⟩
    rcases List.mem_append.mp he with he | he
    · exact h.held e he
    · obtain ⟨r, -, rfl⟩ := List.mem_map.mp he
      obtain ⟨g, hg⟩ := List.exists_mem_of_ne_nil _ hp
      exact ⟨g, hg, h.counted g hg⟩
  · exact ⟨h.counted, h.held⟩

end PinsOk

/-- What every reachable state satisfies. -/
structure AllocOk (s : AllocState) : Prop where
  regions : s.seg.RegionsOk s.endPage
  pins : PinsOk s.seg
  headIn : s.seg.headRegion ≤ regionCeil s.endPage

namespace AllocState

theorem regionCeil_pages (n : Nat) : regionCeil (n * REGION_PAGES) = n := by
  unfold regionCeil REGION_PAGES
  omega

theorem reopen_ceil (cp : Checkpoint) (file : Nat → UInt8) (direct : Bool) (faults : List Bool) :
    regionCeil (Sys.reopen cp file direct faults).store.endPage = regionCeil cp.endPage :=
  regionCeil_pages _

theorem Start.ok {s : AllocState} (h : Start s) : AllocOk s := by
  cases h with
  | create direct faults =>
    exact ⟨⟨List.nodup_nil, fun r hr => absurd hr List.not_mem_nil, fun r hr => absurd rfl hr,
      (Nat.zero_mul _).le, Nat.zero_le _⟩, ⟨fun g hg => absurd hg List.not_mem_nil,
      fun e he => absurd he List.not_mem_nil⟩, Nat.zero_le _⟩
  | reopen cp file direct faults =>
    refine ⟨⟨List.nodup_nil, fun r hr => absurd hr List.not_mem_nil, fun r hr => ?_, le_rfl,
      Nat.le_add_right _ _⟩, ⟨fun g hg => absurd hg List.not_mem_nil,
      fun e he => absurd he List.not_mem_nil⟩, ?_⟩
    · simp only [reopen_ceil]
      by_contra hlt
      have hlive : (Sys.reopen cp file direct faults).store.seg.live r = 0 := by
        simp only [Sys.reopen, recomputeLive, if_neg hlt]
      exact hr hlive
    · simp only [reopen_ceil]
      exact le_rfl

/-- The outcome of an issued run. -/
theorem apply_alloc (s : AllocState) {runUnits : Nat} (liveUnits : Nat)
    (hrun : runUnits ≤ REGION_UNITS) :
    ∃ unit seg endPage, s.seg.alloc runUnits liveUnits s.endPage = .ok (unit, seg, endPage) ∧
      s.apply (.alloc runUnits liveUnits) = ⟨seg, endPage⟩ := by
  have h : s.seg.alloc runUnits liveUnits s.endPage = .ok _ := if_neg (Nat.not_lt.mpr hrun)
  refine ⟨_, _, _, h, ?_⟩
  simp only [apply, h]

end AllocState

theorem nextHead_le {s : RegionAlloc} {endPage : Nat} (h : s.RegionsOk endPage) :
    s.nextHead endPage ≤ regionCeil endPage := by
  unfold nextHead
  cases hf : s.freeRegions with
  | nil => exact le_rfl
  | cons r rest =>
    refine (h.dead r (mem_parked.mpr (.inl ?_))).2.2.le
    rw [hf]
    exact List.mem_cons_self

/-- A run in the head region does not move the high-water mark past it. -/
theorem regionCeil_run {head next endPage : Nat} (h : next ≤ head * REGION_UNITS + REGION_UNITS)
    (hhead : head ≤ regionCeil endPage) :
    regionCeil (max endPage (pageCeil next)) ≤ max (regionCeil endPage) (head + 1) := by
  unfold regionCeil pageCeil at *
  unfold REGION_UNITS REGION_PAGES UNITS_PER_PAGE PAGE ADDR_UNIT at *
  omega

namespace AllocOk

variable {s : AllocState}

theorem withRoom_head (h : AllocOk s) (runUnits : Nat) :
    (s.seg.withRoom runUnits s.endPage).headRegion ≤ regionCeil s.endPage := by
  obtain he | ⟨he, -⟩ := withRoom_cases s.seg runUnits s.endPage
  · rw [he]
    exact nextHead_le h.regions
  · rw [he]
    exact h.headIn

theorem step (h : AllocOk s) {op : AllocOp} (hop : s.Issued op) : AllocOk (s.apply op) := by
  cases op with
  | alloc runUnits liveUnits =>
    obtain ⟨hlive, hle, hrun⟩ := hop
    obtain ⟨unit, seg, endPage, ha, happ⟩ := s.apply_alloc liveUnits hrun
    rw [happ]
    have hr := h.regions.alloc (by omega) ha
    have hw := h.pins.withRoom runUnits s.endPage
    have hhead := h.withRoom_head runUnits
    obtain ⟨-, -, rfl, rfl⟩ := alloc_eq_ok ha
    exact ⟨hr, ⟨hw.counted, hw.held⟩, le_trans hhead (regionCeil_mono (Nat.le_max_left _ _))⟩
  | free unit units =>
    refine ⟨h.regions.free unit units, h.pins.free unit units, ?_⟩
    have hhead : (s.seg.free unit units).headRegion = s.seg.headRegion := by
      obtain he | he | ⟨-, -, -, he⟩ := free_cases s.seg unit units
      · rw [he]
      · rw [he]
        rfl
      · rw [he, (retire_head _ _).1]
        rfl
    show (s.seg.free unit units).headRegion ≤ _
    rw [hhead]
    exact h.headIn
  | pin => exact ⟨h.regions.pin, h.pins.pin, h.headIn⟩
  | pinAt gen => exact ⟨h.regions.pinAt gen, h.pins.pinAt hop, h.headIn⟩
  | unpin gen => exact ⟨h.regions.unpin gen, h.pins.unpin gen, h.headIn⟩
  | onPersisted =>
    refine ⟨h.regions.onPersisted, h.pins.onPersisted, ?_⟩
    show s.seg.onPersisted.headRegion ≤ _
    rw [(onPersisted_head s.seg).2.1]
    exact h.headIn
  | drainStaged => exact ⟨h.regions.drainStaged, ⟨h.pins.counted, h.pins.held⟩, h.headIn⟩

end AllocOk

/-! ## Reuse -/

theorem foldl_unpin (gens : List Nat) (s : RegionAlloc) :
    (gens.foldl RegionAlloc.unpin s).livePins = gens.foldl List.erase s.livePins ∧
      (gens.foldl RegionAlloc.unpin s).parked.Perm s.parked ∧
      (PinsOk s → PinsOk (gens.foldl RegionAlloc.unpin s)) := by
  induction gens generalizing s with
  | nil => exact ⟨rfl, List.Perm.refl _, id⟩
  | cons g gens ih =>
    obtain ⟨h1, h2, h3⟩ := ih (s.unpin g)
    exact ⟨h1, h2.trans (unpin_parked s g), fun h => h3 (h.unpin g)⟩

theorem foldl_erase_self (l : List Nat) : l.foldl List.erase l = [] := by
  induction l with
  | nil => rfl
  | cons a l ih =>
    rw [List.foldl_cons, List.erase_cons_head]
    exact ih

/-- Every listed region is free in the end. -/
theorem mem_settled {s : RegionAlloc} (h : PinsOk s) {r : Nat} (hr : r ∈ s.parked) :
    r ∈ (settled s).freeRegions := by
  obtain ⟨h1, h2, h3⟩ := foldl_unpin s.livePins s
  rw [foldl_erase_self] at h1
  have hpins := h3 h
  unfold settled
  generalize s.livePins.foldl RegionAlloc.unpin s = t at h1 h2 hpins ⊢
  have hhold : t.snapHold = [] := by
    cases hs : t.snapHold with
    | nil => rfl
    | cons e rest =>
      obtain ⟨g, hg, -⟩ := hpins.held e (by rw [hs]; exact List.mem_cons_self)
      rw [h1] at hg
      exact absurd hg List.not_mem_nil
  have hr := h2.mem_iff.mpr hr
  rw [mem_parked, hhold] at hr
  unfold RegionAlloc.onPersisted RegionAlloc.drainStaged
  rw [if_neg (not_not.mpr h1)]
  simp only [List.mem_append]
  rcases hr with hr | hr | hr | ⟨tag, hr⟩
  · exact .inr hr
  · exact .inl (.inr hr)
  · exact .inl (.inl hr)
  · exact absurd hr List.not_mem_nil

theorem Accounted.of_listed {s : AllocState} (h : AllocOk s)
    (hl : ∀ r, r < regionCeil s.endPage → r ≠ s.seg.headRegion → s.seg.live r = 0 →
      r ∈ s.seg.parked) : Accounted s where
  listed r h1 h2 h3 := List.count_eq_one_of_mem h.regions.nodup (hl r h1 h2 h3)
  dead r hr := ⟨(h.regions.dead r hr).1, (h.regions.dead r hr).2.1⟩
  reusable r h1 h2 h3 := mem_settled h.pins (hl r h1 h2 h3)

theorem Accounted.mem {s : AllocState} (h : Accounted s) {r : Nat} (h1 : r < regionCeil s.endPage)
    (h2 : r ≠ s.seg.headRegion) (h3 : s.seg.live r = 0) : r ∈ s.seg.parked := by
  refine List.count_pos_iff.mp ?_
  rw [h.listed r h1 h2 h3]
  exact Nat.one_pos

/-! ## Steps -/

/-- What leaves the lists, the live counts and the head alone. -/
theorem Accounted.of_perm {s s' : AllocState} (h : Accounted s) (hok : AllocOk s')
    (hp : s'.seg.parked.Perm s.seg.parked) (hlive : s'.seg.live = s.seg.live)
    (hhead : s'.seg.headRegion = s.seg.headRegion) (hend : s'.endPage = s.endPage) :
    Accounted s' := by
  refine .of_listed hok fun r h1 h2 h3 => hp.mem_iff.mpr (h.mem ?_ ?_ ?_)
  · rwa [hend] at h1
  · rwa [hhead] at h2
  · rwa [hlive] at h3

theorem free_cases_listed (s : RegionAlloc) (unit units : Nat) (r : Nat)
    (hr : (s.free unit units).live r = 0) (hne : r ≠ s.headRegion)
    (h : s.live r = 0 → r ∈ s.parked) : r ∈ (s.free unit units).parked := by
  unfold RegionAlloc.free at hr ⊢
  by_cases hreg : s.regions ≤ regionOfUnit unit
  · rw [if_pos hreg] at hr ⊢
    exact h hr
  · rw [if_neg hreg] at hr ⊢
    by_cases hu : r = regionOfUnit unit
    · subst hu
      simp only at hr ⊢
      split at hr
      · rw [if_pos ‹_›]
        exact (retire_parked _ _).mem_iff.mpr List.mem_cons_self
      · rename_i hcond
        rw [if_neg hcond]
        refine h ?_
        have hr : Function.update s.live (regionOfUnit unit) _ (regionOfUnit unit) = 0 := hr
        rw [Function.update_self] at hr
        by_contra h0
        exact hcond ⟨by omega, hr, hne⟩
    · simp only at hr ⊢
      split at hr
      · rw [if_pos ‹_›]
        rw [retire_live] at hr
        have hr : Function.update s.live (regionOfUnit unit) _ r = 0 := hr
        rw [Function.update_of_ne hu] at hr
        exact (retire_parked _ _).mem_iff.mpr (List.mem_cons_of_mem _ (h hr))
      · rw [if_neg ‹_›]
        have hr : Function.update s.live (regionOfUnit unit) _ r = 0 := hr
        rw [Function.update_of_ne hu] at hr
        exact h hr

theorem withRoom_opens {s : RegionAlloc} {runUnits : Nat} (h : opensHead s runUnits) (endPage : Nat) :
    s.withRoom runUnits endPage = s.openNewHead endPage := if_pos h

theorem withRoom_same {s : RegionAlloc} {runUnits : Nat} (h : ¬ opensHead s runUnits)
    (endPage : Nat) : s.withRoom runUnits endPage = s := if_neg h

/-- A call keeps the lists right exactly if it leaves no dead head behind. -/
theorem Accounted.step_iff {s : AllocState} (h : Accounted s) (hok : AllocOk s) {op : AllocOp}
    (hop : s.Issued op) : Accounted (s.apply op) ↔ s.Keeps op := by
  have hok' := hok.step hop
  cases op with
  | alloc runUnits liveUnits =>
    obtain ⟨hlive, hle, hrun⟩ := hop
    obtain ⟨unit, seg, endPage, ha, happ⟩ := s.apply_alloc liveUnits hrun
    rw [happ] at hok' ⊢
    have hfit : (s.seg.withRoom runUnits s.endPage).nextUnit + runUnits ≤ _ := withRoom_fits _ _ hrun
    have hhead := hok.withRoom_head runUnits
    obtain ⟨-, rfl, rfl, rfl⟩ := alloc_eq_ok ha
    have hceil := regionCeil_run hfit hhead
    by_cases hopen : opensHead s.seg runUnits
    · rw [withRoom_opens hopen] at hok' hceil ⊢
      have hother : ∀ r, r ≠ s.seg.nextHead s.endPage → (r ∈ s.seg.parked ↔
          r ∈ (s.seg.openNewHead s.endPage).parked) := by
        intro r hr
        rw [openNewHead_parked s.seg s.endPage, List.mem_append]
        refine ⟨fun hm => hm.resolve_left fun hm => hr ?_, .inr⟩
        unfold nextHead
        cases hf : s.seg.freeRegions with
        | nil =>
          rw [hf] at hm
          exact absurd hm List.not_mem_nil
        | cons q rest =>
          rw [hf] at hm
          exact List.mem_singleton.mp hm
      constructor
      · -- a dead head left behind is listed nowhere
        intro hacc _ hin h0
        have hne : s.seg.headRegion ≠ s.seg.nextHead s.endPage := by
          refine ne_nextHead (fun hm => ?_) hin
          exact (h.dead _ (mem_parked.mpr (.inl hm))).2 rfl
        have hm := hacc.mem (r := s.seg.headRegion)
          (lt_of_lt_of_le hin (regionCeil_mono (Nat.le_max_left _ _))) hne
          (by
            show Function.update s.seg.live (s.seg.nextHead s.endPage) _ s.seg.headRegion = 0
            rw [Function.update_of_ne hne]
            exact h0)
        exact (h.dead _ ((hother _ hne).mpr hm)).2 rfl
      · intro hkeep
        refine .of_listed hok' fun r h1 h2 h3 => ?_
        have h2 : r ≠ s.seg.nextHead s.endPage := h2
        have h3 : Function.update s.seg.live (s.seg.nextHead s.endPage) _ r = 0 := h3
        rw [Function.update_of_ne h2] at h3
        have hn := nextHead_le hok.regions
        have h1 : r < max (regionCeil s.endPage) (s.seg.nextHead s.endPage + 1) :=
          lt_of_lt_of_le h1 hceil
        have hr : r < regionCeil s.endPage := by omega
        refine (hother r h2).mp (h.mem hr ?_ h3)
        rintro rfl
        exact hkeep hopen hr h3
    · rw [withRoom_same hopen] at hok' hceil ⊢
      refine ⟨fun _ ho => absurd ho hopen, fun _ => .of_listed hok' fun r h1 h2 h3 => ?_⟩
      have h2 : r ≠ s.seg.headRegion := h2
      have h3 : Function.update s.seg.live s.seg.headRegion _ r = 0 := h3
      rw [Function.update_of_ne h2] at h3
      have h1 : r < max (regionCeil s.endPage) (s.seg.headRegion + 1) := lt_of_lt_of_le h1 hceil
      have hin := hok.headIn
      exact h.mem (by omega) h2 h3
  | free unit units =>
    refine ⟨fun _ => trivial, fun _ => .of_listed hok' fun r h1 h2 h3 => ?_⟩
    have hhead : (s.seg.free unit units).headRegion = s.seg.headRegion := by
      obtain he | he | ⟨-, -, -, he⟩ := free_cases s.seg unit units
      · rw [he]
      · rw [he]
        rfl
      · rw [he, (retire_head _ _).1]
        rfl
    have h2 : r ≠ (s.seg.free unit units).headRegion := h2
    rw [hhead] at h2
    exact free_cases_listed s.seg unit units r h3 h2 fun h0 => h.mem h1 h2 h0
  | pin => exact ⟨fun _ => trivial, fun _ => h.of_perm hok' (List.Perm.refl _) rfl rfl rfl⟩
  | pinAt gen => exact ⟨fun _ => trivial, fun _ => h.of_perm hok' (List.Perm.refl _) rfl rfl rfl⟩
  | unpin gen => exact ⟨fun _ => trivial, fun _ => h.of_perm hok' (unpin_parked _ _) rfl rfl rfl⟩
  | onPersisted =>
    obtain ⟨hl, hh, -⟩ := onPersisted_head s.seg
    exact ⟨fun _ => trivial, fun _ => h.of_perm hok' (onPersisted_parked _) hl hh rfl⟩
  | drainStaged =>
    exact ⟨fun _ => trivial, fun _ => h.of_perm hok' (drainStaged_parked _) rfl rfl rfl⟩

/-! ## Runs -/

/-- Every region of the file holds live units, as found when it is opened. -/
def AllocState.NoneDead (s : AllocState) : Prop :=
  ∀ r, r < regionCeil s.endPage → r ≠ s.seg.headRegion → s.seg.live r ≠ 0

theorem AllocState.Start.accounted {s : AllocState} (h : Start s) : Accounted s ↔ s.NoneDead := by
  have hnil : s.seg.parked = [] := by cases h <;> rfl
  constructor
  · intro hacc r h1 h2 h3
    have := hacc.mem h1 h2 h3
    rw [hnil] at this
    exact absurd this List.not_mem_nil
  · exact fun hn => .of_listed h.ok fun r h1 h2 h3 => absurd h3 (hn r h1 h2)

theorem states_accounted_iff {s : AllocState} (ops : List AllocOp) (hok : AllocOk s)
    (hops : s.IssuedAll ops) (h : Accounted s) :
    (∀ t ∈ s.states ops, Accounted t) ↔ s.KeepsAll ops := by
  induction ops generalizing s with
  | nil => simp [AllocState.states, AllocState.KeepsAll, h]
  | cons op ops ih =>
    have hstep := h.step_iff hok hops.1
    have hok' := hok.step hops.1
    constructor
    · intro hall
      have hself : s.apply op ∈ (s.apply op).states ops := by cases ops <;> exact List.mem_cons_self
      have h' := hall _ (List.mem_cons_of_mem _ hself)
      exact ⟨hstep.mp h', (ih hok' hops.2 h').mp fun t ht => hall t (List.mem_cons_of_mem _ ht)⟩
    · rintro ⟨hk, hks⟩ t ht
      have h' := hstep.mpr hk
      rcases List.mem_cons.mp ht with rfl | ht
      · exact h
      · exact (ih hok' hops.2 h').mpr hks t ht

/-- **The lists are right throughout a run exactly if** no region of the file was
dead when it was opened and no head was left behind dead. -/
theorem accounted_iff {s : AllocState} (hs : s.Start) (ops : List AllocOp) (hops : s.IssuedAll ops) :
    (∀ t ∈ s.states ops, Accounted t) ↔ s.NoneDead ∧ s.KeepsAll ops := by
  have hself : s ∈ s.states ops := by cases ops <;> exact List.mem_cons_self
  constructor
  · intro hall
    exact ⟨hs.accounted.mp (hall s hself),
      (states_accounted_iff ops hs.ok hops (hall s hself)).mp hall⟩
  · rintro ⟨hn, hk⟩
    exact (states_accounted_iff ops hs.ok hops (hs.accounted.mpr hn)).mpr hk

/-- One head filled after another, each with live units. -/
theorem accounted_two_heads :
    ((AllocState.mk RegionAlloc.default 0).states [.alloc 1 1, .alloc 512 512, .free 512 512]).Forall
      Accounted :=
  List.forall_iff_forall_mem.mpr <|
    (accounted_iff (.create false []) [.alloc 1 1, .alloc 512 512, .free 512 512] (by decide)).mpr
      ⟨fun r hr => absurd hr (by decide +revert), by decide⟩

/-- The only record of the head is freed, then a full run opens the next head. -/
theorem dead_head_unlisted :
    ∃ (s : AllocState) (ops : List AllocOp), s.Start ∧ s.IssuedAll ops ∧
      ∃ t ∈ s.states ops, 0 < regionCeil t.endPage ∧ 0 ≠ t.seg.headRegion ∧ t.seg.live 0 = 0 ∧
        0 ∉ t.seg.parked ∧ ¬ Accounted t := by
  refine ⟨⟨RegionAlloc.default, 0⟩, [.alloc 1 1, .free 0 1, .alloc 512 512], .create false [], ?_, ?_⟩
  · decide
  · refine ⟨_, List.mem_cons_of_mem _ (List.mem_cons_of_mem _ (List.mem_cons_of_mem _
      List.mem_cons_self)), by decide, by decide, by decide, by decide, fun h => ?_⟩
    exact absurd (h.mem (r := 0) (by decide) (by decide) (by decide)) (by decide)

end FlatMpt
