import FlatMpt.Counts
import FlatMpt.Answers

/-!
# Placement of records

Where the three calls that write records put them, in every state that users of the
store can bring it to: what they wrote and have not freed is live, a pin keeps what
was live when it was taken, a checkpoint keeps what it names.

    Store.Aligned          -- runs start on the I/O alignment
    WellPlaced             -- where the records of a call lie
    Ledger, Ledger.Step    -- the store and what its users count on
    records_placed
-/

namespace FlatMpt

open RegionAlloc

/-! ## Alignment -/

/-- The next free unit is on the I/O alignment. -/
def Store.Aligned (s : Store) : Prop := s.alignUnits ∣ s.seg.nextUnit

theorem align_region (s : Store) : s.alignUnits ∣ REGION_UNITS := by
  unfold Store.alignUnits
  split
  · decide
  · exact Nat.one_dvd _

theorem align_padded (s : Store) (units : Nat) : s.alignUnits ∣ s.paddedUnits units :=
  Nat.dvd_mul_left _ _

theorem align_withRoom {s : Store} (h : s.Aligned) (runUnits endPage : Nat) :
    s.alignUnits ∣ (s.seg.withRoom runUnits endPage).nextUnit := by
  rcases withRoom_cases s.seg runUnits endPage with he | ⟨he, -⟩
  · rw [he]
    exact Nat.dvd_mul_left_of_dvd (align_region s) _
  · rw [he]
    exact h

theorem pwrite_direct (s : Store) (off : Nat) (bytes : Bytes) :
    (s.pwrite off bytes).2.direct = s.direct := by
  unfold Store.pwrite
  dsimp only
  split <;> rfl

/-- The I/O mode is chosen when the file is opened. -/
theorem Store.direct_stable (direct : Bool) : Store.Stable fun s => s.direct = direct where
  alloc hs _ := hs
  pwrite off bytes hs := by rwa [pwrite_direct]
  fault hs := hs
  drain {s} hs := by
    unfold Store.drainStagedIfUnaliased
    split <;> exact hs
  free p hs := hs

theorem Store.aligned_stable : Store.Stable Store.Aligned where
  alloc {s ps unit seg endPage} hs ha := by
    obtain ⟨-, hunit, -, rfl⟩ := alloc_eq_ok ha
    show s.alignUnits ∣ unit + s.paddedUnits (runLive ps)
    rw [hunit]
    exact Nat.dvd_add (align_withRoom hs ..) (align_padded s _)
  pwrite off bytes hs := by
    unfold Store.Aligned Store.alignUnits
    rw [(pwrite_rest ..).1, pwrite_direct]
    exact hs
  fault hs := hs
  drain {s} hs := by
    unfold Store.drainStagedIfUnaliased
    split <;> exact hs
  free {s} p hs := by
    unfold Store.Aligned Store.free
    dsimp only
    rcases free_cases s.seg p.unit p.units with h | h | ⟨-, -, -, h⟩
    · rwa [h]
    · rwa [h]
    · rw [h, (retire_head _ _).2.1]
      exact hs

/-! ## One run -/

theorem layout_bounds (base : Nat) (ps : List Bytes) : ∀ p ∈ layout base ps,
    base ≤ p.unit ∧ p.unit + p.units ≤ base + runLive ps := by
  induction ps generalizing base with
  | nil => exact nofun
  | cons b ps ih =>
    have hlive : runLive (b :: ps) = unitsFor (RECORD_HDR + b.length) + runLive ps := List.sum_cons
    intro p hp
    rcases List.mem_cons.mp hp with rfl | hp
    · refine ⟨le_rfl, ?_⟩
      show base + unitsFor (RECORD_HDR + b.length) ≤ _
      omega
    · obtain ⟨h1, h2⟩ := ih _ p hp
      omega

theorem layout_pairwise (base : Nat) (ps : List Bytes) : (layout base ps).Pairwise DiskPtr.Apart := by
  induction ps generalizing base with
  | nil => exact .nil
  | cons b ps ih =>
    refine .cons (fun q hq => .inl ?_) (ih _)
    exact (layout_bounds _ ps q hq).1

theorem layout_len (base : Nat) (ps : List Bytes) :
    (layout base ps).map DiskPtr.len = ps.map List.length := by
  induction ps generalizing base with
  | nil => rfl
  | cons b ps ih =>
    rw [List.map_cons, ← ih (base + unitsFor (RECORD_HDR + b.length))]
    rfl

theorem layout_units (base : Nat) (ps : List Bytes) :
    ((layout base ps).map DiskPtr.units).sum = runLive ps := by
  induction ps generalizing base with
  | nil => rfl
  | cons b ps ih =>
    unfold runLive
    rw [List.map_cons, List.sum_cons, ← runLive, ← ih (base + unitsFor (RECORD_HDR + b.length))]
    rfl

/-- All units of a run are in one region. -/
theorem unitsIn_layout {base head : Nat} {ps : List Bytes}
    (h : ∀ p ∈ layout base ps, regionOfUnit p.unit = head) (r : Nat) :
    unitsIn (layout base ps) r = if r = head then runLive ps else 0 := by
  unfold unitsIn
  by_cases hr : r = head
  · rw [if_pos hr, List.filter_eq_self.mpr fun p hp => decide_eq_true ((h p hp).trans hr.symm),
      layout_units]
  · have hnil : (layout base ps).filter (fun p => regionOfUnit p.unit = r) = [] :=
      List.filter_eq_nil_iff.mpr fun p hp => by
        rw [h p hp, decide_eq_true_eq]
        exact Ne.symm hr
    rw [if_neg hr, hnil]
    rfl

/-- Where the records of a call lie: in the order of the payloads, each in one region,
apart from each other and from what is kept, with units and lengths of 32 bits, inside
aligned writes, and counted as live. -/
structure WellPlaced (kept : DiskPtr → Prop) (s : Store) (payloads : List Bytes) (ptrs : List DiskPtr)
    (s' : Store) : Prop where
  order : ptrs.map DiskPtr.len = payloads.map List.length
  inRegion : ∀ p ∈ ptrs, p.unit + p.units ≤ regionOfUnit p.unit * REGION_UNITS + REGION_UNITS
  apart : ptrs.Pairwise DiskPtr.Apart
  clear : ∀ p ∈ ptrs, ∀ q, kept q → p.Apart q
  small : ∀ p ∈ ptrs, p.unit + p.units ≤ U32_MAX ∧ p.len ≤ U32_MAX
  writes : ∃ new, s'.unsynced = new ++ s.unsynced ∧
    (∀ e ∈ new, s.alignUnits * ADDR_UNIT ∣ e.1 ∧ s.alignUnits * ADDR_UNIT ∣ e.2) ∧
    ∀ p ∈ ptrs, ∃ e ∈ new, e.1 ≤ p.offset ∧ (p.unit + p.units) * ADDR_UNIT ≤ e.1 + e.2
  credit : ∀ r, s'.seg.live r = s.seg.live r + unitsIn ptrs r

namespace WellPlaced
variable {kept kept' : DiskPtr → Prop} {s s' s'' : Store} {a b : List Bytes} {p q : List DiskPtr}

theorem nil (kept : DiskPtr → Prop) (s : Store) : WellPlaced kept s [] [] s where
  order := rfl
  inRegion := nofun
  apart := .nil
  clear := nofun
  small := nofun
  writes := ⟨[], rfl, nofun, nofun⟩
  credit _ := rfl

theorem append (h : WellPlaced kept s a p s') (h' : WellPlaced kept' s' b q s'')
    (hkept : ∀ x, kept x ∨ x ∈ p → kept' x) (hdir : s'.direct = s.direct) :
    WellPlaced kept s (a ++ b) (p ++ q) s'' where
  order := by rw [List.map_append, List.map_append, h.order, h'.order]
  inRegion x hx := (List.mem_append.mp hx).elim (h.inRegion x) (h'.inRegion x)
  apart := by
    refine List.pairwise_append.mpr ⟨h.apart, h'.apart, fun x hx y hy => ?_⟩
    exact (h'.clear y hy x (hkept x (.inr hx))).symm
  clear x hx y hy := (List.mem_append.mp hx).elim (fun hx => h.clear x hx y hy)
    fun hx => h'.clear x hx y (hkept y (.inl hy))
  small x hx := (List.mem_append.mp hx).elim (h.small x) (h'.small x)
  writes := by
    obtain ⟨new, hun, hal, hin⟩ := h.writes
    obtain ⟨new', hun', hal', hin'⟩ := h'.writes
    have halign : s'.alignUnits = s.alignUnits := by
      unfold Store.alignUnits
      rw [hdir]
    rw [halign] at hal'
    refine ⟨new' ++ new, ?_, fun e he => ?_, fun x hx => ?_⟩
    · rw [hun', hun, List.append_assoc]
    · exact (List.mem_append.mp he).elim (hal' e) (hal e)
    · rcases List.mem_append.mp hx with hx | hx
      · obtain ⟨e, he, hb⟩ := hin x hx
        exact ⟨e, List.mem_append_right _ he, hb⟩
      · obtain ⟨e, he, hb⟩ := hin' x hx
        exact ⟨e, List.mem_append_left _ he, hb⟩
  credit r := by rw [h'.credit, h.credit, unitsIn_append, Nat.add_assoc]

end WellPlaced

/-- A reservation that succeeds. -/
theorem allocRun_ok {s s' : Store} {ps : List Bytes} {unpadded : Bool} {unit : Nat}
    (h : s.allocRun ps unpadded = (.ok unit, s')) :
    ∃ seg endPage, s.seg.alloc (s.paddedUnits (runLive ps)) (runLive ps) s.endPage =
        .ok (unit, seg, endPage) ∧
      s' = { s with seg, endPage } ∧ unit + runLive ps ≤ U32_MAX := by
  unfold Store.allocRun at h
  dsimp only at h
  split at h
  · cases h
  · rename_i unit' seg endPage ha
    by_cases hle : U32_MAX < unit' + (if unpadded then runLive ps else s.paddedUnits (runLive ps))
    · rw [if_pos hle] at h
      cases h
    · rw [if_neg hle] at h
      cases h
      refine ⟨seg, endPage, ha, rfl, ?_⟩
      have hpad := le_paddedUnits s (runLive ps)
      split at hle <;> omega

/-- What the owner of `g` and the pins and the checkpoint keep. -/
def Holds.Keeps (W : Holds) (g : Multiset Rec) (q : DiskPtr) : Prop := ∃ x, W.Kept g x ∧ x.1 = q

section
variable {W : Holds} {s : Store} {g : Multiset Rec} {ptrs : List DiskPtr}

theorem writeRun_placed (hI : StoreInv W s g) (hal : s.Aligned) {ps : List Bytes}
    (hsmall : ∀ p ∈ ps, p.length ≤ MAX_RECORD_BYTES) {unpadded : Bool}
    (hok : (s.writeRun ps unpadded).1 = .ok ptrs) :
    WellPlaced (W.Keeps g) s ps ptrs (s.writeRun ps unpadded).2 := by
  unfold Store.writeRun at hok ⊢
  cases hr : s.allocRun ps unpadded with | mk r s' =>
  rw [hr] at hok
  cases r with
  | error e => cases hok
  | ok unit =>
    obtain ⟨seg, endPage, ha, rfl, hfits⟩ := allocRun_ok hr
    dsimp only at hok ⊢
    have hun : (Store.pwrite { s with seg, endPage } (unit * ADDR_UNIT) (s.runBytes ps)).2.unsynced =
      (unit * ADDR_UNIT, (s.runBytes ps).length) :: s.unsynced := by
      unfold Store.pwrite
      dsimp only
      split <;> rfl
    have hseg := (pwrite_rest { s with seg, endPage } (unit * ADDR_UNIT) (s.runBytes ps)).1
    cases hw : Store.pwrite { s with seg, endPage } (unit * ADDR_UNIT) (s.runBytes ps) with | mk w s'' =>
    rw [hw] at hok hun hseg
    cases w with
    | error e => cases hok
    | ok _ =>
      cases hok
      dsimp only at hun hseg ⊢
      have hbounds := layout_bounds unit ps
      have hpad := le_paddedUnits s (runLive ps)
      have hhead : ∀ p ∈ layout unit ps, regionOfUnit p.unit = seg.headRegion := fun p hp =>
        (alloc_taken hI.regions ha (unit_pos p) (hbounds p hp).1
          (Nat.le_trans (hbounds p hp).2 (Nat.add_le_add_left hpad _))).2
      refine ⟨layout_len unit ps, fun p hp => ?_, layout_pairwise unit ps, fun p hp q hq => ?_,
        fun p hp => ⟨?_, ?_⟩, ⟨[_], hun, fun e he => ?_, fun p hp => ⟨_, List.mem_singleton_self _, ?_⟩⟩,
        fun r => ?_⟩
      · exact (alloc_taken hI.regions ha (unit_pos p) (hbounds p hp).1
          (Nat.le_trans (hbounds p hp).2 (Nat.add_le_add_left hpad _))).1.inRegion
      · obtain ⟨x, hx, rfl⟩ := hq
        have h1 := hbounds p hp
        rcases alloc_disjoint hI.regions (hI.kept hx).taken ha with h | h
        · exact .inr (by omega)
        · exact .inl (by omega)
      · exact Nat.le_trans (hbounds p hp).2 hfits
      · have hlen := List.mem_map_of_mem (f := DiskPtr.len) hp
        rw [layout_len] at hlen
        obtain ⟨b, hb, he⟩ := List.mem_map.mp hlen
        rw [← he]
        exact Nat.le_trans (hsmall b hb) (by decide)
      · rw [List.mem_singleton.mp he]
        dsimp only
        rw [runBytes_length]
        obtain ⟨-, hunit, -, -⟩ := alloc_eq_ok ha
        refine ⟨Nat.mul_dvd_mul_right ?_ _, Nat.mul_dvd_mul_right (align_padded s _) _⟩
        rw [hunit]
        exact align_withRoom hal ..
      · dsimp only
        rw [runBytes_length, ← Nat.add_mul]
        exact ⟨Nat.mul_le_mul_right _ (hbounds p hp).1,
          Nat.mul_le_mul_right _ (Nat.le_trans (hbounds p hp).2 (Nat.add_le_add_left hpad _))⟩
      · rw [hseg, ← live_le_alloc ha r, unitsIn_layout hhead]

/-! ## Whole calls -/

theorem writeRuns_placed {runs : List (List Bytes)} (hI : StoreInv W s g) (hal : s.Aligned)
    (hruns : ∀ run ∈ runs, run ≠ []) (hsmall : ∀ run ∈ runs, ∀ p ∈ run, p.length ≤ MAX_RECORD_BYTES)
    (hok : (s.writeRuns runs).1 = .ok ptrs) :
    WellPlaced (W.Keeps g) s runs.flatten ptrs (s.writeRuns runs).2 := by
  induction runs generalizing s g ptrs with
  | nil =>
    cases hok
    exact .nil _ s
  | cons run rest ih =>
    have hrun := hI.writeRun (hruns run List.mem_cons_self) (hsmall run List.mem_cons_self) false
    have hplaced : ∀ ps, (s.writeRun run false).1 = .ok ps → _ := fun ps hps =>
      writeRun_placed hI hal (hsmall run List.mem_cons_self) hps
    have hal' := Store.aligned_stable.writeRun hal run false
    have hdir := (Store.direct_stable s.direct).writeRun rfl run false
    unfold Store.writeRuns at hok ⊢
    cases hr : s.writeRun run false with | mk r s' =>
    rw [hr] at hok hrun hplaced hal' hdir
    obtain ⟨ps, rfl, hlen, hI'⟩ | ⟨e, rfl, -⟩ := hrun
    · dsimp only at hok ⊢
      have ih : ∀ qs, (s'.writeRuns rest).1 = .ok qs → _ := fun qs hqs =>
        ih hI' hal' (fun r hr => hruns r (List.mem_cons_of_mem _ hr))
          (fun r hr => hsmall r (List.mem_cons_of_mem _ hr)) hqs
      cases hr' : s'.writeRuns rest with | mk r' s'' =>
      rw [hr'] at hok ih
      cases r' with
      | error e => cases hok
      | ok qs =>
        cases hok
        refine (hplaced ps rfl).append (ih qs rfl) (fun x hx => ?_) hdir
        rcases hx with ⟨y, hy, rfl⟩ | hx
        · exact ⟨y, hy.imp_left (Multiset.mem_add.mpr ∘ .inr), rfl⟩
        · have hx' : x ∈ (ps.zip run).map Prod.fst := by rwa [List.map_fst_zip (le_of_eq hlen)]
          obtain ⟨y, hy, rfl⟩ := List.mem_map.mp hx'
          exact ⟨y, .inl (Multiset.mem_add.mpr (.inl hy)), rfl⟩
    · cases hok

/-- Draining the staged regions writes nothing and counts nothing. -/
theorem WellPlaced.drained {kept : DiskPtr → Prop} {payloads : List Bytes} {s' : Store}
    (h : WellPlaced kept s.drainStagedIfUnaliased payloads ptrs s') : WellPlaced kept s payloads ptrs s' := by
  unfold Store.drainStagedIfUnaliased at h
  split at h
  · exact ⟨h.order, h.inRegion, h.apart, h.clear, h.small, h.writes, h.credit⟩
  · exact h

theorem writeBatch_placed (hI : StoreInv W s g) (hal : s.Aligned) {payloads : List Bytes}
    (hok : (s.writeBatch payloads).1 = .ok ptrs) :
    WellPlaced (W.Keeps g) s payloads ptrs (s.writeBatch payloads).2 := by
  unfold Store.writeBatch at hok ⊢
  dsimp only at hok ⊢
  cases ht : Store.tooLarge payloads with
  | some p =>
    rw [ht] at hok
    cases hok
  | none =>
    rw [ht] at hok
    have h := writeRuns_placed hI.drainIfUnaliased (Store.aligned_stable.drain hal)
      (runsOf_ne_nil payloads) (small_of_tooLarge ht) hok
    rw [runsOf_flatten] at h
    exact h.drained

theorem writePayload_placed (hI : StoreInv W s g) (hal : s.Aligned) {payload : Bytes} {p : DiskPtr}
    (hok : (s.writePayload payload).1 = .ok p) :
    WellPlaced (W.Keeps g) s [payload] [p] (s.writePayload payload).2 := by
  unfold Store.writePayload at hok ⊢
  by_cases hlarge : MAX_RECORD_BYTES < payload.length
  · rw [if_pos hlarge] at hok
    cases hok
  · rw [if_neg hlarge] at hok ⊢
    have hsmall : ∀ q ∈ [payload], q.length ≤ MAX_RECORD_BYTES := fun q hq => by
      rw [List.mem_singleton.mp hq]
      exact Nat.not_lt.mp hlarge
    have hlen := hI.writeRun (List.cons_ne_nil payload []) hsmall true
    have hplaced : ∀ ps, (s.writeRun [payload] true).1 = .ok ps → _ := fun ps hps =>
      writeRun_placed hI hal hsmall hps
    cases hr : s.writeRun [payload] true with | mk r s' =>
    rw [hr] at hok hlen hplaced
    obtain ⟨ps, rfl, hlen, -⟩ | ⟨e, rfl, -⟩ := hlen
    · obtain ⟨q, rfl⟩ := List.length_eq_one_iff.mp hlen
      cases hok
      exact hplaced [q] rfl
    · cases hok

end

/-! ## The same pointers -/

/-- Stores that place records alike: only the files and the faults to come may differ. -/
structure SameRoom (s t : Store) : Prop where
  seg : t.seg = s.seg
  endPage : t.endPage = s.endPage
  direct : t.direct = s.direct
  readAhead : t.readAhead = s.readAhead

section
variable {s t : Store} {p q : List DiskPtr}

theorem writeRun_ok {s' : Store} {ps : List Bytes} {unpadded : Bool}
    (h : s.writeRun ps unpadded = (.ok p, s')) :
    ∃ unit seg endPage, s.seg.alloc (s.paddedUnits (runLive ps)) (runLive ps) s.endPage =
        .ok (unit, seg, endPage) ∧
      p = layout unit ps ∧ SameRoom { s with seg, endPage } s' := by
  unfold Store.writeRun at h
  cases hr : s.allocRun ps unpadded with | mk r s1 =>
  rw [hr] at h
  cases r with
  | error e => cases h
  | ok unit =>
    obtain ⟨seg, endPage, ha, rfl, -⟩ := allocRun_ok hr
    dsimp only at h
    have hrest := pwrite_rest { s with seg, endPage } (unit * ADDR_UNIT) (s.runBytes ps)
    have hdir := pwrite_direct { s with seg, endPage } (unit * ADDR_UNIT) (s.runBytes ps)
    cases hw : Store.pwrite { s with seg, endPage } (unit * ADDR_UNIT) (s.runBytes ps) with | mk w s2 =>
    rw [hw] at h hrest hdir
    cases w with
    | error e => cases h
    | ok _ =>
      cases h
      exact ⟨unit, seg, endPage, ha, rfl, hrest.1, hrest.2.1, hdir, hrest.2.2⟩

theorem SameRoom.writeRun {s' t' : Store} {ps : List Bytes} {unpadded : Bool} (h : SameRoom s t)
    (hs : s.writeRun ps unpadded = (.ok p, s')) (ht : t.writeRun ps unpadded = (.ok q, t')) :
    p = q ∧ SameRoom s' t' := by
  obtain ⟨unit, seg, endPage, ha, rfl, hs'⟩ := writeRun_ok hs
  obtain ⟨unit', seg', endPage', ha', rfl, ht'⟩ := writeRun_ok ht
  have hpad : t.paddedUnits (runLive ps) = s.paddedUnits (runLive ps) := by
    unfold Store.paddedUnits Store.alignUnits
    rw [h.direct]
  rw [h.seg, h.endPage, hpad, ha] at ha'
  cases ha'
  exact ⟨rfl, ht'.seg.trans hs'.seg.symm, ht'.endPage.trans hs'.endPage.symm,
    ht'.direct.trans (h.direct.trans hs'.direct.symm),
    ht'.readAhead.trans (h.readAhead.trans hs'.readAhead.symm)⟩

theorem SameRoom.writeRuns {runs : List (List Bytes)} (h : SameRoom s t)
    (hs : (s.writeRuns runs).1 = .ok p) (ht : (t.writeRuns runs).1 = .ok q) : p = q := by
  induction runs generalizing s t p q with
  | nil =>
    cases hs
    cases ht
    rfl
  | cons run rest ih =>
    unfold Store.writeRuns at hs ht
    cases hr : s.writeRun run false with | mk r s' =>
    cases hr' : t.writeRun run false with | mk r' t' =>
    rw [hr] at hs
    rw [hr'] at ht
    cases r with
    | error e => cases hs
    | ok p1 =>
      cases r' with
      | error e => cases ht
      | ok q1 =>
        obtain ⟨rfl, h'⟩ := h.writeRun hr hr'
        dsimp only at hs ht
        cases hw : s'.writeRuns rest with | mk w s2 =>
        cases hw' : t'.writeRuns rest with | mk w' t2 =>
        have ih := fun p q => ih (p := p) (q := q) h'
        rw [hw, hw'] at ih
        rw [hw] at hs
        rw [hw'] at ht
        cases w with
        | error e => cases hs
        | ok p2 =>
          cases w' with
          | error e => cases ht
          | ok q2 =>
            cases hs
            cases ht
            rw [ih p2 q2 rfl rfl]

theorem SameRoom.writeBatch {payloads : List Bytes} (h : SameRoom s t)
    (hs : (s.writeBatch payloads).1 = .ok p) (ht : (t.writeBatch payloads).1 = .ok q) : p = q := by
  have hdrain : SameRoom s.drainStagedIfUnaliased t.drainStagedIfUnaliased := by
    unfold Store.drainStagedIfUnaliased
    rw [h.readAhead]
    split
    · exact ⟨by rw [h.seg], h.endPage, h.direct, rfl⟩
    · exact h
  unfold Store.writeBatch at hs ht
  dsimp only at hs ht
  cases hlarge : Store.tooLarge payloads with
  | some b =>
    rw [hlarge] at hs
    cases hs
  | none =>
    rw [hlarge] at hs ht
    exact hdrain.writeRuns hs ht

end

/-! ## The assertion -/

section
variable (s : Store)

/-- A run that fits a region passes the allocator's assertion. -/
theorem allocRun_ne_panic {run : List Bytes} (hfit : Fits run) (unpadded : Bool) :
    (s.allocRun run unpadded).1 ≠ .error .panic := by
  obtain ⟨unit, seg, endPage, -, h | h⟩ := allocRun_fits s hfit unpadded <;> rw [h] <;> nofun

theorem pwrite_ne_panic (off : Nat) (bytes : Bytes) : (s.pwrite off bytes).1 ≠ .error .panic := by
  obtain ⟨h, -⟩ | ⟨h, -⟩ := pwrite_cases s off bytes <;> rw [h] <;> nofun

theorem writeRun_ne_panic {run : List Bytes} (hfit : Fits run) (unpadded : Bool) :
    (s.writeRun run unpadded).1 ≠ .error .panic := by
  have ha := allocRun_ne_panic s hfit unpadded
  unfold Store.writeRun
  cases hr : s.allocRun run unpadded with | mk r s' =>
  rw [hr] at ha
  cases r with
  | error e => exact fun he => ha (by cases he; rfl)
  | ok unit =>
    have hw := pwrite_ne_panic s' (unit * ADDR_UNIT) (s.runBytes run)
    dsimp only
    cases hp : s'.pwrite (unit * ADDR_UNIT) (s.runBytes run) with | mk w s'' =>
    rw [hp] at hw
    cases w with
    | error e => exact fun he => hw (by cases he; rfl)
    | ok _ => nofun

theorem writeRuns_ne_panic {runs : List (List Bytes)} (hfit : ∀ run ∈ runs, Fits run) :
    (s.writeRuns runs).1 ≠ .error .panic := by
  induction runs generalizing s with
  | nil => exact fun h => by cases h
  | cons run rest ih =>
    have hrun := writeRun_ne_panic s (hfit run List.mem_cons_self) false
    unfold Store.writeRuns
    cases hr : s.writeRun run false with | mk r s' =>
    rw [hr] at hrun
    cases r with
    | error e => exact fun he => hrun (by cases he; rfl)
    | ok ps =>
      have hrest := ih s' fun run hrun => hfit run (List.mem_cons_of_mem _ hrun)
      dsimp only
      cases hr' : s'.writeRuns rest with | mk r' s'' =>
      rw [hr'] at hrest
      cases r' with
      | error e => exact fun he => hrest (by cases he; rfl)
      | ok qs => exact fun h => by cases h

theorem allocRuns_ne_panic {runs : List (List Bytes)} (hfit : ∀ run ∈ runs, Fits run) :
    (s.allocRuns runs).1 ≠ .error .panic := by
  induction runs generalizing s with
  | nil => exact fun h => by cases h
  | cons run rest ih =>
    have hrun := allocRun_ne_panic s (hfit run List.mem_cons_self) false
    unfold Store.allocRuns
    cases hr : s.allocRun run false with | mk r s' =>
    rw [hr] at hrun
    cases r with
    | error e => exact fun he => hrun (by cases he; rfl)
    | ok unit =>
      have hrest := ih s' fun run hrun => hfit run (List.mem_cons_of_mem _ hrun)
      dsimp only
      cases hr' : s'.allocRuns rest with | mk r' s'' =>
      rw [hr'] at hrest
      cases r' with
      | error e => exact fun he => hrest (by cases he; rfl)
      | ok units => exact fun h => by cases h

theorem pwriteRuns_ne_panic (runs : List (Nat × List Bytes)) :
    (s.pwriteRuns runs).1 ≠ .error .panic := by
  induction runs generalizing s with
  | nil => nofun
  | cons e rest ih =>
    obtain ⟨unit, run⟩ := e
    have hw := pwrite_ne_panic s (unit * ADDR_UNIT) (s.runBytes run)
    unfold Store.pwriteRuns
    cases hp : s.pwrite (unit * ADDR_UNIT) (s.runBytes run) with | mk w s' =>
    rw [hp] at hw
    cases w with
    | error e => exact fun he => hw (by cases he; rfl)
    | ok _ => exact ih s'

theorem writeBatch_ne_panic (payloads : List Bytes) : (s.writeBatch payloads).1 ≠ .error .panic := by
  unfold Store.writeBatch
  dsimp only
  cases hlarge : Store.tooLarge payloads with
  | some b => nofun
  | none => exact writeRuns_ne_panic _ (runsOf_fits hlarge)

theorem writeBatchParallel_ne_panic (payloads : List Bytes) :
    (s.writeBatchParallel payloads).1 ≠ .error .panic := by
  unfold Store.writeBatchParallel
  dsimp only
  cases hlarge : Store.tooLarge payloads with
  | some b => nofun
  | none =>
    have ha := allocRuns_ne_panic s.drainStagedIfUnaliased (runsOf_fits hlarge)
    dsimp only
    cases hr : s.drainStagedIfUnaliased.allocRuns (runsOf payloads) with | mk r s' =>
    rw [hr] at ha
    cases r with
    | error e => exact fun he => ha (by cases he; rfl)
    | ok units =>
      have hw := pwriteRuns_ne_panic s' (units.zip (runsOf payloads))
      dsimp only
      cases hp : s'.pwriteRuns (units.zip (runsOf payloads)) with | mk w s'' =>
      rw [hp] at hw
      cases w with
      | error e => exact fun he => hw (by cases he; rfl)
      | ok _ => nofun

theorem writePayload_ne_panic (payload : Bytes) : (s.writePayload payload).1 ≠ .error .panic := by
  unfold Store.writePayload
  split
  · nofun
  · rename_i hsmall
    have hfit : Fits [payload] := by
      have hle : ∀ p ∈ [payload], p.length ≤ MAX_RECORD_BYTES := fun p hp => by
        rw [List.mem_singleton.mp hp]
        exact Nat.not_lt.mp hsmall
      exact ⟨List.cons_ne_nil _ _, hle, unitsFor_le (hle payload (List.mem_singleton_self _))⟩
    have hrun := writeRun_ne_panic s hfit true
    cases hr : s.writeRun [payload] true with | mk r s' =>
    rw [hr] at hrun
    cases r with
    | error e => exact fun he => hrun (by cases he; rfl)
    | ok ps => nofun

end

/-! ## One call per record -/

/-- `write_payload` for each payload, up to the first error. -/
def Store.writeEach (s : Store) : List Bytes → Except Err (List DiskPtr) × Store
  | [] => (.ok [], s)
  | b :: rest =>
    match s.writePayload b with
    | (.error e, s') => (.error e, s')
    | (.ok p, s') =>
      match s'.writeEach rest with
      | (.error e, s'') => (.error e, s'')
      | (.ok ps, s'') => (.ok (p :: ps), s'')

section
variable {W : Holds} {s : Store} {g : Multiset Rec} {ptrs : List DiskPtr}

theorem StoreInv.writeEach (hI : StoreInv W s g) (payloads : List Bytes) :
    Grown W g payloads (s.writeEach payloads) := by
  induction payloads generalizing s g with
  | nil => exact .inl ⟨[], rfl, rfl, by rwa [show recsOf [] [] = 0 from rfl, zero_add]⟩
  | cons b rest ih =>
    have hone := hI.writePayload b
    unfold Store.writeEach
    cases hr : s.writePayload b with | mk r s' =>
    rw [hr] at hone
    obtain ⟨p, rfl, hI'⟩ | ⟨e, rfl, hI'⟩ := hone
    · have hrest := ih hI'
      dsimp only
      cases hr' : s'.writeEach rest with | mk r' s'' =>
      rw [hr'] at hrest
      obtain ⟨ps, rfl, hlen, hI''⟩ | ⟨e, rfl, hI''⟩ := hrest
      · refine .inl ⟨p :: ps, rfl, congrArg Nat.succ hlen, ?_⟩
        rwa [show recsOf (p :: ps) (b :: rest) = (p, b) ::ₘ recsOf ps rest from rfl, Multiset.cons_add,
          ← Multiset.add_cons]
      · refine .inr ⟨e, rfl, ?_⟩
        rw [← Multiset.singleton_add, add_comm] at hI''
        exact hI''.mono
    · exact .inr ⟨e, rfl, hI'⟩

theorem writeEach_placed {payloads : List Bytes} (hI : StoreInv W s g) (hal : s.Aligned)
    (hok : (s.writeEach payloads).1 = .ok ptrs) :
    WellPlaced (W.Keeps g) s payloads ptrs (s.writeEach payloads).2 := by
  induction payloads generalizing s g ptrs with
  | nil =>
    cases hok
    exact .nil _ s
  | cons b rest ih =>
    have hone := hI.writePayload b
    have hplaced : ∀ p, (s.writePayload b).1 = .ok p → _ := fun p hp =>
      writePayload_placed hI hal hp
    have hal' := Store.aligned_stable.writePayload hal b
    have hdir := (Store.direct_stable s.direct).writePayload rfl b
    unfold Store.writeEach at hok ⊢
    cases hr : s.writePayload b with | mk r s' =>
    rw [hr] at hok hone hplaced hal' hdir
    obtain ⟨p, rfl, hI'⟩ | ⟨e, rfl, -⟩ := hone
    · have ih : ∀ qs, (s'.writeEach rest).1 = .ok qs → _ := fun qs hqs => ih hI' hal' hqs
      dsimp only at hok ⊢
      cases hr' : s'.writeEach rest with | mk r' s'' =>
      rw [hr'] at hok ih
      cases r' with
      | error e => cases hok
      | ok qs =>
        cases hok
        refine (hplaced p rfl).append (ih qs rfl) (fun x hx => ?_) hdir
        rcases hx with ⟨y, hy, rfl⟩ | hx
        · exact ⟨y, hy.imp_left (Multiset.mem_cons_of_mem), rfl⟩
        · rw [List.mem_singleton.mp hx]
          exact ⟨(p, b), .inl (Multiset.mem_cons_self _ _), rfl⟩
    · cases hok

theorem writeEach_ne_panic (s : Store) (payloads : List Bytes) :
    (s.writeEach payloads).1 ≠ .error .panic := by
  induction payloads generalizing s with
  | nil => nofun
  | cons b rest ih =>
    have hone := writePayload_ne_panic s b
    unfold Store.writeEach
    cases hr : s.writePayload b with | mk r s' =>
    rw [hr] at hone
    cases r with
    | error e => exact fun he => hone (by cases he; rfl)
    | ok p =>
      have hrest := ih s'
      dsimp only
      cases hr' : s'.writeEach rest with | mk r' s'' =>
      rw [hr'] at hrest
      cases r' with
      | error e => exact fun he => hrest (by cases he; rfl)
      | ok ps => nofun

end

/-! ## Users of the store -/

/-- The store and what its users count on: the records they wrote and have not freed,
those that each live pin keeps, and those of the last checkpoint. -/
structure Ledger where
  store : Store
  live : Multiset Rec
  pinned : List (Nat × Rec)
  checkpoint : Option (Checkpoint × (List Nibble → Bytes))

namespace Ledger

def create (direct : Bool) (faults : List Bool) : Ledger := ⟨.create direct faults, 0, [], none⟩

/-- The records of the last checkpoint. -/
def saved (l : Ledger) : Multiset Rec := l.checkpoint.elim 0 fun cp => recsAt cp.2 cp.1.upper

noncomputable def holds (l : Ledger) : Holds := ⟨l.pinned, l.saved.toList⟩

/-- A record that is live, pinned, or in the last checkpoint. -/
def Keeps (l : Ledger) (q : DiskPtr) : Prop :=
  (∃ x ∈ l.live, x.1 = q) ∨ (∃ e ∈ l.pinned, e.2.1 = q) ∨ ∃ x ∈ l.saved, x.1 = q

/-- What users may do.  They free only what is live, and persist a frontier whose
records are live. -/
inductive Step : Ledger → Ledger → Prop
  | request {l : Ledger} (r : Req) {live : Multiset Rec} (h : Grows r (exec r l.store).1 l.live live) :
      Step l { l with store := (exec r l.store).2, live }
  | prefetch {l : Ledger} (order : List DiskPtr) (h : ∀ p ∈ order, ∃ b, l.holds.Visible l.live (p, b)) :
      Step l { l with store := order.foldl Store.prefetchRecord l.store }
  | prefetchClear {l : Ledger} : Step l { l with store := l.store.readAheadClear }
  /-- A pin keeps what is live. -/
  | pin {l : Ledger} (recs : List Rec) (h : l.live = recs) :
      Step l { l with
        store := l.store.pin
        pinned := recs.map (fun x => (l.store.seg.pinGen + 1, x)) ++ l.pinned }
  | pinAt {l : Ledger} (gen : Nat) : Step l { l with store := l.store.pinAt gen }
  | unpin {l : Ledger} (gen : Nat) :
      Step l { l with
        store := l.store.unpin gen
        pinned := l.pinned.filter fun e => e.1 ∈ l.store.seg.livePins.erase gen }
  | persisted {l : Ledger} (upper : RamNode) (pay : List Nibble → Bytes)
      (h : recsAt pay upper ≤ l.live) :
      Step l { l with
        store := { l.store with unsynced := [], seg := l.store.seg.onPersisted }
        checkpoint := some (⟨upper, l.store.endPage⟩, pay) }
  /-- A crash, and the file opened again, buffered or not; a read past its end is one of
  the calls that `faults` lets fail. -/
  | reopen {l : Ledger} {cp : Checkpoint} {pay : List Nibble → Bytes} {file : Nat → UInt8}
      (direct : Bool) (faults : List Bool) (hcp : l.checkpoint = some (cp, pay))
      (hfile : Survives l.store file) :
      Step l ⟨(Sys.reopen cp file direct faults).store, recsAt pay cp.upper, [], some (cp, pay)⟩

/-- What each of their steps keeps. -/
structure Ok (l : Ledger) : Prop where
  store : StoreInv l.holds l.store l.live
  aligned : l.store.Aligned
  inFile : ∀ cp ∈ l.checkpoint, ∀ x ∈ l.saved, regionOfUnit x.1.unit < regionCeil cp.1.endPage

theorem create_ok (direct : Bool) (faults : List Bool) : (create direct faults).Ok where
  store := by
    have h := storeInv_create direct faults
    unfold holds saved create
    rwa [show Option.elim none (0 : Multiset Rec) _ = 0 from rfl, Multiset.toList_zero]
  aligned := Nat.dvd_zero _
  inFile := nofun

theorem prefetched_aligned {s : Store} (h : s.Aligned) (order : List DiskPtr) :
    (order.foldl Store.prefetchRecord s).Aligned := by
  induction order generalizing s with
  | nil => exact h
  | cons p order ih =>
    refine ih ?_
    have hdir : (s.prefetchRecord p).direct = s.direct := by
      unfold Store.prefetchRecord
      split
      · rename_i he
        rw [← (Prod.mk.inj he).2]
        rfl
      · rename_i he
        rw [← (Prod.mk.inj he).2]
        rfl
    unfold Store.Aligned Store.alignUnits
    rw [prefetchRecord_seg, hdir]
    exact h

/-- What a batch leaves, by what it returned. -/
theorem ok_grown {W : Holds} {g g' : Multiset Rec} {payloads : List Bytes}
    {r : Except Err (List DiskPtr) × Store} (h : Grown W g payloads r)
    (hg : (∃ ptrs, r.1 = .ok ptrs ∧ g' = recsOf ptrs payloads + g) ∨ ∃ e, r.1 = .error e ∧ g' = g) :
    StoreInv W r.2 g' := by
  obtain ⟨ptrs, hok, -, hI⟩ | ⟨e, he, hI⟩ := h
  · obtain ⟨ptrs', hok', rfl⟩ | ⟨e, he, -⟩ := hg
    · cases hok.symm.trans hok'
      exact hI
    · cases hok.symm.trans he
  · obtain ⟨ptrs', hok', -⟩ | ⟨e', -, rfl⟩ := hg
    · cases he.symm.trans hok'
    · exact hI

theorem ok_request {l : Ledger} (hl : l.Ok) (r : Req) {live : Multiset Rec}
    (h : Grows r (exec r l.store).1 l.live live) : StoreInv l.holds (exec r l.store).2 live := by
  cases r with
  | read p =>
    cases h
    show StoreInv l.holds (l.store.read p).2 l.live
    rcases (read_cases l.store p).2 with he | he
    · rw [he]
      exact hl.store
    · rw [he]
      exact hl.store.fault
  | pread off len recs =>
    cases h
    exact hl.store.fault
  | writePayload payload =>
    show StoreInv l.holds (l.store.writePayload payload).2 live
    obtain ⟨p, hp, rfl⟩ | ⟨e, he, rfl⟩ := h
    · obtain ⟨q, hq, hI⟩ | ⟨e, he, -⟩ := hl.store.writePayload payload
      · have hq := hq.symm.trans hp
        cases hq
        exact hI
      · cases he.symm.trans hp
    · obtain ⟨q, hq, -⟩ | ⟨e, -, hI⟩ := hl.store.writePayload payload
      · cases hq.symm.trans he
      · exact hI
  | writeBatch payloads => exact ok_grown (hl.store.writeBatch payloads) h
  | writeBatchParallel payloads => exact ok_grown (hl.store.writeBatchParallel payloads) h
  | free p =>
    obtain ⟨b, he⟩ := h
    have hI := hl.store
    rw [he] at hI
    exact hI.free
  | selectVictims pick =>
    cases h
    exact hl.store
  | refuse e =>
    cases h
    exact hl.store

theorem Step.ok {l l' : Ledger} (h : Step l l') (hl : l.Ok) : l'.Ok := by
  cases h with
  | request r h => exact ⟨ok_request hl r h, Store.aligned_stable.exec hl.aligned r, hl.inFile⟩
  | prefetch order h =>
    exact ⟨hl.store.prefetched h, prefetched_aligned hl.aligned order, hl.inFile⟩
  | prefetchClear => exact ⟨hl.store.cleared, hl.aligned, hl.inFile⟩
  | pin recs h =>
    refine ⟨hl.store.pin (fun gen x hx => ?_) rfl, hl.aligned, hl.inFile⟩
    rcases List.mem_append.mp hx with hx | hx
    · obtain ⟨y, hy, he⟩ := List.mem_map.mp hx
      cases he
      refine .inr ⟨rfl, ?_⟩
      rw [h]
      exact hy
    · exact .inl hx
  | pinAt gen => exact ⟨hl.store.pinAt gen (fun _ he => he) rfl, hl.aligned, hl.inFile⟩
  | unpin gen =>
    refine ⟨hl.store.unpin gen (fun e he => (List.mem_filter.mp he).1) (fun e he => ?_) rfl, hl.aligned,
      hl.inFile⟩
    exact of_decide_eq_true (List.mem_filter.mp he).2
  | persisted upper pay h =>
    refine ⟨hl.store.persisted rfl fun x hx => ?_, ?_, ?_⟩
    · exact Multiset.mem_of_le h (Multiset.mem_toList.mp hx)
    · show l.store.alignUnits ∣ l.store.seg.onPersisted.nextUnit
      rw [(onPersisted_head l.store.seg).2.2.1]
      exact hl.aligned
    · intro cp hcp x hx
      cases hcp
      exact (hl.store.stored x (Multiset.mem_of_le h hx)).taken.inFile
  | @reopen cp pay file direct faults hcp hfile =>
    have hsaved : l.saved = recsAt pay cp.upper := by
      unfold saved
      rw [hcp]
      rfl
    have hin := hl.inFile (cp, pay) hcp
    refine ⟨?_, ?_, ?_⟩
    · have h := hl.store.reopened hfile (fun x => by rw [← hsaved]; exact Multiset.mem_toList)
        (fun x hx => hin x (Multiset.mem_toList.mp hx)) direct faults
      unfold holds at h ⊢
      rwa [hsaved] at h
    · exact Nat.dvd_mul_left_of_dvd (align_region _) _
    · intro cp' hcp' x hx
      cases hcp'
      refine hin x ?_
      rw [hsaved]
      exact hx

theorem ok_of_run {direct : Bool} {faults : List Bool} {l : Ledger}
    (hrun : Relation.ReflTransGen Step (create direct faults) l) : l.Ok := by
  induction hrun with
  | refl => exact create_ok direct faults
  | tail _ h ih => exact h.ok ih

theorem Keeps.holds {l : Ledger} {q : DiskPtr} (h : l.Keeps q) : l.holds.Keeps l.live q := by
  rcases h with ⟨x, hx, he⟩ | ⟨⟨gen, x⟩, hx, he⟩ | ⟨x, hx, he⟩
  · exact ⟨x, .inl hx, he⟩
  · exact ⟨x, .inr (.inl ⟨gen, hx⟩), he⟩
  · exact ⟨x, .inr (.inr (Multiset.mem_toList.mpr hx)), he⟩

/-- The records of a call are placed well, and read back. -/
def Places (l : Ledger) (payloads : List Bytes) (r : Except Err (List DiskPtr) × Store) : Prop :=
  r.1 ≠ .error .panic ∧ ∀ ptrs, r.1 = .ok ptrs → WellPlaced l.Keeps l.store payloads ptrs r.2 ∧
    ∀ x ∈ ptrs.zip payloads, (r.2.healthy.read x.1).1 = .ok x.2

theorem places {l : Ledger} {payloads : List Bytes}
    {r : Except Err (List DiskPtr) × Store} (hpanic : r.1 ≠ .error .panic)
    (hgrown : Grown l.holds l.live payloads r)
    (hplaced : ∀ ptrs, r.1 = .ok ptrs →
      WellPlaced (l.holds.Keeps l.live) l.store payloads ptrs r.2) : l.Places payloads r := by
  refine ⟨hpanic, fun ptrs hok => ⟨?_, fun x hx => ?_⟩⟩
  · have h := hplaced ptrs hok
    exact ⟨h.order, h.inRegion, h.apart, fun p hp q hq => h.clear p hp q hq.holds, h.small, h.writes,
      h.credit⟩
  · obtain ⟨ptrs', hok', -, hI⟩ | ⟨e, he, -⟩ := hgrown
    · cases hok'.symm.trans hok
      have hread := read_healthy r.2 x.1
      rw [(hI.payload (.inl (Multiset.mem_add.mpr (.inl hx)))).1] at hread
      exact congrArg Prod.fst hread
    · cases he.symm.trans hok

end Ledger

/-- **Placement.**  Whatever the users of the store have done, each of the three calls
places its records well, and the two batch calls place them alike. -/
theorem records_placed {direct : Bool} {faults : List Bool} {l : Ledger}
    (hrun : Relation.ReflTransGen Ledger.Step (.create direct faults) l) (payloads : List Bytes) :
    (∀ call ∈ [Store.writeBatch, Store.writeBatchParallel, Store.writeEach],
      l.Places payloads (call l.store payloads)) ∧
    ∀ s, SameRoom l.store s → ∀ p q, (l.store.writeBatch payloads).1 = .ok p →
      (s.writeBatchParallel payloads).1 = .ok q → p = q := by
  have hl := Ledger.ok_of_run hrun
  constructor
  · intro call hcall
    simp only [List.mem_cons, List.not_mem_nil, or_false] at hcall
    rcases hcall with rfl | rfl | rfl
    · exact Ledger.places (writeBatch_ne_panic _ _) (hl.store.writeBatch payloads) fun _ =>
        writeBatch_placed hl.store hl.aligned
    · refine Ledger.places (writeBatchParallel_ne_panic _ _) (hl.store.writeBatchParallel payloads)
        fun ptrs hok => ?_
      have he := writeBatchParallel_ok hok
      rw [he] at hok ⊢
      exact writeBatch_placed hl.store hl.aligned hok
    · exact Ledger.places (writeEach_ne_panic _ _) (hl.store.writeEach payloads) fun _ =>
        writeEach_placed hl.store hl.aligned
  · intro s hs p q hp hq
    rw [writeBatchParallel_ok hq] at hq
    exact hs.writeBatch hp hq

namespace Ledger

/-- Two records, both pinned. -/
def pinnedRecs : List Rec := [(⟨0, 1⟩, [1]), (⟨1, 1⟩, [2])]

def savedUpper : RamNode :=
  .branch (Function.update (fun _ => .none) 3 (.disk ⟨0, 1⟩ (.fill 0))) none

/-- The first of them is in the checkpoint. -/
def persistedLedger : Ledger :=
  let s := ((Store.create true []).writeBatch [[1], [2]]).2.pin
  ⟨{ s with unsynced := [], seg := s.seg.onPersisted }, pinnedRecs, pinnedRecs.map fun x => (1, x),
    some (⟨savedUpper, s.endPage⟩, fun _ => [1])⟩

/-- The second is freed. -/
def busy : Ledger :=
  { persistedLedger with store := persistedLedger.store.free ⟨1, 1⟩, live := {(⟨0, 1⟩, [1])} }

theorem busy_run : Relation.ReflTransGen Ledger.Step (.create true []) busy := by
  have hwrite : Ledger.Step (.create true [])
      ⟨((Store.create true []).writeBatch [[1], [2]]).2, pinnedRecs, [], none⟩ := by
    refine .request (.writeBatch [[1], [2]]) (.inl ⟨[⟨0, 1⟩, ⟨1, 1⟩], rfl, ?_⟩)
    exact (add_zero _).symm
  have hsaved : recsAt (fun _ => [1]) savedUpper ≤ (pinnedRecs : Multiset Rec) := by
    have hrecs : recsAt (fun _ => [1]) savedUpper = {(⟨0, 1⟩, [1])} := rfl
    rw [hrecs]
    decide
  have hfree : Ledger.Step persistedLedger busy := .request (.free ⟨1, 1⟩) ⟨[2], by decide⟩
  exact (((Relation.ReflTransGen.single hwrite).tail (.pin pinnedRecs rfl)).tail
    (.persisted savedUpper (fun _ => [1]) hsaved)).tail hfree

end Ledger

/-- Two small records in direct mode, apart from one that is live and in the checkpoint and
from one that only a pin keeps. -/
theorem records_placed_direct :
    ∃ ptrs, (Ledger.busy.store.writeBatch [[3], [4]]).1 = .ok ptrs ∧ ptrs.map DiskPtr.len = [1, 1] ∧
      (∀ p ∈ ptrs, p.Apart ⟨0, 1⟩ ∧ p.Apart ⟨1, 1⟩) ∧
      ∀ x ∈ ptrs.zip [[3], [4]],
        ((Ledger.busy.store.writeBatch [[3], [4]]).2.healthy.read x.1).1 = .ok x.2 := by
  obtain ⟨-, hplaced⟩ := (records_placed Ledger.busy_run [[3], [4]]).1 Store.writeBatch List.mem_cons_self
  obtain ⟨h, hread⟩ := hplaced [⟨16, 1⟩, ⟨17, 1⟩] rfl
  exact ⟨_, rfl, h.order, fun p hp => ⟨h.clear p hp _ (.inl ⟨(⟨0, 1⟩, [1]), by decide, rfl⟩),
    h.clear p hp _ (.inr (.inl ⟨(1, (⟨1, 1⟩, [2])), by decide, rfl⟩))⟩, hread⟩

/-- The records of a run lie at any units of it. -/
theorem records_unaligned :
    ((Store.create true []).writeBatch [[1], [2]]).1 = .ok [⟨0, 1⟩, ⟨1, 1⟩] ∧
      ¬(Store.create true []).alignUnits ∣ (⟨1, 1⟩ : DiskPtr).unit := by
  exact ⟨rfl, by decide⟩

end FlatMpt
