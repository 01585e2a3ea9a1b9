import FlatMpt.Parts

/-!
# Exact live counts

While no store call fails but by a record too large for a region, each region counts
exactly the units of the owned records in it.

    Tidy s g          -- the live counts are those of `g`
    Exact ok          -- answers fail only where the ideal store does
    Upkept            -- the invariant of the store, records apart, counts exact
    flat_upkept       -- store calls keep it
-/

namespace FlatMpt

open Prog RegionAlloc

/-- The live counts are the units of the records `g`, in regions that are known. -/
structure Tidy (s : Store) (g : Multiset Rec) : Prop where
  live : ∀ r, s.seg.live r = usedUnits g r
  known : ∀ r, s.seg.live r ≠ 0 → r < s.seg.regions
  head : s.seg.regions ≠ 0 → s.seg.headRegion < s.seg.regions

/-- Answers fail only where the ideal store fails. -/
def Exact (ok : (r : Req) → Resp r → Prop) : Prop :=
  ∀ r x e, ok r x → failed r x = some e → failed r (ideal r) = some e

theorem allowed_exact : Exact (Allowed False) := fun _ _ e h he => (h.2 e he).resolve_left id

section
variable {W : Holds} {s s' : Store} {g : Multiset Rec}

/-- The parts of the allocator that counting is about. -/
theorem Tidy.of_eq (h : Tidy s g) (hlive : s'.seg.live = s.seg.live)
    (hreg : s'.seg.regions = s.seg.regions) (hhead : s'.seg.headRegion = s.seg.headRegion) :
    Tidy s' g where
  live r := by rw [hlive, h.live r]
  known r := by
    rw [hlive, hreg]
    exact h.known r
  head := by
    rw [hreg, hhead]
    exact h.head

theorem Tidy.drain (h : Tidy s g) : Tidy s.drainStagedIfUnaliased g := by
  unfold Store.drainStagedIfUnaliased
  split
  · exact h.of_eq rfl rfl rfl
  · exact h

/-- A head that is left open is known; a new one is made known. -/
theorem withRoom_known {a : RegionAlloc} (h : a.regions ≠ 0 → a.headRegion < a.regions)
    (runUnits endPage : Nat) :
    (a.withRoom runUnits endPage).headRegion < (a.withRoom runUnits endPage).regions ∧
      a.regions ≤ (a.withRoom runUnits endPage).regions := by
  unfold RegionAlloc.withRoom
  split
  · unfold RegionAlloc.openNewHead
    exact ⟨lt_of_lt_of_le (Nat.lt_succ_self _) (Nat.le_max_right _ _), Nat.le_max_left _ _⟩
  · rename_i hc
    exact ⟨h fun h0 => hc (.inl h0), le_rfl⟩

/-- All units of a run are in the head. -/
theorem usedUnits_run {base r : Nat} {ps : List Bytes}
    (h : ∀ x ∈ recsOf (layout base ps) ps, regionOfUnit x.1.unit = r) :
    usedUnits (recsOf (layout base ps) ps) r = runLive ps := by
  induction ps generalizing base with
  | nil => rfl
  | cons p ps ih =>
    have he : recsOf (layout base (p :: ps)) (p :: ps) =
        ((⟨base, p.length⟩, p) : Rec) ::ₘ
          recsOf (layout (base + unitsFor (RECORD_HDR + p.length)) ps) ps := rfl
    rw [he] at h ⊢
    rw [usedUnits_cons, if_pos (h _ (Multiset.mem_cons_self ..)),
      ih fun x hx => h x (Multiset.mem_cons_of_mem hx)]
    unfold runLive
    rw [List.map_cons, List.sum_cons]
    rfl

theorem Tidy.writeRun (h : Tidy s g) (hI : StoreInv W s g) {ps : List Bytes} {unpadded : Bool}
    {ptrs : List DiskPtr} (hok : (s.writeRun ps unpadded).1 = .ok ptrs) :
    Tidy (s.writeRun ps unpadded).2 (recsOf ptrs ps + g) := by
  unfold Store.writeRun at hok ⊢
  obtain ⟨e, he⟩ | ⟨unit, seg', endPage', ha, he | he⟩ := allocRun_cases s ps unpadded
  · rw [he] at hok
    cases hok
  · rw [he] at hok
    cases hok
  rw [he] at hok ⊢
  simp only at hok ⊢
  obtain ⟨hseg, -, -⟩ := pwrite_rest { s with seg := seg', endPage := endPage' } (unit * ADDR_UNIT)
    (s.runBytes ps)
  cases hw : Store.pwrite { s with seg := seg', endPage := endPage' } (unit * ADDR_UNIT)
    (s.runBytes ps) with | mk r t =>
  rw [hw] at hok hseg
  cases r with
  | error e => cases hok
  | ok _ =>
    cases hok
    have hin : ∀ x ∈ recsOf (layout unit ps) ps, regionOfUnit x.1.unit = seg'.headRegion := by
      intro x hx
      have h1 := layout_le unit ps x hx
      have h2 := layout_end unit ps x hx
      have h3 := le_paddedUnits s (runLive ps)
      exact (alloc_taken hI.regions ha (unit_pos x.1) h1 (by omega)).2
    have hl := live_le_alloc ha
    obtain ⟨-, -, -, hseg'⟩ := alloc_eq_ok ha
    obtain ⟨hhead, hle⟩ := withRoom_known h.head (s.paddedUnits (runLive ps)) s.endPage
    have hlive : ∀ r, seg'.live r = usedUnits (recsOf (layout unit ps) ps + g) r := by
      intro r
      rw [usedUnits_add, ← hl r, h.live r]
      by_cases hr : r = seg'.headRegion
      · rw [if_pos hr, usedUnits_run fun x hx => by rw [hr, hin x hx], add_comm]
      · rw [if_neg hr, usedUnits_eq_zero fun x hx he => hr (he.symm.trans (hin x hx)), zero_add,
          add_zero]
    have hregs : seg'.headRegion < seg'.regions ∧ s.seg.regions ≤ seg'.regions := by
      rw [hseg']
      exact ⟨hhead, hle⟩
    have hseg : t.seg = seg' := hseg
    refine ⟨fun r => by rw [hseg]; exact hlive r, fun r hr => ?_, fun _ => by rw [hseg]; exact hregs.1⟩
    rw [hseg] at hr ⊢
    by_cases hrh : r = seg'.headRegion
    · rw [hrh]
      exact hregs.1
    · have := hl r
      rw [if_neg hrh, add_zero] at this
      rw [← this] at hr
      exact lt_of_lt_of_le (h.known r hr) hregs.2

theorem Tidy.writeRuns {runs : List (List Bytes)} (h : Tidy s g) (hI : StoreInv W s g)
    (hruns : ∀ run ∈ runs, run ≠ [])
    (hsmall : ∀ run ∈ runs, ∀ p ∈ run, p.length ≤ MAX_RECORD_BYTES) {ptrs : List DiskPtr}
    (hok : (s.writeRuns runs).1 = .ok ptrs) :
    Tidy (s.writeRuns runs).2 (recsOf ptrs runs.flatten + g) := by
  induction runs generalizing s g ptrs with
  | nil =>
    have h0 : recsOf ptrs ([] : List (List Bytes)).flatten = 0 := by
      unfold recsOf
      rw [List.flatten_nil, List.zip_nil_right]
      rfl
    rwa [h0, zero_add]
  | cons run rest ih =>
    have hrun := hI.writeRun (hruns run List.mem_cons_self) (hsmall run List.mem_cons_self) false
    have ht : ∀ ps, (s.writeRun run false).1 = .ok ps → Tidy (s.writeRun run false).2
        (recsOf ps run + g) := fun ps => h.writeRun hI
    unfold Store.writeRuns at hok ⊢
    cases hr : s.writeRun run false with | mk r t =>
    rw [hr] at hrun hok ht
    obtain ⟨ps, rfl, hlen, hI'⟩ | ⟨e, rfl, -⟩ := hrun
    · simp only at hok ⊢
      have ih : ∀ qs, (t.writeRuns rest).1 = .ok qs → Tidy (t.writeRuns rest).2
          (recsOf qs rest.flatten + (recsOf ps run + g)) := fun _ => ih (ht ps rfl) hI'
        (fun r hr => hruns r (List.mem_cons_of_mem _ hr))
        (fun r hr => hsmall r (List.mem_cons_of_mem _ hr))
      cases hr' : t.writeRuns rest with | mk r' t' =>
      rw [hr'] at hok ih
      cases r' with
      | error e => cases hok
      | ok qs =>
        cases hok
        rw [List.flatten_cons, recsOf_append hlen, add_assoc, add_left_comm]
        exact ih qs rfl
    · cases hok

theorem Tidy.writePayload (h : Tidy s g) (hI : StoreInv W s g) {payload : Bytes} {p : DiskPtr}
    (hok : (s.writePayload payload).1 = .ok p) :
    Tidy (s.writePayload payload).2 ((p, payload) ::ₘ g) := by
  unfold Store.writePayload at hok ⊢
  split at hok
  · cases hok
  rename_i hsmall
  rw [if_neg hsmall]
  have hlen := hI.writeRun (List.cons_ne_nil payload [])
    (fun q hq => by rw [List.mem_singleton.mp hq]; omega) true
  have ht : ∀ ps, (s.writeRun [payload] true).1 = .ok ps → Tidy (s.writeRun [payload] true).2
      (recsOf ps [payload] + g) := fun ps => h.writeRun hI
  cases hr : s.writeRun [payload] true with | mk r t =>
  rw [hr] at hok hlen ht
  obtain ⟨ps, rfl, hlen, -⟩ | ⟨e, rfl, -⟩ := hlen
  · obtain ⟨q, rfl⟩ := List.length_eq_one_iff.mp hlen
    cases hok
    have := ht [q] rfl
    rwa [show recsOf [q] [payload] = {(q, payload)} from rfl, Multiset.singleton_add] at this
  · cases hok

theorem Tidy.writeBatch (h : Tidy s g) (hI : StoreInv W s g) {payloads : List Bytes}
    {ptrs : List DiskPtr} (hok : (s.writeBatch payloads).1 = .ok ptrs) :
    Tidy (s.writeBatch payloads).2 (recsOf ptrs payloads + g) := by
  unfold Store.writeBatch at hok ⊢
  cases ht : Store.tooLarge payloads with
  | some p =>
    rw [ht] at hok
    cases hok
  | none =>
    rw [ht] at hok
    have := h.drain.writeRuns hI.drainIfUnaliased (runsOf_ne_nil payloads) (small_of_tooLarge ht) hok
    rwa [runsOf_flatten] at this

/-- The record's region loses exactly its units. -/
theorem Tidy.free {p : DiskPtr} {b : Bytes} (h : Tidy s ((p, b) ::ₘ g)) : Tidy (s.free p) g := by
  have hreg : regionOfUnit p.unit < s.seg.regions := by
    refine h.known _ ?_
    rw [h.live, usedUnits_cons, if_pos rfl]
    have := unit_pos p
    show p.units + _ ≠ 0
    omega
  have hlive : ∀ r, s.seg.live r =
      (if regionOfUnit p.unit = r then p.units else 0) + usedUnits g r := fun r => by
    rw [h.live r, usedUnits_cons]
  have hlow : (s.seg.free p.unit p.units).live =
      Function.update s.seg.live (regionOfUnit p.unit) (s.seg.live (regionOfUnit p.unit) - p.units) ∧
      (s.seg.free p.unit p.units).regions = s.seg.regions ∧
      (s.seg.free p.unit p.units).headRegion = s.seg.headRegion := by
    unfold RegionAlloc.free
    rw [if_neg (Nat.not_le.mpr hreg)]
    simp only
    split
    · unfold RegionAlloc.retire
      split
      · exact ⟨rfl, rfl, rfl⟩
      · split <;> exact ⟨rfl, rfl, rfl⟩
    · exact ⟨rfl, rfl, rfl⟩
  obtain ⟨h1, h2, h3⟩ := hlow
  have hlive' : ∀ r, (s.free p).seg.live r = usedUnits g r := by
    intro r
    show (s.seg.free p.unit p.units).live r = _
    rw [h1]
    by_cases hr : r = regionOfUnit p.unit
    · rw [hr, Function.update_self, hlive, if_pos rfl]
      omega
    · rw [Function.update_of_ne hr, hlive, if_neg (Ne.symm hr), zero_add]
  refine ⟨hlive', fun r hr => ?_, ?_⟩
  · show r < (s.seg.free p.unit p.units).regions
    rw [h2]
    refine h.known r ?_
    rw [hlive' r] at hr
    rw [hlive r]
    omega
  · show (s.seg.free p.unit p.units).regions ≠ 0 →
      (s.seg.free p.unit p.units).headRegion < (s.seg.free p.unit p.units).regions
    rw [h2, h3]
    exact h.head

end

/-! ## Runs -/

/-- A failed write that the ideal store refuses too reserves nothing. -/
theorem Grows.tidy {W : Holds} {r : Req} {s : Store} {g f g' : Multiset Rec}
    (h : Grows r (exec r s).1 g g') (hI : StoreInv W s (g + f)) (ht : Tidy s (g + f))
    (hok : ∀ e, failed r (exec r s).1 = some e → failed r (ideal r) = some e) :
    Tidy (exec r s).2 (g' + f) := by
  cases r with
  | writePayload payload =>
    obtain ⟨p, hp, rfl⟩ | ⟨e, he, rfl⟩ := h
    · rw [Multiset.cons_add]
      exact ht.writePayload hI hp
    · have hid := hok e (by rw [he]; rfl)
      show Tidy (s.writePayload payload).2 _
      unfold Store.writePayload
      by_cases hl : MAX_RECORD_BYTES < payload.length
      · rw [if_pos hl]
        exact ht
      · simp only [ideal, if_neg hl] at hid
        cases hid
  | writeBatch payloads =>
    obtain ⟨ptrs, hp, rfl⟩ | ⟨e, he, rfl⟩ := h
    · rw [add_assoc]
      exact ht.writeBatch hI hp
    · have hid := hok e (by rw [he]; rfl)
      show Tidy (s.writeBatch payloads).2 _
      unfold Store.writeBatch
      cases hl : Store.tooLarge payloads with
      | some p => exact ht.drain
      | none =>
        simp only [ideal, hl] at hid
        cases hid
  | writeBatchParallel payloads =>
    obtain ⟨ptrs, hp, rfl⟩ | ⟨e, he, rfl⟩ := h
    · rw [add_assoc]
      show Tidy (s.writeBatchParallel payloads).2 _
      have hp : (s.writeBatchParallel payloads).1 = .ok ptrs := hp
      rw [writeBatchParallel_ok hp]
      rw [writeBatchParallel_ok hp] at hp
      exact ht.writeBatch hI hp
    · have hid := hok e (by rw [he]; rfl)
      show Tidy (s.writeBatchParallel payloads).2 _
      unfold Store.writeBatchParallel
      cases hl : Store.tooLarge payloads with
      | some p => exact ht.drain
      | none =>
        simp only [ideal, hl] at hid
        cases hid
  | free p =>
    obtain ⟨b, rfl⟩ := h
    rw [Multiset.cons_add] at ht
    exact ht.free
  | read p =>
    obtain rfl : g' = g := h
    obtain he | he := (read_cases s p).2
    · show Tidy (s.read p).2 _
      rw [he]
      exact ht
    · show Tidy (s.read p).2 _
      rw [he]
      exact ht.of_eq rfl rfl rfl
  | pread off len recs =>
    obtain rfl : g' = g := h
    exact ht.of_eq rfl rfl rfl
  | selectVictims pick =>
    obtain rfl : g' = g := h
    exact ht
  | refuse e =>
    obtain rfl : g' = g := h
    exact ht

/-- What store calls keep of the owned records; the counts only while `tight`. -/
structure Upkept (W : Holds) (tight : Prop) (s : Store) (g : Multiset Rec) : Prop where
  store : StoreInv W s g
  scattered : Scattered g
  tidy : tight → Tidy s g

/-- Requests keep all of it, also for a program that knows of fewer pins. -/
theorem flat_upkept {W W' : Holds} (hW : ∀ e ∈ W.pinned, e ∈ W'.pinned) {tight : Prop}
    {ok : (r : Req) → Resp r → Prop} (hok : tight → Exact ok) :
    (flat W).Sound exec ok (Upkept W' tight) := by
  intro r s g f K h hK hans
  obtain ⟨g', hx, hI, hgrow⟩ := flat_grows hW h.store hK hans
  exact ⟨g', hx, hI, hgrow.scattered h.store h.scattered, fun ht =>
    hgrow.tidy h.store (h.tidy ht) fun e he => hok ht r _ e hans he⟩

end FlatMpt
