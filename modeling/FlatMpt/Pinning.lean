import FlatMpt.Holders
import FlatMpt.Lib.WriteLast
import FlatMpt.Tidy

/-!
# The store under its pins

Requests leave the pins of the allocator alone.  The store keeps the owned records,
those of the pinned snapshots and those of the checkpoint; here is what pins, persists
and the read-ahead do to it.

    Store.Stable     -- what each step of a store call keeps
    exec_pins        -- requests leave the pins alone
    Pinning          -- the invariant of the store with its pins
    Pinning.step, pin, unpin, persisted, prefetched
-/

namespace FlatMpt

open Prog RegionAlloc

/-! ## What every request keeps -/

/-- A property that each step of a store call keeps. -/
structure Store.Stable (P : Store → Prop) : Prop where
  alloc : ∀ {s ps unit seg endPage}, P s →
    s.seg.alloc (s.paddedUnits (runLive ps)) (runLive ps) s.endPage = .ok (unit, seg, endPage) →
      P { s with seg, endPage }
  pwrite : ∀ {s} off bytes, P s → P (s.pwrite off bytes).2
  fault : ∀ {s}, P s → P s.fault.2
  drain : ∀ {s}, P s → P s.drainStagedIfUnaliased
  free : ∀ {s} p, P s → P (s.free p)

namespace Store.Stable
variable {P : Store → Prop} {s : Store}

theorem allocRun (h : Stable P) (hs : P s) (ps : List Bytes) (unpadded : Bool) :
    P (s.allocRun ps unpadded).2 := by
  rcases allocRun_cases s ps unpadded with ⟨e, he⟩ | ⟨unit, seg, endPage, ha, he | he⟩
  · rwa [he]
  · rw [he]
    exact h.alloc hs ha
  · rw [he]
    exact h.alloc hs ha

theorem writeRun (h : Stable P) (hs : P s) (ps : List Bytes) (unpadded : Bool) :
    P (s.writeRun ps unpadded).2 := by
  have ha := h.allocRun hs ps unpadded
  unfold Store.writeRun
  split
  · rename_i e s' he
    rw [he] at ha
    exact ha
  · rename_i unit s' he
    rw [he] at ha
    have hp := h.pwrite (unit * ADDR_UNIT) (s.runBytes ps) ha
    split
    · rename_i hw
      rw [hw] at hp
      exact hp
    · rename_i hw
      rw [hw] at hp
      exact hp

theorem writeRuns (h : Stable P) (hs : P s) (runs : List (List Bytes)) : P (s.writeRuns runs).2 := by
  induction runs generalizing s with
  | nil => exact hs
  | cons run rest ih =>
    have hrun := h.writeRun hs run false
    unfold Store.writeRuns
    split
    · rename_i he
      rw [he] at hrun
      exact hrun
    · rename_i ps s' he
      rw [he] at hrun
      have hrest := ih hrun
      split
      · rename_i hr
        rw [hr] at hrest
        exact hrest
      · rename_i hr
        rw [hr] at hrest
        exact hrest

theorem allocRuns (h : Stable P) (hs : P s) (runs : List (List Bytes)) : P (s.allocRuns runs).2 := by
  induction runs generalizing s with
  | nil => exact hs
  | cons run rest ih =>
    have hrun := h.allocRun hs run false
    unfold Store.allocRuns
    split
    · rename_i he
      rw [he] at hrun
      exact hrun
    · rename_i unit s' he
      rw [he] at hrun
      have hrest := ih hrun
      split
      · rename_i hr
        rw [hr] at hrest
        exact hrest
      · rename_i hr
        rw [hr] at hrest
        exact hrest

theorem pwriteRuns (h : Stable P) (hs : P s) (runs : List (Nat × List Bytes)) :
    P (s.pwriteRuns runs).2 := by
  induction runs generalizing s with
  | nil => exact hs
  | cons e rest ih =>
    obtain ⟨unit, run⟩ := e
    have hp := h.pwrite (unit * ADDR_UNIT) (s.runBytes run) hs
    unfold Store.pwriteRuns
    split
    · rename_i he
      rw [he] at hp
      exact hp
    · rename_i s' he
      rw [he] at hp
      exact ih hp

theorem writePayload (h : Stable P) (hs : P s) (payload : Bytes) : P (s.writePayload payload).2 := by
  have hrun := h.writeRun hs [payload] true
  unfold Store.writePayload
  split
  · exact hs
  · split
    · rename_i hw
      rw [hw] at hrun
      exact hrun
    · rename_i hw
      rw [hw] at hrun
      exact hrun

theorem writeBatch (h : Stable P) (hs : P s) (payloads : List Bytes) : P (s.writeBatch payloads).2 := by
  unfold Store.writeBatch
  split
  · exact h.drain hs
  · exact h.writeRuns (h.drain hs) _

theorem writeBatchParallel (h : Stable P) (hs : P s) (payloads : List Bytes) :
    P (s.writeBatchParallel payloads).2 := by
  unfold Store.writeBatchParallel
  split
  · exact h.drain hs
  · have ha := h.allocRuns (h.drain hs) (runsOf payloads)
    dsimp only
    split
    · rename_i he
      rw [he] at ha
      exact ha
    · rename_i units s' he
      rw [he] at ha
      have hw := h.pwriteRuns ha (units.zip (runsOf payloads))
      split
      · rename_i hr
        rw [hr] at hw
        exact hw
      · rename_i hr
        rw [hr] at hw
        exact hw

/-- Requests are made of the steps. -/
theorem exec (h : Stable P) (hs : P s) (r : Req) : P (exec r s).2 := by
  cases r with
  | read p =>
    show P (s.read p).2
    rcases (read_cases s p).2 with he | he
    · rwa [he]
    · rw [he]
      exact h.fault hs
  | pread off len recs => exact h.fault hs
  | writePayload payload => exact h.writePayload hs payload
  | writeBatch payloads => exact h.writeBatch hs payloads
  | writeBatchParallel payloads => exact h.writeBatchParallel hs payloads
  | free p => exact h.free p hs
  | selectVictims pick => exact hs
  | refuse e => exact hs

end Store.Stable

/-! ## Pins of the allocator -/

/-- The same pins. -/
structure SamePins (a b : RegionAlloc) : Prop where
  live : b.livePins = a.livePins
  gen : b.pinGen = a.pinGen

namespace SamePins
variable {a b c : RegionAlloc}

theorem refl (a : RegionAlloc) : SamePins a a := ⟨rfl, rfl⟩

theorem trans (h : SamePins a b) (h' : SamePins b c) : SamePins a c :=
  ⟨h'.live.trans h.live, h'.gen.trans h.gen⟩

theorem withRoom (a : RegionAlloc) (runUnits endPage : Nat) :
    SamePins a (a.withRoom runUnits endPage) := by
  rcases withRoom_cases a runUnits endPage with h | ⟨h, -⟩
  · rw [h]
    exact ⟨rfl, rfl⟩
  · rw [h]
    exact refl a

theorem alloc {runUnits liveUnits endPage unit endPage' : Nat}
    (h : a.alloc runUnits liveUnits endPage = .ok (unit, b, endPage')) : SamePins a b := by
  obtain ⟨-, -, -, rfl⟩ := alloc_eq_ok h
  exact (withRoom a runUnits endPage).trans ⟨rfl, rfl⟩

theorem free (a : RegionAlloc) (unit units : Nat) : SamePins a (a.free unit units) := by
  rcases free_cases a unit units with h | h | ⟨-, -, -, h⟩
  · rw [h]
    exact refl a
  · rw [h]
    exact ⟨rfl, rfl⟩
  · rw [h]
    unfold retire
    split
    · exact ⟨rfl, rfl⟩
    · split <;> exact ⟨rfl, rfl⟩

theorem stable (a : RegionAlloc) : Store.Stable fun s => SamePins a s.seg where
  alloc hs ha := hs.trans (.alloc ha)
  pwrite off bytes hs := by rwa [(pwrite_rest ..).1]
  fault hs := hs
  drain {s} hs := by
    unfold Store.drainStagedIfUnaliased
    split
    · exact hs.trans ⟨rfl, rfl⟩
    · exact hs
  free p hs := hs.trans (.free ..)

end SamePins

/-- Requests leave the pins alone. -/
theorem exec_pins (s : Store) (r : Req) : SamePins s.seg (exec r s).2.seg :=
  (SamePins.stable s.seg).exec (.refl _) r

theorem step_pins {ok : (r : Req) → Resp r → Prop} {α : Type} {s s' : Store} {p p' : Prog Resp α}
    (h : Prog.Step exec ok s p s' p') : SamePins s.seg s'.seg :=
  (Steps.head h .refl).invariant (P := fun t => SamePins s.seg t.seg)
    (fun r t ht _ => ht.trans (exec_pins t r)) (.refl _)

/-! ## Reads -/

/-- Requests that leave the owned records alone. -/
def Req.reads : Req → Prop
  | .read _ | .pread _ _ _ | .selectVictims _ | .refuse _ => True
  | _ => False

/-- Requests that place records. -/
def Req.places : Req → Prop
  | .writePayload _ | .writeBatch _ | .writeBatchParallel _ => True
  | _ => False

theorem flat_reads (W : Holds) (ok : (r : Req) → Resp r → Prop) (r : Req) (g : Multiset Rec)
    (K : Resp r → Multiset Rec → Prop) (hr : r.reads) (h : ((flat W).filter ok).rule r g K) :
    ((flat W).filter ok).rule r g fun x g' => K x g' ∧ g' = g := by
  cases r with
  | read p =>
    obtain ⟨b, hb, h1, h2⟩ := h
    exact ⟨b, hb, fun hx => ⟨h1 hx, rfl⟩, fun e hx => ⟨h2 e hx, rfl⟩⟩
  | pread off len recs =>
    exact ⟨h.1, fun bytes hb hx => ⟨h.2.1 bytes hb hx, rfl⟩, fun e hx => ⟨h.2.2 e hx, rfl⟩⟩
  | selectVictims pick => exact fun victims hn hx => ⟨h victims hn hx, rfl⟩
  | refuse e => exact fun hx => ⟨h hx, rfl⟩
  | _ => cases hr

/-! ## The store under its pins -/

/-- The store keeps the records `g`, those of the pinned snapshots and the saved ones. -/
structure Pinning (pay : Payloads) (saved : List Rec) (snaps : Multiset Snapshot) (tight : Prop)
    (s : Store) (g : Multiset Rec) : Prop where
  upkept : Upkept (heldBy pay snaps saved) tight s g
  pins : snaps.map Snapshot.gen = s.seg.livePins
  counted : ∀ gen ∈ s.seg.livePins, gen ≤ s.seg.pinGen

theorem onPersisted_regions (a : RegionAlloc) : a.onPersisted.regions = a.regions := by
  unfold onPersisted
  split <;> rfl

theorem prefetchRecord_seg (s : Store) (p : DiskPtr) : (s.prefetchRecord p).seg = s.seg := by
  unfold Store.prefetchRecord
  split
  · rename_i h
    rw [← (Prod.mk.inj h).2]
    rfl
  · rename_i h
    rw [← (Prod.mk.inj h).2]
    rfl

theorem prefetchRecords_seg (s : Store) (order : List DiskPtr) :
    (order.foldl Store.prefetchRecord s).seg = s.seg := by
  induction order generalizing s with
  | nil => rfl
  | cons p order ih => exact (ih _).trans (prefetchRecord_seg s p)

theorem StoreInv.cleared {W : Holds} {s : Store} {g : Multiset Rec} (hI : StoreInv W s g) :
    StoreInv W s.readAheadClear g := hI.drained rfl

namespace Pinning
variable {pay : Payloads} {saved : List Rec} {snaps : Multiset Snapshot} {tight : Prop} {s : Store}
  {g : Multiset Rec} {snap : Snapshot}

theorem same_pins (h : Pinning pay saved snaps tight s g) {s' : Store} {g' : Multiset Rec}
    (hu : Upkept (heldBy pay snaps saved) tight s' g') (hs : SamePins s.seg s'.seg) :
    Pinning pay saved snaps tight s' g' where
  upkept := hu
  pins := by
    rw [hs.live]
    exact h.pins
  counted := by
    rw [hs.live, hs.gen]
    exact h.counted

/-- Requests of a thread that owns a part and sees some of the pins. -/
theorem step (h : Pinning pay saved snaps tight s g) {W : Holds}
    (hW : ∀ e ∈ W.pinned, e ∈ (heldBy pay snaps saved).pinned) {ok : (r : Req) → Resp r → Prop}
    (hok : tight → Exact ok) {α : Type} {p p' : Prog Resp α} {s' : Store}
    (hstep : Prog.Step exec ok s p s' p') {share rest : Multiset Rec} (hg : g = share + rest)
    {Q : α → Multiset Rec → Prop} (hp : wp ((flat W).filter ok) p share Q) :
    ∃ share', wp ((flat W).filter ok) p' share' Q ∧
      Pinning pay saved snaps tight s' (share' + rest) := by
  have hu := h.upkept
  rw [hg] at hu
  obtain ⟨share', hp', hu'⟩ := (flat_upkept hW hok).filter.step hstep hu hp
  exact ⟨share', hp', h.same_pins hu' (step_pins hstep)⟩

/-- A collection owns nothing before its last request is answered. -/
theorem stepLast (h : Pinning pay saved snaps tight s g) {W : Holds}
    (hW : ∀ e ∈ W.pinned, e ∈ (heldBy pay snaps saved).pinned) {ok : (r : Req) → Resp r → Prop}
    (hok : tight → Exact ok) {α : Type} {p p' : Prog Resp α} {s' : Store}
    (hstep : Prog.Step exec ok s p s' p') (hlast : WritesLast Req.reads Req.places p)
    {share rest : Multiset Rec} (hg : g = share + rest) {Q : α → Multiset Rec → Prop}
    (hp : wp ((flat W).filter ok) p share Q) :
    ∃ share', wp ((flat W).filter ok) p' share' Q ∧
      Pinning pay saved snaps tight s' (share' + rest) ∧ WritesLast Req.reads Req.places p' ∧
      (share' = share ∨ ∃ a, p' = .pure a) := by
  have hu := h.upkept
  rw [hg] at hu
  obtain ⟨share', hp', hu', hl', he⟩ :=
    hlast.step (flat_upkept hW hok).filter (flat_reads W ok) hstep hu hp
  exact ⟨share', hp', h.same_pins hu' (step_pins hstep), hl', he⟩

theorem mem_gens (h : Pinning pay saved snaps tight s g) (hs : snap ∈ snaps) :
    snap.gen ∈ s.seg.livePins := by
  rw [← Multiset.mem_coe, ← h.pins]
  exact Multiset.mem_map_of_mem _ hs

/-- The next generation is new. -/
theorem gen_ne (h : Pinning pay saved snaps tight s g) (hs : snap ∈ snaps) :
    snap.gen ≠ s.seg.pinGen + 1 := by
  have := h.counted _ (h.mem_gens hs)
  omega

theorem stored (h : Pinning pay saved snaps tight s g) (hs : snap ∈ snaps) {x : Rec}
    (hx : x ∈ snapRecs pay snap) : Stored s x :=
  (h.upkept.store.pinned snap.gen x (mem_pinsOf.mpr ⟨snap, hs, rfl, hx⟩)).1

/-- A snapshot of a frontier whose records are owned. -/
theorem pin (h : Pinning pay saved snaps tight s g) {node : RamNode} {p : List Nibble → Bytes}
    (hp : ∀ x ∈ recsAt p node, x ∈ g) :
    Pinning (Function.update pay (s.seg.pinGen + 1) p) saved (⟨node, s.seg.pinGen + 1⟩ ::ₘ snaps)
      tight s.pin g where
  upkept :=
    { store := h.upkept.store.pin (fun gen x hx => by
        obtain ⟨snap, hs, rfl, hr⟩ := mem_pinsOf.mp hx
        rcases Multiset.mem_cons.mp hs with rfl | hs
        · refine .inr ⟨rfl, hp x ?_⟩
          unfold snapRecs at hr
          rwa [Function.update_self] at hr
        · rw [snapRecs_update p (h.gen_ne hs)] at hr
          exact .inl (mem_pinsOf.mpr ⟨snap, hs, rfl, hr⟩)) rfl
      scattered := h.upkept.scattered
      tidy := fun ht => (h.upkept.tidy ht).of_eq rfl rfl rfl }
  pins := by
    rw [Multiset.map_cons, h.pins]
    rfl
  counted gen hgen := by
    rcases List.mem_cons.mp hgen with rfl | hgen
    · exact le_rfl
    · exact Nat.le_succ_of_le (h.counted gen hgen)

/-- A clone shares the pin. -/
theorem pinAt (h : Pinning pay saved snaps tight s g) (hs : snap ∈ snaps) :
    Pinning pay saved (snap ::ₘ snaps) tight (s.pinAt snap.gen) g where
  upkept :=
    { store := h.upkept.store.pinAt snap.gen (pinsOf_mono fun other ho => by
        rcases Multiset.mem_cons.mp ho with rfl | ho
        · exact hs
        · exact ho) rfl
      scattered := h.upkept.scattered
      tidy := fun ht => (h.upkept.tidy ht).of_eq rfl rfl rfl }
  pins := by
    rw [Multiset.map_cons, h.pins]
    rfl
  counted gen hgen := by
    rcases List.mem_cons.mp hgen with rfl | hgen
    · exact h.counted _ (h.mem_gens hs)
    · exact h.counted gen hgen

theorem unpin (h : Pinning pay saved (snap ::ₘ snaps) tight s g) :
    Pinning pay saved snaps tight (s.unpin snap.gen) g := by
  have hpins : snaps.map Snapshot.gen = ↑(s.seg.livePins.erase snap.gen) := by
    rw [← Multiset.coe_erase, ← h.pins, Multiset.map_cons, Multiset.erase_cons_head]
  exact {
    upkept :=
      { store := h.upkept.store.unpin snap.gen
          (pinsOf_mono fun other ho => Multiset.mem_cons_of_mem ho)
          (fun e he => by
            obtain ⟨other, ho, hg, -⟩ := mem_pinsOf.mp he
            rw [← Multiset.mem_coe, ← hpins, ← hg]
            exact Multiset.mem_map_of_mem _ ho) rfl
        scattered := h.upkept.scattered
        tidy := fun ht => (h.upkept.tidy ht).of_eq rfl rfl rfl }
    pins := hpins
    counted := fun gen hgen => h.counted gen (List.mem_of_mem_erase hgen) }

/-- Shares may be given up where counts need not be exact. -/
theorem giveUp {rest : Multiset Rec} (h : Pinning pay saved snaps tight s (g + rest))
    (ht : ¬tight) : Pinning pay saved snaps tight s g where
  upkept :=
    { store := h.upkept.store.mono
      scattered := h.upkept.scattered.mono (Multiset.le_add_right _ _)
      tidy := fun ht' => absurd ht' ht }
  pins := h.pins
  counted := h.counted

theorem fault (h : Pinning pay saved snaps tight s g) :
    Pinning pay saved snaps tight s.fault.2 g where
  upkept :=
    { store := h.upkept.store.fault
      scattered := h.upkept.scattered
      tidy := fun ht => (h.upkept.tidy ht).of_eq rfl rfl rfl }
  pins := h.pins
  counted := h.counted

/-- A sync and a manifest: the owned records of a frontier are saved. -/
theorem persisted (h : Pinning pay saved snaps tight s g) {saved' : List Rec}
    (hs : ∀ x ∈ saved', x ∈ g) :
    Pinning pay saved' snaps tight { s with unsynced := [], seg := s.seg.onPersisted } g where
  upkept :=
    { store := h.upkept.store.persisted rfl hs
      scattered := h.upkept.scattered
      tidy := fun ht => (h.upkept.tidy ht).of_eq (onPersisted_head s.seg).1
        (onPersisted_regions s.seg) (onPersisted_head s.seg).2.1 }
  pins := by
    rw [h.pins, ← (onPersisted_head s.seg).2.2.2.2.1]
  counted gen hgen := by
    have hp := (onPersisted_head s.seg).2.2.2.2
    rw [hp.1] at hgen
    show gen ≤ s.seg.onPersisted.pinGen
    rw [hp.2]
    exact h.counted gen hgen

theorem prefetched (h : Pinning pay saved snaps tight s g) {order : List DiskPtr}
    (hv : ∀ p ∈ order, ∃ b, (p, b) ∈ g) :
    Pinning pay saved snaps tight (order.foldl Store.prefetchRecord s) g := by
  have hseg := prefetchRecords_seg s order
  exact {
    upkept :=
      { store := h.upkept.store.prefetched fun p hp => (hv p hp).imp fun _ hb => .inl hb
        scattered := h.upkept.scattered
        tidy := fun ht => (h.upkept.tidy ht).of_eq (by rw [hseg]) (by rw [hseg]) (by rw [hseg]) }
    pins := by rw [hseg, h.pins]
    counted := by
      rw [hseg]
      exact h.counted }

theorem cleared (h : Pinning pay saved snaps tight s g) :
    Pinning pay saved snaps tight s.readAheadClear g where
  upkept :=
    { store := h.upkept.store.cleared
      scattered := h.upkept.scattered
      tidy := fun ht => (h.upkept.tidy ht).of_eq rfl rfl rfl }
  pins := h.pins
  counted := h.counted

end Pinning

end FlatMpt
