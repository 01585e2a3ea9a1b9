import FlatMpt.Lib.Implement
import FlatMpt.Ideal
import FlatMpt.Scatter
import Mathlib.Tactic.Abel

/-!
# Store calls in parts

A store call takes the allocator's lock only to reserve room; the write that fills
the room runs without it, so the calls of two threads overlap.  Between the two the
room is counted as live and belongs to the thread that reserved it.

    Part, execPart       -- what runs without interruption
    parts                -- a store call as a program over its parts
    partLogic            -- owned records, and rooms reserved but not yet filled
    noteWritten          -- the records that nothing has been written over
    partLogic_sound      -- parts keep the invariant; held records are not written over
    wp_parts             -- what holds of whole calls holds of interleaved parts
-/

namespace FlatMpt

open Prog RegionAlloc

/-! ## Parts -/

inductive Part
  | read (p : DiskPtr)
  | pread (off len : Nat) (recs : List DiskPtr)
  | free (p : DiskPtr)
  | selectVictims (pick : List Nat)
  | refuse (e : Err)
  | drain
  | reserve (run : List Bytes) (unpadded : Bool)
  | fill (unit : Nat) (run : List Bytes)

abbrev Ans : Part → Type
  | .read _ => Except Err Bytes
  | .pread _ _ _ => Except Err Bytes
  | .free _ => Unit
  | .selectVictims _ => List Nat
  | .refuse _ => Unit
  | .drain => Unit
  | .reserve _ _ => Except Err Nat
  | .fill _ _ => Except Err Unit

def execPart : (r : Part) → Store → Ans r × Store
  | .read p, s => s.read p
  | .pread off len _, s => s.pread off len
  | .free p, s => ((), s.free p)
  | .selectVictims pick, s => (s.selectVictims pick, s)
  | .refuse _, s => ((), s)
  | .drain, s => ((), s.drainStagedIfUnaliased)
  | .reserve run unpadded, s => s.allocRun run unpadded
  | .fill unit run, s => s.pwrite (unit * ADDR_UNIT) (s.runBytes run)

/-- Room for a run, and the write that fills it. -/
def putRun (run : List Bytes) (unpadded : Bool) : Prog Ans (Except Err (List DiskPtr)) :=
  .step (.reserve run unpadded) fun
    | .error e => .pure (.error e)
    | .ok unit => .step (.fill unit run) fun
      | .error e => .pure (.error e)
      | .ok _ => .pure (.ok (layout unit run))

def putRuns : List (List Bytes) → Prog Ans (Except Err (List DiskPtr))
  | [] => .pure (.ok [])
  | run :: rest => (putRun run false).bind fun
    | .error e => .pure (.error e)
    | .ok ps => (putRuns rest).bind fun
      | .error e => .pure (.error e)
      | .ok qs => .pure (.ok (ps ++ qs))

def reserveRuns : List (List Bytes) → Prog Ans (Except Err (List Nat))
  | [] => .pure (.ok [])
  | run :: rest => .step (.reserve run false) fun
    | .error e => .pure (.error e)
    | .ok unit => (reserveRuns rest).bind fun
      | .error e => .pure (.error e)
      | .ok units => .pure (.ok (unit :: units))

/-- The writes of a parallel batch, in any order. -/
def fillRuns (rooms : List (Nat × List Bytes)) : Prog Ans (Except Err Unit) :=
  (Prog.fan fun i : Fin rooms.length => Prog.ask (Part.fill (rooms.get i).1 (rooms.get i).2)).bind
    fun rs => .pure (((List.ofFn rs).find? fun r => !r.isOk).getD (.ok ()))

/-- All the room first, then all the writes. -/
def putParallel (runs : List (List Bytes)) : Prog Ans (Except Err (List DiskPtr)) :=
  (reserveRuns runs).bind fun
    | .error e => .pure (.error e)
    | .ok units => (fillRuns (units.zip runs)).bind fun
      | .error e => .pure (.error e)
      | .ok _ => .pure (.ok ((units.zip runs).flatMap fun (unit, run) => layout unit run))

/-- A store call as a program over its parts. -/
def parts : (r : Req) → Prog Ans (Resp r)
  | .read p => Prog.ask (Part.read p)
  | .pread off len recs => Prog.ask (Part.pread off len recs)
  | .writePayload payload =>
    if MAX_RECORD_BYTES < payload.length then .pure (.error (.recordTooLarge payload.length))
    else (putRun [payload] true).bind fun r => .pure (r.map fun ptrs => ptrs.headD ⟨0, 0⟩)
  | .writeBatch payloads => .step .drain fun _ =>
    match Store.tooLarge payloads with
    | some p => .pure (.error (.recordTooLarge p.length))
    | none => putRuns (runsOf payloads)
  | .writeBatchParallel payloads => .step .drain fun _ =>
    match Store.tooLarge payloads with
    | some p => .pure (.error (.recordTooLarge p.length))
    | none => putParallel (runsOf payloads)
  | .free p => Prog.ask (Part.free p)
  | .selectVictims pick => Prog.ask (Part.selectVictims pick)
  | .refuse e => Prog.ask (Part.refuse e)

/-! ## Rooms -/

/-- Room reserved for a run at a unit. -/
abbrev Room := Nat × List Bytes

/-- A run that fits a region. -/
structure Fits (run : List Bytes) : Prop where
  ne_nil : run ≠ []
  small : ∀ p ∈ run, p.length ≤ MAX_RECORD_BYTES
  room : runLive run ≤ REGION_UNITS

/-- What a thread owns: records, and rooms that it has yet to fill. -/
abbrev Holding := Multiset Rec × Multiset Room

def partRule : (r : Part) → Holding → (Ans r → Holding → Prop) → Prop
  | .read p, g, K => ∃ b, (p, b) ∈ g.1 ∧ K (.ok b) g ∧ K (.error .io) g
  | .pread off len recs, g, K => (∀ p ∈ recs, ∃ b, (p, b) ∈ g.1) ∧
    (∀ bytes, Slices (· ∈ g.1) off len bytes → K (.ok bytes) g) ∧ K (.error .io) g
  | .free p, g, K => ∃ b g', g.1 = (p, b) ::ₘ g' ∧ K () (g', g.2)
  | .selectVictims _, g, K => ∀ victims : List Nat, victims.Nodup → K victims g
  | .refuse _, g, K => K () g
  | .drain, g, K => K () g
  | .reserve run _, g, K => Fits run ∧ (∀ unit, K (.ok unit) (g.1, (unit, run) ::ₘ g.2)) ∧
    K (.error .addressLimit) g
  | .fill unit run, g, K => ∃ rooms, g.2 = (unit, run) ::ₘ rooms ∧
    K (.ok ()) (recsOf (layout unit run) run + g.1, rooms) ∧ K (.error .io) (g.1, rooms)

def partLogic : Logic Ans Holding where
  rule := partRule
  mono {r g K K'} hK h := by
    cases r with
    | read p =>
      obtain ⟨b, hb, h1, h2⟩ := h
      exact ⟨b, hb, hK _ _ h1, hK _ _ h2⟩
    | pread off len recs => exact ⟨h.1, fun b hb => hK _ _ (h.2.1 b hb), hK _ _ h.2.2⟩
    | free p =>
      obtain ⟨b, g', hg, h⟩ := h
      exact ⟨b, g', hg, hK _ _ h⟩
    | selectVictims pick => exact fun vs hn => hK _ _ (h vs hn)
    | refuse e => exact hK _ _ h
    | drain => exact hK _ _ h
    | reserve run unpadded => exact ⟨h.1, fun unit => hK _ _ (h.2.1 unit), hK _ _ h.2.2⟩
    | fill unit run =>
      obtain ⟨rooms, hg, h1, h2⟩ := h
      exact ⟨rooms, hg, hK _ _ h1, hK _ _ h2⟩
  frame {r g K} f h := by
    cases r with
    | read p =>
      obtain ⟨b, hb, h1, h2⟩ := h
      exact ⟨b, Multiset.mem_add.mpr (.inl hb), ⟨g, rfl, h1⟩, ⟨g, rfl, h2⟩⟩
    | pread off len recs =>
      refine ⟨fun p hp => ?_, fun b hb => ⟨g, rfl, h.2.1 b (hb.mono fun x hx => ?_)⟩,
        ⟨g, rfl, h.2.2⟩⟩
      · obtain ⟨b, hb⟩ := h.1 p hp
        exact ⟨b, Multiset.mem_add.mpr (.inl hb)⟩
      · exact Multiset.mem_add.mpr (.inl hx)
    | free p =>
      obtain ⟨b, g', hg, h⟩ := h
      refine ⟨b, g' + f.1, ?_, (g', g.2), rfl, h⟩
      rw [Prod.fst_add, hg, Multiset.cons_add]
    | selectVictims pick => exact fun vs hn => ⟨g, rfl, h vs hn⟩
    | refuse e => exact ⟨g, rfl, h⟩
    | drain => exact ⟨g, rfl, h⟩
    | reserve run unpadded =>
      refine ⟨h.1, fun unit => ⟨_, ?_, h.2.1 unit⟩, ⟨g, rfl, h.2.2⟩⟩
      rw [Prod.fst_add, Prod.snd_add, ← Multiset.cons_add]
      rfl
    | fill unit run =>
      obtain ⟨rooms, hg, h1, h2⟩ := h
      refine ⟨rooms + f.2, ?_, ⟨_, ?_, h1⟩, ⟨_, ?_, h2⟩⟩
      · rw [Prod.snd_add, hg, Multiset.cons_add]
      · rw [Prod.fst_add, ← add_assoc]
        rfl
      · rfl

/-! ## The invariant -/

/-- Live units of a region that rooms account for. -/
def roomUnits (rooms : Multiset Room) (r : Nat) : Nat :=
  (rooms.map fun e => if regionOfUnit e.1 = r then runLive e.2 else 0).sum

theorem roomUnits_cons (e : Room) (rooms : Multiset Room) (r : Nat) :
    roomUnits (e ::ₘ rooms) r =
      (if regionOfUnit e.1 = r then runLive e.2 else 0) + roomUnits rooms r := by
  unfold roomUnits
  rw [Multiset.map_cons, Multiset.sum_cons]

/-- Units outside a room. -/
def Clear (s : Store) (unit units : Nat) (e : Room) : Prop :=
  unit + units ≤ e.1 ∨ e.1 + s.paddedUnits (runLive e.2) ≤ unit

/-- The records written and not reallocated: reserving room drops those it overlaps. -/
def noteWritten : (r : Part) → Store → Ans r → Multiset DiskPtr → Multiset DiskPtr
  | .reserve run _, s, .ok unit, h => h.filter fun p =>
    p.unit + p.units ≤ unit ∨ unit + s.paddedUnits (runLive run) ≤ p.unit
  | .fill unit run, _, .ok _, h => layout unit run + h
  | _, _, _, h => h

/-- The invariant while rooms are open; `f` is what others own. -/
structure PartInv (W : Holds) (f : Multiset Rec) (s : Store × Multiset DiskPtr) (g : Holding) :
    Prop where
  held : ∀ x ∈ g.1, x.1 ∈ s.2
  scattered : Scattered (g.1 + f)
  store : StoreInv W s.1 (g.1 + f)
  counted : ∀ r, usedUnits (g.1 + f) r + roomUnits g.2 r ≤ s.1.seg.live r
  rooms : ∀ e ∈ g.2, Fits e.2 ∧ s.1.seg.Taken s.1.endPage e.1 (s.1.paddedUnits (runLive e.2))
  kept : ∀ e ∈ g.2, ∀ x, W.Kept (g.1 + f) x → Clear s.1 x.1.unit x.1.units e
  apart : ∀ e e', ({e, e'} : Multiset Room) ≤ g.2 → Clear s.1 e.1 (s.1.paddedUnits (runLive e.2)) e'
  cache : ∀ u payload, (u, payload) ∈ s.1.readAhead → ∀ e ∈ g.2, Clear s.1 u 1 e

theorem PartInv.start {W : Holds} {f g : Multiset Rec} {s : Store} (hI : StoreInv W s (g + f))
    (hg : Scattered (g + f)) : PartInv W f (s, g.map Prod.fst) (g, 0) where
  held x hx := Multiset.mem_map_of_mem _ hx
  scattered := hg
  store := hI
  counted r := by
    show usedUnits (g + f) r + 0 ≤ _
    rw [add_zero]
    exact hI.counted r
  rooms e he := absurd he (Multiset.notMem_zero e)
  kept e he := absurd he (Multiset.notMem_zero e)
  apart e e' h := by
    have he : e ∈ (0 : Multiset Room) := Multiset.mem_of_le h (by simp)
    exact absurd he (Multiset.notMem_zero e)
  cache u payload _ e he := absurd he (Multiset.notMem_zero e)

section
variable {W : Holds} {f : Multiset Rec} {s : Store} {h : Multiset DiskPtr} {g : Holding}

/-- Faults play no role. -/
theorem PartInv.of_eq {s' : Store} (hI : PartInv W f (s, h) g) (hS : StoreInv W s' (g.1 + f))
    (hseg : s'.seg = s.seg) (hend : s'.endPage = s.endPage) (hcache : s'.readAhead = s.readAhead)
    (hdir : s'.direct = s.direct) : PartInv W f (s', h) g := by
  have hpad : ∀ n, s'.paddedUnits n = s.paddedUnits n := fun n => by
    unfold Store.paddedUnits Store.alignUnits
    rw [hdir]
  have hclear : ∀ {u n e}, Clear s u n e → Clear s' u n e := fun {u n e} hc => by
    unfold Clear at hc ⊢
    rw [hpad]
    exact hc
  refine ⟨hI.held, hI.scattered, hS, ?_, ?_, ?_, ?_, ?_⟩
  · show ∀ r, _ ≤ s'.seg.live r
    rw [hseg]
    exact hI.counted
  · intro e he
    refine ⟨(hI.rooms e he).1, ?_⟩
    show s'.seg.Taken s'.endPage e.1 (s'.paddedUnits (runLive e.2))
    rw [hseg, hend, hpad]
    exact (hI.rooms e he).2
  · exact fun e he x hx => hclear (hI.kept e he x hx)
  · intro e e' hee
    show Clear s' e.1 (s'.paddedUnits (runLive e.2)) e'
    rw [hpad]
    exact hclear (hI.apart e e' hee)
  · intro u payload hu e he
    rw [show s'.readAhead = s.readAhead from hcache] at hu
    exact hclear (hI.cache u payload hu e he)

theorem PartInv.room_pos (hI : PartInv W f (s, h) g) {e : Room} (he : e ∈ g.2) :
    0 < runLive e.2 := runLive_pos (hI.rooms e he).1.ne_nil

/-- A region with an open room is not parked. -/
theorem PartInv.room_not_parked (hI : PartInv W f (s, h) g) {e : Room} (he : e ∈ g.2) :
    regionOfUnit e.1 ∉ s.seg.parked := by
  intro hp
  have h0 := (hI.store.regions.dead _ hp).1
  have hc := hI.counted (regionOfUnit e.1)
  have hpos := hI.room_pos he
  obtain ⟨rooms, hr⟩ := Multiset.exists_cons_of_mem he
  rw [hr, roomUnits_cons, if_pos rfl] at hc
  have hc : _ ≤ s.seg.live (regionOfUnit e.1) := hc
  omega

theorem PartInv.free {p : DiskPtr} {b : Bytes} {g' : Multiset Rec} (hI : PartInv W f (s, h) g)
    (hg : g.1 = (p, b) ::ₘ g') : PartInv W f (s.free p, h) (g', g.2) := by
  have hS := hI.store
  have hle : g' + f ≤ g.1 + f := by
    rw [hg]
    exact add_le_add_left (Multiset.le_cons_self g' _) f
  rw [hg, Multiset.cons_add] at hS
  refine ⟨fun x hx => hI.held x ?_, hI.scattered.mono hle, hS.free, ?_, ?_, ?_, hI.apart, hI.cache⟩
  · rw [hg]
    exact Multiset.mem_cons_of_mem hx
  · intro r
    have hc := hI.counted r
    have hl := le_free_live s.seg p.unit p.units r
    rw [hg, Multiset.cons_add, usedUnits_cons] at hc
    have hc : _ ≤ s.seg.live r := hc
    show usedUnits (g' + f) r + roomUnits g.2 r ≤ (s.seg.free p.unit p.units).live r
    by_cases hr : regionOfUnit p.unit = r
    · rw [if_pos hr] at hc
      rw [if_pos hr.symm] at hl
      have hu : (p, b).1.units = p.units := rfl
      omega
    · rw [if_neg hr] at hc
      rw [if_neg (Ne.symm hr)] at hl
      omega
  · exact fun e he => ⟨(hI.rooms e he).1, (hI.rooms e he).2.free _ _⟩
  · intro e he x hx
    refine hI.kept e he x ?_
    rw [hg, Multiset.cons_add]
    exact hx.imp_left fun hx => Multiset.mem_cons_of_mem hx

theorem drain_cases (s : Store) :
    s.drainStagedIfUnaliased = { s with seg := s.seg.drainStaged } ∨ s.drainStagedIfUnaliased = s := by
  unfold Store.drainStagedIfUnaliased
  split
  · exact .inl rfl
  · exact .inr rfl

theorem PartInv.drain (hI : PartInv W f (s, h) g) :
    PartInv W f (s.drainStagedIfUnaliased, h) g := by
  have hS := hI.store.drainIfUnaliased
  rcases drain_cases s with he | he
  · rw [show (s, h).1.drainStagedIfUnaliased = _ from he] at hS
    rw [he]
    refine ⟨hI.held, hI.scattered, hS, hI.counted, fun e he => ⟨(hI.rooms e he).1, ?_⟩, hI.kept,
      hI.apart, hI.cache⟩
    refine (hI.rooms e he).2.drainStaged fun hm => hI.room_not_parked he ?_
    exact mem_parked.mpr (.inr (.inl hm))
  · rw [he]
    exact hI

/-- Runs that fit a region fit it padded. -/
theorem paddedUnits_le (s : Store) {n : Nat} (h : n ≤ REGION_UNITS) : s.paddedUnits n ≤ REGION_UNITS := by
  have hR : REGION_UNITS = 512 := rfl
  unfold Store.paddedUnits Store.alignUnits
  rw [hR] at h ⊢
  split
  · show (n + 16 - 1) / 16 * 16 ≤ 512
    omega
  · show (n + 1 - 1) / 1 * 1 ≤ 512
    omega

/-- Reserving a run that fits a region may only fail at the addressing limit. -/
theorem allocRun_fits (s : Store) {run : List Bytes} (hfit : Fits run) (unpadded : Bool) :
    ∃ unit seg' endPage', s.seg.alloc (s.paddedUnits (runLive run)) (runLive run) s.endPage =
        .ok (unit, seg', endPage') ∧
      (s.allocRun run unpadded = (.error .addressLimit, { s with seg := seg', endPage := endPage' }) ∨
        s.allocRun run unpadded = (.ok unit, { s with seg := seg', endPage := endPage' })) := by
  have hrun := paddedUnits_le s hfit.room
  have hsome : ∃ r, s.seg.alloc (s.paddedUnits (runLive run)) (runLive run) s.endPage = .ok r := by
    unfold RegionAlloc.alloc
    rw [if_neg (Nat.not_lt.mpr hrun)]
    exact ⟨_, rfl⟩
  obtain ⟨⟨unit, seg', endPage'⟩, ha⟩ := hsome
  refine ⟨unit, seg', endPage', ha, ?_⟩
  simp only [Store.allocRun, ha]
  by_cases h : U32_MAX < unit + (if unpadded then runLive run else s.paddedUnits (runLive run))
  · exact .inl (if_pos h)
  · exact .inr (if_neg h)

/-- The records noted after a reservation. -/
def remaining (h : Multiset DiskPtr) (unit units : Nat) : Multiset DiskPtr :=
  h.filter fun p => p.unit + p.units ≤ unit ∨ unit + units ≤ p.unit

/-- Room has been reserved, and no one has taken it yet. -/
theorem PartInv.allocated {run live unit endPage' : Nat} {seg' : RegionAlloc}
    (hI : PartInv W f (s, h) g) (hpos : 0 < run)
    (ha : s.seg.alloc run live s.endPage = .ok (unit, seg', endPage')) :
    PartInv W f ({ s with seg := seg', endPage := endPage' }, h) g := by
  refine ⟨hI.held, hI.scattered, hI.store.allocated hpos ha, fun r => ?_,
    fun e he => ⟨(hI.rooms e he).1, (hI.rooms e he).2.alloc ha⟩, hI.kept, hI.apart, hI.cache⟩
  have hc : _ ≤ s.seg.live r := hI.counted r
  have hl := live_le_alloc ha r
  show _ ≤ seg'.live r
  omega

/-- A room is reserved: it is apart from everything kept and reserved. -/
theorem PartInv.opened {run : List Bytes} {unit endPage' : Nat} {seg' : RegionAlloc}
    (hI : PartInv W f (s, h) g) (hfit : Fits run)
    (ha : s.seg.alloc (s.paddedUnits (runLive run)) (runLive run) s.endPage =
      .ok (unit, seg', endPage')) :
    PartInv W f ({ s with seg := seg', endPage := endPage' },
      remaining h unit (s.paddedUnits (runLive run))) (g.1, (unit, run) ::ₘ g.2) := by
  have hpos : 0 < s.paddedUnits (runLive run) :=
    lt_of_lt_of_le (runLive_pos hfit.ne_nil) (le_paddedUnits s _)
  have hA := hI.allocated hpos ha
  obtain ⟨htaken, hreg⟩ := alloc_taken hI.store.regions ha hpos le_rfl le_rfl
  refine ⟨fun x hx => ?_, hI.scattered, hA.store, fun r => ?_, ?_, ?_, ?_, ?_⟩
  · have hx' : x ∈ g.1 + f := Multiset.mem_add.mpr (.inl hx)
    exact Multiset.mem_filter.mpr ⟨hI.held x hx,
      alloc_disjoint hI.store.regions (hI.store.stored x hx').taken ha⟩
  · have hc : _ ≤ s.seg.live r := hI.counted r
    have hl := live_le_alloc ha r
    show usedUnits (g.1 + f) r + roomUnits ((unit, run) ::ₘ g.2) r ≤ seg'.live r
    rw [roomUnits_cons]
    show usedUnits (g.1 + f) r + ((if regionOfUnit unit = r then runLive run else 0) +
      roomUnits g.2 r) ≤ seg'.live r
    rw [hreg]
    by_cases hr : r = seg'.headRegion
    · rw [if_pos hr] at hl
      rw [if_pos hr.symm]
      omega
    · rw [if_neg hr] at hl
      rw [if_neg (Ne.symm hr)]
      omega
  · intro e he
    rcases Multiset.mem_cons.mp he with rfl | he
    · exact ⟨hfit, htaken⟩
    · exact hA.rooms e he
  · intro e he x hx
    rcases Multiset.mem_cons.mp he with rfl | he
    · exact alloc_disjoint hI.store.regions (hI.store.kept hx).taken ha
    · exact hI.kept e he x hx
  · intro e e' hee
    obtain ⟨rfl, he'⟩ | ⟨rfl, he⟩ | hee := pair_le_cons hee
    · exact (alloc_disjoint hI.store.regions (hI.rooms e' he').2 ha).symm
    · exact alloc_disjoint hI.store.regions (hI.rooms e he).2 ha
    · exact hI.apart e e' hee
  · intro u payload hu e he
    rcases Multiset.mem_cons.mp he with rfl | he
    · exact alloc_disjoint hI.store.regions (hI.store.cacheTaken u payload hu) ha
    · exact hI.cache u payload hu e he

/-- Reserving room keeps what is noted of the held records. -/
theorem PartInv.reserve {run : List Bytes} (hI : PartInv W f (s, h) g) (hfit : Fits run)
    (unpadded : Bool) :
    ((s.allocRun run unpadded).1 = .error .addressLimit ∧
      PartInv W f ((s.allocRun run unpadded).2, h) g) ∨
    ∃ unit, (s.allocRun run unpadded).1 = .ok unit ∧
      PartInv W f ((s.allocRun run unpadded).2, remaining h unit (s.paddedUnits (runLive run)))
        (g.1, (unit, run) ::ₘ g.2) := by
  have hpos : 0 < s.paddedUnits (runLive run) :=
    lt_of_lt_of_le (runLive_pos hfit.ne_nil) (le_paddedUnits s _)
  obtain ⟨unit, seg', endPage', ha, he | he⟩ := allocRun_fits s hfit unpadded
  · rw [he]
    exact .inl ⟨rfl, hI.allocated hpos ha⟩
  · rw [he]
    exact .inr ⟨unit, rfl, hI.opened hfit ha⟩

theorem within_room {a : RegionAlloc} {endPage unit n u k : Nat} (h : a.Taken endPage unit n)
    (hk : 0 < k) (hle : unit ≤ u) (hend : u + k ≤ unit + n) :
    a.Taken endPage u k ∧ regionOfUnit u = regionOfUnit unit := by
  have hin := h.inRegion
  have hbounds := regionOfUnit_bounds unit
  have hreg : regionOfUnit u = regionOfUnit unit :=
    regionOfUnit_eq (le_trans hbounds.1 hle) (by omega)
  refine ⟨⟨hk, by rw [hreg]; omega, by rw [hreg]; exact h.inFile, by rw [hreg]; exact h.notFree, ?_⟩, hreg⟩
  intro hh
  rw [hreg] at hh
  have := h.belowHead hh
  omega

/-- A room is given up. -/
theorem PartInv.closed {unit : Nat} {run : List Bytes} {rooms : Multiset Room}
    (hI : PartInv W f (s, h) (g.1, (unit, run) ::ₘ rooms)) : PartInv W f (s, h) (g.1, rooms) := by
  refine ⟨hI.held, hI.scattered, hI.store, fun r => ?_, fun e he => hI.rooms e (Multiset.mem_cons_of_mem he),
    fun e he => hI.kept e (Multiset.mem_cons_of_mem he),
    fun e e' hee => hI.apart e e' (hee.trans (Multiset.le_cons_self rooms _)),
    fun u payload hu e he => hI.cache u payload hu e (Multiset.mem_cons_of_mem he)⟩
  have hc := hI.counted r
  rw [roomUnits_cons] at hc
  show usedUnits (g.1 + f) r + roomUnits rooms r ≤ s.seg.live r
  have hc : usedUnits (g.1 + f) r + (_ + roomUnits rooms r) ≤ s.seg.live r := hc
  omega

/-- The store after a run is written into its room. -/
def Store.filled (s : Store) (unit : Nat) (run : List Bytes) : Store :=
  { s with file := overwrite s.file (unit * ADDR_UNIT) (s.runBytes run) }

/-- The room's records are framed in the file. -/
theorem filled_framed (s : Store) (unit : Nat) (run : List Bytes) :
    ∀ x ∈ recsOf (layout unit run) run, x.1.len = x.2.length ∧ Framed (s.filled unit run).file x ∧
      x.2 ∈ run ∧ unit ≤ x.1.unit ∧ x.1.unit + x.1.units ≤ unit + runLive run := by
  have hrun : readBytesAt (s.filled unit run).file (unit * ADDR_UNIT) (run.flatMap frame).length =
      run.flatMap frame := by
    have hin := overwrite_inside s.file (unit * ADDR_UNIT) (s.runBytes run)
    have hsplit : s.runBytes run = run.flatMap frame ++ List.replicate
      (s.paddedUnits (runLive run) * ADDR_UNIT - (run.flatMap frame).length) 0 := rfl
    rw [show overwrite s.file (unit * ADDR_UNIT) (s.runBytes run) = (s.filled unit run).file from rfl,
      hsplit, List.length_append, readBytesAt_add] at hin
    exact (List.append_inj hin (readBytesAt_length ..)).1
  exact fun x hx => layout_framed hrun x (Multiset.mem_coe.mp hx)

/-- A room is filled: its records are owned. -/
theorem PartInv.placed {unit : Nat} {run : List Bytes} {rooms : Multiset Room}
    (hI : PartInv W f (s, h) (g.1, (unit, run) ::ₘ rooms)) :
    PartInv W f (s.filled unit run, ↑(layout unit run) + h)
      (recsOf (layout unit run) run + g.1, rooms) := by
  have hroom := Multiset.mem_cons_self (unit, run) rooms
  obtain ⟨hfit, htaken⟩ := hI.rooms _ hroom
  have hpad := le_paddedUnits s (runLive run)
  have hlay := filled_framed s unit run
  have hsub : ∀ x ∈ recsOf (layout unit run) run,
      s.seg.Taken s.endPage x.1.unit x.1.units ∧ regionOfUnit x.1.unit = regionOfUnit unit := by
    intro x hx
    obtain ⟨-, -, -, hle, hend⟩ := hlay x hx
    refine within_room htaken (unit_pos _) hle ?_
    show _ ≤ unit + s.paddedUnits (runLive run)
    omega
  -- what was stored stays
  have hst : ∀ {x}, W.Kept (g.1 + f) x → Stored (s.filled unit run) x := fun {x} hx =>
    have hs := hI.store.kept hx
    ⟨hs.len, hs.small, hs.taken,
      framed_overwrite hs.framed (runBytes_length ..) (hI.kept _ hroom x hx)⟩
  have hcount : ∀ r, usedUnits (recsOf (layout unit run) run + g.1 + f) r + roomUnits rooms r ≤
      s.seg.live r := by
    intro r
    have hc := hI.counted r
    rw [roomUnits_cons] at hc
    have hc : usedUnits (g.1 + f) r +
      ((if regionOfUnit unit = r then runLive run else 0) + roomUnits rooms r) ≤ s.seg.live r := hc
    rw [add_assoc, usedUnits_add]
    by_cases hr : regionOfUnit unit = r
    · rw [if_pos hr] at hc
      have := usedUnits_layout unit run r
      omega
    · rw [usedUnits_eq_zero fun x hx he => hr ((hsub x hx).2.symm.trans he)]
      omega
  refine ⟨?_, ?_, ⟨hI.store.regions, ?_, fun r => (Nat.le_add_right _ _).trans (hcount r), ?_, ?_,
    hI.store.cacheTaken, ?_, hI.store.synced⟩, hcount,
    fun e he => hI.rooms e (Multiset.mem_cons_of_mem he), ?_,
    fun e e' hee => hI.apart e e' (hee.trans (Multiset.le_cons_self rooms _)),
    fun u payload hu e he => hI.cache u payload hu e (Multiset.mem_cons_of_mem he)⟩
  · intro x hx
    rcases Multiset.mem_add.mp hx with hx | hx
    · exact Multiset.mem_add.mpr (.inl (Multiset.mem_coe.mpr (List.of_mem_zip hx).1))
    · exact Multiset.mem_add.mpr (.inr (hI.held x hx))
  · show Scattered (recsOf (layout unit run) run + g.1 + f)
    rw [add_assoc]
    refine (layout_scattered unit run).add hI.scattered fun x hx y hy => ?_
    obtain ⟨-, -, -, hle, hend⟩ := hlay x hx
    have hc : y.1.unit + y.1.units ≤ unit ∨ unit + s.paddedUnits (runLive run) ≤ y.1.unit :=
      hI.kept _ hroom y (.inl hy)
    show x.1.unit + x.1.units ≤ y.1.unit ∨ y.1.unit + y.1.units ≤ x.1.unit
    omega
  · intro x hx
    rw [add_assoc] at hx
    rcases Multiset.mem_add.mp hx with hx | hx
    · obtain ⟨hlen, hfr, hmem, -⟩ := hlay x hx
      refine ⟨hlen, ?_, (hsub x hx).1, hfr⟩
      rw [hlen]
      exact hfit.small _ hmem
    · exact hst (.inl hx)
  · exact fun gen x hx => ⟨hst (.inr (.inl ⟨gen, hx⟩)), (hI.store.pinned gen x hx).2⟩
  · exact fun x hx => ⟨hst (.inr (.inr hx)), (hI.store.saved x hx).2⟩
  · intro u payload hu x hx hxu
    have hcase : x ∈ recsOf (layout unit run) run ∨ W.Visible (g.1 + f) x := by
      rcases hx with hx | hx
      · rw [add_assoc] at hx
        exact (Multiset.mem_add.mp hx).imp_right .inl
      · exact .inr (.inr hx)
    obtain hx | hx := hcase
    · -- a cached unit is outside the room
      obtain ⟨-, -, -, hle, hend⟩ := hlay x hx
      have hpos := unit_pos x.1
      have hc : u + 1 ≤ unit ∨ unit + s.paddedUnits (runLive run) ≤ u :=
        hI.cache u payload hu _ hroom
      omega
    · exact hI.store.cacheOk u payload hu x hx hxu
  · intro e he x hx
    have hcase : x ∈ recsOf (layout unit run) run ∨ W.Kept (g.1 + f) x := by
      rcases hx with hx | hx
      · rw [add_assoc] at hx
        exact (Multiset.mem_add.mp hx).imp_right .inl
      · exact .inr (.inr hx)
    obtain hx | hx := hcase
    · -- two rooms are apart
      obtain ⟨-, -, -, hle, hend⟩ := hlay x hx
      have hap : unit + s.paddedUnits (runLive run) ≤ e.1 ∨
          e.1 + s.paddedUnits (runLive e.2) ≤ unit := by
        refine hI.apart (unit, run) e ?_
        rw [Multiset.insert_eq_cons]
        exact Multiset.cons_le_cons _ (Multiset.singleton_le.mpr he)
      show x.1.unit + x.1.units ≤ e.1 ∨ e.1 + s.paddedUnits (runLive e.2) ≤ x.1.unit
      omega
    · exact hI.kept e (Multiset.mem_cons_of_mem he) x hx

theorem PartInv.fill {unit : Nat} {run : List Bytes} {rooms : Multiset Room}
    (hI : PartInv W f (s, h) (g.1, (unit, run) ::ₘ rooms)) :
    ((s.pwrite (unit * ADDR_UNIT) (s.runBytes run)).1 = .error .io ∧
      PartInv W f ((s.pwrite (unit * ADDR_UNIT) (s.runBytes run)).2, h) (g.1, rooms)) ∨
    (s.pwrite (unit * ADDR_UNIT) (s.runBytes run)).1 = .ok () ∧
      PartInv W f ((s.pwrite (unit * ADDR_UNIT) (s.runBytes run)).2, ↑(layout unit run) + h)
        (recsOf (layout unit run) run + g.1, rooms) := by
  obtain ⟨hseg, hend, hcache⟩ := pwrite_rest s (unit * ADDR_UNIT) (s.runBytes run)
  have hdir : (s.pwrite (unit * ADDR_UNIT) (s.runBytes run)).2.direct = s.direct := by
    unfold Store.pwrite
    split <;> rfl
  have hun := hI.store.pwrite_synced s rfl fun x hx => Outside.of_units (runBytes_length s run)
    (hI.kept _ (Multiset.mem_cons_self ..) x (.inr (.inr hx)))
  obtain ⟨hr, hfile⟩ | ⟨hr, hfile⟩ := pwrite_cases s (unit * ADDR_UNIT) (s.runBytes run)
  · exact .inl ⟨hr, hI.closed.of_eq (hI.closed.store.of_eq hfile hseg hend hcache hun) hseg hend
      hcache hdir⟩
  · exact .inr ⟨hr, hI.placed.of_eq (hI.placed.store.of_eq hfile hseg hend hcache hun) hseg hend
      hcache hdir⟩

end

/-- The outcomes of a read. -/
theorem read_cases (s : Store) (p : DiskPtr) :
    ((∃ b, (s.read p).1 = .ok b) ∨ (s.read p).1 = .error .io) ∧
      ((s.read p).2 = s ∨ (s.read p).2 = s.fault.2) := by
  unfold Store.read Store.pread
  split
  · exact ⟨.inl ⟨_, rfl⟩, .inl rfl⟩
  · by_cases hf : s.fault.1 = true
    · exact ⟨.inr (if_pos hf), .inr rfl⟩
    · exact ⟨.inl ⟨_, if_neg hf⟩, .inr rfl⟩

/-- The parts keep the invariant: held records are never reallocated. -/
theorem partLogic_sound (W : Holds) (f : Multiset Rec) (ok : (r : Part) → Ans r → Prop) :
    partLogic.Sound (track execPart noteWritten) ok (PartInv W f) := by
  rintro r ⟨s, h⟩ g fr K hI hK -
  cases r with
  | read p =>
    obtain ⟨b, hb, hok, herr⟩ := hK
    have hb' : (p, b) ∈ (g + fr).1 + f :=
      Multiset.mem_add.mpr (.inl (Multiset.mem_add.mpr (.inl hb)))
    obtain ⟨hr, hS⟩ := hI.store.read (.inl hb')
    obtain ⟨hcase, hrest⟩ := read_cases s p
    have hK : K (s.read p).1 g := by
      obtain hr | ⟨e, hr⟩ := hr
      · rw [hr]
        exact hok
      · obtain ⟨b', hb'⟩ | hio := hcase
        · rw [hb'] at hr
          cases hr
        · rw [hio]
          exact herr
    refine ⟨g, hK, ?_⟩
    show PartInv W f ((s.read p).2, h) (g + fr)
    obtain hrest | hrest := hrest
    · rw [hrest]
      exact hI
    · rw [hrest]
      exact hI.of_eq (hI.store.of_eq rfl rfl rfl rfl hI.store.synced) rfl rfl rfl rfl
  | pread off len recs =>
    refine ⟨g, ?_, hI.of_eq (hI.store.of_eq rfl rfl rfl rfl hI.store.synced) rfl rfl rfl rfl⟩
    show K (if s.fault.1 = true then .error .io else .ok (readBytesAt s.file off len)) g
    by_cases hf : s.fault.1 = true
    · rw [if_pos hf]
      exact hK.2.2
    · rw [if_neg hf]
      refine hK.2.1 _ ((hI.store.slices off len).mono fun x hx => .inl ?_)
      exact Multiset.mem_add.mpr (.inl (Multiset.mem_add.mpr (.inl hx)))
  | free p =>
    obtain ⟨b, g', hg, hK⟩ := hK
    refine ⟨_, hK, ?_⟩
    have hg1 : (g + fr).1 = (p, b) ::ₘ (g' + fr.1) := by
      rw [Prod.fst_add, hg, Multiset.cons_add]
    exact hI.free hg1
  | selectVictims pick => exact ⟨g, hK _ (selectVictims_nodup s pick), hI⟩
  | refuse e => exact ⟨g, hK, hI⟩
  | drain => exact ⟨g, hK, hI.drain⟩
  | reserve run unpadded =>
    obtain ⟨hfit, hok, herr⟩ := hK
    obtain ⟨hr, hI'⟩ | ⟨unit, hr, hI'⟩ := hI.reserve hfit unpadded
    · refine ⟨g, ?_, ?_⟩
      · show K (s.allocRun run unpadded).1 g
        rw [hr]
        exact herr
      · show PartInv W f (_, noteWritten (.reserve run unpadded) s (s.allocRun run unpadded).1 h) _
        rw [hr]
        exact hI'
    · refine ⟨(g.1, (unit, run) ::ₘ g.2), ?_, ?_⟩
      · show K (s.allocRun run unpadded).1 _
        rw [hr]
        exact hok unit
      · show PartInv W f (_, noteWritten (.reserve run unpadded) s (s.allocRun run unpadded).1 h) _
        rw [hr, show (g.1, (unit, run) ::ₘ g.2) + fr = ((g + fr).1, (unit, run) ::ₘ (g + fr).2) from
          congrArg (Prod.mk _) (Multiset.cons_add ..)]
        exact hI'
  | fill unit run =>
    obtain ⟨rooms, hg, hok, herr⟩ := hK
    have hg2 : g + fr = ((g + fr).1, (unit, run) ::ₘ (rooms + fr.2)) := by
      rw [← Multiset.cons_add, ← hg]
      rfl
    rw [hg2] at hI
    obtain ⟨hr, hI'⟩ | ⟨hr, hI'⟩ := hI.fill
    · refine ⟨(g.1, rooms), ?_, ?_⟩
      · show K (s.pwrite (unit * ADDR_UNIT) (s.runBytes run)).1 _
        rw [hr]
        exact herr
      · show PartInv W f (_, noteWritten (.fill unit run) s
          (s.pwrite (unit * ADDR_UNIT) (s.runBytes run)).1 h) _
        rw [hr]
        exact hI'
    · refine ⟨(recsOf (layout unit run) run + g.1, rooms), ?_, ?_⟩
      · show K (s.pwrite (unit * ADDR_UNIT) (s.runBytes run)).1 _
        rw [hr]
        exact hok
      · show PartInv W f (_, noteWritten (.fill unit run) s
          (s.pwrite (unit * ADDR_UNIT) (s.runBytes run)).1 h) _
        rw [hr, Prod.mk_add_mk, add_assoc]
        exact hI'

/-! ## Whole calls -/

theorem unitsFor_le {n : Nat} (h : n ≤ MAX_RECORD_BYTES) : unitsFor (RECORD_HDR + n) ≤ REGION_UNITS := by
  have hM : MAX_RECORD_BYTES = 131068 := rfl
  have hH : RECORD_HDR = 4 := rfl
  have hA : ADDR_UNIT = 256 := rfl
  have hR : REGION_UNITS = 512 := rfl
  unfold unitsFor
  rw [hM] at h
  rw [hH, hA, hR]
  omega

theorem packRuns_fits {cur : List Bytes} (ps : List Bytes) (hcur : cur ≠ [])
    (hlive : runLive cur ≤ REGION_UNITS) (hsmall : ∀ p ∈ cur ++ ps, p.length ≤ MAX_RECORD_BYTES) :
    ∀ run ∈ packRuns cur ps, Fits run := by
  induction ps generalizing cur with
  | nil =>
    intro run hrun
    rw [packRuns, List.mem_singleton] at hrun
    subst hrun
    exact ⟨hcur, fun p hp => hsmall p (List.mem_append_left _ hp), hlive⟩
  | cons p ps ih =>
    unfold packRuns
    have hp : p.length ≤ MAX_RECORD_BYTES := hsmall p (by simp)
    split
    · intro run hrun
      rcases List.mem_cons.mp hrun with rfl | hrun
      · exact ⟨hcur, fun p hp => hsmall p (List.mem_append_left _ hp), hlive⟩
      · refine ih (List.cons_ne_nil _ _) ?_ (fun q hq => hsmall q ?_) run hrun
        · simpa [runLive] using unitsFor_le hp
        · exact List.mem_append_right _ hq
    · rename_i hroom
      refine ih (by simp) ?_ fun q hq => hsmall q ?_
      · have hlive' : runLive (cur ++ [p]) = runLive cur + unitsFor (RECORD_HDR + p.length) := by
          simp [runLive]
        omega
      · rw [List.append_assoc] at hq
        exact hq

theorem runsOf_fits {ps : List Bytes} (h : Store.tooLarge ps = none) : ∀ run ∈ runsOf ps, Fits run := by
  have hsmall : ∀ p ∈ ps, p.length ≤ MAX_RECORD_BYTES := fun p hp => by
    simpa using List.find?_eq_none.mp h p hp
  cases ps with
  | nil => exact fun run hrun => absurd hrun List.not_mem_nil
  | cons p ps =>
    refine packRuns_fits ps (List.cons_ne_nil _ _) ?_ hsmall
    simpa [runLive] using unitsFor_le (hsmall p List.mem_cons_self)

/-- The answers of parts under consideration: errors only if `c`. -/
def Given (c : Prop) : (r : Part) → Ans r → Prop
  | .read _, x => x.isOk = false → c
  | .pread _ _ _, x => x.isOk = false → c
  | .reserve _ _, x => x.isOk = false → c
  | .fill _ _, x => x.isOk = false → c
  | _, _ => True

/-- The answers of calls under consideration: errors besides those of the ideal store
only if `c`. -/
def Allowed (c : Prop) (r : Req) (x : Resp r) : Prop :=
  (failed r x = none → failed r (ideal r) = none) ∧
    ∀ e, failed r x = some e → c ∨ failed r (ideal r) = some e

theorem allowed_faithful (c : Prop) : Faithful (Allowed c) c where
  done _ _ h := h.1
  fault _ _ e h := h.2 e

section
variable {c : Prop} {g : Multiset Rec} {rooms : Multiset Room}

/-- A call's records are a holding without rooms. -/
def holding : Multiset Rec →+ Holding := AddMonoidHom.inl _ _

/-- What a call that stores records must allow. -/
def Stores (c : Prop) (g : Multiset Rec) (payloads : List Bytes)
    (x : Except Err (List DiskPtr)) (h : Holding) : Prop :=
  match x with
  | .ok ptrs => ptrs.length = payloads.length ∧ ∃ lost, h = holding (recsOf ptrs payloads + g) + lost
  | .error _ => c ∧ ∃ lost, h = holding g + lost

theorem wp_putRun {run : List Bytes} (hfit : Fits run) (unpadded : Bool) :
    wp (partLogic.filter (Given c)) (putRun run unpadded) (holding g) (Stores c g run) := by
  refine ⟨hfit, fun unit _ => ⟨0, rfl, fun _ => ?_, fun hc => ?_⟩, fun hc => ?_⟩
  · exact ⟨layout_length .., 0, (add_zero _).symm⟩
  · exact ⟨hc rfl, 0, (add_zero _).symm⟩
  · exact ⟨hc rfl, 0, (add_zero _).symm⟩

theorem wp_putRuns {runs : List (List Bytes)} (hfit : ∀ run ∈ runs, Fits run) :
    wp (partLogic.filter (Given c)) (putRuns runs) (holding g) (Stores c g runs.flatten) := by
  induction runs generalizing g with
  | nil =>
    refine ⟨rfl, 0, ?_⟩
    rw [add_zero, show recsOf [] ([] : List (List Bytes)).flatten = 0 from rfl, zero_add]
  | cons run rest ih =>
    refine wp_bind (wp_mono (wp_putRun (hfit run List.mem_cons_self) false) ?_)
    rintro (e | ptrs) h hp
    · exact hp
    obtain ⟨hlen, lost, rfl⟩ := hp
    refine wp_bind (wp_mono (wp_frame lost (ih fun r hr => hfit r (List.mem_cons_of_mem _ hr))) ?_)
    rintro (e | qs) _ ⟨h, rfl, hq⟩
    · obtain ⟨hc, lost', rfl⟩ := hq
      refine ⟨hc, holding (recsOf ptrs run) + lost' + lost, ?_⟩
      rw [map_add]
      abel
    · obtain ⟨hlen', lost', rfl⟩ := hq
      refine ⟨?_, lost' + lost, ?_⟩
      · rw [List.length_append, List.flatten_cons, List.length_append, hlen, hlen']
      · rw [List.flatten_cons, recsOf_append hlen]
        simp only [map_add]
        abel

theorem wp_reserveRuns {runs : List (List Bytes)} (hfit : ∀ run ∈ runs, Fits run) :
    wp (partLogic.filter (Given c)) (reserveRuns runs) (holding g) fun x h =>
      match x with
      | .ok units => units.length = runs.length ∧ h = (g, ↑(units.zip runs))
      | .error _ => c ∧ ∃ lost, h = holding g + lost := by
  induction runs with
  | nil => exact ⟨rfl, rfl⟩
  | cons run rest ih =>
    refine ⟨hfit run List.mem_cons_self, fun unit _ => ?_, fun hc => ⟨hc rfl, 0, (add_zero _).symm⟩⟩
    have hroom : ((holding g).1, (unit, run) ::ₘ (holding g).2) =
        holding g + ((0, {(unit, run)}) : Holding) := by
      refine Prod.ext (add_zero g).symm ?_
      show (unit, run) ::ₘ 0 = 0 + {(unit, run)}
      rw [zero_add]
      rfl
    show wp _ _ ((holding g).1, (unit, run) ::ₘ (holding g).2) _
    rw [hroom]
    refine wp_bind (wp_mono (wp_frame _ (ih fun r hr => hfit r (List.mem_cons_of_mem _ hr))) ?_)
    rintro (e | units) _ ⟨h, rfl, hu⟩
    · obtain ⟨hc, lost, rfl⟩ := hu
      exact ⟨hc, lost + (0, {(unit, run)}), add_assoc ..⟩
    · obtain ⟨hlen, rfl⟩ := hu
      refine ⟨by rw [List.length_cons, List.length_cons, hlen], Prod.ext (add_zero g) ?_⟩
      rw [List.zip_cons_cons, ← Multiset.cons_coe]
      show (↑(units.zip rest) : Multiset Room) + {(unit, run)} = _
      rw [add_comm, Multiset.singleton_add]

/-- The records of rooms once filled. -/
theorem recsOf_rooms (rooms : List Room) :
    recsOf (rooms.flatMap fun (unit, run) => layout unit run) (rooms.map Prod.snd).flatten =
      ∑ i : Fin rooms.length, recsOf (layout rooms[i.val].1 rooms[i.val].2) rooms[i.val].2 := by
  rw [Fin.sum_univ_fun_getElem rooms fun e => recsOf (layout e.1 e.2) e.2]
  induction rooms with
  | nil => rfl
  | cons e rest ih =>
    rw [List.flatMap_cons, List.map_cons, List.flatten_cons, recsOf_append (layout_length ..), ih,
      List.map_cons, List.sum_cons]

theorem rooms_sum (rooms : List Room) :
    ((0, ↑rooms) : Holding) = ∑ i : Fin rooms.length, (0, {rooms[i.val]}) := by
  rw [Fin.sum_univ_fun_getElem rooms fun e => ((0, {e}) : Holding)]
  induction rooms with
  | nil => rfl
  | cons e rest ih =>
    rw [List.map_cons, List.sum_cons, ← ih, ← Multiset.cons_coe, Prod.mk_add_mk, add_zero,
      Multiset.singleton_add]

theorem wp_fillRuns (rooms : List Room) :
    wp (partLogic.filter (Given c)) (fillRuns rooms) (g, ↑rooms)
      fun x h => match x with
      | .ok _ => h = holding (recsOf (rooms.flatMap fun (unit, run) => layout unit run)
          (rooms.map Prod.snd).flatten + g)
      | .error _ => c ∧ ∃ lost, h = holding g + lost := by
  have hstart : ((g, ↑rooms) : Holding) =
      ∑ i : Fin rooms.length, ((0, {rooms[i.val]}) : Holding) + holding g := by
    rw [← rooms_sum]
    exact Prod.ext (zero_add g).symm (add_zero _).symm
  refine ⟨_, _, fun i x h => (x.isOk = false → c) ∧ (x.isOk = true →
    h = holding (recsOf (layout rooms[i.val].1 rooms[i.val].2) rooms[i.val].2)), hstart, ?_, ?_⟩
  · intro i
    refine ⟨0, rfl, fun _ => ⟨nofun, fun _ => ?_⟩, fun hc => ⟨hc, nofun⟩⟩
    exact congrArg (fun m => ((m, 0) : Holding)) (add_zero _)
  · intro xs hs hxs
    show (match ((List.ofFn xs).find? fun r => !r.isOk).getD (.ok ()) with
      | .ok _ => _
      | .error _ => _)
    cases hf : (List.ofFn xs).find? fun r => !r.isOk with
    | none =>
      have hall : ∀ i, (xs i).isOk = true := fun i => by
        have := List.find?_eq_none.mp hf (xs i) (List.mem_ofFn.mpr ⟨i, rfl⟩)
        simpa using this
      show _ = _
      rw [map_add, recsOf_rooms, map_sum]
      exact congrArg (· + holding g) (Finset.sum_congr rfl fun i _ => (hxs i).2 (hall i))
    | some x =>
      obtain ⟨i, hi⟩ := List.mem_ofFn.mp (List.mem_of_find?_eq_some hf)
      have hx := List.find?_some hf
      cases x with
      | ok _ => cases hx
      | error e => exact ⟨(hxs i).1 (by rw [hi]; rfl), ∑ i, hs i, add_comm ..⟩

/-- What a program may assume of a call's records, it may assume of the parts. -/
theorem wp_stores {payloads : List Bytes} {K : Except Err (List DiskPtr) → Multiset Rec → Prop}
    {p : Prog Ans (Except Err (List DiskPtr))} {h : Holding}
    (hp : wp (partLogic.filter (Given c)) p h (Stores c g payloads))
    (hok : ∀ ptrs, ptrs.length = payloads.length → K (.ok ptrs) (recsOf ptrs payloads + g))
    (herr : c → ∀ e, K (.error e) g) : wp (partLogic.filter (Given c)) p h (Image holding K) := by
  refine wp_mono hp ?_
  rintro (e | ptrs) h hs
  · obtain ⟨hc, lost, rfl⟩ := hs
    exact ⟨g, lost, rfl, herr hc e⟩
  · obtain ⟨hlen, lost, rfl⟩ := hs
    exact ⟨_, lost, rfl, hok ptrs hlen⟩

theorem wp_parallel {payloads : List Bytes} (hsmall : Store.tooLarge payloads = none) :
    wp (partLogic.filter (Given c)) (putParallel (runsOf payloads)) (holding g)
      (Stores c g payloads) := by
  refine wp_bind (wp_mono (wp_reserveRuns (runsOf_fits hsmall)) ?_)
  rintro (e | units) h hu
  · exact hu
  obtain ⟨hlen, rfl⟩ := hu
  refine wp_bind (wp_mono (wp_fillRuns _) ?_)
  rintro (e | _) h hf
  · exact hf
  have hsnd : ((units.zip (runsOf payloads)).map Prod.snd).flatten = payloads := by
    rw [List.map_snd_zip hlen.ge, runsOf_flatten]
  have hcount : ∀ rooms : List Room, (rooms.flatMap fun (unit, run) => layout unit run).length =
      (rooms.map Prod.snd).flatten.length := by
    intro rooms
    induction rooms with
    | nil => rfl
    | cons e rest ih =>
      rw [List.flatMap_cons, List.map_cons, List.flatten_cons, List.length_append,
        List.length_append, layout_length, ih]
  refine ⟨?_, 0, ?_⟩
  · rw [hcount, hsnd]
  · rw [hf, hsnd, add_zero]

/-- The parts of a call do what the call is assumed to do. -/
theorem wp_parts (r : Req) (g : Multiset Rec) (K : Resp r → Multiset Rec → Prop)
    (h : ((flat ⟨[], []⟩).filter (Allowed c)).rule r g K) :
    wp (partLogic.filter (Given c)) (parts r) (holding g) (Image holding K) := by
  have hnone : ∀ {x : Rec}, Holds.Visible ⟨[], []⟩ g x → x ∈ g := by
    rintro x (hx | ⟨gen, hx⟩)
    · exact hx
    · exact absurd hx List.not_mem_nil
  cases r with
  | read p =>
    obtain ⟨b, hb, hok, herr⟩ := h
    refine ⟨b, hnone hb, fun _ => .of (hok ⟨fun _ => rfl, fun _ h => by cases h⟩), fun hc => .of (herr _ ?_)⟩
    exact ⟨(fun h => by cases h), fun _ _ => .inl (hc rfl)⟩
  | pread off len recs =>
    refine ⟨fun p hp => ?_, fun bytes hs _ => .of (h.2.1 bytes (hs.mono fun _ => hnone)
      ⟨fun _ => rfl, fun _ h => by cases h⟩), fun hc => .of (h.2.2 _
        ⟨(fun h => by cases h), fun _ _ => .inl (hc rfl)⟩)⟩
    obtain ⟨b, hb⟩ := h.1 p hp
    exact ⟨b, hnone hb⟩
  | writePayload payload =>
    show wp _ (if _ then _ else _) _ _
    by_cases hl : MAX_RECORD_BYTES < payload.length
    · rw [if_pos hl]
      refine .of (h.2 _ ⟨(fun h => by cases h), fun e he => .inr ?_⟩)
      have hideal : ideal (.writePayload payload) = .error (.recordTooLarge payload.length) := if_pos hl
      rw [hideal]
      exact he
    · rw [if_neg hl]
      have hideal : failed (.writePayload payload) (ideal (.writePayload payload)) = none := by
        rw [show ideal (.writePayload payload) = .ok (named payload) from if_neg hl]
        rfl
      have hfit : Fits [payload] := by
        refine ⟨List.cons_ne_nil _ _, fun p hp => ?_, ?_⟩
        · rw [List.mem_singleton.mp hp]
          exact Nat.not_lt.mp hl
        · simpa [runLive] using unitsFor_le (Nat.not_lt.mp hl)
      refine wp_bind (wp_mono (wp_putRun hfit true) ?_)
      rintro (e | ptrs) hh hs
      · obtain ⟨hc, lost, rfl⟩ := hs
        exact ⟨g, lost, rfl, h.2 e ⟨(fun h => by cases h), fun _ _ => .inl hc⟩⟩
      · obtain ⟨hlen, lost, rfl⟩ := hs
        obtain ⟨p, rfl⟩ : ∃ p, ptrs = [p] := List.length_eq_one_iff.mp hlen
        exact ⟨_, lost, rfl, h.1 p ⟨fun _ => hideal, fun _ h => by cases h⟩⟩
  | writeBatch payloads =>
    cases ht : Store.tooLarge payloads with
    | some p =>
      have hparts : parts (.writeBatch payloads) =
          .step .drain fun _ => .pure (.error (.recordTooLarge p.length)) := by
        simp only [parts, ht]
      rw [hparts]
      refine fun _ => .of (h.2 _ ⟨(fun h => by cases h), fun e he => .inr ?_⟩)
      have hideal : ideal (.writeBatch payloads) = .error (.recordTooLarge p.length) := by
        simp only [ideal, ht]
      rw [hideal]
      exact he
    | none =>
      have hideal : failed (.writeBatch payloads) (ideal (.writeBatch payloads)) = none := by
        rw [show ideal (.writeBatch payloads) = .ok (payloads.map named) by simp only [ideal, ht]]
        rfl
      have hp := wp_putRuns (c := c) (g := g) (runsOf_fits ht)
      have hparts : parts (.writeBatch payloads) = .step .drain fun _ => putRuns (runsOf payloads) := by
        simp only [parts, ht]
      rw [runsOf_flatten] at hp
      rw [hparts]
      exact fun _ => wp_stores hp (fun ptrs hlen => h.1 ptrs hlen ⟨fun _ => hideal, fun _ h => by cases h⟩)
        fun hc e => h.2 e ⟨(fun h => by cases h), fun _ _ => .inl hc⟩
  | writeBatchParallel payloads =>
    cases ht : Store.tooLarge payloads with
    | some p =>
      have hparts : parts (.writeBatchParallel payloads) =
          .step .drain fun _ => .pure (.error (.recordTooLarge p.length)) := by
        simp only [parts, ht]
      rw [hparts]
      refine fun _ => .of (h.2 _ ⟨(fun h => by cases h), fun e he => .inr ?_⟩)
      have hideal : ideal (.writeBatchParallel payloads) = .error (.recordTooLarge p.length) := by
        simp only [ideal, ht]
      rw [hideal]
      exact he
    | none =>
      have hideal : failed (.writeBatchParallel payloads) (ideal (.writeBatchParallel payloads)) =
          none := by
        rw [show ideal (.writeBatchParallel payloads) = .ok (payloads.map named) by
          simp only [ideal, ht]]
        rfl
      have hparts : parts (.writeBatchParallel payloads) =
          .step .drain fun _ => putParallel (runsOf payloads) := by
        simp only [parts, ht]
      rw [hparts]
      exact fun _ => wp_stores (wp_parallel ht) (fun ptrs hlen => h.1 ptrs hlen ⟨fun _ => hideal, fun _ h => by cases h⟩)
        fun hc e => h.2 e ⟨(fun h => by cases h), fun _ _ => .inl hc⟩
  | free p =>
    obtain ⟨b, g', rfl, hk⟩ := h
    exact ⟨b, g', rfl, fun _ => .of (hk ⟨fun _ => rfl, fun _ h => by cases h⟩)⟩
  | selectVictims pick => exact fun vs hn _ => .of (h vs hn ⟨fun _ => rfl, fun _ h => by cases h⟩)
  | refuse e =>
    exact fun _ => .of (h ⟨fun he => he, fun _ he => .inr he⟩)

end

/-! ## Calls without interruption -/

theorem run_putRun (run : List Bytes) (unpadded : Bool) (s : Store) :
    Prog.run execPart (putRun run unpadded) s = s.writeRun run unpadded := by
  have hdir := allocRun_direct s run unpadded
  unfold Store.writeRun
  rw [putRun]
  cases ha : s.allocRun run unpadded with | mk r s' =>
  rw [ha] at hdir
  have hbytes := runBytes_congr hdir run
  cases r with
  | error e => simp only [Prog.run, execPart, ha]
  | ok unit =>
    simp only [Prog.run, execPart, ha, hbytes]
    cases s'.pwrite (unit * ADDR_UNIT) (s.runBytes run) with | mk r s'' =>
    cases r <;> rfl

theorem run_putRuns (runs : List (List Bytes)) (s : Store) :
    Prog.run execPart (putRuns runs) s = s.writeRuns runs := by
  induction runs generalizing s with
  | nil => rfl
  | cons run rest ih =>
    unfold Store.writeRuns
    rw [putRuns, run_bind, run_putRun]
    cases s.writeRun run false with | mk r s' =>
    cases r with
    | error e => rfl
    | ok ps =>
      simp only
      rw [run_bind, ih]
      cases s'.writeRuns rest with | mk r s'' =>
      cases r <;> rfl

/-- Parts run one after the other are the call; a parallel batch is left out, as its
writes go on after one has failed. -/
theorem run_parts (r : Req) (hr : ∀ payloads, r ≠ .writeBatchParallel payloads) (s : Store) :
    Prog.run execPart (parts r) s = exec r s := by
  cases r with
  | writePayload payload =>
    show Prog.run execPart (if _ then _ else _) s = s.writePayload payload
    unfold Store.writePayload
    by_cases hl : MAX_RECORD_BYTES < payload.length
    · rw [if_pos hl, if_pos hl]
      rfl
    · rw [if_neg hl, if_neg hl, run_bind, run_putRun]
      cases s.writeRun [payload] true with | mk r s' =>
      cases r <;> rfl
  | writeBatch payloads =>
    show _ = s.writeBatch payloads
    unfold Store.writeBatch
    cases ht : Store.tooLarge payloads with
    | some p => simp only [parts, ht, Prog.run, execPart]
    | none => simp only [parts, ht, Prog.run, execPart, run_putRuns]
  | writeBatchParallel payloads => exact absurd rfl (hr payloads)
  | read p => rfl
  | pread off len recs => rfl
  | free p => rfl
  | selectVictims pick => rfl
  | refuse e => rfl

end FlatMpt
