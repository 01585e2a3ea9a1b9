import FlatMpt.Regions
import Mathlib.Algebra.BigOperators.Group.Multiset.Basic
import Mathlib.Data.Multiset.AddSub

/-!
# Owned records

The resources of an engine program are the records it owns, as a multiset of
pointers with their payloads.  `StoreInv` says that owned records, records seen
by live pins and records of the last checkpoint are all intact in the file, and
that no read-ahead entry disagrees with a record it could be served for.

    Stored s x        -- the record's units are taken and hold its framed payload
    StoreInv W s g    -- the invariant, with pins and checkpoint `W` and owned `g`
    flat              -- what each request needs and produces
    flat_sound        -- the requests keep `StoreInv`
-/

namespace FlatMpt

open RegionAlloc

/-- A record: its pointer and its payload. -/
abbrev Rec := DiskPtr × Bytes

/-! ## Bytes of the file -/

theorem readBytesAt_length (file : Nat → UInt8) (off len : Nat) :
    (readBytesAt file off len).length = len := by
  unfold readBytesAt
  rw [List.length_map, List.length_range]

theorem readBytesAt_add (file : Nat → UInt8) (off a b : Nat) :
    readBytesAt file off (a + b) = readBytesAt file off a ++ readBytesAt file (off + a) b := by
  unfold readBytesAt
  rw [List.range_add, List.map_append, List.map_map]
  refine congrArg _ (List.map_congr_left fun i _ => ?_)
  simp only [Function.comp_apply, Nat.add_assoc]

theorem readBytesAt_congr {file file' : Nat → UInt8} {off len : Nat}
    (h : ∀ x, off ≤ x → x < off + len → file x = file' x) :
    readBytesAt file off len = readBytesAt file' off len := by
  unfold readBytesAt
  refine List.map_congr_left fun i hi => ?_
  have := List.mem_range.mp hi
  exact h _ (by omega) (by omega)

theorem overwrite_outside {file : Nat → UInt8} {off : Nat} {bytes : Bytes} {a len : Nat}
    (h : a + len ≤ off ∨ off + bytes.length ≤ a) :
    readBytesAt (overwrite file off bytes) a len = readBytesAt file a len := by
  refine readBytesAt_congr fun x h1 h2 => ?_
  unfold overwrite
  rw [if_neg]
  omega

theorem readBytesAt_getElem (file : Nat → UInt8) (off len i : Nat)
    (h : i < (readBytesAt file off len).length) : (readBytesAt file off len)[i] = file (off + i) := by
  simp only [readBytesAt, List.getElem_map, List.getElem_range]

theorem overwrite_inside (file : Nat → UInt8) (off : Nat) (bytes : Bytes) :
    readBytesAt (overwrite file off bytes) off bytes.length = bytes := by
  refine List.ext_getElem (readBytesAt_length ..) fun i h1 h2 => ?_
  rw [readBytesAt_getElem]
  unfold overwrite
  rw [if_pos ⟨by omega, by omega⟩, Nat.add_sub_cancel_left]
  exact (List.getElem_eq_getD 0).symm

/-- Units hold what they are counted for. -/
theorem le_unitsFor (bytes : Nat) : bytes ≤ unitsFor bytes * ADDR_UNIT := by
  unfold unitsFor ADDR_UNIT
  omega

theorem frame_length (p : Bytes) :
    (frame p).length = unitsFor (RECORD_HDR + p.length) * ADDR_UNIT := by
  have := le_unitsFor (RECORD_HDR + p.length)
  unfold frame
  simp only [List.length_append, List.length_replicate, leBytes_length]
  unfold RECORD_HDR at *
  omega

theorem frame_eq (p : Bytes) : ∃ pad, frame p = leBytes 4 p.length ++ p ++ pad := ⟨_, rfl⟩

theorem flatMap_frame_length (ps : List Bytes) :
    (ps.flatMap frame).length = runLive ps * ADDR_UNIT := by
  induction ps with
  | nil => rfl
  | cons p ps ih =>
    unfold runLive at *
    rw [List.flatMap_cons, List.length_append, ih, frame_length, List.map_cons, List.sum_cons,
      Nat.add_mul]

theorem layout_length (base : Nat) (ps : List Bytes) : (layout base ps).length = ps.length := by
  induction ps generalizing base with
  | nil => rfl
  | cons p ps ih => rw [layout, List.length_cons, List.length_cons, ih]

/-- The framed bytes of a record. -/
def Framed (file : Nat → UInt8) (x : Rec) : Prop :=
  readBytesAt file x.1.offset (RECORD_HDR + x.1.len) = leBytes 4 x.1.len ++ x.2

/-- Records packed into a file are framed at the pointers of their layout. -/
theorem layout_framed {file : Nat → UInt8} {base : Nat} {ps : List Bytes}
    (h : readBytesAt file (base * ADDR_UNIT) (ps.flatMap frame).length = ps.flatMap frame) :
    ∀ x ∈ (layout base ps).zip ps, x.1.len = x.2.length ∧ Framed file x ∧ x.2 ∈ ps ∧
      base ≤ x.1.unit ∧ x.1.unit + x.1.units ≤ base + runLive ps := by
  induction ps generalizing base with
  | nil => intro x hx; cases hx
  | cons p ps ih =>
    rw [List.flatMap_cons, List.length_append, readBytesAt_add] at h
    obtain ⟨hp, hps⟩ := List.append_inj h (readBytesAt_length ..)
    have hlive : runLive (p :: ps) = unitsFor (RECORD_HDR + p.length) + runLive ps := by
      unfold runLive
      rw [List.map_cons, List.sum_cons]
    intro x hx
    rw [layout, List.zip_cons_cons] at hx
    rcases List.mem_cons.mp hx with rfl | hx
    · refine ⟨rfl, ?_, List.mem_cons_self, le_rfl, ?_⟩
      · obtain ⟨pad, hpad⟩ := frame_eq p
        have hlen : (frame p).length = (RECORD_HDR + p.length) + pad.length := by
          rw [hpad, List.length_append, List.length_append, leBytes_length]
          rfl
        rw [hlen, readBytesAt_add, hpad] at hp
        refine (List.append_inj hp ?_).1
        rw [readBytesAt_length, List.length_append, leBytes_length]
        rfl
      · rw [hlive]
        show base + unitsFor (RECORD_HDR + p.length) ≤ _
        omega
    · rw [frame_length, ← Nat.add_mul] at hps
      obtain ⟨h1, h2, h3, h4, h5⟩ := ih hps x hx
      exact ⟨h1, h2, List.mem_cons_of_mem _ h3, by omega, by omega⟩

/-! ## The invariant -/

structure Stored (s : Store) (x : Rec) : Prop where
  len : x.1.len = x.2.length
  small : x.1.len ≤ MAX_RECORD_BYTES
  taken : s.seg.Taken s.endPage x.1.unit x.1.units
  framed : Framed s.file x

/-- What must survive besides the owned records: the records of each live pin,
with its generation, and those of the last checkpoint. -/
structure Holds where
  pinned : List (Nat × Rec)
  saved : List Rec

/-- Units of a region that owned records occupy. -/
def usedUnits (g : Multiset Rec) (r : Nat) : Nat :=
  (g.map fun x => if regionOfUnit x.1.unit = r then x.1.units else 0).sum

/-- Owned records and records seen by pins may be read through the read-ahead. -/
def Holds.Visible (W : Holds) (g : Multiset Rec) (x : Rec) : Prop :=
  x ∈ g ∨ ∃ gen, (gen, x) ∈ W.pinned

/-- A record's units are outside a written range, given by offset and length. -/
def Outside (x : Rec) (e : Nat × Nat) : Prop :=
  (x.1.unit + x.1.units) * ADDR_UNIT ≤ e.1 ∨ e.1 + e.2 ≤ x.1.offset

structure StoreInv (W : Holds) (s : Store) (g : Multiset Rec) : Prop where
  regions : s.seg.RegionsOk s.endPage
  stored : ∀ x ∈ g, Stored s x
  counted : ∀ r, usedUnits g r ≤ s.seg.live r
  pinned : ∀ gen x, (gen, x) ∈ W.pinned → Stored s x ∧ s.seg.Pinned gen (regionOfUnit x.1.unit)
  saved : ∀ x ∈ W.saved, Stored s x ∧ s.seg.Saved (regionOfUnit x.1.unit)
  cacheTaken : ∀ u payload, (u, payload) ∈ s.readAhead → s.seg.Taken s.endPage u 1
  cacheOk : ∀ u payload, (u, payload) ∈ s.readAhead →
    ∀ x, W.Visible g x → x.1.unit = u → payload = x.2
  synced : ∀ e ∈ s.unsynced, ∀ x ∈ W.saved, Outside x e

@[simp] theorem usedUnits_zero (r : Nat) : usedUnits 0 r = 0 := rfl

theorem usedUnits_add (g h : Multiset Rec) (r : Nat) :
    usedUnits (g + h) r = usedUnits g r + usedUnits h r := by
  unfold usedUnits
  rw [Multiset.map_add, Multiset.sum_add]

theorem usedUnits_cons (x : Rec) (g : Multiset Rec) (r : Nat) :
    usedUnits (x ::ₘ g) r = (if regionOfUnit x.1.unit = r then x.1.units else 0) + usedUnits g r := by
  unfold usedUnits
  rw [Multiset.map_cons, Multiset.sum_cons]

/-- Owning less is enough for less. -/
theorem StoreInv.mono {W : Holds} {s : Store} {g h : Multiset Rec} (hI : StoreInv W s (g + h)) :
    StoreInv W s g where
  regions := hI.regions
  stored x hx := hI.stored x (Multiset.mem_add.mpr (.inl hx))
  counted r := by
    have := hI.counted r
    rw [usedUnits_add] at this
    omega
  pinned := hI.pinned
  saved := hI.saved
  cacheTaken := hI.cacheTaken
  cacheOk u payload he x hx hu :=
    hI.cacheOk u payload he x (hx.imp_left fun hx => Multiset.mem_add.mpr (.inl hx)) hu
  synced := hI.synced

/-- A region with an owned record is not parked. -/
theorem StoreInv.not_parked {W : Holds} {s : Store} {g : Multiset Rec} (hI : StoreInv W s g)
    {x : Rec} (hx : x ∈ g) : regionOfUnit x.1.unit ∉ s.seg.parked := by
  intro hp
  obtain ⟨g', rfl⟩ := Multiset.exists_cons_of_mem hx
  have hc := hI.counted (regionOfUnit x.1.unit)
  rw [usedUnits_cons, if_pos rfl, (hI.regions.dead _ hp).1] at hc
  have := unit_pos x.1
  omega

theorem Stored.units_bound (x : Rec) :
    x.1.offset + (RECORD_HDR + x.1.len) ≤ (x.1.unit + x.1.units) * ADDR_UNIT := by
  have := le_unitsFor (RECORD_HDR + x.1.len)
  unfold DiskPtr.offset DiskPtr.units
  rw [Nat.add_mul]
  omega

/-- A stored record is intact in the file. -/
theorem Stored.payloadAt {s : Store} {x : Rec} (h : Stored s x) : payloadAt s.file x.1 = x.2 := by
  have hf := h.framed
  unfold Framed at hf
  rw [readBytesAt_add] at hf
  refine (List.append_inj hf ?_).2
  rw [readBytesAt_length, leBytes_length]
  rfl

theorem leBytes_inj {a b : Nat} (ha : a < 2 ^ 32) (hb : b < 2 ^ 32)
    (h : leBytes 4 a = leBytes 4 b) : a = b := by
  have hv : ∀ n, n < 2 ^ 32 → leValue (leBytes 4 n) = n := by
    intro n hn
    simp only [leBytes, leValue, UInt8.toNat_ofNat']
    omega
  rw [← hv a ha, ← hv b hb, h]

/-- Two records stored at one unit are the same record. -/
theorem Stored.eq_of_unit {s : Store} {x y : Rec} (hx : Stored s x) (hy : Stored s y)
    (hu : x.1.unit = y.1.unit) : x = y := by
  have hoff : x.1.offset = y.1.offset := by
    unfold DiskPtr.offset
    rw [hu]
  have hsmall : ∀ {z : Rec}, Stored s z → z.1.len < 2 ^ 32 := by
    intro z hz
    have := hz.small
    unfold MAX_RECORD_BYTES REGION_BYTES REGION_PAGES PAGE RECORD_HDR at this
    omega
  have hhdr : ∀ {z : Rec}, Stored s z → readBytesAt s.file z.1.offset 4 = leBytes 4 z.1.len := by
    intro z hz
    have hf := hz.framed
    unfold Framed RECORD_HDR at hf
    rw [readBytesAt_add] at hf
    refine (List.append_inj hf ?_).1
    rw [readBytesAt_length, leBytes_length]
  have hlen : x.1.len = y.1.len := by
    refine leBytes_inj (hsmall hx) (hsmall hy) ?_
    rw [← hhdr hx, ← hhdr hy, hoff]
  have hptr : x.1 = y.1 := by
    cases hx1 : x.1
    cases hy1 : y.1
    simp only [hx1, hy1] at hu hlen
    simp only [hu, hlen]
  refine Prod.ext hptr ?_
  rw [← hx.payloadAt, ← hy.payloadAt, hptr]

/-! ## Requests -/

/-- Bytes read from a range: every record inside it can be cut out. -/
def Slices (P : Rec → Prop) (off len : Nat) (bytes : Bytes) : Prop :=
  bytes.length = len ∧ ∀ x, P x → off ≤ x.1.offset →
    x.1.offset + (RECORD_HDR + x.1.len) ≤ off + len →
      (bytes.drop (x.1.offset - off)).take (RECORD_HDR + x.1.len) = leBytes 4 x.1.len ++ x.2

/-- The records of pointers paired with their payloads. -/
def recsOf (ptrs : List DiskPtr) (payloads : List Bytes) : Multiset Rec := ptrs.zip payloads

/-- What a store call needs and produces, where pins see the records `W.pinned`. -/
def flatRule (W : Holds) : (r : Req) → Multiset Rec → (Resp r → Multiset Rec → Prop) → Prop
  | .read p, g, K => ∃ b, W.Visible g (p, b) ∧ K (.ok b) g ∧ ∀ e, K (.error e) g
  | .pread off len recs, g, K => (∀ p ∈ recs, ∃ b, W.Visible g (p, b)) ∧
    (∀ bytes, Slices (W.Visible g) off len bytes → K (.ok bytes) g) ∧ ∀ e, K (.error e) g
  | .writePayload payload, g, K =>
    (∀ p, K (.ok p) ((p, payload) ::ₘ g)) ∧ ∀ e, K (.error e) g
  | .writeBatch payloads, g, K =>
    (∀ ptrs, ptrs.length = payloads.length → K (.ok ptrs) (recsOf ptrs payloads + g)) ∧
      ∀ e, K (.error e) g
  | .writeBatchParallel payloads, g, K =>
    (∀ ptrs, ptrs.length = payloads.length → K (.ok ptrs) (recsOf ptrs payloads + g)) ∧
      ∀ e, K (.error e) g
  | .free p, g, K => ∃ b, ∃ g', g = (p, b) ::ₘ g' ∧ K () g'
  | .selectVictims _, g, K => ∀ victims : List Nat, victims.Nodup → K victims g
  | .refuse _, g, K => K () g

theorem Holds.Visible.add {W : Holds} {g : Multiset Rec} {x : Rec} (h : W.Visible g x)
    (f : Multiset Rec) : W.Visible (g + f) x :=
  h.imp_left fun h => Multiset.mem_add.mpr (.inl h)

theorem Slices.mono {P P' : Rec → Prop} {off len : Nat} {bytes : Bytes} (h : Slices P' off len bytes)
    (hP : ∀ x, P x → P' x) : Slices P off len bytes :=
  ⟨h.1, fun x hx => h.2 x (hP x hx)⟩

/-- The logic of the flat file. -/
def flat (W : Holds) : Prog.Logic Resp (Multiset Rec) where
  rule := flatRule W
  mono {r g K K'} hK h := by
    cases r with
    | read p =>
      obtain ⟨b, hb, h1, h2⟩ := h
      exact ⟨b, hb, hK _ _ h1, fun e => hK _ _ (h2 e)⟩
    | pread off len recs =>
      exact ⟨h.1, fun b hb => hK _ _ (h.2.1 b hb), fun e => hK _ _ (h.2.2 e)⟩
    | writePayload payload => exact ⟨fun p => hK _ _ (h.1 p), fun e => hK _ _ (h.2 e)⟩
    | writeBatch payloads => exact ⟨fun ps hp => hK _ _ (h.1 ps hp), fun e => hK _ _ (h.2 e)⟩
    | writeBatchParallel payloads =>
      exact ⟨fun ps hp => hK _ _ (h.1 ps hp), fun e => hK _ _ (h.2 e)⟩
    | free p =>
      obtain ⟨b, g', hg, h⟩ := h
      exact ⟨b, g', hg, hK _ _ h⟩
    | selectVictims pick => exact fun vs hn => hK _ _ (h vs hn)
    | refuse e => exact hK _ _ h
  frame {r g K} f h := by
    cases r with
    | read p =>
      obtain ⟨b, hb, h1, h2⟩ := h
      exact ⟨b, hb.add f, ⟨g, rfl, h1⟩, fun e => ⟨g, rfl, h2 e⟩⟩
    | pread off len recs =>
      refine ⟨fun p hp => ?_, fun b hb => ⟨g, rfl, h.2.1 b (hb.mono fun x hx => hx.add f)⟩,
        fun e => ⟨g, rfl, h.2.2 e⟩⟩
      obtain ⟨b, hb⟩ := h.1 p hp
      exact ⟨b, hb.add f⟩
    | writePayload payload =>
      exact ⟨fun p => ⟨_, (Multiset.cons_add ..).symm, h.1 p⟩, fun e => ⟨g, rfl, h.2 e⟩⟩
    | writeBatch payloads =>
      exact ⟨fun ps hp => ⟨_, (add_assoc ..).symm, h.1 ps hp⟩, fun e => ⟨g, rfl, h.2 e⟩⟩
    | writeBatchParallel payloads =>
      exact ⟨fun ps hp => ⟨_, (add_assoc ..).symm, h.1 ps hp⟩, fun e => ⟨g, rfl, h.2 e⟩⟩
    | free p =>
      obtain ⟨b, g', rfl, h⟩ := h
      exact ⟨b, g' + f, Multiset.cons_add .., g', rfl, h⟩
    | selectVictims pick => exact fun vs hn => ⟨g, rfl, h vs hn⟩
    | refuse e => exact ⟨g, rfl, h⟩

/-! ## Soundness -/

/-- Faults play no role. -/
theorem StoreInv.of_eq {W : Holds} {s s' : Store} {g : Multiset Rec} (hI : StoreInv W s g)
    (hfile : s'.file = s.file) (hseg : s'.seg = s.seg) (hend : s'.endPage = s.endPage)
    (hcache : s'.readAhead = s.readAhead)
    (hun : ∀ e ∈ s'.unsynced, ∀ x ∈ W.saved, Outside x e) : StoreInv W s' g := by
  obtain ⟨file, seg, endPage, direct, readAhead, unsynced, faults⟩ := s
  obtain ⟨file', seg', endPage', direct', readAhead', unsynced', faults'⟩ := s'
  simp only at hfile hseg hend hcache
  subst hfile hseg hend hcache
  have hst : ∀ {x}, Stored ⟨file', seg', endPage', direct, readAhead', unsynced, faults⟩ x →
      Stored ⟨file', seg', endPage', direct', readAhead', unsynced', faults'⟩ x :=
    fun h => ⟨h.len, h.small, h.taken, h.framed⟩
  exact ⟨hI.regions, fun x hx => hst (hI.stored x hx), hI.counted,
    fun gen x hx => ⟨hst (hI.pinned gen x hx).1, (hI.pinned gen x hx).2⟩,
    fun x hx => ⟨hst (hI.saved x hx).1, (hI.saved x hx).2⟩, hI.cacheTaken, hI.cacheOk, hun⟩

theorem StoreInv.visible {W : Holds} {s : Store} {g : Multiset Rec} (hI : StoreInv W s g) {x : Rec}
    (hx : W.Visible g x) : Stored s x := by
  obtain hx | ⟨gen, hx⟩ := hx
  · exact hI.stored x hx
  · exact (hI.pinned gen x hx).1

/-- A read of a visible record returns its payload. -/
theorem StoreInv.read {W : Holds} {s : Store} {g : Multiset Rec} (hI : StoreInv W s g) {p : DiskPtr}
    {b : Bytes} (hx : W.Visible g (p, b)) :
    ((s.read p).1 = .ok b ∨ ∃ e, (s.read p).1 = .error e) ∧ StoreInv W (s.read p).2 g := by
  unfold Store.read Store.readAheadTake
  cases hl : s.readAhead.lookup p.unit with
  | some payload =>
    have hmem : (p.unit, payload) ∈ s.readAhead := by
      obtain ⟨l1, l2, he, -⟩ := List.lookup_eq_some_iff.mp hl
      rw [he]
      exact List.mem_append_right _ List.mem_cons_self
    refine ⟨.inl ?_, hI⟩
    rw [hI.cacheOk _ _ hmem (p, b) hx rfl]
  | none =>
    refine ⟨?_, hI.of_eq rfl rfl rfl rfl hI.synced⟩
    show (if s.fault.1 = true then Except.error Err.io else Except.ok (payloadAt s.file p)) = _ ∨ _
    by_cases hf : s.fault.1 = true
    · exact .inr ⟨.io, if_pos hf⟩
    · rw [(hI.visible hx).payloadAt]
      exact .inl (if_neg hf)

theorem StoreInv.slices {W : Holds} {s : Store} {g : Multiset Rec} (hI : StoreInv W s g)
    (off len : Nat) : Slices (W.Visible g) off len (readBytesAt s.file off len) := by
  refine ⟨readBytesAt_length .., fun x hx hoff hend => ?_⟩
  rw [← (hI.visible hx).framed]
  obtain ⟨rest, hrest⟩ : ∃ rest, len =
      (x.1.offset - off) + ((RECORD_HDR + x.1.len) + rest) :=
    ⟨len - (x.1.offset - off) - (RECORD_HDR + x.1.len), by omega⟩
  rw [hrest, readBytesAt_add, readBytesAt_add, List.drop_left' (readBytesAt_length ..),
    List.take_left' (readBytesAt_length ..), Nat.add_sub_cancel' hoff]

/-! ### Writes -/

theorem le_paddedUnits (s : Store) (units : Nat) : units ≤ s.paddedUnits units := by
  unfold Store.paddedUnits Store.alignUnits DIO_ALIGN ADDR_UNIT
  split <;> omega

theorem runBytes_length (s : Store) (ps : List Bytes) :
    (s.runBytes ps).length = s.paddedUnits (runLive ps) * ADDR_UNIT := by
  have h := Nat.mul_le_mul_right ADDR_UNIT (le_paddedUnits s (runLive ps))
  unfold Store.runBytes
  simp only [List.length_append, List.length_replicate, flatMap_frame_length]
  omega

theorem runLive_pos {ps : List Bytes} (h : ps ≠ []) : 0 < runLive ps := by
  cases ps with
  | nil => exact absurd rfl h
  | cons p ps =>
    have : 0 < unitsFor (RECORD_HDR + p.length) := unit_pos ⟨0, p.length⟩
    unfold runLive
    rw [List.map_cons, List.sum_cons]
    omega

theorem recsOf_append {ps qs : List DiskPtr} {a b : List Bytes} (h : ps.length = a.length) :
    recsOf (ps ++ qs) (a ++ b) = recsOf ps a + recsOf qs b := by
  unfold recsOf
  rw [List.zip_append h]
  rfl

theorem usedUnits_layout (base : Nat) (ps : List Bytes) (r : Nat) :
    usedUnits (recsOf (layout base ps) ps) r ≤ runLive ps := by
  induction ps generalizing base with
  | nil => exact le_rfl
  | cons p ps ih =>
    have h : recsOf (layout base (p :: ps)) (p :: ps) =
        ((⟨base, p.length⟩, p) : Rec) ::ₘ
          recsOf (layout (base + unitsFor (RECORD_HDR + p.length)) ps) ps := rfl
    have hl : runLive (p :: ps) = unitsFor (RECORD_HDR + p.length) + runLive ps := by
      unfold runLive
      rw [List.map_cons, List.sum_cons]
    rw [h, usedUnits_cons, hl]
    have := ih (base + unitsFor (RECORD_HDR + p.length))
    show (if _ then unitsFor (RECORD_HDR + p.length) else 0) + _ ≤ _
    split <;> omega

theorem usedUnits_eq_zero {g : Multiset Rec} {r : Nat}
    (h : ∀ x ∈ g, regionOfUnit x.1.unit ≠ r) : usedUnits g r = 0 := by
  unfold usedUnits
  refine Multiset.sum_eq_zero fun n hn => ?_
  obtain ⟨x, hx, rfl⟩ := Multiset.mem_map.mp hn
  rw [if_neg (h x hx)]

section
variable {W : Holds} {s : Store} {g : Multiset Rec}

theorem live_le_alloc {a a' : RegionAlloc} {run live endPage endPage' unit : Nat}
    (ha : a.alloc run live endPage = .ok (unit, a', endPage')) (r : Nat) :
    a.live r + (if r = a'.headRegion then live else 0) = a'.live r := by
  obtain ⟨-, -, -, rfl⟩ := alloc_eq_ok ha
  show _ = Function.update a.live (a.withRoom run endPage).headRegion _ r
  by_cases hr : r = (a.withRoom run endPage).headRegion
  · subst hr
    rw [Function.update_self, if_pos rfl]
  · rw [Function.update_of_ne hr, if_neg hr]
    rfl

/-- Room has been reserved and nothing written. -/
theorem StoreInv.allocated (hI : StoreInv W s g) {run live unit endPage' : Nat} {seg' : RegionAlloc}
    (hpos : 0 < run) (ha : s.seg.alloc run live s.endPage = .ok (unit, seg', endPage')) :
    StoreInv W { s with seg := seg', endPage := endPage' } g := by
  have hst : ∀ {x}, Stored s x → Stored { s with seg := seg', endPage := endPage' } x :=
    fun h => ⟨h.len, h.small, h.taken.alloc ha, h.framed⟩
  exact {
    regions := hI.regions.alloc hpos ha
    stored := fun x hx => hst (hI.stored x hx)
    counted := fun r => by
      have := hI.counted r
      have := live_le_alloc ha r
      show usedUnits g r ≤ seg'.live r
      omega
    pinned := fun gen x hx => ⟨hst (hI.pinned gen x hx).1, (hI.pinned gen x hx).2.alloc ha⟩
    saved := fun x hx => ⟨hst (hI.saved x hx).1,
      (hI.saved x hx).2.alloc (hI.saved x hx).1.taken.inFile ha⟩
    cacheTaken := fun u payload he => (hI.cacheTaken u payload he).alloc ha
    cacheOk := hI.cacheOk
    synced := hI.synced }

/-- A run is written outside the records stored before. -/
theorem Outside.of_units {x : Rec} {unit n : Nat} {bytes : Bytes}
    (hlen : bytes.length = n * ADDR_UNIT)
    (hd : x.1.unit + x.1.units ≤ unit ∨ unit + n ≤ x.1.unit) :
    Outside x (unit * ADDR_UNIT, bytes.length) := by
  obtain hd | hd := hd
  · exact .inl (Nat.mul_le_mul_right _ hd)
  · refine .inr ?_
    show unit * ADDR_UNIT + bytes.length ≤ _
    rw [hlen, ← Nat.add_mul]
    exact Nat.mul_le_mul_right _ hd

/-- Units apart are bytes apart. -/
theorem framed_overwrite {file : Nat → UInt8} {x : Rec} {unit n : Nat} {bytes : Bytes}
    (hx : Framed file x) (hlen : bytes.length = n * ADDR_UNIT)
    (hd : x.1.unit + x.1.units ≤ unit ∨ unit + n ≤ x.1.unit) :
    Framed (overwrite file (unit * ADDR_UNIT) bytes) x := by
  unfold Framed
  rw [overwrite_outside]
  · exact hx
  · have hb := Stored.units_bound x
    obtain hd | hd := hd
    · exact .inl (hb.trans (Nat.mul_le_mul_right _ hd))
    · refine .inr ?_
      rw [hlen, ← Nat.add_mul]
      exact Nat.mul_le_mul_right _ hd

/-- A run has been reserved and written: its records are owned. -/
theorem StoreInv.placed (hI : StoreInv W s g) {ps : List Bytes} (hps : ps ≠ [])
    (hsmall : ∀ p ∈ ps, p.length ≤ MAX_RECORD_BYTES) {unit endPage' : Nat} {seg' : RegionAlloc}
    (ha : s.seg.alloc (s.paddedUnits (runLive ps)) (runLive ps) s.endPage =
      .ok (unit, seg', endPage')) :
    StoreInv W { s with
      file := overwrite s.file (unit * ADDR_UNIT) (s.runBytes ps), seg := seg', endPage := endPage' }
      (recsOf (layout unit ps) ps + g) := by
  have hpad := le_paddedUnits s (runLive ps)
  have hpos : 0 < s.paddedUnits (runLive ps) := lt_of_lt_of_le (runLive_pos hps) hpad
  have hA := hI.allocated hpos ha
  set file' := overwrite s.file (unit * ADDR_UNIT) (s.runBytes ps) with hfile'
  -- records stored before are apart from the run
  have hst : ∀ {x}, Stored s x →
      Stored { s with file := file', seg := seg', endPage := endPage' } x := fun h =>
    ⟨h.len, h.small, h.taken.alloc ha,
      framed_overwrite h.framed (runBytes_length ..) (alloc_disjoint hI.regions h.taken ha)⟩
  -- the run holds the framed records
  have hrun : readBytesAt file' (unit * ADDR_UNIT) (ps.flatMap frame).length = ps.flatMap frame := by
    have hin := overwrite_inside s.file (unit * ADDR_UNIT) (s.runBytes ps)
    have hsplit : s.runBytes ps = ps.flatMap frame ++
      List.replicate (s.paddedUnits (runLive ps) * ADDR_UNIT - (ps.flatMap frame).length) 0 := rfl
    rw [← hfile', hsplit, List.length_append, readBytesAt_add] at hin
    exact (List.append_inj hin (readBytesAt_length ..)).1
  have hlay := layout_framed hrun
  have hnew : ∀ x ∈ recsOf (layout unit ps) ps, x ∈ (layout unit ps).zip ps :=
    fun x hx => Multiset.mem_coe.mp hx
  have htaken : ∀ x ∈ recsOf (layout unit ps) ps,
      seg'.Taken endPage' x.1.unit x.1.units ∧ regionOfUnit x.1.unit = seg'.headRegion := by
    intro x hx
    obtain ⟨-, -, -, hle, hend⟩ := hlay x (hnew x hx)
    exact alloc_taken hI.regions ha (unit_pos _) hle (by omega)
  constructor
  · exact hA.regions
  · intro x hx
    rcases Multiset.mem_add.mp hx with hx | hx
    · obtain ⟨hlen, hfr, hmem, -⟩ := hlay x (hnew x hx)
      refine ⟨hlen, ?_, (htaken x hx).1, hfr⟩
      rw [hlen]
      exact hsmall _ hmem
    · exact hst (hI.stored x hx)
  · intro r
    have hc := hI.counted r
    have hl := live_le_alloc ha r
    rw [usedUnits_add]
    show _ ≤ seg'.live r
    by_cases hr : r = seg'.headRegion
    · rw [if_pos hr] at hl
      have := usedUnits_layout unit ps r
      omega
    · rw [usedUnits_eq_zero fun x hx he => hr (he.symm.trans (htaken x hx).2)]
      omega
  · exact fun gen x hx => ⟨hst (hI.pinned gen x hx).1, (hA.pinned gen x hx).2⟩
  · exact fun x hx => ⟨hst (hI.saved x hx).1, (hA.saved x hx).2⟩
  · exact hA.cacheTaken
  · intro u payload he x hx hu
    have hcase : x ∈ recsOf (layout unit ps) ps ∨ W.Visible g x := by
      rcases hx with hx | hx
      · exact (Multiset.mem_add.mp hx).imp_right .inl
      · exact .inr (.inr hx)
    obtain hx | hx := hcase
    · -- a cached unit was taken before, so it is not in the run
      obtain ⟨-, -, -, hle, hend⟩ := hlay x (hnew x hx)
      have hpos' := unit_pos x.1
      rcases alloc_disjoint hI.regions (hI.cacheTaken u payload he) ha with hd | hd <;> omega
    · exact hI.cacheOk u payload he x hx hu
  · exact hI.synced

/-- What a call leaves: on success the new records are owned as well. -/
def Grown (W : Holds) (g : Multiset Rec) (payloads : List Bytes)
    (r : Except Err (List DiskPtr) × Store) : Prop :=
  (∃ ptrs, r.1 = .ok ptrs ∧ ptrs.length = payloads.length ∧
    StoreInv W r.2 (recsOf ptrs payloads + g)) ∨ ∃ e, r.1 = .error e ∧ StoreInv W r.2 g

/-- The outcomes of reserving a run. -/
theorem allocRun_cases (s : Store) (ps : List Bytes) (unpadded : Bool) :
    (∃ e, s.allocRun ps unpadded = (.error e, s)) ∨
    ∃ unit seg' endPage', s.seg.alloc (s.paddedUnits (runLive ps)) (runLive ps) s.endPage =
        .ok (unit, seg', endPage') ∧
      (s.allocRun ps unpadded = (.error .addressLimit, { s with seg := seg', endPage := endPage' }) ∨
        s.allocRun ps unpadded = (.ok unit, { s with seg := seg', endPage := endPage' })) := by
  cases ha : s.seg.alloc (s.paddedUnits (runLive ps)) (runLive ps) s.endPage with
  | error e =>
    refine .inl ⟨e, ?_⟩
    simp only [Store.allocRun, ha]
  | ok r =>
    obtain ⟨unit, seg', endPage'⟩ := r
    refine .inr ⟨unit, seg', endPage', rfl, ?_⟩
    simp only [Store.allocRun, ha]
    by_cases h : U32_MAX < unit + (if unpadded then runLive ps else s.paddedUnits (runLive ps))
    · exact .inl (if_pos h)
    · exact .inr (if_neg h)

/-- The outcomes of a positioned write. -/
theorem pwrite_cases (s : Store) (off : Nat) (bytes : Bytes) :
    (s.pwrite off bytes).1 = .error .io ∧ (s.pwrite off bytes).2.file = s.file ∨
      (s.pwrite off bytes).1 = .ok () ∧
        (s.pwrite off bytes).2.file = overwrite s.file off bytes := by
  unfold Store.pwrite
  split
  · exact .inl ⟨rfl, rfl⟩
  · exact .inr ⟨rfl, rfl⟩

theorem pwrite_rest (s : Store) (off : Nat) (bytes : Bytes) :
    (s.pwrite off bytes).2.seg = s.seg ∧ (s.pwrite off bytes).2.endPage = s.endPage ∧
      (s.pwrite off bytes).2.readAhead = s.readAhead := by
  unfold Store.pwrite
  split <;> exact ⟨rfl, rfl, rfl⟩

/-- A write adds one unsynced range, whether it fails or not. -/
theorem StoreInv.pwrite_synced (hI : StoreInv W s g) (s' : Store) (hs : s'.unsynced = s.unsynced)
    {off : Nat} {bytes : Bytes} (h : ∀ x ∈ W.saved, Outside x (off, bytes.length)) :
    ∀ e ∈ (s'.pwrite off bytes).2.unsynced, ∀ x ∈ W.saved, Outside x e := by
  have hun : (s'.pwrite off bytes).2.unsynced = (off, bytes.length) :: s'.unsynced := by
    unfold Store.pwrite
    split <;> rfl
  intro e he
  rw [hun, hs] at he
  rcases List.mem_cons.mp he with rfl | he
  · exact h
  · exact hI.synced e he

theorem StoreInv.writeRun (hI : StoreInv W s g) {ps : List Bytes} (hps : ps ≠ [])
    (hsmall : ∀ p ∈ ps, p.length ≤ MAX_RECORD_BYTES) (unpadded : Bool) :
    Grown W g ps (s.writeRun ps unpadded) := by
  have hpos : 0 < s.paddedUnits (runLive ps) :=
    lt_of_lt_of_le (runLive_pos hps) (le_paddedUnits ..)
  unfold Store.writeRun
  obtain ⟨e, he⟩ | ⟨unit, seg', endPage', ha, he | he⟩ := allocRun_cases s ps unpadded
  · rw [he]
    exact .inr ⟨e, rfl, hI⟩
  · rw [he]
    exact .inr ⟨_, rfl, hI.allocated hpos ha⟩
  · rw [he]
    simp only
    generalize hs' : { s with seg := seg', endPage := endPage' } = s'
    obtain ⟨hseg, hend, hcache⟩ := pwrite_rest s' (unit * ADDR_UNIT) (s.runBytes ps)
    have hun := hI.pwrite_synced s' (by subst hs'; rfl) fun x hx =>
      Outside.of_units (runBytes_length s ps)
        (alloc_disjoint hI.regions (hI.saved x hx).1.taken ha)
    obtain ⟨hw, hf⟩ | ⟨hw, hf⟩ := pwrite_cases s' (unit * ADDR_UNIT) (s.runBytes ps)
    · cases hr : s'.pwrite (unit * ADDR_UNIT) (s.runBytes ps) with | mk r s'' =>
      rw [hr] at hw hf hseg hend hcache hun
      simp only at hw hf hseg hend hcache hun
      subst hw
      have hA := hI.allocated hpos ha
      rw [hs'] at hA
      exact .inr ⟨_, rfl, hA.of_eq hf hseg hend hcache hun⟩
    · cases hr : s'.pwrite (unit * ADDR_UNIT) (s.runBytes ps) with | mk r s'' =>
      rw [hr] at hw hf hseg hend hcache hun
      simp only at hw hf hseg hend hcache hun
      subst hw
      refine .inl ⟨_, rfl, layout_length .., ?_⟩
      subst hs'
      exact (hI.placed hps hsmall ha).of_eq hf hseg hend hcache hun

theorem StoreInv.writeRuns {runs : List (List Bytes)} (hI : StoreInv W s g)
    (hruns : ∀ run ∈ runs, run ≠ [])
    (hsmall : ∀ run ∈ runs, ∀ p ∈ run, p.length ≤ MAX_RECORD_BYTES) :
    Grown W g runs.flatten (s.writeRuns runs) := by
  induction runs generalizing s g with
  | nil => exact .inl ⟨[], rfl, rfl, by rw [show recsOf [] ([] : List (List Bytes)).flatten = 0 from rfl, zero_add]; exact hI⟩
  | cons run rest ih =>
    have hrun := hI.writeRun (hruns run List.mem_cons_self) (hsmall run List.mem_cons_self) false
    unfold Store.writeRuns
    cases hr : s.writeRun run false with | mk r s' =>
    rw [hr] at hrun
    obtain ⟨ptrs, hok, hlen, hI'⟩ | ⟨e, he, hI'⟩ := hrun
    · simp only at hok
      subst hok
      have hrest := ih hI' (fun r hr => hruns r (List.mem_cons_of_mem _ hr))
        (fun r hr => hsmall r (List.mem_cons_of_mem _ hr))
      simp only
      cases hr' : s'.writeRuns rest with | mk r' s'' =>
      rw [hr'] at hrest
      obtain ⟨qs, hok, hlen', hI''⟩ | ⟨e, he, hI''⟩ := hrest
      · simp only at hok
        subst hok
        refine .inl ⟨_, rfl, ?_, ?_⟩
        · rw [List.length_append, List.flatten_cons, List.length_append, hlen, hlen']
        · rw [List.flatten_cons, recsOf_append hlen, add_assoc, add_left_comm]
          exact hI''
      · simp only at he
        subst he
        refine .inr ⟨e, rfl, ?_⟩
        rw [add_comm] at hI''
        exact hI''.mono
    · simp only at he
      subst he
      exact .inr ⟨e, rfl, hI'⟩

theorem packRuns_flatten (cur : List Bytes) (ps : List Bytes) :
    (packRuns cur ps).flatten = cur ++ ps := by
  induction ps generalizing cur with
  | nil => simp [packRuns]
  | cons p ps ih =>
    unfold packRuns
    split
    · rw [List.flatten_cons, ih, List.singleton_append]
    · rw [ih, List.append_assoc, List.singleton_append]

theorem packRuns_ne_nil {cur : List Bytes} (ps : List Bytes) (hcur : cur ≠ []) :
    ∀ run ∈ packRuns cur ps, run ≠ [] := by
  induction ps generalizing cur with
  | nil =>
    intro run hrun
    rw [packRuns, List.mem_singleton] at hrun
    subst hrun
    exact hcur
  | cons p ps ih =>
    unfold packRuns
    split
    · intro run hrun
      rcases List.mem_cons.mp hrun with rfl | hrun
      · exact hcur
      · exact ih (List.cons_ne_nil _ _) run hrun
    · exact ih (by simp)

theorem runsOf_flatten (ps : List Bytes) : (runsOf ps).flatten = ps := by
  cases ps with
  | nil => rfl
  | cons p ps => rw [runsOf, packRuns_flatten, List.singleton_append]

theorem runsOf_ne_nil (ps : List Bytes) : ∀ run ∈ runsOf ps, run ≠ [] := by
  cases ps with
  | nil => intro run hrun; cases hrun
  | cons p ps => exact packRuns_ne_nil ps (List.cons_ne_nil _ _)

theorem small_of_tooLarge {ps : List Bytes} (h : Store.tooLarge ps = none) :
    ∀ run ∈ runsOf ps, ∀ p ∈ run, p.length ≤ MAX_RECORD_BYTES := by
  intro run hrun p hp
  have hmem : p ∈ ps := by
    rw [← runsOf_flatten ps]
    exact List.mem_flatten.mpr ⟨run, hrun, hp⟩
  have := List.find?_eq_none.mp h p hmem
  simpa using this

/-- Staged regions may be reused when nothing cached could alias them. -/
theorem StoreInv.drained (hI : StoreInv W s g) {cache : List (Nat × Bytes)} (hc : cache = []) :
    StoreInv W { s with readAhead := cache, seg := s.seg.drainStaged } g := by
  subst hc
  have hnot : ∀ {x}, x ∈ g → regionOfUnit x.1.unit ∉ s.seg.stagedFree := fun hx hm =>
    hI.not_parked hx (mem_parked.mpr (.inr (.inl hm)))
  have hst : ∀ {x}, Stored s x → regionOfUnit x.1.unit ∉ s.seg.stagedFree →
      Stored { s with readAhead := [], seg := s.seg.drainStaged } x :=
    fun h hn => ⟨h.len, h.small, h.taken.drainStaged hn, h.framed⟩
  exact {
    regions := hI.regions.drainStaged
    stored := fun x hx => hst (hI.stored x hx) (hnot hx)
    counted := hI.counted
    pinned := fun gen x hx => ⟨hst (hI.pinned gen x hx).1 (hI.pinned gen x hx).2.notStaged,
      (hI.pinned gen x hx).2.drainStaged⟩
    saved := fun x hx => ⟨hst (hI.saved x hx).1 (hI.saved x hx).2.notStaged,
      (hI.saved x hx).2.drainStaged⟩
    cacheTaken := fun _ _ he => absurd he List.not_mem_nil
    cacheOk := fun _ _ he => absurd he List.not_mem_nil
    synced := hI.synced }

theorem StoreInv.drainIfUnaliased (hI : StoreInv W s g) :
    StoreInv W s.drainStagedIfUnaliased g := by
  unfold Store.drainStagedIfUnaliased
  split
  · rename_i h
    have := hI.drained (List.isEmpty_iff.mp h)
    exact this
  · exact hI

theorem StoreInv.writePayload (hI : StoreInv W s g) (payload : Bytes) :
    (∃ p, (s.writePayload payload).1 = .ok p ∧
      StoreInv W (s.writePayload payload).2 ((p, payload) ::ₘ g)) ∨
    ∃ e, (s.writePayload payload).1 = .error e ∧ StoreInv W (s.writePayload payload).2 g := by
  unfold Store.writePayload
  split
  · exact .inr ⟨_, rfl, hI⟩
  · rename_i hsmall
    have hrun := hI.writeRun (List.cons_ne_nil payload [])
      (by intro p hp; rw [List.mem_singleton] at hp; subst hp; omega) true
    cases hr : s.writeRun [payload] true with | mk r s' =>
    rw [hr] at hrun
    obtain ⟨ptrs, hok, hlen, hI'⟩ | ⟨e, he, hI'⟩ := hrun
    · simp only at hok
      subst hok
      obtain ⟨p, rfl⟩ : ∃ p, ptrs = [p] := List.length_eq_one_iff.mp hlen
      exact .inl ⟨p, rfl, hI'⟩
    · simp only at he
      subst he
      exact .inr ⟨e, rfl, hI'⟩

theorem StoreInv.writeBatch (hI : StoreInv W s g) (payloads : List Bytes) :
    Grown W g payloads (s.writeBatch payloads) := by
  have hD := hI.drainIfUnaliased
  unfold Store.writeBatch
  simp only
  cases ht : Store.tooLarge payloads with
  | some p => exact .inr ⟨_, rfl, hD⟩
  | none =>
    have h := hD.writeRuns (runsOf_ne_nil payloads) (small_of_tooLarge ht)
    rw [runsOf_flatten] at h
    exact h

/-- The store with the file side of another: bytes, faults and unsynced ranges. -/
def Store.withFile (s t : Store) : Store :=
  { s with file := t.file, faults := t.faults, unsynced := t.unsynced }

theorem allocRun_withFile (s t : Store) (ps : List Bytes) (unpadded : Bool) :
    (s.withFile t).allocRun ps unpadded =
      ((s.allocRun ps unpadded).1, (s.allocRun ps unpadded).2.withFile t) := by
  have hpad : (s.withFile t).paddedUnits (runLive ps) = s.paddedUnits (runLive ps) := rfl
  have hseg : (s.withFile t).seg = s.seg := rfl
  have hend : (s.withFile t).endPage = s.endPage := rfl
  simp only [Store.allocRun, hpad, hseg, hend]
  cases s.seg.alloc (s.paddedUnits (runLive ps)) (runLive ps) s.endPage with
  | error e => rfl
  | ok r =>
    obtain ⟨unit, seg', endPage'⟩ := r
    simp only
    by_cases h : U32_MAX < unit + (if unpadded then runLive ps else s.paddedUnits (runLive ps))
    · rw [if_pos h, if_pos h]
      rfl
    · rw [if_neg h, if_neg h]
      rfl

theorem allocRuns_withFile (s t : Store) (runs : List (List Bytes)) :
    (s.withFile t).allocRuns runs =
      ((s.allocRuns runs).1, (s.allocRuns runs).2.withFile t) := by
  induction runs generalizing s with
  | nil => rfl
  | cons run rest ih =>
    simp only [Store.allocRuns, allocRun_withFile]
    cases hr : s.allocRun run false with | mk r s' =>
    cases r with
    | error e => rfl
    | ok unit =>
      simp only [ih]
      cases hr' : s'.allocRuns rest with | mk r' s'' =>
      cases r' <;> rfl

theorem allocRuns_file (s : Store) (runs : List (List Bytes)) :
    (s.allocRuns runs).2 = (s.allocRuns runs).2.withFile s :=
  congrArg Prod.snd (allocRuns_withFile s s runs)

theorem allocRun_direct (s : Store) (ps : List Bytes) (unpadded : Bool) :
    (s.allocRun ps unpadded).2.direct = s.direct := by
  obtain ⟨e, he⟩ | ⟨_, _, _, _, he | he⟩ := allocRun_cases s ps unpadded <;> rw [he]

theorem allocRuns_direct (s : Store) (runs : List (List Bytes)) :
    (s.allocRuns runs).2.direct = s.direct := by
  induction runs generalizing s with
  | nil => rfl
  | cons run rest ih =>
    have hd := allocRun_direct s run false
    simp only [Store.allocRuns]
    cases hr : s.allocRun run false with | mk r s' =>
    rw [hr] at hd
    cases r with
    | error e => exact hd
    | ok unit =>
      have := ih s'
      simp only
      cases hr' : s'.allocRuns rest with | mk r' s'' =>
      rw [hr'] at this
      cases r' <;> exact this.trans hd

theorem runBytes_congr {s t : Store} (h : s.direct = t.direct) (ps : List Bytes) :
    s.runBytes ps = t.runBytes ps := by
  unfold Store.runBytes Store.paddedUnits Store.alignUnits
  rw [h]

theorem pwrite_withFile (s t : Store) (off : Nat) (bytes : Bytes) :
    (s.withFile t).pwrite off bytes = ((t.pwrite off bytes).1, s.withFile (t.pwrite off bytes).2) := by
  unfold Store.pwrite
  have hf : (s.withFile t).fault.1 = t.fault.1 := rfl
  rw [hf]
  split <;> rfl

/-- Reserving all the room first changes nothing when all writes succeed. -/
theorem writeRuns_of_parallel {runs : List (List Bytes)} {s s1 s2 : Store} {units : List Nat}
    (ha : s.allocRuns runs = (.ok units, s1)) (hw : s1.pwriteRuns (units.zip runs) = (.ok (), s2)) :
    s.writeRuns runs = (.ok ((units.zip runs).flatMap fun (unit, run) => layout unit run), s2) := by
  induction runs generalizing s s1 units with
  | nil =>
    simp only [Store.allocRuns, Prod.mk.injEq, Except.ok.injEq] at ha
    obtain ⟨rfl, rfl⟩ := ha
    simp only [List.zip_nil_right, Store.pwriteRuns, Prod.mk.injEq, true_and] at hw
    subst hw
    rfl
  | cons run rest ih =>
    simp only [Store.allocRuns] at ha
    cases hr : s.allocRun run false with | mk r s' =>
    rw [hr] at ha
    cases r with
    | error e => simp at ha
    | ok unit =>
      simp only at ha
      cases hr' : s'.allocRuns rest with | mk r' s'' =>
      rw [hr'] at ha
      cases r' with
      | error e => simp at ha
      | ok us =>
        simp only [Prod.mk.injEq, Except.ok.injEq] at ha
        obtain ⟨rfl, rfl⟩ := ha
        have hfile := allocRuns_file s' rest
        have hdir := allocRuns_direct s' rest
        have hdir' := allocRun_direct s run false
        rw [hr'] at hfile hdir
        rw [hr] at hdir'
        simp only at hfile hdir hdir'
        simp only [List.zip_cons_cons, Store.pwriteRuns] at hw
        rw [hfile, pwrite_withFile, ← hfile, runBytes_congr (hdir.trans hdir')] at hw
        simp only [Store.writeRuns, Store.writeRun, hr]
        cases hp : s'.pwrite (unit * ADDR_UNIT) (s.runBytes run) with | mk rp t =>
        rw [hp] at hw
        cases rp with
        | error e => simp at hw
        | ok _ =>
          simp only at hw ⊢
          -- the rest is reserved from the written store as from the unwritten one
          have ht : t = s'.withFile t := by
            have := pwrite_withFile s' s' (unit * ADDR_UNIT) (s.runBytes run)
            rw [hp] at this
            exact congrArg Prod.snd (hp.symm.trans this)
          have hrest : t.allocRuns rest = (.ok us, s''.withFile t) := by
            rw [ht, allocRuns_withFile, hr', ← ht]
          rw [ih hrest hw, List.zip_cons_cons, List.flatMap_cons]

/-- The records that must stay intact. -/
def Holds.Kept (W : Holds) (g : Multiset Rec) (x : Rec) : Prop :=
  x ∈ g ∨ (∃ gen, (gen, x) ∈ W.pinned) ∨ x ∈ W.saved

theorem StoreInv.kept (hI : StoreInv W s g) {x : Rec} (hx : W.Kept g x) : Stored s x := by
  obtain hx | ⟨gen, hx⟩ | hx := hx
  · exact hI.stored x hx
  · exact (hI.pinned gen x hx).1
  · exact (hI.saved x hx).1

/-- A write apart from the kept records. -/
theorem StoreInv.pwrite_apart (hI : StoreInv W s g) {unit n : Nat} {bytes : Bytes}
    (hlen : bytes.length = n * ADDR_UNIT)
    (hapart : ∀ x, W.Kept g x → x.1.unit + x.1.units ≤ unit ∨ unit + n ≤ x.1.unit) :
    StoreInv W (s.pwrite (unit * ADDR_UNIT) bytes).2 g := by
  obtain ⟨hseg, hend, hcache⟩ := pwrite_rest s (unit * ADDR_UNIT) bytes
  have hun := hI.pwrite_synced _ rfl fun x hx =>
    Outside.of_units hlen (hapart x (.inr (.inr hx)))
  obtain ⟨-, hf⟩ | ⟨-, hf⟩ := pwrite_cases s (unit * ADDR_UNIT) bytes
  · exact hI.of_eq hf hseg hend hcache hun
  · have hst : ∀ {x}, W.Kept g x →
        Stored { s with file := overwrite s.file (unit * ADDR_UNIT) bytes } x := fun hx =>
      have h := hI.kept hx
      ⟨h.len, h.small, h.taken, framed_overwrite h.framed hlen (hapart _ hx)⟩
    have h : StoreInv W { s with file := overwrite s.file (unit * ADDR_UNIT) bytes } g :=
      ⟨hI.regions, fun x hx => hst (.inl hx), hI.counted,
        fun gen x hx => ⟨hst (.inr (.inl ⟨gen, hx⟩)), (hI.pinned gen x hx).2⟩,
        fun x hx => ⟨hst (.inr (.inr hx)), (hI.saved x hx).2⟩, hI.cacheTaken, hI.cacheOk, hI.synced⟩
    exact h.of_eq hf hseg hend hcache hun

theorem StoreInv.pwriteRuns_apart (hI : StoreInv W s g) (runs : List (Nat × List Bytes))
    (hapart : ∀ e ∈ runs, ∀ x, W.Kept g x → x.1.unit + x.1.units ≤ e.1 ∨
      e.1 + s.paddedUnits (runLive e.2) ≤ x.1.unit) :
    StoreInv W (s.pwriteRuns runs).2 g := by
  induction runs generalizing s with
  | nil => exact hI
  | cons e rest ih =>
    obtain ⟨unit, run⟩ := e
    have hI' := hI.pwrite_apart (runBytes_length s run) (hapart _ List.mem_cons_self)
    have hdir : (s.pwrite (unit * ADDR_UNIT) (s.runBytes run)).2.direct = s.direct := by
      unfold Store.pwrite
      split <;> rfl
    simp only [Store.pwriteRuns]
    cases hp : s.pwrite (unit * ADDR_UNIT) (s.runBytes run) with | mk r s' =>
    rw [hp] at hI' hdir
    cases r with
    | error e => exact hI'
    | ok _ =>
      refine ih hI' fun e he x hx => ?_
      have h := hapart e (List.mem_cons_of_mem _ he) x hx
      have hpad : s'.paddedUnits (runLive e.2) = s.paddedUnits (runLive e.2) := by
        unfold Store.paddedUnits Store.alignUnits
        rw [hdir]
      rw [hpad]
      exact h

/-- Reserved runs are apart from the units taken before. -/
theorem StoreInv.allocRuns {runs : List (List Bytes)} (hI : StoreInv W s g)
    (hruns : ∀ run ∈ runs, run ≠ []) :
    StoreInv W (s.allocRuns runs).2 g ∧
      ∀ units, (s.allocRuns runs).1 = .ok units → ∀ e ∈ units.zip runs, ∀ u n,
        s.seg.Taken s.endPage u n → u + n ≤ e.1 ∨ e.1 + s.paddedUnits (runLive e.2) ≤ u := by
  induction runs generalizing s with
  | nil =>
    refine ⟨hI, ?_⟩
    intro units hu e he
    rw [List.zip_nil_right] at he
    cases he
  | cons run rest ih =>
    have hpos : 0 < s.paddedUnits (runLive run) :=
      lt_of_lt_of_le (runLive_pos (hruns run List.mem_cons_self)) (le_paddedUnits ..)
    simp only [Store.allocRuns]
    obtain ⟨e, he⟩ | ⟨unit, seg', endPage', ha, he | he⟩ := allocRun_cases s run false
    · rw [he]
      exact ⟨hI, fun units hu => by cases hu⟩
    · rw [he]
      exact ⟨hI.allocated hpos ha, fun units hu => by cases hu⟩
    · rw [he]
      simp only
      have hA := hI.allocated hpos ha
      obtain ⟨hI', hdis⟩ := ih hA fun r hr => hruns r (List.mem_cons_of_mem _ hr)
      generalize hs' : ({ s with seg := seg', endPage := endPage' } : Store) = s' at *
      have hpad : ∀ n, s'.paddedUnits n = s.paddedUnits n := by
        subst hs'
        exact fun _ => rfl
      cases hr : s'.allocRuns rest with | mk r s'' =>
      rw [hr] at hI' hdis
      cases r with
      | error e => exact ⟨hI', fun units hu => by cases hu⟩
      | ok us =>
        refine ⟨hI', fun units hu e he u n ht => ?_⟩
        simp only [Except.ok.injEq] at hu
        subst hu
        rw [List.zip_cons_cons] at he
        rcases List.mem_cons.mp he with rfl | he
        · exact alloc_disjoint hI.regions ht ha
        · have h := hdis us rfl e he u n (by subst hs'; exact ht.alloc ha)
          rw [hpad] at h
          exact h

theorem StoreInv.writeBatchParallel (hI : StoreInv W s g) (payloads : List Bytes) :
    Grown W g payloads (s.writeBatchParallel payloads) := by
  have hD := hI.drainIfUnaliased
  unfold Store.writeBatchParallel
  simp only
  cases ht : Store.tooLarge payloads with
  | some p => exact .inr ⟨_, rfl, hD⟩
  | none =>
    generalize s.drainStagedIfUnaliased = s1 at hD
    obtain ⟨hA, hdis⟩ := hD.allocRuns (runsOf_ne_nil payloads)
    simp only
    cases hr : s1.allocRuns (runsOf payloads) with | mk r s2 =>
    rw [hr] at hA hdis
    cases r with
    | error e => exact .inr ⟨e, rfl, hA⟩
    | ok units =>
      simp only
      cases hw : s2.pwriteRuns (units.zip (runsOf payloads)) with | mk r s3 =>
      cases r with
      | error e =>
        refine .inr ⟨e, rfl, ?_⟩
        have hdir : s2.direct = s1.direct := by
          have := allocRuns_direct s1 (runsOf payloads)
          rw [hr] at this
          exact this
        have h := hA.pwriteRuns_apart (units.zip (runsOf payloads)) fun e he x hx => by
          have hpad : s2.paddedUnits (runLive e.2) = s1.paddedUnits (runLive e.2) := by
            unfold Store.paddedUnits Store.alignUnits
            rw [hdir]
          rw [hpad]
          exact hdis units rfl e he _ _ (hD.kept hx).taken
        rw [hw] at h
        exact h
      | ok _ =>
        have h := hD.writeRuns (runsOf_ne_nil payloads) (small_of_tooLarge ht)
        rw [writeRuns_of_parallel hr hw, runsOf_flatten] at h
        exact h

/-! ### Frees and prefetches -/

/-- A freed record is no longer owned. -/
theorem StoreInv.freed (hI : StoreInv W s g) (p : DiskPtr)
    (hc : ∀ r, usedUnits g r ≤ (s.seg.free p.unit p.units).live r) : StoreInv W (s.free p) g := by
  have hst : ∀ {x}, Stored s x → Stored (s.free p) x :=
    fun h => ⟨h.len, h.small, h.taken.free _ _, h.framed⟩
  exact {
    regions := hI.regions.free _ _
    stored := fun x hx => hst (hI.stored x hx)
    counted := hc
    pinned := fun gen x hx => ⟨hst (hI.pinned gen x hx).1, (hI.pinned gen x hx).2.free _ _⟩
    saved := fun x hx => ⟨hst (hI.saved x hx).1, (hI.saved x hx).2.free _ _⟩
    cacheTaken := fun u payload he => (hI.cacheTaken u payload he).free _ _
    cacheOk := hI.cacheOk
    synced := hI.synced }

theorem StoreInv.free {p : DiskPtr} {b : Bytes} (hI : StoreInv W s ((p, b) ::ₘ g)) :
    StoreInv W (s.free p) g := by
  have hI' : StoreInv W s g := by
    rw [← Multiset.singleton_add, add_comm] at hI
    exact hI.mono
  refine hI'.freed p fun r => ?_
  have hc := hI.counted r
  have hl := le_free_live s.seg p.unit p.units r
  rw [usedUnits_cons] at hc
  by_cases hr : regionOfUnit p.unit = r
  · rw [if_pos hr] at hc
    rw [if_pos hr.symm] at hl
    have hu : (p, b).1.units = p.units := rfl
    omega
  · rw [if_neg hr] at hc
    rw [if_neg (Ne.symm hr)] at hl
    omega

theorem StoreInv.readAheadInsert (hI : StoreInv W s g) {p : DiskPtr} {payload : Bytes}
    (hx : W.Visible g (p, payload)) : StoreInv W (s.readAheadInsert p.unit payload) g where
  regions := hI.regions
  stored x hx := ⟨(hI.stored x hx).len, (hI.stored x hx).small, (hI.stored x hx).taken,
    (hI.stored x hx).framed⟩
  counted := hI.counted
  pinned gen x hx := ⟨⟨(hI.pinned gen x hx).1.len, (hI.pinned gen x hx).1.small,
    (hI.pinned gen x hx).1.taken, (hI.pinned gen x hx).1.framed⟩, (hI.pinned gen x hx).2⟩
  saved x hx := ⟨⟨(hI.saved x hx).1.len, (hI.saved x hx).1.small, (hI.saved x hx).1.taken,
    (hI.saved x hx).1.framed⟩, (hI.saved x hx).2⟩
  cacheTaken u q he := by
    rcases List.mem_cons.mp he with he | he
    · rw [Prod.mk.injEq] at he
      rw [he.1]
      exact (hI.visible hx).taken.one
    · exact hI.cacheTaken u q (List.mem_filter.mp he).1
  cacheOk u q he y hy hu := by
    rcases List.mem_cons.mp he with he | he
    · rw [Prod.mk.injEq] at he
      rw [he.2, (hI.visible hy).eq_of_unit (hI.visible hx) (hu.trans he.1)]
    · exact hI.cacheOk u q (List.mem_filter.mp he).1 y hy hu
  synced := hI.synced

theorem StoreInv.prefetchRecord (hI : StoreInv W s g) {p : DiskPtr} {b : Bytes}
    (hx : W.Visible g (p, b)) : StoreInv W (s.prefetchRecord p) g := by
  have hI' : StoreInv W s.fault.2 g := hI.of_eq rfl rfl rfl rfl hI.synced
  unfold Store.prefetchRecord Store.pread
  by_cases hf : s.fault.1 = true
  · simp only [hf, if_true]
    exact hI'
  · simp only [hf]
    have hb : readBytesAt s.file (p.offset + RECORD_HDR) p.len = b := (hI.visible hx).payloadAt
    rw [hb]
    exact hI'.readAheadInsert hx

/-! ### Runs -/

theorem selectVictims_nodup (s : Store) (pick : List Nat) : (s.selectVictims pick).Nodup := by
  unfold Store.selectVictims
  split
  · exact List.nodup_nil
  · exact List.nodup_dedup _

/-- The requests of engine programs keep the invariant. -/
theorem flat_sound (W : Holds) (ok : (r : Req) → Resp r → Prop) :
    (flat W).Sound exec ok (StoreInv W) := by
  intro r s g f K hI hK _
  cases r with
  | read p =>
    obtain ⟨b, hb, hok, herr⟩ := hK
    obtain ⟨hr | ⟨e, he⟩, hI'⟩ := hI.read (hb.add f)
    · refine ⟨g, ?_, hI'⟩
      show K (s.read p).1 g
      rw [hr]
      exact hok
    · refine ⟨g, ?_, hI'⟩
      show K (s.read p).1 g
      rw [he]
      exact herr e
  | pread off len recs =>
    refine ⟨g, ?_, hI.of_eq rfl rfl rfl rfl hI.synced⟩
    show K (if s.fault.1 = true then .error .io else .ok (readBytesAt s.file off len)) g
    by_cases hf : s.fault.1 = true
    · rw [if_pos hf]
      exact hK.2.2 _
    · rw [if_neg hf]
      exact hK.2.1 _ ((hI.slices off len).mono fun x hx => hx.add f)
  | writePayload payload =>
    obtain ⟨p, hp, hI'⟩ | ⟨e, he, hI'⟩ := hI.writePayload payload
    · refine ⟨(p, payload) ::ₘ g, ?_, by rw [Multiset.cons_add]; exact hI'⟩
      show K (s.writePayload payload).1 _
      rw [hp]
      exact hK.1 p
    · refine ⟨g, ?_, hI'⟩
      show K (s.writePayload payload).1 g
      rw [he]
      exact hK.2 e
  | writeBatch payloads =>
    obtain ⟨ptrs, hp, hlen, hI'⟩ | ⟨e, he, hI'⟩ := hI.writeBatch payloads
    · refine ⟨recsOf ptrs payloads + g, ?_, by rw [add_assoc]; exact hI'⟩
      show K (s.writeBatch payloads).1 _
      rw [hp]
      exact hK.1 ptrs hlen
    · refine ⟨g, ?_, hI'⟩
      show K (s.writeBatch payloads).1 g
      rw [he]
      exact hK.2 e
  | writeBatchParallel payloads =>
    obtain ⟨ptrs, hp, hlen, hI'⟩ | ⟨e, he, hI'⟩ := hI.writeBatchParallel payloads
    · refine ⟨recsOf ptrs payloads + g, ?_, by rw [add_assoc]; exact hI'⟩
      show K (s.writeBatchParallel payloads).1 _
      rw [hp]
      exact hK.1 ptrs hlen
    · refine ⟨g, ?_, hI'⟩
      show K (s.writeBatchParallel payloads).1 g
      rw [he]
      exact hK.2 e
  | free p =>
    obtain ⟨b, g', rfl, hK⟩ := hK
    rw [Multiset.cons_add] at hI
    exact ⟨g', hK, hI.free⟩
  | selectVictims pick => exact ⟨g, hK _ (selectVictims_nodup s pick), hI⟩
  | refuse e => exact ⟨g, hK, hI⟩

end

end FlatMpt
