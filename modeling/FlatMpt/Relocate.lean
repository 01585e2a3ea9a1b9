import FlatMpt.Moves

/-!
# Evacuation

A scan of a region finds each record at its own unit, so the live records of the
victims are distinct, and each is the record of the frontier slot above its
prefix.  Copying them and retargeting their slots keeps every payload.

    Moved pay node pay' node'     -- same paths, roots and payloads
    evacuateRegions_moves, gcStep_moves
-/

namespace FlatMpt

open Prog

/-! ## The content of leaf slots -/

/-- Payload and root of a leaf slot, with the payloads on disk given by path. -/
def content (pay : List Nibble → Bytes) (p : List Nibble) : RamSlot → Option (Bytes × Hash)
  | .disk _ root => some (pay p, root)
  | .mem bytes root => some (bytes, root)
  | _ => none

/-- The frontier with other slots of the same content. -/
def Moved (pay : List Nibble → Bytes) (node : RamNode) (pay' : List Nibble → Bytes)
    (node' : RamNode) : Prop :=
  ∃ f, KeepsLeaves f ∧ node' = mapLeaves f node [] ∧
    ∀ e ∈ leafSlots node [], content pay' e.1 (f e.1 e.2) = content pay e.1 e.2

theorem Moved.refl (pay : List Nibble → Bytes) (node : RamNode) : Moved pay node pay node :=
  ⟨fun _ s => s, fun _ _ h => h, (mapLeaves_id node []).symm, fun _ _ => rfl⟩

theorem Moved.trans {pay1 pay2 pay3 : List Nibble → Bytes} {node1 node2 node3 : RamNode}
    (h1 : Moved pay1 node1 pay2 node2) (h2 : Moved pay2 node2 pay3 node3) :
    Moved pay1 node1 pay3 node3 := by
  obtain ⟨f1, hf1, rfl, hc1⟩ := h1
  obtain ⟨f2, hf2, rfl, hc2⟩ := h2
  refine ⟨fun p s => f2 p (f1 p s), fun p s h => hf2 p _ (hf1 p s h), mapLeaves_comp hf1 node1 [], ?_⟩
  intro e he
  rw [← hc1 e he]
  refine hc2 (e.1, f1 e.1 e.2) ?_
  rw [leafSlots_mapLeaves hf1]
  exact List.mem_map_of_mem he

/-- Payloads outside the paths of a frontier do not matter. -/
theorem Moved.of_spill {gone : List (List Nibble × Bytes)} {ptrs : List DiskPtr}
    (hlen : ptrs.length = gone.length) (pay : List Nibble → Bytes) (node : RamNode)
    (hmem : ∀ a ∈ gone, ∃ root, (a.1, .mem a.2 root) ∈ leafSlots node []) :
    Moved pay node (payWith gone pay) (mapLeaves (toDisk ((gone.map Prod.fst).zip ptrs)) node []) := by
  refine ⟨_, toDisk_keeps _, rfl, ?_⟩
  rintro ⟨p, s⟩ he
  have hlen' : ptrs.length = (gone.map Prod.fst).length := by rw [hlen, List.length_map]
  -- a spilled path holds a RAM record
  have hgone : ∀ b, gone.lookup p = some b → ∃ root, s = .mem b root := by
    intro b hb
    obtain ⟨l1, l2, heq, -⟩ := List.lookup_eq_some_iff.mp hb
    obtain ⟨root, hm⟩ := hmem (p, b) (by rw [heq]; simp)
    exact ⟨root, leaf_eq_of_path he hm⟩
  cases s with
  | mem bytes root =>
    cases hl : ((gone.map Prod.fst).zip ptrs).lookup p with
    | none => simp only [toDisk, hl, content]
    | some ptr =>
      have hp : p ∈ gone.map Prod.fst := (lookup_zip_isSome hlen' p).mp (by rw [hl]; rfl)
      have hb : ∃ b, gone.lookup p = some b := by
        cases hg : gone.lookup p with
        | none =>
          obtain ⟨a, ha, rfl⟩ := List.mem_map.mp hp
          have := List.lookup_eq_none_iff.mp hg a ha
          simp at this
        | some b => exact ⟨b, rfl⟩
      obtain ⟨b, hb⟩ := hb
      obtain ⟨root', h⟩ := hgone b hb
      cases h
      simp only [toDisk, hl, content, payWith, hb, Option.getD_some]
  | disk ptr root =>
    have hl : gone.lookup p = none := by
      cases hg : gone.lookup p with
      | none => rfl
      | some b =>
        obtain ⟨_, h⟩ := hgone b hg
        cases h
    simp only [toDisk, content, payWith, hl, Option.getD_none]
  | none => rfl
  | ram child => rfl
  | account path nonce balance codeHash storage => rfl

/-! ## Retargeted slots -/

/-- A record of the frontier, and its copy. -/
structure Move where
  path : List Nibble
  old : DiskPtr
  new : DiskPtr

def Move.target (m : Move) : List Nibble × DiskPtr := (m.path, m.new)

/-- Every move starts from a slot of its own. -/
structure Movable (node : RamNode) (moves : List Move) : Prop where
  nodup : (moves.map Move.path).Nodup
  mem : ∀ m ∈ moves, ∃ root, (m.path, .disk m.old root) ∈ leafSlots node []

theorem setPtrs_keeps (installs : List (List Nibble × DiskPtr)) : KeepsLeaves (setPtrs installs) := by
  intro p s hs
  induction installs generalizing s with
  | nil => exact hs
  | cons e installs ih => exact ih _ (setPtr_keeps e.1 e.2 p s hs)

theorem content_setPtr (pay : List Nibble → Bytes) (q p : List Nibble) (new : DiskPtr) (s : RamSlot) :
    content pay p (setPtr q new p s) = content pay p s := by
  unfold setPtr
  split
  · cases s <;> rfl
  · rfl

theorem content_setPtrs (pay : List Nibble → Bytes) (installs : List (List Nibble × DiskPtr))
    (p : List Nibble) (s : RamSlot) : content pay p (setPtrs installs p s) = content pay p s := by
  induction installs generalizing s with
  | nil => rfl
  | cons e installs ih => exact (ih (setPtr e.1 e.2 p s)).trans (content_setPtr pay e.1 p e.2 s)

theorem Moved.setPtrs (pay : List Nibble → Bytes) (node : RamNode)
    (installs : List (List Nibble × DiskPtr)) :
    Moved pay node pay (mapLeaves (setPtrs installs) node []) :=
  ⟨_, setPtrs_keeps installs, rfl, fun e _ => content_setPtrs pay installs e.1 e.2⟩

/-- A prefix below a slot finds it. -/
theorem installPtr_under {node : RamNode} {p pfx : List Nibble} {old : DiskPtr} {root : Hash}
    (h : (p, .disk old root) ∈ leafSlots node []) (hp : p <+: pfx) (new : DiskPtr) :
    installPtr node pfx new = some (mapLeaves (setPtr p new) node []) := by
  obtain ⟨r, rfl⟩ := hp
  have hfind := findDiskPtr_leaf node [] p r old root h
  obtain ⟨q, root', hq, hmem, hins⟩ := installPtr_eq node [] (p ++ r) old new hfind
  rw [List.nil_append] at hmem hins
  -- both slots are above the prefix
  have hqp : (q, RamSlot.disk old root') = (p, .disk old root) := by
    rcases List.prefix_or_prefix_of_prefix hq (List.prefix_append p r) with hle | hle
    · exact leafSlots_apart node [] _ hmem _ h hle
    · exact (leafSlots_apart node [] _ h _ hmem hle).symm
  injection hqp with hqp
  rw [hins, hqp]

/-- One slot retargeted. -/
theorem recsAt_setPtr {node : RamNode} {p : List Nibble} {old : DiskPtr} (new : DiskPtr)
    {root : Hash} (hp : (p, .disk old root) ∈ leafSlots node []) (pay : List Nibble → Bytes) (b : Bytes) :
    recsAt (Function.update pay p b) (mapLeaves (setPtr p new) node []) + {(old, pay p)} =
      recsAt pay node + {(new, b)} := by
  have h := leafRecs_set (f := setPtr p new) (leafSlots_nodup node []) pay
    (Function.update pay p b) hp (fun q s hq => setPtr_ne hq new s) (fun q hq => Function.update_of_ne hq b pay)
  have hs : setPtr p new p (.disk old root) = .disk new root := if_pos rfl
  rw [hs, Function.update_self] at h
  unfold recsAt
  rw [leafSlots_mapLeaves (setPtr_keeps p new)]
  exact h

theorem Movable.tail {node : RamNode} {m : Move} {moves : List Move} (h : Movable node (m :: moves)) :
    Movable (mapLeaves (setPtr m.path m.new) node []) moves where
  nodup := (List.nodup_cons.mp h.nodup).2
  mem a ha := by
    obtain ⟨root, hr⟩ := h.mem a (List.mem_cons_of_mem _ ha)
    have hne : a.path ≠ m.path := fun he =>
      (List.nodup_cons.mp h.nodup).1 (List.mem_map.mpr ⟨a, ha, he⟩)
    refine ⟨root, ?_⟩
    rw [leafSlots_mapLeaves (setPtr_keeps _ _)]
    refine List.mem_map.mpr ⟨_, hr, ?_⟩
    show (a.path, setPtr m.path m.new a.path (.disk a.old root)) = _
    rw [setPtr_ne hne]

theorem mapLeaves_setPtrs_cons (e : List Nibble × DiskPtr) (installs : List (List Nibble × DiskPtr))
    (node : RamNode) : mapLeaves (setPtrs (e :: installs)) node [] =
      mapLeaves (setPtrs installs) (mapLeaves (setPtr e.1 e.2) node []) [] := by
  rw [mapLeaves_comp (setPtr_keeps e.1 e.2)]
  rfl

/-- The records before and after: the old ones have gone, the copies have come. -/
theorem recsAt_moves {moves : List Move} {node : RamNode} (h : Movable node moves)
    (pay : List Nibble → Bytes) :
    recsAt pay (mapLeaves (setPtrs (moves.map Move.target)) node []) +
        (moves.map fun m => (m.old, pay m.path) : List Rec) =
      recsAt pay node + (moves.map fun m => (m.new, pay m.path) : List Rec) := by
  induction moves generalizing node with
  | nil =>
    show recsAt pay (mapLeaves (fun _ s => s) node []) + 0 = recsAt pay node + 0
    rw [mapLeaves_id]
  | cons m moves ih =>
    obtain ⟨root, hm⟩ := h.mem m List.mem_cons_self
    have h1 := recsAt_setPtr m.new hm pay (pay m.path)
    rw [Function.update_eq_self] at h1
    have h2 := ih h.tail
    rw [List.map_cons, mapLeaves_setPtrs_cons]
    simp only [List.map_cons, ← Multiset.cons_coe, ← Multiset.singleton_add] at h2 ⊢
    calc
      _ = (recsAt pay (mapLeaves (setPtrs (moves.map Move.target))
              (mapLeaves (setPtr m.path m.new) node []) []) +
            ((moves.map fun m => (m.old, pay m.path) : List Rec) : Multiset Rec)) +
              {(m.old, pay m.path)} := by
        rw [add_comm {(m.old, pay m.path)}, ← add_assoc]
        rfl
      _ = (recsAt pay (mapLeaves (setPtr m.path m.new) node []) + {(m.old, pay m.path)}) +
            ((moves.map fun m => (m.new, pay m.path) : List Rec) : Multiset Rec) := by
        rw [h2]
        abel
      _ = _ := by
        rw [h1]
        abel

/-- Relocations found by longer prefixes. -/
theorem installReloc_eq {moves : List Move} {node : RamNode} (h : Movable node moves)
    {pfxs : List (List Nibble)} (hp : List.Forall₂ (fun m pfx => m.path <+: pfx) moves pfxs) :
    installReloc (pfxs.zip (moves.map Move.new)) node =
      mapLeaves (setPtrs (moves.map Move.target)) node [] := by
  induction hp generalizing node with
  | nil => exact (mapLeaves_id node []).symm
  | @cons m pfx moves pfxs hm hps ih =>
    obtain ⟨root, hr⟩ := h.mem m List.mem_cons_self
    rw [List.map_cons, List.map_cons, List.zip_cons_cons, mapLeaves_setPtrs_cons]
    show installReloc _ ((installPtr node pfx m.new).getD node) = _
    rw [installPtr_under hr hm]
    exact ih h.tail

/-! ## Scanning a region -/

/-- What a scan finds lies in the buffer, at growing units. -/
theorem scanRecords_spec (buf : Bytes) (fuel u : Nat) :
    (∀ e ∈ scanRecords buf fuel u, u ≤ e.1 ∧ e.1 * ADDR_UNIT + (RECORD_HDR + e.2.length) ≤ buf.length ∧
      e.2 = ((buf.drop (e.1 * ADDR_UNIT)).drop RECORD_HDR).take e.2.length) ∧
    (scanRecords buf fuel u).Pairwise fun a b => a.1 < b.1 := by
  induction fuel generalizing u with
  | zero => exact ⟨fun e he => absurd he List.not_mem_nil, List.Pairwise.nil⟩
  | succ fuel ih =>
    unfold scanRecords
    dsimp only
    split
    · exact ⟨fun e he => absurd he List.not_mem_nil, List.Pairwise.nil⟩
    split
    · obtain ⟨h1, h2⟩ := ih (u + 1)
      exact ⟨fun e he => ⟨Nat.le_of_succ_le (h1 e he).1, (h1 e he).2⟩, h2⟩
    split
    · exact ⟨fun e he => absurd he List.not_mem_nil, List.Pairwise.nil⟩
    · rename_i hhdr hlen hfit
      set len := leValue ((buf.drop (u * ADDR_UNIT)).take RECORD_HDR)
      have hdrop : (buf.drop (u * ADDR_UNIT)).length = buf.length - u * ADDR_UNIT := List.length_drop
      have hplen : (((buf.drop (u * ADDR_UNIT)).drop RECORD_HDR).take len).length = len := by
        rw [List.length_take, List.length_drop]
        omega
      have hstep : u < u + unitsFor (RECORD_HDR + len) := by
        have : 0 < unitsFor (RECORD_HDR + len) := unit_pos ⟨0, len⟩
        omega
      obtain ⟨h1, h2⟩ := ih (u + unitsFor (RECORD_HDR + len))
      refine ⟨fun e he => ?_, List.pairwise_cons.mpr ⟨fun e he => ?_, h2⟩⟩
      · rcases List.mem_cons.mp he with rfl | he
        · refine ⟨le_rfl, ?_, ?_⟩
          · show u * ADDR_UNIT + (RECORD_HDR + _) ≤ _
            rw [hplen]
            have hH : RECORD_HDR = 4 := rfl
            omega
          · show _ = ((buf.drop (u * ADDR_UNIT)).drop RECORD_HDR).take _
            rw [hplen]
        · exact ⟨le_trans hstep.le (h1 e he).1, (h1 e he).2⟩
      · exact lt_of_lt_of_le hstep (h1 e he).1

/-- A found record is that of the slot above its prefix. -/
def FoundIn (pay : List Nibble → Bytes) (node : RamNode) (a : Found) : Prop :=
  ∃ path root, path <+: a.pfx ∧ (path, .disk a.old root) ∈ leafSlots node [] ∧ a.payload = pay path

/-- What was read from some regions. -/
structure Live (pay : List Nibble → Bytes) (node : RamNode) (regions : List Nat) (as : List Found) :
    Prop where
  found : ∀ a ∈ as, FoundIn pay node a
  units : as.Pairwise fun a b => a.old.unit ≠ b.old.unit
  within : ∀ a ∈ as, regionOfUnit a.old.unit ∈ regions

theorem region_offset (region u len : Nat) :
    (⟨region * REGION_UNITS + u, len⟩ : DiskPtr).offset = region * REGION_BYTES + u * ADDR_UNIT := by
  show (region * REGION_UNITS + u) * ADDR_UNIT = _
  have hR : REGION_BYTES = REGION_UNITS * ADDR_UNIT := rfl
  rw [hR, Nat.add_mul, Nat.mul_assoc]

/-- A record of a region, if the frontier points at it. -/
def liveAt (root : RamNode) (region : Nat) (e : Nat × Bytes) : Option Found :=
  match parsePrefix e.2 with
  | .error _ => none
  | .ok pfx => if findDiskPtr root pfx = some ⟨region * REGION_UNITS + e.1, e.2.length⟩ then
      some ⟨pfx, e.2, ⟨region * REGION_UNITS + e.1, e.2.length⟩⟩ else none

theorem liveAt_eq_some {root : RamNode} {region : Nat} {e : Nat × Bytes} {a : Found}
    (h : liveAt root region e = some a) :
    a.old = ⟨region * REGION_UNITS + e.1, e.2.length⟩ ∧ a.payload = e.2 ∧
      findDiskPtr root a.pfx = some a.old := by
  unfold liveAt at h
  split at h
  · cases h
  · split at h
    · rename_i hfind
      cases h
      exact ⟨rfl, rfl, hfind⟩
    · cases h

theorem liveRecords_eq (root : RamNode) (region : Nat) (buf : Bytes) :
    liveRecords root region buf = (scanRecords buf REGION_UNITS 0).filterMap (liveAt root region) := rfl

theorem liveRecords_live {P : Rec → Prop} {pay : List Nibble → Bytes} {node : RamNode} {region : Nat}
    {buf : Bytes} (hs : Slices P (region * REGION_BYTES) REGION_BYTES buf)
    (hP : ∀ x ∈ recsAt pay node, P x) : Live pay node [region] (liveRecords node region buf) := by
  obtain ⟨hspec, hord⟩ := scanRecords_spec buf REGION_UNITS 0
  have hR : REGION_BYTES = REGION_UNITS * ADDR_UNIT := rfl
  have hunit : ∀ e ∈ scanRecords buf REGION_UNITS 0, e.1 < REGION_UNITS := by
    intro e he
    obtain ⟨-, hle, -⟩ := hspec e he
    rw [hs.1, hR] at hle
    have hA : 0 < ADDR_UNIT := by decide
    have hH : 0 < RECORD_HDR := by decide
    exact Nat.lt_of_mul_lt_mul_right (lt_of_lt_of_le (by omega) hle)
  rw [liveRecords_eq]
  refine ⟨?_, ?_, ?_⟩
  · intro a ha
    obtain ⟨e, he, hea⟩ := List.mem_filterMap.mp ha
    obtain ⟨hold, hpay, hfind⟩ := liveAt_eq_some hea
    obtain ⟨q, root, hq, hmem, -⟩ := installPtr_eq node [] a.pfx a.old ⟨0, 0⟩ hfind
    rw [List.nil_append] at hmem
    refine ⟨q, root, hq, hmem, ?_⟩
    -- the scan cut the record's own bytes
    obtain ⟨-, hle, hcut⟩ := hspec e he
    have hoff : a.old.offset = region * REGION_BYTES + e.1 * ADDR_UNIT := by
      rw [hold]
      exact region_offset ..
    have hlen : a.old.len = e.2.length := by rw [hold]
    have hbytes := hs.2 (a.old, pay q) (hP _ (leafRecs_mem hmem))
      (by
        show _ ≤ a.old.offset
        omega)
      (by
        show a.old.offset + (RECORD_HDR + a.old.len) ≤ _
        rw [hoff, hlen]
        rw [hs.1] at hle
        omega)
    have hbytes : (buf.drop (a.old.offset - region * REGION_BYTES)).take (RECORD_HDR + a.old.len) =
        leBytes 4 a.old.len ++ pay q := hbytes
    rw [hoff, Nat.add_sub_cancel_left, hlen] at hbytes
    have hcut' := congrArg (List.drop RECORD_HDR) hbytes
    rw [List.drop_take, Nat.add_sub_cancel_left, ← hcut,
      List.drop_left' (show (leBytes 4 e.2.length).length = RECORD_HDR from leBytes_length ..)] at hcut'
    rw [hpay, hcut']
  · refine List.Pairwise.filterMap _ ?_ hord
    intro e e' hlt a ha a' ha' hu
    obtain ⟨hold, -, -⟩ := liveAt_eq_some ha
    obtain ⟨hold', -, -⟩ := liveAt_eq_some ha'
    rw [hold, hold'] at hu
    have hu : region * REGION_UNITS + e.1 = region * REGION_UNITS + e'.1 := hu
    omega
  · intro a ha
    obtain ⟨e, he, hea⟩ := List.mem_filterMap.mp ha
    obtain ⟨hold, -, -⟩ := liveAt_eq_some hea
    rw [List.mem_singleton, hold]
    have := hunit e he
    exact RegionAlloc.regionOfUnit_eq (Nat.le_add_right _ _) (Nat.add_lt_add_left this _)

theorem Live.nil (pay : List Nibble → Bytes) (node : RamNode) : Live pay node [] [] :=
  ⟨fun _ h => absurd h List.not_mem_nil, List.Pairwise.nil, fun _ h => absurd h List.not_mem_nil⟩

/-- Different regions hold different records. -/
theorem Live.append {pay : List Nibble → Bytes} {node : RamNode} {r1 r2 : List Nat} {as bs : List Found}
    (ha : Live pay node r1 as) (hb : Live pay node r2 bs) (hd : ∀ r ∈ r1, r ∉ r2) :
    Live pay node (r1 ++ r2) (as ++ bs) where
  found a h := (List.mem_append.mp h).elim (ha.found a) (hb.found a)
  units := by
    refine List.pairwise_append.mpr ⟨ha.units, hb.units, fun a h b h' he => ?_⟩
    have := hd _ (ha.within a h)
    rw [he] at this
    exact this (hb.within b h')
  within a h := by
    rw [List.mem_append] at h ⊢
    exact h.imp (ha.within a) (hb.within a)

/-- Copies of live records, as moves of their slots. -/
theorem Live.moves {pay : List Nibble → Bytes} {node : RamNode} {regions : List Nat} {as : List Found}
    (h : Live pay node regions as) {ptrs : List DiskPtr} (hlen : ptrs.length = as.length) :
    ∃ moves : List Move, Movable node moves ∧
      List.Forall₂ (fun m pfx => m.path <+: pfx) moves (as.map Found.pfx) ∧
      moves.map Move.old = as.map Found.old ∧ moves.map Move.new = ptrs ∧
      (moves.map fun m => pay m.path) = as.map Found.payload := by
  induction as generalizing ptrs with
  | nil =>
    cases ptrs with
    | nil => exact ⟨[], ⟨List.nodup_nil, fun m hm => absurd hm List.not_mem_nil⟩, .nil, rfl, rfl, rfl⟩
    | cons p ptrs => cases hlen
  | cons a as ih =>
    cases ptrs with
    | nil => cases hlen
    | cons p ptrs =>
      have htail : Live pay node regions as := ⟨fun b hb => h.found b (List.mem_cons_of_mem _ hb),
        h.units.of_cons, fun b hb => h.within b (List.mem_cons_of_mem _ hb)⟩
      obtain ⟨moves, hm, hpfx, hold, hnew, hpay⟩ := ih htail (Nat.succ.inj hlen)
      obtain ⟨path, root, hle, hmem, hpl⟩ := h.found a List.mem_cons_self
      refine ⟨⟨path, a.old, p⟩ :: moves, ⟨?_, ?_⟩, .cons hle hpfx, ?_, ?_, ?_⟩
      · refine List.nodup_cons.mpr ⟨fun hp => ?_, hm.nodup⟩
        -- one path, one slot, one record
        obtain ⟨m, hmm, hpath⟩ := List.mem_map.mp hp
        obtain ⟨root', hmem'⟩ := hm.mem m hmm
        rw [show m.path = path from hpath] at hmem'
        have heq := leaf_eq_of_path hmem hmem'
        have hin : m.old ∈ as.map Found.old := by
          rw [← hold]
          exact List.mem_map_of_mem hmm
        obtain ⟨b, hb, hbo⟩ := List.mem_map.mp hin
        refine (List.pairwise_cons.mp h.units).1 b hb ?_
        rw [hbo]
        injection heq with heq
        rw [heq]
      · intro m hmm
        rcases List.mem_cons.mp hmm with rfl | hmm
        · exact ⟨root, hmem⟩
        · exact hm.mem m hmm
      · rw [List.map_cons, List.map_cons, hold]
      · rw [List.map_cons, hnew]
      · rw [List.map_cons, List.map_cons, hpay, hpl]

/-! ## Evacuation -/

section
variable {W : Holds} {ok : (r : Req) → Resp r → Prop} {E : Err → Prop} {g f : Multiset Rec}
  {pay : List Nibble → Bytes} {node : RamNode}

theorem readRegion_live (hE : ∀ r x e, ok r x → failed r x = some e → E e)
    (hv : ∀ x ∈ recsAt pay node, W.Visible g x) (region : Nat) :
    wp ((flat W).filter ok) (readRegion node region) g
      (Or E fun as g' => g' = g ∧ Live pay node [region] as) := by
  refine ⟨fun p hp => absurd hp List.not_mem_nil, fun buf hs _ => ⟨rfl, liveRecords_live hs hv⟩,
    fun e he => hE _ _ e he rfl⟩

theorem readRegions_live (hE : ∀ r x e, ok r x → failed r x = some e → E e)
    (hv : ∀ x ∈ recsAt pay node, W.Visible g x) {regions : List Nat} (hn : regions.Nodup) :
    wp ((flat W).filter ok) (readRegions node regions) g
      (Or E fun as g' => g' = g ∧ Live pay node regions as) := by
  induction regions with
  | nil => exact ⟨rfl, Live.nil pay node⟩
  | cons region rest ih =>
    obtain ⟨hnot, hrest⟩ := List.nodup_cons.mp hn
    refine wp_bind (wp_mono (readRegion_live hE hv region) ?_)
    rintro (e | as) g' ha
    · exact ha
    obtain ⟨rfl, ha⟩ := ha
    refine wp_bind (wp_mono (ih hrest) ?_)
    rintro (e | bs) g' hb
    · exact hb
    obtain ⟨rfl, hb⟩ := hb
    exact ⟨rfl, ha.append hb fun r hr => by rwa [List.mem_singleton.mp hr]⟩

theorem freeAll_recs (recs : List Rec) (f : Multiset Rec) :
    wp ((flat W).filter ok) (freeAll (recs.map Prod.fst)) (recs + f) fun _ g' => g' = f := by
  induction recs with
  | nil => exact zero_add f
  | cons x recs ih =>
    refine ⟨x.2, recs + f, ?_, fun _ => ih⟩
    rw [← Multiset.cons_coe, Multiset.cons_add]

/-- The victims' records are copied and the old copies freed. -/
theorem evacuateRegions_moves (hE : ∀ r x e, ok r x → failed r x = some e → E e)
    {victims : List Nat} (hn : victims.Nodup) :
    wp ((flat W).filter ok) (evacuateRegions node victims) (recsAt pay node + f)
      (Or E fun reloc g' => Moved pay node pay (installReloc reloc node) ∧
        g' = recsAt pay (installReloc reloc node) + f) := by
  refine wp_bind (wp_mono (readRegions_live hE
    (fun x hx => .inl (Multiset.mem_add.mpr (.inl hx))) hn) ?_)
  rintro (e | live) g' hl
  · exact hl
  obtain ⟨rfl, hlive⟩ := hl
  show wp _ (if live = [] then Act.ok [] else _) _ _
  by_cases hnil : live = []
  · rw [if_pos hnil]
    exact ⟨Moved.refl pay node, rfl⟩
  rw [if_neg hnil]
  refine wp_batch hE (fun e he => he) fun ptrs hlen => ?_
  rw [List.length_map] at hlen
  obtain ⟨moves, hm, hpfx, hold, hnew, hpl⟩ := hlive.moves hlen
  have hinst := installReloc_eq hm hpfx
  rw [hnew] at hinst
  -- the new copies replace the old ones
  have hrecs : recsOf ptrs (live.map Found.payload) + (recsAt pay node + f) =
      ((moves.map fun m => (m.old, pay m.path) : List Rec) : Multiset Rec) +
        (recsAt pay (mapLeaves (setPtrs (moves.map Move.target)) node []) + f) := by
    have h := recsAt_moves hm pay
    have hzip : recsOf ptrs (live.map Found.payload) =
        ((moves.map fun m => (m.new, pay m.path) : List Rec) : Multiset Rec) := by
      unfold recsOf
      rw [← hnew, ← hpl, List.zip_map']
    rw [hzip]
    calc
      _ = recsAt pay node + ((moves.map fun m => (m.new, pay m.path) : List Rec) : Multiset Rec) + f := by
        abel
      _ = _ := by
        rw [← h]
        abel
  have hfst : live.map Found.old = (moves.map fun m => ((m.old, pay m.path) : Rec)).map Prod.fst := by
    rw [← hold, List.map_map]
    rfl
  show wp _ ((freeAll (live.map Found.old)).bind fun _ => _) _ _
  rw [hrecs, hfst]
  refine wp_bind (wp_mono (freeAll_recs _ _) ?_)
  rintro _ g' rfl
  show Moved pay node pay (installReloc ((live.map Found.pfx).zip ptrs) node) ∧ _ = _
  rw [hinst]
  exact ⟨Moved.setPtrs pay node _, rfl⟩

/-- A collection under the writer moves records and nothing else. -/
theorem gcStep_moves (hE : ∀ r x e, ok r x → failed r x = some e → E e) (picks : List (List Nat)) :
    wp ((flat W).filter ok) (gcStep picks node) (recsAt pay node + f) fun r g' =>
      Or E (fun _ g' => Moved pay node pay r.1 ∧ g' = recsAt pay r.1 + f) r.2 g' := by
  induction picks generalizing node with
  | nil => exact ⟨Moved.refl pay node, rfl⟩
  | cons pick rest ih =>
    refine fun victims hn _ => ?_
    show wp _ (if victims = [] then _ else _) _ _
    by_cases hnil : victims = []
    · rw [if_pos hnil]
      exact ⟨Moved.refl pay node, rfl⟩
    rw [if_neg hnil]
    refine wp_bind (wp_mono (evacuateRegions_moves hE hn) ?_)
    rintro (e | reloc) g' hr
    · exact hr
    obtain ⟨hmoved, rfl⟩ := hr
    refine wp_mono ih ?_
    rintro ⟨node', e | _⟩ g' hr
    · exact hr
    · exact ⟨hmoved.trans hr.1, hr.2⟩

/-! ## Two-phase collection -/

/-- Copies of records that satisfy `P`, one for each relocation. -/
def Copied (P : Rec → Prop) (items : List Reloc) (g : Multiset Rec) : Prop :=
  ∃ bs : List Bytes, List.Forall₂ (fun (it : Reloc) b => P (it.old, b)) items bs ∧
    g = recsOf (items.map Reloc.new) bs

theorem Copied.nil (P : Rec → Prop) : Copied P [] 0 := ⟨[], .nil, rfl⟩

theorem Copied.of_nil {P : Rec → Prop} {g : Multiset Rec} (h : Copied P [] g) : g = 0 := by
  obtain ⟨bs, hbs, rfl⟩ := h
  cases hbs
  rfl

theorem Copied.cons {P : Rec → Prop} {it : Reloc} {items : List Reloc} {g : Multiset Rec}
    (h : Copied P (it :: items) g) :
    ∃ b g', P (it.old, b) ∧ g = (it.new, b) ::ₘ g' ∧ Copied P items g' := by
  obtain ⟨bs, hbs, rfl⟩ := h
  cases hbs with
  | @cons _ b _ bs hb hbs => exact ⟨b, recsOf (items.map Reloc.new) bs, hb, rfl, bs, hbs, rfl⟩

theorem Live.flatten {victims : List Nat} {outs : List (List Found)}
    (h : List.Forall₂ (fun v as => Live pay node [v] as) victims outs) (hn : victims.Nodup) :
    Live pay node victims outs.flatten := by
  induction h with
  | nil => exact Live.nil pay node
  | @cons v as victims outs hv _ ih =>
    obtain ⟨hnot, hrest⟩ := List.nodup_cons.mp hn
    exact hv.append (ih hrest) fun r hr => by rwa [List.mem_singleton.mp hr]

/-- Regions read by workers. -/
theorem joined_live {victims : List Nat} {rs : Fin victims.length → Except Err (List Found)}
    {hs : Fin victims.length → Multiset Rec} (hn : victims.Nodup)
    (h : ∀ i, Or E (fun as g' => g' = 0 ∧ Live pay node [victims.get i] as) (rs i) (hs i)) :
    (∃ live, (joinAll (List.ofFn rs)).map List.flatten = .ok live ∧ ∑ i, hs i = 0 ∧
      Live pay node victims live) ∨ ∃ e, (joinAll (List.ofFn rs)).map List.flatten = .error e ∧ E e := by
  cases hj : joinAll (List.ofFn rs) with
  | error e =>
    obtain ⟨i, hi⟩ := List.mem_ofFn.mp (joinAll_error hj)
    have hi' := h i
    rw [hi] at hi'
    exact .inr ⟨e, rfl, hi'⟩
  | ok outs =>
    have hrs := joinAll_ok hj
    have hex : ∀ i, ∃ out, rs i = .ok out := by
      intro i
      have hi : rs i ∈ List.ofFn rs := List.mem_ofFn.mpr ⟨i, rfl⟩
      rw [hrs] at hi
      obtain ⟨out, -, hout⟩ := List.mem_map.mp hi
      exact ⟨out, hout.symm⟩
    choose o ho using hex
    have houts : outs = List.ofFn o := by
      refine List.map_injective_iff.mpr (fun a b hab => Except.ok.inj hab) (hrs.symm.trans ?_)
      rw [List.map_ofFn]
      exact congrArg List.ofFn (funext ho)
    have hall : ∀ i, hs i = 0 ∧ Live pay node [victims.get i] (o i) := fun i => by
      have hi := h i
      rw [ho i] at hi
      exact hi
    refine .inl ⟨outs.flatten, rfl, Finset.sum_eq_zero fun i _ => (hall i).1, ?_⟩
    refine Live.flatten ?_ hn
    rw [houts, List.forall₂_iff_get]
    refine ⟨by rw [List.length_ofFn], fun i h1 h2 => ?_⟩
    have := (hall ⟨i, h1⟩).2
    simpa using this

/-- The live records of the victims are copied; the old ones stay. -/
theorem gcCollect_copies (hE : ∀ r x e, ok r x → failed r x = some e → E e)
    (hv : ∀ x ∈ recsAt pay node, W.Visible 0 x) (pick : List Nat) :
    wp ((flat W).filter ok) (gcCollect node pick) 0
      (Or E fun items g' => Copied (· ∈ recsAt pay node) items g') := by
  refine fun victims hn _ => ?_
  show wp _ (if victims = [] then _ else _) _ _
  by_cases hnil : victims = []
  · rw [if_pos hnil]
    exact Copied.nil _
  rw [if_neg hnil]
  have hstart : (0 : Multiset Rec) = ∑ _i : Fin victims.length, 0 := Finset.sum_const_zero.symm
  rw [hstart]
  refine wp_bind (wp_fan (fun i => readRegion_live hE hv (victims.get i)) ?_)
  intro rs hs h
  obtain ⟨live, hj, h0, hlive⟩ | ⟨e, hj, he⟩ := joined_live hn h
  · rw [hj, h0]
    show wp _ (if live = [] then _ else _) _ _
    by_cases hl : live = []
    · rw [if_pos hl]
      exact Copied.nil _
    rw [if_neg hl]
    refine ⟨fun ptrs hlen _ => ?_, fun e he => hE _ _ e he rfl⟩
    rw [List.length_map] at hlen
    refine ⟨live.map Found.payload, ?_, ?_⟩
    · rw [List.forall₂_map_left_iff, List.forall₂_map_right_iff, List.forall₂_iff_get]
      refine ⟨by rw [List.length_zip, hlen, min_self], fun i h1 h2 => ?_⟩
      obtain ⟨path, root, -, hmem, hpl⟩ := hlive.found _ (live.get_mem ⟨i, h2⟩)
      simp only [List.get_eq_getElem, List.getElem_zip] at hmem hpl ⊢
      rw [hpl]
      exact leafRecs_mem hmem
    · rw [add_zero, List.map_map]
      show recsOf ptrs _ = recsOf ((live.zip ptrs).map Prod.snd) _
      rw [List.map_snd_zip hlen.le]
  · rw [hj]
    show Or E _ (.error e) _
    exact he

/-- A relocation is installed in its slot, or its copy is freed. -/
theorem installItem_moves {it : Reloc} {b : Bytes}
    (hb : ∀ x ∈ recsAt pay node, x.1 = it.old → x.2 = b) :
    wp ((flat W).filter ok) (installItem it node) (recsAt pay node + ((it.new, b) ::ₘ f))
      fun r g' => g' = recsAt pay r.1 + f ∧
        ((r.2 = true ∧ findDiskPtr node it.pfx = some it.old ∧
          ∃ path root, (path, .disk it.old root) ∈ leafSlots node [] ∧ path <+: it.pfx ∧
            r.1 = mapLeaves (setPtr path it.new) node []) ∨
        r.2 = false ∧ findDiskPtr node it.pfx ≠ some it.old ∧ r.1 = node) := by
  unfold installItem
  by_cases hf : findDiskPtr node it.pfx = some it.old
  · rw [if_pos hf]
    obtain ⟨path, root, hp, hmem, hins⟩ := installPtr_eq node [] it.pfx it.old it.new hf
    rw [List.nil_append] at hmem hins
    rw [hins]
    have hpay : pay path = b := hb (it.old, pay path) (leafRecs_mem hmem) rfl
    have hrecs := recsAt_setPtr it.new hmem pay (pay path)
    rw [Function.update_eq_self] at hrecs
    refine ⟨pay path, recsAt pay (mapLeaves (setPtr path it.new) node []) + f, ?_, fun _ =>
      ⟨rfl, .inl ⟨rfl, hf, path, root, hmem, hp, rfl⟩⟩⟩
    rw [← hpay, ← Multiset.singleton_add, ← Multiset.singleton_add, ← add_assoc, ← hrecs]
    abel
  · rw [if_neg hf]
    refine ⟨b, recsAt pay node + f, ?_, fun _ => ⟨rfl, .inr ⟨rfl, hf, rfl⟩⟩⟩
    rw [Multiset.add_cons]

/-- An installed batch moves records and nothing else; its copies end up in the
frontier or are freed. -/
theorem gcInstall_moves {items : List Reloc} {copies : Multiset Rec} {P : Rec → Prop}
    (hc : Copied P items copies)
    (hP : ∀ x ∈ recsAt pay node + copies, ∀ y, P y → x.1 = y.1 → x.2 = y.2) :
    wp ((flat W).filter ok) (gcInstall items node) (recsAt pay node + (copies + f)) fun r g' =>
      Moved pay node pay r.1 ∧ g' = recsAt pay r.1 + f ∧ r.2.1 + r.2.2 = items.length := by
  induction items generalizing node copies with
  | nil =>
    obtain ⟨bs, hbs, rfl⟩ := hc
    exact ⟨Moved.refl pay _, by rw [show recsOf ([].map Reloc.new) bs = 0 from rfl, zero_add], rfl⟩
  | cons it items ih =>
    obtain ⟨b, copies', hold, rfl, hc'⟩ := hc.cons
    rw [Multiset.cons_add]
    refine wp_bind (wp_mono (installItem_moves fun x hx he => hP x
      (Multiset.mem_add.mpr (.inl hx)) _ hold he) ?_)
    rintro ⟨node1, inst⟩ g1 ⟨hg1, hcase⟩
    rw [hg1]
    -- the frontier's records and the copies left are among those before
    have hstep : Moved pay node pay node1 ∧ recsAt pay node1 ≤ recsAt pay node + {(it.new, b)} := by
      obtain ⟨-, -, path, root, hmem, -, rfl⟩ | ⟨-, -, rfl⟩ := hcase
      · have hrecs := recsAt_setPtr it.new hmem pay (pay path)
        rw [Function.update_eq_self] at hrecs
        have hpay : pay path = b := hP (it.old, pay path)
          (Multiset.mem_add.mpr (.inl (leafRecs_mem hmem))) _ hold rfl
        refine ⟨Moved.setPtrs pay node [(path, it.new)], ?_⟩
        rw [← hpay, ← hrecs]
        exact Multiset.le_add_right _ _
      · exact ⟨Moved.refl pay _, Multiset.le_add_right _ _⟩
    have hP' : ∀ x ∈ recsAt pay node1 + copies', ∀ y, P y → x.1 = y.1 → x.2 = y.2 := by
      intro x hx
      refine hP x ?_
      rcases Multiset.mem_add.mp hx with hx | hx
      · rcases Multiset.mem_add.mp (Multiset.mem_of_le hstep.2 hx) with hx | hx
        · exact Multiset.mem_add.mpr (.inl hx)
        · rw [Multiset.mem_singleton.mp hx]
          exact Multiset.mem_add.mpr (.inr (Multiset.mem_cons_self ..))
      · exact Multiset.mem_add.mpr (.inr (Multiset.mem_cons_of_mem hx))
    refine wp_bind (wp_mono (ih hc' hP') ?_)
    rintro ⟨node2, installed, discarded⟩ g2 ⟨hm, hg2, hcount⟩
    have hmoved := hstep.1.trans hm
    cases inst with
    | true =>
      refine ⟨hmoved, hg2, ?_⟩
      show installed + 1 + discarded = items.length + 1
      have hcount : installed + discarded = items.length := hcount
      omega
    | false =>
      refine ⟨hmoved, hg2, ?_⟩
      show installed + (discarded + 1) = items.length + 1
      have hcount : installed + discarded = items.length := hcount
      omega

end

end FlatMpt
