import Mathlib.Data.List.GetD
import FlatMpt.Answers
import FlatMpt.LazyRound
import FlatMpt.Replay

/-!
# New records

A value inserted into a vacant slot of the root branch becomes one record.  A record
that does not fit the head is placed at the start of a reclaimed region.

    leafPayload               -- the bytes of the record
    writePayload_reclaimed    -- where it goes
    insert_vacant             -- the call
-/

namespace FlatMpt

open Prog

section
variable [Keccak]

/-- The record of a single leaf below `[idx]`. -/
def leafPayload (idx : Nibble) (path : List Nibble) (value : Bytes) : Bytes :=
  1 :: packByte idx 0 :: 1 :: UInt8.ofNat path.length :: (packPath path ++
    (leBytes 4 value.length ++ (value ++ writeRef (leafRef path value))))

theorem serialize_leaf (idx : Nibble) {path : List Nibble} (value : Bytes) (hp : path.length ≤ 255) :
    serializeSubtree ⟨[idx], leafNode path value⟩ = .ok (leafPayload idx path value) := by
  have hpath : writeNibblePath path = .ok (UInt8.ofNat path.length :: packPath path) :=
    if_neg (by omega)
  show (do
    let p ← writeNibblePath [idx]
    let n ← writeNode (.leaf path value (leafRef path value))
    return p ++ n) = _
  rw [writeNode, hpath]
  rfl

theorem refSize_mkRef (rlp : Bytes) : 1 ≤ refSize (mkRef rlp) ∧ refSize (mkRef rlp) ≤ 33 := by
  unfold mkRef
  split
  · show 1 ≤ 1 + (1 + rlp.length) ∧ 1 + (1 + rlp.length) ≤ 33
    omega
  · show 1 ≤ 1 + 32 ∧ 1 + 32 ≤ 33
    omega

/-- The length of the record, up to the reference. -/
theorem leafPayload_length (idx : Nibble) (path : List Nibble) (value : Bytes) :
    8 + (packPath path).length + value.length < (leafPayload idx path value).length ∧
      (leafPayload idx path value).length ≤ 41 + (packPath path).length + value.length := by
  have href := refSize_mkRef (leafRlp path value)
  have hw : (writeRef (leafRef path value)).length = refSize (mkRef (leafRlp path value)) :=
    Lazy.writeRef_length _
  simp only [leafPayload, List.length_cons, List.length_append, leBytes_length, hw]
  omega

end

/-! ## Placement -/

/-- A byte of a record written at the start of the file. -/
theorem overwrite_frame (file : Nat → UInt8) (payload pad : Bytes) {i : Nat} (hi : i < payload.length) :
    overwrite file 0 (frame payload ++ pad) (RECORD_HDR + i) = payload.getD i 0 := by
  obtain ⟨more, hframe⟩ := frame_eq payload
  have hbytes : frame payload ++ pad = leBytes 4 payload.length ++ (payload ++ (more ++ pad)) := by
    rw [hframe, List.append_assoc, List.append_assoc]
  have hhdr : (leBytes 4 payload.length).length = RECORD_HDR := leBytes_length _ _
  have hlen : RECORD_HDR + i < (frame payload ++ pad).length := by
    rw [hbytes, List.length_append, List.length_append, hhdr]
    omega
  unfold overwrite
  rw [if_pos ⟨Nat.zero_le _, by omega⟩, Nat.sub_zero, hbytes,
    List.getD_append_right _ _ _ _ (by omega), hhdr, Nat.add_sub_cancel_left,
    List.getD_append _ _ _ _ hi]

/-- A record that the head has no room for opens the reclaimed region. -/
theorem writePayload_reclaimed {s : Store} {payload : Bytes} {r : Nat} {rest : List Nat}
    (hfaults : s.faults = []) (hdirect : s.direct = false) (hfree : s.seg.freeRegions = r :: rest)
    (hfull : s.seg.headRegion * REGION_UNITS + REGION_UNITS <
      s.seg.nextUnit + unitsFor (RECORD_HDR + payload.length))
    (hmax : payload.length ≤ MAX_RECORD_BYTES) (haddr : (r + 1) * REGION_UNITS ≤ U32_MAX) :
    (s.writePayload payload).1 = .ok ⟨r * REGION_UNITS, payload.length⟩ ∧
      (s.writePayload payload).2.readAhead = s.readAhead ∧
      ∃ pad, (s.writePayload payload).2.file =
        overwrite s.file (r * REGION_UNITS * ADDR_UNIT) (frame payload ++ pad) := by
  have hunits : unitsFor (RECORD_HDR + payload.length) ≤ REGION_UNITS := by
    simp only [MAX_RECORD_BYTES, REGION_BYTES, REGION_PAGES, PAGE, RECORD_HDR] at hmax
    simp only [unitsFor, RECORD_HDR, ADDR_UNIT, REGION_UNITS, REGION_PAGES, UNITS_PER_PAGE, PAGE]
    omega
  have halign : s.alignUnits = 1 := by
    unfold Store.alignUnits
    rw [hdirect]
    rfl
  have hlive : runLive [payload] = unitsFor (RECORD_HDR + payload.length) := Nat.add_zero _
  have hpad : s.paddedUnits (runLive [payload]) = unitsFor (RECORD_HDR + payload.length) := by
    unfold Store.paddedUnits
    rw [halign, hlive]
    omega
  have hroom : s.seg.withRoom (unitsFor (RECORD_HDR + payload.length)) s.endPage =
      s.seg.openNewHead s.endPage := if_pos (.inr hfull)
  obtain ⟨seg, endPage, halloc⟩ : ∃ seg endPage, s.seg.alloc (s.paddedUnits (runLive [payload]))
      (runLive [payload]) s.endPage = .ok (r * REGION_UNITS, seg, endPage) := by
    unfold RegionAlloc.alloc
    rw [hpad, if_neg (by omega), hroom]
    dsimp only
    unfold RegionAlloc.openNewHead RegionAlloc.nextHead
    rw [hfree]
    exact ⟨_, _, rfl⟩
  have hrun : s.allocRun [payload] true = (.ok (r * REGION_UNITS), { s with seg, endPage }) := by
    unfold Store.allocRun
    dsimp only
    rw [halloc]
    dsimp only
    rw [if_neg]
    simp only [if_true, hlive]
    have hstep : (r + 1) * REGION_UNITS = r * REGION_UNITS + REGION_UNITS := Nat.succ_mul _ _
    omega
  have hwrite : ∀ off bytes, Store.pwrite { s with seg, endPage } off bytes =
      (.ok (), { s with
        seg, endPage, file := overwrite s.file off bytes
        unsynced := (off, bytes.length) :: s.unsynced }) := by
    intro off bytes
    unfold Store.pwrite Store.fault
    simp only [hfaults]
    rfl
  have hpayload : s.writePayload payload = (.ok ⟨r * REGION_UNITS, payload.length⟩,
      { s with
        seg, endPage
        file := overwrite s.file (r * REGION_UNITS * ADDR_UNIT) (s.runBytes [payload])
        unsynced := (r * REGION_UNITS * ADDR_UNIT, (s.runBytes [payload]).length) :: s.unsynced }) := by
    unfold Store.writePayload Store.writeRun
    rw [if_neg (by omega), hrun]
    dsimp only
    rw [hwrite]
    rfl
  rw [hpayload]
  refine ⟨rfl, rfl, List.replicate (s.paddedUnits (runLive [payload]) * ADDR_UNIT -
    (frame payload).length) 0, ?_⟩
  show overwrite s.file _ (s.runBytes [payload]) = _
  unfold Store.runBytes
  rw [List.flatMap_cons, List.flatMap_nil, List.append_nil]

/-! ## The call -/

section
variable [Keccak] {env : Env} {children : Nibble → RamSlot} {hash : Option Hash} {key : Key}
  {value payload : Bytes} {idx : Nibble}

/-- How an insert into a vacant slot ends, by what becomes of its record. -/
def vacantEnd (children : Nibble → RamSlot) (idx : Nibble) (root : Hash) :
    Except Err DiskPtr → Db × Except Err Reply
  | .ok ptr =>
    let upper : RamNode := .branch (Function.update children idx (.disk ptr root)) none
    (⟨fillRam upper, false⟩, .ok (.root (hashRam upper)))
  | .error e => (⟨.branch (Function.update children idx .none) none, false⟩, .error e)

/-- An insert into a vacant slot of the root branch writes one record. -/
theorem insert_vacant (hhot : env.hot = false) (hidx : (keyNibbles key)[0]? = some idx)
    (hnone : children idx = .none)
    (hser : serializeSubtree ⟨[idx], leafNode ((keyNibbles key).drop 1) value⟩ = .ok payload) :
    callProg env ⟨.branch children hash, false⟩ (.insert key (.value value)) =
      .step (.writePayload payload) fun x => .pure (vacantEnd children idx
        (hashNode (leafNode ((keyNibbles key).drop 1) value)).finalize x) := by
  have hleaf : makeLeafChild env false ⟨[idx], leafNode ((keyNibbles key).drop 1) value⟩ =
      makeDiskLeaf ⟨[idx], leafNode ((keyNibbles key).drop 1) value⟩ := by
    unfold makeLeafChild
    rw [hhot]
    rfl
  have hplace : placeLeaf env false [idx] key (.value value) =
      makeDiskLeaf ⟨[idx], leafNode ((keyNibbles key).drop 1) value⟩ := hleaf
  have hprog : insertRam env (.branch children hash) [] key (.value value) false =
      thenUpd (attempt (makeDiskLeaf ⟨[idx], leafNode ((keyNibbles key).drop 1) value⟩)
        (fun e => (RamSlot.none, .error e)) fun leaf => .pure (leaf, .ok ())) fun slot r =>
          .pure (.branch (Function.update children idx slot) none, r) := by
    rw [insertRam, if_neg (by decide)]
    have hwalk : (keyNibbles key)[walkDepth []]? = some idx := hidx
    rw [hwalk]
    dsimp only
    rw [hnone, insertIntoChild, List.nil_append, hplace]
  show replyRoot false (insertRam env (.branch children hash) [] key (.value value) false) = _
  rw [hprog]
  unfold replyRoot
  unfold makeDiskLeaf encode
  rw [hser]
  refine congrArg (Prog.step _) (funext fun x => ?_)
  cases x <;> rfl

/-- Such an insert succeeds if the record is written. -/
theorem insert_vacant_call {σ : Sys} {ptr : DiskPtr} (hhot : env.hot = false)
    (hdb : σ.db = ⟨.branch children hash, false⟩) (hidx : (keyNibbles key)[0]? = some idx)
    (hnone : children idx = .none)
    (hser : serializeSubtree ⟨[idx], leafNode ((keyNibbles key).drop 1) value⟩ = .ok payload)
    (hmax : payload.length ≤ MAX_RECORD_BYTES) (hw : (σ.store.writePayload payload).1 = .ok ptr) :
    σ.replay env (.insert key (.value value)) = true ∧
      (σ.call env (.insert key (.value value))).store = (σ.store.writePayload payload).2 ∧
      (σ.call env (.insert key (.value value))).db =
        ⟨fillRam (.branch (Function.update children idx (.disk ptr
          (hashNode (leafNode ((keyNibbles key).drop 1) value)).finalize)) none), false⟩ := by
  have hprog := @insert_vacant _ env children hash key value payload idx hhot hidx hnone hser
  have hexec : exec (.writePayload payload) σ.store = (.ok ptr, (σ.store.writePayload payload).2) :=
    Prod.ext hw rfl
  have hrun : run exec (callProg env σ.db (.insert key (.value value))) σ.store =
      (vacantEnd children idx (hashNode (leafNode ((keyNibbles key).drop 1) value)).finalize
        (.ok ptr), (σ.store.writePayload payload).2) := by
    rw [hdb, hprog, run, hexec]
    rfl
  have hideal : ideal (.writePayload payload) = .ok (named payload) := if_neg (by omega)
  have hsucc : succeeds (.writePayload payload) (exec (.writePayload payload) σ.store).1 = true := by
    rw [succeeds_iff]
    refine ⟨?_, ?_⟩
    · rw [hexec]
      rfl
    · rw [hideal]
      rfl
  refine ⟨?_, ?_, ?_⟩
  · unfold Sys.replay
    rw [hrun, hdb, hprog]
    show (true && (checks exec succeeds (.step (.writePayload payload) _) σ.store && true)) = true
    rw [checks, hsucc]
    rfl
  · unfold Sys.call
    rw [hrun]
    rfl
  · unfold Sys.call
    rw [hrun]
    rfl

end

end FlatMpt
