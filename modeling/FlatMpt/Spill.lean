import FlatMpt.Lib.Trace
import FlatMpt.Steady

/-!
# Complete spills

A spill ends well unless a picked record is too large for a region.  Then every
picked record is on disk where its slot points, was written once, and nothing that
the frontier holds has changed.

    recordsWritten     -- what the writes of a run put on disk
    Spilled            -- a spill that ended well
    spill_complete_iff
    spill_fails        -- a value inserted in RAM, and too large for the file
-/

namespace FlatMpt

open Prog

/-! ## Writes -/

/-- The records that an answered write has put on disk. -/
def recordsWritten : (r : Req) → Resp r → List Bytes
  | .writePayload payload, .ok _ => [payload]
  | .writeBatch payloads, .ok _ => payloads
  | .writeBatchParallel payloads, .ok _ => payloads
  | _, _ => []

/-- Spills ask for batches only. -/
def Req.isBatch : Req → Prop
  | .writeBatch _ => True
  | _ => False

theorem WritesBatches.only {L : Logic Resp (Multiset Rec)} {B : Bytes → Prop} {E : Err → Prop}
    (hL : WritesBatches L B E) : WritesBatches (L.only Req.isBatch) B E :=
  fun payloads g K hB herr hok => ⟨trivial, hL payloads g K hB herr hok⟩

theorem tooLarge_none {payloads : List Bytes} :
    Store.tooLarge payloads = none ↔ ∀ b ∈ payloads, b.length ≤ MAX_RECORD_BYTES := by
  unfold Store.tooLarge
  simp only [List.find?_eq_none, decide_eq_true_eq, not_lt]

theorem allowed_batch {payloads : List Bytes} {x : Except Err (List DiskPtr)}
    (h : Allowed False (.writeBatch payloads) x) :
    (∃ ptrs, x = .ok ptrs) ↔ ∀ b ∈ payloads, b.length ≤ MAX_RECORD_BYTES := by
  rw [← tooLarge_none]
  have hideal : failed (.writeBatch payloads) (ideal (.writeBatch payloads)) = none ↔
      Store.tooLarge payloads = none := by
    cases ht : Store.tooLarge payloads with
    | none =>
      rw [ideal_writeBatch ht]
      exact ⟨fun _ => rfl, fun _ => rfl⟩
    | some p =>
      rw [ideal_writeBatch_large ht]
      exact ⟨(fun h => by cases h), fun h => by cases h⟩
  rw [← hideal]
  cases x with
  | ok ptrs => exact ⟨fun _ => h.1 rfl, fun _ => ⟨ptrs, rfl⟩⟩
  | error e =>
    refine ⟨(fun ⟨_, h⟩ => by cases h), fun hn => ?_⟩
    have := (h.2 e rfl).resolve_left id
    rw [hn] at this
    cases this

/-- Batches of records that fit are written. -/
theorem small_writesBatches {W : Holds} :
    WritesBatches ((flat W).filter (Allowed False)) (·.length ≤ MAX_RECORD_BYTES) fun _ => False := by
  intro payloads g K hB _ hok
  refine ⟨fun ptrs hlen _ => hok ptrs hlen, fun e he => ?_⟩
  obtain ⟨ptrs, h⟩ := (allowed_batch he).mpr hB
  cases h

/-- The log of the writes: `base` and the records written are those owned, and they fit. -/
def OnRecord (base : Multiset Bytes) (written : List Bytes) (g : Multiset Rec) : Prop :=
  g.map Prod.snd = base + written ∧ ∀ b ∈ written, b.length ≤ MAX_RECORD_BYTES

theorem map_snd_recsOf {ptrs : List DiskPtr} {payloads : List Bytes}
    (h : ptrs.length = payloads.length) : (recsOf ptrs payloads).map Prod.snd = payloads := by
  unfold recsOf
  rw [Multiset.map_coe, List.map_snd_zip h.ge]

theorem batches_logged {W : Holds} {base : Multiset Bytes} (r : Req) (g : Multiset Rec)
    (K : Resp r → Multiset Rec → Prop)
    (h : (((flat W).filter (Allowed False)).only Req.isBatch).rule r g K) :
    (((flat W).filter (Allowed False)).only Req.isBatch).rule r g fun x g' => K x g' ∧
      ∀ written f, OnRecord base written (g + f) → Allowed False r x →
        OnRecord base (written ++ recordsWritten r x) (g' + f) := by
  cases r with
  | writeBatch payloads =>
    obtain ⟨hr, hok, herr⟩ := h
    refine ⟨hr, fun ptrs hlen hx => ⟨hok ptrs hlen hx, fun written f hlog _ => ⟨?_, fun b hb => ?_⟩⟩,
      fun e hx => ⟨herr e hx, fun written f hlog _ => ?_⟩⟩
    · show (recsOf ptrs payloads + g + f).map Prod.snd = base + (written ++ payloads : List Bytes)
      rw [add_assoc, Multiset.map_add, map_snd_recsOf hlen, hlog.1, ← Multiset.coe_add]
      abel
    · rcases List.mem_append.mp hb with hb | hb
      · exact hlog.2 b hb
      · exact (allowed_batch hx).mp ⟨ptrs, rfl⟩ b hb
    · show OnRecord base (written ++ []) (g + f)
      rw [List.append_nil]
      exact hlog
  | _ => exact h.1.elim

/-! ## Complete spills -/

/-- The picked records moved to their places. -/
def spillTo (pick : List Nibble → Bool) (place : List Nibble → DiskPtr) (p : List Nibble) :
    RamSlot → RamSlot
  | .mem bytes root => if pick p then .disk (place p) root else .mem bytes root
  | s => s

section
variable [Keccak]

/-- The RAM records in picked slots of `n` moved to disk: their slots point to their
bytes, other slots and the caches are as before. -/
structure Spilled (pick : List Nibble → Bool) (n : RamNode) (s : Store) (n' : RamNode) (s' : Store)
    (written : List Bytes) : Prop where
  moved : ∃ place, n' = mapLeaves (spillTo pick place) n [] ∧
    ∀ p bytes root, pick p = true → (p, .mem bytes root) ∈ leafSlots n [] →
      (place p).len = bytes.length ∧
        recordBytes s'.file (place p) = leBytes 4 bytes.length ++ bytes
  left : ∀ e ∈ leafSlots n' [], pick e.1 = true → ∃ ptr root, e.2 = .disk ptr root
  once : written.Perm ((evicted pick (leafSlots n [])).map Prod.snd)
  kept : ∀ p ∈ diskPtrs n, recordBytes s'.file p = recordBytes s.file p
  same : SameState s n s' n'

omit [Keccak] in
theorem spillTo_keeps (pick : List Nibble → Bool) (place : List Nibble → DiskPtr) :
    KeepsLeaves (spillTo pick place) := by
  intro p s hs
  cases s with
  | mem bytes root =>
    simp only [spillTo]
    split <;> rfl
  | disk ptr root => rfl
  | none => cases hs
  | ram node => cases hs
  | account path nonce balance codeHash storage => cases hs

omit [Keccak] in
theorem lookup_of_nodup {gone : List (List Nibble × Bytes)} (hn : (gone.map Prod.fst).Nodup)
    {a : List Nibble × Bytes} (ha : a ∈ gone) : gone.lookup a.1 = some a.2 := by
  induction gone with
  | nil => cases ha
  | cons b gone ih =>
    obtain ⟨q, bytes⟩ := b
    rw [List.map_cons, List.nodup_cons] at hn
    rw [List.lookup_cons]
    rcases List.mem_cons.mp ha with rfl | ha
    · rw [beq_self_eq_true]
    · have hne : (a.1 == q) = false := by
        rw [beq_eq_false_iff_ne]
        intro hq
        exact hn.1 (List.mem_map.mpr ⟨a, ha, hq⟩)
      rw [hne]
      exact ih hn.2 ha

section
variable {n n' : RamNode} {s s' : Store} {gone : List (List Nibble × Bytes)} {ptrs : List DiskPtr}
  {pick : List Nibble → Bool} {pay : List Nibble → Bytes} {W : Holds} {tight : Prop}
  {f : Multiset Rec} {written : List Bytes}

omit [Keccak] in
/-- The slots that a spill turned into disk slots. -/
theorem toDisk_eq_spillTo (hlen : ptrs.length = gone.length)
    (hgone : ∀ a, a ∈ gone ↔ a ∈ evicted pick (leafSlots n [])) :
    mapLeaves (toDisk ((gone.map Prod.fst).zip ptrs)) n [] =
      mapLeaves (spillTo pick fun p => (((gone.map Prod.fst).zip ptrs).lookup p).getD ⟨0, 0⟩) n [] := by
  have hlen' : ptrs.length = (gone.map Prod.fst).length := by rw [hlen, List.length_map]
  refine mapLeaves_congr n [] fun e he => ?_
  obtain ⟨p, slot⟩ := e
  cases slot with
  | mem bytes root =>
    simp only [toDisk, spillTo]
    by_cases hp : pick p = true
    · have hmem : p ∈ gone.map Prod.fst :=
        List.mem_map.mpr ⟨(p, bytes), (hgone _).mpr (mem_evicted.mpr ⟨hp, root, he⟩), rfl⟩
      obtain ⟨ptr, hl⟩ := Option.isSome_iff_exists.mp ((lookup_zip_isSome hlen' p).mpr hmem)
      rw [if_pos hp, hl]
      rfl
    · have hl : ((gone.map Prod.fst).zip ptrs).lookup p = none := by
        rw [← Option.not_isSome_iff_eq_none, lookup_zip_isSome hlen']
        intro hm
        obtain ⟨a, ha, rfl⟩ := List.mem_map.mp hm
        exact hp (mem_evicted.mp ((hgone a).mp ha)).1
      rw [if_neg hp, hl]
  | _ => rfl

theorem Spilled.of_upkept (hI : Upkept W tight s (recsAt pay n + f))
    (hI' : Upkept W tight s' (recsAt (payWith gone pay) n' + f)) (hn : (gone.map Prod.fst).Nodup)
    (hlen : ptrs.length = gone.length)
    (hgone : ∀ a, a ∈ gone ↔ a ∈ evicted pick (leafSlots n []))
    (hn' : n' = mapLeaves (toDisk ((gone.map Prod.fst).zip ptrs)) n [])
    (hlog : OnRecord ((recsAt pay n + f).map Prod.snd) written (recsAt (payWith gone pay) n' + f)) :
    Spilled pick n s n' s' written := by
  have hmem : ∀ a ∈ gone, ∃ root, (a.1, .mem a.2 root) ∈ leafSlots n [] :=
    fun a ha => (mem_evicted.mp ((hgone a).mp ha)).2
  have hspill := hn'.trans (toDisk_eq_spillTo hlen hgone)
  have hstored : ∀ x ∈ recsAt pay n, Stored s x := fun x hx =>
    hI.store.stored x (Multiset.mem_add.mpr (.inl hx))
  have hstored' : ∀ x ∈ recsAt (payWith gone pay) n', Stored s' x := fun x hx =>
    hI'.store.stored x (Multiset.mem_add.mpr (.inl hx))
  have hrecs : recsAt (payWith gone pay) n' = recsOf ptrs (gone.map Prod.snd) + recsAt pay n := by
    rw [hn']
    exact recsAt_toDisk hlen pay n hn hmem
  refine ⟨⟨_, hspill, fun p bytes root hp hm => ?_⟩, fun e hm hp => ?_, ?_, fun p hp => ?_, ?_⟩
  · have ha : (p, bytes) ∈ gone := (hgone _).mpr (mem_evicted.mpr ⟨hp, root, hm⟩)
    have hslot : (p, .disk ((((gone.map Prod.fst).zip ptrs).lookup p).getD ⟨0, 0⟩) root) ∈
        leafSlots n' [] := by
      rw [hspill, leafSlots_mapLeaves (spillTo_keeps _ _)]
      refine List.mem_map.mpr ⟨_, hm, ?_⟩
      simp only [spillTo, if_pos hp]
    have hx := hstored' _ (leafRecs_mem hslot)
    have hpay : payWith gone pay p = bytes := by
      unfold payWith
      rw [lookup_of_nodup hn ha]
      rfl
    rw [hpay] at hx
    have hl : (DiskPtr.len _) = bytes.length := hx.len
    exact ⟨hl, by rw [← hl]; exact hx.recordBytes_eq⟩
  · rw [hspill, leafSlots_mapLeaves (spillTo_keeps _ _)] at hm
    obtain ⟨⟨q, slot⟩, he, rfl⟩ := List.mem_map.mp hm
    cases slot with
    | mem b root =>
      simp only [spillTo] at hp ⊢
      rw [if_pos hp]
      exact ⟨_, _, rfl⟩
    | disk ptr root => exact ⟨ptr, root, rfl⟩
    | none => cases (leafSlots_under n [] _ he).2
    | ram node => cases (leafSlots_under n [] _ he).2
    | account path nonce balance codeHash storage => cases (leafSlots_under n [] _ he).2
  · have hperm : gone.Perm (evicted pick (leafSlots n [])) :=
      (List.perm_ext_iff_of_nodup (List.Nodup.of_map _ hn) (List.Nodup.of_map _
        ((leafSlots_nodup n []).sublist (evicted_fst_sublist pick _)))).mpr hgone
    have heq := hlog.1
    rw [hrecs, add_assoc, Multiset.map_add, add_comm, map_snd_recsOf (by rw [hlen, List.length_map])]
      at heq
    exact (Multiset.coe_eq_coe.mp (add_left_cancel heq).symm).trans (hperm.map _)
  · obtain ⟨b, hx⟩ := exists_recAt pay hp
    have hx' : (p, b) ∈ recsAt (payWith gone pay) n' := by
      rw [hrecs]
      exact Multiset.mem_add.mpr (.inr hx)
    exact (hstored' _ hx').recordBytes_eq.trans (hstored _ hx).recordBytes_eq.symm
  · have hmoved := Moved.of_spill hlen pay n hmem
    rw [← hn'] at hmoved
    exact sameState_of_loaded (hmoved.loaded
      (fun x hx => (hI.store.payload (.inl (Multiset.mem_add.mpr (.inl hx)))).1)
      fun x hx => (hI'.store.payload (.inl (Multiset.mem_add.mpr (.inl hx)))).1)

/-- A spill over a store that keeps the frontier's records. -/
theorem spill_run {B : Bytes → Prop} {E : Err → Prop}
    (hL : WritesBatches ((flat ⟨[], []⟩).filter (Allowed False)) B E)
    (passes : List (List Nibble → Bool))
    (hB : ∀ e ∈ evicted (picked passes) (leafSlots n []), B e.2)
    (hI : Upkept W tight s (recsAt pay n + f)) {r : Except Err Unit}
    (hx : Exec (noted exec recordsWritten) (Allowed False) (s, []) (spillQuota passes n) (n', r)
      (s', written)) :
    (∃ e, r = .error e ∧ E e) ∨ r = .ok () ∧ Spilled (picked passes) n s n' s' written ∧
      ∀ b ∈ written, b.length ≤ MAX_RECORD_BYTES := by
  have hflat : (flat ⟨[], []⟩).Sound exec (Allowed False) (Upkept W tight) :=
    flat_upkept (fun e he => absurd he List.not_mem_nil) fun _ => allowed_exact
  have hsound := (hflat.filter.only Req.isBatch).noted
    fun r g K => @batches_logged _ ((recsAt pay n + f).map Prod.snd) r g K
  have hstart : OnRecord ((recsAt pay n + f).map Prod.snd) [] (recsAt pay n + f + 0) :=
    ⟨by rw [add_zero]; exact (add_zero _).symm, nofun⟩
  obtain ⟨g', hpost, hI', hlog⟩ := hsound.finish hx (f := 0) ⟨by rw [add_zero]; exact hI, hstart⟩
    (spillQuota_writes hL.only passes n pay f hB)
  cases r with
  | error e => exact .inl ⟨e, rfl, hpost⟩
  | ok u =>
    obtain ⟨gone, ptrs, hn, hlen, hgone, hn', rfl⟩ := hpost
    rw [add_zero] at hI' hlog
    exact .inr ⟨rfl, .of_upkept hI hI' hn hlen hgone hn' hlog, hlog.2⟩

end

/-! ## Runs -/

mutual

theorem leafSlots_fillRam (n : RamNode) (pfx : List Nibble) :
    leafSlots (fillRam n) pfx = leafSlots n pfx := by
  match n with
  | .empty => rfl
  | .extension path child none => exact leafSlots_fillRam child (pfx ++ path)
  | .extension path child (some h) => rfl
  | .branch children none =>
    rw [fillRam, leafSlots, leafSlots]
    exact List.flatMap_congr fun i _ => leafSlots_fillSlot (children i) (pfx ++ [i])
  | .branch children (some h) => rfl

theorem leafSlots_fillSlot (slot : RamSlot) (pfx : List Nibble) :
    leafSlotsIn (fillSlot slot) pfx = leafSlotsIn slot pfx := by
  match slot with
  | .none => rfl
  | .ram node => exact leafSlots_fillRam node pfx
  | .disk ptr root => rfl
  | .account path nonce balance codeHash storage => exact leafSlots_fillRam storage (pfx ++ path)
  | .mem bytes root => rfl

end

/-- **Spills are complete.**  In a steady run, a spill of the frontier, also of one whose
caches are not yet filled, moves what it picks to disk and keeps the rest, if and only
if no picked record is too large for a region. -/
theorem spill_complete_iff {env : Env} {ramMode direct : Bool} {faults : List Bool} {σ : Sys}
    (h : SteadyRun env (.create ramMode direct faults) σ) (hidle : σ.running = none)
    {n n' : RamNode} (hn : n = σ.db.upper ∨ fillRam n = σ.db.upper)
    (passes : List (List Nibble → Bool)) {r : Except Err Unit} {s' : Store} {written : List Bytes}
    (hx : Exec (noted exec recordsWritten) (Allowed False) (σ.store, []) (spillQuota passes n) (n', r)
      (s', written)) :
    r = .ok () ∧ Spilled (picked passes) n σ.store n' s' written ↔
      ∀ e ∈ evicted (picked passes) (leafSlots n []), e.2.length ≤ MAX_RECORD_BYTES := by
  obtain ⟨pay, saved, sh, hI⟩ := steadyInv_of_run h
  obtain ⟨p, rest, hw, -⟩ := hI.fronted hidle
  have hleaves : leafSlots σ.db.upper [] = leafSlots n [] := by
    rcases hn with rfl | hn
    · rfl
    · rw [← hn, leafSlots_fillRam]
  have hrecs : recsAt p σ.db.upper = recsAt p n := congrArg (leafRecs p) hleaves
  have hu := hI.store.upkept
  rw [Shares.total, hw, hrecs, add_assoc] at hu
  constructor
  · rintro ⟨rfl, hs⟩ e he
    obtain ⟨e', h', -⟩ | ⟨-, -, hsmall⟩ := spill_run
      (flat_writesBatches (E := fun _ => True) fun _ _ _ _ _ => trivial) passes
      (fun _ _ => trivial) hu hx
    · cases h'
    · exact hsmall _ (hs.once.symm.subset (List.mem_map_of_mem he))
  · intro hsmall
    obtain ⟨e, -, h'⟩ | ⟨hr, hs, -⟩ := spill_run small_writesBatches passes hsmall hu hx
    · exact h'.elim
    · exact ⟨hr, hs⟩

end

/-! ## Records too large -/

/-- A RAM-build database with one value. -/
@[irreducible] def builtDb [Keccak] : Sys :=
  (Sys.create true false []).call staleEnv (.insert (.fill 0x10) (.value [1]))

/-- The value is spilled. -/
theorem spill_complete_built :
    let _ : Keccak := flatHash
    let x := run (noted exec recordsWritten) (spillMem builtDb.db.upper) (builtDb.store, [])
    x.1.2 = .ok () ∧
      Spilled (picked [fun _ => true]) builtDb.db.upper builtDb.store x.1.1 x.2.1 x.2.2 := by
  intro _
  have hrun : SteadyRun staleEnv (.create true false []) builtDb := by
    unfold builtDb
    exact .of_steady (Sys.call_steady rfl rfl (by decide +kernel))
  have hidle : builtDb.running = none := by
    unfold builtDb
    exact Sys.call_running _ _
  have hx := (@exec_run_of_checks _ _ _ _ (noted exec recordsWritten) succeeds (spillMem builtDb.db.upper) (builtDb.store, []) (by decide +kernel)).mono fun r x hx =>
      ((succeeds_iff r x).mp hx).allowed False
  have hsmall : ((evicted (picked [fun _ => true]) (leafSlots builtDb.db.upper [])).all
      fun e => decide (e.2.length ≤ MAX_RECORD_BYTES)) = true := by decide +kernel
  exact (spill_complete_iff hrun hidle (.inl rfl) [fun _ => true] hx).mpr fun e he =>
    of_decide_eq_true (List.all_eq_true.mp hsmall e he)

section
variable [Keccak]

/-- In RAM-build mode the first value becomes a record in RAM, of any size. -/
theorem insert_empty_ram {env : Env} {key : Key} {value payload : Bytes} {idx : Nibble}
    (hidx : (keyNibbles key)[0]? = some idx)
    (hser : serializeSubtree ⟨[idx], leafNode ((keyNibbles key).drop 1) value⟩ = .ok payload) :
    callProg env ⟨.empty, true⟩ (.insert key (.value value)) =
      let upper : RamNode := .branch (Function.update emptyChildren idx
        (.mem payload (hashNode (leafNode ((keyNibbles key).drop 1) value)).finalize)) none
      .pure (⟨fillRam upper, true⟩, .ok (.root (hashRam upper))) := by
  have hplace : placeLeaf env true [idx] key (.value value) =
      makeMemLeaf ⟨[idx], leafNode ((keyNibbles key).drop 1) value⟩ := rfl
  have hprog : insertRam env .empty [] key (.value value) true =
      attempt (makeMemLeaf ⟨[idx], leafNode ((keyNibbles key).drop 1) value⟩)
        (fun e => (.empty, .error e)) fun leaf =>
          .pure (.branch (Function.update emptyChildren idx leaf) none, .ok ()) := by
    rw [insertRam]
    have hwalk : (keyNibbles key)[walkDepth []]? = some idx := hidx
    rw [hwalk]
    dsimp only
    rw [List.nil_append, hplace]
  show replyRoot true (insertRam env .empty [] key (.value value) true) = _
  rw [hprog]
  unfold makeMemLeaf encode
  rw [hser]
  rfl

/-- The spill of a lone record asks for one batch; if that fails, a placeholder stays. -/
theorem spillMem_lone (payload : Bytes) (root : Hash) :
    ∃ k, spillMem (fillRam (.branch (Function.update emptyChildren 3 (.mem payload root)) none)) =
      .step (.writeBatch [payload]) k ∧
    ∀ e, ∃ n', k (.error e) = .pure (n', .error e) ∧
      leafSlots n' [] = [([3], .disk ⟨0, payload.length⟩ root)] :=
  ⟨_, rfl, fun _ => ⟨_, rfl, rfl⟩⟩

/-- The database with that value. -/
def Sys.built (payload : Bytes) (root : Hash) : Sys :=
  { Sys.create true false [] with
    db := ⟨fillRam (.branch (Function.update emptyChildren 3 (.mem payload root)) none), true⟩ }

theorem built_steady {value payload : Bytes}
    (hser : serializeSubtree ⟨[3], leafNode ((keyNibbles (.fill 0x30)).drop 1) value⟩ = .ok payload) :
    ∃ root, SteadyRun staleEnv (.create true false []) (.built payload root) := by
  have hprog := @insert_empty_ram _ staleEnv (.fill 0x30) _ _ 3 (by decide) hser
  generalize (hashNode (leafNode ((keyNibbles (.fill 0x30)).drop 1) value)).finalize = root at hprog
  have hreplay : (Sys.create true false []).replay staleEnv (.insert (.fill 0x30) (.value value)) =
      true := by
    unfold Sys.replay
    show (true && (checks exec succeeds (callProg staleEnv ⟨.empty, true⟩ _) _ &&
      !panicked (run exec (callProg staleEnv ⟨.empty, true⟩ _) _).1.2)) = true
    rw [hprog]
    rfl
  have hcall : (Sys.create true false []).call staleEnv (.insert (.fill 0x30) (.value value)) =
      .built payload root := by
    unfold Sys.call
    show Sys.finish { Sys.create true false [] with
      store := (run exec (callProg staleEnv ⟨.empty, true⟩ _) _).2
      running := some ⟨_, .pure (run exec (callProg staleEnv ⟨.empty, true⟩ _) _).1⟩ } _
      (run exec (callProg staleEnv ⟨.empty, true⟩ _) _).1.1
      (run exec (callProg staleEnv ⟨.empty, true⟩ _) _).1.2 = _
    rw [hprog]
    rfl
  have hsteady := SteadyRun.of_steady (Sys.call_steady rfl rfl hreplay)
  rw [hcall] at hsteady
  exact ⟨root, hsteady⟩

/-- The batch is refused before anything is written. -/
theorem spill_built {payload : Bytes} (hbig : MAX_RECORD_BYTES < payload.length) (root : Hash) :
    ∃ n' e s' written, Exec (noted exec recordsWritten) (Allowed False) ((Sys.built payload root).store, [])
        (spillMem (Sys.built payload root).db.upper) (n', .error e) (s', written) ∧
      leafSlots n' [] = [([3], .disk ⟨0, payload.length⟩ root)] := by
  have hlarge : Store.tooLarge [payload] = some payload := by
    unfold Store.tooLarge
    rw [List.find?_cons, decide_eq_true hbig]
  obtain ⟨k, hspill, hk⟩ := spillMem_lone payload root
  obtain ⟨n', hend, hleaf⟩ := hk (.recordTooLarge payload.length)
  have hideal : ideal (.writeBatch [payload]) = .error (.recordTooLarge payload.length) :=
    ideal_writeBatch_large hlarge
  have hexec : (noted exec recordsWritten (.writeBatch [payload])
      ((Sys.built payload root).store, [])).1 = .error (.recordTooLarge payload.length) := by
    show (Store.writeBatch _ [payload]).1 = _
    unfold Store.writeBatch
    rw [hlarge]
  have hreq := @Step.req _ _ _ (noted exec recordsWritten) (Allowed False) _
    ((Sys.built payload root).store, []) _ k (by
      rw [hexec]
      refine ⟨(fun h => by cases h), fun e he => .inr ?_⟩
      rw [hideal]
      exact he)
  rw [hexec, hend, ← hspill] at hreq
  exact ⟨n', _, _, _, .head hreq .refl, hleaf⟩

end

def hugeValue : Bytes := List.replicate 131100 0

/-- A value inserted in RAM-build mode cannot be spilled, and the frontier is left with
a placeholder that points to nothing. -/
theorem spill_fails :
    ∃ (_ : Keccak) (env : Env) (σ : Sys) (n' : RamNode) (e : Err) (s' : Store) (written : List Bytes),
      SteadyRun env (.create true false []) σ ∧ σ.running = none ∧
      Exec (noted exec recordsWritten) (Allowed False) (σ.store, []) (spillMem σ.db.upper)
        (n', .error e) (s', written) ∧
      ∃ len root, leafSlots n' [] = [([3], .disk ⟨0, len⟩ root)] := by
  let _ : Keccak := flatHash
  have hpath : ((keyNibbles (.fill 0x30)).drop 1).length = 63 := by decide
  have hser := serialize_leaf 3 hugeValue
    (show ((keyNibbles (.fill 0x30)).drop 1).length ≤ 255 by omega)
  have hlong := (leafPayload_length 3 ((keyNibbles (.fill 0x30)).drop 1) hugeValue).1
  rw [show hugeValue.length = 131100 from List.length_replicate] at hlong
  obtain ⟨root, hrun⟩ := built_steady hser
  have hbig : MAX_RECORD_BYTES <
      (leafPayload 3 ((keyNibbles (.fill 0x30)).drop 1) hugeValue).length := by
    simp only [MAX_RECORD_BYTES, REGION_BYTES, REGION_PAGES, PAGE, RECORD_HDR]
    omega
  obtain ⟨n', e, s', written, hx, hleaf⟩ := spill_built hbig root
  exact ⟨flatHash, staleEnv, _, n', e, s', written, hrun, rfl, hx, _, root, hleaf⟩

end FlatMpt
