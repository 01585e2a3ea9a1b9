import FlatMpt.Answers
import FlatMpt.SysInv
import FlatMpt.Vacant

/-!
# Runs that keep the records

In a steady run every store request succeeds and no group of a batch fails behind
another one.  Then the records of the frontier, of the snapshots and of the checkpoint
stay intact, whatever the order of events.

    Sys.Steady, SteadyRun
    snapshot_isolated      -- what a snapshot reads, and where nothing is placed
    reads_coherent         -- the read-ahead agrees with the file
    checkpoint_kept        -- what a crash finds
    staleDb                -- what a failing batch leaves
-/

namespace FlatMpt

open Prog

/-- The bytes of a record in the file, with its length. -/
def recordBytes (file : Nat → UInt8) (p : DiskPtr) : Bytes :=
  readBytesAt file p.offset (RECORD_HDR + p.len)

/-- No run placed by the next allocation overlaps the record. -/
def Store.Spares (s : Store) (p : DiskPtr) : Prop :=
  ∀ runUnits liveUnits unit seg endPage, s.seg.alloc runUnits liveUnits s.endPage =
    .ok (unit, seg, endPage) → p.unit + p.units ≤ unit ∨ unit + runUnits ≤ p.unit

theorem Stored.recordBytes_eq {s : Store} {x : Rec} (h : Stored s x) :
    recordBytes s.file x.1 = leBytes 4 x.1.len ++ x.2 := h.framed

theorem StoreInv.spares {W : Holds} {s : Store} {g : Multiset Rec} (hI : StoreInv W s g) {x : Rec}
    (hx : Stored s x) : s.Spares x.1 := fun _ _ _ _ _ ha =>
  RegionAlloc.alloc_disjoint hI.regions hx.taken ha

section
variable [Keccak]

/-! ## Events -/

/-- One event of a steady run: requests succeed, and a batch that starts in disk mode
folds all its groups, or fails at the first.  A request refused before its call has freed
anything endangers no record; it is left out with the others. -/
structure Sys.Steady (env : Env) (σ σ' : Sys) : Prop where
  step : Sys.Step env Succeeds σ σ'
  starts : Sys.Starts env
    (fun call => call.Arranged ∧ call.Folds env (payloadAt σ.store.file) σ.db) σ σ'

/-- A steady run with crashes. -/
def SteadyRun (env : Env) : Sys → Sys → Prop :=
  Relation.ReflTransGen fun σ σ' => σ.Steady env σ' ∨ Sys.Crash σ σ'

/-- Calls other than batches are in every steady run. -/
def Call.isBatch : Call → Bool
  | .insertBatch .. => true
  | _ => false

theorem Call.foldable {call : Call} (h : call.isBatch = false) (env : Env) (pay : DiskPtr → Bytes)
    (db : Db) : call.Arranged ∧ call.Folds env pay db := by
  cases call <;> first | exact ⟨trivial, trivial⟩ | cases h

/-- An event during a call starts nothing. -/
theorem Sys.Steady.during {env : Env} {σ σ' : Sys} {r : Running} (hr : σ.running = some r)
    (hs : Sys.Step env Succeeds σ σ') : σ.Steady env σ' :=
  ⟨hs, fun _ hidle => by rw [hr] at hidle; cases hidle⟩

/-- An event that leaves the writer idle starts nothing. -/
theorem Sys.Steady.still {env : Env} {σ σ' : Sys} (hidle : σ'.running = none)
    (hs : Sys.Step env Succeeds σ σ') : σ.Steady env σ' :=
  ⟨hs, fun _ _ he => by rw [hidle] at he; cases he⟩

/-- A steady event while no other call is running. -/
def Sys.SteadyDuring (env : Env) (call : Call) (σ σ' : Sys) : Prop :=
  σ.Steady env σ' ∧ ∀ r ∈ σ.running, r.call = call

theorem Sys.work_steady {env : Env} {call : Call} {p p' : Upd Db Reply} {s s' : Store}
    (h : Steps exec Succeeds s p s' p') :
    ∀ {σ : Sys}, σ.store = s → σ.running = some ⟨call, p⟩ →
      Relation.ReflTransGen (Sys.SteadyDuring env call) σ
        { σ with store := s', running := some ⟨call, p'⟩ } := by
  induction h with
  | refl =>
    rintro σ rfl hrun
    rw [← hrun]
  | @head s s1 s2 p p1 p2 hstep _ ih =>
    rintro σ rfl hrun
    refine .head ⟨Sys.Steady.during hrun (.work hrun hstep), fun r hr => ?_⟩
      (ih (σ := { σ with store := s1, running := some ⟨call, p1⟩ }) rfl rfl)
    rw [hrun] at hr
    cases hr
    rfl

/-- A replayed call is steady. -/
theorem Sys.call_steadily {env : Env} {σ : Sys} (hidle : σ.running = none) {call : Call}
    (hbatch : call.isBatch = false) (h : σ.replay env call = true) :
    Relation.ReflTransGen (Sys.SteadyDuring env call) σ (σ.call env call) := by
  unfold Sys.replay at h
  simp only [Bool.and_eq_true, Bool.not_eq_true'] at h
  obtain ⟨hcall, hchecks, hpanic⟩ := h
  have hrun := (exec_run_of_checks _ _ hchecks).mono fun r x hx => (succeeds_iff r x).mp hx
  refine .head ⟨⟨.start call hidle ?_, fun call' _ he => ?_⟩, fun r hr => ?_⟩
    (.tail (Sys.work_steady hrun rfl rfl) ⟨Sys.Steady.during rfl (.finish rfl ?_), fun r hr => ?_⟩)
  · rintro b rfl
    cases hcall
  · obtain ⟨rfl, -⟩ := Running.mk.inj (Option.some.inj he)
    exact Call.foldable hbatch _ _ _
  · rw [hidle] at hr
    cases hr
  · intro he
    rw [he] at hpanic
    cases hpanic
  · cases hr
    rfl

theorem Sys.call_steady {env : Env} {σ : Sys} (hidle : σ.running = none) {call : Call}
    (hbatch : call.isBatch = false) (h : σ.replay env call = true) :
    Relation.ReflTransGen (Sys.Steady env) σ (σ.call env call) :=
  Relation.ReflTransGen.mono (fun _ _ h => h.1) _ _ (Sys.call_steadily hidle hbatch h)

theorem Sys.calls_steady {env : Env} {calls : List Call} {σ : Sys} (hidle : σ.running = none)
    (hbatch : calls.all fun call => !call.isBatch) (h : σ.replays env calls = true) :
    Relation.ReflTransGen (Sys.Steady env) σ (σ.calls env calls) := by
  induction calls generalizing σ with
  | nil => exact .refl
  | cons call calls ih =>
    rw [Sys.replays, Bool.and_eq_true] at h
    rw [List.all_cons, Bool.and_eq_true, Bool.not_eq_true'] at hbatch
    exact (Sys.call_steady hidle hbatch.1 h.1).trans (ih (Sys.call_running σ call) hbatch.2 h.2)

theorem SteadyRun.of_steady {env : Env} {σ σ' : Sys}
    (h : Relation.ReflTransGen (Sys.Steady env) σ σ') : SteadyRun env σ σ' :=
  Relation.ReflTransGen.mono (fun _ _ h => Or.inl h) _ _ h

/-- The invariant of steady runs. -/
abbrev SteadyInv := SysInv Succeeds True

section
variable {env : Env} {pay : Payloads} {saved : List Rec} {σ σ' : Sys} {sh : Shares}

theorem SysInv.steady (h : SteadyInv pay saved σ sh) (hs : σ.Steady env σ') :
    ∃ pay' saved' sh', SteadyInv pay' saved' σ' sh' ∧ Follows σ pay saved σ' pay' saved' :=
  h.step (.inl trivial)
    (fun _ hP hne hidle => callProg_leaky env hne hP.1 hP.2 (h.fronted hidle) h.scattered h.payloadAt)
    hs.step hs.starts (.inl trivial)

theorem steadyInv_of_run {ramMode direct : Bool} {faults : List Bool}
    (hrun : SteadyRun env (.create ramMode direct faults) σ) :
    ∃ pay saved sh, SteadyInv pay saved σ sh := by
  induction hrun with
  | refl => exact ⟨_, [], _, .create trivial _ _ _ (fun _ _ => []) ramMode direct faults⟩
  | tail _ hstep ih =>
    obtain ⟨pay, saved, sh, h⟩ := ih
    rcases hstep with hs | hc
    · obtain ⟨pay', saved', sh', h', -⟩ := h.steady hs
      exact ⟨pay', saved', sh', h'⟩
    · obtain ⟨sh', h', -⟩ := h.crash hc
      exact ⟨pay, saved, sh', h'⟩

/-! ## Pins -/

omit [Keccak] in
theorem commit_pinGen (σ : Sys) : σ.commit.store.seg.pinGen = σ.store.seg.pinGen := by
  unfold Sys.commit
  dsimp only
  split
  · rfl
  · exact (RegionAlloc.onPersisted_head σ.store.seg).2.2.2.2.2

omit [Keccak] in
theorem finish_pinGen (σ : Sys) (call : Call) (db : Db) (r : Except Err Reply) :
    (σ.finish call db r).store.seg.pinGen = σ.store.seg.pinGen := by
  unfold Sys.finish
  dsimp only
  split
  · rfl
  · exact commit_pinGen _
  · rfl

/-- Generations grow. -/
theorem Sys.Step.pinGen_le {ok : (r : Req) → Resp r → Prop} (h : Sys.Step env ok σ σ') :
    σ.store.seg.pinGen ≤ σ'.store.seg.pinGen := by
  cases h with
  | work hrun hstep => exact (step_pins hstep).gen.ge
  | collectWork hc hstep => exact (step_pins hstep).gen.ge
  | finish hrun hr => exact (finish_pinGen σ _ _ _).ge
  | snapshot hidle => exact Nat.le_succ _
  | prefetch ops order hidle horder =>
    show _ ≤ (order.foldl Store.prefetchRecord σ.store).seg.pinGen
    rw [prefetchRecords_seg]
  | _ => exact le_rfl

/-- The payloads of a pinned generation stay. -/
theorem SysInv.steadily (h : SteadyInv pay saved σ sh) {gen : Nat} (hgen : gen ≤ σ.store.seg.pinGen)
    (hrun : Relation.ReflTransGen (Sys.Steady env) σ σ') :
    ∃ pay' saved' sh', SteadyInv pay' saved' σ' sh' ∧ pay' gen = pay gen := by
  suffices hp : σ.store.seg.pinGen ≤ σ'.store.seg.pinGen ∧
      ∃ pay' saved' sh', SteadyInv pay' saved' σ' sh' ∧ pay' gen = pay gen from hp.2
  induction hrun with
  | refl => exact ⟨le_rfl, pay, saved, sh, h, rfl⟩
  | tail _ hs ih =>
    obtain ⟨hle, pay1, saved1, sh1, h1, hpay⟩ := ih
    obtain ⟨pay2, saved2, sh2, h2, hf⟩ := h1.steady hs
    exact ⟨hle.trans hs.step.pinGen_le, pay2, saved2, sh2, h2,
      (hf.pay gen (hgen.trans hle)).trans hpay⟩

/-! ## Visible records -/

section
omit [Keccak]

/-- A record of a held snapshot. -/
theorem snapRec_visible {snap : Snapshot} (hs : snap ∈ σ.holders) {x : Rec}
    (hx : x ∈ snapRecs pay snap) :
    (heldBy pay σ.holders saved).Visible sh.total x :=
  .inr ⟨snap.gen, mem_pinsOf.mpr ⟨snap, hs, rfl, hx⟩⟩

theorem writerRec_visible {W : Holds} {x : Rec} (hx : x ∈ sh.writer) : W.Visible sh.total x :=
  .inl (Multiset.mem_add.mpr (.inl hx))

/-- The record of a pointer. -/
theorem exists_recAt (pay : List Nibble → Bytes) {n : RamNode} {p : DiskPtr} (hp : p ∈ diskPtrs n) :
    ∃ b, (p, b) ∈ recsAt pay n := by
  have hmem : p ∈ (recsAt pay n).map Prod.fst := by
    rw [map_fst_recsAt]
    exact Multiset.mem_coe.mpr hp
  obtain ⟨⟨q, b⟩, hx, rfl⟩ := Multiset.mem_map.mp hmem
  exact ⟨b, hx⟩

/-- The idle writer's frontier names records that it owns. -/
theorem SysInv.frontRecs (h : SteadyInv pay saved σ sh) (hidle : σ.running = none) :
    ∃ p, ∀ x ∈ recsAt p σ.db.upper, x ∈ sh.writer := by
  obtain ⟨p, rest, hg, -⟩ := h.fronted hidle
  refine ⟨p, fun x hx => ?_⟩
  rw [hg]
  exact Multiset.mem_add.mpr (.inl hx)

/-- A record that a program is about to read or to free, it owns or sees. -/
theorem asked_visible {W : Holds} {ok : (r : Req) → Resp r → Prop} {α : Type} {prog : Prog Resp α}
    {g : Multiset Rec} {Q : α → Multiset Rec → Prop} (hp : wp ((flat W).filter ok) prog g Q)
    {p : DiskPtr} (h : Asks prog (.read p) ∨ Asks prog (.free p)) : ∃ b, W.Visible g (p, b) := by
  rcases h with h | h
  · obtain ⟨g0, f, K, rfl, b, hb, -⟩ := wp_asks h hp
    exact ⟨b, hb.add f⟩
  · obtain ⟨g0, f, K, rfl, b, g', rfl, -⟩ := wp_asks h hp
    exact ⟨b, .inl (Multiset.mem_add.mpr (.inl (Multiset.mem_cons_self _ _)))⟩

/-- A record that the writer is about to read or to free. -/
theorem SysInv.asked (h : SteadyInv pay saved σ sh) {r : Running} (hr : σ.running = some r)
    {p : DiskPtr} (hp : Asks r.prog (.read p) ∨ Asks r.prog (.free p)) :
    ∃ b, (p, b) ∈ sh.writer := by
  have hw := h.writer
  rw [hr] at hw
  obtain ⟨b, hb⟩ := asked_visible hw hp
  refine ⟨b, hb.resolve_right ?_⟩
  rintro ⟨gen, hm⟩
  cases hm

/-- A record that a collection is about to read. -/
theorem SysInv.collectorAsked (h : SteadyInv pay saved σ sh) {c : Snapshot × Act (List Reloc)}
    (hc : c ∈ σ.collecting) {p : DiskPtr} (hp : Asks c.2 (.read p) ∨ Asks c.2 (.free p)) :
    ∃ b, (heldBy pay σ.holders saved).Visible sh.total (p, b) := by
  obtain ⟨l1, l2, hl⟩ := List.mem_iff_append.mp hc
  have hcol := h.collecting
  rw [hl] at hcol
  obtain ⟨u1, u, u2, hu, -, hown, -⟩ := forall₂_middle hcol
  obtain ⟨b, hb⟩ := asked_visible hown.copies hp
  refine ⟨b, hb.elim (fun hx => .inl ?_) fun ⟨gen, hm⟩ => ?_⟩
  · refine Multiset.mem_add.mpr (.inr (Multiset.mem_add.mpr (.inl ?_)))
    rw [hu, List.sum_append, List.sum_cons]
    exact Multiset.mem_add.mpr (.inr (Multiset.mem_add.mpr (.inl hx)))
  · obtain ⟨snap, hs, rfl, hx⟩ := mem_pinsOf.mp hm
    rw [Multiset.mem_singleton.mp hs] at hx
    refine snapRec_visible ?_ hx
    refine Multiset.mem_add.mpr (.inr (Multiset.mem_add.mpr (.inl ?_)))
    exact Multiset.mem_coe.mpr (List.mem_map_of_mem hc)

end

end

/-! ## Snapshots -/

section
variable {env : Env} {ramMode direct : Bool} {faults : List Bool} {σ σ1 σ2 : Sys}

/-- **Snapshots are isolated.**  While a snapshot or a clone of it is held, its records
keep their bytes and nothing is placed over them, so it reads as before.  Nothing is
placed over the frontier's records, nor over one that a running call will still read or
free. -/
theorem snapshot_isolated (h1 : SteadyRun env (.create ramMode direct faults) σ1)
    (h2 : Relation.ReflTransGen (Sys.Steady env) σ1 σ2) :
    (∀ snap ∈ σ1.holders, snap ∈ σ2.holders →
      (∀ p ∈ diskPtrs snap.root, recordBytes σ2.store.file p = recordBytes σ1.store.file p ∧
        σ2.store.Spares p) ∧ SameState σ1.store snap.root σ2.store snap.root) ∧
    (σ2.running = none → ∀ p ∈ diskPtrs σ2.db.upper, σ2.store.Spares p) ∧
    ∀ r, σ2.running = some r → ∀ p, Asks r.prog (.read p) ∨ Asks r.prog (.free p) →
      σ2.store.Spares p := by
  obtain ⟨pay, saved, sh, hI1⟩ := steadyInv_of_run h1
  refine ⟨fun snap hs1 hs2 => ?_, ?_, ?_⟩
  · have hgen : snap.gen ≤ σ1.store.seg.pinGen :=
      hI1.store.counted _ (hI1.store.mem_gens hs1)
    obtain ⟨pay', saved', sh', hI2, hpay⟩ := hI1.steadily hgen h2
    have hsame : snapRecs pay' snap = snapRecs pay snap := by
      unfold snapRecs
      rw [hpay]
    have hst1 : ∀ x ∈ snapRecs pay snap, Stored σ1.store x := fun x hx => hI1.store.stored hs1 hx
    have hst2 : ∀ x ∈ snapRecs pay snap, Stored σ2.store x := fun x hx =>
      hI2.store.stored hs2 (hsame ▸ hx)
    refine ⟨fun p hp => ?_, sameState_of_loaded (loaded_congr fun p hp => ?_)⟩
    · obtain ⟨b, hx⟩ := exists_recAt (pay snap.gen) hp
      exact ⟨(hst2 _ hx).recordBytes_eq.trans (hst1 _ hx).recordBytes_eq.symm,
        hI2.store.upkept.store.spares (hst2 _ hx)⟩
    · obtain ⟨b, hx⟩ := exists_recAt (pay snap.gen) hp
      have hx' : (p, b) ∈ snapRecs pay' snap := hsame ▸ hx
      rw [(hI2.store.upkept.store.payload (snapRec_visible hs2 hx')).1,
        (hI1.store.upkept.store.payload (snapRec_visible hs1 hx)).1]
  · intro hidle p hp
    obtain ⟨pay', saved', sh', hI2, -⟩ := hI1.steadily le_rfl h2
    obtain ⟨q, hq⟩ := hI2.frontRecs hidle
    obtain ⟨b, hx⟩ := exists_recAt q hp
    exact hI2.store.upkept.store.spares
      (hI2.store.upkept.store.stored (p, b) (Multiset.mem_add.mpr (.inl (hq _ hx))))
  · intro r hr p hp
    obtain ⟨pay', saved', sh', hI2, -⟩ := hI1.steadily le_rfl h2
    obtain ⟨b, hx⟩ := hI2.asked hr hp
    exact hI2.store.upkept.store.spares
      (hI2.store.upkept.store.stored (p, b) (Multiset.mem_add.mpr (.inl hx)))

end

end

/-- A small database in disk mode. -/
def staleEnv : Env := ⟨⟨4096, 65536, 2048⟩, false⟩

abbrev flatHash : Keccak := ⟨fun _ => .fill 0⟩

/-- The database with one more snapshot. -/
def Sys.pinned (σ : Sys) : Sys :=
  { σ with
    store := σ.store.pin
    snapshots := ⟨σ.db.upper, σ.store.seg.pinGen + 1⟩ :: σ.snapshots }

theorem Sys.pinned_steady [Keccak] {env : Env} {σ : Sys} (hidle : σ.running = none) :
    σ.Steady env σ.pinned := Sys.Steady.still hidle (.snapshot hidle)

theorem Sys.call_snapshots [Keccak] (env : Env) (σ : Sys) (call : Call) :
    (σ.call env call).snapshots = σ.snapshots := by
  unfold Sys.call Sys.finish
  dsimp only
  split
  · rfl
  · unfold Sys.commit
    dsimp only
    split <;> rfl
  · rfl

/-- A database with one value. -/
@[irreducible] def onceDb [Keccak] : Sys :=
  (Sys.create false false []).calls staleEnv [.insert (.fill 0x10) (.value [1])]

/-- The value persisted. -/
@[irreducible] def savedDb [Keccak] : Sys := onceDb.call staleEnv (.persist [])

/-- The value overwritten, and the record that the checkpoint names given up. -/
@[irreducible] def rewrittenDb [Keccak] : Sys :=
  savedDb.call staleEnv (.insert (.fill 0x10) (.value [2]))

/-- The calls on these databases succeed. -/
theorem onceDb_calls :
    let _ : Keccak := flatHash
    (Sys.create false false []).replays staleEnv [.insert (.fill 0x10) (.value [1])] = true ∧
    onceDb.pinned.replay staleEnv (.insert (.fill 0x10) (.value [2])) = true ∧
    onceDb.replay staleEnv (.persist []) = true ∧
    (run exec (callProg staleEnv onceDb.db (.persist [])) onceDb.store).1.2.isOk = true ∧
    (run exec (callProg staleEnv onceDb.db (.persist [])) onceDb.store).2.faults = [] ∧
    savedDb.replay staleEnv (.insert (.fill 0x10) (.value [2])) = true ∧
    diskPtrs savedDb.db.upper = [⟨0, 74⟩] ∧ diskPtrs rewrittenDb.db.upper = [⟨1, 74⟩] := by
  decide +kernel

theorem onceDb_steady :
    let _ : Keccak := flatHash
    Relation.ReflTransGen (Sys.Steady staleEnv) (Sys.create false false []) onceDb ∧
      onceDb.running = none := by
  intro _
  obtain ⟨h, -⟩ := onceDb_calls
  unfold onceDb
  exact ⟨Sys.calls_steady rfl rfl h, Sys.calls_running rfl⟩

/-- The value is overwritten under a snapshot. -/
theorem snapshot_isolated_insert :
    let _ : Keccak := flatHash
    SameState onceDb.pinned.store onceDb.db.upper
      (onceDb.pinned.call staleEnv (.insert (.fill 0x10) (.value [2]))).store onceDb.db.upper := by
  intro _
  obtain ⟨hrun, hidle⟩ := onceDb_steady
  obtain ⟨-, h2, -⟩ := onceDb_calls
  obtain ⟨snap, hmem, hroot⟩ : ∃ snap ∈ onceDb.pinned.snapshots, snap.root = onceDb.db.upper :=
    ⟨_, List.mem_cons_self, rfl⟩
  have hheld : ∀ σ : Sys, ∀ snap ∈ σ.snapshots, snap ∈ σ.holders := fun σ snap h =>
    Multiset.mem_add.mpr (.inl h)
  have hidle' : onceDb.pinned.running = none := hidle
  rw [← hroot]
  refine ((snapshot_isolated (.of_steady (hrun.tail (Sys.pinned_steady hidle)))
    (Sys.call_steady hidle' rfl h2)).1 _ (hheld _ _ hmem) (hheld _ _ ?_)).2
  rw [Sys.call_snapshots]
  exact hmem

/-! ## A stale frontier -/

def failingCalls : List Call :=
  [.insert (.fill 0x20) (.account 0 0 (.fill 0)),
    .insertBatch [(.fill 0x10, [2]), (.fill 0x20, [3])] id false]

def keptCalls : List Call := [.insert (.fill 0x10) (.value [1]), .persist []]

/-- A value is persisted in region 0 and the file reopened; then a batch fails at an
account after it has freed that record, which the frontier still names. -/
@[irreducible] def failedDb [Keccak] : Sys :=
  ((Sys.create false false []).calls staleEnv keptCalls).restart.calls staleEnv failingCalls

/-- The next persist lets the record's region go. -/
@[irreducible] def staleDb [Keccak] : Sys := failedDb.call staleEnv (.persist [])

def Sys.cleared (σ : Sys) : Sys := { σ with store := σ.store.readAheadClear }

theorem Sys.cleared_running (σ : Sys) : σ.cleared.running = σ.running := rfl

theorem Sys.cleared_step [Keccak] {env : Env} {ok : (r : Req) → Resp r → Prop} {σ : Sys}
    (hidle : σ.running = none) : Sys.Step env ok σ σ.cleared := .prefetchClear hidle

def Sys.warmed (σ : Sys) (order : List DiskPtr) : Sys :=
  { σ with store := order.foldl Store.prefetchRecord σ.store }

theorem Sys.warmed_step [Keccak] {env : Env} {ok : (r : Req) → Resp r → Prop} {σ : Sys}
    {order : List DiskPtr} (hidle : σ.running = none) (ops : List (Key × StateOp))
    (h : order ⊆ prefetchPtrs σ.db.upper ops) : Sys.Step env ok σ (σ.warmed order) :=
  .prefetch ops order hidle h

theorem Sys.warmed_running (σ : Sys) (order : List DiskPtr) :
    (σ.warmed order).running = σ.running := rfl

def vacantAt : RamNode → Nibble → Bool
  | .branch children _, i => !(children i).isSome
  | _, _ => false

/-- Region 0 is next, and a slot of the root branch is vacant. -/
structure Sys.Reuses (σ : Sys) : Prop where
  vacant : vacantAt σ.db.upper 3 = true
  disk : σ.db.ramMode = false
  faults : σ.store.faults = []
  buffered : σ.store.direct = false
  free : σ.store.seg.freeRegions = [0]
  full : σ.store.seg.headRegion * REGION_UNITS + REGION_UNITS < σ.store.seg.nextUnit + REGION_UNITS

instance (σ : Sys) : Decidable σ.Reuses :=
  decidable_of_iff (vacantAt σ.db.upper 3 = true ∧ σ.db.ramMode = false ∧ σ.store.faults = [] ∧
      σ.store.direct = false ∧ σ.store.seg.freeRegions = [0] ∧
      σ.store.seg.headRegion * REGION_UNITS + REGION_UNITS < σ.store.seg.nextUnit + REGION_UNITS)
    ⟨fun ⟨h1, h2, h3, h4, h5, h6⟩ => ⟨h1, h2, h3, h4, h5, h6⟩,
      fun h => ⟨h.vacant, h.disk, h.faults, h.buffered, h.free, h.full⟩⟩

/-- The stale record, warmed after its region was let go. -/
@[irreducible] def warmDb [Keccak] : Sys := staleDb.cleared.warmed [⟨0, 74⟩]

/-- The calls succeed. -/
theorem staleDb_calls :
    let _ : Keccak := flatHash
    (Sys.create false false []).replays staleEnv keptCalls = true ∧
    ((Sys.create false false []).calls staleEnv keptCalls).checkpoint.isSome ∧
    ((Sys.create false false []).calls staleEnv keptCalls).restart.replays staleEnv
      (failingCalls ++ [.persist []]) = true ∧
    (run exec (callProg staleEnv failedDb.db (.persist [])) failedDb.store).1.2.isOk = true ∧
    (run exec (callProg staleEnv failedDb.db (.persist [])) failedDb.store).2.faults = [] := by
  decide +kernel

/-- The frontier names a record in a region that is the next to be used. -/
theorem staleDb_names :
    let _ : Keccak := flatHash
    ⟨0, 74⟩ ∈ diskPtrs staleDb.db.upper ∧ staleDb.store.file 5 ≠ 0x30 ∧ staleDb.cleared.Reuses ∧
    ((staleDb.cleared.store.seg.alloc 512 512 staleDb.cleared.store.endPage).map
      fun x => x.1).toOption = some 0 ∧
    [⟨0, 74⟩] ⊆ prefetchPtrs staleDb.cleared.db.upper [(.fill 0x10, .setAccount 0 0 (.fill 0))] ∧
    ⟨0, 74⟩ ∈ diskPtrs warmDb.db.upper ∧ warmDb.Reuses ∧
    -- the second byte of the payload is the record's nibble in the root branch
    (warmDb.store.readAheadTake 0).map (fun bs => bs[1]?) = some (some 0x10) := by
  decide +kernel

theorem staleDb_run :
    let _ : Keccak := flatHash
    Run staleEnv Succeeds (.create false false []) staleDb ∧ staleDb.running = none := by
  intro _
  obtain ⟨h1, hcp, h2, -⟩ := staleDb_calls
  have hrun : Run staleEnv Succeeds (.create false false []) (((Sys.create false false []).calls
      staleEnv keptCalls).restart.calls staleEnv (failingCalls ++ [.persist []])) :=
    Sys.restarted_run (fun _ _ h => h) rfl h1 hcp h2
  rw [Sys.calls_concat] at hrun
  unfold staleDb failedDb
  exact ⟨hrun, Sys.call_running _ _⟩

/-- The next region-wide run goes over a record that the frontier names. -/
theorem stale_record_overlapped :
    ∃ (_ : Keccak) (env : Env) (σ : Sys), Run env Succeeds (.create false false []) σ ∧
      σ.running = none ∧ ∃ p ∈ diskPtrs σ.db.upper, ¬ σ.store.Spares p := by
  let k : Keccak := flatHash
  obtain ⟨hrun, hidle⟩ := staleDb_run
  obtain ⟨hmem, -, -, hplaced, -⟩ := staleDb_names
  refine ⟨k, staleEnv, staleDb.cleared, hrun.tail (.inl (Sys.cleared_step hidle)),
    (Sys.cleared_running _).trans hidle, ⟨0, 74⟩, hmem, fun h => ?_⟩
  cases ha : staleDb.cleared.store.seg.alloc 512 512 staleDb.cleared.store.endPage with
  | error e =>
    rw [ha] at hplaced
    cases hplaced
  | ok x =>
    rw [ha] at hplaced
    obtain ⟨unit, seg, endPage⟩ := x
    cases hplaced
    have hor := h 512 512 0 seg endPage ha
    revert hor
    decide

/-- A value that fills a region. -/
def largeValue : Bytes := List.replicate 130900 0

theorem vacantAt_iff {n : RamNode} {i : Nibble} (h : vacantAt n i = true) :
    ∃ children hash, n = .branch children hash ∧ children i = .none := by
  cases n with
  | branch children hash =>
    have hnone : (!(children i).isSome) = true := h
    refine ⟨children, hash, rfl, ?_⟩
    cases hc : children i with
    | none => rfl
    | _ =>
      rw [hc] at hnone
      cases hnone
  | _ => cases h

theorem diskPtrs_update {children : Nibble → RamSlot} {hash hash' : Option Hash} {i : Nibble}
    (hnone : children i = .none) (slot : RamSlot) {p : DiskPtr}
    (hp : p ∈ diskPtrs (.branch children hash)) :
    p ∈ diskPtrs (.branch (Function.update children i slot) hash') := by
  obtain ⟨j, hj, hm⟩ := List.mem_flatMap.mp hp
  refine List.mem_flatMap.mpr ⟨j, hj, ?_⟩
  rw [Function.update_of_ne]
  · exact hm
  · rintro rfl
    rw [hnone] at hm
    cases hm

/-- Filling the caches keeps the pointers. -/
theorem mem_diskPtrs_fillRam [Keccak] {n : RamNode} {p : DiskPtr} :
    p ∈ diskPtrs (fillRam n) ↔ p ∈ diskPtrs n := by
  have hn := placed_leaves (fun _ => []) n []
  have heq : (diskPtrs (fillRam n) : Multiset DiskPtr) = diskPtrs n := by
    rw [← (fillRam_placed hn).ptrs, ← hn.ptrs]
  rw [← Multiset.mem_coe, heq, Multiset.mem_coe]

/-- A large value goes over region 0. -/
theorem Sys.Reuses.insert [Keccak] {σ : Sys} (h : σ.Reuses) :
    σ.replay staleEnv (.insert (.fill 0x30) (.value largeValue)) = true ∧
      (∀ p ∈ diskPtrs σ.db.upper,
        p ∈ diskPtrs (σ.call staleEnv (.insert (.fill 0x30) (.value largeValue))).db.upper) ∧
      (∃ len, ⟨0, len⟩ ∈
        diskPtrs (σ.call staleEnv (.insert (.fill 0x30) (.value largeValue))).db.upper) ∧
      (σ.call staleEnv (.insert (.fill 0x30) (.value largeValue))).store.readAhead =
        σ.store.readAhead ∧
      (σ.call staleEnv (.insert (.fill 0x30) (.value largeValue))).store.file 5 = 0x30 := by
  obtain ⟨children, hash, hup, hnone⟩ := vacantAt_iff h.vacant
  have hdb : σ.db = ⟨.branch children hash, false⟩ := by
    rw [← hup, ← h.disk]
  have hpath : ((keyNibbles (.fill 0x30)).drop 1).length = 63 := by decide
  have hser := serialize_leaf 3 largeValue
    (show ((keyNibbles (.fill 0x30)).drop 1).length ≤ 255 by omega)
  obtain ⟨hlo, hhi⟩ := leafPayload_length 3 ((keyNibbles (.fill 0x30)).drop 1) largeValue
  have hvalue : largeValue.length = 130900 := List.length_replicate
  rw [packPath_length, hpath, hvalue] at hlo hhi
  have hmax : (leafPayload 3 ((keyNibbles (.fill 0x30)).drop 1) largeValue).length ≤
      MAX_RECORD_BYTES := by
    simp only [MAX_RECORD_BYTES, REGION_BYTES, REGION_PAGES, PAGE, RECORD_HDR]
    omega
  have hunits : REGION_UNITS ≤
      unitsFor (RECORD_HDR + (leafPayload 3 ((keyNibbles (.fill 0x30)).drop 1) largeValue).length) := by
    simp only [unitsFor, RECORD_HDR, ADDR_UNIT, REGION_UNITS, REGION_PAGES, UNITS_PER_PAGE, PAGE]
    omega
  have hfull := h.full
  obtain ⟨hok, hcache, pad, hfile⟩ := writePayload_reclaimed h.faults h.buffered h.free
    (by omega) hmax (by decide)
  obtain ⟨hreplay, hstore, hdb'⟩ :=
    insert_vacant_call (show staleEnv.hot = false from rfl) hdb (by decide) hnone hser hmax hok
  refine ⟨hreplay, fun p hp => ?_, ?_, by rw [hstore, hcache], ?_⟩
  · rw [hdb', mem_diskPtrs_fillRam]
    rw [hup] at hp
    exact diskPtrs_update hnone _ hp
  · rw [hdb', Nat.zero_mul]
    exact ⟨_, mem_diskPtrs_fillRam.mpr (List.mem_flatMap.mpr
      ⟨3, List.mem_finRange _, by rw [Function.update_self]; exact List.mem_singleton_self _⟩)⟩
  rw [hstore, hfile]
  exact overwrite_frame _ (leafPayload 3 ((keyNibbles (.fill 0x30)).drop 1) largeValue) pad
    (show 1 < _ by omega)

section
variable [Keccak] {env : Env} {ramMode direct : Bool} {faults : List Bool} {σ σ1 σ2 : Sys}

/-! ## Read-ahead -/

/-- A read without I/O error returns what the file holds at the pointer. -/
def Store.Coherent (s : Store) (p : DiskPtr) : Prop :=
  (exec (.read p) s.healthy).1 = .ok (payloadAt s.file p)

omit [Keccak] in
theorem StoreInv.coherent {W : Holds} {s : Store} {g : Multiset Rec} (hI : StoreInv W s g)
    {p : DiskPtr} {b : Bytes} (hx : W.Visible g (p, b)) : s.Coherent p := by
  obtain ⟨h1, h2⟩ := hI.payload hx
  show _ = _
  rw [read_healthy, h1, h2]

/-- **The read-ahead is coherent** for the frontier, for the snapshots held, and for
whatever a call or a collection reads on its way. -/
theorem reads_coherent (hrun : SteadyRun env (.create ramMode direct faults) σ) :
    (σ.running = none → ∀ p ∈ diskPtrs σ.db.upper, σ.store.Coherent p) ∧
    (∀ snap ∈ σ.holders, ∀ p ∈ diskPtrs snap.root, σ.store.Coherent p) ∧
    (∀ r, σ.running = some r → ∀ p, Asks r.prog (.read p) → σ.store.Coherent p) ∧
    ∀ c ∈ σ.collecting, ∀ p, Asks c.2 (.read p) → σ.store.Coherent p := by
  obtain ⟨pay, saved, sh, hI⟩ := steadyInv_of_run hrun
  have hstore := hI.store.upkept.store
  refine ⟨fun hidle p hp => ?_, fun snap hs p hp => ?_, fun r hr p hp => ?_, fun c hc p hp => ?_⟩
  · obtain ⟨q, hq⟩ := hI.frontRecs hidle
    obtain ⟨b, hx⟩ := exists_recAt q hp
    exact hstore.coherent (writerRec_visible (hq _ hx))
  · obtain ⟨b, hx⟩ := exists_recAt (pay snap.gen) hp
    exact hstore.coherent (snapRec_visible hs hx)
  · obtain ⟨b, hx⟩ := hI.asked hr (.inl hp)
    exact hstore.coherent (writerRec_visible hx)
  · obtain ⟨b, hx⟩ := hI.collectorAsked hc (.inl hp)
    exact hstore.coherent hx

end

/-- The database without its last snapshot. -/
def Sys.dropped (σ : Sys) : Sys :=
  match σ.snapshots with
  | [] => σ
  | snap :: rest => { σ with store := σ.store.unpin snap.gen, snapshots := rest }

theorem Sys.dropped_running (σ : Sys) : σ.dropped.running = σ.running := by
  unfold Sys.dropped
  split <;> rfl

theorem Sys.dropped_step [Keccak] {env : Env} {ok : (r : Req) → Resp r → Prop} {σ : Sys}
    (h : σ.snapshots ≠ []) : Sys.Step env ok σ σ.dropped := by
  unfold Sys.dropped
  split
  · contradiction
  · rename_i snap rest hs
    exact .drop [] rest snap hs

@[irreducible] def restartedDb [Keccak] : Sys :=
  ((Sys.create false false []).calls staleEnv keptCalls).restart

/-- A record read ahead after a restart. -/
@[irreducible] def warmOnce [Keccak] : Sys := restartedDb.warmed [⟨0, 74⟩]

def freeingCalls : List Call :=
  [.applyBlock [(.fill 0x40, .setAccount 1 1 (.fill 0))] [], .insert (.fill 0x10) (.value [2]),
    .gcStep [[0]]]

/-- The record is overwritten under a snapshot; then the snapshot is dropped. -/
@[irreducible] def freedDb [Keccak] : Sys := (warmOnce.pinned.calls staleEnv freeingCalls).dropped

/-- The region of the record is let go, and other records are read ahead under a new
snapshot. -/
@[irreducible] def reclaimedDb [Keccak] : Sys :=
  (freedDb.call staleEnv (.persist [])).cleared.pinned.warmed [⟨513, 74⟩, ⟨512, 109⟩]

/-- The calls succeed, and the prefetches are those of some blocks. -/
theorem reclaimedDb_calls :
    let _ : Keccak := flatHash
    [⟨0, 74⟩] ⊆ prefetchPtrs restartedDb.db.upper [(.fill 0x10, .setAccount 0 0 (.fill 0))] ∧
    warmOnce.pinned.replays staleEnv freeingCalls = true ∧
    (warmOnce.pinned.calls staleEnv freeingCalls).snapshots ≠ [] ∧
    freedDb.replay staleEnv (.persist []) = true ∧
    [⟨513, 74⟩, ⟨512, 109⟩] ⊆ prefetchPtrs
      (freedDb.call staleEnv (.persist [])).cleared.pinned.db.upper
      [(.fill 0x10, .setAccount 0 0 (.fill 0)), (.fill 0x40, .setAccount 0 0 (.fill 0))] ∧
    (warmOnce.store.readAheadTake 0).map (fun bs => bs[1]?) = some (some 0x10) ∧
    reclaimedDb.Reuses ∧ reclaimedDb.store.readAhead.map (fun e => e.1) = [512, 513] := by
  decide +kernel

theorem restartedDb_run :
    let _ : Keccak := flatHash
    SteadyRun staleEnv (.create false false []) restartedDb ∧ restartedDb.running = none := by
  intro _
  obtain ⟨h1, hcp, -⟩ := staleDb_calls
  have hidle : ((Sys.create false false []).calls staleEnv keptCalls).running = none :=
    Sys.calls_running rfl
  unfold restartedDb
  exact ⟨(SteadyRun.of_steady (Sys.calls_steady rfl rfl h1)).tail
    (.inr (Sys.restart_crash hidle hcp)), Sys.restart_running hidle⟩

theorem warmOnce_run :
    let _ : Keccak := flatHash
    SteadyRun staleEnv (.create false false []) warmOnce ∧ warmOnce.running = none := by
  intro _
  obtain ⟨hrun, hidle⟩ := restartedDb_run
  obtain ⟨hroutes, -⟩ := reclaimedDb_calls
  have hidle' := (Sys.warmed_running restartedDb [⟨0, 74⟩]).trans hidle
  unfold warmOnce
  exact ⟨hrun.tail (.inl (Sys.Steady.still hidle' (Sys.warmed_step hidle _ hroutes))), hidle'⟩

theorem reclaimedDb_run :
    let _ : Keccak := flatHash
    SteadyRun staleEnv (.create false false []) reclaimedDb ∧ reclaimedDb.running = none := by
  intro _
  obtain ⟨hrun, hidle⟩ := warmOnce_run
  have hpin : warmOnce.pinned.running = none := hidle
  obtain ⟨-, h1, hsnap, h2, hroutes, -⟩ := reclaimedDb_calls
  have hcalls : (warmOnce.pinned.calls staleEnv freeingCalls).running = none :=
    Sys.calls_running hpin
  have hfreed : freedDb.running = none := by
    unfold freedDb
    exact (Sys.dropped_running _).trans hcalls
  have hdrop : (warmOnce.pinned.calls staleEnv freeingCalls).Steady staleEnv freedDb := by
    unfold freedDb at hfreed ⊢
    exact Sys.Steady.still hfreed (Sys.dropped_step hsnap)
  have hpersist : (freedDb.call staleEnv (.persist [])).running = none := Sys.call_running _ _
  have hclear := (Sys.cleared_running (freedDb.call staleEnv (.persist []))).trans hpersist
  have hpin' : (freedDb.call staleEnv (.persist [])).cleared.pinned.running = none := hclear
  have hwarm : Sys.Step staleEnv Succeeds _ _ := Sys.warmed_step hpin' _ hroutes
  have hfill := Sys.Steady.still ((Sys.warmed_running _ _).trans hpin') hwarm
  unfold reclaimedDb
  refine ⟨hrun.trans (SteadyRun.of_steady ?_), (Sys.warmed_running _ _).trans hpin'⟩
  exact .head (Sys.pinned_steady hidle) ((((((Sys.calls_steady hpin rfl h1).tail hdrop).trans
    (Sys.call_steady hfreed rfl h2)).tail (Sys.Steady.still hclear (Sys.cleared_step hpersist))).tail
      (Sys.pinned_steady hclear)).tail hfill)

/-- A record read ahead is overwritten under a snapshot, its region is let go and goes to
another record: that record is read, and so are those read ahead since. -/
theorem reads_coherent_reused :
    let _ : Keccak := flatHash
    (warmOnce.store.readAheadTake 0).map (fun bs => bs[1]?) = some (some 0x10) ∧
    (reclaimedDb.call staleEnv (.insert (.fill 0x30) (.value largeValue))).store.readAhead.map
      (fun e => e.1) = [512, 513] ∧
    (reclaimedDb.call staleEnv (.insert (.fill 0x30) (.value largeValue))).store.file 5 = 0x30 ∧
    (∃ len, ⟨0, len⟩ ∈
      diskPtrs (reclaimedDb.call staleEnv (.insert (.fill 0x30) (.value largeValue))).db.upper) ∧
    ∀ p ∈ diskPtrs (reclaimedDb.call staleEnv (.insert (.fill 0x30) (.value largeValue))).db.upper,
      (reclaimedDb.call staleEnv (.insert (.fill 0x30) (.value largeValue))).store.Coherent p := by
  intro _
  obtain ⟨hrun, hidle⟩ := reclaimedDb_run
  obtain ⟨-, -, -, -, -, hfirst, hreuses, hwarm⟩ := reclaimedDb_calls
  obtain ⟨hreplay, -, hnew, hcache, hfile⟩ := hreuses.insert
  refine ⟨hfirst, by rw [hcache]; exact hwarm, hfile, hnew, ?_⟩
  exact (reads_coherent (hrun.trans (SteadyRun.of_steady (Sys.call_steady hidle rfl hreplay)))).1
    (Sys.call_running _ _)

theorem warmDb_run :
    let _ : Keccak := flatHash
    Run staleEnv Succeeds (.create false false []) warmDb ∧ warmDb.running = none := by
  intro _
  obtain ⟨hrun, hidle⟩ := staleDb_run
  have hidle' := (Sys.cleared_running staleDb).trans hidle
  obtain ⟨-, -, -, -, hroutes, -⟩ := staleDb_names
  unfold warmDb
  exact ⟨(hrun.tail (.inl (Sys.cleared_step hidle))).tail (.inl (Sys.warmed_step hidle' _ hroutes)),
    (Sys.warmed_running _ _).trans hidle'⟩

/-- A record warmed before its region is reused is served afterwards. -/
theorem Sys.Reuses.serves [Keccak] {σ : Sys} (h : σ.Reuses) (hidle : σ.running = none) {len : Nat}
    (hp : ⟨0, len + 2⟩ ∈ diskPtrs σ.db.upper) {bytes : Bytes}
    (hcached : σ.store.readAheadTake 0 = some bytes) (hold : bytes[1]? ≠ some 0x30) :
    ∃ σ', Relation.ReflTransGen (Sys.Step staleEnv Succeeds) σ σ' ∧ σ'.running = none ∧
      ∃ p ∈ diskPtrs σ'.db.upper, ¬ σ'.store.Coherent p := by
  obtain ⟨hreplay, hptrs, -, hcache, hfile⟩ := h.insert
  refine ⟨_, Sys.call_steps (fun _ _ h => h) hidle hreplay, Sys.call_running _ _, _, hptrs _ hp,
    fun h => ?_⟩
  unfold Store.Coherent at h
  rw [read_healthy, Store.payload, Store.readAheadTake, hcache] at h
  have htake : σ.store.readAhead.lookup 0 = some bytes := hcached
  rw [htake] at h
  refine hold ((congrArg (fun bs : Bytes => bs[1]?) (Except.ok.inj h)).trans ?_)
  have hlt : ∀ file : Nat → UInt8, 1 < (payloadAt file ⟨0, len + 2⟩).length := fun file => by
    rw [payloadAt, readBytesAt_length]
    exact Nat.lt_add_left len (Nat.lt_succ_self 1)
  have hoff : (⟨0, len + 2⟩ : DiskPtr).offset + RECORD_HDR + 1 = 5 := by
    simp only [DiskPtr.offset, RECORD_HDR, Nat.zero_mul]
  rw [List.getElem?_eq_getElem (hlt _)]
  refine congrArg some ((readBytesAt_getElem _ _ _ _ (hlt _)).trans ?_)
  rw [hoff, hfile]

/-- The read-ahead serves a record of the frontier from before its units were reused. -/
theorem stale_record_served :
    ∃ (_ : Keccak) (env : Env) (σ : Sys), Run env Succeeds (.create false false []) σ ∧
      σ.running = none ∧ ∃ p ∈ diskPtrs σ.db.upper, ¬ σ.store.Coherent p := by
  let k : Keccak := flatHash
  obtain ⟨hrun, hidle⟩ := warmDb_run
  obtain ⟨-, -, -, -, -, hmem, hreuses, hold⟩ := staleDb_names
  obtain ⟨bytes, hcached, hbytes⟩ := Option.map_eq_some_iff.mp hold
  obtain ⟨σ', hstep, hidle', hp⟩ :=
    @Sys.Reuses.serves k warmDb hreuses hidle 72 hmem bytes hcached (by rw [hbytes]; decide)
  exact ⟨k, staleEnv, σ', hrun.trans (Relation.ReflTransGen.mono (fun _ _ h => Or.inl h) _ _ hstep),
    hidle', hp⟩

section
variable [Keccak] {env : Env} {ramMode direct : Bool} {faults : List Bool} {σ σ1 σ2 : Sys}

/-! ## The checkpoint -/

/-- One event, or a crash, between two persists. -/
def Sys.Between (env : Env) (σ σ' : Sys) : Prop :=
  σ.Steady env σ' ∧ ¬ Sys.Persists σ σ' ∨ Sys.Crash σ σ'

theorem SysInv.between {pay : Payloads} {saved : List Rec} {sh : Shares}
    (h : SteadyInv pay saved σ1 sh) (hrun : Relation.ReflTransGen (Sys.Between env) σ1 σ2) :
    σ2.checkpoint = σ1.checkpoint ∧ ∃ pay' sh', SteadyInv pay' saved σ2 sh' := by
  induction hrun with
  | refl => exact ⟨rfl, pay, sh, h⟩
  | tail _ hs ih =>
    obtain ⟨hcp, pay1, sh1, h1⟩ := ih
    rcases hs with ⟨hs, hnot⟩ | hc
    · obtain ⟨pay2, saved2, sh2, h2, hf⟩ := h1.steady hs
      obtain ⟨rfl, hcp2⟩ := hf.saved.resolve_left hnot
      exact ⟨hcp2.trans hcp, pay2, sh2, h2⟩
    · obtain ⟨sh2, h2, hcp2⟩ := h1.crash hc
      exact ⟨hcp2.trans hcp, pay1, sh2, h2⟩

/-- **The checkpoint survives.**  From the end of a persist to the next one, with any
number of crashes in between, the records of the manifest keep their bytes, and a crash
at any moment brings the root and the contents of that persist back. -/
theorem checkpoint_kept {cp : Checkpoint} (h1 : SteadyRun env (.create ramMode direct faults) σ1)
    (hidle : σ1.running = none) (hcp : σ1.checkpoint = some cp) (hup : cp.upper = σ1.db.upper)
    (h2 : Relation.ReflTransGen (Sys.Between env) σ1 σ2) :
    σ2.checkpoint = some cp ∧
    (∀ p ∈ diskPtrs cp.upper, recordBytes σ2.store.file p = recordBytes σ1.store.file p) ∧
    ∀ σ3, Sys.Crash σ2 σ3 → SameState σ1.store σ1.db.upper σ3.store σ3.db.upper := by
  obtain ⟨pay, saved, sh, hI1⟩ := steadyInv_of_run h1
  obtain ⟨hcp2, pay2, sh2, hI2⟩ := hI1.between h2
  have hm := hI1.checkpoint
  rw [hcp] at hm
  obtain ⟨q, hsaved, -, -⟩ := hm
  have hst : ∀ {σ pay sh}, SteadyInv pay saved σ sh → ∀ x ∈ recsAt q cp.upper, Stored σ.store x :=
    fun h x hx => (h.store.upkept.store.saved x ((hsaved x).mpr hx)).1
  refine ⟨hcp2.trans hcp, fun p hp => ?_, fun σ3 hc => ?_⟩
  · obtain ⟨b, hx⟩ := exists_recAt q hp
    exact (hst hI2 _ hx).recordBytes_eq.trans (hst hI1 _ hx).recordBytes_eq.symm
  · obtain ⟨sh3, hI3, -⟩ := hI2.crash hc
    obtain ⟨hidle3, hup3⟩ : σ3.running = none ∧ σ3.db.upper = σ1.db.upper := by
      obtain ⟨direct, faults, hcp', -, -⟩ := hc
      rw [hcp2, hcp] at hcp'
      cases hcp'
      exact ⟨rfl, hup⟩
    rw [hup3]
    refine sameState_of_loaded (loaded_congr fun p hp => ?_)
    have hserve : ∀ {σ pay sh}, SteadyInv pay saved σ sh → σ.running = none →
        σ.db.upper = σ1.db.upper → ∀ b, (p, b) ∈ recsAt q cp.upper → σ.store.payload p = b := by
      intro σ pay sh hI hidle hup' b hx
      obtain ⟨w, hw⟩ := hI.frontRecs hidle
      rw [hup'] at hw
      obtain ⟨b', hx'⟩ := exists_recAt w hp
      obtain ⟨h1, h2⟩ := hI.store.upkept.store.payload (writerRec_visible (hw _ hx'))
      exact h1.trans (h2.symm.trans (hst hI _ hx).payloadAt)
    obtain ⟨b, hx⟩ := exists_recAt q (hup ▸ hp)
    rw [hserve hI3 hidle3 hup3 b hx, hserve hI1 hidle rfl b hx]

end

/-- A persist that ends well has written the frontier it leaves. -/
theorem Sys.call_persisted [Keccak] {env : Env} {σ : Sys} {picks : List (List Nat)}
    (hok : (run exec (callProg env σ.db (.persist picks)) σ.store).1.2.isOk = true)
    (hfaults : (run exec (callProg env σ.db (.persist picks)) σ.store).2.faults = []) :
    (σ.call env (.persist picks)).checkpoint = some ⟨(σ.call env (.persist picks)).db.upper,
      (σ.call env (.persist picks)).store.endPage⟩ := by
  unfold Sys.call
  generalize run exec (callProg env σ.db (.persist picks)) σ.store = x at hok hfaults ⊢
  obtain ⟨⟨db, r⟩, s⟩ := x
  cases r with
  | error e => cases hok
  | ok a =>
    obtain ⟨file, seg, endPage, direct, readAhead, unsynced, faults⟩ := s
    cases hfaults
    rfl

/-- A call other than a persist is between two of them. -/
theorem Sys.call_between [Keccak] {env : Env} {σ : Sys} (hidle : σ.running = none) {call : Call}
    (hbatch : call.isBatch = false) (hcall : ∀ picks, call ≠ .persist picks)
    (h : σ.replay env call = true) :
    Relation.ReflTransGen (Sys.Between env) σ (σ.call env call) := by
  refine Relation.ReflTransGen.mono (fun a b hs => .inl ⟨hs.1, ?_⟩) _ _
    (Sys.call_steadily hidle hbatch h)
  rintro ⟨picks, db, x, hrun, -⟩
  exact hcall picks (hs.2 _ hrun).symm

/-- A persisted value, overwritten before the crash, is found again. -/
theorem checkpoint_kept_restart :
    let _ : Keccak := flatHash
    diskPtrs savedDb.db.upper = [⟨0, 74⟩] ∧ diskPtrs rewrittenDb.db.upper = [⟨1, 74⟩] ∧
    recordBytes rewrittenDb.store.file ⟨0, 74⟩ = recordBytes savedDb.store.file ⟨0, 74⟩ ∧
    SameState savedDb.store savedDb.db.upper rewrittenDb.restart.store
      rewrittenDb.restart.db.upper := by
  intro _
  obtain ⟨hrun, hidle⟩ := onceDb_steady
  obtain ⟨-, -, h2, hok, hfaults, h3, hptrs, hptrs'⟩ := onceDb_calls
  have hsaved : SteadyRun staleEnv (.create false false []) savedDb ∧ savedDb.running = none ∧
      savedDb.checkpoint = some ⟨savedDb.db.upper, savedDb.store.endPage⟩ := by
    unfold savedDb
    exact ⟨.of_steady (hrun.trans (Sys.call_steady hidle rfl h2)), Sys.call_running _ _,
      Sys.call_persisted hok hfaults⟩
  have hbetween : Relation.ReflTransGen (Sys.Between staleEnv) savedDb rewrittenDb := by
    unfold rewrittenDb
    exact Sys.call_between hsaved.2.1 rfl (fun _ he => by cases he) h3
  have hrest : rewrittenDb.running = none := by
    unfold rewrittenDb
    exact Sys.call_running _ _
  obtain ⟨hcp, hbytes, hcrash⟩ := checkpoint_kept hsaved.1 hsaved.2.1 hsaved.2.2 rfl hbetween
  refine ⟨hptrs, hptrs', hbytes _ ?_, hcrash _ (Sys.restart_crash hrest (by rw [hcp]; rfl))⟩
  rw [hptrs]
  exact List.mem_singleton_self _

/-- An event that is not the end of a persist. -/
def Sys.Unpersisted [Keccak] (env : Env) (σ σ' : Sys) : Prop :=
  Sys.Step env Succeeds σ σ' ∧ ¬ Sys.Persists σ σ'

theorem Sys.During.unpersisted [Keccak] {env : Env} {call : Call} (hcall : ∀ picks, call ≠ .persist picks)
    {σ σ' : Sys} (h : Relation.ReflTransGen (Sys.During env Succeeds call) σ σ') :
    Relation.ReflTransGen (Sys.Unpersisted env) σ σ' := by
  refine Relation.ReflTransGen.mono (fun a b hs => ⟨hs.1, ?_⟩) _ _ h
  rintro ⟨picks, db, x, hrun, -⟩
  exact hcall picks (hs.2 _ hrun).symm

/-- The checkpoint names a record whose region has been let go. -/
theorem staleDb_checkpoint :
    let _ : Keccak := flatHash
    staleDb.checkpoint = some ⟨staleDb.db.upper, staleDb.store.endPage⟩ := by
  intro _
  obtain ⟨-, -, -, hok, hfaults⟩ := staleDb_calls
  unfold staleDb
  exact Sys.call_persisted hok hfaults

/-- A record at the start of region 0 is overwritten. -/
theorem Sys.Reuses.overwrites [Keccak] {σ : Sys} (h : σ.cleared.Reuses) (hidle : σ.running = none)
    {p : DiskPtr} (hunit : p.unit = 0) (hlen : 2 ≤ p.len) (hold : σ.store.file 5 ≠ 0x30) :
    ∃ σ', Relation.ReflTransGen (Sys.Unpersisted staleEnv) σ σ' ∧
      recordBytes σ'.store.file p ≠ recordBytes σ.store.file p := by
  obtain ⟨hreplay, -, -, -, hfile⟩ := h.insert
  have hidle' : σ.cleared.running = none := (Sys.cleared_running σ).trans hidle
  have hcall := Sys.During.unpersisted (fun _ he => by cases he)
    (Sys.call_during (fun _ _ h => h) hidle' hreplay)
  have hclear : Sys.Unpersisted staleEnv σ σ.cleared := by
    refine ⟨Sys.cleared_step hidle, ?_⟩
    rintro ⟨picks, db, a, hrun, -⟩
    rw [hidle] at hrun
    cases hrun
  refine ⟨_, .head hclear hcall, fun he => hold ?_⟩
  have hlt : ∀ file : Nat → UInt8, 5 < (recordBytes file p).length := fun file => by
    rw [recordBytes, readBytesAt_length]
    show 5 < 4 + p.len
    omega
  have hoff : p.offset + 5 = 5 := by
    simp only [DiskPtr.offset, hunit, Nat.zero_mul]
  have hbyte : ∀ file : Nat → UInt8, (recordBytes file p)[5]? = some (file 5) := fun file => by
    rw [List.getElem?_eq_getElem (hlt file)]
    exact congrArg some ((readBytesAt_getElem file _ _ _ (hlt file)).trans (congrArg file hoff))
  have h5 : (recordBytes _ p)[5]? = (recordBytes _ p)[5]? := congrArg (fun bs : Bytes => bs[5]?) he
  rw [hbyte, hbyte, hfile] at h5
  exact (Option.some.inj h5).symm

/-- A record of the last checkpoint is overwritten. -/
theorem checkpoint_record_overwritten :
    ∃ (_ : Keccak) (env : Env) (σ1 σ2 : Sys) (cp : Checkpoint),
      Run env Succeeds (.create false false []) σ1 ∧ σ1.running = none ∧
      σ1.checkpoint = some cp ∧ cp.upper = σ1.db.upper ∧
      Relation.ReflTransGen (Sys.Unpersisted env) σ1 σ2 ∧
      ∃ p ∈ diskPtrs cp.upper, recordBytes σ2.store.file p ≠ recordBytes σ1.store.file p := by
  let k : Keccak := flatHash
  obtain ⟨hrun, hidle⟩ := staleDb_run
  obtain ⟨hmem, hold, hreuses, -⟩ := staleDb_names
  obtain ⟨σ', hsteps, hne⟩ :=
    @Sys.Reuses.overwrites k staleDb hreuses hidle ⟨0, 74⟩ rfl (by decide) hold
  exact ⟨k, staleEnv, staleDb, σ', _, hrun, hidle, staleDb_checkpoint, rfl, hsteps, _, hmem, hne⟩

end FlatMpt
