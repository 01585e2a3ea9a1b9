import FlatMpt.Steady

/-!
# Workers in a run

In a steady run the order in which the workers of a block or of a batch reach the store
does not matter.  After a batch that failed behind its own frees, one worker can write
over a record that the frontier still names before another worker reads it.

    interleaving_irrelevant   -- in every idle state of a steady run
    inOrder, oneFirst         -- two orders
    clashingDb                -- where they differ
-/

namespace FlatMpt

open Prog

section
variable [Keccak] {env : Env} {ramMode direct : Bool} {faults : List Bool} {σ : Sys}

omit [Keccak] in
/-- The frontier of an idle writer is at rest. -/
theorem SysInv.atRest {pay : Payloads} {saved : List Rec} {sh : Shares}
    (h : SteadyInv pay saved σ sh) (hidle : σ.running = none) :
    ∃ W f m g, AtRest W f σ.store σ.db.upper m g := by
  obtain ⟨q, rest, hw, -⟩ := h.fronted hidle
  have htotal : sh.total = recsAt q σ.db.upper + (rest + (sh.collecting.sum + sh.batches.sum)) := by
    unfold Shares.total
    rw [hw, add_assoc]
  have hst := h.store.upkept.store
  have hsc := h.store.upkept.scattered
  rw [htotal] at hst hsc
  exact ⟨_, _, _, _, placed_leaves q _ [], hst, hsc⟩

/-- **The interleaving of the workers does not matter.**  In every idle state of a steady
run and in every interleaving of the parts of a block's or of a batch's store calls, no
thread comes to a record after its units were handed out again, and any two that end well
report the same root and the same inverse and leave the same content; without I/O faults
they also fail alike. -/
theorem interleaving_irrelevant (hrun : SteadyRun env (.create ramMode direct faults) σ)
    (hidle : σ.running = none) :
    (∀ ops passes, ReadsIntact σ.store (diskPtrs σ.db.upper)
        (callProg env σ.db (.applyBlock ops passes)) ∧
      ∀ passes' db1 db2 r1 r2 s1 s2,
        Interleaved anyAns σ.store (callProg env σ.db (.applyBlock ops passes)) (db1, .ok r1) s1 →
        Interleaved anyAns σ.store (callProg env σ.db (.applyBlock ops passes')) (db2, .ok r2) s2 →
        r1 = r2 ∧ SameContent s1 db1.upper s2 db2.upper) ∧
    (∀ net x1 x2 s1 s2,
      Interleaved (Given False) σ.store (applyNet env σ.db.ramMode net σ.db.upper) x1 s1 →
      Interleaved (Given False) σ.store (applyNet env σ.db.ramMode net σ.db.upper) x2 s2 →
      x1.2 = x2.2) ∧
    (∀ entries arrange spill, (∀ gs, (arrange gs).Perm gs) →
      ReadsIntact σ.store (diskPtrs σ.db.upper)
        (callProg env ⟨σ.db.upper, false⟩ (.insertBatch entries arrange spill)) ∧
      ∀ arrange' db1 db2 r1 r2 s1 s2, (∀ gs, (arrange' gs).Perm gs) →
        Interleaved anyAns σ.store
          (callProg env ⟨σ.db.upper, false⟩ (.insertBatch entries arrange spill)) (db1, .ok r1) s1 →
        Interleaved anyAns σ.store
          (callProg env ⟨σ.db.upper, false⟩ (.insertBatch entries arrange' spill)) (db2, .ok r2) s2 →
        r1 = r2 ∧ SameContent s1 db1.upper s2 db2.upper) ∧
    (∀ leaves arrange1 arrange2 x1 x2 s1 s2, (∀ gs, (arrange1 gs).Perm gs) →
      (∀ gs, (arrange2 gs).Perm gs) →
      Interleaved (Given False) σ.store (insertBatchDisk env arrange1 leaves σ.db.upper) x1 s1 →
      Interleaved (Given False) σ.store (insertBatchDisk env arrange2 leaves σ.db.upper) x2 s2 →
      x1.2.isOk = x2.2.isOk) := by
  obtain ⟨pay, saved, sh, hI⟩ := steadyInv_of_run hrun
  obtain ⟨W, f, m, g, h⟩ := hI.atRest hidle
  refine ⟨fun ops passes => h.blocks env σ.db.ramMode ops passes, ?_, ?_, ?_⟩
  · intro net x1 x2 s1 s2 hr1 hr2
    exact applyNet_alike env σ.db.ramMode net h hr1 hr2
  · intro entries arrange spill harr
    exact h.batches env entries harr spill
  · intro leaves arrange1 arrange2 x1 x2 s1 s2 harr1 harr2 hr1 hr2
    exact insertBatchDisk_alike env harr1 harr2 leaves h hr1 hr2

end

/-! ## Two orders -/

/-- A call, its workers one after the other. -/
@[irreducible] def inOrder [Keccak] (σ : Sys) (call : Call) : (Db × Except Err Reply) × Store :=
  run execPart (expand parts (callProg staleEnv σ.db call)) σ.store

/-- A call, worker 1 before the others. -/
@[irreducible] def oneFirst [Keccak] (σ : Sys) (call : Call) : (Db × Except Err Reply) × Store :=
  runFirst execPart 1 (expand parts (callProg staleEnv σ.db call)) σ.store

theorem interleaved_ok {s s' : Store} {p : Upd Db Reply} {x : Db × Except Err Reply}
    (h : Interleaved anyAns s p x s') (hok : x.2.isOk = true) :
    ∃ r, Interleaved anyAns s p (x.1, .ok r) s' := by
  obtain ⟨db, e | r⟩ := x
  · cases hok
  · exact ⟨r, h⟩

section
variable [Keccak] {σ : Sys} {call : Call}

theorem inOrder_interleaved (h : (inOrder σ call).1.2.isOk = true) :
    ∃ r, Interleaved anyAns σ.store (callProg staleEnv σ.db call) ((inOrder σ call).1.1, .ok r)
      (inOrder σ call).2 := by
  refine interleaved_ok ?_ h
  unfold inOrder
  exact exec_run _ _

theorem oneFirst_interleaved (h : (oneFirst σ call).1.2.isOk = true) :
    ∃ r, Interleaved anyAns σ.store (callProg staleEnv σ.db call) ((oneFirst σ call).1.1, .ok r)
      (oneFirst σ call).2 := by
  refine interleaved_ok ?_ h
  unfold oneFirst
  exact exec_runFirst 1 _ _

end

/-- Worker 0 writes a record; worker 1 reads one, frees it and writes it anew. -/
def clash : List (Key × StateOp) :=
  [(.fill 0x05, .setAccount 1 1 (.fill 0)), (.fill 0x11, .setAccount 2 2 (.fill 0))]

/-- Two values, one of them saved. -/
@[irreducible] def pairDb [Keccak] : Sys := savedDb.call staleEnv (.insert (.fill 0x20) (.value [4]))

/-- Both values overwritten. -/
def pairBatch (arrange : List Group → List Group) : Call :=
  .insertBatch [(.fill 0x10, [2]), (.fill 0x20, [3])] arrange false

theorem pairDb_calls :
    let _ : Keccak := flatHash
    savedDb.replay staleEnv (.insert (.fill 0x20) (.value [4])) = true ∧
    pairDb.db.ramMode = false ∧ diskPtrs pairDb.db.upper = [⟨0, 74⟩, ⟨1, 74⟩] ∧
    (inOrder pairDb (.applyBlock clash [])).1.2.isOk = true ∧
    (oneFirst pairDb (.applyBlock clash [])).1.2.isOk = true ∧
    (inOrder pairDb (pairBatch id)).1.2.isOk = true ∧
    (inOrder pairDb (pairBatch List.reverse)).1.2.isOk = true ∧
    diskPtrs (inOrder pairDb (.applyBlock clash [])).1.1.upper =
      [⟨2, 109⟩, ⟨3, 223⟩, ⟨1, 74⟩] ∧
    diskPtrs (oneFirst pairDb (.applyBlock clash [])).1.1.upper =
      [⟨3, 109⟩, ⟨2, 223⟩, ⟨1, 74⟩] ∧
    diskPtrs (inOrder pairDb (pairBatch id)).1.1.upper = [⟨2, 74⟩, ⟨3, 74⟩] ∧
    diskPtrs (inOrder pairDb (pairBatch List.reverse)).1.1.upper = [⟨3, 74⟩, ⟨2, 74⟩] := by
  decide +kernel

theorem pairDb_run :
    let _ : Keccak := flatHash
    SteadyRun staleEnv (.create false false []) pairDb ∧ pairDb.running = none := by
  intro _
  obtain ⟨hrun, hidle⟩ := onceDb_steady
  obtain ⟨-, -, h1, -⟩ := onceDb_calls
  obtain ⟨h2, -⟩ := pairDb_calls
  have hsaved : savedDb.running = none := by
    unfold savedDb
    exact Sys.call_running _ _
  unfold pairDb
  refine ⟨.of_steady ((hrun.trans ?_).trans (Sys.call_steady hsaved rfl h2)), Sys.call_running _ _⟩
  unfold savedDb
  exact Sys.call_steady hidle rfl h1

/-- Records are read, freed and written in two orders: elsewhere, but with the same
content. -/
theorem interleaving_irrelevant_pair :
    let _ : Keccak := flatHash
    (ReadsIntact pairDb.store (diskPtrs pairDb.db.upper)
        (callProg staleEnv pairDb.db (.applyBlock clash [])) ∧
      diskPtrs (inOrder pairDb (.applyBlock clash [])).1.1.upper =
        [⟨2, 109⟩, ⟨3, 223⟩, ⟨1, 74⟩] ∧
      diskPtrs (oneFirst pairDb (.applyBlock clash [])).1.1.upper =
        [⟨3, 109⟩, ⟨2, 223⟩, ⟨1, 74⟩] ∧
      SameContent (inOrder pairDb (.applyBlock clash [])).2
        (inOrder pairDb (.applyBlock clash [])).1.1.upper
        (oneFirst pairDb (.applyBlock clash [])).2
        (oneFirst pairDb (.applyBlock clash [])).1.1.upper) ∧
    ReadsIntact pairDb.store (diskPtrs pairDb.db.upper)
        (callProg staleEnv pairDb.db (pairBatch id)) ∧
      diskPtrs (inOrder pairDb (pairBatch id)).1.1.upper = [⟨2, 74⟩, ⟨3, 74⟩] ∧
      diskPtrs (inOrder pairDb (pairBatch List.reverse)).1.1.upper = [⟨3, 74⟩, ⟨2, 74⟩] ∧
      SameContent (inOrder pairDb (pairBatch id)).2 (inOrder pairDb (pairBatch id)).1.1.upper
        (inOrder pairDb (pairBatch List.reverse)).2
        (inOrder pairDb (pairBatch List.reverse)).1.1.upper := by
  intro _
  obtain ⟨hrun, hidle⟩ := pairDb_run
  obtain ⟨-, hdisk, -, h1, h2, h3, h4, hp1, hp2, hp3, hp4⟩ := pairDb_calls
  obtain ⟨hblock, -, hbatch, -⟩ := interleaving_irrelevant hrun hidle
  have hdb : pairDb.db = ⟨pairDb.db.upper, false⟩ := by
    rw [← hdisk]
  obtain ⟨r1, hr1⟩ := inOrder_interleaved h1
  obtain ⟨r2, hr2⟩ := oneFirst_interleaved h2
  obtain ⟨r3, hr3⟩ := inOrder_interleaved h3
  obtain ⟨r4, hr4⟩ := inOrder_interleaved h4
  obtain ⟨hreads, hsame⟩ := hblock clash []
  obtain ⟨hreads', hsame'⟩ := hbatch [(.fill 0x10, [2]), (.fill 0x20, [3])] id false fun _ => .refl _
  rw [← hdb] at hreads' hsame'
  exact ⟨⟨hreads, hp1, hp2, (hsame _ _ _ _ _ _ _ hr1 hr2).2⟩, hreads', hp3, hp4,
    (hsame' _ _ _ _ _ _ _ List.reverse_perm hr3 hr4).2⟩

/-! ## A record overwritten between workers -/

/-- A value whose record is as long as an account's. -/
def agedCalls : List Call := [.insert (.fill 0x10) (.value (List.replicate 36 1)), .persist []]

/-- As `staleDb`, with `O_DIRECT`: the record at unit 0 is named, and its region is free. -/
@[irreducible] def agedDb [Keccak] : Sys :=
  ((Sys.create false true []).calls staleEnv agedCalls).restart.calls staleEnv
    (failingCalls ++ [.persist []])

/-- Each takes a page. -/
def padCalls : List Call := List.replicate 31 (.insert (.fill 0x30) (.value [1]))

/-- The head is full: the next record goes to unit 0. -/
@[irreducible] def clashingDb [Keccak] : Sys := agedDb.cleared.calls staleEnv padCalls

theorem clashingDb_calls :
    let _ : Keccak := flatHash
    (Sys.create false true []).replays staleEnv agedCalls = true ∧
    ((Sys.create false true []).calls staleEnv agedCalls).checkpoint.isSome ∧
    ((Sys.create false true []).calls staleEnv agedCalls).restart.replays staleEnv
      (failingCalls ++ [.persist []]) = true ∧
    agedDb.cleared.replays staleEnv padCalls = true ∧
    isBranch clashingDb.db.upper = true ∧
    (inOrder clashingDb (.applyBlock clash [])).1.2.isOk = true ∧
    (oneFirst clashingDb (.applyBlock clash [])).1.2.isOk = true ∧
    (getValue (inOrder clashingDb (.applyBlock clash [])).2
      (inOrder clashingDb (.applyBlock clash [])).1.1.upper (.fill 0x10)).toOption = some none ∧
    (getValue (oneFirst clashingDb (.applyBlock clash [])).2
      (oneFirst clashingDb (.applyBlock clash [])).1.1.upper (.fill 0x10)).toOption =
        some (some (List.replicate 36 1)) := by
  decide +kernel

theorem clashingDb_run :
    let _ : Keccak := flatHash
    Run staleEnv Succeeds (.create false true []) clashingDb ∧ clashingDb.running = none := by
  intro _
  obtain ⟨h1, hcp, h2, h3, -⟩ := clashingDb_calls
  have haged : agedDb.running = none := by
    unfold agedDb
    exact Sys.calls_running (Sys.restart_running (Sys.calls_running rfl))
  have hrun : Run staleEnv Succeeds (.create false true []) agedDb := by
    unfold agedDb
    exact Sys.restarted_run (fun _ _ h => h) rfl h1 hcp h2
  have hclear : agedDb.cleared.running = none := (Sys.cleared_running _).trans haged
  unfold clashingDb
  refine ⟨(hrun.tail (.inl (Sys.cleared_step haged))).trans ?_, Sys.calls_running hclear⟩
  exact Relation.ReflTransGen.mono (fun _ _ h => Or.inl h) _ _
    (Sys.calls_steps (fun _ _ h => h) hclear h3)

/-- One worker writes over a record before another reads it, or after: the block ends well
both times, with different content. -/
theorem interleaving_observed :
    ∃ (_ : Keccak) (env : Env) (σ : Sys) (ops : List (Key × StateOp)) (db1 db2 : Db)
      (r1 r2 : Reply) (s1 s2 : Store), Run env Succeeds (.create false true []) σ ∧
      σ.running = none ∧ isBranch σ.db.upper = true ∧
      Interleaved anyAns σ.store (callProg env σ.db (.applyBlock ops [])) (db1, .ok r1) s1 ∧
      Interleaved anyAns σ.store (callProg env σ.db (.applyBlock ops [])) (db2, .ok r2) s2 ∧
      ¬ SameState s1 db1.upper s2 db2.upper := by
  let k : Keccak := flatHash
  obtain ⟨hrun, hidle⟩ := clashingDb_run
  obtain ⟨-, -, -, -, hbranch, h1, h2, hv1, hv2⟩ := clashingDb_calls
  obtain ⟨r1, hr1⟩ := @inOrder_interleaved k _ _ h1
  obtain ⟨r2, hr2⟩ := @oneFirst_interleaved k _ _ h2
  refine ⟨k, staleEnv, clashingDb, clash, _, _, r1, r2, _, _, hrun, hidle, hbranch, hr1, hr2,
    fun h => ?_⟩
  rw [h.value, hv1] at hv2
  cases hv2

end FlatMpt
