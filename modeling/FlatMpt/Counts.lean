import FlatMpt.SysInv
import FlatMpt.Replay

/-!
# Live counts of whole runs

While no call and no collection fails and every batch is installed, the allocator
counts exactly the units of the frontier's records and of the copies that
collections hold, and no free takes more than is there.  A call that fails may
forget records without freeing them.

    unitsIn          -- units of pointers in a region
    Sys.copies       -- copies that are not installed yet
    Sys.Counted      -- exact counts
    counted          -- of runs without failing calls
-/

namespace FlatMpt

open Prog RegionAlloc

/-! ## Exact counts -/

/-- Units that pointers occupy in a region. -/
def unitsIn (ptrs : List DiskPtr) (r : Nat) : Nat :=
  ((ptrs.filter fun p => regionOfUnit p.unit = r).map DiskPtr.units).sum

def copiesOf (items : List Reloc) : List DiskPtr := items.map Reloc.new

/-- The copies of a collection that has written them. -/
def Act.copies : Act (List Reloc) → List DiskPtr
  | .pure (.ok items) => copiesOf items
  | _ => []

/-- The copies of collections and batches. -/
def Sys.copies (σ : Sys) : List DiskPtr :=
  σ.batches.flatMap (fun b => copiesOf b.items) ++ σ.collecting.flatMap fun c => c.2.copies

/-- Between calls the live counts are exact and `open` would find the same, apart from
copies; during a call no free takes more than is counted. -/
structure Sys.Counted (σ : Sys) : Prop where
  live : σ.running = none → ∀ r,
    σ.store.seg.live r = unitsIn (diskPtrs σ.db.upper) r + unitsIn σ.copies r
  recomputed : σ.running = none → ∀ r,
    recomputeLive (diskPtrs σ.db.upper) (regionCeil σ.store.endPage) r =
      unitsIn (diskPtrs σ.db.upper) r
  enough : ∀ p, (∃ run ∈ σ.running, Asks run.prog (.free p)) ∨
    (∃ c ∈ σ.collecting, Asks c.2 (.free p)) →
    p.units ≤ σ.store.seg.live (regionOfUnit p.unit)

theorem unitsIn_append (ps qs : List DiskPtr) (r : Nat) :
    unitsIn (ps ++ qs) r = unitsIn ps r + unitsIn qs r := by
  unfold unitsIn
  rw [List.filter_append, List.map_append, List.sum_append]

theorem usedUnits_map_fst {g : Multiset Rec} {ptrs : List DiskPtr} (h : g.map Prod.fst = ptrs)
    (r : Nat) : usedUnits g r = unitsIn ptrs r := by
  have hs := congrArg (fun ps : Multiset DiskPtr =>
    (ps.map fun p => if regionOfUnit p.unit = r then p.units else 0).sum) h
  simp only [Multiset.map_map] at hs
  unfold unitsIn
  rw [sum_filter_units]
  exact hs

theorem Copied.units {P : Rec → Prop} {items : List Reloc} {g : Multiset Rec}
    (h : Copied P items g) (r : Nat) : usedUnits g r = unitsIn (copiesOf items) r := by
  obtain ⟨bs, hb, rfl⟩ := h
  refine usedUnits_map_fst ?_ r
  unfold recsOf copiesOf
  rw [Multiset.map_coe, List.map_fst_zip]
  rw [List.length_map, hb.length_eq]

/-- Shares that hold the units of their owners' pointers. -/
theorem usedUnits_sum {α : Type*} {R : α → Multiset Rec → Prop} {l : List α}
    {gs : List (Multiset Rec)} {ptrs : α → List DiskPtr} (r : Nat)
    (h : List.Forall₂ R l gs) (hR : ∀ a ∈ l, ∀ g, R a g → usedUnits g r = unitsIn (ptrs a) r) :
    usedUnits gs.sum r = unitsIn (l.flatMap ptrs) r := by
  induction h with
  | nil => rfl
  | cons ha _ ih =>
    rw [List.sum_cons, usedUnits_add, List.flatMap_cons, unitsIn_append,
      hR _ List.mem_cons_self _ ha, ih fun a hm => hR a (List.mem_cons_of_mem _ hm)]

section
variable {ok : (r : Req) → Resp r → Prop} {pay : Payloads} {saved : List Rec} {σ : Sys}
  {sh : Shares}

/-- Before its write a collection owns nothing, afterwards its copies. -/
theorem CollectorOwns.units {c : Snapshot × Act (List Reloc)} {g : Multiset Rec}
    (h : CollectorOwns ok pay c g) (hc : ∀ e, c.2 ≠ .pure (.error e)) (r : Nat) :
    usedUnits g r = unitsIn c.2.copies r := by
  obtain ⟨snap, p⟩ := c
  cases p with
  | pure a =>
    cases a with
    | error e => exact absurd rfl (hc e)
    | ok items => exact Copied.units h.copies r
  | step q k =>
    rw [h.none nofun]
    rfl
  | par ps k =>
    rw [h.none nofun]
    rfl

/-- A record that is about to be freed is owned. -/
theorem asks_free_owned {α : Type} {W : Holds} {p : Prog Resp α} {ptr : DiskPtr}
    (hp : Asks p (.free ptr)) {g : Multiset Rec} {Q : α → Multiset Rec → Prop}
    (h : wp ((flat W).filter ok) p g Q) : ∃ b, (ptr, b) ∈ g := by
  obtain ⟨g0, f, K, rfl, b, g', rfl, -⟩ := wp_asks hp h
  exact ⟨b, Multiset.mem_add.mpr (.inl (Multiset.mem_cons_self _ _))⟩

theorem SysInv.live_eq (h : SysInv ok False pay saved σ sh) (hclean : σ.Clean) : σ.Counted := by
  have htidy := h.store.upkept.tidy id
  have hlive : σ.running = none → usedUnits sh.writer = unitsIn (diskPtrs σ.db.upper) := by
    intro hidle
    obtain ⟨p, rest, hw, hr⟩ := h.fronted hidle
    funext r
    rw [hw, hr.resolve_left id, add_zero]
    exact usedUnits_recsAt p σ.db.upper r
  refine ⟨fun hidle r => ?_, fun hidle r => ?_, fun p hp => ?_⟩
  · rw [htidy.live r, Shares.total, usedUnits_add, usedUnits_add, hlive hidle, Sys.copies,
      unitsIn_append, add_comm (usedUnits sh.collecting.sum r)]
    rw [usedUnits_sum r h.batches fun b _ g hg => Copied.units hg r]
    rw [usedUnits_sum r h.collecting fun c hc g hg => hg.units (fun e he => ?_) r]
    exact hclean.collections c.1 e (by
      rw [← he]
      exact hc)
  · unfold recomputeLive
    split
    · rfl
    · rename_i hr
      -- no record lies past the file's end
      obtain ⟨p, rest, hw, -⟩ := h.fronted hidle
      rw [← hlive hidle]
      refine (usedUnits_eq_zero fun x hx he => hr ?_).symm
      rw [← he]
      exact (h.store.upkept.store.stored x (Multiset.mem_add.mpr (.inl hx))).taken.inFile
  · have hc := h.store.upkept.store.counted (regionOfUnit p.unit)
    have hmem : ∃ b, (p, b) ∈ sh.total := by
      unfold Shares.total
      simp only [Multiset.mem_add]
      rcases hp with ⟨run, hrun, hp⟩ | ⟨c, hcol, hp⟩
      · have hw := h.writer
        rw [Option.mem_def.mp hrun] at hw
        obtain ⟨b, hb⟩ := asks_free_owned hp hw
        exact ⟨b, .inl hb⟩
      · obtain ⟨l1, l2, hl⟩ := List.append_of_mem hcol
        have hcs := h.collecting
        rw [hl] at hcs
        obtain ⟨u1, u, u2, hsh, -, hu, -⟩ := forall₂_middle hcs
        obtain ⟨b, hb⟩ := asks_free_owned hp hu.copies
        refine ⟨b, .inr (.inl ?_)⟩
        rw [hsh, List.sum_append, List.sum_cons]
        simp only [Multiset.mem_add]
        exact .inr (.inl hb)
    obtain ⟨b, hb⟩ := hmem
    obtain ⟨g', hg'⟩ := Multiset.exists_cons_of_mem hb
    rw [hg', usedUnits_cons, if_pos rfl] at hc
    exact (Nat.le_add_right _ _).trans hc

end

/-! ## Runs -/

theorem Sys.create_clean (ramMode direct : Bool) (faults : List Bool) :
    (Sys.create ramMode direct faults).Clean :=
  ⟨nofun, fun _ _ h => absurd h List.not_mem_nil⟩

theorem Sys.Crash.clean {σ σ' : Sys} (h : Sys.Crash σ σ') : σ'.Clean := by
  cases h
  exact ⟨nofun, fun _ _ h => absurd h List.not_mem_nil⟩

section
variable [Keccak]

/-- An event without I/O errors, after which no call and no collection has failed, and
which drops no batch with copies in it.  A batch's groups are taken in some order, each once. -/
structure Sys.Careful (env : Env) (σ σ' : Sys) : Prop where
  step : Sys.Step env (Allowed False) σ σ'
  arranged : Sys.Starts env Call.Arranged σ σ'
  clean : σ'.Clean
  batches : Sys.KeepsBatches σ σ'

theorem SysInv.careful {pay : Payloads} {saved : List Rec} {σ σ' : Sys} {sh : Shares} {env : Env}
    (h : SysInv (Allowed False) False pay saved σ sh) (hclean : σ.Clean)
    (hs : Sys.Careful env σ σ') :
    ∃ pay' saved' sh', SysInv (Allowed False) False pay' saved' σ' sh' := by
  obtain ⟨pay', saved', sh', h', -⟩ := h.step (.inr allowed_exact)
    (fun call harr hne hidle => callProg_exact (allowed_faithful False) env hne harr
      (h.fronted hidle) h.scattered) hs.step hs.arranged (.inr ⟨hclean, hs.batches⟩)
  exact ⟨pay', saved', sh', h'⟩

/-- **Counts are exact** in runs without failing calls and dropped copies, also across
crashes. -/
theorem counted {env : Env} {ramMode direct : Bool} {faults : List Bool} {σ : Sys}
    (h : Relation.ReflTransGen (fun σ σ' => Sys.Careful env σ σ' ∨ Sys.Crash σ σ')
      (Sys.create ramMode direct faults) σ) : σ.Counted := by
  have hinv : σ.Clean ∧ ∃ pay saved sh, SysInv (Allowed False) False pay saved σ sh := by
    induction h with
    | refl => exact ⟨Sys.create_clean .., _, [], _,
      .create trivial _ _ _ (fun _ _ => []) ramMode direct faults⟩
    | tail _ hs ih =>
      obtain ⟨hclean, pay, saved, sh, hI⟩ := ih
      rcases hs with hs | hs
      · exact ⟨hs.clean, hI.careful hclean hs⟩
      · obtain ⟨sh', hI', -⟩ := hI.crash hs
        exact ⟨hs.clean, pay, saved, sh', hI'⟩
  obtain ⟨hclean, pay, saved, sh, hI⟩ := hinv
  exact hI.live_eq hclean

/-- Requests of a call that ends well. -/
theorem Sys.work_careful {env : Env} {call : Call} {p p' : Upd Db Reply} {s s' : Store} {db : Db}
    {a : Reply} (h : Steps exec (Allowed False) s p s' p') (hp : p' = .pure (db, .ok a)) :
    ∀ {σ : Sys}, σ.store = s → σ.running = some ⟨call, p⟩ →
      (∀ snap e, (snap, .pure (.error e)) ∉ σ.collecting) →
      σ.Clean ∧ Relation.ReflTransGen (Sys.Careful env) σ
        { σ with store := s', running := some ⟨call, p'⟩ } := by
  induction h with
  | refl =>
    rintro σ rfl hrun hcol
    refine ⟨⟨fun call' db' e he => ?_, hcol⟩, ?_⟩
    · rw [hrun, hp] at he
      cases he
    · rw [← hrun]
  | @head s s1 s2 p p1 p2 hstep _ ih =>
    rintro σ rfl hrun hcol
    obtain ⟨hclean, hrest⟩ := @ih hp { σ with store := s1, running := some ⟨call, p1⟩ } rfl rfl hcol
    refine ⟨⟨fun call' db' e he => ?_, hcol⟩,
      .head ⟨.work hrun hstep, ?_, hclean, fun _ => le_rfl⟩ hrest⟩
    · rw [hrun] at he
      cases he
      cases hstep
    · intro call' hidle
      rw [hrun] at hidle
      cases hidle

theorem Sys.call_careful {env : Env} {σ : Sys} (hidle : σ.running = none) (hclean : σ.Clean)
    {call : Call} (harr : call.Arranged) (h : σ.replay env call = true)
    (hend : (run exec (callProg env σ.db call) σ.store).1.2.isOk = true) :
    Relation.ReflTransGen (Sys.Careful env) σ (σ.call env call) := by
  unfold Sys.replay at h
  simp only [Bool.and_eq_true, Bool.not_eq_true'] at h
  obtain ⟨hcall, hchecks, -⟩ := h
  have hrun := (exec_run_of_checks _ _ hchecks).mono fun r x hx =>
    ((succeeds_iff r x).mp hx).allowed False
  obtain ⟨db, r, hx⟩ : ∃ db r, (run exec (callProg env σ.db call) σ.store).1 = (db, r) := ⟨_, _, rfl⟩
  cases r with
  | error e =>
    rw [hx] at hend
    cases hend
  | ok a =>
    let σ1 : Sys := { σ with running := some ⟨call, callProg env σ.db call⟩ }
    obtain ⟨hclean1, hwork⟩ := @Sys.work_careful _ env call _ _ _ _ db a hrun (by rw [hx]) σ1 rfl rfl
      hclean.collections
    refine .head ⟨.start call hidle ?_, ?_, hclean1, fun _ => le_rfl⟩ (.tail hwork
      ⟨.finish rfl ?_, ?_, ?_, fun he => ?_⟩)
    · rintro b rfl
      cases hcall
    · intro call' _ he
      cases he
      exact harr
    · rw [hx]
      nofun
    · intro call' hn
      cases hn
    · refine ⟨fun call' db' e he => ?_, fun snap e hm => ?_⟩
      · rw [Sys.call_running] at he
        cases he
      · rw [Sys.call_collecting] at hm
        exact hclean.collections snap e hm
    · rw [Sys.call_running] at he
      cases he

end

/-- One insert into a new database. -/
theorem counted_insert :
    let _ : Keccak := ⟨fun _ => .fill 0⟩
    ((Sys.create false false []).call ⟨⟨4096, 65536, 2048⟩, false⟩
      (.insert (.fill 1) (.value [1]))).Counted := by
  intro _
  have hrun : Relation.ReflTransGen (Sys.Careful ⟨⟨4096, 65536, 2048⟩, false⟩)
      (Sys.create false false []) _ :=
    @Sys.call_careful _ _ _ rfl (Sys.create_clean false false []) (.insert (.fill 1) (.value [1]))
      trivial (by decide +kernel) (by decide +kernel)
  exact counted (Relation.ReflTransGen.mono (fun _ _ h => Or.inl h) _ _ hrun)

/-- A failing delete forgets the record of its path. -/
theorem counted_lost_leaf :
    ∃ (_ : Keccak) (env : Env) (σ : Sys), Run env (Allowed False) (Sys.create false false []) σ ∧
      σ.running = none ∧
      σ.store.seg.live 0 ≠ unitsIn (diskPtrs σ.db.upper) 0 + unitsIn σ.copies 0 := by
  let k : Keccak := ⟨fun _ => .fill 0⟩
  let env : Env := ⟨⟨4096, 65536, 2048⟩, false⟩
  let calls : List Call := [.insert (.fill 1) (.value [1]), .delete (.fill 1) (.storage (.fill 2))]
  have hr : (Sys.create false false []).replays env calls = true := by decide +kernel
  refine ⟨k, env, (Sys.create false false []).calls env calls, ?_, rfl, by decide +kernel⟩
  have hrun : Relation.ReflTransGen (Sys.Step env (Allowed False)) _ _ :=
    Sys.calls_steps (fun _ _ h => h.allowed False) rfl hr
  exact Relation.ReflTransGen.mono (fun _ _ h => Or.inl h) _ _ hrun

end FlatMpt
