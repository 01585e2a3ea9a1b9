import FlatMpt.Pinning
import FlatMpt.Reclaim
import FlatMpt.Replay

/-!
# The invariant of the system

The writer, each collection and each collected batch own a share of the records; the
store keeps all shares, the records of the snapshots and those of the checkpoint.
One lemma per event: a call starts and ends, a request is answered, a pin comes or
goes, a collection proceeds, the checkpoint moves, the database is reopened.

    Sys.holders      -- the snapshots that are pinned
    Shares, SysInv   -- who owns what, and the invariant
    SysInvWith       -- the same, with a property of the frontiers
    SysInvWith.step, SysInvWith.crash
-/

namespace FlatMpt

open Prog RegionAlloc

/-! ## Who owns what -/

/-- The snapshot that a running install still pins. -/
def Running.snaps (r : Running) : Multiset Snapshot :=
  match r.call with
  | .gcInstall batch => {batch.snap}
  | _ => 0

/-- Snapshots that are held, being collected, collected or installed. -/
def Sys.holders (σ : Sys) : Multiset Snapshot :=
  ↑σ.snapshots + (↑(σ.collecting.map Prod.fst) +
    (↑(σ.batches.map GcBatch.snap) + (σ.running.elim 0 Running.snaps)))

/-- The records of the writer, of each collection and of each batch. -/
structure Shares where
  writer : Multiset Rec
  collecting : List (Multiset Rec)
  batches : List (Multiset Rec)

def Shares.total (sh : Shares) : Multiset Rec :=
  sh.writer + (sh.collecting.sum + sh.batches.sum)

/-- The writer owns its frontier's records, or what its call needs to leave them. -/
def WriterOwns (P : RamNode → Prop) (errs : Prop) (ok : (r : Req) → Resp r → Prop) (leak : Prop)
    (db : Db) : Option Running → Multiset Rec → Prop
  | none, g => FrontedWith P leak db.upper g
  | some r, g =>
    wp ((flat ⟨[], []⟩).filter ok) r.prog g fun x => EndedWith P errs leak x.1.upper x.2

/-- A collection reads the records of its snapshot; in the end it owns copies of some. -/
structure CollectorOwns (ok : (r : Req) → Resp r → Prop) (pay : Payloads)
    (c : Snapshot × Act (List Reloc)) (g : Multiset Rec) : Prop where
  copies : wp ((flat (heldBy pay {c.1} [])).filter ok) c.2 g
    (Or (fun _ => True) (Copied (· ∈ snapRecs pay c.1)))
  last : WritesLast Req.reads Req.places c.2
  none : (∀ a, c.2 ≠ .pure a) → g = 0

def BatchOwns (pay : Payloads) (b : GcBatch) (g : Multiset Rec) : Prop :=
  Copied (· ∈ snapRecs pay b.snap) b.items g

/-- The saved records are those of the manifest. -/
def Manifests (P : RamNode → Prop) (saved : List Rec) : Option Checkpoint → Prop
  | none => saved = []
  | some cp => ∃ pay, (∀ x, x ∈ saved ↔ x ∈ recsAt pay cp.upper) ∧ Scattered (recsAt pay cp.upper) ∧
    (∀ x ∈ saved, regionOfUnit x.1.unit < regionCeil cp.endPage) ∧
    P (inline (mapLeaves (toNamed pay) cp.upper []))

/-- The frontiers in use and the checkpoint, each with its records, satisfy `P`; after a
failed call the writer's does only if `errs`. -/
structure SysInvWith (P : RamNode → Prop) (errs : Prop) (ok : (r : Req) → Resp r → Prop)
    (leak : Prop) (pay : Payloads) (saved : List Rec) (σ : Sys) (sh : Shares) : Prop where
  store : Pinning pay saved σ.holders (¬leak) σ.store sh.total
  writer : WriterOwns P errs ok leak σ.db σ.running sh.writer
  collecting : List.Forall₂ (CollectorOwns ok pay) σ.collecting sh.collecting
  batches : List.Forall₂ (BatchOwns pay) σ.batches sh.batches
  checkpoint : Manifests P saved σ.checkpoint
  snaps : ∀ snap ∈ σ.holders, P (inline (mapLeaves (toNamed (pay snap.gen)) snap.root []))

abbrev SysInv (ok : (r : Req) → Resp r → Prop) (leak : Prop) :=
  SysInvWith (fun _ => True) leak ok leak

theorem forall₂_middle {α β : Type*} {R : α → β → Prop} {a : α} {l1 l2 : List α} {us : List β}
    (h : List.Forall₂ R (l1 ++ a :: l2) us) :
    ∃ u1 u u2, us = u1 ++ u :: u2 ∧ List.Forall₂ R l1 u1 ∧ R a u ∧ List.Forall₂ R l2 u2 := by
  induction l1 generalizing us with
  | nil =>
    obtain ⟨u, u2, ha, h2, rfl⟩ := List.forall₂_cons_left_iff.mp h
    exact ⟨[], u, u2, rfl, .nil, ha, h2⟩
  | cons b l1 ih =>
    obtain ⟨u, us', hb, h', rfl⟩ := List.forall₂_cons_left_iff.mp h
    obtain ⟨u1, v, u2, rfl, h1, hv, h2⟩ := ih h'
    exact ⟨u :: u1, v, u2, rfl, .cons hb h1, hv, h2⟩

theorem forall₂_append {α β : Type*} {R : α → β → Prop} {l1 l2 : List α} {u1 u2 : List β}
    (h1 : List.Forall₂ R l1 u1) (h2 : List.Forall₂ R l2 u2) :
    List.Forall₂ R (l1 ++ l2) (u1 ++ u2) := List.rel_append h1 h2

section
variable {P : RamNode → Prop} {errs : Prop} {ok : (r : Req) → Resp r → Prop} {leak : Prop}
  {pay : Payloads} {saved : List Rec} {σ : Sys} {sh : Shares}

/-- An idle writer owns its frontier's records. -/
theorem SysInvWith.frontedWith (h : SysInvWith P errs ok leak pay saved σ sh)
    (hidle : σ.running = none) : FrontedWith P leak σ.db.upper sh.writer := by
  have hw := h.writer
  rw [hidle] at hw
  exact hw

theorem SysInvWith.fronted (h : SysInvWith P errs ok leak pay saved σ sh)
    (hidle : σ.running = none) : Fronted leak σ.db.upper sh.writer := (h.frontedWith hidle).fronted

/-- The payloads of the writer's records are in the file. -/
theorem SysInvWith.payloadAt (h : SysInvWith P errs ok leak pay saved σ sh) :
    ∀ x ∈ sh.writer, payloadAt σ.store.file x.1 = x.2 := fun x hx =>
  (h.store.upkept.store.stored x (Multiset.mem_add.mpr (.inl hx))).payloadAt

theorem SysInvWith.scattered (h : SysInvWith P errs ok leak pay saved σ sh) : Scattered sh.writer :=
  h.store.upkept.scattered.mono (Multiset.le_add_right _ _)

/-! ## The writer -/

theorem SysInvWith.start (h : SysInvWith P errs ok leak pay saved σ sh) (hidle : σ.running = none)
    {call : Call} (hcall : ∀ b, call ≠ .gcInstall b) {prog : Upd Db Reply}
    (hp : wp ((flat ⟨[], []⟩).filter ok) prog sh.writer fun x => EndedWith P errs leak x.1.upper x.2) :
    SysInvWith P errs ok leak pay saved { σ with running := some ⟨call, prog⟩ } sh := by
  have hh : Sys.holders { σ with running := some ⟨call, prog⟩ } = σ.holders := by
    unfold Sys.holders
    rw [hidle]
    cases call with
    | gcInstall b => exact absurd rfl (hcall b)
    | _ => rfl
  refine ⟨?_, hp, h.collecting, h.batches, h.checkpoint, ?_⟩
  · rw [hh]
    exact h.store
  · rw [hh]
    exact h.snaps

/-- A batch to install brings its copies. -/
theorem SysInvWith.install [Keccak] (h : SysInvWith P errs ok leak pay saved σ sh) (hidle : σ.running = none)
    {l1 l2 : List GcBatch} {batch : GcBatch} (hb : σ.batches = l1 ++ batch :: l2) (env : Env) :
    ∃ sh', SysInvWith P errs ok leak pay saved { σ with
      batches := l1 ++ l2
      running := some ⟨.gcInstall batch, callProg env σ.db (.gcInstall batch)⟩ } sh' := by
  have hbat := h.batches
  rw [hb] at hbat
  obtain ⟨u1, u, u2, hsh, h1, hu, h2⟩ := forall₂_middle hbat
  have htotal : sh.total = (⟨sh.writer + u, sh.collecting, u1 ++ u2⟩ : Shares).total := by
    unfold Shares.total
    rw [hsh]
    simp only [List.sum_append, List.sum_cons]
    abel
  have hh : Sys.holders { σ with
      batches := l1 ++ l2
      running := some ⟨.gcInstall batch, callProg env σ.db (.gcInstall batch)⟩ } = σ.holders := by
    unfold Sys.holders
    rw [hidle, hb]
    simp only [List.map_append, List.map_cons, Option.elim, Running.snaps, ← Multiset.coe_add,
      ← Multiset.cons_coe, ← Multiset.singleton_add]
    abel
  have hsnap : batch.snap ∈ σ.holders := by
    unfold Sys.holders
    rw [hb]
    simp
  refine ⟨⟨sh.writer + u, sh.collecting, u1 ++ u2⟩, ?_, ?_, h.collecting, forall₂_append h1 h2,
    h.checkpoint, hh ▸ h.snaps⟩
  · rw [hh, ← htotal]
    exact h.store
  · -- a pinned record and an owned one at one pointer are the same
    have hst : ∀ x ∈ sh.writer + u, Stored σ.store x := by
      intro x hx
      refine h.store.upkept.store.stored x ?_
      rw [htotal]
      exact Multiset.mem_add.mpr (.inl hx)
    obtain ⟨p, rest, hw, hr, hP⟩ := h.frontedWith hidle
    rw [hw] at hst ⊢
    rw [add_assoc, add_comm rest] at hst ⊢
    refine wp_bind (wp_mono (gcInstall_moves hu fun x hx y hy hxy => ?_) ?_)
    · have hx : Stored σ.store x := hst x (by
        rw [← add_assoc]
        exact Multiset.mem_add.mpr (.inl hx))
      have hy : Stored σ.store y := h.store.stored hsnap hy
      rw [hx.eq_of_unit hy (by rw [hxy])]
    · rintro ⟨n, done, gone⟩ g' ⟨hmoved, rfl, -⟩
      exact fun _ _ => ⟨p, rest, rfl, hr, by
        rw [hmoved.inline]
        exact hP⟩

/-- A request of the writer's call is answered. -/
theorem SysInvWith.work (h : SysInvWith P errs ok leak pay saved σ sh) (hok : leak ∨ Exact ok) {call : Call}
    {p p' : Upd Db Reply} {s' : Store} (hrun : σ.running = some ⟨call, p⟩)
    (hstep : Prog.Step exec ok σ.store p s' p') :
    ∃ sh', SysInvWith P errs ok leak pay saved { σ with store := s', running := some ⟨call, p'⟩ } sh' := by
  have hw := h.writer
  rw [hrun] at hw
  have hh : Sys.holders { σ with store := s', running := some ⟨call, p'⟩ } = σ.holders := by
    unfold Sys.holders
    rw [hrun]
    rfl
  obtain ⟨g', hp', hs'⟩ := h.store.step (fun _ he => absurd he List.not_mem_nil)
    (fun ht => hok.resolve_left ht) hstep rfl hw
  refine ⟨⟨g', sh.collecting, sh.batches⟩, ?_, hp', h.collecting, h.batches, h.checkpoint,
    hh ▸ h.snaps⟩
  rw [hh]
  exact hs'

/-- The checkpoint moves to the frontier's records, unless the sync fails. -/
theorem SysInvWith.commit (h : SysInvWith P errs ok leak pay saved σ sh) (hidle : σ.running = none) :
    ∃ saved', SysInvWith P errs ok leak pay saved' σ.commit sh ∧
      (σ.commit.checkpoint = σ.checkpoint ∧ saved' = saved ∨
        σ.commit.checkpoint = some ⟨σ.db.upper, σ.store.endPage⟩) := by
  obtain ⟨p, rest, hw, -, hP⟩ := h.frontedWith hidle
  have hsub : recsAt p σ.db.upper ≤ sh.total := by
    unfold Shares.total
    rw [hw, add_assoc]
    exact Multiset.le_add_right _ _
  unfold Sys.commit
  by_cases hf : σ.store.fault.1 = true
  · refine ⟨saved, ?_, .inl ⟨?_, rfl⟩⟩
    · simp only [hf, if_true]
      exact ⟨h.store.fault, h.writer, h.collecting, h.batches, h.checkpoint, h.snaps⟩
    · simp only [hf, if_true]
  · refine ⟨(recsAt p σ.db.upper).toList, ?_, .inr ?_⟩
    · simp only [hf]
      refine ⟨h.store.fault.persisted fun x hx => ?_, h.writer, h.collecting, h.batches, ⟨p,
        fun x => Multiset.mem_toList, h.store.upkept.scattered.mono hsub, fun x hx => ?_, hP⟩,
        h.snaps⟩
      · exact Multiset.mem_of_le hsub (Multiset.mem_toList.mp hx)
      · exact (h.store.upkept.store.stored x
          (Multiset.mem_of_le hsub (Multiset.mem_toList.mp hx))).taken.inFile
    · simp only [hf]
      rfl

/-- A call that ends leaves the frontier's records to the writer. -/
theorem SysInvWith.finish (h : SysInvWith P errs ok leak pay saved σ sh) {call : Call} {db : Db}
    {r : Except Err Reply} (hrun : σ.running = some ⟨call, .pure (db, r)⟩)
    (hr : r ≠ .error .panic) (hend : errs ∨ r.isOk = true) :
    ∃ saved', SysInvWith P errs ok leak pay saved' (σ.finish call db r) sh ∧
      ((σ.finish call db r).checkpoint = σ.checkpoint ∧ saved' = saved ∨
        (∃ picks a, call = .persist picks ∧ r = .ok a) ∧
          (σ.finish call db r).checkpoint = some ⟨db.upper, σ.store.endPage⟩) := by
  have hw : FrontedWith P leak db.upper sh.writer := by
    have hp := h.writer
    rw [hrun] at hp
    exact hp hr hend
  have hh : σ.holders = Sys.holders { σ with db, running := none } +
      Running.snaps ⟨call, .pure (db, r)⟩ := by
    unfold Sys.holders
    rw [hrun]
    simp only [Option.elim]
    abel
  -- what is left to do for calls other than an install
  have hidle : (∀ b, call ≠ .gcInstall b) →
      SysInvWith P errs ok leak pay saved { σ with db, running := none } sh := by
    intro hcall
    refine ⟨?_, hw, h.collecting, h.batches, h.checkpoint, fun snap hs => h.snaps snap ?_⟩
    swap
    · rw [hh]
      exact Multiset.mem_add.mpr (.inl hs)
    have hst := h.store
    rw [hh, show Running.snaps ⟨call, .pure (db, r)⟩ = 0 by
      cases call with
      | gcInstall b => exact absurd rfl (hcall b)
      | _ => rfl, add_zero] at hst
    exact hst
  cases call with
  | gcInstall batch =>
    refine ⟨saved, ⟨?_, hw, h.collecting, h.batches, h.checkpoint, fun snap hs => h.snaps snap ?_⟩,
      .inl ⟨rfl, rfl⟩⟩
    swap
    · rw [hh]
      exact Multiset.mem_add.mpr (.inl hs)
    have hst := h.store
    rw [hh, show Running.snaps ⟨.gcInstall batch, .pure (db, r)⟩ = {batch.snap} from rfl, add_comm,
      Multiset.singleton_add] at hst
    exact hst.unpin
  | persist picks =>
    cases r with
    | error e => exact ⟨saved, hidle nofun, .inl ⟨rfl, rfl⟩⟩
    | ok a =>
      obtain ⟨saved', hs, hc⟩ := (hidle nofun).commit rfl
      exact ⟨saved', hs, hc.imp id fun hc => ⟨⟨picks, a, rfl, rfl⟩, hc⟩⟩
  | applyBlock ops passes => exact ⟨saved, hidle nofun, .inl ⟨rfl, rfl⟩⟩
  | insertBatch entries arrange spill => exact ⟨saved, hidle nofun, .inl ⟨rfl, rfl⟩⟩
  | insert key op => exact ⟨saved, hidle nofun, .inl ⟨rfl, rfl⟩⟩
  | delete key op => exact ⟨saved, hidle nofun, .inl ⟨rfl, rfl⟩⟩
  | gcStep picks => exact ⟨saved, hidle nofun, .inl ⟨rfl, rfl⟩⟩

/-! ## Snapshots and collections -/

/-- Payloads of a new generation leave the shares alone. -/
theorem BatchOwns.update {b : GcBatch} {g : Multiset Rec} {gen : Nat} (p : List Nibble → Bytes)
    (hne : b.snap.gen ≠ gen) (h : BatchOwns pay b g) : BatchOwns (Function.update pay gen p) b g := by
  unfold BatchOwns at *
  rw [snapRecs_update p hne]
  exact h

theorem CollectorOwns.update {c : Snapshot × Act (List Reloc)} {g : Multiset Rec} {gen : Nat}
    (p : List Nibble → Bytes) (hne : c.1.gen ≠ gen) (h : CollectorOwns ok pay c g) :
    CollectorOwns ok (Function.update pay gen p) c g where
  copies := by
    unfold heldBy
    rw [snapRecs_update p hne, pinsOf_update p fun snap hs => by
      rw [Multiset.mem_singleton.mp hs]
      exact hne]
    exact h.copies
  last := h.last
  none := h.none

theorem forall₂_imp_mem {α β : Type*} {R S : α → β → Prop} {l : List α} {us : List β}
    (h : List.Forall₂ R l us) (hRS : ∀ a ∈ l, ∀ u, R a u → S a u) : List.Forall₂ S l us := by
  induction h with
  | nil => exact .nil
  | cons hr _ ih =>
    exact .cons (hRS _ List.mem_cons_self _ hr) (ih fun a ha => hRS a (List.mem_cons_of_mem _ ha))

theorem SysInvWith.snapshot (h : SysInvWith P errs ok leak pay saved σ sh) (hidle : σ.running = none) :
    ∃ p, SysInvWith P errs ok leak (Function.update pay (σ.store.seg.pinGen + 1) p) saved { σ with
      store := σ.store.pin
      snapshots := ⟨σ.db.upper, σ.store.seg.pinGen + 1⟩ :: σ.snapshots } sh := by
  obtain ⟨p, rest, hw, -, hP⟩ := h.frontedWith hidle
  have hheld : ∀ snap ∈ σ.holders, snap.gen ≠ σ.store.seg.pinGen + 1 := fun _ hs =>
    h.store.gen_ne hs
  have hh : Sys.holders { σ with
      store := σ.store.pin
      snapshots := ⟨σ.db.upper, σ.store.seg.pinGen + 1⟩ :: σ.snapshots } =
      ⟨σ.db.upper, σ.store.seg.pinGen + 1⟩ ::ₘ σ.holders := by
    unfold Sys.holders
    simp only [← Multiset.cons_coe, Multiset.cons_add]
  refine ⟨p, ?_, h.writer, forall₂_imp_mem h.collecting fun c hc g hg => hg.update p (hheld _ ?_),
    forall₂_imp_mem h.batches fun b hb g hg => hg.update p (hheld _ ?_), h.checkpoint, ?_⟩
  · have hin : ∀ x ∈ recsAt p σ.db.upper, x ∈ sh.total := by
      intro x hx
      unfold Shares.total
      rw [hw]
      simp only [Multiset.mem_add]
      exact .inl (.inl hx)
    rw [hh]
    exact h.store.pin hin
  · unfold Sys.holders
    have : c.1 ∈ σ.collecting.map Prod.fst := List.mem_map_of_mem hc
    simp only [Multiset.mem_add, Multiset.mem_coe]
    exact .inr (.inl this)
  · unfold Sys.holders
    have : b.snap ∈ σ.batches.map GcBatch.snap := List.mem_map_of_mem hb
    simp only [Multiset.mem_add, Multiset.mem_coe]
    exact .inr (.inr (.inl this))
  · intro snap hs
    rw [hh] at hs
    rcases Multiset.mem_cons.mp hs with rfl | hs
    · rw [Function.update_self]
      exact hP
    · rw [Function.update_of_ne (hheld snap hs)]
      exact h.snaps snap hs

theorem SysInvWith.clone (h : SysInvWith P errs ok leak pay saved σ sh) {snap : Snapshot}
    (hs : snap ∈ σ.snapshots) :
    SysInvWith P errs ok leak pay saved { σ with
      store := σ.store.pinAt snap.gen, snapshots := snap :: σ.snapshots } sh := by
  have hh : Sys.holders { σ with
      store := σ.store.pinAt snap.gen, snapshots := snap :: σ.snapshots } = snap ::ₘ σ.holders := by
    unfold Sys.holders
    simp only [← Multiset.cons_coe, Multiset.cons_add]
  have hsnap : snap ∈ σ.holders := Multiset.mem_add.mpr (.inl hs)
  refine ⟨?_, h.writer, h.collecting, h.batches, h.checkpoint, fun other ho => ?_⟩
  · rw [hh]
    exact h.store.pinAt hsnap
  · rw [hh] at ho
    rcases Multiset.mem_cons.mp ho with rfl | ho
    · exact h.snaps other hsnap
    · exact h.snaps other ho

theorem SysInvWith.drop (h : SysInvWith P errs ok leak pay saved σ sh) {l1 l2 : List Snapshot} {snap : Snapshot}
    (hs : σ.snapshots = l1 ++ snap :: l2) :
    SysInvWith P errs ok leak pay saved { σ with
      store := σ.store.unpin snap.gen, snapshots := l1 ++ l2 } sh := by
  have hh : σ.holders = snap ::ₘ Sys.holders { σ with
      store := σ.store.unpin snap.gen, snapshots := l1 ++ l2 } := by
    unfold Sys.holders
    rw [hs]
    simp only [← Multiset.coe_add, ← Multiset.cons_coe, ← Multiset.singleton_add]
    abel
  refine ⟨?_, h.writer, h.collecting, h.batches, h.checkpoint, fun other ho => h.snaps other ?_⟩
  · have hst := h.store
    rw [hh] at hst
    exact hst.unpin
  · rw [hh]
    exact Multiset.mem_cons_of_mem ho

/-- A collection writes in its last request. -/
theorem gcCollect_writesLast [Keccak] (root : RamNode) (pick : List Nat) :
    WritesLast Req.reads Req.places (gcCollect root pick) := by
  refine .inl ⟨trivial, fun victims => ?_⟩
  dsimp only
  split
  · exact trivial
  · refine ⟨fun i => ⟨trivial, fun r => ?_⟩, fun rs => ?_⟩
    · cases r <;> exact trivial
    · show WritesLast _ _ (attempt (.pure ((joinAll (List.ofFn rs)).map List.flatten)) Except.error _)
      cases (joinAll (List.ofFn rs)).map List.flatten with
      | error e => exact trivial
      | ok live =>
        show WritesLast _ _ (if live = [] then _ else _)
        split
        · exact trivial
        · refine .inr ⟨trivial, fun r => ?_⟩
          cases r with
          | error e => exact ⟨_, rfl⟩
          | ok ptrs => exact ⟨_, rfl⟩

/-- A collection takes a snapshot, which stays pinned. -/
theorem SysInvWith.collect [Keccak] (h : SysInvWith P errs ok leak pay saved σ sh) {l1 l2 : List Snapshot}
    {snap : Snapshot} (hs : σ.snapshots = l1 ++ snap :: l2) (pick : List Nat) :
    SysInvWith P errs ok leak pay saved { σ with
      snapshots := l1 ++ l2, collecting := (snap, gcCollect snap.root pick) :: σ.collecting }
      { sh with collecting := 0 :: sh.collecting } := by
  have hh : Sys.holders { σ with
      snapshots := l1 ++ l2
      collecting := (snap, gcCollect snap.root pick) :: σ.collecting } = σ.holders := by
    unfold Sys.holders
    rw [hs]
    simp only [List.map_cons, ← Multiset.coe_add, ← Multiset.cons_coe, ← Multiset.singleton_add]
    abel
  have ht : (⟨sh.writer, 0 :: sh.collecting, sh.batches⟩ : Shares).total = sh.total := by
    unfold Shares.total
    rw [List.sum_cons, zero_add]
  have hnew : CollectorOwns ok pay (snap, gcCollect snap.root pick) 0 :=
    { copies := gcCollect_copies (fun _ _ _ _ _ => trivial) (fun x hx =>
        .inr ⟨snap.gen, mem_pinsOf.mpr ⟨snap, Multiset.mem_singleton_self _, rfl, hx⟩⟩) pick
      last := gcCollect_writesLast snap.root pick
      none := fun _ => rfl }
  refine ⟨?_, h.writer, .cons hnew h.collecting, h.batches, h.checkpoint, hh ▸ h.snaps⟩
  rw [hh, ht]
  exact h.store

theorem SysInvWith.collectWork (h : SysInvWith P errs ok leak pay saved σ sh) (hok : leak ∨ Exact ok)
    {l1 l2 : List (Snapshot × Act (List Reloc))} {snap : Snapshot} {p p' : Act (List Reloc)}
    {s' : Store} (hc : σ.collecting = l1 ++ (snap, p) :: l2)
    (hstep : Prog.Step exec ok σ.store p s' p') :
    ∃ sh', SysInvWith P errs ok leak pay saved
      { σ with store := s', collecting := l1 ++ (snap, p') :: l2 } sh' := by
  have hcol := h.collecting
  rw [hc] at hcol
  obtain ⟨u1, u, u2, hsh, h1, hu, h2⟩ := forall₂_middle hcol
  have hh : Sys.holders { σ with store := s', collecting := l1 ++ (snap, p') :: l2 } =
      σ.holders := by
    unfold Sys.holders
    rw [hc]
    simp only [List.map_append, List.map_cons]
  have hsnap : snap ∈ σ.holders := by
    unfold Sys.holders
    rw [hc]
    simp
  have hg : sh.total = u + (sh.writer + (u1.sum + u2.sum + sh.batches.sum)) := by
    unfold Shares.total
    rw [hsh, List.sum_append, List.sum_cons]
    abel
  obtain ⟨u', hp', hs', hl', he⟩ := h.store.stepLast (pinsOf_mono fun other ho => by
    rw [Multiset.mem_singleton.mp ho]
    exact hsnap) (fun ht => hok.resolve_left ht) hstep hu.last hg hu.copies
  have hu' : CollectorOwns ok pay (snap, p') u' := by
    refine ⟨hp', hl', fun hne => ?_⟩
    rcases he with rfl | ⟨a, ha⟩
    · refine hu.none fun a ha => ?_
      rw [show p = .pure a from ha] at hstep
      cases hstep
    · exact absurd ha (hne a)
  refine ⟨⟨sh.writer, u1 ++ u' :: u2, sh.batches⟩, ?_, h.writer,
    forall₂_append h1 (.cons hu' h2), h.batches, h.checkpoint, hh ▸ h.snaps⟩
  rw [hh]
  have ht : (⟨sh.writer, u1 ++ u' :: u2, sh.batches⟩ : Shares).total =
      u' + (sh.writer + (u1.sum + u2.sum + sh.batches.sum)) := by
    unfold Shares.total
    rw [List.sum_append, List.sum_cons]
    abel
  rw [ht]
  exact hs'

/-- The copies go to the batch. -/
theorem SysInvWith.collected (h : SysInvWith P errs ok leak pay saved σ sh)
    {l1 l2 : List (Snapshot × Act (List Reloc))} {snap : Snapshot} {items : List Reloc}
    (hc : σ.collecting = l1 ++ (snap, .pure (.ok items)) :: l2) :
    ∃ sh', SysInvWith P errs ok leak pay saved
      { σ with collecting := l1 ++ l2, batches := ⟨snap, items⟩ :: σ.batches } sh' := by
  have hcol := h.collecting
  rw [hc] at hcol
  obtain ⟨u1, u, u2, hsh, h1, hu, h2⟩ := forall₂_middle hcol
  have hh : Sys.holders { σ with collecting := l1 ++ l2, batches := ⟨snap, items⟩ :: σ.batches } =
      σ.holders := by
    unfold Sys.holders
    rw [hc]
    simp only [List.map_append, List.map_cons, ← Multiset.coe_add, ← Multiset.cons_coe,
      ← Multiset.singleton_add]
    abel
  refine ⟨⟨sh.writer, u1 ++ u2, u :: sh.batches⟩, ?_, h.writer, forall₂_append h1 h2,
    .cons hu.copies h.batches, h.checkpoint, hh ▸ h.snaps⟩
  have ht : (⟨sh.writer, u1 ++ u2, u :: sh.batches⟩ : Shares).total = sh.total := by
    unfold Shares.total
    rw [hsh]
    simp only [List.sum_append, List.sum_cons]
    abel
  rw [hh, ht]
  exact h.store

/-- A failed collection drops its pin and leaks what it has copied. -/
theorem SysInvWith.collectFailed (h : SysInvWith P errs ok leak pay saved σ sh) (hl : leak)
    {l1 l2 : List (Snapshot × Act (List Reloc))} {snap : Snapshot} {p : Act (List Reloc)}
    (hc : σ.collecting = l1 ++ (snap, p) :: l2) :
    ∃ sh', SysInvWith P errs ok leak pay saved
      { σ with store := σ.store.unpin snap.gen, collecting := l1 ++ l2 } sh' := by
  have hcol := h.collecting
  rw [hc] at hcol
  obtain ⟨u1, u, u2, hsh, h1, -, h2⟩ := forall₂_middle hcol
  have hh : σ.holders = snap ::ₘ Sys.holders
      { σ with store := σ.store.unpin snap.gen, collecting := l1 ++ l2 } := by
    unfold Sys.holders
    rw [hc]
    simp only [List.map_append, List.map_cons, ← Multiset.coe_add, ← Multiset.cons_coe,
      ← Multiset.singleton_add]
    abel
  refine ⟨⟨sh.writer, u1 ++ u2, sh.batches⟩, ?_, h.writer, forall₂_append h1 h2, h.batches,
    h.checkpoint, fun other ho => h.snaps other (hh ▸ Multiset.mem_cons_of_mem ho)⟩
  have ht : sh.total = (⟨sh.writer, u1 ++ u2, sh.batches⟩ : Shares).total + u := by
    unfold Shares.total
    rw [hsh]
    simp only [List.sum_append, List.sum_cons]
    abel
  have hst := h.store
  rw [hh, ht] at hst
  exact (hst.giveUp fun hn => hn hl).unpin

/-- The copies of a dropped batch are leaked. -/
theorem SysInvWith.dropBatch (h : SysInvWith P errs ok leak pay saved σ sh) {l1 l2 : List GcBatch}
    {batch : GcBatch} (hl : leak ∨ batch.items = []) (hb : σ.batches = l1 ++ batch :: l2) :
    ∃ sh', SysInvWith P errs ok leak pay saved
      { σ with store := σ.store.unpin batch.snap.gen, batches := l1 ++ l2 } sh' := by
  have hbat := h.batches
  rw [hb] at hbat
  obtain ⟨u1, u, u2, hsh, h1, hu, h2⟩ := forall₂_middle hbat
  have hh : σ.holders = batch.snap ::ₘ Sys.holders
      { σ with store := σ.store.unpin batch.snap.gen, batches := l1 ++ l2 } := by
    unfold Sys.holders
    rw [hb]
    simp only [List.map_append, List.map_cons, ← Multiset.coe_add, ← Multiset.cons_coe,
      ← Multiset.singleton_add]
    abel
  refine ⟨⟨sh.writer, sh.collecting, u1 ++ u2⟩, ?_, h.writer, h.collecting, forall₂_append h1 h2,
    h.checkpoint, fun other ho => h.snaps other (hh ▸ Multiset.mem_cons_of_mem ho)⟩
  have ht : sh.total = (⟨sh.writer, sh.collecting, u1 ++ u2⟩ : Shares).total + u := by
    unfold Shares.total
    rw [hsh]
    simp only [List.sum_append, List.sum_cons]
    abel
  have hst := h.store
  rw [hh, ht] at hst
  rcases hl with hl | hempty
  · exact (hst.giveUp fun hn => hn hl).unpin
  · unfold BatchOwns at hu
    rw [hempty] at hu
    rw [hu.of_nil, add_zero] at hst
    exact hst.unpin

/-! ## Read-ahead -/

theorem SysInvWith.prefetch [Keccak] (h : SysInvWith P errs ok leak pay saved σ sh) (hidle : σ.running = none)
    {ops : List (Key × StateOp)} {order : List DiskPtr}
    (horder : order ⊆ prefetchPtrs σ.db.upper ops) :
    SysInvWith P errs ok leak pay saved
      { σ with store := order.foldl Store.prefetchRecord σ.store } sh where
  store := by
    refine h.store.prefetched fun p hp => ?_
    obtain ⟨pw, rest, hw, -⟩ := h.fronted hidle
    have hm : p ∈ (recsAt pw σ.db.upper).map Prod.fst := by
      rw [map_fst_recsAt]
      exact prefetchPtrs_mem σ.db.upper ops p (horder hp)
    obtain ⟨x, hx, rfl⟩ := Multiset.mem_map.mp hm
    refine ⟨x.2, ?_⟩
    unfold Shares.total
    rw [hw]
    simp only [Multiset.mem_add]
    exact .inl (.inl hx)
  writer := h.writer
  collecting := h.collecting
  batches := h.batches
  checkpoint := h.checkpoint
  snaps := h.snaps

theorem SysInvWith.prefetchClear (h : SysInvWith P errs ok leak pay saved σ sh) :
    SysInvWith P errs ok leak pay saved { σ with store := σ.store.readAheadClear } sh :=
  ⟨h.store.cleared, h.writer, h.collecting, h.batches, h.checkpoint, h.snaps⟩

/-! ## Start and crash -/

theorem pinsOf_zero (pay : Payloads) : pinsOf pay 0 = [] := by
  unfold pinsOf
  rw [Multiset.zero_bind, Multiset.toList_zero]

/-- A new file holds nothing. -/
theorem storeInv_create (direct : Bool) (faults : List Bool) :
    StoreInv ⟨[], []⟩ (Store.create direct faults) 0 where
  regions := (AllocState.Start.create direct faults).ok.regions
  stored _ hx := absurd hx (Multiset.notMem_zero _)
  counted _ := Nat.zero_le _
  pinned _ _ hx := absurd hx List.not_mem_nil
  saved _ hx := absurd hx List.not_mem_nil
  cacheTaken _ _ hx := absurd hx List.not_mem_nil
  cacheOk _ _ hx := absurd hx List.not_mem_nil
  synced _ he := absurd he List.not_mem_nil

theorem SysInvWith.create (hP : P .empty) (errs : Prop) (ok : (r : Req) → Resp r → Prop)
    (leak : Prop) (pay : Payloads) (ramMode direct : Bool) (faults : List Bool) :
    SysInvWith P errs ok leak pay [] (Sys.create ramMode direct faults) ⟨0, [], []⟩ where
  store := by
    have hh : (Sys.create ramMode direct faults).holders = 0 := rfl
    have ht : (⟨0, [], []⟩ : Shares).total = 0 := rfl
    rw [hh, ht]
    refine ⟨⟨?_, ?_, fun _ => ⟨fun _ => rfl, fun _ hr => absurd rfl hr, fun hr => absurd rfl hr⟩⟩,
      rfl, fun _ hg => absurd hg List.not_mem_nil⟩
    · unfold heldBy
      rw [pinsOf_zero]
      exact storeInv_create direct faults
    · exact fun x y hle => absurd (Multiset.mem_of_le hle (Multiset.mem_cons_self _ _))
        (Multiset.notMem_zero _)
  writer := ⟨fun _ => [], 0, rfl, .inr rfl, hP⟩
  collecting := .nil
  batches := .nil
  checkpoint := rfl
  snaps _ hs := absurd hs (Multiset.notMem_zero _)

/-- A crash leaves the records of the checkpoint, with exact counts. -/
theorem SysInvWith.crash (h : SysInvWith P errs ok leak pay saved σ sh) {σ' : Sys}
    (hc : Sys.Crash σ σ') :
    ∃ sh', SysInvWith P errs ok leak pay saved σ' sh' ∧ σ'.checkpoint = σ.checkpoint := by
  obtain ⟨direct, faults, hcp, -, hfile⟩ := hc
  rename_i cp file
  have hm := h.checkpoint
  rw [hcp] at hm
  obtain ⟨p, hsaved, hsc, hin, hP⟩ := hm
  have hh : (Sys.reopen cp file direct faults).holders = 0 := rfl
  refine ⟨⟨recsAt p cp.upper, [], []⟩, ⟨?_, ⟨p, 0, (add_zero _).symm, .inr rfl, hP⟩, .nil, .nil,
    ⟨p, hsaved, hsc, hin, hP⟩, fun _ hs => absurd hs (hh ▸ Multiset.notMem_zero _)⟩, hcp.symm⟩
  have ht : (⟨recsAt p cp.upper, [], []⟩ : Shares).total = recsAt p cp.upper := add_zero _
  have hin' : ∀ x ∈ recsAt p cp.upper, regionOfUnit x.1.unit < regionCeil cp.endPage :=
    fun x hx => hin x ((hsaved x).mpr hx)
  rw [hh, ht]
  refine ⟨⟨?_, hsc, fun _ => ⟨recomputeLive_eq p hin', fun r hr => ?_, fun _ => ?_⟩⟩, rfl,
    fun _ hg => absurd hg List.not_mem_nil⟩
  · unfold heldBy
    rw [pinsOf_zero]
    exact h.store.upkept.store.reopened hfile hsaved hin direct faults
  · have hlt : r < regionCeil cp.endPage := by
      by_contra hge
      exact hr (if_neg hge)
    exact Nat.lt_succ_of_lt hlt
  · exact Nat.lt_succ_self _

/-! ## Events -/

/-- A call that starts satisfies `P`. -/
def Sys.Starts [Keccak] (env : Env) (P : Call → Prop) (σ σ' : Sys) : Prop :=
  ∀ call, σ.running = none → σ'.running = some ⟨call, callProg env σ.db call⟩ → P call

/-- No call and no collection has failed. -/
structure Sys.Clean (σ : Sys) : Prop where
  calls : ∀ call db e, σ.running ≠ some ⟨call, .pure (db, .error e)⟩
  collections : ∀ snap e, (snap, .pure (.error e)) ∉ σ.collecting

/-- A collected batch with nothing to install. -/
def GcBatch.isEmpty (b : GcBatch) : Bool := b.items.isEmpty

/-- Only an install takes a batch, unless there is nothing to install. -/
def Sys.KeepsBatches (σ σ' : Sys) : Prop :=
  σ'.running = σ.running →
    σ.batches.countP (!·.isEmpty) ≤ σ'.batches.countP (!·.isEmpty)

/-- A persist ends well. -/
def Sys.Persists (σ σ' : Sys) : Prop :=
  ∃ picks db a, σ.running = some ⟨.persist picks, .pure (db, .ok a)⟩ ∧ σ'.running = none

/-- What an event may change of the payloads pinned and of the checkpoint. -/
structure Follows (σ : Sys) (pay : Payloads) (saved : List Rec) (σ' : Sys) (pay' : Payloads)
    (saved' : List Rec) : Prop where
  pay : ∀ gen ≤ σ.store.seg.pinGen, pay' gen = pay gen
  saved : Sys.Persists σ σ' ∨ saved' = saved ∧ σ'.checkpoint = σ.checkpoint

theorem Follows.same {σ' : Sys} (h : σ'.checkpoint = σ.checkpoint) :
    Follows σ pay saved σ' pay saved := ⟨fun _ _ => rfl, .inr ⟨rfl, h⟩⟩

/-- No call has failed. -/
def Sys.CallsEnd (σ : Sys) : Prop := ∀ call db e, σ.running ≠ some ⟨call, .pure (db, .error e)⟩

theorem SysInvWith.step [Keccak] (h : SysInvWith P errs ok leak pay saved σ sh)
    (hok : leak ∨ Exact ok) {env : Env} {C : Call → Prop} {σ' : Sys}
    (hcall : ∀ call, C call → (∀ b, call ≠ .gcInstall b) → σ.running = none →
      wp ((flat ⟨[], []⟩).filter ok) (callProg env σ.db call) sh.writer
        fun x => EndedWith P errs leak x.1.upper x.2)
    (hs : Sys.Step env ok σ σ') (hstarts : Sys.Starts env C σ σ') (hend : errs ∨ σ.CallsEnd)
    (hsm : leak ∨ σ.Clean ∧ Sys.KeepsBatches σ σ') :
    ∃ pay' saved' sh', SysInvWith P errs ok leak pay' saved' σ' sh' ∧
      Follows σ pay saved σ' pay' saved' := by
  cases hs with
  | start call hidle hne =>
    exact ⟨pay, saved, sh, h.start hidle hne (hcall call (hstarts call hidle rfl) hne hidle),
      .same rfl⟩
  | install l1 l2 batch hidle hb =>
    obtain ⟨sh', h'⟩ := h.install hidle hb env
    exact ⟨pay, saved, sh', h', .same rfl⟩
  | work hrun hstep =>
    obtain ⟨sh', h'⟩ := h.work hok hrun hstep
    exact ⟨pay, saved, sh', h', .same rfl⟩
  | @finish call db r hrun hr =>
    have hend : errs ∨ r.isOk = true := by
      refine hend.imp id fun hend => ?_
      cases r with
      | ok a => rfl
      | error e => exact absurd hrun (hend call db e)
    obtain ⟨saved', h', hc⟩ := h.finish hrun hr hend
    refine ⟨pay, saved', sh, h', fun _ _ => rfl, ?_⟩
    rcases hc with ⟨h1, h2⟩ | ⟨⟨picks, a, rfl, rfl⟩, -⟩
    · exact .inr ⟨h2, h1⟩
    · exact .inl ⟨picks, db, a, hrun, finish_running σ _ db _⟩
  | snapshot hidle =>
    obtain ⟨p, h'⟩ := h.snapshot hidle
    refine ⟨_, saved, sh, h', fun gen hgen => ?_, .inr ⟨rfl, rfl⟩⟩
    exact Function.update_of_ne (by omega) _ _
  | clone snap hsnap => exact ⟨pay, saved, sh, h.clone hsnap, .same rfl⟩
  | drop l1 l2 snap hsnap => exact ⟨pay, saved, sh, h.drop hsnap, .same rfl⟩
  | collect l1 l2 snap pick hsnap => exact ⟨pay, saved, _, h.collect hsnap pick, .same rfl⟩
  | collectWork hc hstep =>
    obtain ⟨sh', h'⟩ := h.collectWork hok hc hstep
    exact ⟨pay, saved, sh', h', .same rfl⟩
  | collected hc =>
    obtain ⟨sh', h'⟩ := h.collected hc
    exact ⟨pay, saved, sh', h', .same rfl⟩
  | @collectFailed l1 l2 snap e hc =>
    have hl : leak := hsm.resolve_right fun hsm => hsm.1.collections snap e (by
      rw [hc]
      exact List.mem_append_right _ List.mem_cons_self)
    obtain ⟨sh', h'⟩ := h.collectFailed hl hc
    exact ⟨pay, saved, sh', h', .same rfl⟩
  | dropBatch l1 l2 batch hb =>
    have hl : leak ∨ batch.items = [] := hsm.imp id fun hsm => by
      have hcount := hsm.2 rfl
      rw [hb] at hcount
      simp only [List.countP_append, List.countP_cons, Bool.not_eq_true'] at hcount
      by_contra hne
      have hfull : batch.isEmpty = false := by
        unfold GcBatch.isEmpty
        rwa [List.isEmpty_eq_false_iff]
      rw [if_pos hfull] at hcount
      omega
    obtain ⟨sh', h'⟩ := h.dropBatch hl hb
    exact ⟨pay, saved, sh', h', .same rfl⟩
  | prefetch ops order hidle horder => exact ⟨pay, saved, sh, h.prefetch hidle horder, .same rfl⟩
  | prefetchClear hidle => exact ⟨pay, saved, sh, h.prefetchClear, .same rfl⟩

theorem SysInv.step [Keccak] (h : SysInv ok leak pay saved σ sh) (hok : leak ∨ Exact ok) {env : Env}
    {C : Call → Prop} {σ' : Sys}
    (hcall : ∀ call, C call → (∀ b, call ≠ .gcInstall b) → σ.running = none →
      wp ((flat ⟨[], []⟩).filter ok) (callProg env σ.db call) sh.writer
        fun x => Ended leak x.1.upper x.2)
    (hs : Sys.Step env ok σ σ') (hstarts : Sys.Starts env C σ σ')
    (hsm : leak ∨ σ.Clean ∧ Sys.KeepsBatches σ σ') :
    ∃ pay' saved' sh', SysInv ok leak pay' saved' σ' sh' ∧ Follows σ pay saved σ' pay' saved' :=
  SysInvWith.step h hok (fun call hc hne hidle => wp_mono (hcall call hc hne hidle) fun _ _ he =>
    endedWith_true.mpr he) hs hstarts (hsm.imp id fun hsm => hsm.1.calls) hsm

end

end FlatMpt
