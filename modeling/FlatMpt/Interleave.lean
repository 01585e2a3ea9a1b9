import FlatMpt.Answers
import FlatMpt.SimulateBatch
import FlatMpt.Parts
import FlatMpt.System

/-!
# Interleavings

Block application and batch inserts under every interleaving of the parts of their
workers' store calls: no record is reached after its units were handed out again, and
what the call leaves is fixed by what it started from.

    AtRest               -- every record of the frontier is intact and apart
    ReadsIntact          -- no thread comes to a record too late
    applyBlock_outcome, insertBatch_outcome
    AtRest.blocks, AtRest.batches
-/

namespace FlatMpt

open Prog

/-! ## Runs of the parts -/

/-- A frontier and the records it owns; `f` is what others own. -/
structure AtRest (W : Holds) (f : Multiset Rec) (s : Store) (n m : RamNode) (g : Multiset Rec) :
    Prop where
  placed : Placed n m g
  store : StoreInv W s (g + f)
  scattered : Scattered (g + f)

/-- A finished run of a program whose store calls are interleaved in parts. -/
abbrev Interleaved {α : Type} (ok : (r : Part) → Ans r → Prop) (s : Store) (p : Prog Resp α) (a : α)
    (s' : Store) : Prop := Exec execPart ok s (expand parts p) a s'

/-- Any answer. -/
abbrev anyAns (r : Part) (_ : Ans r) : Prop := True

/-- The records that a part reads or frees; of a span, those to be cut out of it. -/
def Part.records : Part → List DiskPtr
  | .read p => [p]
  | .pread _ _ recs => recs
  | .free p => [p]
  | _ => []

/-- When a thread is about to read or to free a record, nothing has been reserved over
the record since the start or since it was written, and it is intact. -/
def ReadsIntact {α : Type} (s : Store) (ptrs : Multiset DiskPtr) (p : Prog Resp α) : Prop :=
  ∀ s' h p', Steps (track execPart noteWritten) anyAns (s, ptrs) (expand parts p) (s', h) p' →
    ∀ r, Asks p' r → ∀ ptr ∈ r.records, ptr ∈ h ∧ ∃ b, Stored s' (ptr, b)

section
variable {α : Type} {c : Prop} {W : Holds} {s s' : Store} {f g : Multiset Rec} {p : Prog Resp α}
  {Q : α → Multiset Rec → Prop}

theorem given_true (r : Part) (x : Ans r) : Given True r x := by
  cases r <;> simp [Given]

/-- A thread owns the records that it reads or frees. -/
theorem records_owned {ok : (r : Part) → Ans r → Prop} {r : Part} {g : Holding}
    {K : Ans r → Holding → Prop} (h : (partLogic.filter ok).rule r g K) {ptr : DiskPtr}
    (hptr : ptr ∈ r.records) : ∃ b, (ptr, b) ∈ g.1 := by
  cases r with
  | read p =>
    obtain ⟨b, hb, -⟩ := h
    obtain rfl := List.mem_singleton.mp hptr
    exact ⟨b, hb⟩
  | pread off len recs => exact h.1 ptr hptr
  | free p =>
    obtain ⟨b, g', hg, -⟩ := h
    obtain rfl := List.mem_singleton.mp hptr
    exact ⟨b, hg ▸ Multiset.mem_cons_self ..⟩
  | _ => cases hptr

theorem reads_intact (hI : StoreInv W s (g + f)) (hg : Scattered (g + f))
    (hp : wp ((flat ⟨[], []⟩).filter (Allowed True)) p g Q) : ReadsIntact s (g.map Prod.fst) p := by
  intro s' h p' hrun r hask ptr hptr
  have hwp := wp_expand holding wp_parts hp
  have hstart : PartInv W f (s, g.map Prod.fst) (holding g + 0) := by
    rw [add_zero]
    exact PartInv.start hI hg
  have hrun' : Steps (track execPart noteWritten) (Given True) (s, g.map Prod.fst) (expand parts p)
      (s', h) p' := hrun.mono fun r x _ => given_true r x
  obtain ⟨g', hp', hI'⟩ := (partLogic_sound W f (Given True)).filter.steps hrun' hstart hwp
  rw [add_zero] at hI'
  obtain ⟨g0, fr, K, rfl, hrule⟩ := wp_asks hask hp'
  obtain ⟨b, hb⟩ := records_owned hrule hptr
  have hmem : (ptr, b) ∈ (g0 + fr).1 := Multiset.mem_add.mpr (.inl hb)
  exact ⟨hI'.held _ hmem, b, hI'.store.stored _ (Multiset.mem_add.mpr (.inl hmem))⟩

/-- A finished run leaves what the program is known to leave. -/
theorem interleaved_ends (hI : StoreInv W s (g + f)) (hg : Scattered (g + f))
    (hp : wp ((flat ⟨[], []⟩).filter (Allowed c)) p g Q) {a : α}
    (hrun : Interleaved (Given c) s p a s') :
    ∃ g', Q a g' ∧ StoreInv W s' (g' + f) ∧ Scattered (g' + f) := by
  have hwp := wp_expand holding wp_parts hp
  have hstart : PartInv W f (s, g.map Prod.fst) (holding g + 0) := by
    rw [add_zero]
    exact PartInv.start hI hg
  obtain ⟨h, hrun'⟩ := hrun.track noteWritten (g.map Prod.fst)
  obtain ⟨_, ⟨g', lost, rfl, hQ⟩, hI'⟩ :=
    (partLogic_sound W f (Given c)).filter.finish hrun' hstart hwp
  rw [add_zero] at hI'
  have hsplit : (holding g' + lost).1 + f = g' + f + lost.1 := by
    show g' + lost.1 + f = _
    rw [add_right_comm]
  have hS := hI'.store
  have hsc := hI'.scattered
  rw [hsplit] at hS hsc
  exact ⟨g', hQ, hS.mono, hsc.mono (Multiset.le_add_right _ _)⟩

end

/-! ## Calls over the ideal store -/

section
variable [Keccak] {c : Prop} {W : Holds} {ok : (r : Req) → Resp r → Prop} {n m : RamNode}
  {g : Multiset Rec}

omit [Keccak] in
/-- A spill keeps what the frontier holds. -/
theorem spillQuota_inline (passes : List (List Nibble → Bool)) (h : Placed n m g) :
    wp ((flat W).filter ok) (spillQuota passes n) g fun r g' =>
      Or (fun _ => True) (fun _ g' => ∃ m', Placed r.1 m' g' ∧ inline m' = inline m) r.2 g' := by
  obtain ⟨pay, rfl, rfl⟩ := h.leaves []
  have hw := @spillQuota_moves W ok (fun _ => True) (fun _ _ _ _ _ => trivial) passes n pay 0
  rw [add_zero] at hw
  refine wp_mono hw ?_
  rintro ⟨n', e | _⟩ g' hr
  · trivial
  obtain ⟨gone, ptrs, -, hlen, hmem, rfl, rfl⟩ := hr
  rw [add_zero]
  exact ⟨_, placed_leaves _ _ [], (Moved.of_spill hlen pay n hmem).inline⟩

/-- A call that ends well reports and leaves what `v` says. -/
def EndsAs (v : Except Err (Reply × RamNode)) (x : Db × Except Err Reply) (g : Multiset Rec) : Prop :=
  ∀ reply, x.2 = .ok reply → ∃ u m, v = .ok (reply, u) ∧ Placed x.1.upper m g ∧ inline m = u

/-- The end of a call: the caches are filled and the root is taken. -/
theorem filled_ends {m1 : RamNode} (h : Placed n m g) (hm : inline m = inline m1) :
    hashRam n = hashRam m1 ∧
      ∃ m', Placed (fillRam n) m' g ∧ inline m' = fillRam (inline m1) := by
  refine ⟨?_, fillRam m, fillRam_placed h, ?_⟩
  · rw [← hashRam_placed h, ← hashRam_inlineAt m [], show inlineAt m [] = inline m1 from hm]
    exact hashRam_inlineAt m1 []
  · rw [← hm]
    exact fillRam_inlineAt m []

/-- What `apply_block` reports and leaves. -/
def blockOutcome (env : Env) (ram : Bool) (ops : List (Key × StateOp)) (m : RamNode) :
    Except Err (Reply × RamNode) :=
  let out := value ideal (applyNet env ram (normalizeBlock ops) m)
  out.2.map fun inv => (.block (hashRam out.1) inv, fillRam (inline out.1))

theorem applyBlock_outcome (hok : Faithful ok c) (env : Env) (ops : List (Key × StateOp))
    (passes : List (List Nibble → Bool)) (ram : Bool) (h : Placed n m g) :
    wp ((flat W).filter ok) (applyBlock env ops passes ⟨n, ram⟩) g
      (EndsAs (blockOutcome env ram ops m)) := by
  refine wp_bind (wp_mono (applyNet_sim hok env ram (normalizeBlock ops) h) ?_)
  rintro ⟨n1, e | inv⟩ g1 hr
  · exact nofun
  unfold blockOutcome
  cases hy : value ideal (applyNet env ram (normalizeBlock ops) m) with | mk m1 r =>
  rw [hy] at hr
  cases r with
  | error e => exact hr.elim
  | ok inv' =>
    obtain ⟨h1, rfl⟩ := hr
    have hspill : wp ((flat W).filter ok)
        (if !ram && env.hot then spillQuota passes n1 else .pure (n1, .ok ())) g1 fun r g' =>
          Or (fun _ => True) (fun _ g' => ∃ m', Placed r.1 m' g' ∧ inline m' = inline m1) r.2 g' := by
      split
      · exact spillQuota_inline passes h1
      · exact ⟨m1, h1, rfl⟩
    refine wp_bind (wp_mono hspill ?_)
    rintro ⟨n2, e | _⟩ g2 hr
    · exact nofun
    obtain ⟨m2, h2, hm⟩ := hr
    obtain ⟨hroot, m', hm', hin⟩ := filled_ends h2 hm
    rintro reply ⟨⟩
    exact ⟨_, m', by rw [hroot]; rfl, hm', hin⟩

/-- What `insert_batch` reports and leaves in disk mode. -/
def batchOutcome (env : Env) (entries : List (Key × Bytes)) (pay : DiskPtr → Bytes) (n m : RamNode) :
    Except Err (Reply × RamNode) :=
  (if entries = [] then .ok m
    else batchAlone env (load pay (groupsOf n (dedupLeaves entries)).1)
      (groupsOf n (dedupLeaves entries)).2 m).map fun m' => (.root (hashRam m'), fillRam (inline m'))

theorem insertBatch_outcome (hok : Faithful ok c) (env : Env) {arrange : List Group → List Group}
    (harr : ∀ gs, (arrange gs).Perm gs) (entries : List (Key × Bytes)) (spill : Bool)
    (h : Placed n m g) (hg : Scattered g) {pay : DiskPtr → Bytes} (hpay : ∀ x ∈ g, pay x.1 = x.2) :
    wp ((flat W).filter ok) (callProg env ⟨n, false⟩ (.insertBatch entries arrange spill)) g
      (EndsAs (batchOutcome env entries pay n m)) := by
  unfold batchOutcome callProg insertBatchTo
  dsimp only
  by_cases he : entries = []
  · rw [if_pos he, if_pos he]
    obtain ⟨hroot, m', hm', hin⟩ := filled_ends h rfl
    rintro reply ⟨⟩
    exact ⟨_, m', by rw [hroot]; rfl, hm', hin⟩
  · rw [if_neg he, if_neg he]
    refine wp_bind (wp_mono (insertBatchDisk_folds hok env harr (dedupLeaves entries) h hg hpay) ?_)
    rintro ⟨n1, e | _⟩ g1 hr
    · exact nofun
    obtain ⟨m1, halone, h1⟩ := hr
    obtain ⟨hroot, m', hm', hin⟩ := filled_ends h1 rfl
    rw [halone]
    rintro reply ⟨⟩
    exact ⟨_, m', by rw [hroot]; rfl, hm', hin⟩

/-! ## The same content -/

section
variable {α : Type} {f : Multiset Rec} {s s1 s2 : Store} {n1 n2 m1 m2 : RamNode}
  {g1 g2 : Multiset Rec}

omit [Keccak] in
/-- Records taken in, it is the frontier over the ideal store. -/
theorem AtRest.loaded (h : AtRest W f s n m g) : loaded s n = inline m := by
  obtain ⟨pay, rfl, rfl⟩ := h.placed.leaves []
  exact loaded_inline fun x hx => (h.store.payload (.inl (Multiset.mem_add.mpr (.inl hx)))).1

omit [Keccak] in
theorem AgreeOn.outcome {σ τ β : Type} {S : σ → τ → Multiset Rec → Prop} {x : σ × Except Err β}
    {y : τ × Except Err β} (h : AgreeOn c S (Left S) x y g) (hc : ¬c) : x.2 = y.2 := by
  obtain ⟨a, e | r⟩ := x <;> obtain ⟨b, e' | r'⟩ := y
  · exact (h.resolve_left hc).1.symm
  · exact absurd (h.resolve_left hc).1 nofun
  · exact h.elim
  · exact congrArg Except.ok h.2

/-- Two databases whose frontiers, records taken in, are the same. -/
structure SameContent (s1 : Store) (n1 : RamNode) (s2 : Store) (n2 : RamNode) : Prop where
  frontier : FlatMpt.loaded s2 n2 = FlatMpt.loaded s1 n1
  state : SameState s1 n1 s2 n2

/-- Calls that end as `v` says end alike. -/
theorem ends_alike {p1 p2 : Upd Db Reply} {v : Except Err (Reply × RamNode)}
    (h : AtRest W f s n m g)
    (hp1 : wp ((flat ⟨[], []⟩).filter (Allowed True)) p1 g (EndsAs v))
    (hp2 : wp ((flat ⟨[], []⟩).filter (Allowed True)) p2 g (EndsAs v)) {db1 db2 : Db} {r1 r2 : Reply}
    (hrun1 : Interleaved anyAns s p1 (db1, .ok r1) s1)
    (hrun2 : Interleaved anyAns s p2 (db2, .ok r2) s2) :
    r1 = r2 ∧ SameContent s1 db1.upper s2 db2.upper := by
  obtain ⟨g1, he1, hI1, hg1⟩ := interleaved_ends (c := True) h.store h.scattered hp1
    (hrun1.mono fun r x _ => given_true r x)
  obtain ⟨g2, he2, hI2, hg2⟩ := interleaved_ends (c := True) h.store h.scattered hp2
    (hrun2.mono fun r x _ => given_true r x)
  obtain ⟨u1, m1, hv1, hm1, hu1⟩ := he1 r1 rfl
  obtain ⟨u2, m2, hv2, hm2, hu2⟩ := he2 r2 rfl
  rw [hv1] at hv2
  injection hv2 with hv2
  injection hv2 with hr hu
  have hloaded : loaded s2 db2.upper = loaded s1 db1.upper := by
    rw [AtRest.loaded ⟨hm1, hI1, hg1⟩, AtRest.loaded ⟨hm2, hI2, hg2⟩, hu1, hu2, hu]
  exact ⟨hr, hloaded, sameState_of_loaded hloaded⟩

omit [Keccak] in
/-- The pointers of a frontier. -/
theorem Placed.ptrs (h : Placed n m g) : g.map Prod.fst = (diskPtrs n : Multiset DiskPtr) := by
  obtain ⟨pay, -, rfl⟩ := h.leaves []
  exact map_fst_recsAt pay n

omit [Keccak] in
theorem AtRest.reads_intact {p : Prog Resp α} (h : AtRest W f s n m g) {Q : α → Multiset Rec → Prop}
    (hp : wp ((flat ⟨[], []⟩).filter (Allowed True)) p g Q) : ReadsIntact s (diskPtrs n) p := by
  rw [← h.placed.ptrs]
  exact FlatMpt.reads_intact h.store h.scattered hp

/-- Without I/O faults the workers of a block also fail alike. -/
theorem applyNet_alike (env : Env) (ram : Bool) (net : List (Key × NetUpdate))
    (h : AtRest W f s n m g) {x1 x2 : RamNode × Except Err Inverse}
    (hrun1 : Interleaved (Given False) s (applyNet env ram net n) x1 s1)
    (hrun2 : Interleaved (Given False) s (applyNet env ram net n) x2 s2) : x1.2 = x2.2 := by
  have hp := applyNet_sim (W := ⟨[], []⟩) (allowed_faithful False) env ram net h.placed
  have hvalue : ∀ {x : RamNode × Except Err Inverse} {t : Store},
      Interleaved (Given False) s (applyNet env ram net n) x t →
      x.2 = (value ideal (applyNet env ram net m)).2 := by
    intro x t hrun
    obtain ⟨g', hr, -⟩ := interleaved_ends h.store h.scattered hp hrun
    exact (AgreeOn.outcome hr not_false)
  rw [hvalue hrun1, hvalue hrun2]

theorem insertBatchDisk_alike (env : Env) {arrange1 arrange2 : List Group → List Group}
    (harr1 : ∀ gs, (arrange1 gs).Perm gs) (harr2 : ∀ gs, (arrange2 gs).Perm gs)
    (leaves : List (Key × Bytes)) (h : AtRest W f s n m g) {x1 x2 : RamNode × Except Err Unit}
    (hrun1 : Interleaved (Given False) s (insertBatchDisk env arrange1 leaves n) x1 s1)
    (hrun2 : Interleaved (Given False) s (insertBatchDisk env arrange2 leaves n) x2 s2) :
    x1.2.isOk = x2.2.isOk := by
  have hg : Scattered g := h.scattered.mono (Multiset.le_add_right _ _)
  obtain ⟨pay, hpay⟩ := hg.payload
  have hvalue : ∀ {arrange : List Group → List Group} {x : RamNode × Except Err Unit} {t : Store},
      (∀ gs, (arrange gs).Perm gs) →
      Interleaved (Given False) s (insertBatchDisk env arrange leaves n) x t →
      x.2.isOk = (batchAlone env (load pay (groupsOf n leaves).1) (groupsOf n leaves).2 m).isOk := by
    intro arrange x t harr hrun
    obtain ⟨g', hr, -⟩ := interleaved_ends h.store h.scattered
      (insertBatchDisk_folds (W := ⟨[], []⟩) (allowed_faithful False) env harr leaves h.placed hg hpay)
      hrun
    obtain ⟨n', e | _⟩ := x
    · obtain hf | ⟨e', he⟩ := hr
      · exact hf.elim
      · rw [he]
        rfl
    · obtain ⟨m', hm, -⟩ := hr
      rw [hm]
      rfl
  rw [hvalue harr1 hrun1, hvalue harr2 hrun2]

/-- A block: no record is reached too late, and two runs that end well end alike. -/
theorem AtRest.blocks (env : Env) (ram : Bool) (h : AtRest W f s n m g) (ops : List (Key × StateOp))
    (passes : List (List Nibble → Bool)) :
    ReadsIntact s (diskPtrs n) (callProg env ⟨n, ram⟩ (.applyBlock ops passes)) ∧
      ∀ passes' db1 db2 r1 r2 s1 s2,
        Interleaved anyAns s (callProg env ⟨n, ram⟩ (.applyBlock ops passes)) (db1, .ok r1) s1 →
        Interleaved anyAns s (callProg env ⟨n, ram⟩ (.applyBlock ops passes')) (db2, .ok r2) s2 →
        r1 = r2 ∧ SameContent s1 db1.upper s2 db2.upper := by
  have hblock : ∀ passes, wp ((flat ⟨[], []⟩).filter (Allowed True))
      (callProg env ⟨n, ram⟩ (.applyBlock ops passes)) g (EndsAs (blockOutcome env ram ops m)) :=
    fun passes => applyBlock_outcome (allowed_faithful True) env ops passes ram h.placed
  refine ⟨h.reads_intact (hblock passes), fun passes' db1 db2 r1 r2 s1 s2 hr1 hr2 => ?_⟩
  exact ends_alike h (hblock passes) (hblock passes') hr1 hr2

/-- The same for a batch in disk mode, in any order of its groups. -/
theorem AtRest.batches (env : Env) (h : AtRest W f s n m g) (entries : List (Key × Bytes))
    {arrange : List Group → List Group} (harr : ∀ gs, (arrange gs).Perm gs) (spill : Bool) :
    ReadsIntact s (diskPtrs n) (callProg env ⟨n, false⟩ (.insertBatch entries arrange spill)) ∧
      ∀ arrange' db1 db2 r1 r2 s1 s2, (∀ gs, (arrange' gs).Perm gs) →
        Interleaved anyAns s (callProg env ⟨n, false⟩ (.insertBatch entries arrange spill))
          (db1, .ok r1) s1 →
        Interleaved anyAns s (callProg env ⟨n, false⟩ (.insertBatch entries arrange' spill))
          (db2, .ok r2) s2 →
        r1 = r2 ∧ SameContent s1 db1.upper s2 db2.upper := by
  have hg : Scattered g := h.scattered.mono (Multiset.le_add_right _ _)
  obtain ⟨pay, hpay⟩ := hg.payload
  have hbatch : ∀ arrange, (∀ gs, (arrange gs).Perm gs) →
      wp ((flat ⟨[], []⟩).filter (Allowed True))
        (callProg env ⟨n, false⟩ (.insertBatch entries arrange spill)) g
        (EndsAs (batchOutcome env entries pay n m)) := fun arrange harr =>
    insertBatch_outcome (allowed_faithful True) env harr entries spill h.placed hg hpay
  refine ⟨h.reads_intact (hbatch arrange harr), ?_⟩
  intro arrange' db1 db2 r1 r2 s1 s2 harr' hr1 hr2
  exact ends_alike h (hbatch arrange harr) (hbatch arrange' harr') hr1 hr2

end

end

end FlatMpt
