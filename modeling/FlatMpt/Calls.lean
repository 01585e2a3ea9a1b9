import FlatMpt.Interleave
import FlatMpt.OwnedCalls

/-!
# Frontiers through the calls

What a call of the writer leaves owns its pointers: exactly those if it ends well,
perhaps with leaked records if it fails while the store does not.  The exception is a
batch of which a group does not fold after others have been freed.

    Fronted              -- a frontier with its records, and perhaps leaked ones
    Ended                -- what a call may promise, depending on how it ends
    Foldable             -- no group of a batch fails behind another
    callProg_leaky, callProg_exact
-/

namespace FlatMpt

open Prog

/-! ## Frontiers with their records -/

/-- A frontier and the records it owns; others may be leaked if `leak`. -/
def Fronted (leak : Prop) (n : RamNode) (g : Multiset Rec) : Prop :=
  ∃ pay rest, g = recsAt pay n + rest ∧ (leak ∨ rest = 0)

section
variable {leak : Prop} {n m : RamNode} {g rest : Multiset Rec}

theorem Fronted.of_placed (h : Placed n m g) (hr : leak ∨ rest = 0) : Fronted leak n (g + rest) := by
  obtain ⟨pay, -, rfl⟩ := h.leaves []
  exact ⟨pay, rest, rfl, hr⟩

theorem Fronted.placed (h : Fronted leak n g) :
    ∃ m g0 rest, Placed n m g0 ∧ g = g0 + rest ∧ (leak ∨ rest = 0) := by
  obtain ⟨pay, rest, rfl, hr⟩ := h
  exact ⟨_, _, rest, placed_leaves pay n [], rfl, hr⟩

theorem Fronted.exact (h : Fronted False n g) : ∃ m, Placed n m g := by
  obtain ⟨m, g0, rest, hp, rfl, hr⟩ := h.placed
  rw [hr.resolve_left id, add_zero]
  exact ⟨m, hp⟩

/-- A frontier and the records it owns, which together satisfy `P`. -/
def FrontedWith (P : RamNode → Prop) (leak : Prop) (n : RamNode) (g : Multiset Rec) : Prop :=
  ∃ pay rest, g = recsAt pay n + rest ∧ (leak ∨ rest = 0) ∧ P (inline (mapLeaves (toNamed pay) n []))

theorem FrontedWith.fronted {P : RamNode → Prop} (h : FrontedWith P leak n g) : Fronted leak n g :=
  let ⟨pay, rest, hg, hr, _⟩ := h
  ⟨pay, rest, hg, hr⟩

theorem frontedWith_true : FrontedWith (fun _ => True) leak n g ↔ Fronted leak n g :=
  ⟨FrontedWith.fronted, fun ⟨pay, rest, hg, hr⟩ => ⟨pay, rest, hg, hr, trivial⟩⟩

theorem FrontedWith.of_placed {P : RamNode → Prop} (h : Placed n m g) (hP : P (inline m))
    (hr : leak ∨ rest = 0) : FrontedWith P leak n (g + rest) := by
  obtain ⟨pay, rfl, rfl⟩ := h.leaves []
  exact ⟨pay, rest, rfl, hr, hP⟩

theorem FrontedWith.placed {P : RamNode → Prop} (h : FrontedWith P leak n g) :
    ∃ m g0 rest, Placed n m g0 ∧ g = g0 + rest ∧ (leak ∨ rest = 0) ∧ P (inline m) := by
  obtain ⟨pay, rest, rfl, hr, hP⟩ := h
  exact ⟨_, _, rest, placed_leaves pay n [], rfl, hr, hP⟩

theorem Fronted.owns (h : Fronted leak n g) : Owns (nodePtrs n + 0) g := by
  obtain ⟨pay, rest, rfl, -⟩ := h
  unfold Owns
  rw [Multiset.map_add, map_fst_recsAt, add_zero]
  exact Multiset.le_add_right _ _

/-- Payloads for the pointers of leaf slots. -/
theorem payloads_of_ptrs {l : List (List Nibble × RamSlot)} (hn : (l.map Prod.fst).Nodup)
    {g : Multiset Rec} (h : Owns (l.flatMap fun e => slotPtrs e.2 : List DiskPtr) g)
    (hl : ∀ e ∈ l, e.2.isLeaf) : ∃ pay rest, g = leafRecs pay l + rest := by
  induction l generalizing g with
  | nil => exact ⟨fun _ => [], g, (zero_add g).symm⟩
  | cons e l ih =>
    obtain ⟨p, slot⟩ := e
    rw [List.map_cons, List.nodup_cons] at hn
    have hother : ∀ (pay : List Nibble → Bytes) (b : Bytes),
        leafRecs (Function.update pay p b) l = leafRecs pay l := fun pay b =>
      leafRecs_congr fun e he => by
        have hne : e.1 ≠ p := by
          rintro rfl
          exact hn.1 (List.mem_map.mpr ⟨e, he, rfl⟩)
        rw [Function.update_of_ne hne]
    have hslot : slot.isLeaf := hl _ List.mem_cons_self
    have hrest : ∀ e ∈ l, e.2.isLeaf := fun e he => hl e (List.mem_cons_of_mem _ he)
    cases slot with
    | disk ptr root =>
      have h : Owns (ptr ::ₘ (l.flatMap fun e => slotPtrs e.2 : List DiskPtr)) g := h
      obtain ⟨b, g', rfl, h'⟩ := h.pop
      obtain ⟨pay, rest, rfl⟩ := ih hn.2 h' hrest
      refine ⟨Function.update pay p b, rest, ?_⟩
      show _ = ({(ptr, Function.update pay p b p)} + leafRecs (Function.update pay p b) l) + rest
      rw [hother, Function.update_self, Multiset.singleton_add, Multiset.cons_add]
    | mem bytes root =>
      obtain ⟨pay, rest, rfl⟩ := ih hn.2 h hrest
      exact ⟨pay, rest, by rw [show leafRecs pay ((p, .mem bytes root) :: l) = 0 + leafRecs pay l from rfl,
        zero_add]⟩
    | none => cases hslot
    | ram node => cases hslot
    | account path nonce balance codeHash storage => cases hslot

theorem Owns.fronted {qs : Multiset DiskPtr} (h : Owns (nodePtrs n + qs) g) : Fronted True n g := by
  have h' : Owns (nodePtrs n) g := h.mono (Multiset.le_add_right _ _)
  rw [nodePtrs, diskPtrs_eq_leaves n []] at h'
  obtain ⟨pay, rest, hg⟩ := payloads_of_ptrs (leafSlots_nodup n []) h' fun e he =>
    (leafSlots_under n [] e he).2
  exact ⟨pay, rest, hg, .inl trivial⟩

end

/-! ## Ends of calls -/

/-- What a call leaves: a frontier with its records if it ends well, and also if it
fails in case leaks are allowed.  A call that panics promises nothing. -/
def Ended {α : Type} (leak : Prop) (n : RamNode) (r : Except Err α) (g : Multiset Rec) : Prop :=
  r ≠ .error .panic → leak ∨ r.isOk = true → Fronted leak n g

/-- The same for a frontier that satisfies `P`; a call that fails promises it only if
`errs`. -/
def EndedWith {α : Type} (P : RamNode → Prop) (errs leak : Prop) (n : RamNode) (r : Except Err α)
    (g : Multiset Rec) : Prop :=
  r ≠ .error .panic → errs ∨ r.isOk = true → FrontedWith P leak n g

theorem endedWith_true {α : Type} {leak : Prop} {n : RamNode} {r : Except Err α}
    {g : Multiset Rec} : EndedWith (fun _ => True) leak leak n r g ↔ Ended leak n r g := by
  unfold EndedWith Ended
  simp only [frontedWith_true]

/-- An answer that succeeded, as it would in the ideal store. -/
def Succeeds (r : Req) (x : Resp r) : Prop := failed r x = none ∧ failed r (ideal r) = none

theorem succeeds_faithful : Faithful Succeeds False where
  done _ _ h _ := h.2
  fault r x e h he := by
    rw [h.1] at he
    cases he

section
variable {α β : Type} {leak c : Prop} {W : Holds} {ok : (r : Req) → Resp r → Prop}
  {n m : RamNode} {g : Multiset Rec} {db : Db}

theorem wp_quiet {p : Prog Resp α} {Q : α → Multiset Rec → Prop} (h : wp (quiet W) p g Q) :
    wp ((flat W).filter Succeeds) p g Q :=
  wp_filter_mono (fun _ _ hx => hx.1) h

theorem Ended.well (h : Fronted leak n g) (a : α) : Ended leak n (.ok a : Except Err α) g :=
  fun _ _ => h

theorem Ended.error (h : leak → Fronted leak n g) (e : Err) :
    Ended leak n (.error e : Except Err α) g := by
  rintro - (hl | hr)
  · exact h hl
  · cases hr

/-- An error passed on. -/
theorem Ended.pass {e : Err} (h : Ended leak n (.error e : Except Err α) g) :
    Ended leak n (.error e : Except Err β) g := by
  intro hp hr
  refine h (fun h => hp ?_) hr
  cases h
  rfl

theorem Ended.fronted {a : α} (h : Ended leak n (.ok a : Except Err α) g) : Fronted leak n g :=
  h nofun (.inr rfl)

theorem Leaves.ended {x : RamNode × Except Err α} {rest : Multiset DiskPtr}
    (h : Leaves nodePtrs noPtrs rest x g) : Ended True x.1 x.2 g := by
  obtain ⟨n, e | a⟩ := x
  · exact fun hp _ => (h fun he => hp (by rw [he])).fronted
  · exact fun _ _ => Owns.fronted h

theorem AgreeOn.ended {x y : RamNode × Except Err α} (h : AgreeOn c Placed (Left Placed) x y g) :
    Ended False x.1 x.2 g := by
  obtain ⟨n, e | a⟩ := x
  · exact Ended.error nofun e
  obtain ⟨m, e | b⟩ := y
  · exact h.elim
  · have : Fronted False _ _ := .of_placed h.1 (.inr rfl)
    rw [add_zero] at this
    exact Ended.well this a

end

/-! ## Whatever the frontier operations leave -/

section
variable [Keccak] {leak c : Prop} {W : Holds} {ok : (r : Req) → Resp r → Prop} {n : RamNode}
  {g : Multiset Rec} {db : Db}

theorem Fronted.fill (h : Fronted leak n g) : Fronted leak (fillRam n) g := by
  obtain ⟨m, g0, rest, hp, rfl, hr⟩ := h.placed
  exact .of_placed (fillRam_placed hp) hr

omit [Keccak] in
/-- Spills lose nothing; their errors are those of the store. -/
theorem spillQuota_ended (hE : ∀ r x e, ok r x → failed r x = some e → ¬leak)
    (passes : List (List Nibble → Bool)) (h : Fronted leak n g) :
    wp ((flat W).filter ok) (spillQuota passes n) g fun x => Ended leak x.1 x.2 := by
  obtain ⟨pay, rest, rfl, hr⟩ := h
  refine wp_mono (spillQuota_moves hE passes n pay rest) ?_
  rintro ⟨n', e | u⟩ g' hx
  · exact Ended.error (fun hl => absurd hl hx) e
  · obtain ⟨gone, ptrs, -, -, -, -, rfl⟩ := hx
    exact Ended.well ⟨_, rest, rfl, hr⟩ u

omit [Keccak] in
theorem gcStep_ended (hE : ∀ r x e, ok r x → failed r x = some e → ¬leak) (picks : List (List Nat))
    (h : Fronted leak n g) :
    wp ((flat W).filter ok) (gcStep picks n) g fun x => Ended leak x.1 x.2 := by
  obtain ⟨pay, rest, rfl, hr⟩ := h
  refine wp_mono (gcStep_moves hE picks) ?_
  rintro ⟨n', e | u⟩ g' hx
  · exact Ended.error (fun hl => absurd hl hx) e
  · obtain ⟨-, rfl⟩ := hx
    exact Ended.well ⟨_, rest, rfl, hr⟩ u

theorem replyRoot_ended (ram : Bool) {p : Upd RamNode Unit}
    (hp : wp ((flat W).filter ok) p g fun x => Ended leak x.1 x.2) :
    wp ((flat W).filter ok) (replyRoot ram p) g fun x => Ended leak x.1.upper x.2 := by
  refine wp_bind (wp_mono hp ?_)
  rintro ⟨n', e | u⟩ g' hx
  · exact hx.pass
  · exact Ended.well hx.fronted.fill _

theorem applyBlock_ended (hE : ∀ r x e, ok r x → failed r x = some e → ¬leak) (env : Env)
    (ops : List (Key × StateOp)) (passes : List (List Nibble → Bool))
    (hnet : wp ((flat W).filter ok) (applyNet env db.ramMode (normalizeBlock ops) db.upper) g
      fun x => Ended leak x.1 x.2) :
    wp ((flat W).filter ok) (applyBlock env ops passes db) g fun x => Ended leak x.1.upper x.2 := by
  refine wp_bind (wp_mono hnet ?_)
  rintro ⟨n1, e | inv⟩ g1 h1
  · exact h1.pass
  have hspill : wp ((flat W).filter ok)
      (if !db.ramMode && env.hot then spillQuota passes n1 else .pure (n1, .ok ())) g1
        fun x => Ended leak x.1 x.2 := by
    split
    · exact spillQuota_ended hE passes h1.fronted
    · exact Ended.well h1.fronted ()
  refine wp_bind (wp_mono hspill ?_)
  rintro ⟨n2, e | u⟩ g2 h2
  · exact h2.pass
  · exact Ended.well h2.fronted.fill _

omit [Keccak] in
theorem persistBody_ended (hE : ∀ r x e, ok r x → failed r x = some e → ¬leak)
    (picks : List (List Nat)) (h : Fronted leak db.upper g) :
    wp ((flat W).filter ok) (persistBody picks db) g fun x => Ended leak x.1.upper x.2 := by
  refine wp_bind (wp_mono (spillQuota_ended hE [fun _ => true] h) ?_)
  rintro ⟨n1, e | u⟩ g1 h1
  · exact h1.pass
  refine wp_bind (wp_mono (gcStep_ended hE picks h1.fronted) ?_)
  rintro ⟨n2, e | u⟩ g2 h2
  · exact h2.pass
  · exact Ended.well h2.fronted _

theorem gcStepCall_ended (hE : ∀ r x e, ok r x → failed r x = some e → ¬leak) (env : Env)
    (picks : List (List Nat)) (h : Fronted leak db.upper g) :
    wp ((flat W).filter ok) (callProg env db (.gcStep picks)) g
      fun x => Ended leak x.1.upper x.2 := by
  refine wp_bind (wp_mono (gcStep_ended hE picks h) ?_)
  rintro ⟨n1, e | u⟩ g1 h1
  · exact h1.pass
  · exact Ended.well h1.fronted _

end

/-! ## Calls that fail while the store does not -/

section
variable [Keccak] {W : Holds} {n : RamNode} {g : Multiset Rec} {db : Db}

/-- The groups of a batch with the payloads of their records, as the environment
orders them. -/
def batchLoads (arrange : List Group → List Group) (entries : List (Key × Bytes))
    (pay : DiskPtr → Bytes) (upper : RamNode) : List Loaded :=
  load pay (arrange (groupsOf upper (dedupLeaves entries)).1)

/-- A group's values in its record, up to where the record is freed. -/
def foldValues (env : Env) (payload : Bytes) (keys : List (Key × Bytes)) : Except Err Unit := do
  let subtree ← deserializeSubtree payload
  let node ← insertValues subtree.pfx.length keys subtree.node
  if shouldPromote env.cfg { subtree with node } then pure ()
  else (serializeSubtree { subtree with node }).map fun _ => ()

/-- No group of a batch fails after another has freed its record: all of them fold, or
one worker takes them and fails at the first. -/
def Foldable (env : Env) (xs : List Loaded) : Prop :=
  (∀ x ∈ xs, ∃ slot, foldAlone env x.2 x.1.keys = .ok slot) ∨
    xs.length < 64 ∧ ∃ x rest, xs = x :: rest ∧ ∃ e, foldValues env x.2 x.1.keys = .error e

omit [Keccak] in
theorem succeeds_error {leak : Prop} (r : Req) (x : Resp r) (e : Err) (h : Succeeds r x)
    (he : failed r x = some e) : ¬leak := by
  rw [h.1] at he
  cases he

/-- The first group of a single worker fails: nothing has been freed. -/
theorem processAll_first (env : Env) {a : Group} {gs : List Group} (hlen : (a :: gs).length < 64)
    {payload : Bytes} (ha : (a.ptr, payload) ∈ g) {e : Err}
    (he : foldValues env payload a.keys = .error e) :
    wp ((flat W).filter Succeeds) (processAll env (a :: gs)) g fun r g' =>
      (∃ e, r = .error e) ∧ g' = g := by
  unfold processAll
  rw [if_pos hlen]
  refine ⟨payload, .inl ha, fun _ => ?_, fun e h => by cases h.1⟩
  unfold foldValues at he
  cases hsub : deserializeSubtree payload with
  | error e' =>
    simp only [Prog.bind, hsub]
    exact ⟨⟨e', rfl⟩, rfl⟩
  | ok subtree =>
    rw [hsub, ok_bind] at he
    cases hval : insertValues subtree.pfx.length a.keys subtree.node with
    | error e' =>
      simp only [Prog.bind, hsub, foldGroup, attempt, hval]
      exact ⟨⟨e', rfl⟩, rfl⟩
    | ok node =>
      rw [hval, ok_bind] at he
      by_cases hp : shouldPromote env.cfg { subtree with node } = true
      · rw [if_pos hp] at he
        cases he
      rw [if_neg hp] at he
      cases hser : serializeSubtree { subtree with node } with
      | ok bytes =>
        rw [hser] at he
        cases he
      | error e' =>
        simp only [Prog.bind, hsub, foldGroup, attempt, hval, if_neg hp, hser]
        exact ⟨⟨e', rfl⟩, rfl⟩

theorem insertBatchDisk_leaky (env : Env) {arrange : List Group → List Group}
    (harr : ∀ gs, (arrange gs).Perm gs) (entries : List (Key × Bytes)) (h : Fronted True n g)
    (hg : Scattered g) {pay : DiskPtr → Bytes} (hpay : ∀ x ∈ g, pay x.1 = x.2)
    (hfold : Foldable env (batchLoads arrange entries pay n)) :
    wp ((flat W).filter Succeeds) (insertBatchDisk env arrange (dedupLeaves entries) n) g
      fun x => Ended True x.1 x.2 := by
  obtain ⟨m, g0, rest, hp, rfl, -⟩ := h.placed
  have hg0 : Scattered g0 := hg.mono (Multiset.le_add_right _ _)
  have hpay0 : ∀ x ∈ g0, pay x.1 = x.2 := fun x hx => hpay x (Multiset.mem_add.mpr (.inl hx))
  have hperm := harr (groupsOf n (dedupLeaves entries)).1
  rcases hfold with hall | ⟨hlen, x, xs, hx, e, he⟩
  · refine wp_bind_frame (processAll_placed succeeds_faithful env harr _ hp hg0 hpay0) ?_
    rintro (e | out) g1 hr
    · obtain ⟨x, hx, e, he⟩ := hr.resolve_left id
      obtain ⟨slot, hslot⟩ := hall x ((hperm.map _).mem_iff.mpr hx)
      rw [hslot] at he
      cases he
    · obtain ⟨slots, -, hput⟩ := hr
      have hf : Fronted True _ (g1 + rest) := .of_placed hput (.inl trivial)
      exact wp_mono (wp_quiet (insertSerial_owned env false _ _ hf.owns)) fun x g' hx => hx.ended
  · have hgroup : Grouped n (arrange (groupsOf n (dedupLeaves entries)).1) :=
      (groupsOf_grouped n _).perm hperm.symm
    obtain ⟨⟨others, hothers⟩, -, -⟩ := hgroup.recs hp hg0 hpay0
    unfold batchLoads load at hx hlen
    rw [List.length_map] at hlen
    unfold insertBatchDisk
    dsimp only
    cases hgs : arrange (groupsOf n (dedupLeaves entries)).1 with
    | nil =>
      rw [hgs] at hx
      cases hx
    | cons a gs =>
      rw [hgs] at hx hlen hothers
      obtain ⟨rfl, -⟩ := List.cons.inj hx
      have ha : (a.ptr, pay a.ptr) ∈ g0 + rest := by
        refine Multiset.mem_add.mpr (.inl ?_)
        rw [hothers]
        exact Multiset.mem_add.mpr (.inl (List.mem_map.mpr ⟨(a, pay a.ptr), List.mem_cons_self, rfl⟩))
      refine wp_bind (wp_mono (processAll_first env hlen ha he) ?_)
      rintro r g' ⟨⟨e', rfl⟩, rfl⟩
      exact Ended.error (fun _ => h) e'

/-- The environment's order of a batch's groups loses none. -/
def Call.Arranged : Call → Prop
  | .insertBatch _ arrange _ => ∀ gs, (arrange gs).Perm gs
  | _ => True

/-- The groups of a batch in disk mode are foldable, given the payloads of the records. -/
def Call.Folds (env : Env) (pay : DiskPtr → Bytes) (db : Db) : Call → Prop
  | .insertBatch entries arrange _ =>
    db.ramMode = false → Foldable env (batchLoads arrange entries pay db.upper)
  | _ => True

/-- While the store does not fail, calls of the writer keep the frontier's records. -/
theorem callProg_leaky (env : Env) {call : Call} (hcall : ∀ b, call ≠ .gcInstall b)
    (harr : call.Arranged) {pay : DiskPtr → Bytes} (hfold : call.Folds env pay db)
    (h : Fronted True db.upper g) (hg : Scattered g) (hpay : ∀ x ∈ g, pay x.1 = x.2) :
    wp ((flat W).filter Succeeds) (callProg env db call) g
      fun x => Ended True x.1.upper x.2 := by
  cases call with
  | applyBlock ops passes =>
    exact applyBlock_ended succeeds_error env ops passes
      (wp_mono (wp_quiet (applyNet_owned env _ _ _ h.owns)) fun x g' hx => hx.ended)
  | insertBatch entries arrange spill =>
    refine replyRoot_ended _ ?_
    unfold insertBatchTo
    split
    · exact Ended.well h ()
    dsimp only
    split
    · refine wp_bind (wp_mono (wp_quiet (insertBatchRam_owned env _ _ h.owns)) ?_)
      rintro ⟨n', e | u⟩ g' hx
      · exact hx.ended
      · have hx : Ended True n' _ g' := hx.ended
        show wp _ (if spill then _ else _) _ _
        split
        · exact spillQuota_ended succeeds_error _ hx.fronted
        · exact Ended.well hx.fronted ()
    · rename_i hram
      exact insertBatchDisk_leaky env harr entries h hg hpay (hfold (Bool.eq_false_iff.mpr hram))
  | insert key op =>
    exact replyRoot_ended _ (wp_mono (wp_quiet (insertRam_owned env _ [] key op _ _ _ h.owns))
      fun x g' hx => hx.ended)
  | delete key op =>
    refine replyRoot_ended _ (wp_bind (wp_mono (wp_quiet (deleteRam_owned env _ [] key op _ _ _ h.owns)) ?_))
    rintro ⟨n', e | out⟩ g' hx
    · exact Leaves.ended (x := (n', (.error e : Except Err Unit))) hx
    · exact wp_mono (wp_quiet (installRoot_owned env n' out hx)) fun x g' hx => hx.ended
  | gcStep picks => exact gcStepCall_ended succeeds_error env picks h
  | gcInstall batch => exact absurd rfl (hcall batch)
  | persist picks => exact persistBody_ended succeeds_error picks h

/-- A call of the writer that ends well leaves exactly the frontier's records. -/
theorem callProg_exact {c : Prop} {ok : (r : Req) → Resp r → Prop} (hok : Faithful ok c) (env : Env)
    {call : Call} (hcall : ∀ b, call ≠ .gcInstall b) (harr : call.Arranged)
    (h : Fronted False db.upper g) (hg : Scattered g) :
    wp ((flat W).filter ok) (callProg env db call) g fun x => Ended False x.1.upper x.2 := by
  have hE : ∀ r x e, ok r x → failed r x = some e → ¬False := fun _ _ _ _ _ => id
  obtain ⟨m, hp⟩ := h.exact
  cases call with
  | applyBlock ops passes =>
    exact applyBlock_ended hE env ops passes
      (wp_mono (applyNet_sim hok env _ _ hp) fun x g' hx => hx.ended)
  | insertBatch entries arrange spill =>
    refine replyRoot_ended _ ?_
    unfold insertBatchTo
    split
    · exact Ended.well h ()
    dsimp only
    split
    · refine wp_bind (wp_mono (insertBatchRam_sim hok env _ hp) ?_)
      rintro ⟨n', e | u⟩ g' hx
      · exact Ended.error nofun e
      · have hx := hx.ended
        show wp _ (if spill then _ else _) _ _
        split
        · exact spillQuota_ended hE _ hx.fronted
        · exact Ended.well hx.fronted ()
    · obtain ⟨pay, hpay⟩ := hg.payload
      refine wp_mono (insertBatchDisk_folds hok env harr _ hp hg hpay) ?_
      rintro ⟨n', e | u⟩ g' hx
      · exact Ended.error nofun e
      · obtain ⟨m', -, hx⟩ := hx
        have : Fronted False _ _ := .of_placed hx (.inr rfl)
        rw [add_zero] at this
        exact Ended.well this u
  | insert key op =>
    exact replyRoot_ended _ (wp_mono (insertRam_sim hok env hp [] key op _) fun x g' hx => hx.ended)
  | delete key op =>
    refine replyRoot_ended _ (wp_bind (wp_mono (deleteRam_sim hok env hp [] key op _) ?_))
    rintro ⟨n', e | out⟩ g' hx
    · exact Ended.error nofun e
    cases hy : value ideal (deleteRam env m [] key op db.ramMode) with | mk m' r' =>
    rw [hy] at hx
    cases r' with
    | error e => exact hx.elim
    | ok out' => exact wp_mono (installRoot_sim hok env hx) fun x g' hx => hx.ended
  | gcStep picks => exact gcStepCall_ended hE env picks h
  | gcInstall batch => exact absurd rfl (hcall batch)
  | persist picks => exact persistBody_ended hE picks h

end

end FlatMpt
