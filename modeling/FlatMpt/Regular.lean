import FlatMpt.Shown
import FlatMpt.Steady

/-!
# Regular runs

In a regular run no call fails, every value fits its length field, and a key inserted
or deleted on its own shares 63 nibbles with no other live key.  Whatever the order of
events, the frontier, the snapshots held and the checkpoint then show trees, and a call
turns the tree as it says.

    Call.Sound, Sys.Regular, RegularRun
    shown_of_run, snapshot_shown_of_run
    exec_turns
-/

namespace FlatMpt

open Prog
open Radix (Tree)

/-! ## Answers of the store -/

/-- Any answer of the store is allowed. -/
theorem exec_allowed (r : Req) (s : Store) : Allowed True r (exec r s).1 := by
  refine ⟨fun h => ?_, fun _ _ => .inl trivial⟩
  cases r with
  | writePayload payload =>
    have h : failed (.writePayload payload) (s.writePayload payload).1 = none := h
    unfold Store.writePayload at h
    show failed (.writePayload payload) (if MAX_RECORD_BYTES < payload.length then _ else _) = none
    split at h
    · cases h
    next hlen =>
      rw [if_neg hlen]
      rfl
  | writeBatch payloads =>
    have h : failed (.writeBatch payloads) (s.writeBatch payloads).1 = none := h
    unfold Store.writeBatch at h
    cases hp : Store.tooLarge payloads with
    | none =>
      rw [ideal_writeBatch hp]
      rfl
    | some p =>
      rw [hp] at h
      cases h
  | writeBatchParallel payloads =>
    have h : failed (.writeBatchParallel payloads) (s.writeBatchParallel payloads).1 = none := h
    unfold Store.writeBatchParallel at h
    cases hp : Store.tooLarge payloads with
    | none =>
      rw [ideal_writeBatchParallel hp]
      rfl
    | some p =>
      rw [hp] at h
      cases h
  | refuse e => cases h
  | _ => rfl

abbrev anyResp (r : Req) (_ : Resp r) : Prop := True

theorem step_allowed {α : Type} {ok : (r : Req) → Resp r → Prop} {s s' : Store} {p p' : Prog Resp α}
    (h : Prog.Step exec ok s p s' p') : Prog.Step exec (Allowed True) s p s' p' := by
  induction h with
  | req _ => exact .req (exec_allowed _ _)
  | child i _ ih => exact .child i ih
  | join bs => exact .join bs

theorem steps_allowed {α : Type} {ok : (r : Req) → Resp r → Prop} {s s' : Store} {p p' : Prog Resp α}
    (h : Steps exec ok s p s' p') : Steps exec (Allowed True) s p s' p' := by
  induction h with
  | refl => exact .refl
  | head hs _ ih => exact .head (step_allowed hs) ih

theorem Sys.Step.allowed [Keccak] {env : Env} {ok : (r : Req) → Resp r → Prop} {σ σ' : Sys}
    (h : Sys.Step env ok σ σ') : Sys.Step env (Allowed True) σ σ' := by
  cases h with
  | start call hidle hcall => exact .start call hidle hcall
  | install l1 l2 batch hidle hb => exact .install l1 l2 batch hidle hb
  | work hrun hstep => exact .work hrun (step_allowed hstep)
  | finish hrun hr => exact .finish hrun hr
  | snapshot hidle => exact .snapshot hidle
  | clone snap hsnap => exact .clone snap hsnap
  | drop l1 l2 snap hsnap => exact .drop l1 l2 snap hsnap
  | collect l1 l2 snap pick hsnap => exact .collect l1 l2 snap pick hsnap
  | collectWork hc hstep => exact .collectWork hc (step_allowed hstep)
  | collected hc => exact .collected hc
  | collectFailed hc => exact .collectFailed hc
  | dropBatch l1 l2 batch hb => exact .dropBatch l1 l2 batch hb
  | prefetch ops order hidle horder => exact .prefetch ops order hidle horder
  | prefetchClear hidle => exact .prefetchClear hidle

section
variable [Keccak]

/-! ## Calls and events -/

/-- A value is found at the key. -/
def Sys.Live (σ : Sys) (key : Key) : Prop := ∃ v, getValue σ.store σ.db.upper key = .ok (some v)

/-- Among the keys of `S`, no other one shares the first 63 nibbles. -/
def KeyApart (S : Set Key) (key : Key) : Prop :=
  ∀ k ∈ S, (keyNibbles k).take 63 = (keyNibbles key).take 63 → k = key

/-- Values fit their length fields, and keys on their own are apart from the live ones. -/
def Call.Sound (σ : Sys) : Call → Prop
  | .applyBlock ops _ => ∀ e ∈ ops, e.2.Short
  | .insertBatch entries arrange _ => (∀ gs, (arrange gs).Perm gs) ∧ ∀ e ∈ entries,
      ShortValue e.2 ∧ KeyApart ({k | σ.Live k} ∪ {k | ∃ e ∈ entries, k = e.1}) e.1
  | .insert key op => op.Short ∧ KeyApart {k | σ.Live k} key
  | .delete key _ => KeyApart {k | σ.Live k} key
  | _ => True

/-- One event of a regular run: the calls started are sound and none has failed. -/
structure Sys.Regular (env : Env) (σ σ' : Sys) : Prop where
  step : Sys.Step env anyResp σ σ'
  starts : Sys.Starts env (Call.Sound σ) σ σ'
  ends : σ.CallsEnd

/-- A regular run with crashes. -/
def RegularRun (env : Env) : Sys → Sys → Prop :=
  Relation.ReflTransGen fun σ σ' => σ.Regular env σ' ∨ Sys.Crash σ σ'

/-! ## Trees of a state -/

/-- The frontier shows a tree. -/
def Shown (n : RamNode) : Prop := ∃ t, Shows stateKind [] n t

abbrev RegularInv := SysInvWith Shown False (Allowed True) True

section
variable {env : Env} {pay : Payloads} {saved : List Rec} {σ σ' : Sys} {sh : Shares}
  {P : RamNode → Prop} {errs leak : Prop} {ok : (r : Req) → Resp r → Prop}

omit [Keccak] in
/-- An idle writer's frontier is loaded with its own records. -/
theorem SysInvWith.loaded (h : SysInvWith P errs ok leak pay saved σ sh) {Q : RamNode → Prop}
    (hf : FrontedWith Q leak σ.db.upper sh.writer) : Q (FlatMpt.loaded σ.store σ.db.upper) := by
  obtain ⟨p, rest, hw, -, hQ⟩ := hf
  rwa [loaded_inline fun x hx => (h.store.upkept.store.payload (writerRec_visible (by
    rw [hw]
    exact Multiset.mem_add.mpr (.inl hx)))).1]

omit [Keccak] in
theorem SysInvWith.loadedSnap (h : SysInvWith P errs ok leak pay saved σ sh) {snap : Snapshot}
    (hs : snap ∈ σ.holders) : P (FlatMpt.loaded σ.store snap.root) := by
  rw [loaded_inline fun x hx => (h.store.upkept.store.payload (snapRec_visible hs hx)).1]
  exact h.snaps snap hs

omit [Keccak] in
theorem FrontedWith.mono {Q : RamNode → Prop} {n : RamNode} {g : Multiset Rec}
    (h : FrontedWith P leak n g) (hPQ : ∀ n, P n → Q n) : FrontedWith Q leak n g := by
  obtain ⟨pay, rest, hg, hr, hP⟩ := h
  exact ⟨pay, rest, hg, hr, hPQ _ hP⟩

theorem FrontedWith.shown {n : RamNode} {g : Multiset Rec} (h : FrontedWith Shown leak n g) :
    ∃ t, FrontShows t leak n g := by
  obtain ⟨pay, rest, hg, hr, t, ht⟩ := h
  exact ⟨t, pay, rest, hg, hr, ht⟩

/-- What a read of the value returns for a live leaf. -/
theorem ramGet_of_get {n : RamNode} {t : Tree 16 StateLeaf} (h : Shows stateKind [] n t) {key : Key}
    {a : StateLeaf} (ha : t.get (keyNibbles key) = some a) :
    ∃ v, value ideal (ramGet n (keyNibbles key) 0) = .ok (some v) ∧ a.Reads v := by
  have hk : keyNibbles key = [] ++ keyNibbles key := rfl
  obtain ⟨o, ho, hrel⟩ := ramGet_shows reads_state n h hk
  rw [ha] at hrel
  cases hrel with
  | some hv => exact ⟨_, ho, hv⟩

theorem live_of_get {t : Tree 16 StateLeaf} (h : Shows stateKind [] (FlatMpt.loaded σ.store σ.db.upper) t)
    {p : List Nibble} {a : StateLeaf} (hp : t.get p = some a) :
    ∃ key, p = keyNibbles key ∧ σ.Live key := by
  obtain ⟨key, rfl⟩ := exists_key (h.get_length hp)
  obtain ⟨v, hv, -⟩ := ramGet_of_get h hp
  exact ⟨key, rfl, v, by rw [getValue_loaded, hv]⟩

/-- Sound calls fit the tree shown. -/
theorem Call.Sound.fit {call : Call} (h : call.Sound σ) {t : Tree 16 StateLeaf}
    (ht : Shows stateKind [] (FlatMpt.loaded σ.store σ.db.upper) t) : call.Fit t := by
  have hapart {key : Key} (hk : KeyApart {k | σ.Live k} key) :
      stateKind.Apart [] (keyNibbles key) t := by
    intro _ p a hp htake
    obtain ⟨k, rfl, hlive⟩ := live_of_get ht hp
    rw [hk k hlive htake]
  cases call with
  | applyBlock ops passes => exact h
  | insertBatch entries arrange spill =>
    refine ⟨h.1, fun e he => ⟨(h.2 e he).1, ?_⟩⟩
    rintro p (hp | ⟨e', he', rfl⟩) htake
    · obtain ⟨a, hp⟩ := Option.isSome_iff_exists.mp hp
      obtain ⟨k, rfl, hlive⟩ := live_of_get ht hp
      rw [(h.2 e he).2 k (.inl hlive) htake]
    · rw [(h.2 e he).2 e'.1 (.inr ⟨e', he', rfl⟩) htake]
  | insert key op => exact ⟨h.1, hapart h.2⟩
  | delete key op => exact hapart h
  | gcStep picks => trivial
  | gcInstall batch => trivial
  | persist picks => trivial

theorem RegularInv.step (h : RegularInv pay saved σ sh) (hs : σ.Regular env σ') :
    ∃ pay' saved' sh', RegularInv pay' saved' σ' sh' := by
  obtain ⟨pay', saved', sh', h', -⟩ := SysInvWith.step h (.inl trivial) (C := Call.Sound σ)
    (fun call hcall hne hidle => by
      obtain ⟨t, ht⟩ := (h.frontedWith hidle).shown
      refine wp_mono (callProg_shows (allowed_faithful True) hne (hcall.fit (h.loaded ht)) ht
        h.scattered) ?_
      rintro ⟨db, e | reply⟩ g' hx - hend
      · exact absurd (hend.resolve_left id) nofun
      · obtain ⟨t', -, h'⟩ := hx reply rfl
        exact h'.mono fun _ hn => ⟨t', hn⟩) hs.step.allowed hs.starts (.inr hs.ends) (.inl trivial)
  exact ⟨pay', saved', sh', h'⟩

theorem regularInv_of_run {ramMode direct : Bool} {faults : List Bool}
    (hrun : RegularRun env (.create ramMode direct faults) σ) :
    ∃ pay saved sh, RegularInv pay saved σ sh := by
  induction hrun with
  | refl => exact ⟨_, [], _, .create ⟨.empty, .empty⟩ _ _ _ (fun _ _ => []) ramMode direct faults⟩
  | tail _ hstep ih =>
    obtain ⟨pay, saved, sh, h⟩ := ih
    rcases hstep with hs | hc
    · exact h.step hs
    · obtain ⟨sh', h', -⟩ := h.crash hc
      exact ⟨pay, saved, sh', h'⟩

/-- The tree of an idle state, its records loaded. -/
abbrev Sys.Shows (σ : Sys) (t : Tree 16 StateLeaf) : Prop :=
  FlatMpt.Shows stateKind [] (FlatMpt.loaded σ.store σ.db.upper) t

/-- **An idle state of a regular run shows a tree**, and so does every snapshot held. -/
theorem shown_of_run {ramMode direct : Bool} {faults : List Bool}
    (hrun : RegularRun env (.create ramMode direct faults) σ) :
    (σ.running = none → ∃ t, σ.Shows t) ∧
      ∀ snap ∈ σ.holders, Shown (FlatMpt.loaded σ.store snap.root) := by
  obtain ⟨pay, saved, sh, h⟩ := regularInv_of_run hrun
  refine ⟨fun hidle => ?_, fun snap hs => h.loadedSnap hs⟩
  obtain ⟨t, ht⟩ := (h.frontedWith hidle).shown
  exact ⟨t, h.loaded ht⟩

/-! ## One call -/

/-- The state after a call that ended well. -/
def Sys.ended (σ : Sys) (s : Store) (call : Call) (db : Db) (reply : Reply) : Sys :=
  Sys.finish { σ with store := s } call db (.ok reply)

omit [Keccak] in
theorem ended_running (σ : Sys) (s : Store) (call : Call) (db : Db) (reply : Reply) :
    (σ.ended s call db reply).running = none := by
  unfold Sys.ended Sys.finish
  cases call with
  | persist picks =>
    show (Sys.commit _).running = none
    unfold Sys.commit
    dsimp only
    split <;> rfl
  | _ => rfl

omit [Keccak] in
/-- The end of a call touches no payload. -/
theorem ended_payload (σ : Sys) (s : Store) (call : Call) (db : Db) (reply : Reply) (p : DiskPtr) :
    (σ.ended s call db reply).store.payload p = s.payload p := by
  unfold Sys.ended Sys.finish
  cases call with
  | persist picks =>
    show (Sys.commit _).store.payload p = _
    unfold Sys.commit Store.fault
    cases s.faults <;> dsimp only <;> split <;> rfl
  | _ => rfl

omit [Keccak] in
theorem ended_db (σ : Sys) (s : Store) (call : Call) (db : Db) (reply : Reply) :
    (σ.ended s call db reply).db = db := by
  unfold Sys.ended Sys.finish
  cases call with
  | persist picks =>
    show (Sys.commit _).db = db
    unfold Sys.commit
    dsimp only
    split <;> rfl
  | _ => rfl

omit [Keccak] in
theorem SysInvWith.front_of_loaded (h : SysInvWith P errs ok leak pay saved σ sh)
    (hf : Fronted leak σ.db.upper sh.writer) {Q : RamNode → Prop}
    (hQ : Q (FlatMpt.loaded σ.store σ.db.upper)) : FrontedWith Q leak σ.db.upper sh.writer := by
  obtain ⟨p, rest, hw, hr⟩ := hf
  refine ⟨p, rest, hw, hr, ?_⟩
  rwa [← loaded_inline fun x hx => (h.store.upkept.store.payload (writerRec_visible (by
    rw [hw]
    exact Multiset.mem_add.mpr (.inl hx)))).1]

/-- A call from an idle state is a part of a regular run. -/
theorem exec_regular (hidle : σ.running = none) {call : Call} (hne : ∀ b, call ≠ .gcInstall b)
    (hcall : call.Sound σ) {db : Db} {reply : Reply} {s : Store}
    (hexec : Exec exec anyResp σ.store (callProg env σ.db call) (db, .ok reply) s) :
    Relation.ReflTransGen (Sys.Regular env) σ (σ.ended s call db reply) := by
  have hwork : ∀ {s s' : Store} {p p' : Upd Db Reply}, Steps exec anyResp s p s' p' →
      p' = .pure (db, .ok reply) → ∀ {σ : Sys}, σ.store = s → σ.running = some ⟨call, p⟩ →
      Relation.ReflTransGen (Sys.Regular env) σ { σ with store := s', running := some ⟨call, p'⟩ } := by
    intro s s' p p' h
    induction h with
    | refl =>
      rintro - σ rfl hrun
      rw [← hrun]
    | @head s s1 s2 p p1 p2 hstep hsteps ih =>
      rintro hp2 σ rfl hrun
      refine .head ⟨.work hrun hstep, fun _ hnone => ?_, ?_⟩
        (ih hp2 (σ := { σ with store := s1, running := some ⟨call, p1⟩ }) rfl rfl)
      · rw [hrun] at hnone
        cases hnone
      · rintro call' db' e he
        rw [hrun] at he
        cases he
        cases hstep
  have hend : Sys.Regular env { σ with store := s, running := some ⟨call, .pure (db, .ok reply)⟩ }
      (σ.ended s call db reply) := by
    refine ⟨.finish rfl nofun, nofun, fun call' db' e he => ?_⟩
    cases he
  have hstart : Sys.Regular env σ { σ with running := some ⟨call, callProg env σ.db call⟩ } := by
    refine ⟨.start call hidle hne, ?_, fun call' db' e he => ?_⟩
    · rintro call' - he
      obtain ⟨rfl, -⟩ := Running.mk.inj (Option.some.inj he)
      exact hcall
    · rw [hidle] at he
      cases he
  exact .head hstart ((hwork hexec rfl (σ := { σ with running := some ⟨call, callProg env σ.db call⟩ })
    rfl rfl).tail hend)

/-- A regular run goes on with a call. -/
theorem RegularRun.ended {σ₀ : Sys} (hrun : RegularRun env σ₀ σ) (hidle : σ.running = none) {call : Call}
    (hne : ∀ b, call ≠ .gcInstall b) (hcall : call.Sound σ) {db : Db} {reply : Reply} {s : Store}
    (hexec : Exec exec anyResp σ.store (callProg env σ.db call) (db, .ok reply) s) :
    RegularRun env σ₀ (σ.ended s call db reply) :=
  hrun.trans (Relation.ReflTransGen.mono (fun _ _ h => .inl h) _ _ (exec_regular hidle hne hcall hexec))

/-- A call with its workers one after the other. -/
theorem exec_of_run {call : Call} {x : (Db × Except Err Reply) × Store}
    (h : run exec (callProg env σ.db call) σ.store = x) :
    Exec exec anyResp σ.store (callProg env σ.db call) x.1 x.2 := by
  rw [← h]
  exact exec_run _ _

/-- What a program leaves, proved over the records that the writer holds. -/
theorem RegularInv.leaves (h : RegularInv pay saved σ sh) {α : Type} {p : Prog Resp α}
    {Q : α → Multiset Rec → Prop}
    (hwp : wp ((flat ⟨[], []⟩).filter (Allowed True)) p sh.writer Q) {x : α} {s : Store}
    (hexec : Exec exec anyResp σ.store p x s) :
    ∃ g', Q x g' ∧ Upkept (heldBy pay σ.holders saved) False s
      (g' + (sh.collecting.sum + sh.batches.sum)) := by
  have hsound : (flat ⟨[], []⟩).Sound exec (Allowed True)
      (Upkept (heldBy pay σ.holders saved) False) :=
    flat_upkept (fun e he => absurd he List.not_mem_nil) fun h => h.elim
  have hup : Upkept (heldBy pay σ.holders saved) False σ.store
      (sh.writer + (sh.collecting.sum + sh.batches.sum)) := by
    have := h.store.upkept
    rwa [Shares.total, eq_false (not_not.mpr trivial)] at this
  exact hsound.filter.finish (steps_allowed hexec) hup hwp

/-- A call from an idle state turns the tree as it says. -/
theorem exec_turns {ramMode direct : Bool} {faults : List Bool}
    (hrun : RegularRun env (.create ramMode direct faults) σ) (hidle : σ.running = none)
    {t : Tree 16 StateLeaf} (ht : σ.Shows t) {call : Call} (hne : ∀ b, call ≠ .gcInstall b)
    (hcall : call.Sound σ) {db : Db} {reply : Reply} {s : Store}
    (hexec : Exec exec anyResp σ.store (callProg env σ.db call) (db, .ok reply) s) :
    ∃ t', call.Turns t t' ∧ (σ.ended s call db reply).Shows t' := by
  obtain ⟨pay, saved, sh, h⟩ := regularInv_of_run hrun
  have hfront : FrontShows t True σ.db.upper sh.writer := h.front_of_loaded (h.fronted hidle) ht
  obtain ⟨g', hleft, hup⟩ := h.leaves (callProg_shows (allowed_faithful True) hne (hcall.fit ht)
    hfront h.scattered) hexec
  obtain ⟨t', hturn, p, rest, rfl, -, hshow⟩ := hleft reply rfl
  refine ⟨t', hturn, ?_⟩
  unfold Sys.Shows
  rw [ended_db, loaded_congr fun p _ => ended_payload σ s call db reply p,
    loaded_inline fun x hx => (hup.store.payload
      (.inl (Multiset.mem_add.mpr (.inl (Multiset.mem_add.mpr (.inl hx)))))).1]
  exact hshow

end

end

end FlatMpt
