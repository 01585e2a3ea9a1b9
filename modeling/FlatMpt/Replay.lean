import FlatMpt.Calls

/-!
# Runs call by call

Calls whose requests are answered one after the other are a run of the system.

    Sys.call, Sys.calls   -- the state after a call, after several
    Sys.replays           -- the answers are the wanted ones and no call panics
    Sys.call_during       -- a replayed call is a run, with no other call in it
    Sys.calls_steps       -- replayed calls are a run
    Sys.restart           -- a crash that loses nothing
-/

namespace FlatMpt

open Prog

def Call.installs : Call → Bool
  | .gcInstall _ => true
  | _ => false

def panicked : Except Err Reply → Bool
  | .error .panic => true
  | _ => false

def succeeds (r : Req) (x : Resp r) : Bool := (failed r x).isNone && (failed r (ideal r)).isNone

theorem succeeds_iff (r : Req) (x : Resp r) : succeeds r x = true ↔ Succeeds r x := by
  unfold succeeds Succeeds
  rw [Bool.and_eq_true, Option.isNone_iff_eq_none, Option.isNone_iff_eq_none]

theorem Succeeds.allowed {r : Req} {x : Resp r} (h : Succeeds r x) (c : Prop) : Allowed c r x :=
  ⟨fun _ => h.2, fun e he => by rw [h.1] at he; cases he⟩

theorem commit_running (σ : Sys) : σ.commit.running = σ.running := by
  unfold Sys.commit
  dsimp only
  split <;> rfl

theorem finish_running (σ : Sys) (call : Call) (db : Db) (r : Except Err Reply) :
    (σ.finish call db r).running = none := by
  unfold Sys.finish
  dsimp only
  split
  · rfl
  · exact commit_running _
  · rfl

theorem Sys.finish_rest (σ : Sys) (call : Call) (db : Db) (r : Except Err Reply) :
    (σ.finish call db r).collecting = σ.collecting ∧ (σ.finish call db r).batches = σ.batches := by
  unfold Sys.finish
  dsimp only
  split
  · exact ⟨rfl, rfl⟩
  · unfold Sys.commit
    dsimp only
    split <;> exact ⟨rfl, rfl⟩
  · exact ⟨rfl, rfl⟩

section
variable [Keccak] {env : Env} {σ : Sys} {ok : (r : Req) → Resp r → Prop}

/-- The state after a call of an idle writer. -/
def Sys.call (env : Env) (σ : Sys) (call : Call) : Sys :=
  let x := run exec (callProg env σ.db call) σ.store
  Sys.finish { σ with store := x.2, running := some ⟨call, .pure x.1⟩ } call x.1.1 x.1.2

def Sys.calls (env : Env) (σ : Sys) (calls : List Call) : Sys := calls.foldl (Sys.call env) σ

/-- A call whose requests succeed ends. -/
def Sys.replay (env : Env) (σ : Sys) (call : Call) : Bool :=
  !call.installs && (checks exec succeeds (callProg env σ.db call) σ.store &&
    !panicked (run exec (callProg env σ.db call) σ.store).1.2)

def Sys.replays (env : Env) : Sys → List Call → Bool
  | _, [] => true
  | σ, call :: calls => σ.replay env call && Sys.replays env (σ.call env call) calls

/-- An event while no other call is running. -/
def Sys.During (env : Env) (ok : (r : Req) → Resp r → Prop) (call : Call) (σ σ' : Sys) : Prop :=
  Sys.Step env ok σ σ' ∧ ∀ r ∈ σ.running, r.call = call

theorem Sys.During.steps {call : Call} {σ' : Sys}
    (h : Relation.ReflTransGen (Sys.During env ok call) σ σ') :
    Relation.ReflTransGen (Sys.Step env ok) σ σ' := Relation.ReflTransGen.mono (fun _ _ h => h.1) _ _ h

/-- The requests of a running call, one event each. -/
theorem Sys.work_during {call : Call} {p p' : Upd Db Reply}
    {s s' : Store} (h : Steps exec ok s p s' p') :
    ∀ {σ : Sys}, σ.store = s → σ.running = some ⟨call, p⟩ →
      Relation.ReflTransGen (Sys.During env ok call) σ
        { σ with store := s', running := some ⟨call, p'⟩ } := by
  induction h with
  | refl =>
    rintro σ rfl hrun
    rw [← hrun]
  | @head s s1 s2 p p1 p2 hstep _ ih =>
    rintro σ rfl hrun
    refine .head ⟨.work hrun hstep, fun r hr => ?_⟩
      (ih (σ := { σ with store := s1, running := some ⟨call, p1⟩ }) rfl rfl)
    rw [hrun] at hr
    cases hr
    rfl

theorem Sys.call_during (hok : ∀ r x, Succeeds r x → ok r x) (hidle : σ.running = none) {call : Call}
    (h : σ.replay env call = true) :
    Relation.ReflTransGen (Sys.During env ok call) σ (σ.call env call) := by
  unfold Sys.replay at h
  simp only [Bool.and_eq_true, Bool.not_eq_true'] at h
  obtain ⟨hcall, hchecks, hpanic⟩ := h
  have hrun := (exec_run_of_checks _ _ hchecks).mono fun r x hx => hok r x ((succeeds_iff r x).mp hx)
  refine .head ⟨.start call hidle ?_, ?_⟩ (.tail (Sys.work_during hrun rfl rfl) ⟨.finish rfl ?_, ?_⟩)
  · rintro b rfl
    cases hcall
  · intro r hr
    rw [hidle] at hr
    cases hr
  · intro he
    rw [he] at hpanic
    cases hpanic
  · intro r hr
    cases hr
    rfl

theorem Sys.call_steps (hok : ∀ r x, Succeeds r x → ok r x) (hidle : σ.running = none) {call : Call}
    (h : σ.replay env call = true) :
    Relation.ReflTransGen (Sys.Step env ok) σ (σ.call env call) :=
  Sys.During.steps (Sys.call_during hok hidle h)

theorem Sys.call_running (σ : Sys) (call : Call) : (σ.call env call).running = none :=
  finish_running _ _ _ _

theorem Sys.call_collecting (σ : Sys) (call : Call) :
    (σ.call env call).collecting = σ.collecting := (Sys.finish_rest _ _ _ _).1

theorem Sys.calls_running {calls : List Call} (hidle : σ.running = none) :
    (σ.calls env calls).running = none := by
  induction calls generalizing σ with
  | nil => exact hidle
  | cons call calls ih => exact ih (Sys.call_running σ call)

theorem Sys.calls_concat (σ : Sys) (calls : List Call) (call : Call) :
    σ.calls env (calls ++ [call]) = (σ.calls env calls).call env call := by
  unfold Sys.calls
  rw [List.foldl_append]
  rfl

/-- Replayed calls are a run. -/
theorem Sys.calls_steps (hok : ∀ r x, Succeeds r x → ok r x) {calls : List Call}
    (hidle : σ.running = none) (h : σ.replays env calls = true) :
    Relation.ReflTransGen (Sys.Step env ok) σ (σ.calls env calls) := by
  induction calls generalizing σ with
  | nil => exact .refl
  | cons call calls ih =>
    rw [Sys.replays, Bool.and_eq_true] at h
    exact (Sys.call_steps hok hidle h.1).trans (ih (Sys.call_running σ call) h.2)

/-! ## Crashes -/

omit [Keccak] in
/-- The database reopened over the file as it is. -/
def Sys.restart (σ : Sys) : Sys :=
  match σ.checkpoint with
  | some cp => .reopen cp σ.store.file σ.store.direct []
  | none => σ

omit [Keccak] in
theorem Sys.restart_crash (hidle : σ.running = none) (hcp : σ.checkpoint.isSome) :
    Sys.Crash σ σ.restart := by
  obtain ⟨cp, hcp⟩ := Option.isSome_iff_exists.mp hcp
  unfold Sys.restart
  rw [hcp]
  refine .mk σ.store.direct [] hcp (fun r hr => ?_) fun _ _ => rfl
  rw [hidle] at hr
  cases hr

omit [Keccak] in
theorem Sys.restart_running (hidle : σ.running = none) : σ.restart.running = none := by
  unfold Sys.restart
  split
  · rfl
  · exact hidle

/-- Replayed calls, a crash that loses nothing, and further calls. -/
theorem Sys.restarted_run (hok : ∀ r x, Succeeds r x → ok r x) {first later : List Call}
    (hidle : σ.running = none) (h1 : σ.replays env first = true)
    (hcp : (σ.calls env first).checkpoint.isSome)
    (h2 : (σ.calls env first).restart.replays env later = true) :
    Run env ok σ ((σ.calls env first).restart.calls env later) := by
  have hr1 := Sys.calls_steps hok hidle h1
  have hrest : (σ.calls env first).running = none := Sys.calls_running hidle
  have hcrash := Sys.restart_crash hrest hcp
  have hr2 := Sys.calls_steps hok (Sys.restart_running hrest) h2
  exact ((Relation.ReflTransGen.mono (fun _ _ h => Or.inl h) _ _ hr1).tail (.inr hcrash)).trans
    (Relation.ReflTransGen.mono (fun _ _ h => Or.inl h) _ _ hr2)

end

end FlatMpt
