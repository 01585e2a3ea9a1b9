import FlatMpt.Answers
import FlatMpt.CodeRuns
import FlatMpt.Replay

/-!
# Ethereum state

A typed account API over the trie, and the code log.  `persist` checkpoints the trie
and then flushes the log.

    EthOp.call          -- the trie call behind each operation
    EthState.Step       -- one event
    EthState.Crash      -- a crash at any moment, and `open`
    EthState.Flushed    -- the log is synced as far as the manifest needs it
    code_retrievable    -- checkpointed code survives crashes in flushed states
    code_lost           -- and is lost in others
-/

namespace FlatMpt

open Prog

section
variable [Keccak]

/-! ## Operations -/

abbrev Address := { bs : Bytes // bs.length = 20 }

def accountKey (addr : Address) : Key := keccak256 addr.1

def slotKey (slot : U256) : Key := keccak256 (be32 slot)

def storageValueRlp (value : U256) : Bytes := Eth.rlpNat value.toNat

inductive EthOp
  | setAccount (addr : Address) (acct : Eth.Account)
  | setStorage (addr : Address) (slot value : U256)
  | deleteAccount (addr : Address)
  | deleteStorage (addr : Address) (slot : U256)
  | wipeStorage (addr : Address)

/-- An account with an opaque storage root is a value leaf; a zero slot is deleted. -/
def EthOp.call : EthOp → Call
  | .setAccount addr acct =>
    if acct.storageRoot = Eth.EMPTY_ROOT then
      .insert (accountKey addr) (.account acct.nonce acct.balance acct.codeHash)
    else .insert (accountKey addr) (.value acct.rlp)
  | .setStorage addr slot value =>
    if value = 0 then .delete (accountKey addr) (.storage (slotKey slot))
    else .insert (accountKey addr) (.storage (slotKey slot) (storageValueRlp value))
  | .deleteAccount addr => .delete (accountKey addr) .account
  | .deleteStorage addr slot => .delete (accountKey addr) (.storage (slotKey slot))
  | .wipeStorage addr => .delete (accountKey addr) .wipeStorage

/-! ## State -/

/-- `flushing` inside `persist`, when the manifest is written and the log not yet
flushed.  `named` is where the log ended when the manifest was written.  Of the codes
that `set_code` returned for, `known` are those before the persist that wrote the
manifest. -/
structure EthState where
  trie : Sys
  code : CodeStore
  flushing : Bool
  named : Nat
  returned : List Bytes
  known : List Bytes

/-- No byte is written while the cursor is past the last record, behind a torn one. -/
def CodeStore.Appends (c : CodeStore) (p : PutCall) : Prop :=
  c.cursor ≠ c.endOff → c.writes p.code = false ∨ p.fails = some 0

namespace EthState

def create (ramMode direct : Bool) (faults : List Bool) : EthState :=
  ⟨.create ramMode direct faults, .create, false, 0, [], []⟩

/-- `get_account`; `none` also where it fails. -/
def getAccount (σ : EthState) (addr : Address) : Option Eth.Account :=
  match getValue σ.trie.store σ.trie.db.upper (accountKey addr) with
  | .ok (some bytes) => Eth.Account.decode bytes
  | _ => none

def getCode (σ : EthState) (hash : Hash) : Except Err (Option Bytes) := σ.code.get hash

/-- The next event of the trie writes the manifest. -/
def Commits (σ : EthState) (picks : List (List Nat)) (db : Db) (rep : Reply) : Prop :=
  σ.trie.running = some ⟨.persist picks, .pure (db, .ok rep)⟩ ∧ σ.trie.store.fault.1 = false

/-- One event; `may` restricts the `set_code` calls under consideration.  A call of it may
fail after part of its record, and the flush, or the directory's sync before it, may fail. -/
inductive Step (env : Env) (ok : (r : Req) → Resp r → Prop) (may : CodeStore → PutCall → Prop)
    (codes : Set Bytes) : EthState → EthState → Prop
  | trie {σ : EthState} {t : Sys} (hflush : σ.flushing = false) (h : Sys.Step env ok σ.trie t)
      (hrest : ∀ picks db rep, ¬ σ.Commits picks db rep) :
      Step env ok may codes σ { σ with trie := t }
  | commit {σ : EthState} {picks : List (List Nat)} {db : Db} {rep : Reply}
      (hflush : σ.flushing = false) (h : σ.Commits picks db rep) :
      Step env ok may codes σ { σ with
        trie := σ.trie.finish (.persist picks) db (.ok rep)
        flushing := true
        named := σ.code.file.length
        known := σ.returned }
  | flush {σ : EthState} (fails : Bool) (hflush : σ.flushing = true) :
      Step env ok may codes σ { σ with
        code := if fails then σ.code else σ.code.flush, flushing := false }
  | setCode {σ : EthState} (code : Bytes) (fails : Option Nat) (hcode : code ∈ codes)
      (hfails : ∀ n ∈ fails, n < (CodeStore.record code).length) (hmay : may σ.code ⟨code, fails⟩)
      (hidle : σ.trie.running = none) (hflush : σ.flushing = false) :
      Step env ok may codes σ { σ with
        code := (σ.code.put code fails).2
        returned := (if (σ.code.put code fails).1.isOk then [code] else []) ++ σ.returned }

/-- A crash loses any bytes of the flat file written since its last sync and any
suffix of the log behind its last flush; a lost `set_code` has not returned. -/
inductive Crash : EthState → EthState → Prop
  | mk {σ : EthState} {cp : Checkpoint} {file : Nat → UInt8} {n : Nat} {code : CodeStore}
      {returned : List Bytes} (direct : Bool) (faults : List Bool)
      (hcp : σ.trie.checkpoint = some cp) (hfile : Survives σ.trie.store file)
      (hn : σ.code.synced ≤ n)
      (hopen : CodeStore.open (σ.code.file.take n) σ.code.synced = some code)
      (hret : ∀ c ∈ returned, c ∈ σ.returned ∧ code.get (keccak256 c) = .ok (some c)) :
      Crash σ ⟨.reopen cp file direct faults, code, false, min σ.named code.file.length, returned,
        σ.known⟩

/-- The log is on disk up to where it ended when the manifest was written. -/
def Flushed (σ : EthState) : Prop := σ.named ≤ σ.code.synced

/-- Events without an append behind a torn record, and crashes in flushed states. -/
def FlushedRun (env : Env) (ok : (r : Req) → Resp r → Prop) (codes : Set Bytes) :
    EthState → EthState → Prop :=
  Relation.ReflTransGen fun σ σ' =>
    Step env ok CodeStore.Appends codes σ σ' ∨ σ.Flushed ∧ Crash σ σ'

/-! ## Checkpointed code -/

/-- The codes that the manifest may name are among the first `m` records, which lie before
`named`. -/
structure Inv (codes : Set Bytes) (σ : EthState) (recs : List CodeRecord) (torn : Bytes) (m : Nat) :
    Prop where
  log : σ.code.Torn codes recs torn
  le : m ≤ recs.length
  named : (codeFormat.log (recs.take m)).length ≤ σ.named
  mem : ∀ code ∈ σ.returned, code ∈ codes
  returned : ∀ code ∈ σ.returned, Logged recs code
  known : ∀ code ∈ σ.known, Logged (recs.take m) code

theorem inv_create (codes : Set Bytes) (ramMode direct : Bool) (faults : List Bool) :
    (create ramMode direct faults).Inv codes [] [] 0 :=
  ⟨CodeStore.logs_create.untorn, le_rfl, le_rfl, nofun, nofun, nofun⟩

variable {env : Env} {ok : (r : Req) → Resp r → Prop} {may : CodeStore → PutCall → Prop}
  {codes : Set Bytes} {σ σ' : EthState} {recs : List CodeRecord} {torn : Bytes} {m : Nat}

theorem Inv.step (hinj : Set.InjOn keccak256 (insert [] codes))
    (hsize : ∀ code ∈ codes, code.length < 2 ^ 32) (h : σ.Inv codes recs torn m)
    (hs : Step env ok CodeStore.Appends codes σ σ') : ∃ recs' torn' m', σ'.Inv codes recs' torn' m' := by
  cases hs with
  | trie hflush hstep hrest => exact ⟨recs, torn, m, h.log, h.le, h.named, h.mem, h.returned, h.known⟩
  | commit hflush hc =>
    refine ⟨recs, torn, recs.length, h.log, le_rfl, ?_, h.mem, h.returned, ?_⟩
    · rw [List.take_length]
      show _ ≤ σ.code.file.length
      rw [h.log.file, List.length_append]
      exact Nat.le_add_right _ _
    · rw [List.take_length]
      exact h.returned
  | flush fails hflush =>
    refine ⟨recs, torn, m, ?_, h.le, h.named, h.mem, h.returned, h.known⟩
    cases fails with
    | true => exact h.log
    | false => exact h.log.flush
  | setCode code fails hcode hfails hmay hidle hflush =>
    obtain ⟨new, torn', hlog, hlogged, -⟩ := h.log.put hinj (p := ⟨code, fails⟩) hcode
      (hsize code hcode) hfails fun hne => hmay (h.log.passed hne)
    have hsub : recs ⊆ recs ++ new := List.subset_append_left _ _
    have htake : (recs ++ new).take m = recs.take m := List.take_append_of_le_length h.le
    refine ⟨recs ++ new, torn', m, hlog, ?_, ?_, fun c hc => ?_, fun c hc => ?_, ?_⟩
    · exact Nat.le_trans h.le (List.prefix_append _ _).length_le
    · rw [htake]
      exact h.named
    · rcases List.mem_append.mp hc with hc | hc
      · split at hc
        · rwa [List.mem_singleton.mp hc]
        · cases hc
      · exact h.mem c hc
    · rcases List.mem_append.mp hc with hc | hc
      · split at hc
        · rename_i hok
          rw [List.mem_singleton.mp hc]
          exact hlogged hok
        · cases hc
      · exact (h.returned c hc).mono hsub
    · rw [htake]
      exact h.known

/-- The records that the manifest's codes need lie before any cut. -/
theorem Inv.crash (hinj : Set.InjOn keccak256 (insert [] codes)) (h : σ.Inv codes recs torn m)
    (hflushed : σ.Flushed) (hc : Crash σ σ') : ∃ recs' torn' m', σ'.Inv codes recs' torn' m' := by
  cases hc with
  | @mk cp file n code returned direct faults hcp hfile hn hopen hret =>
    obtain ⟨k, code', hopen', hlogs, hmax⟩ := h.log.cut n σ.code.synced
    rw [hopen] at hopen'
    cases hopen'
    have hmk : m ≤ k :=
      (hmax m h.le).mp (Nat.le_trans h.named (Nat.le_trans hflushed hn))
    have htake : (recs.take k).take m = recs.take m := by
      rw [List.take_take, Nat.min_eq_left hmk]
    have hmem : ∀ c ∈ returned, c ∈ codes := fun c hc => h.mem c (hret c hc).1
    refine ⟨recs.take k, [], m, hlogs.untorn, ?_, ?_, hmem, fun c hc => ?_, ?_⟩
    · rw [List.length_take]
      exact Nat.le_min.mpr ⟨hmk, h.le⟩
    · rw [htake]
      refine Nat.le_min.mpr ⟨h.named, ?_⟩
      rw [hlogs.file, ← htake]
      exact ((List.take_prefix m _).flatMap _).length_le
    · exact hlogs.stored_of_get hinj (Set.mem_insert_of_mem _ (hmem c hc)) (hret c hc).2
    · rw [htake]
      exact h.known

/-- A code whose `set_code` returned before the persist that wrote the manifest is read
back, whatever accounts name it. -/
theorem code_retrievable (hinj : Set.InjOn keccak256 (insert [] codes))
    (hsize : ∀ code ∈ codes, code.length < 2 ^ 32) {ramMode direct : Bool} {faults : List Bool}
    (hrun : FlushedRun env ok codes (create ramMode direct faults) σ) :
    ∀ code ∈ σ.known, σ.getCode (keccak256 code) = .ok (some code) := by
  have hinv : ∃ recs torn m, σ.Inv codes recs torn m := by
    induction hrun with
    | refl => exact ⟨[], [], 0, inv_create codes ramMode direct faults⟩
    | tail _ hstep ih =>
      obtain ⟨recs, torn, m, h⟩ := ih
      rcases hstep with hstep | ⟨hflushed, hcrash⟩
      · exact h.step hinj hsize hstep
      · exact h.crash hinj hflushed hcrash
  obtain ⟨recs, torn, m, h⟩ := hinv
  exact fun code hc => h.log.get hinj ((h.known code hc).mono (List.take_subset _ _))

/-! ## Runs call by call -/

/-- The requests of a running call, one event each. -/
theorem work_steps {call : Call} {p p' : Upd Db Reply} {s s' : Store} (h : Steps exec ok s p s' p') :
    ∀ {σ : EthState}, σ.trie.store = s → σ.trie.running = some ⟨call, p⟩ → σ.flushing = false →
      Relation.ReflTransGen (Step env ok may codes) σ
        { σ with trie := { σ.trie with store := s', running := some ⟨call, p'⟩ } } := by
  induction h with
  | refl =>
    rintro σ rfl hrun -
    rw [← hrun]
  | @head s s1 s2 p p1 p2 hstep _ ih =>
    rintro σ rfl hrun hflush
    refine .head (.trie hflush (.work hrun hstep) ?_)
      (ih (σ := { σ with trie := { σ.trie with store := s1, running := some ⟨call, p1⟩ } }) rfl rfl hflush)
    rintro picks db rep ⟨hrun', -⟩
    rw [hrun] at hrun'
    cases hrun'
    cases hstep

/-- A call of an idle trie up to its end. -/
theorem started (hok : ∀ r x, Succeeds r x → ok r x) {call : Call} (hidle : σ.trie.running = none)
    (hflush : σ.flushing = false) (h : σ.trie.replay env call = true) :
    Relation.ReflTransGen (Step env ok may codes) σ { σ with
      trie := { σ.trie with
        store := (run exec (callProg env σ.trie.db call) σ.trie.store).2
        running := some ⟨call, .pure (run exec (callProg env σ.trie.db call) σ.trie.store).1⟩ } } := by
  unfold Sys.replay at h
  simp only [Bool.and_eq_true, Bool.not_eq_true'] at h
  obtain ⟨hcall, hchecks, -⟩ := h
  have hrun := (exec_run_of_checks _ _ hchecks).mono fun r x hx => hok r x ((succeeds_iff r x).mp hx)
  refine .head (.trie hflush (.start call hidle ?_) ?_) (work_steps hrun rfl rfl hflush)
  · rintro b rfl
    cases hcall
  · rintro picks db rep ⟨hrun', -⟩
    rw [hidle] at hrun'
    cases hrun'

/-- A replayed call that writes no manifest. -/
theorem call_steps (hok : ∀ r x, Succeeds r x → ok r x) {call : Call} (hidle : σ.trie.running = none)
    (hflush : σ.flushing = false) (hcall : ∀ picks, call ≠ .persist picks)
    (h : σ.trie.replay env call = true) :
    Relation.ReflTransGen (Step env ok may codes) σ { σ with trie := σ.trie.call env call } := by
  refine (started hok hidle hflush h).tail (.trie hflush (.finish rfl ?_) ?_)
  · intro he
    unfold Sys.replay at h
    simp only [Bool.and_eq_true, Bool.not_eq_true'] at h
    rw [he] at h
    cases h.2.2
  · rintro picks db rep ⟨hrun', -⟩
    exact hcall picks (congrArg Running.call (Option.some.inj hrun'))

/-- The persist succeeds. -/
def persists (env : Env) (σ : EthState) : Bool :=
  let x := run exec (callProg env σ.trie.db (.persist [])) σ.trie.store
  σ.trie.replay env (.persist []) && x.1.2.isOk && !x.2.fault.1

/-- The state when the manifest is written and the log not yet flushed. -/
def checkpointed (env : Env) (σ : EthState) : EthState :=
  { σ with
    trie := σ.trie.call env (.persist [])
    flushing := true
    named := σ.code.file.length
    known := σ.returned }

theorem checkpointed_steps (hok : ∀ r x, Succeeds r x → ok r x) (hidle : σ.trie.running = none)
    (hflush : σ.flushing = false) (h : σ.persists env = true) :
    Relation.ReflTransGen (Step env ok may codes) σ (σ.checkpointed env) := by
  unfold persists at h
  simp only [Bool.and_eq_true, Bool.not_eq_true'] at h
  obtain ⟨⟨hreplay, hisOk⟩, hfault⟩ := h
  refine (started hok hidle hflush hreplay).tail ?_
  unfold checkpointed Sys.call
  dsimp only
  generalize run exec (callProg env σ.trie.db (.persist [])) σ.trie.store = x at hisOk hfault ⊢
  obtain ⟨⟨db, r⟩, s⟩ := x
  cases r with
  | error e => cases hisOk
  | ok rep => exact .commit hflush ⟨rfl, hfault⟩

end EthState

end

/-! ## The window -/

def ethEnv : Env := ⟨⟨4096, 65536, 2048⟩, false⟩

def contract : Address := ⟨List.replicate 20 7, rfl⟩

def contractAccount [Keccak] : Eth.Account := ⟨1, 0, Eth.EMPTY_ROOT, keccak256 [1]⟩

/-- A code and an account that names it, not yet persisted, and part of another code. -/
@[irreducible] def deployed [Keccak] : EthState :=
  let σ : EthState := .create false false []
  { σ with
    trie := σ.trie.call ethEnv (EthOp.call (.setAccount contract contractAccount))
    code := ((σ.code.put [1] none).2.put [2] (some 5)).2
    returned := [[1]] }

/-- Persisted, but the flush has failed. -/
@[irreducible] def unflushed [Keccak] : EthState := { deployed.checkpointed ethEnv with flushing := false }

/-- Persisted again, and flushed. -/
@[irreducible] def flushedState [Keccak] : EthState :=
  { unflushed.checkpointed ethEnv with
    code := (unflushed.checkpointed ethEnv).code.flush, flushing := false }

/-- The calls succeed. -/
theorem deployed_calls :
    let _ : Keccak := headKeccak
    (Sys.create false false []).replay ethEnv
      (EthOp.call (.setAccount contract contractAccount)) = true ∧
    (CodeStore.create.put [1] none).2.cursor = (CodeStore.create.put [1] none).2.endOff ∧
    deployed.persists ethEnv = true ∧ unflushed.persists ethEnv = true := by decide +kernel

/-- What the manifests name. -/
theorem deployed_checkpoints :
    let _ : Keccak := headKeccak
    (deployed.checkpointed ethEnv).trie.checkpoint.isSome ∧
    (deployed.checkpointed ethEnv).known = [[1]] ∧
    EthState.getAccount ⟨(deployed.checkpointed ethEnv).trie.restart, .create, false, 0, [], []⟩
      contract = some contractAccount ∧
    flushedState.trie.checkpoint.isSome ∧ flushedState.known = [[1]] ∧
    flushedState.named ≤ flushedState.code.synced ∧
    (CodeStore.open (flushedState.code.file.take flushedState.code.synced)
      flushedState.code.synced).isSome ∧
    EthState.getAccount ⟨flushedState.trie.restart, .create, false, 0, [], []⟩ contract =
      some contractAccount := by decide +kernel

theorem deployed_steps :
    let _ : Keccak := headKeccak
    Relation.ReflTransGen (EthState.Step ethEnv Succeeds CodeStore.Appends {[1], [2]})
        (.create false false []) deployed ∧
      deployed.trie.running = none ∧ deployed.flushing = false ∧
      Set.InjOn keccak256 (insert [] ({[1], [2]} : Set Bytes)) := by
  intro _
  obtain ⟨hreplay, hcursor, -, -⟩ := deployed_calls
  refine ⟨?_, ?_, ?_, headKeccak_inj ?_⟩
  · unfold deployed
    refine .head (.setCode [1] none (.inl rfl) nofun (absurd rfl) rfl rfl)
      (.head (.setCode [2] (some 5) (.inr rfl) (by decide) (absurd hcursor) rfl rfl)
        (EthState.call_steps (fun _ _ h => h) rfl rfl ?_ hreplay))
    intro picks
    unfold EthOp.call
    dsimp only
    split <;> nofun
  · unfold deployed
    exact Sys.call_running _ _
  · unfold deployed
    rfl
  · rintro code (rfl | rfl) <;> decide

theorem flushedState_run :
    let _ : Keccak := headKeccak
    EthState.FlushedRun ethEnv Succeeds {[1], [2]} (.create false false []) flushedState := by
  intro _
  obtain ⟨hrun, hidle, hflush, -⟩ := deployed_steps
  obtain ⟨-, -, hpersist, hagain⟩ := deployed_calls
  have hfail : Relation.ReflTransGen (EthState.Step ethEnv Succeeds CodeStore.Appends {[1], [2]})
      (.create false false []) unflushed := by
    unfold unflushed
    exact (hrun.trans (EthState.checkpointed_steps (fun _ _ h => h) hidle hflush hpersist)).tail
      (.flush true rfl)
  have hidle' : unflushed.trie.running = none := by
    unfold unflushed
    exact Sys.call_running _ _
  have hflush' : unflushed.flushing = false := by
    unfold unflushed
    rfl
  unfold flushedState
  exact Relation.ReflTransGen.mono (fun _ _ h => Or.inl h) _ _ ((hfail.trans
    (EthState.checkpointed_steps (fun _ _ h => h) hidle' hflush' hagain)).tail (.flush false rfl))

/-- A torn record, a flush that fails and one that succeeds, then a crash: the account is
back, and so is its code. -/
theorem code_retrievable_flushed :
    let _ : Keccak := headKeccak
    ∃ σ : EthState, EthState.Crash flushedState σ ∧ σ.known = [[1]] ∧
      σ.getAccount contract = some contractAccount ∧
      σ.getCode contractAccount.codeHash = .ok (some [1]) := by
  intro _
  obtain ⟨-, -, -, hinj⟩ := deployed_steps
  have hrun := flushedState_run
  obtain ⟨-, -, -, hcp, hknown, hflushed, hopen, hacct⟩ := deployed_checkpoints
  obtain ⟨cp, hcp⟩ := Option.isSome_iff_exists.mp hcp
  obtain ⟨code, hopen⟩ := Option.isSome_iff_exists.mp hopen
  have hrestart : flushedState.trie.restart =
      .reopen cp flushedState.trie.store.file flushedState.trie.store.direct [] := by
    unfold Sys.restart
    rw [hcp]
  have hcrash : EthState.Crash flushedState ⟨.reopen cp flushedState.trie.store.file
      flushedState.trie.store.direct [], code, false,
      min flushedState.named code.file.length, [], flushedState.known⟩ :=
    .mk _ [] hcp (fun _ _ => rfl) le_rfl hopen nofun
  refine ⟨_, hcrash, hknown, ?_, ?_⟩
  · rw [← hrestart]
    exact hacct
  · refine EthState.code_retrievable hinj ?_ (hrun.tail (.inr ⟨hflushed, hcrash⟩)) [1] ?_
    · rintro code (rfl | rfl) <;> decide
    · show [1] ∈ flushedState.known
      rw [hknown]
      exact List.mem_singleton_self _

/-- A crash between manifest and flush: an account names code that is gone. -/
theorem code_lost :
    ∃ (_ : Keccak) (codes : Set Bytes) (σ σ' : EthState),
      Set.InjOn keccak256 (insert [] codes) ∧ (∀ code ∈ codes, code.length < 2 ^ 32) ∧
      Relation.ReflTransGen (EthState.Step ethEnv Succeeds CodeStore.Appends codes)
        (.create false false []) σ ∧
      EthState.Crash σ σ' ∧ ∃ addr acct code, σ'.getAccount addr = some acct ∧ code ∈ σ'.known ∧
        keccak256 code = acct.codeHash ∧ σ'.getCode acct.codeHash = .ok none := by
  let k : Keccak := headKeccak
  obtain ⟨hrun, hidle, hflush, hinj⟩ := deployed_steps
  obtain ⟨-, -, hpersist, -⟩ := deployed_calls
  obtain ⟨hcp, hknown, hacct, -⟩ := deployed_checkpoints
  obtain ⟨cp, hcp⟩ := Option.isSome_iff_exists.mp hcp
  have hrestart : (deployed.checkpointed ethEnv).trie.restart =
      .reopen cp (deployed.checkpointed ethEnv).trie.store.file
        (deployed.checkpointed ethEnv).trie.store.direct [] := by
    unfold Sys.restart
    rw [hcp]
  have hopen : CodeStore.open ((deployed.checkpointed ethEnv).code.file.take 0)
      (deployed.checkpointed ethEnv).code.synced = some .create := by
    unfold deployed
    rfl
  refine ⟨k, {[1], [2]}, deployed.checkpointed ethEnv,
    ⟨.reopen cp (deployed.checkpointed ethEnv).trie.store.file
      (deployed.checkpointed ethEnv).trie.store.direct [], .create, false, _, [],
      (deployed.checkpointed ethEnv).known⟩, hinj, ?_,
    hrun.trans (EthState.checkpointed_steps (fun _ _ h => h) hidle hflush hpersist),
    .mk (n := 0) _ [] hcp (fun _ _ => rfl) ?_ hopen nofun, contract, contractAccount, [1], ?_, ?_,
    rfl, ?_⟩
  · rintro code (rfl | rfl) <;> decide
  · unfold deployed
    exact le_rfl
  · rw [← hrestart]
    exact hacct
  · rw [hknown]
    exact List.mem_singleton_self _
  · rfl

end FlatMpt
