import FlatMpt.Regular
import FlatMpt.Oversize

/-!
# The store as a logical map

What the reads of an idle state return is a map from accounts to fields and slots.  In a
regular run over structured accounts, a block changes it as its net updates say, and the
calls on one key change it as their operations say.

    Sys.Observes              -- the map that the reads return
    block_refines, calls_refine
-/

namespace FlatMpt

open Prog
open Radix (Tree)

section
variable [Keccak] {env : Env} {σ σ' : Sys} {t t' : Tree 16 StateLeaf}

/-! ## The map observed -/

/-- Reads of the value and of the slots return what `l` has. -/
structure Sys.Observes (σ : Sys) (l : Logical) : Prop where
  value : ∀ k, ∃ o, getValue σ.store σ.db.upper k = .ok o ∧
    Option.Rel (fun a v => ∃ root, v = accountRlp a.nonce a.balance a.codeHash root) (l k) o
  slot : ∀ k slot, getStorage σ.store σ.db.upper k slot = .ok ((l k).bind (·.slots slot))

omit [Keccak] in
theorem accountRlp_inj {n n' : UInt64} {b b' : U256} {c c' root root' : Hash}
    (h : accountRlp n b c root = accountRlp n' b' c' root') : n = n' ∧ b = b' ∧ c = c' := by
  have hdecode := congrArg Eth.Account.decode h
  have h1 := Eth.Account.decode_rlp ⟨n, b, root, c⟩
  have h2 := Eth.Account.decode_rlp ⟨n', b', root', c'⟩
  have heq := h1.symm.trans (hdecode.trans h2)
  cases heq
  exact ⟨rfl, rfl, rfl⟩

/-- The reads fix the map. -/
theorem Sys.Observes.unique {l l' : Logical} (h : σ.Observes l) (h' : σ.Observes l') : l = l' := by
  funext k
  obtain ⟨o, ho, hrel⟩ := h.value k
  obtain ⟨o', ho', hrel'⟩ := h'.value k
  obtain rfl : o = o' := Except.ok.inj (ho.symm.trans ho')
  have hslot slot : (l k).bind (·.slots slot) = (l' k).bind (·.slots slot) :=
    Except.ok.inj ((h.slot k slot).symm.trans (h'.slot k slot))
  revert hrel hrel' hslot
  cases l k with
  | none =>
    intro hrel hrel' _
    cases hrel
    generalize l' k = a' at hrel'
    cases hrel'
    rfl
  | some a =>
    cases l' k with
    | none =>
      intro hrel hrel' _
      cases hrel'
      cases hrel
    | some a' =>
      intro hrel hrel' hslot
      cases hrel with
      | some hv =>
        cases hrel' with
        | some hv' =>
          obtain ⟨root, rfl⟩ := hv
          obtain ⟨root', hv'⟩ := hv'
          obtain ⟨hn, hb, hc⟩ := accountRlp_inj hv'
          have hs : a.slots = a'.slots := funext hslot
          obtain ⟨n, b, c, s⟩ := a
          obtain ⟨n', b', c', s'⟩ := a'
          dsimp only at hn hb hc hs
          rw [hn, hb, hc, hs]

/-- No account is stored as its value only. -/
def Sys.Structured (σ : Sys) : Prop := ∀ t, σ.Shows t → AllStructured t

/-- Structured accounts are read as what the tree has of them. -/
theorem Sys.Observes.of_shows (ht : σ.Shows t) (hst : AllStructured t) : σ.Observes (logicalOf t) where
  value k := by
    have hk : keyNibbles k = [] ++ keyNibbles k := rfl
    obtain ⟨o, ho, hrel⟩ := ramGet_shows reads_state _ ht hk
    refine ⟨o, (getValue_loaded ..).trans ho, ?_⟩
    unfold logicalOf
    rcases (hst (keyNibbles k)).cases with ha | ⟨n, b, c, s, ha⟩
    · rw [ha] at hrel ⊢
      cases hrel
      exact .none
    · rw [ha] at hrel ⊢
      cases hrel with
      | some hv => exact .some hv
  slot k slot := by
    have hk : keyNibbles k = [] ++ keyNibbles k := rfl
    rw [getStorage_loaded]
    refine (ramGetStorage_shows _ ht hk slot).trans ?_
    unfold logicalOf
    rcases (hst (keyNibbles k)).cases with ha | ⟨n, b, c, s, ha⟩ <;> rw [ha] <;> rfl

/-! ## Calls on one key -/

/-- The call that carries out one operation. -/
def callOf : Key × StateOp → Call
  | (k, .setAccount nonce balance codeHash) => .insert k (.account nonce balance codeHash)
  | (k, .setStorage slot value) => .insert k (.storage slot value)
  | (k, .deleteAccount) => .delete k .account
  | (k, .deleteStorage slot) => .delete k (.storage slot)
  | (k, .wipeStorage) => .delete k .wipeStorage

/-- A tree with one account changed. -/
theorem logicalOf_puts {k : Key} {op : StateOp} {v : Option StateLeaf} (hst : AllStructured t)
    (hp : Puts t (keyNibbles k) v t')
    (hv : Structured (t.get (keyNibbles k)) →
      Structured v ∧ acctOf v = execAcct (acctOf (t.get (keyNibbles k))) op) :
    AllStructured t' ∧ logicalOf t' = execOp (logicalOf t) (k, op) := by
  obtain ⟨hsv, hav⟩ := hv (hst _)
  constructor
  · intro p
    rw [hp p]
    split
    · exact hsv
    · exact hst p
  · funext k'
    unfold logicalOf execOp
    rw [hp]
    by_cases hk : k' = k
    · subst hk
      rw [if_pos rfl, Function.update_self, hav]
    · rw [if_neg fun he => hk (keyNibbles_injective he), Function.update_of_ne hk]

/-- What a delete does to the leaf, whatever becomes of its place. -/
theorem Deleted.deletedBy {op : DeleteOp} {o v : Option StateLeaf} {out : RamDelete}
    (h : Deleted (leafDelete op) o v out) : ∃ out', DeletedBy op o v out' := by
  cases o with
  | none => exact ⟨.absent, .inl ⟨rfl, h.1, rfl⟩⟩
  | some a =>
    obtain ⟨d, hd, hv, -⟩ := h
    by_cases habs : d = .absent
    · exact ⟨.absent, .inr ⟨a, d, rfl, hd, hv, fun _ => habs, fun _ => rfl⟩⟩
    · exact ⟨.changed, .inr ⟨a, d, rfl, hd, hv, nofun, fun h => absurd h habs⟩⟩

theorem leafDelete_account (a : StateLeaf) : leafDelete .account a = .ok .removed := by
  cases a <;> rfl

/-- **The call of an operation is that operation** on the map. -/
theorem callOf_turns {e : Key × StateOp} (hst : AllStructured t) (h : (callOf e).Turns t t') :
    AllStructured t' ∧ logicalOf t' = execOp (logicalOf t) e := by
  obtain ⟨k, op⟩ := e
  cases op with
  | setAccount nonce balance codeHash =>
    obtain ⟨b, hb, hp⟩ := h
    exact logicalOf_puts hst hp (leafInsert_account hb).acct
  | setStorage slot value =>
    obtain ⟨b, hb, hp⟩ := h
    exact logicalOf_puts hst hp (leafInsert_storage hb).acct
  | deleteAccount =>
    obtain ⟨v, out, hd, hp⟩ := h
    refine logicalOf_puts hst hp fun _ => ?_
    cases hget : t.get (keyNibbles k) with
    | none =>
      rw [hget] at hd
      rw [hd.1]
      exact ⟨structured_none, rfl⟩
    | some a =>
      rw [hget] at hd
      obtain ⟨d, hd, rfl, -⟩ := hd
      rw [leafDelete_account] at hd
      cases hd
      exact ⟨structured_none, rfl⟩
  | deleteStorage slot =>
    obtain ⟨v, out, hd, hp⟩ := h
    obtain ⟨out', hd'⟩ := hd.deletedBy
    exact logicalOf_puts hst hp (DeletedBy.storage hd').acct
  | wipeStorage =>
    obtain ⟨v, out, hd, hp⟩ := h
    obtain ⟨out', hd'⟩ := hd.deletedBy
    exact logicalOf_puts hst hp (DeletedBy.wipe hd').acct

/-! ## Live keys -/

/-- The live keys are those of the tree. -/
theorem live_iff (ht : σ.Shows t) (key : Key) : σ.Live key ↔ (t.get (keyNibbles key)).isSome := by
  have hk : keyNibbles key = [] ++ keyNibbles key := rfl
  obtain ⟨o, ho, hrel⟩ := ramGet_shows reads_state _ ht hk
  unfold Sys.Live
  rw [getValue_loaded, show value ideal (ramGet _ (keyNibbles key) 0) = .ok o from ho]
  cases hget : t.get (keyNibbles key) with
  | none =>
    rw [hget] at hrel
    cases hrel
    exact ⟨fun ⟨v, hv⟩ => absurd hv nofun, nofun⟩
  | some a =>
    rw [hget] at hrel
    cases hrel with
    | some _ => exact ⟨fun _ => rfl, fun _ => ⟨_, rfl⟩⟩

/-- The tree of a call on one key has no other new keys. -/
theorem callOf_get {e : Key × StateOp} (h : (callOf e).Turns t t') {p : List Nibble}
    (hp : p ≠ keyNibbles e.1) : t'.get p = t.get p := by
  obtain ⟨k, op⟩ := e
  cases op with
  | setAccount nonce balance codeHash =>
    obtain ⟨b, -, hput⟩ := h
    rw [hput, if_neg hp]
  | setStorage slot value =>
    obtain ⟨b, -, hput⟩ := h
    rw [hput, if_neg hp]
  | deleteAccount =>
    obtain ⟨v, out, -, hput⟩ := h
    rw [hput, if_neg hp]
  | deleteStorage slot =>
    obtain ⟨v, out, -, hput⟩ := h
    rw [hput, if_neg hp]
  | wipeStorage =>
    obtain ⟨v, out, -, hput⟩ := h
    rw [hput, if_neg hp]

theorem callOf_sound {e : Key × StateOp} (hop : e.2.Short) (hk : KeyApart {k | σ.Live k} e.1) :
    (callOf e).Sound σ := by
  obtain ⟨k, op⟩ := e
  cases op with
  | setAccount nonce balance codeHash => exact ⟨trivial, hk⟩
  | setStorage slot value => exact ⟨hop, hk⟩
  | deleteAccount => exact hk
  | deleteStorage slot => exact hk
  | wipeStorage => exact hk

/-! ## A new database -/

/-- A new database has no accounts. -/
theorem create_structured (ramMode direct : Bool) (faults : List Bool) :
    (Sys.create ramMode direct faults).Structured ∧
      (Sys.create ramMode direct faults).Observes fun _ => none := by
  have hempty : AllStructured .empty := fun p => structured_none
  refine ⟨fun t ht => ?_, .of_shows (t := .empty) .empty hempty⟩
  cases ht
  exact hempty

/-- No state is observed to hold a slot value past the length field. -/
theorem not_observes_long {l : Logical} {σ : Sys} {key slot : Key} {v : Bytes} (hv : ¬ ShortValue v)
    (hl : (l key).bind (·.slots slot) = some v) : ¬ σ.Observes l := by
  intro h
  have hget := h.slot key slot
  rw [hl] at hget
  exact hv (getStorage_short hget)

/-- The keys of `S` differ within their first 63 nibbles. -/
def PairwiseApart (S : Set Key) : Prop := ∀ k ∈ S, KeyApart S k

/-- One operation on a new database concerns one key. -/
theorem create_apart (e : Key × StateOp) :
    PairwiseApart ({k | (Sys.create true false []).Live k} ∪ {k | ∃ e' ∈ [e], k = e'.1}) := by
  have hnone (k : Key) : ¬ (Sys.create true false []).Live k := fun h => by
    rw [live_iff (t := .empty) .empty] at h
    cases h
  have honly (k : Key) (hk : k ∈ {k | (Sys.create true false []).Live k} ∪
      {k | ∃ e' ∈ [e], k = e'.1}) : k = e.1 := by
    rcases hk with hk | ⟨e', he, rfl⟩
    · exact absurd hk (hnone k)
    · rw [List.mem_singleton.mp he]
  intro k hk k' hk' _
  rw [honly k hk, honly k' hk']

/-! ## Blocks -/

end

def oversizeOps : List (Key × StateOp) := [(.fill 0x30, .setStorage (.fill 0x01) oversizeValue)]

def slotOps : List (Key × StateOp) := [(.fill 0x30, .setStorage (.fill 0x01) [1])]

section
variable [Keccak] {env : Env} {σ σ' : Sys} {t t' : Tree 16 StateLeaf}

/-! ## Sequences of calls -/

/-- The calls of the operations, one after the other, each of which ended well. -/
inductive Served (env : Env) : Sys → List (Key × StateOp) → Sys → Prop
  | nil (σ : Sys) : Served env σ [] σ
  | cons {σ σ' : Sys} {e : Key × StateOp} {ops : List (Key × StateOp)} {db : Db} {reply : Reply}
      {s : Store} (h : Exec exec anyResp σ.store (callProg env σ.db (callOf e)) (db, .ok reply) s)
      (hs : Served env (σ.ended s (callOf e) db reply) ops σ') : Served env σ (e :: ops) σ'

/-- The state after these calls, one worker at a time, if each ends well. -/
def serves (env : Env) (σ : Sys) : List (Key × StateOp) → Option Sys
  | [] => some σ
  | e :: ops =>
    match run exec (callProg env σ.db (callOf e)) σ.store with
    | ((db, .ok reply), s) => serves env (σ.ended s (callOf e) db reply) ops
    | _ => none

theorem Served.of_serves {env : Env} {ops : List (Key × StateOp)} {σ σ' : Sys}
    (h : serves env σ ops = some σ') : Served env σ ops σ' := by
  induction ops generalizing σ with
  | nil =>
    cases h
    exact .nil _
  | cons e ops ih =>
    rw [serves] at h
    split at h
    next db reply s hcall => exact .cons (exec_of_run hcall) (ih h)
    next => cases h

/-- Keys on which calls are served are apart, now and after each of them. -/
abbrev ApartFor (σ : Sys) (ops : List (Key × StateOp)) : Prop :=
  PairwiseApart ({k | σ.Live k} ∪ {k | ∃ e ∈ ops, k = e.1})

/-- The state after one of the calls. -/
theorem ended_served {ramMode direct : Bool} {faults : List Bool} {e : Key × StateOp}
    {ops : List (Key × StateOp)} {db : Db} {reply : Reply} {s : Store}
    (hexec : Exec exec anyResp σ.store (callProg env σ.db (callOf e)) (db, .ok reply) s)
    (hrun : RegularRun env (.create ramMode direct faults) σ) (hidle : σ.running = none) (ht : σ.Shows t)
    (hst : AllStructured t) (hop : e.2.Short) (hapart : ApartFor σ (e :: ops)) :
    RegularRun env (.create ramMode direct faults) (σ.ended s (callOf e) db reply) ∧
      ApartFor (σ.ended s (callOf e) db reply) ops ∧
      ∃ t', (σ.ended s (callOf e) db reply).Shows t' ∧ AllStructured t' ∧
        logicalOf t' = execOp (logicalOf t) e := by
  have hne : ∀ b, callOf e ≠ .gcInstall b := by
    obtain ⟨k, op⟩ := e
    cases op <;> exact nofun
  have hsound : (callOf e).Sound σ := callOf_sound hop fun k hk htake =>
    hapart e.1 (.inr ⟨e, List.mem_cons_self, rfl⟩) k (.inl hk) htake
  obtain ⟨t', hturn, ht'⟩ := exec_turns hrun hidle ht hne hsound hexec
  obtain ⟨hst', hl⟩ := callOf_turns hst hturn
  have hlive : {k | (σ.ended s (callOf e) db reply).Live k} ∪ {k | ∃ e ∈ ops, k = e.1} ⊆
      {k | σ.Live k} ∪ {k | ∃ e' ∈ e :: ops, k = e'.1} := by
    rintro k (hk | ⟨e', he', rfl⟩)
    · by_cases hke : k = e.1
      · exact .inr ⟨e, List.mem_cons_self, hke⟩
      · refine .inl ((live_iff ht k).mpr ?_)
        rw [← callOf_get hturn fun h => hke (keyNibbles_injective h)]
        exact (live_iff ht' k).mp hk
    · exact .inr ⟨e', List.mem_cons_of_mem _ he', rfl⟩
  exact ⟨hrun.ended hidle hne hsound hexec,
    fun k hk k' hk' => hapart k (hlive hk) k' (hlive hk'), t', ht', hst', hl⟩

/-- What the calls leave. -/
theorem Served.leaves {ramMode direct : Bool} {faults : List Bool} {ops : List (Key × StateOp)}
    (h : Served env σ ops σ') (hrun : RegularRun env (.create ramMode direct faults) σ)
    (hidle : σ.running = none) (ht : σ.Shows t) (hst : AllStructured t)
    (hops : ∀ e ∈ ops, e.2.Short) (hapart : ApartFor σ ops) :
    RegularRun env (.create ramMode direct faults) σ' ∧ σ'.running = none ∧
      ∃ t', σ'.Shows t' ∧ AllStructured t' ∧ logicalOf t' = execBlock (logicalOf t) ops := by
  induction h generalizing t with
  | nil => exact ⟨hrun, hidle, t, ht, hst, rfl⟩
  | @cons σ σ' e ops db reply s hexec hs ih =>
    obtain ⟨hrun', hapart', t', ht', hst', hl⟩ :=
      ended_served hexec hrun hidle ht hst (hops e List.mem_cons_self) hapart
    obtain ⟨hrun2, hidle2, t2, ht2, hst2, hl2⟩ := ih hrun' (ended_running ..) ht' hst'
      (fun e he => hops e (List.mem_cons_of_mem _ he)) hapart'
    rw [hl] at hl2
    exact ⟨hrun2, hidle2, t2, ht2, hst2, hl2⟩

theorem Served.observes {ramMode direct : Bool} {faults : List Bool} {ops : List (Key × StateOp)}
    (h : Served env σ ops σ') (hrun : RegularRun env (.create ramMode direct faults) σ)
    (hidle : σ.running = none) (ht : σ.Shows t) (hst : AllStructured t)
    (hops : ∀ e ∈ ops, e.2.Short)
    (hapart : PairwiseApart ({k | σ.Live k} ∪ {k | ∃ e ∈ ops, k = e.1})) :
    σ'.Observes (execBlock (logicalOf t) ops) := by
  obtain ⟨-, -, t', ht', hst', hl⟩ := h.leaves hrun hidle ht hst hops hapart
  rw [← hl]
  exact .of_shows ht' hst'

/-- A new database that has served some calls. -/
theorem Served.shown {ramMode direct : Bool} {faults : List Bool} {ops : List (Key × StateOp)}
    (h : Served env (.create ramMode direct faults) ops σ) (hops : ∀ e ∈ ops, e.2.Short)
    (hkeys : ∀ k ∈ ops.map Prod.fst, ∀ k' ∈ ops.map Prod.fst,
      (keyNibbles k').take 63 = (keyNibbles k).take 63 → k' = k) :
    RegularRun env (.create ramMode direct faults) σ ∧ σ.running = none ∧
      ∃ t, σ.Shows t ∧ AllStructured t ∧ logicalOf t = execBlock (fun _ => none) ops := by
  obtain ⟨hst, hobs⟩ := create_structured ramMode direct faults
  have hnew : RegularRun env (.create ramMode direct faults) (.create ramMode direct faults) := .refl
  obtain ⟨t, ht⟩ := (shown_of_run hnew).1 rfl
  have hmem (k : Key) (hk : k ∈ {k | (Sys.create ramMode direct faults).Live k} ∪ {k | ∃ e ∈ ops, k = e.1}) :
      k ∈ ops.map Prod.fst := by
    rcases hk with hk | ⟨e, he, rfl⟩
    · have := (live_iff (t := .empty) .empty k).mp hk
      cases this
    · exact List.mem_map_of_mem he
  rw [← (Sys.Observes.of_shows ht (hst t ht)).unique hobs]
  exact h.leaves hnew rfl ht (hst t ht) hops fun k hk k' hk' htake =>
    hkeys k (hmem k hk) k' (hmem k' hk') htake

theorem Served.created {ramMode direct : Bool} {faults : List Bool} {ops : List (Key × StateOp)}
    (h : Served env (.create ramMode direct faults) ops σ) (hops : ∀ e ∈ ops, e.2.Short)
    (hkeys : ∀ k ∈ ops.map Prod.fst, ∀ k' ∈ ops.map Prod.fst,
      (keyNibbles k').take 63 = (keyNibbles k).take 63 → k' = k) :
    RegularRun env (.create ramMode direct faults) σ ∧ σ.running = none ∧
      σ.Observes (execBlock (fun _ => none) ops) := by
  obtain ⟨hrun, hidle, t, ht, hst, hl⟩ := h.shown hops hkeys
  exact ⟨hrun, hidle, hl ▸ .of_shows ht hst⟩

/-! ## Deletes of absent keys -/

def StateOp.Deletes : StateOp → Prop
  | .deleteAccount => True
  | .deleteStorage _ => True
  | .wipeStorage => True
  | _ => False

omit [Keccak] in
theorem Storage.isEmpty_of_get {s : Storage} (h : s.get = fun _ => none) : s.tree.isEmpty := by
  by_contra hne
  have ht : s.tree ≠ .empty := fun he => hne (by rw [he]; rfl)
  obtain ⟨p, a, hp⟩ := s.canon.exists_get ht
  obtain ⟨slot, rfl⟩ := exists_key (s.canon.get_length hp)
  have hget : s.get slot = some a := hp
  rw [h] at hget
  cases hget

/-- A delete that the map does not see finds nothing in the tree. -/
theorem leafDelete_absent {e : Key × StateOp} (hst : AllStructured t) (hdel : e.2.Deletes)
    (hsame : execOp (logicalOf t) e = logicalOf t) :
    ∃ op, callOf e = .delete e.1 op ∧
      ∀ a, t.get (keyNibbles e.1) = some a → leafDelete op a = .ok .absent := by
  obtain ⟨k, op⟩ := e
  have hacct : execAcct (acctOf (t.get (keyNibbles k))) op = acctOf (t.get (keyNibbles k)) := by
    have := congrFun hsame k
    rwa [execOp, Function.update_self] at this
  rcases (hst (keyNibbles k)).cases with ha | ⟨n, b, c, s, ha⟩
  · have habs (op : DeleteOp) (a : StateLeaf) (h : t.get (keyNibbles k) = some a) :
        leafDelete op a = .ok .absent := by
      rw [ha] at h
      cases h
    cases op with
    | setAccount => exact hdel.elim
    | setStorage => exact hdel.elim
    | deleteAccount => exact ⟨_, rfl, habs _⟩
    | deleteStorage slot => exact ⟨_, rfl, habs _⟩
    | wipeStorage => exact ⟨_, rfl, habs _⟩
  · rw [ha] at hacct
    cases op with
    | setAccount => exact hdel.elim
    | setStorage => exact hdel.elim
    | deleteAccount => cases hacct
    | deleteStorage slot =>
      refine ⟨_, rfl, fun a h => ?_⟩
      rw [ha] at h
      cases h
      have hslots : Function.update s.get slot none = s.get := congrArg Acct.slots (Option.some.inj hacct)
      have hnone : s.get slot = none := by rw [← hslots, Function.update_self]
      show (if (s.get slot).isNone then _ else _) = _
      rw [hnone]
      rfl
    | wipeStorage =>
      refine ⟨_, rfl, fun a h => ?_⟩
      rw [ha] at h
      cases h
      have hslots : (fun _ => none) = s.get := congrArg Acct.slots (Option.some.inj hacct)
      show (if s.tree.isEmpty then _ else _) = _
      rw [if_pos (Storage.isEmpty_of_get hslots.symm)]

end

end FlatMpt
