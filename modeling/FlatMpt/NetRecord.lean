import FlatMpt.Deletes
import FlatMpt.Lookups
import FlatMpt.Normalize

/-!
# A net update inside a record

The update of one account in a record acts on the leaf at its key, in the order wipe,
account outcome, slots; on a structured account it is the net update of the logical
state.

    NetStep                    -- a step on the leaf, and on the account
    applyNetInRecord_step
-/

namespace FlatMpt

open Prog
open Radix (Tree)
open Radix.Tree (Canon)

section
variable [Keccak]

/-! ## Accounts -/

/-- The account that a leaf holds in structured form. -/
def StateLeaf.acct : StateLeaf → Option Acct
  | .raw _ => none
  | .account n b c s => some ⟨n, b, c, s.get⟩

def acctOf (o : Option StateLeaf) : Option Acct := o.bind StateLeaf.acct

/-- No account stored as its value only. -/
def Structured (o : Option StateLeaf) : Prop := ∀ v, o ≠ some (.raw v)

omit [Keccak] in
theorem structured_none : Structured none := nofun

omit [Keccak] in
/-- A structured leaf is absent or an account. -/
theorem Structured.cases {o : Option StateLeaf} (h : Structured o) :
    o = none ∨ ∃ n b c s, o = some (.account n b c s) := by
  match o with
  | none => exact .inl rfl
  | some (.raw v) => exact absurd rfl (h v)
  | some (.account n b c s) => exact .inr ⟨n, b, c, s, rfl⟩

omit [Keccak] in
theorem Storage.get_put_eq (s : Storage) (slot : Key) (v : Option Bytes) :
    (s.put slot v).get = Function.update s.get slot v := by
  funext k
  rw [Storage.get_put, Function.update_apply]

/-- What happened to the leaf of an account in one step of its update: `F` is the step
on the account. -/
structure NetStep (o v : Option StateLeaf) (changed : Bool) (F : Option Acct → Option Acct) : Prop where
  same : changed = false → v = o
  isSome : changed = true → v.isSome
  stays : o.isSome → v.isSome
  acct : Structured o → Structured v ∧ acctOf v = F (acctOf o)

omit [Keccak] in
theorem NetStep.refl (o : Option StateLeaf) : NetStep o o false id :=
  ⟨fun _ => rfl, nofun, id, fun h => ⟨h, rfl⟩⟩

omit [Keccak] in
theorem NetStep.trans {o v w : Option StateLeaf} {b c : Bool} {F G : Option Acct → Option Acct}
    (h : NetStep o v b F) (h' : NetStep v w c G) : NetStep o w (b || c) (G ∘ F) where
  same hbc := by
    rw [Bool.or_eq_false_iff] at hbc
    rw [h'.same hbc.2, h.same hbc.1]
  isSome hbc := by
    rcases Bool.or_eq_true_iff.mp hbc with hb | hc
    · exact h'.stays (h.isSome hb)
    · exact h'.isSome hc
  stays ho := h'.stays (h.stays ho)
  acct ho := by
    obtain ⟨hv, hF⟩ := h.acct ho
    obtain ⟨hw, hG⟩ := h'.acct hv
    exact ⟨hw, by rw [hG, hF]; rfl⟩

/-- An insert at the leaf. -/
theorem leafInsert_account {o : Option StateLeaf} {n : UInt64} {b : U256} {c : Hash} {a : StateLeaf}
    (h : leafInsert (.account n b c) o = .ok a) :
    NetStep o (some a) true (execAcct · (.setAccount n b c)) := by
  refine ⟨nofun, fun _ => rfl, fun _ => rfl, fun ho => ?_⟩
  obtain rfl | ⟨n', b', c', s, rfl⟩ := ho.cases
  · cases h
    exact ⟨nofun, rfl⟩
  · cases h
    exact ⟨nofun, rfl⟩

theorem leafInsert_storage {o : Option StateLeaf} {slot : Key} {v : Bytes} {a : StateLeaf}
    (h : leafInsert (.storage slot v) o = .ok a) :
    NetStep o (some a) true (execAcct · (.setStorage slot v)) := by
  refine ⟨nofun, fun _ => rfl, fun _ => rfl, fun ho => ?_⟩
  obtain rfl | ⟨n', b', c', s, rfl⟩ := ho.cases
  · cases h
    refine ⟨nofun, ?_⟩
    show some (Acct.mk _ _ _ (Storage.put _ _ _).get) = _
    rw [Storage.get_put_eq]
    rfl
  · cases h
    refine ⟨nofun, ?_⟩
    show some (Acct.mk _ _ _ (Storage.put _ _ _).get) = _
    rw [Storage.get_put_eq]
    rfl

/-- What a delete does to the leaf, with its report. -/
def DeletedBy (op : DeleteOp) (o v : Option StateLeaf) (out : NodeDelete) : Prop :=
  (o = none ∧ v = none ∧ out = .absent) ∨
    ∃ a d, o = some a ∧ leafDelete op a = .ok d ∧ v = d.result a ∧ (out = .absent ↔ d = .absent)

theorem DeletedBy.storage {slot : Key} {o v : Option StateLeaf} {out : NodeDelete}
    (h : DeletedBy (.storage slot) o v out) :
    NetStep o v (decide (out ≠ .absent)) (execAcct · (.deleteStorage slot)) := by
  obtain ⟨rfl, rfl, rfl⟩ | ⟨a, d, rfl, hd, rfl, hout⟩ := h
  · exact ⟨fun _ => rfl, (fun h => by cases h), id, fun _ => ⟨structured_none, rfl⟩⟩
  · have hd' : (d = .absent ∧ ∀ n b c s, a = .account n b c s → s.get slot = none) ∨
        ∃ n b c s, a = .account n b c s ∧ d = .changed (.account n b c (s.put slot none)) := by
      cases a with
      | raw v =>
        simp only [leafDelete] at hd
        split at hd
        · split at hd
          · cases hd
            exact .inl ⟨rfl, fun _ _ _ _ h => by cases h⟩
          · cases hd
        · cases hd
      | account n b c s =>
        simp only [leafDelete] at hd
        split at hd
        · rename_i hs
          cases hd
          refine .inl ⟨rfl, ?_⟩
          rintro _ _ _ _ ⟨⟩
          exact Option.isNone_iff_eq_none.mp hs
        · cases hd
          exact .inr ⟨n, b, c, s, rfl, rfl⟩
    obtain ⟨rfl, hs⟩ | ⟨n, b, c, s, rfl, rfl⟩ := hd'
    · rw [hout.mpr rfl]
      refine ⟨fun _ => rfl, (fun h => by cases h), id, fun ho => ⟨ho, ?_⟩⟩
      obtain h | ⟨n, b, c, s, h⟩ := ho.cases
      · cases h
      · cases h
        show some (Acct.mk n b c s.get) = some (Acct.mk n b c (Function.update s.get slot none))
        rw [Function.update_eq_self_iff.mpr (hs n b c s rfl).symm]
    · refine ⟨fun h => ?_, fun _ => rfl, fun _ => rfl, fun _ => ⟨(fun _ h => by cases h), ?_⟩⟩
      · have : out = .absent := by simpa using h
        cases hout.mp this
      · show some (Acct.mk n b c (s.put slot none).get) = _
        rw [Storage.get_put_eq]
        rfl

omit [Keccak] in
theorem storage_eq_empty {s : Storage} (h : s.tree.isEmpty) : s = .empty := by
  obtain ⟨t, ht⟩ := s
  obtain rfl := Tree.isEmpty_iff.mp h
  rfl

theorem DeletedBy.wipe {o v : Option StateLeaf} {out : NodeDelete}
    (h : DeletedBy .wipeStorage o v out) :
    NetStep o v (decide (out ≠ .absent)) (execAcct · .wipeStorage) := by
  obtain ⟨rfl, rfl, rfl⟩ | ⟨a, d, rfl, hd, rfl, hout⟩ := h
  · exact ⟨fun _ => rfl, (fun h => by cases h), id, fun _ => ⟨structured_none, rfl⟩⟩
  · have hd' : (d = .absent ∧ ∀ n b c s, a = .account n b c s → s = .empty) ∨
        ∃ n b c, d = .changed (.account n b c .empty) ∧ ∀ n' b' c' s, a = .account n' b' c' s →
          n = n' ∧ b = b' ∧ c = c' := by
      cases a with
      | raw v =>
        simp only [leafDelete] at hd
        split at hd
        · split at hd
          · cases hd
            exact .inl ⟨rfl, fun _ _ _ _ h => by cases h⟩
          · cases hd
            exact .inr ⟨_, _, _, rfl, fun _ _ _ _ h => by cases h⟩
        · cases hd
      | account n b c s =>
        simp only [leafDelete] at hd
        split at hd
        · rename_i hs
          cases hd
          refine .inl ⟨rfl, ?_⟩
          rintro _ _ _ _ ⟨⟩
          exact storage_eq_empty hs
        · cases hd
          refine .inr ⟨n, b, c, rfl, ?_⟩
          rintro _ _ _ _ ⟨⟩
          exact ⟨rfl, rfl, rfl⟩
    obtain ⟨rfl, hs⟩ | ⟨n, b, c, rfl, hs⟩ := hd'
    · rw [hout.mpr rfl]
      refine ⟨fun _ => rfl, (fun h => by cases h), id, fun ho => ⟨ho, ?_⟩⟩
      obtain h | ⟨n, b, c, s, h⟩ := ho.cases
      · cases h
      · cases h
        rw [hs n b c s rfl]
        rfl
    · refine ⟨fun h => ?_, fun _ => rfl, fun _ => rfl, fun ho => ⟨(fun _ h => by cases h), ?_⟩⟩
      · have : out = .absent := by simpa using h
        cases hout.mp this
      · obtain h | ⟨n', b', c', s, h⟩ := ho.cases
        · cases h
        · cases h
          obtain ⟨rfl, rfl, rfl⟩ := hs n' b' c' s rfl
          rfl

/-! ## Records -/

variable {q rest : List Nibble} {t : Tree 16 StateLeaf} {node node' : Node}
  {o v : Option StateLeaf} {key : Key}

/-- The record node of a tree with `v` put at the key. -/
def RecordPut (q : List Nibble) (t : Tree 16 StateLeaf) (rest : List Nibble) (v : Option StateLeaf)
    (node : Node) : Prop :=
  ∃ t', node = toNode stateLeaf t' ∧ stateKind.Records q t' ∧ Puts t rest v t'

omit [Keccak] in
theorem Puts.trans {α : Type} {t t' u : Tree 16 α} {k : List Nibble} {v w : Option α}
    (h : Puts t k v t') (h' : Puts t' k w u) : Puts t k w u := by
  intro p
  rw [h', h]
  split <;> rfl

omit [Keccak] in
theorem Puts.get_self {α : Type} {t t' : Tree 16 α} {k : List Nibble} {v : Option α}
    (h : Puts t k v t') : t'.get k = v := (h k).trans (if_pos rfl)

theorem recordPut_self (h : stateKind.Records q t) : RecordPut q t rest (t.get rest) (toNode stateLeaf t) := by
  refine ⟨t, rfl, h, fun p => ?_⟩
  split
  next hp => rw [hp]
  next => rfl

theorem RecordPut.insert {op : LeafOp} (h : RecordPut q t rest o node)
    (hlen : q.length + rest.length = 64) (hop : op.Short)
    (hi : recordNodeInsert node rest op = .ok node') :
    ∃ b, leafInsert op o = .ok b ∧ RecordPut q t rest (some b) node' := by
  obtain ⟨u, rfl, hr, hp⟩ := h
  rw [recordNodeInsert_toNode hr.canon (by omega), hp.get_self] at hi
  cases hg : leafInsert op o with
  | error e =>
    rw [hg] at hi
    cases hi
  | ok b =>
    rw [hg] at hi
    cases hi
    refine ⟨b, rfl, _, rfl, hr.put hlen ?_, hp.trans (puts_put hr.canon (by omega))⟩
    rintro _ ⟨⟩
    exact leafInsert_short hop hg fun a ha => hr.fit rest a (hp.get_self.trans ha)

omit [Keccak] in
theorem outcome_absent {α : Type} {d : LeafDelete α} {t : Tree 16 α} :
    d.outcome t = .absent ↔ d = .absent := by
  have hr : refolded t ≠ .absent := by
    unfold refolded
    split <;> exact nofun
  cases d with
  | absent => exact ⟨fun _ => rfl, fun _ => rfl⟩
  | changed b => exact ⟨fun h => absurd h hr, nofun⟩
  | removed => exact ⟨fun h => absurd h hr, nofun⟩

omit [Keccak] in
theorem outcome_empty {α : Type} {d : LeafDelete α} {t : Tree 16 α} :
    (d.outcome t = .changed → t ≠ .empty) ∧ (d.outcome t = .removed → t = .empty) := by
  have hr : (refolded t = .changed → t ≠ .empty) ∧ (refolded t = .removed → t = .empty) := by
    unfold refolded
    split
    · rename_i h
      exact ⟨nofun, fun _ => Tree.isEmpty_iff.mp h⟩
    · rename_i h
      exact ⟨fun _ he => h (Tree.isEmpty_iff.mpr he), nofun⟩
  cases d with
  | absent => exact ⟨nofun, nofun⟩
  | changed b => exact hr
  | removed => exact hr

theorem RecordPut.delete {op : DeleteOp} {out : NodeDelete} (h : RecordPut q t rest o node)
    (hlen : q.length + rest.length = 64)
    (hd : recordNodeDelete node rest op = .ok (node', out)) :
    ∃ v, RecordPut q t rest v node' ∧ DeletedBy op o v out ∧
      (out = .changed → node' ≠ .empty) ∧ (out = .removed → node' = .empty) := by
  obtain ⟨u, rfl, hr, hp⟩ := h
  rw [recordNodeDelete_toNode hr.canon (by omega)] at hd
  unfold deleteTree at hd
  rw [hp.get_self] at hd
  cases ho : o with
  | none =>
    rw [ho] at hd
    cases hd
    exact ⟨none, ⟨u, rfl, hr, ho ▸ hp⟩, .inl ⟨rfl, rfl, rfl⟩, nofun, nofun⟩
  | some a =>
    rw [ho] at hd
    dsimp only at hd
    cases hf : leafDelete op a with
    | error e =>
      rw [hf] at hd
      cases hd
    | ok d =>
      rw [hf] at hd
      cases hd
      have hfit : ∀ b, d.result a = some b → b.Short := by
        have ha : a.Short := hr.fit rest a (hp.get_self.trans ho)
        cases d with
        | absent =>
          rintro _ ⟨⟩
          exact ha
        | changed b =>
          rintro _ ⟨⟩
          exact leafDelete_short hf ha
        | removed => exact nofun
      refine ⟨d.result a, ⟨_, rfl, hr.put hlen hfit, hp.trans (puts_put hr.canon (by omega))⟩,
        .inr ⟨a, d, rfl, hf, rfl, outcome_absent⟩, fun h => toNode_ne_empty stateLeaf
          (outcome_empty.1 h), fun h => ?_⟩
      exact congrArg (toNode stateLeaf) (outcome_empty.2 h)

/-! ## Reads at the key -/

theorem RecordPut.collect (h : RecordPut q t rest o node) (hlen : q.length + rest.length = 64) :
    nodeCollectStorage node rest = .ok (o.elim [] StateLeaf.slots) := by
  obtain ⟨u, rfl, hr, hp⟩ := h
  rw [nodeCollectStorage_toNode hr.canon (by omega), hp.get_self]

theorem RecordPut.prior (h : RecordPut q t rest o node) {prior : Option Eth.Account}
    (hp : nodePriorAccount node rest = .ok prior) : prior.isSome = o.isSome := by
  obtain ⟨u, rfl, hr, hput⟩ := h
  rw [nodePriorAccount_toNode, hput.get_self] at hp
  cases o with
  | none =>
    cases hp
    rfl
  | some a =>
    dsimp only at hp
    split at hp
    · cases hp
      rfl
    · cases hp

/-! ## The steps -/

theorem wipeInRecord_step {prior : Option Eth.Account} {changed : Bool} {inv : Inverse}
    (h : RecordPut q t rest o node) (hlen : q.length + rest.length = 64)
    (hw : wipeInRecord node rest key prior = .ok (node', changed, inv)) :
    ∃ v, RecordPut q t rest v node' ∧ NetStep o v changed (execAcct · .wipeStorage) := by
  unfold wipeInRecord at hw
  rw [h.collect hlen] at hw
  dsimp only [bind, Except.bind] at hw
  split at hw
  · cases hd : recordNodeDelete node rest .wipeStorage with
    | error e =>
      rw [hd] at hw
      cases hw
    | ok r =>
      rw [hd] at hw
      cases hw
      obtain ⟨v, hv, hdel, -⟩ := h.delete hlen hd
      exact ⟨v, hv, hdel.wipe⟩
  · rename_i hempty
    cases hw
    refine ⟨o, h, fun _ => rfl, nofun, id, fun ho => ⟨ho, ?_⟩⟩
    obtain rfl | ⟨n, b, c, s, rfl⟩ := ho.cases
    · rfl
    · have hnil : s.tree.toList = [] := by
        simp only [Bool.or_eq_true, Bool.not_eq_true', not_or, Bool.not_eq_false] at hempty
        exact List.map_eq_nil_iff.mp (List.isEmpty_iff.mp hempty.1)
      have hs : s = .empty := by
        refine storage_eq_empty (Tree.isEmpty_iff.mpr ?_)
        by_contra hne
        exact Tree.toList_ne_nil s.canon hne hnil
      rw [hs]
      rfl

/-- The account outcome of a net update. -/
def outcomeOn (out : AccountOutcome) (a : Option Acct) : Option Acct :=
  match out with
  | .keep => a
  | .set n b c => execAcct a (.setAccount n b c)
  | .delete => execAcct a .deleteAccount

theorem setInRecord_step {prior : Option Eth.Account} {out : AccountOutcome} {changed : Bool}
    {inv : Inverse} (h : RecordPut q t rest o node) (hlen : q.length + rest.length = 64)
    (hout : out ≠ .delete)
    (hs : setInRecord node rest key prior out = .ok (node', changed, inv)) :
    ∃ v, RecordPut q t rest v node' ∧ NetStep o v changed (outcomeOn out) := by
  cases out with
  | keep =>
    cases hs
    exact ⟨o, h, .refl o⟩
  | set n b c =>
    obtain ⟨node1, hi, hs⟩ := bind_ok hs
    cases hs
    obtain ⟨a, ha, hput⟩ := h.insert hlen (show LeafOp.Short (.account n b c) from trivial) hi
    exact ⟨some a, hput, leafInsert_account ha⟩
  | delete => exact absurd rfl hout

theorem slotInRecord_step {created changed : Bool} {s : Key × Option Bytes} {inv : Inverse}
    (h : RecordPut q t rest o node) (hlen : q.length + rest.length = 64)
    (hshort : ∀ v, s.2 = some v → ShortValue v)
    (hs : slotInRecord node rest key created s = .ok (node', changed, inv)) :
    ∃ v, RecordPut q t rest v node' ∧ NetStep o v changed (applySlot · s) := by
  obtain ⟨slot, value⟩ := s
  unfold slotInRecord at hs
  cases value with
  | some value =>
    obtain ⟨node1, hi, hs⟩ := bind_ok hs
    cases hs
    obtain ⟨a, ha, hput⟩ := h.insert hlen (show LeafOp.Short (.storage slot value) from hshort value rfl) hi
    exact ⟨some a, hput, leafInsert_storage ha⟩
  | none =>
    obtain ⟨⟨node1, out⟩, hd, hs⟩ := bind_ok hs
    cases hs
    obtain ⟨v, hput, hdel, -⟩ := h.delete hlen hd
    exact ⟨v, hput, hdel.storage⟩

theorem slotsInRecord_step {created : Bool} (slots : List (Key × Option Bytes)) {changed : Bool}
    {inv : Inverse} (h : RecordPut q t rest o node) (hlen : q.length + rest.length = 64)
    (hshort : ∀ s ∈ slots, ∀ v, s.2 = some v → ShortValue v)
    (hs : slotsInRecord node rest key created slots = .ok (node', changed, inv)) :
    ∃ v, RecordPut q t rest v node' ∧ NetStep o v changed (slots.foldl applySlot ·) := by
  induction slots generalizing node o changed inv with
  | nil =>
    cases hs
    exact ⟨o, h, .refl o⟩
  | cons s slots ih =>
    obtain ⟨⟨node1, c1, i1⟩, h1, hs⟩ := bind_ok hs
    obtain ⟨⟨node2, c2, i2⟩, h2, hs⟩ := bind_ok hs
    cases hs
    obtain ⟨v, hv, hstep⟩ := slotInRecord_step h hlen (hshort s List.mem_cons_self) h1
    obtain ⟨w, hw, hrest⟩ := ih hv (fun s hs => hshort s (List.mem_cons_of_mem _ hs)) h2
    exact ⟨w, hw, hstep.trans hrest⟩

/-! ## The update -/

omit [Keccak] in
theorem bind_ite_ok {α β : Type} {c : Prop} [Decidable c] {x y : Except Err α}
    {f : α → Except Err β} {b : β} (h : (if c then x >>= f else y >>= f) = .ok b) :
    ∃ a, (if c then x else y) = .ok a ∧ f a = .ok b := by
  by_cases hc : c
  · rw [if_pos hc] at h ⊢
    exact bind_ok h
  · rw [if_neg hc] at h ⊢
    exact bind_ok h

/-- An update that the engine can hold: a deletion writes no slots, and values are short. -/
structure NetUpdate.Fits (upd : NetUpdate) : Prop where
  normal : upd.account = .delete → upd.slots = []
  short : ∀ s ∈ upd.slots, ∀ v, s.2 = some v → ShortValue v

/-- What the outcome says of the record node left, `v` put at the key. -/
structure NetOutcome (q : List Nibble) (t : Tree 16 StateLeaf) (rest : List Nibble)
    (v : Option StateLeaf) (node : Node) (out : NodeDelete) : Prop where
  put : RecordPut q t rest v node
  absent : out = .absent → v = t.get rest
  changed : out = .changed → node ≠ .empty
  removed : out = .removed → node = .empty

/-- The update on the leaf is that of the account. -/
def NetRel (upd : NetUpdate) (o v : Option StateLeaf) : Prop :=
  Structured o → Structured v ∧ acctOf v = upd.apply (acctOf o)

theorem NetUpdate.apply_delete {upd : NetUpdate} (h : upd.Fits) (hd : upd.account = .delete)
    (a : Option Acct) : upd.apply a = none := by
  unfold NetUpdate.apply
  rw [hd, h.normal hd]
  rfl

theorem applyNetInRecord_step {upd : NetUpdate} {out : NodeDelete} {inv : Inverse}
    (h : stateKind.Records q t) (hlen : q.length + rest.length = 64) (hupd : upd.Fits)
    (ha : applyNetInRecord (toNode stateLeaf t) rest key upd = .ok (node, out, inv)) :
    ∃ v, NetOutcome q t rest v node out ∧ NetRel upd (t.get rest) v ∧
      (upd.account ≠ .delete → (t.get rest).isSome → v.isSome) := by
  have hself : RecordPut q t rest (t.get rest) _ := recordPut_self h
  obtain ⟨prior, hprior, ha⟩ := bind_ok ha
  have hsome := hself.prior hprior
  by_cases hdel : upd.account = .delete
  · rw [if_pos hdel] at ha
    cases prior with
    | none =>
      cases ha
      have hnone : t.get rest = none := by
        cases hg : t.get rest with
        | none => rfl
        | some a =>
          rw [hg] at hsome
          cases hsome
      refine ⟨t.get rest, ⟨hself, fun _ => rfl, nofun, nofun⟩, fun hs => ⟨hs, ?_⟩, absurd hdel⟩
      rw [NetUpdate.apply_delete hupd hdel, hnone]
      rfl
    | some p =>
      obtain ⟨slots, hslots, ha⟩ := bind_ok ha
      obtain ⟨⟨node1, out1⟩, hd, ha⟩ := bind_ok ha
      cases ha
      obtain ⟨v, hput, hdone, hc, hr⟩ := hself.delete hlen hd
      have hv : v = none ∧ out ≠ .absent := by
        obtain ⟨hnone, -, -⟩ | ⟨a, d, -, hd, rfl, hout⟩ := hdone
        · rw [hnone] at hsome
          cases hsome
        · have hd' : d = .removed := by
            cases a <;> (cases hd; rfl)
          subst hd'
          exact ⟨rfl, fun h => nomatch hout.mp h⟩
      refine ⟨v, ⟨hput, fun h => absurd h hv.2, hc, hr⟩, fun _ => ?_, absurd hdel⟩
      rw [hv.1, NetUpdate.apply_delete hupd hdel]
      exact ⟨structured_none, rfl⟩
  · rw [if_neg hdel] at ha
    dsimp only at ha
    obtain ⟨⟨node1, wiped, invW⟩, h1, ha⟩ := bind_ite_ok ha
    obtain ⟨⟨node2, set, invA⟩, h2, ha⟩ := bind_ok ha
    obtain ⟨⟨node3, wrote, invS⟩, h3, ha⟩ := bind_ok ha
    cases ha
    have hwipe : ∃ v, RecordPut q t rest v node1 ∧ NetStep (t.get rest) v wiped fun a =>
        if upd.wipe then execAcct a .wipeStorage else a := by
      cases hw : upd.wipe with
      | true =>
        rw [hw, if_pos rfl] at h1
        exact wipeInRecord_step hself hlen h1
      | false =>
        rw [hw] at h1
        cases h1
        exact ⟨_, hself, .refl _⟩
    obtain ⟨v1, hput1, hs1⟩ := hwipe
    obtain ⟨v2, hput2, hs2⟩ := setInRecord_step hput1 hlen hdel h2
    obtain ⟨v, hput, hs3⟩ := slotsInRecord_step upd.slots hput2 hlen hupd.short h3
    have hstep := (hs1.trans hs2).trans hs3
    refine ⟨v, ⟨hput, fun h => ?_, fun h => ?_, fun h => ?_⟩, fun ho => ?_, fun _ => hstep.stays⟩
    · refine hstep.same ?_
      by_contra hc
      rw [if_pos (Bool.not_eq_false _ ▸ hc)] at h
      cases h
    · obtain ⟨u, rfl, -, hp⟩ := hput
      refine toNode_ne_empty stateLeaf ?_
      have hc : (wiped || set || wrote) = true := by
        by_contra hc
        rw [if_neg hc] at h
        cases h
      obtain ⟨a, rfl⟩ := Option.isSome_iff_exists.mp (hstep.isSome hc)
      exact hp.ne_empty
    · split at h <;> cases h
    · obtain ⟨hv, hacct⟩ := hstep.acct ho
      exact ⟨hv, hacct⟩

end

end FlatMpt
