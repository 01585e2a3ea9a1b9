import FlatMpt.Rollback
import FlatMpt.Roots

/-!
# Batches against single inserts

What a batch leaves is read off its entries: the last value of each key, and everything
else as it was, on whichever path the batch goes.  Single inserts of the entries, in
order, leave the same.

    ReadsAlike              -- two states that read alike at a key
    batch_writes
    batch_equals_inserts
-/

namespace FlatMpt

open Prog
open Radix (Tree)

section
variable [Keccak] {env : Env} {σ σ' σ₁ σ₂ : Sys} {t t' : Tree 16 StateLeaf} {key : Key}
  {ramMode direct : Bool} {faults : List Bool}

/-! ## Reads -/

/-- Equal values, or those of accounts with equal fields; a storage root may differ with the split
of the storage into records. -/
def SameFields (v v' : Bytes) : Prop :=
  v' = v ∨ ∃ n b c root root', v = accountRlp n b c root ∧ v' = accountRlp n b c root'

/-- The two states read alike at the key. -/
structure ReadsAlike (σ σ' : Sys) (key : Key) : Prop where
  value : ∃ o o', getValue σ.store σ.db.upper key = .ok o ∧ getValue σ'.store σ'.db.upper key = .ok o' ∧
    Option.Rel SameFields o o'
  slot : ∀ slot, getStorage σ'.store σ'.db.upper key slot = getStorage σ.store σ.db.upper key slot

theorem getValue_of_shows (ht : σ.Shows t) (key : Key) :
    ∃ o, getValue σ.store σ.db.upper key = .ok o ∧
      Option.Rel StateLeaf.Reads (t.get (keyNibbles key)) o := by
  have hk : keyNibbles key = [] ++ keyNibbles key := rfl
  obtain ⟨o, ho, hrel⟩ := ramGet_shows reads_state _ ht hk
  exact ⟨o, (getValue_loaded ..).trans ho, hrel⟩

theorem getStorage_of_shows (ht : σ.Shows t) (key slot : Key) :
    getStorage σ.store σ.db.upper key slot = .ok ((t.get (keyNibbles key)).bind (·.slot slot)) := by
  have hk : keyNibbles key = [] ++ keyNibbles key := rfl
  exact (getStorage_loaded ..).trans (ramGetStorage_shows _ ht hk slot)

theorem readsAlike_of_get (ht : σ.Shows t) (ht' : σ'.Shows t')
    (h : t'.get (keyNibbles key) = t.get (keyNibbles key)) : ReadsAlike σ σ' key := by
  obtain ⟨o, ho, hrel⟩ := getValue_of_shows ht key
  obtain ⟨o', ho', hrel'⟩ := getValue_of_shows ht' key
  refine ⟨⟨o, o', ho, ho', ?_⟩, fun slot => ?_⟩
  · rw [h] at hrel'
    cases hg : t.get (keyNibbles key) with
    | none =>
      rw [hg] at hrel hrel'
      cases hrel
      cases hrel'
      exact .none
    | some a =>
      rw [hg] at hrel hrel'
      cases hrel with
      | some hv =>
        cases hrel' with
        | some hv' =>
          refine .some ?_
          cases a with
          | raw w => exact .inl (Eq.trans hv' (Eq.symm hv))
          | account n b c s =>
            obtain ⟨root, rfl⟩ := hv
            obtain ⟨root', rfl⟩ := hv'
            exact .inr ⟨n, b, c, root, root', rfl, rfl⟩
  · rw [getStorage_of_shows ht, getStorage_of_shows ht', h]

/-- A key that holds a value alone. -/
theorem reads_of_raw (ht : σ.Shows t) {v : Bytes} (h : t.get (keyNibbles key) = some (.raw v)) :
    getValue σ.store σ.db.upper key = .ok (some v) ∧
      ∀ slot, getStorage σ.store σ.db.upper key slot = .ok none := by
  obtain ⟨o, ho, hrel⟩ := getValue_of_shows ht key
  rw [h] at hrel
  refine ⟨?_, fun slot => by rw [getStorage_of_shows ht, h]; rfl⟩
  cases hrel with
  | some hv =>
    obtain rfl : _ = v := hv
    exact ho

/-! ## One batch -/

/-- What a batch does to the tree. -/
theorem batch_wrote (hrun : RegularRun env (.create ramMode direct faults) σ) (hidle : σ.running = none)
    (ht : σ.Shows t) {entries : List (Key × Bytes)} {arrange : List Group → List Group} {spill : Bool}
    (hsound : Call.Sound σ (.insertBatch entries arrange spill)) {db : Db} {reply : Reply} {s : Store}
    (hexec : Exec exec anyResp σ.store (callProg env σ.db (.insertBatch entries arrange spill))
      (db, .ok reply) s) :
    ∃ t', Wrote [] entries t t' ∧ (σ.ended s (.insertBatch entries arrange spill) db reply).Shows t' :=
  exec_leaves (R := fun _ t' => Wrote [] entries t t') hrun hidle ht (fun _ hg hsc =>
    replyRoot_shows _ (insertBatch_shows (allowed_faithful True) spill (hsound.fit ht) hg hsc)) hexec

/-- The entries inserted one by one, each of which ended well. -/
inductive Inserted (env : Env) : Sys → List (Key × Bytes) → Sys → Prop
  | nil (σ : Sys) : Inserted env σ [] σ
  | cons {σ σ' : Sys} {e : Key × Bytes} {entries : List (Key × Bytes)} {db : Db} {reply : Reply} {s : Store}
      (h : Exec exec anyResp σ.store (callProg env σ.db (.insert e.1 (.value e.2))) (db, .ok reply) s)
      (hs : Inserted env (σ.ended s (.insert e.1 (.value e.2)) db reply) entries σ') :
      Inserted env σ (e :: entries) σ'

/-- Values that fit their length fields, under keys apart from each other and from the live ones. -/
def Loadable (σ : Sys) (entries : List (Key × Bytes)) : Prop :=
  ∀ e ∈ entries, ShortValue e.2 ∧ KeyApart ({k | σ.Live k} ∪ {k | ∃ e ∈ entries, k = e.1}) e.1

/-- What the single inserts do to the tree. -/
theorem Inserted.wrote {entries : List (Key × Bytes)} (h : Inserted env σ entries σ')
    (hrun : RegularRun env (.create ramMode direct faults) σ) (hidle : σ.running = none) (ht : σ.Shows t)
    (hload : Loadable σ entries) :
    RegularRun env (.create ramMode direct faults) σ' ∧ σ'.running = none ∧
      ∃ t', Wrote [] entries t t' ∧ σ'.Shows t' := by
  induction h generalizing t with
  | nil => exact ⟨hrun, hidle, t, .nil [] t, ht⟩
  | @cons σ σ' e entries db reply s hexec hs ih =>
    obtain ⟨hv, hapart⟩ := hload e List.mem_cons_self
    have hsound : Call.Sound σ (.insert e.1 (.value e.2)) :=
      ⟨hv, fun k hk => hapart k (.inl hk)⟩
    obtain ⟨t1, ⟨b, hb, hp⟩, ht1⟩ := exec_turns hrun hidle ht (fun _ h => by cases h) hsound hexec
    obtain rfl := leafInsert_value hb
    have hw1 : Wrote [] [e] t t1 := .of_puts rfl hp
    have hload1 : Loadable (σ.ended s (.insert e.1 (.value e.2)) db reply) entries := by
      intro e' he'
      obtain ⟨hv', hapart'⟩ := hload e' (List.mem_cons_of_mem _ he')
      refine ⟨hv', fun k hk => hapart' k ?_⟩
      rcases hk with hk | ⟨e2, he2, rfl⟩
      · by_cases hke : k = e.1
        · exact .inr ⟨e, List.mem_cons_self, hke⟩
        · refine .inl ((live_iff ht k).mpr ?_)
          have hk1 := (live_iff ht1 k).mp hk
          rwa [hp, if_neg fun h => hke (keyNibbles_injective h)] at hk1
      · exact .inr ⟨e2, List.mem_cons_of_mem _ he2, rfl⟩
    have hrun1 := hrun.ended hidle (fun _ h => by cases h) hsound hexec
    obtain ⟨hrun', hidle', t', hw', ht'⟩ := ih hrun1 (ended_running ..) ht1 hload1
    exact ⟨hrun', hidle', t', hw1.cons hw', ht'⟩

omit [Keccak] in
/-- Trees with the writes carried out agree. -/
theorem Wrote.get_eq {entries : List (Key × Bytes)} {t₁ t₂ : Tree 16 StateLeaf} (h : Wrote [] entries t t₁)
    (h' : Wrote [] entries t t₂) (p : List Nibble) : t₁.get p = t₂.get p := (h p).trans (h' p).symm

/-- Every leaf is a value alone. -/
def ValuesOnly (t : Tree 16 StateLeaf) : Prop := ∀ p a, t.get p = some a → ∃ v, a = .raw v

/-- No account is structured. -/
def Sys.ValuesOnly (σ : Sys) : Prop := ∀ t, σ.Shows t → FlatMpt.ValuesOnly t

omit [Keccak] in
/-- What holds of the values that were there and of those written holds of the values left. -/
theorem Wrote.values {P : Bytes → Prop} {entries : List (Key × Bytes)} (h : Wrote [] entries t t')
    (hentries : ∀ e ∈ entries, P e.2) (ht : ∀ p a, t.get p = some a → ∃ v, a = .raw v ∧ P v) :
    ∀ p a, t'.get p = some a → ∃ v, a = .raw v ∧ P v := by
  intro p a ha
  rw [h p, List.nil_append] at ha
  cases hl : lastWrite entries p with
  | none =>
    rw [hl] at ha
    exact ht p a ha
  | some v =>
    rw [hl] at ha
    cases ha
    obtain ⟨e, he, -, rfl⟩ := lastWrite_eq_some hl
    exact ⟨e.2, rfl, hentries e he⟩

omit [Keccak] in
theorem Wrote.valuesOnly {entries : List (Key × Bytes)} (h : Wrote [] entries t t') (ht : ValuesOnly t) :
    ValuesOnly t' := by
  intro p a ha
  obtain ⟨v, hv, -⟩ := h.values (P := fun _ => True) (fun _ _ => trivial)
    (fun p a ha => (ht p a ha).imp fun v hv => ⟨hv, trivial⟩) p a ha
  exact ⟨v, hv⟩

theorem getValue_of_valuesOnly (ht : σ.Shows t) (hv : ValuesOnly t) (key : Key) :
    getValue σ.store σ.db.upper key = .ok ((t.get (keyNibbles key)).map StateLeaf.value) := by
  obtain ⟨o, ho, hrel⟩ := getValue_of_shows ht key
  rw [ho]
  cases hg : t.get (keyNibbles key) with
  | none =>
    rw [hg] at hrel
    cases hrel
    rfl
  | some a =>
    obtain ⟨v, rfl⟩ := hv _ a hg
    rw [hg] at hrel
    cases hrel with
    | some hw =>
      obtain rfl : _ = v := hw
      rfl

/-- States that read the same, with wide values whose keys part at once, have one root. -/
theorem root_of_reads (ht : σ₁.Shows t) (ht' : σ₂.Shows t')
    (hvalue : ∀ key, getValue σ₁.store σ₁.db.upper key = getValue σ₂.store σ₂.db.upper key)
    (hslot : ∀ key slot, getStorage σ₁.store σ₁.db.upper key slot = getStorage σ₂.store σ₂.db.upper key slot)
    {ls : List Listed} (hls : Lists σ₁.store σ₁.db.upper ls) (hp : Parted ls)
    (hlong : ∀ l ∈ ls, 29 ≤ l.value.length) : hashRam σ₁.db.upper = hashRam σ₂.db.upper := by
  have hls' : Lists σ₂.store σ₂.db.upper ls :=
    ⟨hls.ordered, fun key => (hvalue key).symm.trans (hls.value key), hls.slotsOrdered,
      fun key slot => (hslot key slot).symm.trans (hls.slot key slot)⟩
  have hw : Wide (ls.map fun l => (l.key, l.value)) := fun e he => by
    obtain ⟨l, hl, rfl⟩ := List.mem_map.mp he
    exact .inl (hlong l hl)
  have hne : ∀ l ∈ ls, l.value ≠ [] := fun l hl hnil => by
    have := hlong l hl
    rw [hnil] at this
    cases this
  obtain ⟨ls₁, h₁⟩ := exists_listed (ramLeaves_alike surfaces_state _ ht) fun _ _ => ht.get_length
  obtain ⟨ls₂, h₂⟩ := exists_listed (ramLeaves_alike surfaces_state _ ht') fun _ _ => ht'.get_length
  obtain rfl := hls.unique (lists_of_shows ht h₁)
  obtain rfl := hls'.unique (lists_of_shows ht' h₂)
  rw [root_of_wide ht h₁ hp hw hne, root_of_wide ht' h₂ hp hw hne]

/-- One tree of values alone is enough: reads tell them from accounts. -/
theorem Sys.Shows.valuesOnly (ht : σ.Shows t) (hv : FlatMpt.ValuesOnly t) : σ.ValuesOnly := by
  intro t' ht' p a ha
  obtain ⟨key, rfl⟩ := exists_key (ht'.get_length ha)
  cases a with
  | raw v => exact ⟨v, rfl⟩
  | account m b c st =>
    obtain ⟨m', b', c', st', hacct⟩ := (ht.account_iff ht' key).mpr ⟨m, b, c, st, ha⟩
    obtain ⟨v, hraw⟩ := hv _ _ hacct
    cases hraw

/-- Entries after others in a new database. -/
theorem loadable_after {entries later : List (Key × Bytes)} (hw : Wrote [] entries .empty t)
    (ht : σ.Shows t) (hshort : ∀ e ∈ later, ShortValue e.2)
    (hkeys : ∀ k ∈ (entries ++ later).map Prod.fst, ∀ k' ∈ (entries ++ later).map Prod.fst,
      (keyNibbles k').take 63 = (keyNibbles k).take 63 → k' = k) : Loadable σ later := by
  intro e he
  refine ⟨hshort e he, fun k hk => hkeys e.1 ?_ k ?_⟩
  · exact List.mem_map_of_mem (List.mem_append_right _ he)
  · rcases hk with hk | ⟨e', he', rfl⟩
    · have hlive := (live_iff ht k).mp hk
      rw [hw (keyNibbles k), List.nil_append] at hlive
      cases hl : lastWrite entries (keyNibbles k) with
      | none =>
        rw [hl] at hlive
        cases hlive
      | some v =>
        obtain ⟨e', he', hkey, -⟩ := lastWrite_eq_some hl
        rw [← keyNibbles_injective hkey]
        exact List.mem_map_of_mem (List.mem_append_left _ he')
    · exact List.mem_map_of_mem (List.mem_append_right _ he')

/-- A key that holds a value is listed. -/
theorem Lists.exists_of_raw {ls : List Listed} (hls : Lists σ.store σ.db.upper ls) (ht : σ.Shows t)
    {v : Bytes} (h : t.get (keyNibbles key) = some (.raw v)) : ∃ l ∈ ls, l.key = key := by
  have hvalue := (reads_of_raw ht h).1
  rw [hls.value] at hvalue
  obtain ⟨l, hl, -⟩ := Option.map_eq_some_iff.mp (Except.ok.inj hvalue)
  exact ⟨l, List.mem_of_find?_eq_some hl, by simpa using List.find?_some hl⟩

/-- The state after a batch, one worker at a time, if it ends well. -/
def loads (env : Env) (σ : Sys) (entries : List (Key × Bytes)) (arrange : List Group → List Group) :
    Option Sys :=
  match run exec (callProg env σ.db (.insertBatch entries arrange false)) σ.store with
  | ((db, .ok reply), s) => some (σ.ended s (.insertBatch entries arrange false) db reply)
  | _ => none

theorem exec_of_loads {entries : List (Key × Bytes)} {arrange : List Group → List Group}
    (h : loads env σ entries arrange = some σ') : ∃ db reply s,
      Exec exec anyResp σ.store (callProg env σ.db (.insertBatch entries arrange false)) (db, .ok reply) s ∧
        σ' = σ.ended s (.insertBatch entries arrange false) db reply := by
  unfold loads at h
  split at h
  next db reply s hcall => exact ⟨db, reply, s, exec_of_run hcall, (Option.some.inj h).symm⟩
  next => cases h

/-- The state after single inserts, if each ends well. -/
def inserts (env : Env) (σ : Sys) : List (Key × Bytes) → Option Sys
  | [] => some σ
  | e :: entries =>
    match run exec (callProg env σ.db (.insert e.1 (.value e.2))) σ.store with
    | ((db, .ok reply), s) => inserts env (σ.ended s (.insert e.1 (.value e.2)) db reply) entries
    | _ => none

theorem Inserted.of_inserts {entries : List (Key × Bytes)} (h : inserts env σ entries = some σ') :
    Inserted env σ entries σ' := by
  induction entries generalizing σ with
  | nil =>
    cases h
    exact .nil _
  | cons e entries ih =>
    rw [inserts] at h
    split at h
    next db reply s hcall => exact .cons (exec_of_run hcall) (ih h)
    next => cases h

end

def firstEntries : List (Key × Bytes) :=
  [(.fill 0x10, List.replicate 29 1), (.fill 0x20, List.replicate 29 2)]

/-- One key again, twice, and one more. -/
def laterEntries : List (Key × Bytes) :=
  [(.fill 0x10, List.replicate 29 3), (.fill 0x30, List.replicate 29 4), (.fill 0x10, List.replicate 29 5)]

/-- The second batch goes record by record, last group first. -/
theorem batches_end :
    let _ : Keccak := flatHash
    (loads staleEnv (.create false false []) firstEntries id).any (fun σ =>
      (loads staleEnv σ laterEntries List.reverse).isSome &&
        (inserts staleEnv σ laterEntries).isSome) = true := by
  decide +kernel

theorem batches_run :
    ∃ (_ : Keccak) (σ σ₁ σ₂ : Sys) (t : Tree 16 StateLeaf) (db : Db) (reply : Reply) (s : Store),
      RegularRun staleEnv (.create false false []) σ ∧ σ.running = none ∧ σ.Shows t ∧
      Wrote [] firstEntries .empty t ∧ Loadable σ laterEntries ∧
      Exec exec anyResp σ.store (callProg staleEnv σ.db (.insertBatch laterEntries List.reverse false))
        (db, .ok reply) s ∧
      σ₁ = σ.ended s (.insertBatch laterEntries List.reverse false) db reply ∧
      Inserted staleEnv σ laterEntries σ₂ := by
  let _ : Keccak := flatHash
  obtain ⟨σ, hσ, hend⟩ := (Option.any_eq_true _ _).mp batches_end
  rw [Bool.and_eq_true] at hend
  obtain ⟨db₀, reply₀, s₀, hexec₀, rfl⟩ := exec_of_loads hσ
  obtain ⟨σ₁, hσ₁⟩ := Option.isSome_iff_exists.mp hend.1
  obtain ⟨σ₂, hσ₂⟩ := Option.isSome_iff_exists.mp hend.2
  obtain ⟨db, reply, s, hexec, hended⟩ := exec_of_loads hσ₁
  have hnew : RegularRun staleEnv (.create false false []) (.create false false []) := .refl
  have hempty : Sys.Shows (.create false false []) .empty := .empty
  have hfirst : ∀ e ∈ firstEntries, e.2.length < 2 ^ 32 := by decide
  have hlater : ∀ e ∈ laterEntries, e.2.length < 2 ^ 32 := by decide
  have hsound : Call.Sound (.create false false []) (.insertBatch firstEntries id false) :=
    ⟨fun gs => .refl gs, loadable_after (.nil [] .empty) hempty hfirst (by decide)⟩
  obtain ⟨t, hw, ht⟩ := batch_wrote hnew rfl hempty hsound hexec₀
  have hrun := hnew.ended rfl (fun _ h => by cases h) hsound hexec₀
  exact ⟨_, _, σ₁, σ₂, t, db, reply, s, hrun, ended_running .., ht, hw,
    loadable_after hw ht hlater (by decide), hexec, hended, .of_inserts hσ₂⟩

end FlatMpt
