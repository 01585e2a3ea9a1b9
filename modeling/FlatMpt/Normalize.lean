import FlatMpt.Block

/-!
# Normalisation against sequential execution

`normalizeBlock` compared with running the block one operation at a time.  For
one account, with `p` the operations on it so far and `a` its state before the
block, the fold keeps `NormInv a p upd x`, where `x` is the sequential result:
either `upd.apply a = x`, or the account was missing, no operation set or
deleted it, every slot written was cleared again, and `x` is the empty account
that the sequential writes leave behind.

    applyNets l (normalizeBlock ops) = execBlock l ops
      ↔ ¬ ∃ k, VanishingWrites l ops k                          (normalizeBlock_eq_iff)
-/

namespace FlatMpt

/-! ## Slot lists -/

/-- The slot map after a list of final values. -/
def overlay (slots : List (Key × Option Bytes)) (f : Key → Option Bytes) : Key → Option Bytes :=
  slots.foldl (fun f s => Function.update f s.1 s.2) f

@[simp] theorem overlay_nil (f : Key → Option Bytes) : overlay [] f = f := rfl

theorem overlay_append (slots : List (Key × Option Bytes)) (slot : Key) (v : Option Bytes)
    (f : Key → Option Bytes) :
    overlay (slots ++ [(slot, v)]) f = Function.update (overlay slots f) slot v := by
  simp [overlay, List.foldl_append]

theorem overlay_of_notMem (slots : List (Key × Option Bytes)) (f : Key → Option Bytes) (slot : Key)
    (h : slot ∉ slots.map Prod.fst) : overlay slots f slot = f slot := by
  induction slots generalizing f with
  | nil => rfl
  | cons s slots ih =>
    simp only [List.map_cons, List.mem_cons, not_or] at h
    have hs := ih (Function.update f s.1 s.2) h.2
    rw [Function.update_of_ne h.1] at hs
    exact hs

theorem overlay_update_comm (slots : List (Key × Option Bytes)) (f : Key → Option Bytes)
    (slot : Key) (v : Option Bytes) (h : slot ∉ slots.map Prod.fst) :
    overlay slots (Function.update f slot v) = Function.update (overlay slots f) slot v := by
  induction slots generalizing f with
  | nil => rfl
  | cons s slots ih =>
    simp only [List.map_cons, List.mem_cons, not_or] at h
    show overlay slots (Function.update (Function.update f slot v) s.1 s.2) = _
    rw [Function.update_comm h.1, ih _ h.2]
    rfl

/-- Overwriting the value at a slot's only position updates that slot. -/
theorem overlay_modify (slots : List (Key × Option Bytes)) (f : Key → Option Bytes) (i : Nat)
    (slot : Key) (v : Option Bytes) (hi : (slots.map Prod.fst)[i]? = some slot)
    (hn : (slots.map Prod.fst).Nodup) :
    overlay (slots.modify i fun s => (s.1, v)) f = Function.update (overlay slots f) slot v := by
  induction slots generalizing f i with
  | nil => simp at hi
  | cons s slots ih =>
    simp only [List.map_cons, List.nodup_cons] at hn
    cases i with
    | zero =>
      simp only [List.map_cons, List.getElem?_cons_zero, Option.some.injEq] at hi
      subst hi
      show overlay slots (Function.update f s.1 v) = _
      have hs : overlay (s :: slots) f = overlay slots (Function.update f s.1 s.2) := rfl
      rw [hs, ← overlay_update_comm _ _ _ _ hn.1, Function.update_idem]
    | succ i =>
      simp only [List.map_cons, List.getElem?_cons_succ] at hi
      exact ih (Function.update f s.1 s.2) i hi hn.2

/-- With distinct slots, some final value is written iff the overlay of the
empty storage is not empty. -/
theorem any_isSome_iff_overlay (slots : List (Key × Option Bytes))
    (hn : (slots.map Prod.fst).Nodup) :
    (slots.any fun s => s.2.isSome) ↔ ∃ k, overlay slots (fun _ => none) k ≠ none := by
  have hmem : ∀ s ∈ slots, ∀ f, overlay slots f s.1 = s.2 := by
    induction slots with
    | nil => simp
    | cons t slots ih =>
      simp only [List.map_cons, List.nodup_cons] at hn
      rintro s hs f
      rcases List.mem_cons.1 hs with rfl | hs
      · have h := overlay_of_notMem slots (Function.update f s.1 s.2) s.1 hn.1
        rw [Function.update_self] at h
        exact h
      · exact ih hn.2 s hs _
  rw [List.any_eq_true]
  constructor
  · rintro ⟨s, hs, hne⟩
    exact ⟨s.1, by rw [hmem s hs]; exact Option.isSome_iff_ne_none.1 hne⟩
  · rintro ⟨k, hk⟩
    by_cases hin : k ∈ slots.map Prod.fst
    · obtain ⟨s, hs, rfl⟩ := List.mem_map.1 hin
      rw [hmem s hs] at hk
      exact ⟨s, hs, Option.isSome_iff_ne_none.2 hk⟩
    · exact absurd (overlay_of_notMem slots _ k hin) hk

theorem overlay_none_of_all_none (slots : List (Key × Option Bytes))
    (h : ∀ s ∈ slots, s.2 = none) : overlay slots (fun _ => none) = fun _ => none := by
  induction slots with
  | nil => rfl
  | cons s slots ih =>
    have hs := h s (List.mem_cons_self ..)
    show overlay slots (Function.update (fun _ => none) s.1 s.2) = _
    rw [hs, Function.update_eq_self_iff.2 rfl]
    exact ih fun t ht => h t (List.mem_cons_of_mem _ ht)

/-! ## Net updates on one account -/

section
variable [Keccak]

/-- Storage of a possibly missing account. -/
def slotsOf : Option Acct → Key → Option Bytes
  | some a => a.slots
  | none => fun _ => none

/-- Final slot values on a possibly missing account, in closed form. -/
theorem foldl_applySlot (slots : List (Key × Option Bytes)) (a : Option Acct) :
    slots.foldl applySlot a =
      if a.isSome || slots.any fun s => s.2.isSome then
        some { a.getD .empty with slots := overlay slots (slotsOf a) }
      else none := by
  induction slots generalizing a with
  | nil => cases a <;> simp [slotsOf]
  | cons s slots ih =>
    rw [List.foldl_cons, ih]
    obtain ⟨slot, v⟩ := s
    have hov : ∀ f, overlay ((slot, v) :: slots) f = overlay slots (Function.update f slot v) :=
      fun _ => rfl
    rw [hov]
    cases v with
    | some v => cases a <;> simp [applySlot, execAcct, slotsOf, Acct.empty]
    | none =>
      cases a with
      | some a => simp [applySlot, execAcct, slotsOf]
      | none =>
        have hf : Function.update (fun _ : Key => (none : Option Bytes)) slot none
            = fun _ => none := Function.update_eq_self_iff.2 rfl
        show _ = if _ then
          some { Acct.empty with slots := overlay slots (Function.update _ slot none) } else none
        rw [slotsOf, hf]
        rfl

theorem foldl_applySlot_some (slots : List (Key × Option Bytes)) (a : Acct) :
    slots.foldl applySlot (some a) = some { a with slots := overlay slots a.slots } := by
  rw [foldl_applySlot]
  rfl

theorem slotsOf_foldl_applySlot (slots : List (Key × Option Bytes)) (a : Option Acct) :
    slotsOf (slots.foldl applySlot a) = overlay slots (slotsOf a) := by
  rw [foldl_applySlot]
  split
  · rfl
  next hn =>
    simp only [Bool.or_eq_true, not_or, Bool.not_eq_true, Option.isSome_eq_false_iff,
      Option.isNone_iff_eq_none] at hn
    obtain ⟨rfl, hslots⟩ := hn
    exact (overlay_none_of_all_none _ (by simpa using hslots)).symm

/-- The account a net update writes its slots into. -/
def NetUpdate.base (upd : NetUpdate) (a : Option Acct) : Option Acct :=
  let a := if upd.wipe then execAcct a .wipeStorage else a
  match upd.account with
  | .keep => a
  | .set nonce balance codeHash => execAcct a (.setAccount nonce balance codeHash)
  | .delete => execAcct a .deleteAccount

theorem NetUpdate.slotsOf_base (upd : NetUpdate) (a : Option Acct)
    (hdel : upd.account = .delete → upd.wipe = true) :
    slotsOf (upd.base a) = if upd.wipe then fun _ => none else slotsOf a := by
  have hw : slotsOf (if upd.wipe then execAcct a .wipeStorage else a) =
      if upd.wipe then fun _ => none else slotsOf a := by
    cases upd.wipe <;> cases a <;> rfl
  cases hacc : upd.account with
  | keep => simpa only [NetUpdate.base, hacc] using hw
  | set n b c =>
    rw [← hw]
    simp only [NetUpdate.base, hacc]
    cases (if upd.wipe then execAcct a .wipeStorage else a) <;> rfl
  | delete =>
    rw [hdel hacc]
    simp only [NetUpdate.base, hacc]
    rfl

theorem NetUpdate.base_wipe (upd : NetUpdate) (a : Option Acct) :
    ({ upd with wipe := true, slots := [] } : NetUpdate).base a =
      execAcct (upd.base a) .wipeStorage := by
  obtain ⟨wipe, account, slots⟩ := upd
  cases account <;> cases wipe <;> cases a <;> rfl

theorem NetUpdate.base_eq_none {upd : NetUpdate} {a : Option Acct} (h : upd.base a = none) :
    (upd.account = .keep ∧ a = none) ∨ upd.account = .delete := by
  obtain ⟨wipe, account, slots⟩ := upd
  cases account with
  | keep => cases wipe <;> cases a <;> simp_all [NetUpdate.base, execAcct]
  | set n b c => simp [NetUpdate.base, execAcct] at h
  | delete => exact Or.inr rfl

theorem NetUpdate.apply_eq (upd : NetUpdate) (a : Option Acct) :
    upd.apply a = upd.slots.foldl applySlot (upd.base a) := rfl

end

/-! ## The fold, one account at a time -/

/-- The operations of a block on one account, in order. -/
def opsOn (k : Key) (ops : List (Key × StateOp)) : List StateOp :=
  ops.filterMap fun e => if e.1 = k then some e.2 else none

/-- An operation that decides the account's own outcome. -/
def StateOp.setsAccount : StateOp → Bool
  | .setAccount .. => true
  | .deleteAccount => true
  | _ => false

/-- Slot `s` is written and the write is not cleared again. -/
def WriteSurvives (os : List StateOp) (s : Key) : Prop :=
  ∃ pre v post, os = pre ++ StateOp.setStorage s v :: post ∧
    StateOp.wipeStorage ∉ post ∧ StateOp.deleteStorage s ∉ post

theorem writeSurvives_append (os : List StateOp) (o : StateOp) (s : Key) :
    WriteSurvives (os ++ [o]) s ↔
      (∃ v, o = .setStorage s v) ∨
        (WriteSurvives os s ∧ o ≠ .wipeStorage ∧ o ≠ .deleteStorage s) := by
  constructor
  · rintro ⟨pre, v, post, he, hw, hd⟩
    rcases List.eq_nil_or_concat post with rfl | ⟨post, last, rfl⟩
    · have hlast := (List.append_inj_right' he rfl)
      exact Or.inl ⟨v, by simpa using hlast⟩
    · have hcons : pre ++ StateOp.setStorage s v :: (post ++ [last]) =
          (pre ++ StateOp.setStorage s v :: post) ++ [last] := by simp
      rw [List.concat_eq_append, hcons] at he
      obtain ⟨hos, hol⟩ := List.append_inj' he rfl
      simp only [List.cons.injEq, and_true] at hol
      subst hol
      simp only [List.concat_eq_append, List.mem_append, List.mem_singleton, not_or] at hw hd
      exact Or.inr ⟨⟨pre, v, post, hos, hw.1, hd.1⟩, Ne.symm hw.2, Ne.symm hd.2⟩
  · rintro (⟨v, rfl⟩ | ⟨⟨pre, v, post, rfl, hw, hd⟩, how, hod⟩)
    · exact ⟨os, v, [], rfl, by simp, by simp⟩
    · refine ⟨pre, v, post ++ [o], by simp, ?_, ?_⟩
      · simpa using ⟨hw, how.symm⟩
      · simpa using ⟨hd, hod.symm⟩

/-- What writing a slot's final value does to an account's entry. -/
structure SlotWritten (upd upd' : NetUpdate) (slot : Key) (v : Option Bytes) : Prop where
  wipe : upd'.wipe = upd.wipe
  account : upd'.account = upd.account
  nodup : (upd'.slots.map Prod.fst).Nodup
  overlay_eq : ∀ f, overlay upd'.slots f = Function.update (overlay upd.slots f) slot v
  all_none : v = none → (∀ s ∈ upd.slots, s.2 = none) → ∀ s ∈ upd'.slots, s.2 = none

/-- Some final value is written, as a fact about the overlay. -/
theorem SlotWritten.any_iff {upd upd' : NetUpdate} {slot : Key} {v : Option Bytes}
    (h : SlotWritten upd upd' slot v) :
    (upd'.slots.any fun s => s.2.isSome) ↔
      v ≠ none ∨ ∃ k, k ≠ slot ∧ overlay upd.slots (fun _ => none) k ≠ none := by
  rw [any_isSome_iff_overlay _ h.nodup, h.overlay_eq]
  constructor
  · rintro ⟨k, hk⟩
    by_cases hks : k = slot
    · subst hks
      rw [Function.update_self] at hk
      exact Or.inl hk
    · rw [Function.update_of_ne hks] at hk
      exact Or.inr ⟨k, hks, hk⟩
  · rintro (hv | ⟨k, hks, hk⟩)
    · exact ⟨slot, by rwa [Function.update_self]⟩
    · exact ⟨k, by rwa [Function.update_of_ne hks]⟩

section
variable [Keccak]

/-- What the fold keeps for one account: `a` before the block, `p` the operations
on it so far, `upd` its entry and `x` the sequential result. -/
structure NormInv (a : Option Acct) (p : List StateOp) (upd : NetUpdate) (x : Option Acct) :
    Prop where
  nodup : (upd.slots.map Prod.fst).Nodup
  keep_iff : upd.account = .keep ↔ ∀ o ∈ p, o.setsAccount = false
  deleted : upd.account = .delete → upd.wipe = true ∧ upd.slots = []
  agree : x = upd.apply a ∨
    (a = none ∧ upd.account = .keep ∧ (∀ s ∈ upd.slots, s.2 = none) ∧ x = some .empty)
  written : a = none → upd.account = .keep → (x.isSome ↔ ∃ s v, StateOp.setStorage s v ∈ p)
  live : a = none → upd.account = .keep →
    ∀ s, overlay upd.slots (fun _ => none) s ≠ none ↔ WriteSurvives p s

theorem NormInv.init (a : Option Acct) : NormInv a [] .fresh a where
  nodup := by simp [NetUpdate.fresh]
  keep_iff := by simp [NetUpdate.fresh]
  deleted := by simp [NetUpdate.fresh]
  agree := Or.inl rfl
  written := by rintro rfl; simp
  live := by simp [NetUpdate.fresh, WriteSurvives]

theorem SlotWritten.base_eq {upd upd' : NetUpdate} {slot : Key} {v : Option Bytes}
    (h : SlotWritten upd upd' slot v) (a : Option Acct) : upd'.base a = upd.base a := by
  simp only [NetUpdate.base, h.wipe, h.account]

theorem NormInv.slotsOf_eq {a x : Option Acct} {p : List StateOp} {upd : NetUpdate}
    (h : NormInv a p upd x) :
    slotsOf x = overlay upd.slots (if upd.wipe then fun _ => none else slotsOf a) := by
  rcases h.agree with rfl | ⟨rfl, hk, hs, rfl⟩
  · rw [NetUpdate.apply_eq, slotsOf_foldl_applySlot,
      NetUpdate.slotsOf_base _ _ fun hd => (h.deleted hd).1]
  · have hnone : (if upd.wipe then fun _ => none else slotsOf none) =
        fun _ : Key => (none : Option Bytes) := by cases upd.wipe <;> rfl
    rw [hnone, overlay_none_of_all_none _ hs]
    rfl

theorem NormInv.setAccount {a x : Option Acct} {p : List StateOp} {upd : NetUpdate}
    (h : NormInv a p upd x) (nonce : UInt64) (balance : U256) (codeHash : Hash) :
    NormInv a (p ++ [.setAccount nonce balance codeHash])
      { upd with account := .set nonce balance codeHash }
      (execAcct x (.setAccount nonce balance codeHash)) where
  nodup := h.nodup
  keep_iff := by simp [StateOp.setsAccount]
  deleted := by simp
  written := by simp
  live := by simp
  agree := by
    left
    have hx : execAcct x (.setAccount nonce balance codeHash) =
        some ⟨nonce, balance, codeHash, slotsOf x⟩ := by cases x <;> rfl
    have hb : ({ upd with account := .set nonce balance codeHash } : NetUpdate).base a =
        some ⟨nonce, balance, codeHash, if upd.wipe then fun _ => none else slotsOf a⟩ := by
      simp only [NetUpdate.base]
      cases upd.wipe <;> cases a <;> rfl
    rw [NetUpdate.apply_eq, hb, hx, h.slotsOf_eq, foldl_applySlot_some]

theorem NormInv.deleteAccount {a x : Option Acct} {p : List StateOp} {upd : NetUpdate}
    (_h : NormInv a p upd x) :
    NormInv a (p ++ [.deleteAccount]) ⟨true, .delete, []⟩ (execAcct x .deleteAccount) where
  nodup := by simp
  keep_iff := by simp [StateOp.setsAccount]
  deleted := by simp
  written := by simp
  live := by simp
  agree := Or.inl rfl

theorem NormInv.wipeStorage {a x : Option Acct} {p : List StateOp} {upd : NetUpdate}
    (h : NormInv a p upd x) :
    NormInv a (p ++ [.wipeStorage]) { upd with wipe := true, slots := [] }
      (execAcct x .wipeStorage) where
  nodup := by simp
  keep_iff := by
    rw [List.forall_mem_append]
    simpa [StateOp.setsAccount] using h.keep_iff
  deleted := by simp
  written := by
    intro ha hk
    have hw := h.written ha hk
    simpa [execAcct] using hw
  live := by
    intro _ _ s
    rw [writeSurvives_append]
    simp
  agree := by
    rcases h.agree with rfl | ⟨rfl, hk, hs, rfl⟩
    · rw [NetUpdate.apply_eq upd, NetUpdate.apply_eq, NetUpdate.base_wipe, List.foldl_nil]
      cases hb : upd.base a with
      | some b => exact Or.inl (by rw [foldl_applySlot_some]; rfl)
      | none =>
        rw [foldl_applySlot]
        rcases NetUpdate.base_eq_none hb with ⟨hk, ha⟩ | hd
        · cases hany : upd.slots.any fun s => s.2.isSome with
          | true => exact Or.inr ⟨ha, hk, by simp, rfl⟩
          | false => exact Or.inl rfl
        · rw [(h.deleted hd).2]
          exact Or.inl rfl
    · right
      exact ⟨rfl, hk, by simp, rfl⟩

/-- A write on an account the block has not deleted. -/
theorem NormInv.setStorage {a x : Option Acct} {p : List StateOp} {upd upd' : NetUpdate}
    (h : NormInv a p upd x) {slot : Key} {v : Bytes} (hw : SlotWritten upd upd' slot (some v))
    (hd : upd.account ≠ .delete) :
    NormInv a (p ++ [.setStorage slot v]) upd' (execAcct x (.setStorage slot v)) where
  nodup := hw.nodup
  keep_iff := by
    rw [List.forall_mem_append, hw.account]
    simpa [StateOp.setsAccount] using h.keep_iff
  deleted := by rw [hw.account]; exact fun hd' => absurd hd' hd
  written := by
    intro _ _
    simp only [execAcct, Option.isSome_some, true_iff]
    exact ⟨slot, v, by simp⟩
  live := by
    intro ha hk s
    rw [writeSurvives_append, hw.overlay_eq, ← h.live ha (hw.account ▸ hk)]
    by_cases hs : s = slot
    · subst hs
      simp
    · rw [Function.update_of_ne hs]
      simp [Ne.symm hs]
  agree := by
    left
    have hany : (upd'.slots.any fun s => s.2.isSome) = true := hw.any_iff.2 (Or.inl (by simp))
    rw [NetUpdate.apply_eq, hw.base_eq, foldl_applySlot, hany, hw.overlay_eq, Bool.or_true,
      if_pos rfl]
    rcases h.agree with rfl | ⟨rfl, hk, hs, rfl⟩
    · rw [NetUpdate.apply_eq, foldl_applySlot]
      cases hb : upd.base a with
      | some b => rfl
      | none =>
        cases hany' : upd.slots.any fun s => s.2.isSome with
        | true => rfl
        | false =>
          have hnone : overlay upd.slots (fun _ => none) = fun _ => none :=
            overlay_none_of_all_none _ (by simpa using hany')
          simp only [slotsOf, hnone]
          rfl
    · have hb : upd.base none = none := by simp [NetUpdate.base, hk, execAcct]
      rw [hb]
      simp only [slotsOf, overlay_none_of_all_none _ hs]
      rfl

/-- Clearing a slot of an account the block has not deleted. -/
theorem NormInv.deleteStorage {a x : Option Acct} {p : List StateOp} {upd upd' : NetUpdate}
    (h : NormInv a p upd x) {slot : Key} (hw : SlotWritten upd upd' slot none)
    (hd : upd.account ≠ .delete) :
    NormInv a (p ++ [.deleteStorage slot]) upd' (execAcct x (.deleteStorage slot)) where
  nodup := hw.nodup
  keep_iff := by
    rw [List.forall_mem_append, hw.account]
    simpa [StateOp.setsAccount] using h.keep_iff
  deleted := by rw [hw.account]; exact fun hd' => absurd hd' hd
  written := by
    intro ha hk
    have hwr := h.written ha (hw.account ▸ hk)
    simpa [execAcct] using hwr
  live := by
    intro ha hk s
    rw [writeSurvives_append, hw.overlay_eq, ← h.live ha (hw.account ▸ hk)]
    by_cases hs : s = slot
    · subst hs
      simp
    · rw [Function.update_of_ne hs]
      simp [Ne.symm hs]
  agree := by
    rcases h.agree with rfl | ⟨rfl, hk, hs, rfl⟩
    · rw [NetUpdate.apply_eq upd, NetUpdate.apply_eq upd', hw.base_eq]
      cases hb : upd.base a with
      | some b =>
        left
        rw [foldl_applySlot_some, foldl_applySlot_some, hw.overlay_eq]
        rfl
      | none =>
        rw [foldl_applySlot, foldl_applySlot, hw.overlay_eq]
        have hmono : (upd'.slots.any fun s => s.2.isSome) = true →
            (upd.slots.any fun s => s.2.isSome) = true := by
          intro hany'
          rcases hw.any_iff.1 hany' with hv | ⟨k, -, hk⟩
          · exact absurd rfl hv
          · exact (any_isSome_iff_overlay _ h.nodup).2 ⟨k, hk⟩
        cases hany' : upd'.slots.any fun s => s.2.isSome with
        | true =>
          rw [hmono hany']
          exact Or.inl rfl
        | false =>
          have hnone' : ∀ s ∈ upd'.slots, s.2 = none := by simpa using hany'
          cases hany : upd.slots.any fun s => s.2.isSome with
          | true =>
            -- the last surviving write of a missing account is cleared
            rcases NetUpdate.base_eq_none hb with ⟨hk, ha⟩ | hdel
            · refine Or.inr ⟨ha, hw.account ▸ hk, hnone', ?_⟩
              have hov := hw.overlay_eq fun _ => none
              rw [overlay_none_of_all_none _ hnone'] at hov
              simp only [Option.isSome_none, Bool.or_true, if_pos, execAcct, Option.map_some,
                slotsOf]
              rw [← hov]
              rfl
            · exact absurd hdel hd
          | false => exact Or.inl rfl
    · refine Or.inr ⟨rfl, hw.account ▸ hk, hw.all_none rfl hs, ?_⟩
      have hu : Function.update (fun _ : Key => (none : Option Bytes)) slot none
          = fun _ => none := Function.update_eq_self_iff.2 rfl
      simp only [execAcct, Option.map_some, Acct.empty, hu]

theorem NormInv.exists_setsAccount {a x : Option Acct} {p : List StateOp} {upd : NetUpdate}
    (h : NormInv a p upd x) (hk : upd.account ≠ .keep) : ∃ o ∈ p, o.setsAccount = true := by
  by_contra hno
  refine hk (h.keep_iff.2 fun o ho => ?_)
  by_contra hs
  exact hno ⟨o, ho, by simpa using hs⟩

/-- The operations of an account whose outcome is decided are not looked at
again. -/
theorem NormInv.congr_ops {a x : Option Acct} {p q : List StateOp} {upd : NetUpdate}
    (h : NormInv a p upd x) (hk : upd.account ≠ .keep) (hq : ∃ o ∈ q, o.setsAccount = true) :
    NormInv a q upd x where
  nodup := h.nodup
  keep_iff := by
    obtain ⟨o, ho, hs⟩ := hq
    exact ⟨fun hk' => absurd hk' hk, fun hall => absurd (hall o ho) (by simp [hs])⟩
  deleted := h.deleted
  agree := h.agree
  written := fun _ hk' => absurd hk' hk
  live := fun _ hk' => absurd hk' hk

/-- A deleted account is gone. -/
theorem NormInv.deleted_none {a x : Option Acct} {p : List StateOp} {upd : NetUpdate}
    (h : NormInv a p upd x) (hd : upd.account = .delete) : x = none := by
  rcases h.agree with rfl | ⟨-, hk, -⟩
  · rw [NetUpdate.apply_eq, (h.deleted hd).2]
    simp [NetUpdate.base, hd, execAcct]
  · rw [hd] at hk
    cases hk

/-- After an in-block delete, clearing a slot does nothing. -/
theorem NormInv.deleteStorage_deleted {a x : Option Acct} {p : List StateOp} {upd : NetUpdate}
    (h : NormInv a p upd x) (slot : Key) (hd : upd.account = .delete) :
    NormInv a (p ++ [.deleteStorage slot]) upd (execAcct x (.deleteStorage slot)) := by
  have hx := h.deleted_none hd
  have hxs : execAcct x (.deleteStorage slot) = x := by rw [hx]; rfl
  rw [hxs]
  obtain ⟨o, ho, hs⟩ := h.exists_setsAccount (by simp [hd])
  exact h.congr_ops (by simp [hd]) ⟨o, List.mem_append_left _ ho, hs⟩

end

/-! ## The index map -/

theorem modify_map_fst (slots : List (Key × Option Bytes)) (i : Nat) (v : Option Bytes) :
    (slots.modify i fun s => (s.1, v)).map Prod.fst = slots.map Prod.fst := by
  induction slots generalizing i with
  | nil => simp
  | cons s slots ih =>
    cases i with
    | zero => rfl
    | succ i => simp [ih]

theorem modify_all_none (slots : List (Key × Option Bytes)) (i : Nat)
    (h : ∀ s ∈ slots, s.2 = none) : ∀ s ∈ slots.modify i fun s => (s.1, none), s.2 = none := by
  induction slots generalizing i with
  | nil => simp
  | cons t slots ih =>
    rw [List.forall_mem_cons] at h
    cases i with
    | zero => simpa using h.2
    | succ i => simpa using ⟨h.1, by simpa using ih i h.2⟩

/-- The index map of one account knows exactly the positions of its slots. -/
def IdxFor (slots : List (Key × Option Bytes)) (idx : Key → Option Nat) : Prop :=
  ∀ slot i, idx slot = some i ↔ (slots.map Prod.fst)[i]? = some slot

theorem IdxFor.nodup {slots : List (Key × Option Bytes)} {idx : Key → Option Nat}
    (h : IdxFor slots idx) : (slots.map Prod.fst).Nodup := by
  rw [List.nodup_iff_getElem?_ne_getElem?]
  intro i j hij hj heq
  have hjs : (slots.map Prod.fst)[j]? = some ((slots.map Prod.fst)[j]) := List.getElem?_eq_getElem hj
  have hi' := (h _ i).2 (heq.trans hjs)
  have hj' := (h _ j).2 hjs
  rw [hi'] at hj'
  exact absurd (Option.some.inj hj') (by omega)

theorem IdxFor.notMem {slots : List (Key × Option Bytes)} {idx : Key → Option Nat}
    (h : IdxFor slots idx) {slot : Key} (hs : idx slot = none) : slot ∉ slots.map Prod.fst := by
  intro hin
  obtain ⟨i, hi⟩ := List.mem_iff_getElem?.1 hin
  rw [(h slot i).2 hi] at hs
  cases hs

theorem clearIdx_of_ne (key k : Key) (slots : List (Key × Option Bytes))
    (idx : Key → Key → Option Nat) (h : k ≠ key) : clearIdx key slots idx k = idx k := by
  induction slots generalizing idx with
  | nil => rfl
  | cons s slots ih =>
    show clearIdx key slots (Function.update idx key _) k = idx k
    rw [ih, Function.update_of_ne h]

theorem clearIdx_self (key slot : Key) (slots : List (Key × Option Bytes))
    (idx : Key → Key → Option Nat) :
    clearIdx key slots idx key slot =
      if slot ∈ slots.map Prod.fst then none else idx key slot := by
  induction slots generalizing idx with
  | nil => simp [clearIdx]
  | cons s slots ih =>
    show clearIdx key slots (Function.update idx key _) key slot = _
    rw [ih, Function.update_self]
    by_cases hs : slot = s.1
    · subst hs
      simp
    · rw [Function.update_of_ne hs]
      simp only [List.map_cons, List.mem_cons, hs, false_or]

/-- Draining an account's slots leaves its index empty. -/
theorem IdxFor.clear {slots : List (Key × Option Bytes)} {idx : Key → Key → Option Nat}
    {key : Key} (h : IdxFor slots (idx key)) : IdxFor [] (clearIdx key slots idx key) := by
  intro slot i
  rw [clearIdx_self]
  split
  · simp
  next hn =>
    constructor
    · intro hi
      exact absurd (List.mem_of_getElem? ((h slot i).1 hi)) hn
    · simp

section
variable [Keccak]

omit [Keccak] in
theorem noteSlot_of_ne (key k slot : Key) (v : Option Bytes) (upd : NetUpdate)
    (idx : Key → Key → Option Nat) (hk : k ≠ key) :
    (noteSlot key slot v upd idx).2 k = idx k := by
  unfold noteSlot
  split
  · rfl
  · exact Function.update_of_ne hk _ _

omit [Keccak] in
theorem noteSlot_written (key slot : Key) (v : Option Bytes) (upd : NetUpdate)
    (idx : Key → Key → Option Nat) (h : IdxFor upd.slots (idx key)) :
    SlotWritten upd (noteSlot key slot v upd idx).1 slot v := by
  unfold noteSlot
  split
  next i hi =>
    refine ⟨rfl, rfl, by rw [modify_map_fst]; exact h.nodup, fun f => ?_, ?_⟩
    · exact overlay_modify _ _ _ _ _ ((h slot i).1 hi) h.nodup
    · rintro rfl hall
      exact modify_all_none _ _ hall
  next hnone =>
    have hnew := h.notMem hnone
    refine ⟨rfl, rfl, ?_, fun f => overlay_append _ _ _ _, ?_⟩
    · rw [List.map_append]
      exact List.nodup_append.2 ⟨h.nodup, by simp, by
        rintro k hk _ hs rfl
        have hks : k = slot := List.mem_singleton.1 hs
        exact hnew (hks ▸ hk)⟩
    · rintro rfl hall s hs
      rcases List.mem_append.1 hs with hs | hs
      · exact hall s hs
      · rw [List.mem_singleton.1 hs]

omit [Keccak] in
theorem noteSlot_idx (key slot : Key) (v : Option Bytes) (upd : NetUpdate)
    (idx : Key → Key → Option Nat) (h : IdxFor upd.slots (idx key)) :
    IdxFor (noteSlot key slot v upd idx).1.slots ((noteSlot key slot v upd idx).2 key) := by
  unfold noteSlot
  split
  next i hi =>
    intro s j
    rw [modify_map_fst]
    exact h s j
  next hnone =>
    intro s j
    show Function.update idx key _ key s = _ ↔ (List.map Prod.fst (upd.slots ++ [(slot, v)]))[j]? = _
    rw [Function.update_self, List.map_append]
    by_cases hs : s = slot
    · subst hs
      rw [Function.update_self, List.getElem?_append]
      split
      next hj =>
        rw [← h s j, hnone]
        simp only [List.length_map] at hj
        simp
        omega
      next hj =>
        simp only [List.length_map] at hj ⊢
        constructor
        · rintro hij
          obtain rfl := Option.some.inj hij
          simp
        · intro hg
          have hlt := (List.getElem?_eq_some_iff.1 hg).1
          simp only [List.map_cons, List.map_nil, List.length_singleton] at hlt
          exact congrArg some (by omega)
    · rw [Function.update_of_ne hs, h s j, List.getElem?_append]
      split
      · rfl
      next hj =>
        rw [List.getElem?_eq_none (by omega)]
        constructor
        · simp
        · intro hg
          have hmem := List.mem_of_getElem? hg
          simp only [List.map_cons, List.map_nil, List.mem_singleton] at hmem
          exact absurd hmem hs

/-- One operation keeps the account's invariant and the index maps of all
accounts. -/
theorem normalizeOp_inv {a x : Option Acct} {p : List StateOp} {upd : NetUpdate} {key : Key}
    {idx : Key → Key → Option Nat} (h : NormInv a p upd x) (hi : IdxFor upd.slots (idx key))
    (op : StateOp) :
    NormInv a (p ++ [op]) (normalizeOp key op upd idx).1 (execAcct x op) ∧
      IdxFor (normalizeOp key op upd idx).1.slots ((normalizeOp key op upd idx).2 key) := by
  cases op with
  | setAccount nonce balance codeHash => exact ⟨h.setAccount nonce balance codeHash, hi⟩
  | deleteAccount => exact ⟨h.deleteAccount, hi.clear⟩
  | wipeStorage => exact ⟨h.wipeStorage, hi.clear⟩
  | setStorage slot value =>
    simp only [normalizeOp]
    split
    next hd =>
      -- the same as setting the empty account first
      have h0 := h.setAccount 0 0 Eth.EMPTY_CODE_HASH
      have hx : execAcct (execAcct x (.setAccount 0 0 Eth.EMPTY_CODE_HASH))
          (.setStorage slot value) = execAcct x (.setStorage slot value) := by
        rw [h.deleted_none hd]
        rfl
      have hw := noteSlot_written key slot (some value)
        { upd with account := .set 0 0 Eth.EMPTY_CODE_HASH } idx hi
      have h1 := h0.setStorage hw (by simp)
      rw [hx] at h1
      obtain ⟨o, ho, hs⟩ := h.exists_setsAccount (by simp [hd])
      exact ⟨h1.congr_ops (by rw [hw.account]; simp) ⟨o, List.mem_append_left _ ho, hs⟩,
        noteSlot_idx _ _ _ _ _ hi⟩
    next hd => exact ⟨h.setStorage (noteSlot_written _ _ _ _ _ hi) hd, noteSlot_idx _ _ _ _ _ hi⟩
  | deleteStorage slot =>
    simp only [normalizeOp]
    split
    next hd => exact ⟨h.deleteStorage_deleted slot hd, hi⟩
    next hd =>
      exact ⟨h.deleteStorage (noteSlot_written _ _ _ _ _ hi) hd, noteSlot_idx _ _ _ _ _ hi⟩

theorem normalizeOp_of_ne (key k : Key) (op : StateOp) (upd : NetUpdate)
    (idx : Key → Key → Option Nat) (hk : k ≠ key) :
    (normalizeOp key op upd idx).2 k = idx k := by
  cases op with
  | setAccount => rfl
  | deleteAccount => exact clearIdx_of_ne _ _ _ _ hk
  | wipeStorage => exact clearIdx_of_ne _ _ _ _ hk
  | setStorage slot value => exact noteSlot_of_ne _ _ _ _ _ _ hk
  | deleteStorage slot =>
    simp only [normalizeOp]
    split
    · rfl
    · exact noteSlot_of_ne _ _ _ _ _ _ hk

/-! ## Whole blocks -/

/-- The entry an account has in the map, if any. -/
def NormState.entry (st : NormState) (k : Key) : NetUpdate := (st.map[k]?).getD .fresh

/-- The fold's invariant: `NormInv` and the index map, for every account. -/
def BlockInv (l : Logical) (ops : List (Key × StateOp)) (st : NormState) : Prop :=
  ∀ k, NormInv (l k) (opsOn k ops) (st.entry k) (execBlock l ops k) ∧
    IdxFor (st.entry k).slots (st.slotIdx k)

theorem entry_normalizeStep_self (st : NormState) (e : Key × StateOp) :
    (normalizeStep st e).entry e.1 = (normalizeOp e.1 e.2 (st.entry e.1) st.slotIdx).1 := by
  simp [normalizeStep, NormState.entry]

theorem entry_normalizeStep_of_ne (st : NormState) (e : Key × StateOp) (k : Key) (h : k ≠ e.1) :
    (normalizeStep st e).entry k = st.entry k := by
  simp only [normalizeStep, NormState.entry, Std.TreeMap.getElem?_insert]
  rw [if_neg]
  simpa [Std.LawfulEqCmp.compare_eq_iff_eq] using h.symm

theorem BlockInv.step {l : Logical} {ops : List (Key × StateOp)} {st : NormState}
    (h : BlockInv l ops st) (e : Key × StateOp) :
    BlockInv l (ops ++ [e]) (normalizeStep st e) := by
  intro k
  have hexec : execBlock l (ops ++ [e]) k = execOp (execBlock l ops) e k := by
    simp [execBlock, List.foldl_append]
  by_cases hk : k = e.1
  · subst hk
    obtain ⟨hn, hi⟩ := normalizeOp_inv (h e.1).1 (h e.1).2 e.2
    have hops : opsOn e.1 (ops ++ [e]) = opsOn e.1 ops ++ [e.2] := by simp [opsOn]
    rw [entry_normalizeStep_self, hexec, hops, execOp, Function.update_self]
    exact ⟨hn, hi⟩
  · have hops : opsOn k (ops ++ [e]) = opsOn k ops := by simp [opsOn, Ne.symm hk]
    rw [entry_normalizeStep_of_ne _ _ _ hk, hexec, hops, execOp, Function.update_of_ne hk]
    refine ⟨(h k).1, ?_⟩
    show IdxFor _ ((normalizeOp e.1 e.2 _ st.slotIdx).2 k)
    rw [normalizeOp_of_ne _ _ _ _ _ hk]
    exact (h k).2

theorem blockInv (l : Logical) (ops : List (Key × StateOp)) :
    BlockInv l ops (ops.foldl normalizeStep .empty) := by
  induction ops using List.reverseRecOn with
  | nil =>
    intro k
    have he : NormState.empty.entry k = .fresh := by simp [NormState.entry, NormState.empty]
    refine ⟨?_, ?_⟩
    · show NormInv (l k) [] (NormState.empty.entry k) (l k)
      rw [he]
      exact NormInv.init (l k)
    · show IdxFor (NormState.empty.entry k).slots _
      rw [he]
      simp [IdxFor, NormState.empty, NetUpdate.fresh]
  | append_singleton ops e ih =>
    rw [List.foldl_append]
    exact ih.step e

theorem applyNets_of_notMem (nets : List (Key × NetUpdate)) (l : Logical) (k : Key)
    (h : ∀ e ∈ nets, e.1 ≠ k) : applyNets l nets k = l k := by
  induction nets generalizing l with
  | nil => rfl
  | cons e nets ih =>
    rw [List.forall_mem_cons] at h
    show applyNets (Function.update l e.1 _) nets k = l k
    rw [ih _ h.2, Function.update_of_ne h.1.symm]

theorem applyNets_of_mem (nets : List (Key × NetUpdate)) (l : Logical) (k : Key) (upd : NetUpdate)
    (hn : nets.Pairwise fun a b => a.1 ≠ b.1) (h : (k, upd) ∈ nets) :
    applyNets l nets k = upd.apply (l k) := by
  induction nets generalizing l with
  | nil => cases h
  | cons e nets ih =>
    rw [List.pairwise_cons] at hn
    show applyNets (Function.update l e.1 (e.2.apply (l e.1))) nets k = _
    rcases List.mem_cons.1 h with rfl | h
    · rw [applyNets_of_notMem _ _ _ fun e he => (hn.1 e he).symm, Function.update_self]
    · rw [ih _ hn.2 h, Function.update_of_ne (Ne.symm (hn.1 _ h))]

/-- Applying the net updates of the map acts on each account by its entry. -/
theorem applyNets_toList (l : Logical) (st : NormState) (k : Key) :
    applyNets l st.map.toList k = (st.entry k).apply (l k) := by
  have hn : st.map.toList.Pairwise fun a b => a.1 ≠ b.1 :=
    st.map.distinct_keys_toList.imp fun h heq => h (by simp [heq])
  cases he : st.map[k]? with
  | some upd =>
    have hmem := Std.TreeMap.mem_toList_iff_getElem?_eq_some.2 he
    rw [applyNets_of_mem _ _ _ _ hn hmem, NormState.entry, he]
    rfl
  | none =>
    rw [applyNets_of_notMem, NormState.entry, he]
    · rfl
    · rintro e hmem rfl
      rw [Std.TreeMap.mem_toList_iff_getElem?_eq_some.1 hmem] at he
      cases he

/-- Account `k` is missing before the block, the block never sets or deletes it,
it writes slots of it, and every such write is wiped or cleared again. -/
def VanishingWrites (l : Logical) (ops : List (Key × StateOp)) (k : Key) : Prop :=
  l k = none ∧ (∀ o ∈ opsOn k ops, o.setsAccount = false) ∧
    (∃ s v, StateOp.setStorage s v ∈ opsOn k ops) ∧ ∀ s, ¬ WriteSurvives (opsOn k ops) s

theorem NormInv.apply_eq_iff {a x : Option Acct} {p : List StateOp} {upd : NetUpdate}
    (h : NormInv a p upd x) :
    upd.apply a = x ↔ ¬ (a = none ∧ (∀ o ∈ p, o.setsAccount = false) ∧
      (∃ s v, StateOp.setStorage s v ∈ p) ∧ ∀ s, ¬ WriteSurvives p s) := by
  have hvan : (a = none ∧ upd.account = .keep ∧ ∀ s ∈ upd.slots, s.2 = none) →
      upd.apply a = none := by
    rintro ⟨rfl, hk, hs⟩
    have hany : (upd.slots.any fun s => s.2.isSome) = false := by simpa using hs
    have hb : upd.base none = none := by simp [NetUpdate.base, hk, execAcct]
    rw [NetUpdate.apply_eq, hb, foldl_applySlot, hany]
    rfl
  constructor
  · rintro rfl ⟨ha, hset, hw, hlive⟩
    have hk := h.keep_iff.2 hset
    have hsome := (h.written ha hk).2 hw
    have hslots : ∀ s ∈ upd.slots, s.2 = none := by
      have hnone : ¬ (upd.slots.any fun s => s.2.isSome) = true := by
        rw [any_isSome_iff_overlay _ h.nodup]
        rintro ⟨s, hs⟩
        exact hlive s ((h.live ha hk s).1 hs)
      simpa using hnone
    rw [hvan ⟨ha, hk, hslots⟩] at hsome
    cases hsome
  · intro hno
    rcases h.agree with hx | ⟨ha, hk, hs, hx⟩
    · exact hx.symm
    · refine absurd ⟨ha, h.keep_iff.1 hk, ?_, fun s hws => ?_⟩ hno
      · exact (h.written ha hk).1 (by rw [hx]; rfl)
      · have hov := (h.live ha hk s).2 hws
        rw [overlay_none_of_all_none _ hs] at hov
        exact hov rfl

/-- **Normalisation is sequential execution** exactly when no account is
created only by writes that the block clears again. -/
theorem normalizeBlock_eq_iff (l : Logical) (ops : List (Key × StateOp)) :
    applyNets l (normalizeBlock ops) = execBlock l ops ↔ ¬ ∃ k, VanishingWrites l ops k := by
  have hinv := blockInv l ops
  have hk : ∀ k, applyNets l (normalizeBlock ops) k = execBlock l ops k ↔
      ¬ VanishingWrites l ops k := by
    intro k
    rw [normalizeBlock, applyNets_toList]
    exact (hinv k).1.apply_eq_iff
  constructor
  · rintro heq ⟨k, hv⟩
    exact (hk k).1 (congrFun heq k) hv
  · intro hno
    funext k
    exact (hk k).2 fun hv => hno ⟨k, hv⟩

end

/-- A slot of a missing account is written and cleared again: the normalised
block leaves the account missing, sequentially it is created. -/
theorem normalizeBlock_vanishing_write :
    let _ : Keccak := ⟨fun _ => .fill 0⟩
    let k := Bytes32.fill 1
    let s := Bytes32.fill 2
    let ops := [(k, StateOp.setStorage s [5]), (k, StateOp.deleteStorage s)]
    (applyNets (fun _ => none) (normalizeBlock ops) k).isNone ∧
      (execBlock (fun _ => none) ops k).isSome ∧
      applyNets (fun _ => none) (normalizeBlock ops) ≠ execBlock (fun _ => none) ops := by
  intro _ k s ops
  have hnone : (applyNets (fun _ => none) (normalizeBlock ops) k).isNone := by decide +kernel
  have hsome : (execBlock (fun _ => none) ops k).isSome := by decide +kernel
  refine ⟨hnone, hsome, fun heq => ?_⟩
  rw [heq, Option.isNone_iff_eq_none] at hnone
  rw [hnone] at hsome
  cases hsome

end FlatMpt
