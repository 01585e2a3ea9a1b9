import FlatMpt.Blocks

/-!
# The inverse of a net update

The operations that the update of an account pushes, as a list fixed by the leaf before
it.  Carried out on the account after the update they bring back the one before, without
the slots that the update wipes and writes again: for those the inverse sets the old value
and then deletes the slot.

    NetUpdate.inverse
    inverse_runs            -- what the operations leave of the account
    normalize_inverse       -- the same for their normalised form
-/

namespace FlatMpt

open Prog
open Radix (Tree)

section
variable [Keccak]

/-! ## Operations on one account -/

/-- The operations of a list, whatever their keys, on one account. -/
def runOps (inv : Inverse) (a : Option Acct) : Option Acct := inv.foldl (fun a e => execAcct a e.2) a

theorem runOps_append (inv inv' : Inverse) (a : Option Acct) :
    runOps (inv ++ inv') a = runOps inv' (runOps inv a) := List.foldl_append

/-- The inverse of the slot writes on storage that reads `f`. -/
def undoSlots (key : Key) (slots : List (Key × Option Bytes)) (f : Key → Option Bytes) : Inverse :=
  slots.flatMap fun s => undoSlot key s.1 (f s.1) s.2

/-- The account's fields, if the update sets them. -/
def restoreFields (key : Key) (nonce : UInt64) (balance : U256) (codeHash : Hash) :
    AccountOutcome → Inverse
  | .set .. => [(key, .setAccount nonce balance codeHash)]
  | _ => []

/-- The slots of an account, set again. -/
def restoreSlots (key : Key) (slots : List (Key × Bytes)) : Inverse :=
  slots.map fun s => (key, .setStorage s.1 s.2)

/-- What an update pushes, from the leaf before it; of a leaf that is a value only,
nothing is said. -/
def NetUpdate.inverse (key : Key) (upd : NetUpdate) : Option StateLeaf → Inverse
  | none => if upd.creates then [(key, .deleteAccount)] else []
  | some (.raw _) => []
  | some (.account nonce balance codeHash s) =>
    let slots := (StateLeaf.account nonce balance codeHash s).slots
    if upd.account = .delete then restoreAccount key nonce balance codeHash slots
    else (if upd.wipe then (key, .wipeStorage) :: restoreSlots key slots else []) ++
      restoreFields key nonce balance codeHash upd.account ++
      undoSlots key upd.slots (if upd.wipe then fun _ => none else s.get)

/-- The update wipes the storage and writes the slot. -/
def NetUpdate.rewrites (upd : NetUpdate) (slot : Key) : Bool :=
  upd.wipe && decide (upd.account ≠ .delete) &&
    upd.slots.any fun s => decide (s.1 = slot) && s.2.isSome

/-- The account without the slots of `p`. -/
def Acct.without (a : Acct) (p : Key → Bool) : Acct :=
  { a with slots := fun slot => if p slot then none else a.slots slot }

omit [Keccak] in
/-- Nothing is lost if no slot of `p` is there. -/
theorem Acct.without_eq_self {a : Acct} {p : Key → Bool} (h : ∀ slot, p slot = true → a.slots slot = none) :
    a.without p = a := by
  have hslots : (fun slot => if p slot then none else a.slots slot) = a.slots := by
    funext slot
    split
    next hs => exact (h slot hs).symm
    next => rfl
  unfold without
  rw [hslots]

omit [Keccak] in
theorem Acct.without_none {a : Acct} {p : Key → Bool} (h : ∀ slot, p slot = false) : a.without p = a :=
  without_eq_self fun slot hs => by
    rw [h] at hs
    cases hs

/-! ## Slots -/

omit [Keccak] in
/-- With distinct slots each has the value written. -/
theorem overlay_of_mem {slots : List (Key × Option Bytes)} {s : Key × Option Bytes} (hs : s ∈ slots)
    (hn : (slots.map Prod.fst).Nodup) (f : Key → Option Bytes) : overlay slots f s.1 = s.2 := by
  induction slots generalizing f with
  | nil => cases hs
  | cons e slots ih =>
    rw [List.map_cons, List.nodup_cons] at hn
    rcases List.mem_cons.mp hs with rfl | hs
    · exact (overlay_of_notMem slots _ _ hn.1).trans (Function.update_self ..)
    · exact ih hs hn.2 _

/-- A slot whose write is undone by an operation of its own. -/
def undone (slots : List (Key × Option Bytes)) (f : Key → Option Bytes) (slot : Key) : Bool :=
  slots.any fun s => decide (s.1 = slot) && ((f slot).isSome || s.2.isSome)

omit [Keccak] in
theorem undone_eq_false {slots : List (Key × Option Bytes)} {f : Key → Option Bytes} {slot : Key}
    (h : slot ∉ slots.map Prod.fst) : undone slots f slot = false := by
  refine List.any_eq_false.mpr fun s hs => ?_
  have hne : s.1 ≠ slot := fun he => h (List.mem_map.mpr ⟨s, hs, he⟩)
  simp [hne]

/-- One operation of `undoSlots`, or none. -/
theorem runOps_undoSlot (key : Key) (a : Acct) (g : Key → Option Bytes) (s : Key × Option Bytes)
    (prior : Option Bytes) :
    runOps (undoSlot key s.1 prior s.2) (some { a with slots := g }) = some { a with
      slots := fun slot => if decide (s.1 = slot) && (prior.isSome || s.2.isSome) then prior else g slot } := by
  obtain ⟨x, v⟩ := s
  have hupdate (w : Option Bytes) : Function.update g x w = fun slot => if x = slot then w else g slot := by
    funext slot
    rw [Function.update_apply]
    simp only [eq_comm]
  cases prior with
  | some p =>
    show some { a with slots := Function.update g x (some p) } = _
    rw [hupdate]
    simp
  | none =>
    cases v with
    | some v =>
      show some { a with slots := Function.update g x none } = _
      rw [hupdate]
      simp
    | none => simp [undoSlot, runOps]

theorem runOps_undoSlots (key : Key) (a : Acct) (slots : List (Key × Option Bytes))
    (f g : Key → Option Bytes) :
    runOps (undoSlots key slots f) (some { a with slots := g }) =
      some { a with slots := fun slot => if undone slots f slot then f slot else g slot } := by
  induction slots generalizing g with
  | nil => rfl
  | cons s slots ih =>
    have hcons : undoSlots key (s :: slots) f = undoSlot key s.1 (f s.1) s.2 ++ undoSlots key slots f := rfl
    rw [hcons, runOps_append, runOps_undoSlot key a g s, ih]
    congr 3
    funext slot
    have hu : undone (s :: slots) f slot =
        (decide (s.1 = slot) && ((f slot).isSome || s.2.isSome) || undone slots f slot) := rfl
    rw [hu]
    by_cases hx : s.1 = slot
    · subst hx
      generalize (decide (s.1 = s.1) && ((f s.1).isSome || s.2.isSome)) = c
      cases c <;> cases undone slots f s.1 <;> rfl
    · rw [decide_eq_false hx, Bool.false_and, Bool.false_and, Bool.false_or, if_neg Bool.false_ne_true]

/-- On the storage that the writes leave, the inverse restores what they found. -/
theorem runOps_undoSlots_overlay (key : Key) (a : Acct) {slots : List (Key × Option Bytes)}
    (hn : (slots.map Prod.fst).Nodup) (f : Key → Option Bytes) :
    runOps (undoSlots key slots f) (some { a with slots := overlay slots f }) =
      some { a with slots := f } := by
  rw [runOps_undoSlots]
  congr 3
  funext slot
  by_cases hmem : slot ∈ slots.map Prod.fst
  · obtain ⟨s, hs, rfl⟩ := List.mem_map.mp hmem
    split
    next => rfl
    next hu =>
      have hnone : ¬((f s.1).isSome || s.2.isSome) = true := fun h =>
        hu (List.any_eq_true.mpr ⟨s, hs, by simp [h]⟩)
      rw [overlay_of_mem hs hn]
      simp only [Bool.or_eq_true, not_or, Bool.not_eq_true, Option.isSome_eq_false_iff,
        Option.isNone_iff_eq_none] at hnone
      rw [hnone.1, hnone.2]
  · rw [undone_eq_false hmem, if_neg Bool.false_ne_true, overlay_of_notMem _ _ _ hmem]

/-- Slots set again. -/
theorem runOps_restoreSlots (key : Key) (a : Acct) {entries : List (Key × Bytes)}
    {f g : Key → Option Bytes} (hf : ∀ e ∈ entries, f e.1 = some e.2)
    (hg : ∀ slot, g slot = f slot ∨ ∃ v, (slot, v) ∈ entries) :
    runOps (restoreSlots key entries) (some { a with slots := g }) = some { a with slots := f } := by
  induction entries generalizing g with
  | nil =>
    have hfg : g = f := funext fun slot => (hg slot).resolve_right fun ⟨_, h⟩ => nomatch h
    rw [hfg]
    rfl
  | cons e entries ih =>
    refine ih (g := Function.update g e.1 (some e.2)) (fun e he => hf e (List.mem_cons_of_mem _ he))
      fun slot => ?_
    rw [Function.update_apply]
    split
    next hs =>
      rw [hs]
      exact .inl (hf e List.mem_cons_self).symm
    next hs =>
      refine (hg slot).imp_right ?_
      rintro ⟨v, hv⟩
      rcases List.mem_cons.mp hv with rfl | hv
      · exact absurd rfl hs
      · exact ⟨v, hv⟩

omit [Keccak] in
theorem mem_slots {nonce : UInt64} {balance : U256} {codeHash : Hash} {s : Storage} {slot : Key} {v : Bytes} :
    (slot, v) ∈ (StateLeaf.account nonce balance codeHash s).slots ↔ s.get slot = some v := by
  unfold StateLeaf.slots
  rw [List.mem_map]
  constructor
  · rintro ⟨⟨p, w⟩, hmem, heq⟩
    cases heq
    have hget := Tree.mem_toList.mp hmem
    obtain ⟨k, rfl⟩ := exists_key (s.canon.get_length hget)
    rw [List.nil_append, keyOf_keyNibbles]
    exact hget
  · intro h
    exact ⟨(keyNibbles slot, v), Tree.mem_toList.mpr h, by rw [keyed, List.nil_append, keyOf_keyNibbles]⟩

/-- The slots of a leaf, set again on empty storage. -/
theorem runOps_restoreSlots_leaf (key : Key) (a : Acct) (nonce : UInt64) (balance : U256)
    (codeHash : Hash) (s : Storage) :
    runOps (restoreSlots key (StateLeaf.account nonce balance codeHash s).slots)
      (some { a with slots := fun _ => none }) = some { a with slots := s.get } := by
  refine runOps_restoreSlots key a (fun e he => mem_slots.mp he) fun slot => ?_
  cases hs : s.get slot with
  | none => exact .inl rfl
  | some v => exact .inr ⟨v, mem_slots.mpr hs⟩

/-! ## The inverse -/

variable {key : Key} {upd : NetUpdate} {o : Option StateLeaf}

/-- The fields that an update leaves. -/
def AccountOutcome.fields (out : AccountOutcome) (a : Acct) : Acct :=
  match out with
  | .set nonce balance codeHash => { a with nonce, balance, codeHash }
  | _ => a

theorem NetUpdate.apply_some (hd : upd.account ≠ .delete) (a : Acct) :
    upd.apply (some a) = some { upd.account.fields a with
      slots := overlay upd.slots (if upd.wipe then fun _ => none else a.slots) } := by
  obtain ⟨wipe, account, slots⟩ := upd
  have hbase : NetUpdate.base ⟨wipe, account, slots⟩ (some a) =
      some { account.fields a with slots := if wipe then fun _ => none else a.slots } := by
    cases account with
    | delete => exact absurd rfl hd
    | _ => cases wipe <;> rfl
  rw [NetUpdate.apply_eq, hbase, foldl_applySlot_some]

theorem runOps_restoreFields (key : Key) (out : AccountOutcome) (hd : out ≠ .delete) (a : Acct) (f : Key → Option Bytes) :
    runOps (restoreFields key a.nonce a.balance a.codeHash out) (some { out.fields a with slots := f }) =
      some { a with slots := f } := by
  cases out with
  | delete => exact absurd rfl hd
  | _ => rfl

omit [Keccak] in
theorem NetUpdate.rewrites_delete (hd : upd.account = .delete) (slot : Key) : upd.rewrites slot = false := by
  unfold rewrites
  rw [decide_eq_false (not_not.mpr hd), Bool.and_false, Bool.false_and]

omit [Keccak] in
theorem NetUpdate.rewrites_wipe (hd : upd.account ≠ .delete) (hw : upd.wipe = true) (slot : Key) :
    upd.rewrites slot = undone upd.slots (fun _ => none) slot := by
  unfold rewrites undone
  rw [hw, decide_eq_true hd]
  rfl

/-- **The inverse of an update** leaves the account before it, without the slots that the
update wiped and wrote again. -/
theorem inverse_runs (hupd : upd.Fits) (hn : (upd.slots.map Prod.fst).Nodup) (ho : Structured o) :
    runOps (upd.inverse key o) (upd.apply (acctOf o)) = (acctOf o).map (·.without upd.rewrites) := by
  obtain rfl | ⟨n, b, c, s, rfl⟩ := ho.cases
  · show runOps (if upd.creates then _ else _) _ = none
    cases hcr : upd.creates with
    | true => rfl
    | false => exact (netRel_none hcr structured_none).2.symm
  · have hacct : acctOf (some (.account n b c s)) = some ⟨n, b, c, s.get⟩ := rfl
    rw [hacct, Option.map_some]
    unfold NetUpdate.inverse
    dsimp only
    by_cases hd : upd.account = .delete
    · rw [if_pos hd, NetUpdate.apply_delete hupd hd, Acct.without_none (upd.rewrites_delete hd)]
      exact runOps_restoreSlots_leaf key ⟨n, b, c, fun _ => none⟩ n b c s
    · rw [if_neg hd, upd.apply_some hd, runOps_append, runOps_append]
      have hfields := runOps_restoreFields key upd.account hd ⟨n, b, c, s.get⟩
      cases hw : upd.wipe with
      | false =>
        rw [if_neg Bool.false_ne_true, if_neg Bool.false_ne_true, Acct.without_none fun slot => by
          rw [NetUpdate.rewrites, hw, Bool.false_and, Bool.false_and]]
        exact (congrArg _ (hfields _)).trans (runOps_undoSlots_overlay key ⟨n, b, c, s.get⟩ hn s.get)
      | true =>
        rw [if_pos rfl, if_pos rfl]
        have hslots := runOps_restoreSlots_leaf key (upd.account.fields ⟨n, b, c, s.get⟩) n b c s
        have hwipe : runOps ((key, .wipeStorage) :: restoreSlots key (StateLeaf.account n b c s).slots)
            (some { upd.account.fields ⟨n, b, c, s.get⟩ with slots := overlay upd.slots fun _ => none }) =
            some { upd.account.fields ⟨n, b, c, s.get⟩ with slots := s.get } := hslots
        rw [hwipe]
        refine (congrArg _ (hfields _)).trans ((runOps_undoSlots key ⟨n, b, c, s.get⟩ _ _ s.get).trans ?_)
        unfold Acct.without
        simp only [upd.rewrites_wipe hd hw]

/-! ## Normalised -/

/-- The operations of a list on one account. -/
def Inverse.on (inv : Inverse) (key : Key) : Inverse := inv.filter fun e => e.1 = key

omit [Keccak] in
theorem opsOn_eq (key : Key) (ops : List (Key × StateOp)) :
    opsOn key ops = (Inverse.on ops key).map Prod.snd := by
  induction ops with
  | nil => rfl
  | cons e ops ih =>
    unfold opsOn Inverse.on at ih ⊢
    by_cases he : e.1 = key
    · rw [List.filterMap_cons, if_pos he, List.filter_cons_of_pos (by simpa using he), List.map_cons, ih]
    · rw [List.filterMap_cons, if_neg he, List.filter_cons_of_neg (by simpa using he), ih]

theorem execBlock_at (l : Logical) (ops : List (Key × StateOp)) (key : Key) :
    execBlock l ops key = runOps (Inverse.on ops key) (l key) := by
  induction ops generalizing l with
  | nil => rfl
  | cons e ops ih =>
    refine (ih (execOp l e)).trans ?_
    unfold Inverse.on execOp
    by_cases he : e.1 = key
    · rw [List.filter_cons_of_pos (by simpa using he), ← he, Function.update_self]
      rfl
    · rw [List.filter_cons_of_neg (by simpa using he), Function.update_of_ne (Ne.symm he)]

/-- The normalised operations on an account do what the operations do, if it is there or
none of them writes a slot before the account is set. -/
theorem normalize_at {l : Logical} {ops : List (Key × StateOp)}
    (h : l key = none → (∀ e ∈ Inverse.on ops key, e.2.setsAccount = false) →
      ∀ slot v, (key, .setStorage slot v) ∉ Inverse.on ops key) :
    applyNets l (normalizeBlock ops) key = runOps (Inverse.on ops key) (l key) := by
  rw [normalizeBlock, applyNets_toList, ← execBlock_at]
  refine ((blockInv l ops) key).1.apply_eq_iff.mpr ?_
  rintro ⟨hnone, hsets, ⟨slot, v, hmem⟩, -⟩
  rw [opsOn_eq] at hsets hmem
  obtain ⟨⟨k, op⟩, he, rfl⟩ := List.mem_map.mp hmem
  obtain rfl : k = key := by simpa using (List.mem_filter.mp he).2
  exact h hnone (fun e he => hsets _ (List.mem_map_of_mem he)) slot v he

/-- An account that the inverse writes slots of is there, or set first. -/
theorem inverse_sets (ho : Structured o) (hnone : upd.apply (acctOf o) = none)
    (hsets : ∀ e ∈ upd.inverse key o, e.2.setsAccount = false) (slot : Key) (v : Bytes) :
    (key, .setStorage slot v) ∉ upd.inverse key o := by
  obtain rfl | ⟨n, b, c, s, rfl⟩ := ho.cases
  · unfold NetUpdate.inverse
    cases upd.creates with
    | true => simp
    | false => exact List.not_mem_nil
  · have hacct : acctOf (some (.account n b c s)) = some ⟨n, b, c, s.get⟩ := rfl
    by_cases hd : upd.account = .delete
    · have hmem : (key, .setAccount n b c) ∈ upd.inverse key (some (.account n b c s)) := by
        show _ ∈ if upd.account = .delete then _ else _
        rw [if_pos hd]
        exact List.mem_cons_of_mem _ List.mem_cons_self
      cases hsets _ hmem
    · rw [hacct, upd.apply_some hd] at hnone
      cases hnone

/-- The normalised inverse leaves what the inverse does. -/
theorem normalize_inverse {l : Logical} {inv : Inverse} (hupd : upd.Fits)
    (hn : (upd.slots.map Prod.fst).Nodup) (ho : Structured o) (hl : l key = upd.apply (acctOf o))
    (hinv : inv.on key = upd.inverse key o) :
    applyNets l (normalizeBlock inv) key = (acctOf o).map (·.without upd.rewrites) := by
  rw [normalize_at (fun hnone hsets => by
    rw [hinv] at hsets ⊢
    exact inverse_sets ho (hl.symm.trans hnone) hsets), hinv, hl]
  exact inverse_runs hupd hn ho

end

end FlatMpt
