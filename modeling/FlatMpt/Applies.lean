import FlatMpt.NetRecord

/-!
# A net update on the frontier

Applying one account's net update leaves a frontier that shows the tree with the leaf
at the account's key updated, whatever form the account and its neighbours have:
records split and promoted, accounts demoted, survivors re-homed.

    applySlots_shows, applyPromoted_shows   -- a promoted account
    applyRamGroup_shows                     -- the descent, by induction on the frontier
-/

namespace FlatMpt

open Prog
open Radix (Tree commonPrefix)
open Radix.Tree (Canon)

section
variable [Keccak] {env : Env} {q rest path : List Nibble} {t : Tree 16 StateLeaf}
  {key : Key} {upd : NetUpdate} {ram : Bool} {v : Option StateLeaf}

/-! ## Creation -/

theorem NetRel.creates (hupd : upd.Fits) (h : NetRel upd none v) (hc : upd.creates = true) :
    v.isSome := by
  cases v with
  | some a => rfl
  | none =>
    have hnone : upd.apply none = none := (h structured_none).2.symm
    rw [NetUpdate.apply_eq, foldl_applySlot] at hnone
    obtain ⟨wipe, account, slots⟩ := upd
    cases account with
    | keep =>
      rw [if_pos (by rw [Bool.or_eq_true]; exact .inr hc)] at hnone
      cases hnone
    | set n b c =>
      rw [if_pos (by rw [Bool.or_eq_true]; exact .inl rfl)] at hnone
      cases hnone
    | delete =>
      rw [NetUpdate.creates, hupd.normal rfl] at hc
      cases hc

theorem netRel_none (hc : upd.creates = false) : NetRel upd none none := by
  refine fun h => ⟨h, ?_⟩
  show none = upd.apply none
  rw [NetUpdate.apply_eq, foldl_applySlot]
  obtain ⟨wipe, account, slots⟩ := upd
  cases account with
  | keep =>
    have hbase : NetUpdate.base ⟨wipe, .keep, slots⟩ none = none := by cases wipe <;> rfl
    rw [hbase, if_neg (Bool.not_eq_true _ ▸ hc)]
  | set n b c => cases hc
  | delete => exact (if_neg (Bool.not_eq_true _ ▸ hc)).symm

omit [Keccak] in
/-- A tree with one key. -/
theorem Puts.eq_leaf {α : Type} {u t' : Tree 16 α} {a : α} (hlen : q.length + rest.length = 64)
    (hu : ∀ p, p ≠ rest → u.get p = none) (hc : Canon (64 - q.length) t')
    (hp : Puts u rest (some a) t') : t' = .leaf rest a := by
  refine hc.ext_get (.leaf (by omega)) fun p => ?_
  rw [hp, Tree.get_leaf]
  split
  next => rfl
  next h => exact hu p h

theorem finishLeaf_shows {a : StateLeaf} (hlen : q.length + rest.length = 64) (ha : a.Short) :
    Yields (finishChild env ram ⟨q, stateLeaf.node rest a⟩)
      (ShowsSlot stateKind q · (.leaf rest a)) :=
  finishChild_shows lifts_state ram (.leaf (by omega) hlen ha) nofun rfl

/-- A slot for an account that may not have been created. -/
def Creates (upd : NetUpdate) (q rest : List Nibble) (s : RamSlot) : Prop :=
  ∃ v, NetRel upd none v ∧ ((v = none ∧ s = .none) ∨
    ∃ a, v = some a ∧ ShowsSlot stateKind q s (.leaf rest a))

theorem creationChild_shows (hupd : upd.Fits) (hk : keyNibbles key = q ++ rest) :
    Yields (creationChild env ram q key upd) fun r => Creates upd q rest r.1 := by
  have hlen := key_length hk
  have hempty : stateKind.Records q .empty := ⟨by omega, .empty, nofun⟩
  unfold creationChild
  rw [hk, List.drop_left]
  have hnet : Yields (.pure (applyNetInRecord .empty rest key upd)) fun r =>
      ∃ v, RecordPut q .empty rest v r.1 ∧ NetRel upd none v := by
    rintro ⟨node, out, inv⟩ ha
    obtain ⟨v, hout, hrel, -⟩ := applyNetInRecord_step hempty hlen hupd ha
    exact ⟨v, hout.put, hrel⟩
  refine hnet.attempt ?_
  rintro ⟨node, out, inv⟩ ⟨v, ⟨t', hnode, hr, hp⟩, hrel⟩
  dsimp only at hnode ⊢
  cases v with
  | none =>
    have ht' : t' = .empty := hr.canon.eq_empty_of_get fun p => by
      rw [hp]
      split <;> rfl
    subst ht' hnode
    exact .ok ⟨none, hrel, .inl ⟨rfl, rfl⟩⟩
  | some a =>
    have ht' : t' = .leaf rest a := hp.eq_leaf hlen (fun _ _ => rfl) hr.canon
    subst ht'
    have ha : a.Short := hr.fit rest a (by rw [Tree.get_leaf, if_pos rfl])
    split
    · exact absurd hnode.symm (toNode_ne_empty stateLeaf nofun)
    · subst hnode
      exact (finishLeaf_shows hlen ha).attempt fun s hs => .ok ⟨some a, hrel, .inr ⟨a, rfl, hs⟩⟩

/-! ## Promoted accounts -/

omit [Keccak] in
theorem puts_leaf_self {α : Type} (a b : α) : Puts (.leaf path a) path (some b) (.leaf path b) := by
  intro p
  rw [Tree.get_leaf, Tree.get_leaf]
  split <;> rfl

theorem demoteAccount_shows {a : StateLeaf} (hupd : upd.Fits) (hdel : upd.account ≠ .delete)
    (hk : keyNibbles key = q ++ path) (ha : a.Short) :
    Yields (demoteAccount env ram q key (stateLeaf.node path a) upd) fun r =>
      ∃ b, ShowsSlot stateKind q r.1 (.leaf path b) ∧ b.Short ∧ NetRel upd (some a) (some b) := by
  have hlen := key_length hk
  have hrec : stateKind.Records q (.leaf path a) := .leaf (by omega) hlen ha
  unfold demoteAccount
  rw [hk, List.drop_left]
  have hnet : Yields (.pure (applyNetInRecord (stateLeaf.node path a) path key upd)) fun r =>
      ∃ b, r.1 = stateLeaf.node path b ∧ b.Short ∧ NetRel upd (some a) (some b) := by
    rintro ⟨node, out, inv⟩ hn
    obtain ⟨v, hout, hrel, hstays⟩ := applyNetInRecord_step hrec hlen hupd hn
    obtain ⟨t', rfl, hr, hp⟩ := hout.put
    rw [Tree.get_leaf, if_pos rfl] at hrel hstays
    obtain ⟨b, rfl⟩ := Option.isSome_iff_exists.mp (hstays hdel rfl)
    obtain rfl : t' = .leaf path b :=
      hp.eq_leaf hlen (fun p hp => by rw [Tree.get_leaf, if_neg hp]) hr.canon
    exact ⟨b, rfl, hr.fit path b (by rw [Tree.get_leaf, if_pos rfl]), hrel⟩
  refine hnet.attempt ?_
  rintro ⟨node, out, inv⟩ ⟨b, hnode, hb, hrel⟩
  dsimp only at hnode ⊢
  subst hnode
  exact (finishLeaf_shows hlen hb).attempt fun s hs => .ok ⟨b, hs, hb, hrel⟩

/-- What the slots of an update leave of a promoted account. -/
def SlotsApplied (q path : List Nibble) (n : UInt64) (b : U256) (c : Hash) (s : Storage)
    (storage : RamNode) (slots : List (Key × Option Bytes)) (slot : RamSlot) (changed : Bool) : Prop :=
  ∃ a, ShowsSlot stateKind q slot (.leaf path a) ∧ Structured (some a) ∧
    acctOf (some a) = slots.foldl applySlot (some ⟨n, b, c, s.get⟩) ∧
    (changed = false → slot = .account path n b c storage ∧ a = .account n b c s)

theorem applySlots_shows {n : UInt64} {b : U256} {c : Hash} (slots : List (Key × Option Bytes))
    (hshort : ∀ s ∈ slots, ∀ v, s.2 = some v → ShortValue v) (hk : keyNibbles key = q ++ path)
    {s : Storage} (hs : s.Short) (ht : s.tree ≠ .empty) {storage : RamNode}
    (h : Shows (storageKind key) [] storage s.tree) :
    Updates (applySlots env ram q key path n b c slots storage) fun slot r =>
      SlotsApplied q path n b c s storage slots slot r.1 := by
  have hlen := key_length hk
  induction slots generalizing s storage with
  | nil =>
    exact .ok ⟨_, showsSlot_account hk (by omega) hs ht h, (fun _ h => by cases h), rfl, fun _ => ⟨rfl, rfl⟩⟩
  | cons e slots ih =>
    obtain ⟨slot, value⟩ := e
    have hshort' := fun s hs => hshort s (List.mem_cons_of_mem _ hs)
    have hfold (w : Option Bytes) : (((slot, w) :: slots).foldl applySlot (some ⟨n, b, c, s.get⟩)) =
        slots.foldl applySlot (some ⟨n, b, c, (s.put slot w).get⟩) := by
      rw [Storage.get_put_eq]
      cases w <;> rfl
    have hnext {w : Option Bytes} {storage' : RamNode} {inv : Inverse} (hs' : (s.put slot w).Short)
        (ht' : (s.put slot w).tree ≠ .empty)
        (h' : Shows (storageKind key) [] storage' (s.put slot w).tree) :
        Updates (afterSlot true inv (applySlots env ram q key path n b c slots storage'))
          fun r out => SlotsApplied q path n b c s storage ((slot, w) :: slots) r out.1 := by
      refine (ih hshort' hs' ht' h').map ?_
      rintro r out ⟨a, hshow, hst, hacct, -⟩
      exact ⟨a, hshow, hst, (hfold w).symm ▸ hacct, fun h => by cases h⟩
    unfold applySlots
    refine (show Yields (ramGet storage (keyNibbles slot) 0) (fun _ => True) from
      fun _ _ => trivial).attemptOn fun prior _ => ?_
    cases value with
    | some value =>
      have hv : ShortValue value := hshort _ List.mem_cons_self value rfl
      refine (insertStorage_shows hv ht h).thenUpd (fun _ _ => .error _ _) ?_
      rintro storage' _ ⟨h', ht'⟩
      refine hnext (hs.put slot ?_) ht' h'
      rintro _ ⟨⟩
      exact hv
    | none =>
      refine (deleteStorage_shows ht h).thenUpd (fun _ _ => .error _ _) ?_
      intro storage' out hout
      have hdemote (hout : (s.get slot).isSome ∧
          Yields (demotedStorage out) (· = (s.put slot none).toNode)) :
          Updates (attempt (demotedStorage out) (fun e => (RamSlot.none, .error e)) fun storageNode =>
            attempt (demoteAccount env ram q key (accountNode path n b c storageNode)
                ⟨false, .keep, slots⟩) (fun e => (.none, .error e)) fun x =>
            .pure (x.1, .ok (true, undoSlot key slot prior none ++ x.2))) fun r out =>
          SlotsApplied q path n b c s storage ((slot, none) :: slots) r out.1 := by
        refine hout.2.attemptOn ?_
        rintro _ rfl
        have hfits : NetUpdate.Fits ⟨false, .keep, slots⟩ := ⟨(fun h => by cases h), hshort'⟩
        refine (demoteAccount_shows hfits (fun h => by cases h) hk (a := .account n b c (s.put slot none))
          (hs.put slot fun _ h => by cases h)).attemptOn ?_
        rintro ⟨r, inv'⟩ ⟨a, hshow, -, hrel⟩
        obtain ⟨hst, hacct⟩ := hrel fun _ h => by cases h
        exact .ok ⟨a, hshow, hst, (hfold none).symm ▸ hacct, fun h => by cases h⟩
      cases out with
      | absent =>
        obtain ⟨rfl, hnone⟩ := hout
        have hself : s.put slot none = s := by rw [← hnone, Storage.put_self]
        refine (ih hshort' hs ht h).map ?_
        rintro r out ⟨a, hshow, hst, hacct, hsame⟩
        exact ⟨a, hshow, hst, (hfold none).symm ▸ hself.symm ▸ hacct, hsame⟩
      | changed => exact hnext (hs.put slot fun _ h => by cases h) hout.2.2 hout.2.1
      | removed => exact hdemote hout
      | collapsed edge survivor => exact hdemote hout

theorem captureStorage_any (n : UInt64) (b : U256) (c : Hash) (storage : RamNode) :
    Yields (captureStorage key n b c storage) fun _ => True := fun _ _ => trivial

/-- What an update leaves of a slot. -/
def AppliesSlot (upd : NetUpdate) (q : List Nibble) (t : Tree 16 StateLeaf) (rest : List Nibble)
    (s s' : RamSlot) (out : RamDelete) : Prop :=
  ∃ v, NetRel upd (t.get rest) v ∧ OutcomeSlot stateKind q t rest v s s' out

theorem applyPromoted_shows {n : UInt64} {b : U256} {c : Hash} (hupd : upd.Fits)
    (hk : keyNibbles key = q ++ path) {s : Storage} (hs : s.Short) (ht : s.tree ≠ .empty)
    {storage : RamNode} (h : Shows (storageKind key) [] storage s.tree) :
    Updates (applyPromoted env ram q key upd path n b c storage) fun slot r =>
      AppliesSlot upd q (.leaf path (.account n b c s)) path (.account path n b c storage) slot r.1 := by
  have hget : (Tree.leaf path (StateLeaf.account n b c s) : Tree 16 StateLeaf).get path =
      some (.account n b c s) := by
    rw [Tree.get_leaf, if_pos rfl]
  unfold applyPromoted AppliesSlot
  rw [hget]
  by_cases hdel : upd.account = .delete
  · rw [if_pos hdel]
    refine (captureStorage_any n b c storage).attemptOn fun inv _ => .ok ⟨none, fun _ => ?_, rfl, ?_⟩
    · rw [NetUpdate.apply_delete hupd hdel]
      exact ⟨structured_none, rfl⟩
    · intro p
      rw [Tree.get_empty, Tree.get_leaf]
      split <;> rfl
  · rw [if_neg hdel]
    by_cases hwipe : upd.wipe = true
    · rw [if_pos hwipe]
      refine (captureStorage_any n b c storage).attemptOn fun inv _ => ?_
      have hfits : NetUpdate.Fits ⟨false, upd.account, upd.slots⟩ := ⟨hupd.normal, hupd.short⟩
      refine (demoteAccount_shows hfits hdel hk (a := .account n b c .empty)
        Storage.short_empty).attemptOn ?_
      rintro ⟨slot, inv'⟩ ⟨a, hshow, -, hrel⟩
      refine .ok ⟨some a, fun _ => ⟨(hrel nofun).1, ?_⟩, _, by exact nofun, hshow, puts_leaf_self _ _⟩
      rw [(hrel nofun).2]
      unfold NetUpdate.apply
      rw [hwipe]
      rfl
    · rw [if_neg hwipe]
      have happly (x : Option Acct) : upd.apply x = upd.slots.foldl applySlot (outcomeOn upd.account x) := by
        unfold NetUpdate.apply
        rw [if_neg hwipe]
        rfl
      have hchanged {slot : RamSlot} {a : StateLeaf} (hshow : ShowsSlot stateKind q slot (.leaf path a))
          (hst : Structured (some a))
          (hacct : acctOf (some a) = upd.apply (acctOf (some (.account n b c s)))) :
          ∃ v, NetRel upd (some (.account n b c s)) v ∧ OutcomeSlot stateKind q
            (.leaf path (.account n b c s)) path v (.account path n b c storage) slot .changed :=
        ⟨some a, fun _ => ⟨hst, hacct⟩, _, by exact nofun, hshow, puts_leaf_self _ _⟩
      dsimp only
      cases hacc : upd.account with
      | keep =>
        rw [hacc] at happly
        dsimp only
        refine Updates.map (R := fun slot r => SlotsApplied q path n b c s storage upd.slots slot r.1)
          ((applySlots_shows upd.slots hupd.short hk hs ht h).map fun _ _ h => h) ?_
        rintro slot ⟨changed, inv⟩ ⟨a, hshow, hst, hacct, hsame⟩
        cases changed with
        | true => exact hchanged hshow hst (hacct.trans (happly _).symm)
        | false =>
          obtain ⟨rfl, rfl⟩ := hsame rfl
          exact ⟨_, fun _ => ⟨hst, hacct.trans (happly _).symm⟩, rfl, hget.symm⟩
      | delete => exact absurd hacc hdel
      | set n' b' c' =>
        rw [hacc] at happly
        dsimp only
        refine Updates.map (R := fun slot r => r.1 = true ∧
            ∃ x, SlotsApplied q path n' b' c' s storage upd.slots slot x)
          ((applySlots_shows upd.slots hupd.short hk hs ht h).map fun _ _ h => ⟨rfl, _, h⟩) ?_
        rintro slot ⟨changed, inv⟩ ⟨hc, _, a, hshow, hst, hacct, -⟩
        dsimp only at hc ⊢
        rw [if_pos hc]
        exact hchanged hshow hst (hacct.trans (happly (acctOf (some (.account n b c s)))).symm)

/-! ## The descent -/

/-- What an update leaves of a node. -/
def AppliesNode (upd : NetUpdate) (q : List Nibble) (t : Tree 16 StateLeaf) (rest : List Nibble)
    (n n' : RamNode) (out : RamDelete) : Prop :=
  ∃ v, NetRel upd (t.get rest) v ∧ Outcome stateKind q t rest v n n' out

/-- An update of a record, as its slot reports it. -/
theorem yields_applyRecord (h : stateKind.Records q t) (hupd : upd.Fits)
    (hk : keyNibbles key = q ++ rest) {depth : Nat} (hd : depth = q.length) :
    Yields (.pure (applyNetInRecord (toNode stateLeaf t) ((keyNibbles key).drop depth) key upd)) fun r =>
      ∃ v, NetRel upd (t.get rest) v ∧ NodeOutcome stateKind q t rest v r.1 r.2.1 := by
  have hlen := key_length hk
  rw [hd, hk, List.drop_left]
  rintro ⟨node, out, inv⟩ hr
  obtain ⟨v, hout, hrel, -⟩ := applyNetInRecord_step h hlen hupd hr
  refine ⟨v, hrel, ?_⟩
  obtain ⟨t', hnode, hr', hp⟩ := hout.put
  have hempty (he : node = .empty) : t' = .empty := by
    by_contra hne
    exact toNode_ne_empty stateLeaf hne (hnode.symm.trans he)
  cases out with
  | absent => exact hout.absent rfl
  | changed =>
    refine ⟨t', fun he => hout.changed rfl ?_, hnode, hr', hp⟩
    rw [hnode, he]
    rfl
  | removed =>
    rw [hempty (hout.removed rfl)] at hp
    exact hp

theorem creates_some (hupd : upd.Fits) (hc : upd.creates = true) {s : RamSlot}
    (h : Creates upd q rest s) : ∃ a, NetRel upd none (some a) ∧
      ShowsSlot stateKind q s (.leaf rest a) := by
  obtain ⟨v, hrel, ⟨rfl, -⟩ | ⟨a, rfl, hs⟩⟩ := h
  · cases hrel.creates hupd hc
  · exact ⟨a, hrel, hs⟩

mutual

theorem applyRamGroup_shows (hupd : upd.Fits) (n : RamNode) {q rest : List Nibble}
    {t : Tree 16 StateLeaf} (h : Shows stateKind q n t)
    (hc : q = [] ∨ t ≠ .empty ∧ Canon (64 - q.length) t) (hk : keyNibbles key = q ++ rest) :
    Updates (applyRamGroup env n q key upd ram) fun n' r => AppliesNode upd q t rest n n' r.1 := by
  have hlen := key_length hk
  match n with
  | .empty =>
    cases h
    obtain rfl | ⟨ht, -⟩ := hc
    · unfold applyRamGroup
      cases hcr : upd.creates with
      | false => exact .ok ⟨none, netRel_none hcr, rfl, rfl⟩
      | true =>
        rw [if_neg (by simp)]
        cases rest with
        | nil => cases hlen
        | cons i r =>
          have hi : (keyNibbles key)[([] : List Nibble).length]? = some i := by
            rw [hk]
            rfl
          rw [hi]
          refine (creationChild_shows hupd (q := [i]) hk).attemptOn ?_
          rintro ⟨s, inv⟩ hcreate
          obtain ⟨a, hrel, hs⟩ := creates_some hupd hcr hcreate
          have hsome : s.isSome = true := hs.isSome
          dsimp only
          rw [if_pos hsome]
          refine .ok ⟨some a, hrel, .branch (Function.update (fun _ => .empty) i (.leaf r a)), nofun,
            .branch (by decide) (showsSlot_update (fun _ _ => .none) hs) (.none _), ?_,
            fun h => absurd rfl h⟩
          have hget := Tree.get_branch_update (fun _ => .empty) i _ fun p => Tree.get_leaf r p a
          exact fun p => (hget p).trans (by cases p <;> rfl)
    · exact absurd rfl ht
  | .extension path child hash =>
    cases h with
    | @extension _ _ _ t _ hp hb hcc hch hh =>
    have ht : t ≠ .empty := by
      cases hb
      simp
    have hqp : (q ++ path).length < 64 := isBranch_length_lt hb hcc
    have hext : Canon (64 - q.length) (.ext path t) :=
      .ext hp (by rw [List.length_append] at hqp ⊢; omega) hb hcc
    unfold applyRamGroup
    rw [hk, List.drop_left]
    obtain ⟨c, p, r, rfl, rfl, hcm, hne⟩ := Radix.commonPrefix_spec path rest
    dsimp only
    rw [hcm]
    cases p with
    | nil =>
      rw [List.append_nil] at hp hqp hcc hch hext ⊢
      rw [if_neg (by omega)]
      refine (applyRamGroup_shows hupd child hch (.inr ⟨ht, hcc⟩)
        (by rw [hk, List.append_assoc])).thenUpd (fun _ _ => .error _ _) ?_
      rintro n' ⟨out, inv⟩ ⟨v, hrel, hout⟩
      refine (afterExtension_outcome hp hb hcc hout).pure_map ?_
      rintro n'' out' ⟨hout', -⟩
      exact ⟨v, by rwa [Tree.get_ext_append], hout'⟩
    | cons i p =>
      rw [if_pos (by simp)]
      have hoff : r.head? ≠ some i → (Tree.ext (c ++ i :: p) t).get (c ++ r) = none := fun hr => by
        rw [← Tree.prepend_ext_child hext]
        refine Tree.get_prepend_of_off fun k hk => hr ?_
        rw [List.append_assoc] at hk
        rw [List.append_cancel_left hk]
        rfl
      have hhead : r.head? ≠ some i := by
        intro hr
        obtain ⟨r', rfl⟩ : ∃ r', r = i :: r' := by
          cases r with
          | nil => cases hr
          | cons j r => exact ⟨r, by rw [Option.some.inj hr]⟩
        exact hne i p i r' rfl rfl rfl
      cases hcr : upd.creates with
      | false =>
        refine .ok ⟨none, ?_, rfl, (hoff hhead).symm⟩
        rw [hoff hhead]
        exact netRel_none hcr
      | true =>
        rw [if_neg (by simp), List.drop_left, List.drop_left]
        cases r with
        | nil => exact .error _ _
        | cons j r =>
          have hij : i ≠ j := hne i p j r rfl rfl
          have hk' : keyNibbles key = (q ++ c ++ [j]) ++ r := by
            rw [hk]
            simp only [List.append_assoc, List.singleton_append]
          have hpos : (q ++ c ++ [i]) ++ p = q ++ (c ++ i :: p) := by simp
          have hslot : ShowsSlot stateKind (q ++ c ++ [i]) (.ram (wrapPath p child))
              (Tree.prepend p t) := by
            have hc' := (hpos.symm ▸ hcc : Canon (64 - ((q ++ c ++ [i]) ++ p).length) t)
            refine .ram (hc'.prepend p ?_) (by simpa using ht)
              (wrapPath_shows hb hc' (hpos.symm ▸ hch))
            rw [← hpos] at hqp
            simp only [List.length_append] at hqp ⊢
            omega
          rw [List.take_left]
          refine (creationChild_shows hupd hk').attemptOn ?_
          rintro ⟨leaf, inv⟩ hcreate
          obtain ⟨a, hrel, hs⟩ := creates_some hupd hcr hcreate
          obtain ⟨t', hn, hput, hc'⟩ := fork_shows hij ht hcc hqp.le hlen hslot hs (i :: p)
          rw [Tree.prepend_ext_child hext] at hput hc'
          refine .ok ⟨some a, ?_, t', hput.ne_empty, hn, hput, hc'⟩
          rwa [hoff hhead]
  | .branch slots hash =>
    cases h with
    | @branch _ _ ts _ hq hs hh =>
    unfold applyRamGroup
    cases rest with
    | nil =>
      rw [List.length_nil] at hlen
      omega
    | cons i r =>
      have hi : (keyNibbles key)[q.length]? = some i := by
        rw [hk, List.getElem?_append_right (le_refl _), Nat.sub_self]
        rfl
      rw [hi]
      refine (applyGroupChild_shows hupd (slots i) (hs i) (by simp)
        (by rw [hk, List.append_assoc]; rfl)).thenUpd (fun _ _ => .error _ _) ?_
      rintro s ⟨out, inv⟩ ⟨v, hrel, hout⟩
      refine (afterChild_outcome hq hs hout).pure_map ?_
      rintro n' out' ⟨hout', -⟩
      exact ⟨v, hrel, hout'⟩

theorem applyGroupChild_shows (hupd : upd.Fits) (s : RamSlot) {q rest : List Nibble}
    {t : Tree 16 StateLeaf} (h : ShowsSlot stateKind q s t) (hq : q ≠ [])
    (hk : keyNibbles key = q ++ rest) :
    Updates (applyGroupChild env s q key upd ram) fun s' r => AppliesSlot upd q t rest s s' r.1 := by
  have hlen := key_length hk
  match s with
  | .none =>
    cases h
    unfold applyGroupChild
    cases hcr : upd.creates with
    | false => exact .ok ⟨none, netRel_none hcr, rfl, rfl⟩
    | true =>
      rw [if_neg (by simp)]
      refine (creationChild_shows hupd hk).attemptOn ?_
      rintro ⟨s, inv⟩ hcreate
      obtain ⟨a, hrel, hs⟩ := creates_some hupd hcr hcreate
      have hsome : s.isSome = true := hs.isSome
      dsimp only
      rw [if_pos hsome]
      exact .ok ⟨some a, hrel, _, by exact nofun, hs, fun p => Tree.get_leaf rest p a⟩
  | .ram sub =>
    cases h with
    | ram hc ht h =>
      unfold applyGroupChild
      refine (applyRamGroup_shows hupd sub h (.inr ⟨ht, hc⟩) hk).thenUpd (fun _ _ => .error _ _) ?_
      rintro sub' ⟨out, inv⟩ ⟨v, hrel, hout⟩
      match out with
      | .absent =>
        obtain ⟨rfl, hv⟩ := hout
        exact .ok ⟨v, hrel, rfl, hv⟩
      | .changed =>
        obtain ⟨t', ht', hn, hp, hc'⟩ := hout
        exact .ok ⟨v, hrel, t', ht', .ram (hc' ht hc) ht' hn, hp⟩
      | .removed => exact .ok ⟨v, hrel, rfl, hout⟩
      | .collapsed edge survivor =>
        obtain ⟨t', ht', he, hl, hs, hp⟩ := hout
        refine (rehomeChild_shows ram he ht' hl hs).attemptOn fun s hs => .ok ?_
        exact ⟨v, hrel, _, mt Tree.prepend_eq_empty.mp ht', hs, hp⟩
  | .mem bytes root =>
    cases h with
    | mem h =>
      unfold applyGroupChild
      refine (yields_record h).attemptOn ?_
      rintro _ rfl
      refine (yields_applyRecord h.records hupd hk (stateKind.localDepth hq h.length)).attemptOn ?_
      rintro ⟨node, out, inv⟩ ⟨v, hrel, hout⟩
      match out with
      | .absent => exact .ok ⟨v, hrel, rfl, hout⟩
      | .changed =>
        obtain ⟨t', ht', rfl, hr, hp⟩ := hout
        exact (finishChild_shows lifts_state true hr ht' rfl).attemptOn fun s hs =>
          .ok ⟨v, hrel, t', ht', hs, hp⟩
      | .removed => exact .ok ⟨v, hrel, rfl, hout⟩
  | .disk ptr root =>
    cases h with
    | disk h =>
      unfold applyGroupChild
      refine (yields_readRecord h).attemptOn ?_
      rintro _ rfl
      refine (yields_applyRecord h.records hupd hk rfl).attemptOn ?_
      rintro ⟨node, out, inv⟩ ⟨v, hrel, hout⟩
      match out with
      | .absent => exact .ok ⟨v, hrel, rfl, hout⟩
      | .changed =>
        obtain ⟨t', ht', rfl, hr, hp⟩ := hout
        exact .step ((finishChild_shows lifts_state _ hr ht' rfl).attemptOn fun s hs =>
          .ok ⟨v, hrel, t', ht', hs, hp⟩)
      | .removed => exact .step (.ok ⟨v, hrel, rfl, hout⟩)
  | .account path nonce balance codeHash storage =>
    cases h with
    | @account _ _ _ _ _ _ a hp ha hl =>
    unfold applyGroupChild
    rw [hk, List.drop_left]
    by_cases hpath : rest = path
    · subst hpath
      rw [if_neg (not_not.mpr rfl)]
      obtain ⟨account, s, hf, rfl, ht, h⟩ := hl
      obtain rfl : account = key := keyNibbles_injective (hf.symm.trans (List.append_assoc _ _ _ ▸ hk.symm))
      exact applyPromoted_shows hupd hk ha ht h
    · have hget : (Tree.leaf path a).get rest = none := by
        rw [Tree.get_leaf, if_neg hpath]
      rw [if_pos hpath]
      cases hcr : upd.creates with
      | false =>
        refine .ok ⟨none, ?_, rfl, hget.symm⟩
        rw [hget]
        exact netRel_none hcr
      | true =>
        rw [if_neg (by simp)]
        obtain ⟨c, p, r, rfl, rfl, hcm, hne⟩ := Radix.commonPrefix_spec path rest
        dsimp only
        rw [hcm, List.drop_left, List.drop_left]
        cases p with
        | nil => exact .error _ _
        | cons i p =>
          cases r with
          | nil => exact .error _ _
          | cons j r =>
            have hij : i ≠ j := hne i p j r rfl rfl
            have hk' : keyNibbles key = (q ++ (c ++ [j])) ++ r := by
              rw [hk]
              simp only [List.append_assoc, List.singleton_append]
            have htake : (c ++ j :: r).take (c.length + 1) = c ++ [j] := by
              rw [List.take_length_add_append]
              rfl
            have hleaf : Tree.prepend (c ++ i :: p) (.leaf [] a) = .leaf (c ++ i :: p) a := by
              rw [Tree.prepend, List.append_nil]
            have hpos : (q ++ c ++ [i]) ++ p = q ++ (c ++ i :: p) := by simp
            have hslot : ShowsSlot stateKind (q ++ c ++ [i]) (.account p nonce balance codeHash storage)
                (Tree.prepend p (.leaf [] a)) := by
              rw [Tree.prepend, List.append_nil]
              refine .account ?_ ha (hpos ▸ hl)
              simp only [List.length_append, List.length_cons, List.length_nil] at hp ⊢
              omega
            rw [htake]
            refine (creationChild_shows hupd hk').attemptOn ?_
            rintro ⟨leaf, inv⟩ hcreate
            obtain ⟨b, hrel, hs⟩ := creates_some hupd hcr hcreate
            rw [← List.append_assoc] at hs
            have hlen' : (q ++ (c ++ i :: p)).length = 64 := by
              rw [List.length_append]
              omega
            have hleaf0 : Canon (64 - (q ++ (c ++ i :: p)).length) (.leaf [] a : Tree 16 StateLeaf) :=
              .leaf (by rw [hlen']; rfl)
            obtain ⟨t', hn, hput, hc'⟩ := fork_shows hij (by simp) hleaf0 hlen'.le hlen hslot hs (i :: p)
            rw [hleaf] at hput hc'
            refine .ok ⟨some b, ?_, t', hput.ne_empty, .ram (hc' nofun (.leaf hp)) hput.ne_empty hn, hput⟩
            rwa [hget]

end

end

end FlatMpt
