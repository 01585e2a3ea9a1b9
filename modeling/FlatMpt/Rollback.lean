import FlatMpt.SlotWalks
import FlatMpt.Undo

/-!
# Rollback

The inverse that a block returns, for every form in which an account is kept, and what
applying it leaves.

    applyNetInRecord_inverse, applyRamGroup_inverse, applyNet_inverse
    rollback_exact
-/

namespace FlatMpt

open Prog
open Radix (Tree commonPrefix)
open Radix.Tree (Canon)

section
variable [Keccak] {env : Env} {q rest path : List Nibble} {t : Tree 16 StateLeaf} {node node' : Node}
  {o : Option StateLeaf} {key : Key} {upd : NetUpdate} {ram : Bool}

/-! ## Inside a record -/

omit [Keccak] in
theorem undoSlots_cons (s : Key × Option Bytes) (slots : List (Key × Option Bytes)) (f : Key → Option Bytes) :
    undoSlots key (s :: slots) f = undoSlot key s.1 (f s.1) s.2 ++ undoSlots key slots f := rfl

omit [Keccak] in
/-- A write to a slot that is not in the list does not matter to the rest. -/
theorem undoSlots_update {slots : List (Key × Option Bytes)} {slot : Key} (h : slot ∉ slots.map Prod.fst)
    (f : Key → Option Bytes) (v : Option Bytes) :
    undoSlots key slots (Function.update f slot v) = undoSlots key slots f := by
  unfold undoSlots
  refine List.flatMap_congr fun s hs => ?_
  rw [Function.update_of_ne fun he => h (List.mem_map.mpr ⟨s, hs, he⟩)]

theorem RecordPut.getStorage (h : RecordPut q t rest o node) (slot : Key) :
    nodeGetStorage node rest slot = o.bind (·.slot slot) := by
  obtain ⟨u, rfl, -, hp⟩ := h
  rw [nodeGetStorage_toNode, hp.get_self]

theorem RecordPut.priorAccount (h : RecordPut q t rest o node) {prior : Option Eth.Account}
    (hp : nodePriorAccount node rest = .ok prior) :
    (o = none → prior = none) ∧ ∀ n b c s, o = some (.account n b c s) →
      ∃ root, prior = some ⟨n, b, root, c⟩ := by
  obtain ⟨u, rfl, -, hput⟩ := h
  rw [nodePriorAccount_toNode, hput.get_self] at hp
  constructor
  · rintro rfl
    cases hp
    rfl
  · rintro n b c s rfl
    dsimp only [StateLeaf.value, accountRlp] at hp
    rw [Eth.Account.decode_rlp] at hp
    cases hp
    exact ⟨_, rfl⟩

theorem slotsInRecord_created (slots : List (Key × Option Bytes)) {node node' : Node} {changed : Bool}
    {inv : Inverse} (hs : slotsInRecord node rest key true slots = .ok (node', changed, inv)) : inv = [] := by
  induction slots generalizing node changed inv with
  | nil =>
    cases hs
    rfl
  | cons s slots ih =>
    obtain ⟨⟨node1, c1, i1⟩, h1, hs⟩ := bind_ok hs
    obtain ⟨⟨node2, c2, i2⟩, h2, hs⟩ := bind_ok hs
    cases hs
    rw [ih h2, List.append_nil]
    obtain ⟨slot, value⟩ := s
    cases value with
    | some value =>
      obtain ⟨_, -, h1⟩ := bind_ok h1
      cases h1
      rfl
    | none =>
      obtain ⟨_, -, h1⟩ := bind_ok h1
      cases h1
      rfl

theorem slotInRecord_inverse {changed : Bool} {s : Key × Option Bytes} {inv : Inverse}
    (hs : slotInRecord node rest key false s = .ok (node', changed, inv)) :
    inv = undoSlot key s.1 (nodeGetStorage node rest s.1) s.2 := by
  obtain ⟨slot, value⟩ := s
  cases value with
  | some value =>
    obtain ⟨_, -, hs⟩ := bind_ok hs
    cases hs
    rfl
  | none =>
    obtain ⟨_, -, hs⟩ := bind_ok hs
    cases hs
    rfl

omit [Keccak] in
theorem slot_of_acct {a : Acct} (ho : Structured o) (ha : acctOf o = some a) (slot : Key) :
    o.bind (·.slot slot) = a.slots slot := by
  obtain rfl | ⟨n, b, c, s, rfl⟩ := ho.cases
  · cases ha
  · cases ha
    rfl

theorem slotsInRecord_inverse (slots : List (Key × Option Bytes)) {node node' : Node}
    {o : Option StateLeaf} {changed : Bool} {inv : Inverse} {a : Acct}
    (h : RecordPut q t rest o node) (hlen : q.length + rest.length = 64)
    (hshort : ∀ s ∈ slots, ∀ v, s.2 = some v → ShortValue v) (hn : (slots.map Prod.fst).Nodup)
    (ho : Structured o) (ha : acctOf o = some a)
    (hs : slotsInRecord node rest key false slots = .ok (node', changed, inv)) :
    inv = undoSlots key slots a.slots := by
  induction slots generalizing node o a changed inv with
  | nil =>
    cases hs
    rfl
  | cons s slots ih =>
    obtain ⟨⟨node1, c1, i1⟩, h1, hs⟩ := bind_ok hs
    obtain ⟨⟨node2, c2, i2⟩, h2, hs⟩ := bind_ok hs
    cases hs
    rw [List.map_cons, List.nodup_cons] at hn
    obtain ⟨v, hv, hstep⟩ := slotInRecord_step h hlen (hshort s List.mem_cons_self) h1
    obtain ⟨hst, hacct⟩ := hstep.acct ho
    have hnext : acctOf v = some { a with slots := Function.update a.slots s.1 s.2 } := by
      rw [hacct, ha]
      obtain ⟨slot, value⟩ := s
      cases value <;> rfl
    rw [undoSlots_cons, slotInRecord_inverse h1, h.getStorage, slot_of_acct ho ha,
      ih hv (fun s hs => hshort s (List.mem_cons_of_mem _ hs)) hn.2 hst hnext h2,
      undoSlots_update hn.1]

theorem wipeInRecord_inverse {prior : Option Eth.Account} {changed : Bool} {inv : Inverse}
    (h : RecordPut q t rest o node) (hlen : q.length + rest.length = 64)
    (hw : wipeInRecord node rest key prior = .ok (node', changed, inv)) :
    inv = if prior.isNone then [] else (key, .wipeStorage) :: restoreSlots key (o.elim [] StateLeaf.slots) := by
  unfold wipeInRecord at hw
  rw [h.collect hlen] at hw
  dsimp only [bind, Except.bind] at hw
  split at hw
  · cases hd : recordNodeDelete node rest .wipeStorage with
    | error e =>
      rw [hd] at hw
      cases hw
    | ok r =>
      rw [hd] at hw
      cases hw
      rfl
  · cases hw
    rfl

theorem setInRecord_inverse {prior : Option Eth.Account} {out : AccountOutcome} {changed : Bool}
    {inv : Inverse} (hout : out ≠ .delete)
    (hs : setInRecord node rest key prior out = .ok (node', changed, inv)) :
    inv = prior.elim [] fun p => restoreFields key p.nonce p.balance p.codeHash out := by
  cases out with
  | delete => exact absurd rfl hout
  | keep =>
    cases hs
    cases prior <;> rfl
  | set n b c =>
    obtain ⟨_, -, hs⟩ := bind_ok hs
    cases hs
    cases prior <;> rfl

theorem NetRel.isSome_iff (hupd : upd.Fits) {v : Option StateLeaf} (h : NetRel upd none v) :
    v.isSome = upd.creates := by
  cases hc : upd.creates with
  | true => exact h.creates hupd hc
  | false =>
    obtain ⟨hst, hacct⟩ := h structured_none
    have hnone : acctOf v = none := hacct.trans (netRel_none hc structured_none).2.symm
    obtain rfl | ⟨n, b, c, s, rfl⟩ := hst.cases
    · rfl
    · cases hnone

/-- **The inverse that a record pushes** is that of the leaf at the key. -/
theorem applyNetInRecord_inverse {out : NodeDelete} {inv : Inverse} (h : stateKind.Records q t)
    (hlen : q.length + rest.length = 64) (hupd : upd.Fits) (hn : (upd.slots.map Prod.fst).Nodup)
    (ho : Structured (t.get rest))
    (ha : applyNetInRecord (toNode stateLeaf t) rest key upd = .ok (node, out, inv)) :
    inv = upd.inverse key (t.get rest) := by
  have hself : RecordPut q t rest (t.get rest) _ := recordPut_self h
  obtain ⟨prior, hprior, ha⟩ := bind_ok ha
  obtain ⟨hnone, hsome⟩ := hself.priorAccount hprior
  by_cases hdel : upd.account = .delete
  · rw [if_pos hdel] at ha
    obtain hg | ⟨n, b, c, s, hg⟩ := ho.cases
    · obtain rfl := hnone hg
      cases ha
      rw [hg]
      have hc : upd.creates = false := by
        unfold NetUpdate.creates
        rw [hdel, hupd.normal hdel]
        rfl
      show [] = if upd.creates then _ else _
      rw [hc, if_neg Bool.false_ne_true]
    · obtain ⟨root, rfl⟩ := hsome n b c s hg
      dsimp only at ha
      rw [hself.collect hlen] at ha
      obtain ⟨_, hslots, ha⟩ := bind_ok ha
      obtain ⟨_, -, ha⟩ := bind_ok ha
      cases hslots
      cases ha
      rw [hg]
      exact (if_pos hdel).symm
  · rw [if_neg hdel] at ha
    dsimp only at ha
    obtain ⟨⟨node1, wiped, invW⟩, h1, ha⟩ := bind_ite_ok ha
    obtain ⟨⟨node2, set, invA⟩, h2, ha⟩ := bind_ok ha
    obtain ⟨⟨node3, wrote, invS⟩, h3, ha⟩ := bind_ok ha
    cases ha
    have hwipe : (∃ v, RecordPut q t rest v node1 ∧ NetStep (t.get rest) v wiped fun a =>
        if upd.wipe then execAcct a .wipeStorage else a) ∧ invW = if upd.wipe && prior.isSome then
          (key, .wipeStorage) :: restoreSlots key ((t.get rest).elim [] StateLeaf.slots) else [] := by
      cases hw : upd.wipe with
      | true =>
        rw [hw, if_pos rfl] at h1
        refine ⟨wipeInRecord_step hself hlen h1, (wipeInRecord_inverse hself hlen h1).trans ?_⟩
        cases prior <;> rfl
      | false =>
        rw [hw] at h1
        cases h1
        exact ⟨⟨_, hself, .refl _⟩, rfl⟩
    obtain ⟨⟨v1, hput1, hs1⟩, rfl⟩ := hwipe
    obtain ⟨v2, hput2, hs2⟩ := setInRecord_step hput1 hlen hdel h2
    obtain ⟨v3, hput3, hs3⟩ := slotsInRecord_step upd.slots hput2 hlen hupd.short h3
    have hstep := (hs1.trans hs2).trans hs3
    rw [setInRecord_inverse hdel h2]
    obtain hg | ⟨n, b, c, s, hg⟩ := ho.cases
    · obtain rfl := hnone hg
      rw [hg] at hstep ⊢
      rw [slotsInRecord_created upd.slots h3]
      have hrel3 : NetRel upd none v3 := hstep.acct
      have hchanged : (wiped || set || wrote) = upd.creates := by
        rw [← hrel3.isSome_iff hupd]
        cases hb : wiped || set || wrote with
        | true => exact (hstep.isSome hb).symm
        | false => rw [hstep.same hb, Option.isSome_none]
      rw [hchanged, Option.isSome_none, Bool.and_false]
      rfl
    · obtain ⟨root, rfl⟩ := hsome n b c s hg
      rw [hg] at hs1 ⊢
      have hst : Structured (some (.account n b c s)) := hg ▸ ho
      obtain ⟨hst1, hacct1⟩ := hs1.acct hst
      obtain ⟨hst2, hacct2⟩ := hs2.acct hst1
      have hacct : acctOf v2 = some { upd.account.fields ⟨n, b, c, s.get⟩ with
          slots := if upd.wipe then fun _ => none else s.get } := by
        rw [hacct2, hacct1]
        cases hout : upd.account with
        | delete => exact absurd hout hdel
        | _ => cases upd.wipe <;> rfl
      rw [slotsInRecord_inverse upd.slots hput2 hlen hupd.short hn hst2 hacct h3, Option.isSome_some,
        Bool.and_true, Option.isNone_some, Bool.false_and, if_neg Bool.false_ne_true, List.append_nil]
      exact (if_neg hdel).symm

/-! ## Storage of promoted accounts -/

omit [Keccak] in
theorem packNibbles_length {nibbles : List Nibble} {bs : Bytes} (h : packNibbles nibbles = some bs) :
    nibbles.length = 2 * bs.length := by
  fun_induction packNibbles nibbles generalizing bs with
  | case1 =>
    cases h
    rfl
  | case2 => cases h
  | case3 hi lo nibbles ih =>
    obtain ⟨bs', hbs', rfl⟩ := Option.map_eq_some_iff.mp h
    have := ih hbs'
    simp only [List.length_cons]
    omega

omit [Keccak] in
/-- A path that is longer than a key does not pack. -/
theorem nibblesToKey_long {nibbles : List Nibble} (h : 64 < nibbles.length) : nibblesToKey nibbles = none := by
  unfold nibblesToKey
  cases hp : packNibbles nibbles with
  | none => rfl
  | some bs =>
    have := packNibbles_length hp
    exact dif_neg (by omega)

omit [Keccak] in
theorem mapM_not_ok {α β : Type} {f : α → Except Err β} {l : List α} {a : α} (ha : a ∈ l)
    (h : ∀ b, f a ≠ .ok b) (bs : List β) : l.mapM f ≠ .ok bs := by
  intro hok
  induction l generalizing bs with
  | nil => cases ha
  | cons x l ih =>
    rw [List.mapM_cons] at hok
    obtain ⟨b, hb, hok⟩ := bind_ok hok
    obtain ⟨bs', hbs', -⟩ := bind_ok hok
    rcases List.mem_cons.mp ha with rfl | ha
    · exact h b hb
    · exact ih ha bs' hbs'

/-- Slots collected below a path that already is longer than a slot key. -/
theorem collectStorageSubtree_long {n : Nat} {u : Tree 16 Bytes} (hu : Canon n u) (hne : u ≠ .empty)
    {path : List Nibble} (hp : 64 < path.length) (slots : List (Key × Bytes)) :
    collectStorageSubtree (toNode valueLeaf u) path ≠ .ok slots := by
  induction hu generalizing path slots with
  | empty => exact absurd rfl hne
  | @leaf n p a hlen =>
    show collectStorageSubtree (.leaf p a (leafRef p a)) path ≠ _
    rw [collectStorageSubtree, nibblesToKey_long (by rw [List.length_append]; omega)]
    exact fun h => by cases h
  | @ext n m p c hp' hn hb hc ih =>
    refine ih ?_ (by rw [List.length_append]; omega) slots
    cases hb
    exact fun h => by cases h
  | @branch n m cs hn hc h2 ih =>
    obtain ⟨i, -, -, hi, -⟩ := h2
    intro hok
    obtain ⟨parts, hparts, -⟩ := bind_ok hok
    refine mapM_not_ok (List.mem_finRange i) (fun slots => ?_) parts hparts
    show collectStorageSlot (asChild (toNode valueLeaf (cs i))) (path ++ [i]) ≠ _
    rw [asChild_toNode valueLeaf hi, collectStorageSlot]
    exact ih i hi (by rw [List.length_append]; omega) slots

/-- A record whose slots are never collected. -/
def Uncollected (read : Act DiskSubtree) : Prop :=
  Yields read fun sub => ∀ slots, collectStorageSubtree sub.node sub.pfx ≠ .ok slots

theorem Recorded.uncollected {account : Key} {u : Tree 16 Bytes} {bytes : Bytes} {root : Hash}
    (h : Recorded (storageKind account) q u bytes root) (hq : q ≠ []) :
    ∀ slots, collectStorageSubtree (toNode valueLeaf u) ((storageKind account).root ++ q) ≠ .ok slots := by
  refine collectStorageSubtree_long h.canon h.ne_empty ?_
  rw [storageKind_root, List.length_append, keyNibbles_length]
  have := List.length_pos_of_ne_nil hq
  omega

mutual

theorem storageRecords_uncollected {account : Key} (n : RamNode) {q : List Nibble} {u : Tree 16 Bytes}
    (h : Shows (storageKind account) q n u) (hc : Canon (64 - q.length) u) (hne : u ≠ .empty) :
    (∀ read ∈ storageRecords n, Uncollected read) ∧ storageRecords n ≠ [] := by
  match n with
  | .empty =>
    cases h
    exact absurd rfl hne
  | .extension path child hash =>
    cases h with
    | extension hp hb hcc h hh =>
      refine storageRecords_uncollected child h hcc ?_
      cases hb
      exact fun h => by cases h
  | .branch slots hash =>
    cases h with
    | @branch _ _ us _ hq hs hh =>
      have hslot (i : Nibble) := slotRecords_uncollected (slots i) (hs i) (List.append_ne_nil_of_right_ne_nil q
        (List.cons_ne_nil i []))
      cases hc with
      | branch hn hc h2 =>
        obtain ⟨i, -, -, hi, -⟩ := h2
        refine ⟨fun read hr => ?_, fun hnil => (hslot i).2 hi ?_⟩
        · obtain ⟨j, -, hj⟩ := List.mem_flatMap.mp hr
          exact (hslot j).1 read hj
        · exact List.flatMap_eq_nil_iff.mp hnil i (List.mem_finRange i)

theorem slotRecords_uncollected {account : Key} (s : RamSlot) {q : List Nibble} {u : Tree 16 Bytes}
    (h : ShowsSlot (storageKind account) q s u) (hq : q ≠ []) :
    (∀ read ∈ slotRecords s, Uncollected read) ∧ (u ≠ .empty → slotRecords s ≠ []) := by
  match s with
  | .none =>
    cases h
    exact ⟨fun _ h => (List.not_mem_nil h).elim, fun h => absurd rfl h⟩
  | .ram sub =>
    cases h with
    | ram hc ht h =>
      have hsub := storageRecords_uncollected sub h hc ht
      exact ⟨hsub.1, fun _ => hsub.2⟩
  | .disk ptr root =>
    cases h with
    | disk h =>
      refine ⟨fun read hr => ?_, fun _ => List.cons_ne_nil _ _⟩
      rw [List.mem_singleton.mp hr]
      refine (yields_readRecord h).mono ?_
      rintro _ rfl
      exact h.uncollected hq
  | .mem bytes root =>
    cases h with
    | mem h =>
      refine ⟨fun read hr => ?_, fun _ => List.cons_ne_nil _ _⟩
      rw [List.mem_singleton.mp hr]
      refine (yields_record h).mono ?_
      rintro _ rfl
      exact h.uncollected hq
  | .account path nonce balance codeHash storage =>
    cases h with
    | account hp ha h => exact h.elim

end

/-- **The slots of a promoted account are never collected**: every record of its storage lies
under the account's key, and its own path is packed as a slot key. -/
theorem ramCollectStorage_fails {account : Key} {s : Storage} {storage : RamNode} (ht : s.tree ≠ .empty)
    (h : Shows (storageKind account) [] storage s.tree) :
    Yields (ramCollectStorage storage) fun _ => False := by
  obtain ⟨hreads, hne⟩ := storageRecords_uncollected storage h s.canon ht
  unfold ramCollectStorage
  cases hr : storageRecords storage with
  | nil => exact absurd hr hne
  | cons read reads =>
    unfold collectRecords
    refine (hreads read (hr ▸ List.mem_cons_self)).attempt fun sub hsub => ?_
    exact (Yields.pure (P := fun _ => False) fun slots h => hsub slots h).attempt fun _ h => h.elim

theorem captureStorage_fails {s : Storage} {storage : RamNode} (ht : s.tree ≠ .empty)
    (h : Shows (storageKind key) [] storage s.tree) (n : UInt64) (b : U256) (c : Hash) :
    Yields (captureStorage key n b c storage) fun _ => False :=
  (ramCollectStorage_fails ht h).attempt fun _ h => h.elim

/-! ## Promoted accounts -/

theorem creationChild_inverse (hupd : upd.Fits) (hn : (upd.slots.map Prod.fst).Nodup)
    (hk : keyNibbles key = q ++ rest) :
    Yields (creationChild env ram q key upd) fun r => r.2 = upd.inverse key none := by
  have hlen := key_length hk
  have hempty : stateKind.Records q .empty := ⟨by omega, .empty, fun _ _ h => by cases h⟩
  unfold creationChild
  rw [hk, List.drop_left]
  have hnet : Yields (.pure (applyNetInRecord .empty rest key upd)) fun r => r.2.2 = upd.inverse key none := by
    rintro ⟨node, out, inv⟩ ha
    exact applyNetInRecord_inverse hempty hlen hupd hn structured_none ha
  refine hnet.attempt ?_
  rintro ⟨node, out, inv⟩ hinv
  dsimp only at hinv ⊢
  split
  · exact .ok hinv
  · exact (show Yields (finishChild _ _ _) fun _ => True from fun _ _ => trivial).attempt fun _ _ => .ok hinv

theorem demoteAccount_inverse {a : StateLeaf} (hupd : upd.Fits) (hn : (upd.slots.map Prod.fst).Nodup)
    (hk : keyNibbles key = q ++ path) (ha : a.Short) (hst : Structured (some a)) :
    Yields (demoteAccount env ram q key (stateLeaf.node path a) upd) fun r =>
      r.2 = upd.inverse key (some a) := by
  have hlen := key_length hk
  have hrec : stateKind.Records q (.leaf path a) := .leaf (by omega) hlen ha
  have hget : (Tree.leaf path a).get path = some a := by rw [Tree.get_leaf, if_pos rfl]
  unfold demoteAccount
  rw [hk, List.drop_left]
  have hnet : Yields (.pure (applyNetInRecord (stateLeaf.node path a) path key upd)) fun r =>
      r.2.2 = upd.inverse key (some a) := by
    rintro ⟨node, out, inv⟩ hn'
    have := applyNetInRecord_inverse hrec hlen hupd hn (hget.symm ▸ hst) hn'
    rwa [hget] at this
  refine hnet.attempt ?_
  rintro ⟨node, out, inv⟩ hinv
  exact (show Yields (finishChild _ _ _) fun _ => True from fun _ _ => trivial).attempt fun _ _ => .ok hinv

omit [Keccak] in
theorem inverse_keep (slots : List (Key × Option Bytes)) (n : UInt64) (b : U256) (c : Hash) (s : Storage) :
    NetUpdate.inverse key ⟨false, .keep, slots⟩ (some (.account n b c s)) = undoSlots key slots s.get := rfl

theorem applySlots_inverse {n : UInt64} {b : U256} {c : Hash} (slots : List (Key × Option Bytes))
    (hshort : ∀ s ∈ slots, ∀ v, s.2 = some v → ShortValue v) (hn : (slots.map Prod.fst).Nodup)
    (hk : keyNibbles key = q ++ path) {s : Storage} (hs : s.Short) (ht : s.tree ≠ .empty)
    {storage : RamNode} (h : Shows (storageKind key) [] storage s.tree) :
    Updates (applySlots env ram q key path n b c slots storage) fun _ r =>
      r.2 = undoSlots key slots s.get := by
  induction slots generalizing s storage with
  | nil => exact .ok rfl
  | cons e slots ih =>
    obtain ⟨slot, value⟩ := e
    rw [List.map_cons, List.nodup_cons] at hn
    have hshort' := fun s hs => hshort s (List.mem_cons_of_mem _ hs)
    have hrest (w : Option Bytes) : undoSlots key slots (s.put slot w).get = undoSlots key slots s.get := by
      rw [Storage.get_put_eq, undoSlots_update hn.1]
    have hnext {w : Option Bytes} {changed : Bool} {storage' : RamNode} (hs' : (s.put slot w).Short)
        (ht' : (s.put slot w).tree ≠ .empty)
        (h' : Shows (storageKind key) [] storage' (s.put slot w).tree) :
        Updates (afterSlot changed (undoSlot key slot (s.get slot) value)
          (applySlots env ram q key path n b c slots storage')) fun _ r =>
          r.2 = undoSlots key ((slot, value) :: slots) s.get := by
      refine (ih hshort' hn.2 hs' ht' h').map fun _ r hr => ?_
      rw [undoSlots_cons, ← hrest w, ← hr]
    have hget : Yields (ramGet storage (keyNibbles slot) 0) (· = s.get slot) := by
      intro prior hp
      rw [ramGet_storage h] at hp
      cases hp
      rfl
    unfold applySlots
    refine hget.attemptOn ?_
    rintro _ rfl
    cases value with
    | some value =>
      have hv : ShortValue value := hshort _ List.mem_cons_self value rfl
      refine (insertStorage_shows hv ht h).thenUpd (fun _ _ => .error _ _) ?_
      rintro storage' _ ⟨h', ht'⟩
      refine hnext (hs.put slot ?_) ht' h'
      rintro _ ⟨⟩
      exact hv
    | none =>
      refine (deleteStorage_shows ht h).thenUpd (fun _ _ => .error _ _) ?_
      intro storage' out hout
      have hdemote (hout : (s.get slot).isSome ∧
          Yields (demotedStorage out) (· = (s.put slot none).toNode)) :
          Updates (attempt (demotedStorage out) (fun e => (RamSlot.none, .error e)) fun storageNode =>
            attempt (demoteAccount env ram q key (accountNode path n b c storageNode)
                ⟨false, .keep, slots⟩) (fun e => (.none, .error e)) fun x =>
            .pure (x.1, .ok (true, undoSlot key slot (s.get slot) none ++ x.2))) fun _ r =>
          r.2 = undoSlots key ((slot, none) :: slots) s.get := by
        refine hout.2.attemptOn ?_
        rintro _ rfl
        have hfits : NetUpdate.Fits ⟨false, .keep, slots⟩ := ⟨(fun h => by cases h), hshort'⟩
        refine (demoteAccount_inverse hfits hn.2 hk (a := .account n b c (s.put slot none))
          (hs.put slot fun _ h => by cases h) fun _ h => by cases h).attemptOn ?_
        rintro ⟨r, inv'⟩ hinv
        refine .ok ?_
        dsimp only at hinv ⊢
        rw [hinv, inverse_keep, hrest, undoSlots_cons]
      cases out with
      | absent =>
        obtain ⟨rfl, hnone⟩ := hout
        refine (ih hshort' hn.2 hs ht h).map fun _ r hr => ?_
        rw [undoSlots_cons, ← hr]
      | changed => exact hnext (hs.put slot fun _ h => by cases h) hout.2.2 hout.2.1
      | removed => exact hdemote hout
      | collapsed edge survivor => exact hdemote hout

theorem applyPromoted_inverse {n : UInt64} {b : U256} {c : Hash} (hupd : upd.Fits)
    (hn : (upd.slots.map Prod.fst).Nodup) (hk : keyNibbles key = q ++ path) {s : Storage} (hs : s.Short)
    (ht : s.tree ≠ .empty) {storage : RamNode} (h : Shows (storageKind key) [] storage s.tree) :
    Updates (applyPromoted env ram q key upd path n b c storage) fun _ r =>
      r.2 = upd.inverse key (some (.account n b c s)) := by
  unfold applyPromoted
  by_cases hdel : upd.account = .delete
  · rw [if_pos hdel]
    exact (captureStorage_fails ht h n b c).attemptOn fun _ h => h.elim
  · rw [if_neg hdel]
    by_cases hwipe : upd.wipe = true
    · rw [if_pos hwipe]
      exact (captureStorage_fails ht h n b c).attemptOn fun _ h => h.elim
    · rw [if_neg hwipe]
      have hinv : upd.inverse key (some (.account n b c s)) =
          restoreFields key n b c upd.account ++ undoSlots key upd.slots s.get := by
        show (if upd.account = .delete then _ else _) = _
        rw [if_neg hdel, if_neg hwipe, if_neg hwipe]
        rfl
      rw [hinv]
      dsimp only
      cases hacc : upd.account with
      | delete => exact absurd hacc hdel
      | _ =>
        dsimp only
        refine Updates.map (R := fun _ r => r.2 = _)
          ((applySlots_inverse upd.slots hupd.short hn hk hs ht h).map fun _ r hr => ?_) fun _ _ h => h
        rw [hr]
        rfl

/-! ## The descent -/

omit [Keccak] in
theorem inverse_not_creates (hc : upd.creates = false) : upd.inverse key none = [] := by
  show (if upd.creates then _ else _) = _
  rw [hc, if_neg Bool.false_ne_true]

theorem yields_applyRecord_inverse (h : stateKind.Records q t) (hupd : upd.Fits)
    (hn : (upd.slots.map Prod.fst).Nodup) (hk : keyNibbles key = q ++ rest) {depth : Nat}
    (hd : depth = q.length) (ho : Structured (t.get rest)) :
    Yields (.pure (applyNetInRecord (toNode stateLeaf t) ((keyNibbles key).drop depth) key upd)) fun r =>
      r.2.2 = upd.inverse key (t.get rest) := by
  have hlen := key_length hk
  rw [hd, hk, List.drop_left]
  rintro ⟨node, out, inv⟩ hr
  exact applyNetInRecord_inverse h hlen hupd hn ho hr

mutual

/-- **The inverse pushed below a frontier node** is that of the leaf at the key. -/
theorem applyRamGroup_inverse (hupd : upd.Fits) (hn : (upd.slots.map Prod.fst).Nodup) (n : RamNode)
    {q rest : List Nibble} {t : Tree 16 StateLeaf} (h : Shows stateKind q n t)
    (hk : keyNibbles key = q ++ rest) (ho : Structured (t.get rest)) :
    Updates (applyRamGroup env n q key upd ram) fun _ r => r.2 = upd.inverse key (t.get rest) := by
  match n with
  | .empty =>
    cases h
    unfold applyRamGroup
    cases hcr : upd.creates with
    | false => exact .ok (inverse_not_creates hcr).symm
    | true =>
      rw [if_neg (by decide)]
      cases hi : (keyNibbles key)[q.length]? with
      | none => exact .error _ _
      | some i =>
        have hk' : ∃ r, keyNibbles key = (q ++ [i]) ++ r := by
          rw [hk, List.getElem?_append_right (le_refl _), Nat.sub_self] at hi
          cases rest with
          | nil => cases hi
          | cons j r =>
            cases hi
            exact ⟨r, by rw [hk, List.append_assoc]; rfl⟩
        obtain ⟨r, hk'⟩ := hk'
        refine (creationChild_inverse hupd hn hk').attemptOn ?_
        rintro ⟨s, inv⟩ hinv
        dsimp only at hinv ⊢
        split <;> exact .ok hinv
  | .extension path child hash =>
    cases h with
    | @extension _ _ _ t _ hp hb hcc hch hh =>
    unfold applyRamGroup
    rw [hk, List.drop_left]
    obtain ⟨c, p, r, rfl, rfl, hcm, hne⟩ := Radix.commonPrefix_spec path rest
    dsimp only
    rw [hcm]
    cases p with
    | nil =>
      rw [List.append_nil] at hch ho ⊢
      rw [if_neg (by omega)]
      rw [Tree.get_ext_append] at ho ⊢
      refine (applyRamGroup_inverse hupd hn child hch (by rw [hk, List.append_assoc]) ho).thenUpd (fun _ _ => .error _ _) ?_
      rintro n' ⟨out, inv⟩ hinv
      exact Updates.pure_map (R := fun _ _ => True) (fun _ _ => trivial) fun _ _ _ => hinv
    | cons i p =>
      rw [if_pos (by simp)]
      have hoff : (Tree.ext (c ++ i :: p) t).get (c ++ r) = none := by
        refine get_ext_off ?_
        rintro ⟨r', hr'⟩
        rw [List.append_assoc] at hr'
        have hr := List.append_cancel_left hr'
        exact hne i p i (p ++ r') rfl hr rfl
      rw [hoff]
      cases hcr : upd.creates with
      | false => exact .ok (inverse_not_creates hcr).symm
      | true =>
        rw [if_neg (by decide), List.drop_left, List.drop_left]
        cases r with
        | nil => exact .error _ _
        | cons j r =>
          have hk' : keyNibbles key = (q ++ c ++ [j]) ++ r := by
            rw [hk]
            simp only [List.append_assoc, List.singleton_append]
          rw [List.take_left]
          refine (creationChild_inverse hupd hn hk').attemptOn ?_
          rintro ⟨leaf, inv⟩ hinv
          exact .ok hinv
  | .branch slots hash =>
    cases h with
    | @branch _ _ ts _ hq hs hh =>
    unfold applyRamGroup
    cases rest with
    | nil =>
      have := key_length hk
      rw [List.length_nil] at this
      omega
    | cons i r =>
      have hi : (keyNibbles key)[q.length]? = some i := by
        rw [hk, List.getElem?_append_right (le_refl _), Nat.sub_self]
        rfl
      rw [hi]
      refine (applyGroupChild_inverse hupd hn (slots i) (hs i) (List.append_ne_nil_of_right_ne_nil q
        (List.cons_ne_nil i [])) (by rw [hk, List.append_assoc]; rfl) ho).thenUpd (fun _ _ => .error _ _) ?_
      rintro s ⟨out, inv⟩ hinv
      exact Updates.pure_map (R := fun _ _ => True) (fun _ _ => trivial) fun _ _ _ => hinv

theorem applyGroupChild_inverse (hupd : upd.Fits) (hn : (upd.slots.map Prod.fst).Nodup) (s : RamSlot)
    {q rest : List Nibble} {t : Tree 16 StateLeaf} (h : ShowsSlot stateKind q s t) (hq : q ≠ [])
    (hk : keyNibbles key = q ++ rest) (ho : Structured (t.get rest)) :
    Updates (applyGroupChild env s q key upd ram) fun _ r => r.2 = upd.inverse key (t.get rest) := by
  match s with
  | .none =>
    cases h
    unfold applyGroupChild
    cases hcr : upd.creates with
    | false => exact .ok (inverse_not_creates hcr).symm
    | true =>
      rw [if_neg (by decide)]
      refine (creationChild_inverse hupd hn hk).attemptOn ?_
      rintro ⟨s, inv⟩ hinv
      exact .ok hinv
  | .ram sub =>
    cases h with
    | ram hc ht h =>
      unfold applyGroupChild
      refine (applyRamGroup_inverse hupd hn sub h hk ho).thenUpd (fun _ _ => .error _ _) ?_
      rintro sub' ⟨out, inv⟩ hinv
      match out with
      | .absent => exact .ok hinv
      | .changed => exact .ok hinv
      | .removed => exact .ok hinv
      | .collapsed edge survivor =>
        exact (show Yields (rehomeChild _ _ _ _ _) fun _ => True from fun _ _ => trivial).attemptOn
          fun _ _ => .ok hinv
  | .mem bytes root =>
    cases h with
    | mem h =>
      unfold applyGroupChild
      refine (yields_record h).attemptOn ?_
      rintro _ rfl
      refine (yields_applyRecord_inverse h.records hupd hn hk (stateKind.localDepth hq h.length) ho).attemptOn ?_
      rintro ⟨node, out, inv⟩ hinv
      match out with
      | .absent => exact .ok hinv
      | .changed =>
        exact (show Yields (finishChild _ _ _) fun _ => True from fun _ _ => trivial).attemptOn
          fun _ _ => .ok hinv
      | .removed => exact .ok hinv
  | .disk ptr root =>
    cases h with
    | disk h =>
      unfold applyGroupChild
      refine (yields_readRecord h).attemptOn ?_
      rintro _ rfl
      refine (yields_applyRecord_inverse h.records hupd hn hk rfl ho).attemptOn ?_
      rintro ⟨node, out, inv⟩ hinv
      match out with
      | .absent => exact .ok hinv
      | .changed =>
        exact .step ((show Yields (finishChild _ _ _) fun _ => True from fun _ _ => trivial).attemptOn
          fun _ _ => .ok hinv)
      | .removed => exact .step (.ok hinv)
  | .account path nonce balance codeHash storage =>
    cases h with
    | @account _ _ _ _ _ _ a hp ha hl =>
    unfold applyGroupChild
    rw [hk, List.drop_left]
    by_cases hpath : rest = path
    · subst hpath
      rw [if_neg (not_not.mpr rfl), Tree.get_leaf, if_pos rfl]
      obtain ⟨account, s, hf, rfl, ht, h⟩ := hl
      obtain rfl : account = key := keyNibbles_injective (hf.symm.trans (List.append_assoc _ _ _ ▸ hk.symm))
      exact applyPromoted_inverse hupd hn hk ha ht h
    · rw [if_pos hpath, Tree.get_leaf, if_neg hpath]
      cases hcr : upd.creates with
      | false => exact .ok (inverse_not_creates hcr).symm
      | true =>
        rw [if_neg (by decide)]
        obtain ⟨c, p, r, rfl, rfl, hcm, hne⟩ := Radix.commonPrefix_spec path rest
        dsimp only
        rw [hcm, List.drop_left, List.drop_left]
        cases p with
        | nil => exact .error _ _
        | cons i p =>
          cases r with
          | nil => exact .error _ _
          | cons j r =>
            have hk' : keyNibbles key = (q ++ (c ++ [j])) ++ r := by
              rw [hk]
              simp only [List.append_assoc, List.singleton_append]
            have htake : (c ++ j :: r).take (c.length + 1) = c ++ [j] := by
              rw [List.take_length_add_append]
              rfl
            rw [htake]
            refine (creationChild_inverse hupd hn hk').attemptOn ?_
            rintro ⟨leaf, inv⟩ hinv
            exact .ok hinv

end

/-! ## The block -/

omit [Keccak] in
theorem undoSlot_keys {slot : Key} {prior value : Option Bytes} {e : Key × StateOp}
    (h : e ∈ undoSlot key slot prior value) : e.1 = key := by
  cases prior with
  | some p => rw [List.mem_singleton.mp h]
  | none =>
    cases value with
    | some v => rw [List.mem_singleton.mp h]
    | none => cases h

omit [Keccak] in
/-- The inverse of an account's update names that account only. -/
theorem inverse_keys {e : Key × StateOp} (h : e ∈ upd.inverse key o) : e.1 = key := by
  have hslots {slots : List (Key × Bytes)} (h : e ∈ restoreSlots key slots) : e.1 = key := by
    obtain ⟨_, -, rfl⟩ := List.mem_map.mp h
    rfl
  unfold NetUpdate.inverse at h
  split at h
  · split at h
    · rw [List.mem_singleton.mp h]
    · cases h
  · cases h
  · dsimp only at h
    split at h
    · rcases List.mem_cons.mp h with rfl | h
      · rfl
      · rcases List.mem_cons.mp h with rfl | h
        · rfl
        · exact hslots h
    · rcases List.mem_append.mp h with h | h
      · rcases List.mem_append.mp h with h | h
        · split at h
          · rcases List.mem_cons.mp h with rfl | h
            · rfl
            · exact hslots h
          · cases h
        · unfold restoreFields at h
          split at h
          · rw [List.mem_singleton.mp h]
          · cases h
      · obtain ⟨s, -, hs⟩ := List.mem_flatMap.mp h
        exact undoSlot_keys hs

omit [Keccak] in
theorem Inverse.on_append (inv inv' : Inverse) (key : Key) :
    Inverse.on (inv ++ inv') key = inv.on key ++ inv'.on key := List.filter_append ..

omit [Keccak] in
theorem Inverse.on_self {inv : Inverse} (h : ∀ e ∈ inv, e.1 = key) : inv.on key = inv :=
  List.filter_eq_self.mpr fun e he => by simpa using h e he

omit [Keccak] in
theorem Inverse.on_eq_nil {inv : Inverse} (h : ∀ e ∈ inv, e.1 ≠ key) : inv.on key = [] :=
  List.filter_eq_nil_iff.mpr fun e he => by simpa using h e he

/-- An inverse has, for each account updated, that of its update, and no others. -/
structure Inverts (q : List Nibble) (net : List (Key × NetUpdate)) (t : Tree 16 StateLeaf) (inv : Inverse) :
    Prop where
  keys : ∀ e ∈ inv, e.1 ∈ net.map Prod.fst
  undoes : ∀ upd key rest, (key, upd) ∈ net → keyNibbles key = q ++ rest →
    inv.on key = upd.inverse key (t.get rest)

variable {net : List (Key × NetUpdate)} {inv : Inverse}

omit [Keccak] in
theorem Inverts.nil : Inverts q [] t [] := ⟨fun _ h => absurd h List.not_mem_nil, fun _ _ _ h => by cases h⟩

omit [Keccak] in
theorem Inverts.on_eq_nil (h : Inverts q net t inv) (hk : key ∉ net.map Prod.fst) : inv.on key = [] :=
  Inverse.on_eq_nil fun e he heq => hk (heq ▸ h.keys e he)

omit [Keccak] in
/-- One account's update before those of others. -/
theorem Inverts.cons {t' : Tree 16 StateLeaf} {v : Option StateLeaf} {inv' : Inverse}
    (hk : keyNibbles key = q ++ rest) (hinv : inv = upd.inverse key (t.get rest)) (hp : Puts t rest v t')
    (h : Inverts q net t' inv') (hn : (((key, upd) :: net).map Prod.fst).Nodup) :
    Inverts q ((key, upd) :: net) t (inv ++ inv') where
  keys e he := by
    rcases List.mem_append.mp he with he | he
    · rw [hinv] at he
      rw [inverse_keys he]
      exact List.mem_cons_self
    · exact List.mem_cons_of_mem _ (h.keys e he)
  undoes upd' k r hmem hr := by
    rw [List.map_cons, List.nodup_cons] at hn
    rw [Inverse.on_append]
    rcases List.mem_cons.mp hmem with heq | hmem
    · cases heq
      obtain rfl := List.append_cancel_left (hk.symm.trans hr)
      rw [h.on_eq_nil hn.1, List.append_nil, hinv, Inverse.on_self fun e he => inverse_keys he]
    · have hne : k ≠ key := fun heq => hn.1 (List.mem_map.mpr ⟨_, hmem, heq⟩)
      have hrest : r ≠ rest := fun heq => hne (keyNibbles_injective (hr.trans (heq ▸ hk.symm)))
      rw [hinv, Inverse.on_eq_nil fun e he heq => hne (heq.symm.trans (inverse_keys he)), List.nil_append,
        h.undoes upd' k r hmem hr, hp, if_neg hrest]

/-- Updates that the engine can hold, one for each account. -/
structure Distinct (q : List Nibble) (net : List (Key × NetUpdate)) : Prop where
  below : Below q net
  keys : (net.map Prod.fst).Nodup
  slots : ∀ e ∈ net, (e.2.slots.map Prod.fst).Nodup

omit [Keccak] in
theorem Distinct.tail {e : Key × NetUpdate} (h : Distinct q (e :: net)) : Distinct q net where
  below := fun e he => h.below e (List.mem_cons_of_mem _ he)
  keys := (List.nodup_cons.mp h.keys).2
  slots := fun e he => h.slots e (List.mem_cons_of_mem _ he)

omit [Keccak] in
theorem AllStructured.put {t' : Tree 16 StateLeaf} {v : Option StateLeaf} (h : AllStructured t)
    (hp : Puts t rest v t') (hv : Structured v) : AllStructured t' := by
  intro p
  rw [hp]
  split
  · exact hv
  · exact h p

theorem applyBucket_inverse (net : List (Key × NetUpdate)) (hnet : Distinct q net) (hq : q ≠ [])
    {s : RamSlot} (h : ShowsSlot stateKind q s t) (hst : AllStructured t) :
    Updates (applyBucket env ram q net s) fun _ inv => Inverts q net t inv := by
  induction net generalizing s t with
  | nil => exact .ok .nil
  | cons e net ih =>
    obtain ⟨key, upd⟩ := e
    obtain ⟨hupd, rest, hk⟩ := hnet.below _ List.mem_cons_self
    unfold applyBucket
    refine ((applyGroupChild_shows hupd s h hq hk).and (applyGroupChild_inverse hupd
      (hnet.slots _ List.mem_cons_self) s h hq hk (hst rest))).thenUpd (fun _ _ => .error _ _) ?_
    rintro s' ⟨out, inv⟩ ⟨⟨v, hrel, hout⟩, hinv⟩
    obtain ⟨t', hs', hp⟩ := hout.shows h
    refine (ih hnet.tail hs' (hst.put hp (hrel (hst rest)).1)).thenUpd (fun _ _ => .error _ _) ?_
    intro s'' inv' hinv'
    exact .ok (.cons hk hinv hp hinv' hnet.keys)

theorem applySerial_inverse (net : List (Key × NetUpdate)) (hnet : Distinct [] net) {n : RamNode}
    (h : Shows stateKind [] n t) (hst : AllStructured t) :
    Updates (applySerial env ram net n) fun _ inv => Inverts [] net t inv := by
  induction net generalizing n t with
  | nil => exact .ok .nil
  | cons e net ih =>
    obtain ⟨key, upd⟩ := e
    obtain ⟨hupd, rest, hk⟩ := hnet.below _ List.mem_cons_self
    unfold applySerial
    refine ((applyRamGroup_shows hupd n h (.inl rfl) hk).and (applyRamGroup_inverse hupd
      (hnet.slots _ List.mem_cons_self) n h hk (hst rest))).thenUpd (fun _ _ => .error _ _) ?_
    rintro n' ⟨out, inv⟩ ⟨⟨v, hrel, hout⟩, hinv⟩
    refine (installRoot_shows lifts_state rfl h hout).thenUpd (fun _ _ => .error _ _) ?_
    rintro u _ ⟨t', hu, hp⟩
    refine (ih hnet.tail hu (hst.put hp (hrel (hst rest)).1)).thenUpd (fun _ _ => .error _ _) ?_
    intro u' inv' hinv'
    exact .ok (.cons hk hinv hp hinv' hnet.keys)

omit [Keccak] in
/-- Of lists side by side, the only one that is not empty. -/
theorem flatMap_eq_of_nil {α β : Type} {f : α → List β} {l : List α} {a : α} (ha : a ∈ l) (hn : l.Nodup)
    (h : ∀ b ∈ l, b ≠ a → f b = []) : l.flatMap f = f a := by
  induction l with
  | nil => cases ha
  | cons b l ih =>
    rw [List.nodup_cons] at hn
    rw [List.flatMap_cons]
    rcases List.mem_cons.mp ha with rfl | ha
    · have hrest : l.flatMap f = [] := List.flatMap_eq_nil_iff.mpr fun b hb =>
        h b (List.mem_cons_of_mem _ hb) fun heq => hn.1 (heq ▸ hb)
      rw [hrest, List.append_nil]
    · rw [h b List.mem_cons_self fun heq => hn.1 (heq ▸ ha), List.nil_append]
      exact ih ha hn.2 fun b hb => h b (List.mem_cons_of_mem _ hb)

omit [Keccak] in
theorem mem_bucketOf {e : Key × NetUpdate} {i : Nibble} :
    e ∈ bucketOf net i ↔ e ∈ net ∧ (keyNibbles e.1).head? = some i := by
  unfold bucketOf
  rw [List.mem_filter, decide_eq_true_eq]

omit [Keccak] in
theorem Distinct.bucketOf (h : Distinct [] net) (i : Nibble) : Distinct [i] (bucketOf net i) where
  below := h.below.bucketOf i
  keys := h.keys.sublist (List.filter_sublist.map _)
  slots := fun e he => h.slots e (mem_bucketOf.mp he).1

omit [Keccak] in
/-- The inverses of the slots of a top branch, one after the other. -/
theorem Inverts.branch {ts : Nibble → Tree 16 StateLeaf} {invs : Nibble → Inverse}
    (h : ∀ i, Inverts [i] (bucketOf net i) (ts i) (invs i)) :
    Inverts [] net (.branch ts) ((List.finRange 16).flatMap invs) where
  keys e he := by
    obtain ⟨i, -, hi⟩ := List.mem_flatMap.mp he
    obtain ⟨e', he', heq⟩ := List.mem_map.mp ((h i).keys e hi)
    exact List.mem_map.mpr ⟨e', (mem_bucketOf.mp he').1, heq⟩
  undoes upd key rest hmem hk := by
    rw [List.nil_append] at hk
    cases rest with
    | nil =>
      have := keyNibbles_length key
      rw [hk] at this
      cases this
    | cons i r =>
      have hmem' : (key, upd) ∈ bucketOf net i := mem_bucketOf.mpr ⟨hmem, by rw [hk]; rfl⟩
      have hother (j : Nibble) (hj : j ≠ i) : (invs j).on key = [] := by
        refine (h j).on_eq_nil fun hmem => ?_
        obtain ⟨e, he, rfl⟩ := List.mem_map.mp hmem
        have hhead := (mem_bucketOf.mp he).2
        rw [hk] at hhead
        exact hj (Option.some.inj hhead).symm
      have hflat : Inverse.on ((List.finRange 16).flatMap invs) key =
          (List.finRange 16).flatMap fun j => (invs j).on key := List.filter_flatMap ..
      rw [hflat, flatMap_eq_of_nil (List.mem_finRange i) (List.nodup_finRange 16) fun j _ hj => hother j hj]
      exact (h i).undoes upd key r hmem' hk

/-- **The inverse of a block on the frontier** has that of every account's update. -/
theorem applyNet_inverse (net : List (Key × NetUpdate)) (hnet : Distinct [] net) (n : RamNode)
    (h : Shows stateKind [] n t) (hst : AllStructured t) :
    Updates (applyNet env ram net n) fun _ inv => Inverts [] net t inv := by
  cases h with
  | empty => exact applySerial_inverse net hnet .empty hst
  | extension hp hb hc h hh => exact applySerial_inverse net hnet (.extension hp hb hc h hh) hst
  | @branch _ slots ts hash hq hs hh =>
    have hbucket (i : Nibble) : Updates (applyBucket env ram [i] (bucketOf net i) (slots i))
        fun _ inv => Inverts [i] (bucketOf net i) (ts i) inv :=
      applyBucket_inverse _ (hnet.bucketOf i) (List.cons_ne_nil i []) (hs i) fun p => hst (i :: p)
    refine Updates.fan fun rs hrs => ?_
    dsimp only
    cases hj : joinAll (List.ofFn fun i => (rs i).2) with
    | error e => exact .error _ _
    | ok invs =>
      have heach (i : Nibble) : ∃ inv, (rs i).2 = .ok inv ∧ Inverts [i] (bucketOf net i) (ts i) inv := by
        obtain ⟨inv, heq⟩ := joinAll_each hj i
        refine ⟨inv, heq, ?_⟩
        rw [hrs i] at heq
        exact hbucket i inv heq
      choose f hf hinv using heach
      have hinvs : invs.flatten = (List.finRange 16).flatMap f := by
        have hmap := joinAll_ok hj
        simp only [hf, List.ofFn_eq_map] at hmap
        have hlist : ((List.finRange 16).map f).map Except.ok = invs.map (Except.ok (ε := Err)) :=
          List.map_map.trans hmap
        rw [← List.map_injective_iff.mpr (fun a b h => Except.ok.inj h) hlist, List.flatMap_def]
      refine Updates.map (R := fun _ _ => True) (fun _ _ => trivial) fun _ _ _ => ?_
      rw [hinvs]
      exact .branch hinv

/-- The net updates of a block: one for each account, each slot once. -/
theorem normalizeBlock_distinct {ops : List (Key × StateOp)} (h : ∀ e ∈ ops, e.2.Short) :
    Distinct [] (normalizeBlock ops) where
  below := .of_fits (normalizeBlock_fits h)
  keys := by
    refine List.pairwise_map.mpr ((ops.foldl normalizeStep .empty).map.distinct_keys_toList.imp ?_)
    intro a b hne heq
    exact hne (by rw [heq]; exact Std.ReflOrd.compare_self)
  slots e he := by
    have hentry : (ops.foldl normalizeStep .empty).entry e.1 = e.2 := by
      unfold NormState.entry
      rw [Std.TreeMap.mem_toList_iff_getElem?_eq_some.mp he]
      rfl
    rw [← hentry]
    exact ((blockInv (fun _ => none) ops) e.1).1.nodup

omit [Keccak] in
/-- An inverse of short values has short values. -/
theorem inverse_short (ho : ∀ a, o = some a → a.Short) {e : Key × StateOp} (h : e ∈ upd.inverse key o) :
    e.2.Short := by
  unfold NetUpdate.inverse at h
  split at h
  · split at h
    · rw [List.mem_singleton.mp h]
      trivial
    · cases h
  · cases h
  next n b c s =>
    have hs : s.Short := ho _ rfl
    have hget {slot : Key} {v : Bytes} (hv : s.get slot = some v) : ShortValue v := hs _ _ hv
    have hslots (h : e ∈ restoreSlots key (StateLeaf.account n b c s).slots) : e.2.Short := by
      obtain ⟨⟨slot, v⟩, hmem, rfl⟩ := List.mem_map.mp h
      exact hget (mem_slots.mp hmem)
    dsimp only at h
    split at h
    · rcases List.mem_cons.mp h with rfl | h
      · trivial
      · rcases List.mem_cons.mp h with rfl | h
        · trivial
        · exact hslots h
    · rcases List.mem_append.mp h with h | h
      · rcases List.mem_append.mp h with h | h
        · split at h
          · rcases List.mem_cons.mp h with rfl | h
            · trivial
            · exact hslots h
          · cases h
        · unfold restoreFields at h
          split at h
          · rw [List.mem_singleton.mp h]
            trivial
          · cases h
      · obtain ⟨⟨slot, v⟩, -, h⟩ := List.mem_flatMap.mp h
        dsimp only at h
        cases hp : (if upd.wipe then fun _ => none else s.get) slot with
        | some p =>
          rw [hp] at h
          rw [List.mem_singleton.mp h]
          split at hp
          · cases hp
          · exact hget hp
        | none =>
          rw [hp] at h
          cases v with
          | some v =>
            rw [List.mem_singleton.mp h]
            trivial
          | none => cases h

theorem Inverts.short (h : Inverts [] net t inv) (ht : stateKind.Fit t) : ∀ e ∈ inv, e.2.Short := by
  intro e he
  obtain ⟨⟨key, upd⟩, hmem, heq⟩ := List.mem_map.mp (h.keys e he)
  obtain rfl : key = e.1 := heq
  have hon : e ∈ inv.on e.1 := List.mem_filter.mpr ⟨he, by simp⟩
  rw [h.undoes upd e.1 _ hmem (List.nil_append _).symm] at hon
  exact inverse_short (fun a ha => ht _ a ha) hon

/-! ## What is left after the inverse -/

/-- The map without the slots that the updates wiped and wrote again. -/
def forget (l : Logical) (net : List (Key × NetUpdate)) : Logical := fun k =>
  (l k).map (·.without fun slot => net.any fun e => decide (e.1 = k) && e.2.rewrites slot)

/-- A slot of the map that the updates wiped and wrote again. -/
def Forgets (l : Logical) (net : List (Key × NetUpdate)) (k slot : Key) : Prop :=
  (l k).bind (·.slots slot) ≠ none ∧ ∃ upd, (k, upd) ∈ net ∧ upd.rewrites slot = true

omit [Keccak] in
theorem any_rewrites {k slot : Key} : (net.any fun e => decide (e.1 = k) && e.2.rewrites slot) = true ↔
    ∃ upd, (k, upd) ∈ net ∧ upd.rewrites slot = true := by
  rw [List.any_eq_true]
  constructor
  · rintro ⟨⟨k', upd⟩, hmem, h⟩
    rw [Bool.and_eq_true, decide_eq_true_eq] at h
    obtain ⟨rfl, h⟩ := h
    exact ⟨upd, hmem, h⟩
  · rintro ⟨upd, hmem, h⟩
    exact ⟨(k, upd), hmem, by simpa using h⟩

omit [Keccak] in
theorem forget_eq_iff (l : Logical) (net : List (Key × NetUpdate)) :
    forget l net = l ↔ ∀ k slot, ¬ Forgets l net k slot := by
  constructor
  · rintro heq k slot ⟨hne, hupd⟩
    refine hne ?_
    rw [← heq]
    unfold forget Acct.without
    cases l k with
    | none => rfl
    | some a => exact if_pos (any_rewrites.mpr hupd)
  · intro h
    funext k
    unfold forget
    cases hk : l k with
    | none => rfl
    | some a =>
      refine congrArg some (Acct.without_eq_self fun slot hs => ?_)
      by_contra hne
      exact h k slot ⟨by rwa [hk], any_rewrites.mp hs⟩

/-- The inverse of a block, normalised and applied. -/
theorem applyNets_inverse {l : Logical} (hnet : Distinct [] net) (hst : AllStructured t)
    (hinv : Inverts [] net t inv) (hl : l = applyNets (logicalOf t) net) :
    applyNets l (normalizeBlock inv) = forget (logicalOf t) net := by
  have hne : net.Pairwise fun a b => a.1 ≠ b.1 := List.pairwise_map.mp hnet.keys
  funext k
  by_cases hk : k ∈ net.map Prod.fst
  · obtain ⟨⟨k, upd⟩, hmem, rfl⟩ := List.mem_map.mp hk
    have hupd : l k = upd.apply (acctOf (t.get (keyNibbles k))) := by
      rw [hl, applyNets_of_mem net _ k upd hne hmem]
      rfl
    have hsame {upd' : NetUpdate} (hmem' : (k, upd') ∈ net) : upd' = upd :=
      (Prod.mk.inj (List.inj_on_of_nodup_map hnet.keys hmem' hmem rfl)).2
    have hany (slot : Key) :
        (net.any fun e => decide (e.1 = k) && e.2.rewrites slot) = upd.rewrites slot := by
      rw [Bool.eq_iff_iff, any_rewrites]
      constructor
      · rintro ⟨upd', hmem', h⟩
        rwa [← hsame hmem']
      · exact fun h => ⟨upd, hmem, h⟩
    rw [normalize_inverse (hnet.below _ hmem).1 (hnet.slots _ hmem) (hst _) hupd
      (hinv.undoes upd k _ hmem (List.nil_append _).symm)]
    unfold forget
    simp only [hany]
    rfl
  · have hon : inv.on k = [] := hinv.on_eq_nil hk
    rw [normalize_at (fun _ _ _ _ h => by rw [hon] at h; cases h), hon, hl,
      applyNets_of_notMem net _ k fun e he heq => hk (List.mem_map.mpr ⟨e, he, heq⟩)]
    have hnone (slot : Key) : (net.any fun e => decide (e.1 = k) && e.2.rewrites slot) = false := by
      refine List.any_eq_false.mpr fun e he => ?_
      rw [decide_eq_false fun heq => hk (List.mem_map.mpr ⟨e, he, heq⟩), Bool.false_and]
      exact Bool.false_ne_true
    show logicalOf t k = _
    unfold forget
    cases logicalOf t k with
    | none => rfl
    | some a => exact congrArg some (Acct.without_none hnone).symm

/-! ## The call -/

section
variable {σ : Sys} {n m : RamNode} {leak c : Prop} {W : Holds} {ok : (r : Req) → Resp r → Prop}
  {g : Multiset Rec} {faults : List Bool} {ramMode direct : Bool}

/-- A frontier that shows a tree in relation to the result is left, if all ends well. -/
def LeavesWith {α : Type} (R : α → Tree 16 StateLeaf → Prop) (leak : Prop) (n : RamNode) (r : Except Err α)
    (g : Multiset Rec) : Prop :=
  ∀ a, r = .ok a → ∃ t, R a t ∧ FrontShows t leak n g

theorem leavesWith_of_sim {α : Type} {p q : Upd RamNode α} {R : α → Tree 16 StateLeaf → Prop}
    {rest : Multiset Rec} (h : IdealSim W ok p q g (AgreeOn c Placed (Left Placed)))
    (hq : Updates q fun n' a => ∃ t', Shows stateKind [] n' t' ∧ R a t') (hr : leak ∨ rest = 0) :
    wp ((flat W).filter ok) p (g + rest) fun x g' => LeavesWith R leak x.1 x.2 g' := by
  refine wp_mono (wp_frame rest h) ?_
  rintro ⟨n', r⟩ _ ⟨g', rfl, hx⟩ a ha
  dsimp only at ha
  subst ha
  cases hv : value ideal q with
  | mk m' r' =>
    rw [hv] at hx
    cases r' with
    | error e => exact hx.elim
    | ok b =>
      obtain ⟨hplaced, rfl⟩ := hx
      obtain ⟨t', hs, hR⟩ := hq a (by rw [hv])
      rw [hv] at hs
      exact ⟨t', hR, .of_placed hplaced (shows_inline.mpr hs) hr⟩

/-- A block turns the tree and returns the inverse. -/
def BlockReply (ops : List (Key × StateOp)) (t : Tree 16 StateLeaf) (reply : Reply) (t' : Tree 16 StateLeaf) :
    Prop :=
  Applies [] (normalizeBlock ops) t t' ∧
    ∃ hash inv, reply = .block hash inv ∧ Inverts [] (normalizeBlock ops) t inv

theorem applyBlock_replies (hok : Faithful ok c) {db : Db} {ops : List (Key × StateOp)}
    (hops : ∀ e ∈ ops, e.2.Short) (hst : AllStructured t) (passes : List (List Nibble → Bool))
    (h : FrontShows t leak db.upper g) :
    wp ((flat W).filter ok) (applyBlock env ops passes db) g fun x g' =>
      LeavesWith (BlockReply ops t) leak x.1.upper x.2 g' := by
  obtain ⟨m, g0, rest, hp, rfl, hr, hs⟩ := h.placed
  have hdist := normalizeBlock_distinct hops
  have hnet := leavesWith_of_sim (R := fun inv t' => Applies [] (normalizeBlock ops) t t' ∧
      Inverts [] (normalizeBlock ops) t inv)
    (applyNet_sim (W := W) hok env db.ramMode (normalizeBlock ops) hp)
    (((applyNet_shows _ hdist.below m (shows_inline.mp hs)).and
      (applyNet_inverse _ hdist m (shows_inline.mp hs) hst)).mono
        fun _ _ ⟨⟨t', hn, happ⟩, hinv⟩ => ⟨t', hn, happ, hinv⟩) hr
  refine wp_bind (wp_mono hnet ?_)
  rintro ⟨n1, e | inv⟩ g1 h1
  · exact fun _ h => by cases h
  obtain ⟨t', ⟨happ, hinv⟩, h1⟩ := h1 inv rfl
  have hspill : wp ((flat W).filter ok)
      (if !db.ramMode && env.hot then spillQuota passes n1 else .pure (n1, .ok ())) g1
        fun x g' => ∀ u, x.2 = .ok u → FrontShows t' leak x.1 g' := by
    split
    · exact spillQuota_keeps passes h1
    · exact fun _ _ => h1
  refine wp_bind (wp_mono hspill ?_)
  rintro ⟨n2, e | u⟩ g2 h2
  · exact fun _ h => by cases h
  · rintro _ ⟨⟩
    exact ⟨t', ⟨happ, _, inv, rfl, hinv⟩, (h2 u rfl).fill⟩

/-- What a call from an idle state leaves, with its reply. -/
theorem exec_leaves (hrun : RegularRun env (.create ramMode direct faults) σ) (hidle : σ.running = none)
    (ht : σ.Shows t) {call : Call} {R : Reply → Tree 16 StateLeaf → Prop}
    (hcall : ∀ g, FrontShows t True σ.db.upper g → Scattered g → wp ((flat ⟨[], []⟩).filter (Allowed True))
      (callProg env σ.db call) g fun x g' => LeavesWith R True x.1.upper x.2 g')
    {db : Db} {reply : Reply} {s : Store}
    (hexec : Exec exec anyResp σ.store (callProg env σ.db call) (db, .ok reply) s) :
    ∃ t', R reply t' ∧ (σ.ended s call db reply).Shows t' := by
  obtain ⟨pay, saved, sh, h⟩ := regularInv_of_run hrun
  have hfront : FrontShows t True σ.db.upper sh.writer := h.front_of_loaded (h.fronted hidle) ht
  obtain ⟨g', hleft, hup⟩ := h.leaves (hcall _ hfront h.scattered) hexec
  obtain ⟨t', hR, p, rest, rfl, -, hshow⟩ := hleft reply rfl
  refine ⟨t', hR, ?_⟩
  unfold Sys.Shows
  rw [ended_db, loaded_congr fun p _ => ended_payload σ s call db reply p,
    loaded_inline fun x hx => (hup.store.payload
      (.inl (Multiset.mem_add.mpr (.inl (Multiset.mem_add.mpr (.inl hx)))))).1]
  exact hshow

end

/-! ## There and back -/

section
variable {σ : Sys}

/-- The trees that a state shows have accounts at the same keys. -/
theorem Sys.Shows.account_iff {t' : Tree 16 StateLeaf} (ht : σ.Shows t) (ht' : σ.Shows t') (key : Key) :
    (∃ m b c st, t.get (keyNibbles key) = some (.account m b c st)) ↔
      ∃ m b c st, t'.get (keyNibbles key) = some (.account m b c st) :=
  (structuredAt_iff ht).symm.trans (structuredAt_iff ht')

/-- One tree of structured accounts is enough: reads tell them from opaque values. -/
theorem Sys.Shows.structured (ht : σ.Shows t) (hst : AllStructured t) : σ.Structured := by
  intro t' ht' p v hv
  obtain ⟨key, rfl⟩ := exists_key (ht'.get_length hv)
  have hk : keyNibbles key = [] ++ keyNibbles key := rfl
  obtain ⟨o, hget, hrel⟩ := ramGet_shows reads_state _ ht hk
  obtain ⟨o', hget', hrel'⟩ := ramGet_shows reads_state _ ht' hk
  obtain rfl : o = o' := Except.ok.inj (hget.symm.trans hget')
  rw [hv] at hrel'
  cases hrel'
  rcases (hst (keyNibbles key)).cases with ha | ha
  · rw [ha] at hrel
    cases hrel
  · obtain ⟨m, b, c, st, hr⟩ := (ht.account_iff ht' key).mp ha
    rw [hv] at hr
    cases hr

/-- A block and its inverse both end well, one worker at a time. -/
def goesBack (env : Env) (σ : Sys) (ops : List (Key × StateOp)) : Bool :=
  match run exec (callProg env σ.db (.applyBlock ops [])) σ.store with
  | ((db, .ok (.block root inv)), s) =>
    let σ₁ := σ.ended s (.applyBlock ops []) db (.block root inv)
    (run exec (callProg env σ₁.db (.applyBlock inv [])) σ₁.store).1.2.isOk
  | _ => false

theorem exec_of_goesBack {ops : List (Key × StateOp)} (h : goesBack env σ ops = true) :
    ∃ db db' root inv reply s s' σ₁, σ₁ = σ.ended s (.applyBlock ops []) db (.block root inv) ∧
      Exec exec anyResp σ.store (callProg env σ.db (.applyBlock ops [])) (db, .ok (.block root inv)) s ∧
      Exec exec anyResp σ₁.store (callProg env σ₁.db (.applyBlock inv [])) (db', .ok reply) s' := by
  unfold goesBack at h
  split at h
  next db root inv s hcall =>
    dsimp only at h
    generalize hσ₁ : σ.ended s (.applyBlock ops []) db (.block root inv) = σ₁ at h
    generalize hback : run exec (callProg env σ₁.db (.applyBlock inv [])) σ₁.store = x at h
    obtain ⟨⟨db', e | reply⟩, s'⟩ := x
    · cases h
    · exact ⟨db, db', root, inv, reply, s, s', σ₁, hσ₁.symm, exec_of_run hcall, exec_of_run hback⟩
  next => cases h

end

end

/-- The slot is wiped and written again, beside a new account. -/
def rewriteOps : List (Key × StateOp) :=
  [(.fill 0x30, .wipeStorage), (.fill 0x30, .setStorage (.fill 0x01) [2]),
    (.fill 0x50, .setStorage (.fill 0x01) [1])]

theorem rewritten_goesBack :
    let _ : Keccak := flatHash
    (serves staleEnv (.create false false []) threeOps).any (goesBack staleEnv · rewriteOps) = true := by
  decide +kernel

end FlatMpt
