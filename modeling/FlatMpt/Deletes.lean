import FlatMpt.Refolds

/-!
# Deletion clears or changes a key

A single delete acts on the leaf at its key and leaves every other key; branches that
lose a child are re-folded, so that the frontier still shows the tree.

    Kind.Deletes      -- an operation that deletes
    deleteRam_shows   -- the descent, by induction on the frontier
-/

namespace FlatMpt

open Prog
open Radix (Tree)
open Radix.Tree (Canon)

section
variable [Keccak] {α : Type} {K : Kind α} {env : Env} {q rest : List Nibble} {t : Tree 16 α}
  {key : Key} {op : DeleteOp} {f : α → Except Err (LeafDelete α)} {ram : Bool} {v : Option α}

/-- The value left at the key; a key that is absent is reported as such. -/
def Deleted (f : α → Except Err (LeafDelete α)) (o v : Option α) (out : RamDelete) : Prop :=
  match o with
  | none => v = none ∧ out = .absent
  | some a => ∃ d, f a = .ok d ∧ v = d.result a ∧ (d = .absent → out = .absent)

omit [Keccak] in
theorem Deleted.mono {o : Option α} {out out' : RamDelete} (h : Deleted f o v out)
    (ho : out = .absent → out' = .absent) : Deleted f o v out' := by
  cases o with
  | none => exact ⟨h.1, ho h.2⟩
  | some a =>
    obtain ⟨d, hd, hv, hout⟩ := h
    exact ⟨d, hd, hv, fun h => ho (hout h)⟩

/-! ## Records -/

/-- The outcome as the frontier reports it. -/
def NodeDelete.report : NodeDelete → RamDelete
  | .absent => .absent
  | .changed => .changed
  | .removed => .removed

/-- What the outcome says of the record node left, `v` put at the key. -/
def NodeOutcome (K : Kind α) (q : List Nibble) (t : Tree 16 α) (rest : List Nibble) (v : Option α)
    (node : Node) : NodeDelete → Prop
  | .absent => v = t.get rest
  | .changed => ∃ t', t' ≠ .empty ∧ node = toNode K.form t' ∧ K.Records q t' ∧ Puts t rest v t'
  | .removed => Puts t rest v .empty

/-- An update that re-folded a record. -/
theorem nodeOutcome_refolded (h : K.Records q t) (hlen : q.length + rest.length = 64)
    (hv : ∀ b, v = some b → K.fits b) :
    NodeOutcome K q t rest v (toNode K.form (t.put (64 - q.length) rest v))
      (refolded (t.put (64 - q.length) rest v)) := by
  have hput : Puts t rest v (t.put (64 - q.length) rest v) := puts_put h.canon (by omega)
  by_cases he : t.put (64 - q.length) rest v = .empty
  · rw [he] at hput ⊢
    exact hput
  · rw [refolded_of_ne he]
    exact ⟨_, he, rfl, h.put hlen hv, hput⟩

/-- What a delete needs of its kind: the leaf at the key in a record, and the leaf
promoted into the frontier. -/
structure Kind.DeletesRecord (K : Kind α) (op : DeleteOp) (f : α → Except Err (LeafDelete α)) :
    Prop where
  apply : ∀ p a, applyDeleteOp op (K.form.node p a) = (f a).map (LeafDelete.applied K.form p a)
  fits : ∀ {a b}, f a = .ok (.changed b) → K.fits a → K.fits b

/-- A delete in a record. -/
theorem yields_recordDelete (hD : K.DeletesRecord op f) (h : K.Records q t) (hq : q ≠ [])
    (hk : keyNibbles key = q ++ rest) :
    Yields (.pure (recordNodeDelete (toNode K.form t)
        ((keyNibbles key).drop (localDepth (K.root ++ q))) op)) fun r =>
      ∃ v, Deleted f (t.get rest) v r.2.report ∧ NodeOutcome K q t rest v r.1 r.2 := by
  have hlen := key_length hk
  rw [K.localDepth hq h.length, hk, List.drop_left, recordNodeDelete,
    nodeDelete_toNode K.form h.canon (by omega) _ f hD.apply]
  intro r hr
  change (deleteTree _ t rest f).map _ = .ok r at hr
  unfold deleteTree at hr
  cases ha : t.get rest with
  | none =>
    rw [ha] at hr
    cases hr
    exact ⟨none, ⟨rfl, rfl⟩, ha.symm⟩
  | some a =>
    rw [ha] at hr
    dsimp only at hr
    cases hf : f a with
    | error e =>
      rw [hf] at hr
      cases hr
    | ok d =>
      rw [hf] at hr
      cases hr
      refine ⟨d.result a, ⟨d, hf, rfl, ?_⟩, ?_⟩
      · rintro rfl
        rfl
      · cases d with
        | absent => exact ha.symm
        | removed => exact nodeOutcome_refolded h hlen nofun
        | changed b =>
          refine nodeOutcome_refolded h hlen ?_
          rintro _ ⟨⟩
          exact hD.fits hf (h.fit rest a ha)

/-! ## The descent -/

/-- A delete at the promoted account it names. -/
def deletePromoted (env : Env) (key : Key) (op : DeleteOp) (ram : Bool) (pfx path : List Nibble)
    (nonce : UInt64) (balance : U256) (codeHash : Hash) (storage : RamNode) : Upd RamSlot RamDelete :=
  match op with
  | .value => .pure (.account path nonce balance codeHash storage, .error .valueDeleteOnPromoted)
  | .account => (freeRamRecords storage).bind fun _ => .pure (.none, .ok .removed)
  | .wipeStorage =>
    (freeRamRecords storage).bind fun _ =>
    attempt (makeLeafChild env ram ⟨pfx, accountNode path nonce balance codeHash .empty⟩)
      (fun e => (.none, .error e)) fun slot => .pure (slot, .ok .changed)
  | .storage slot =>
    thenUpd (deleteRam env storage (keyNibbles key) slot .value false) fun storage r =>
    match r with
    | .error e => .pure (.account path nonce balance codeHash storage, .error e)
    | .ok .absent => .pure (.account path nonce balance codeHash storage, .ok .absent)
    | .ok .changed => .pure (.account path nonce balance codeHash storage, .ok .changed)
    | .ok out =>
      attempt (demotedStorage out) (fun e => (.none, .error e)) fun storageNode =>
      let subtree : DiskSubtree := ⟨pfx, accountNode path nonce balance codeHash storageNode⟩
      attempt (if shouldPromoteAccount env.cfg subtree then
          promoteAccountToRam env (ram || env.hot) subtree
        else makeLeafChild env ram subtree) (fun e => (.none, .error e)) fun slot =>
      .pure (slot, .ok .changed)

structure Kind.Deletes (K : Kind α) (env : Env) (op : DeleteOp) (f : α → Except Err (LeafDelete α)) :
    Prop where
  lifts : K.Lifts env
  record : K.DeletesRecord op f
  promoted : ∀ {key q path nonce balance codeHash storage a} (ram : Bool),
    keyNibbles key = q ++ path → K.lone (K.root ++ keyNibbles key) nonce balance codeHash storage a →
    K.fits a →
    Updates (deletePromoted env key op ram (K.root ++ q) path nonce balance codeHash storage)
      fun s out => ∃ v, Deleted f (some a) v out ∧
        OutcomeSlot K q (.leaf path a) path v (.account path nonce balance codeHash storage) s out

mutual

theorem deleteRam_shows (hD : K.Deletes env op f) (n : RamNode) {q rest : List Nibble}
    {t : Tree 16 α} (h : Shows K q n t) (hc : q = [] ∨ t ≠ .empty ∧ Canon (64 - q.length) t)
    (hw : K.Within q) (ha : K.Apart q rest t) (hk : keyNibbles key = q ++ rest) :
    Updates (deleteRam env n (K.root ++ q) key op ram) fun n' out =>
      ∃ v, Deleted f (t.get rest) v out ∧ Outcome K q t rest v n n' out := by
  have hlen := key_length hk
  match n with
  | .empty =>
    cases h
    unfold deleteRam
    exact .ok ⟨none, ⟨rfl, rfl⟩, rfl, rfl⟩
  | .extension path child hash =>
    cases h with
    | @extension _ _ _ t _ hp hb hcc hch hh =>
    have ht : t ≠ .empty := by
      cases hb
      simp
    have hext : Tree.prepend path t = .ext path t := by
      cases hb
      exact if_neg hp
    unfold deleteRam
    rw [hw.drop hk]
    by_cases hpre : ∃ r, rest = path ++ r
    · obtain ⟨r, rfl⟩ := hpre
      rw [if_pos (by simp), List.append_assoc]
      refine (deleteRam_shows hD child hch (.inr ⟨ht, hcc⟩) (fun _ => isBranch_length_lt hb hcc)
        ha.below (by rw [hk, List.append_assoc])).thenUpd (fun _ _ => .error _ _) ?_
      rintro child' out ⟨v, hdel, hout⟩
      refine (afterExtension_outcome hp hb hcc hout).mono ?_
      rintro n' out' ⟨hout', habs⟩
      exact ⟨v, by rw [Tree.get_ext_append]; exact hdel.mono habs, hout'⟩
    · rw [if_neg]
      · have hget : (Tree.ext path t).get rest = none := by
          rw [← hext]
          exact Tree.get_prepend_of_off fun r hr => hpre ⟨r, hr⟩
        exact .ok ⟨none, by rw [hget]; exact ⟨rfl, rfl⟩, rfl, hget.symm⟩
      · rw [List.isPrefixOf_iff_prefix]
        rintro ⟨r, hr⟩
        exact hpre ⟨r, hr.symm⟩
  | .branch slots hash =>
    cases h with
    | @branch _ _ ts _ hq hs hh =>
    unfold deleteRam
    rw [hw.head hk]
    cases rest with
    | nil => exact .error _ _
    | cons i r =>
      have hw' : K.Within (q ++ [i]) := ha.child_within (hc.imp_right And.right) hlen
      simp only [List.head?_cons, List.append_assoc]
      refine (deleteInChild_shows hD (slots i) (hs i) (by simp) hw' ha.child
        (by rw [hk, List.append_assoc]; rfl)).thenUpd (fun _ _ => .error _ _) ?_
      rintro s out ⟨v, hdel, hout⟩
      refine (afterChild_outcome hq hs hout).mono ?_
      rintro n' out' ⟨hout', habs⟩
      exact ⟨v, hdel.mono habs, hout'⟩

theorem deleteInChild_shows (hD : K.Deletes env op f) (s : RamSlot) {q rest : List Nibble}
    {t : Tree 16 α} (h : ShowsSlot K q s t) (hq : q ≠ []) (hw : K.Within q)
    (ha : K.Apart q rest t) (hk : keyNibbles key = q ++ rest) :
    Updates (deleteInChild env s (K.root ++ q) key op ram) fun s' out =>
      ∃ v, Deleted f (t.get rest) v out ∧ OutcomeSlot K q t rest v s s' out := by
  have hlen := key_length hk
  match s with
  | .none =>
    cases h
    unfold deleteInChild
    exact .ok ⟨none, ⟨rfl, rfl⟩, rfl, rfl⟩
  | .ram sub =>
    cases h with
    | ram hc ht h =>
      unfold deleteInChild
      refine (deleteRam_shows hD sub h (.inr ⟨ht, hc⟩) hw ha hk).thenUpd (fun _ _ => .error _ _) ?_
      rintro sub' out ⟨v, hdel, hout⟩
      match out with
      | .absent =>
        obtain ⟨rfl, hv⟩ := hout
        exact .ok ⟨v, hdel, rfl, hv⟩
      | .changed =>
        obtain ⟨t', ht', hn, hp, hc'⟩ := hout
        exact .ok ⟨v, hdel, t', ht', .ram (hc' ht hc) ht' hn, hp⟩
      | .removed => exact .ok ⟨v, hdel, rfl, hout⟩
      | .collapsed edge survivor =>
        obtain ⟨t', ht', he, hl, hs, hp⟩ := hout
        refine (rehomeChild_shows ram he ht' hl hs).attemptOn fun s hs => .ok ?_
        exact ⟨v, hdel.mono nofun, _, mt Tree.prepend_eq_empty.mp ht', hs, hp⟩
  | .mem bytes root =>
    cases h with
    | mem h =>
      unfold deleteInChild
      refine (yields_record h).attemptOn ?_
      rintro _ rfl
      refine (yields_recordDelete hD.record h.records hq hk).attemptOn ?_
      rintro ⟨node, out⟩ ⟨v, hdel, hout⟩
      match out with
      | .absent => exact .ok ⟨v, hdel, rfl, hout⟩
      | .changed =>
        obtain ⟨t', ht', rfl, hr, hp⟩ := hout
        exact (makeMemLeaf_shows hr ht' rfl).attemptOn fun s hs => .ok ⟨v, hdel, t', ht', hs, hp⟩
      | .removed => exact .ok ⟨v, hdel, rfl, hout⟩
  | .disk ptr root =>
    cases h with
    | disk h =>
      unfold deleteInChild
      refine (yields_readRecord h).attemptOn ?_
      rintro _ rfl
      refine (yields_recordDelete hD.record h.records hq hk).attemptOn ?_
      rintro ⟨node, out⟩ ⟨v, hdel, hout⟩
      match out with
      | .absent => exact .ok ⟨v, hdel, rfl, hout⟩
      | .changed =>
        obtain ⟨t', ht', rfl, hr, hp⟩ := hout
        exact .step ((makeLeafChild_shows hr ht' rfl false).attemptOn fun s hs =>
          .ok ⟨v, hdel, t', ht', hs, hp⟩)
      | .removed => exact .step (.ok ⟨v, hdel, rfl, hout⟩)
  | .account path nonce balance codeHash storage =>
    cases h with
    | @account _ _ _ _ _ _ a hp ha' hl =>
    unfold deleteInChild
    rw [hw.drop hk]
    by_cases hpath : rest = path
    · subst hpath
      rw [if_neg (not_not.mpr rfl), Tree.get_leaf, if_pos rfl]
      rw [List.append_assoc, ← hk] at hl
      exact show Updates (deletePromoted env key op ram (K.root ++ q) rest nonce balance codeHash
        storage) _ from hD.promoted ram hk hl ha'
    · have hget : (Tree.leaf path a).get rest = none := by
        rw [Tree.get_leaf, if_neg hpath]
      rw [if_pos hpath]
      exact .ok ⟨none, by rw [hget]; exact ⟨rfl, rfl⟩, rfl, hget.symm⟩

end

end

section
variable [Keccak] {env : Env}

/-! ## The kinds -/

theorem deletes_storage (account : Key) :
    (storageKind account).Deletes env .value fun _ => .ok .removed where
  lifts := lifts_storage account
  record := ⟨fun _ _ => rfl, fun h => nomatch h⟩
  promoted _ _ h _ := h.elim

/-- What a slot delete leaves of a promoted account's storage. -/
def DeletesSlot (account slot : Key) (s : Storage) (storage n : RamNode) : RamDelete → Prop
  | .absent => n = storage ∧ s.get slot = none
  | .changed => (s.get slot).isSome ∧ Shows (storageKind account) [] n (s.put slot none).tree ∧
      (s.put slot none).tree ≠ .empty
  | out => (s.get slot).isSome ∧ Yields (demotedStorage out) (· = (s.put slot none).toNode)

theorem deleteStorage_shows {account slot : Key} {s : Storage} {storage : RamNode}
    (ht : s.tree ≠ .empty) (h : Shows (storageKind account) [] storage s.tree) :
    Updates (deleteRam env storage (keyNibbles account) slot .value false)
      (DeletesSlot account slot s storage) := by
  have hroot : (storageKind account).root ≠ [] := by
    intro hr
    have := keyNibbles_length account
    rw [show keyNibbles account = [] from hr] at this
    cases this
  have hdel : Updates (deleteRam env storage (keyNibbles account ++ []) slot .value false) _ :=
    deleteRam_shows (deletes_storage account) storage h (.inl rfl) (fun hr => absurd hr hroot)
      (fun hr => absurd hr hroot) (List.nil_append _).symm
  rw [List.append_nil] at hdel
  refine hdel.mono ?_
  rintro n out ⟨v, hv, hout⟩
  have hsome (h : out ≠ .absent) : v = none ∧ (s.get slot).isSome := by
    change Deleted _ (s.get slot) v out at hv
    cases hg : s.get slot with
    | none =>
      rw [hg] at hv
      exact absurd hv.2 h
    | some a =>
      rw [hg] at hv
      obtain ⟨_, ⟨⟩, rfl, -⟩ := hv
      exact ⟨rfl, rfl⟩
  have heq {u : Tree 16 Bytes} (hu : Canon 64 u) (hp : Puts s.tree (keyNibbles slot) none u) :
      u = (s.put slot none).tree := hu.eq_put hp
  have hdemoted (h : out ≠ .absent) : Yields (demotedStorage out) (· = (s.put slot none).toNode) := by
    refine (demotedStorage_shows hout).mono ?_
    rintro _ ⟨u, rfl, hu, hp⟩
    obtain ⟨rfl, -⟩ := hsome h
    rw [heq hu hp]
    rfl
  match out with
  | .absent =>
    refine ⟨hout.1, ?_⟩
    change Deleted _ (s.get slot) v _ at hv
    cases hg : s.get slot with
    | none => rfl
    | some a =>
      rw [hg] at hv
      obtain ⟨_, ⟨⟩, rfl, -⟩ := hv
      exact hg.symm.trans hout.2.symm
  | .changed =>
    obtain ⟨rfl, hs⟩ := hsome nofun
    obtain ⟨t', ht', hn, hp, hc⟩ := hout
    have := heq (hc ht s.canon) hp
    exact ⟨hs, this ▸ hn, this ▸ ht'⟩
  | .removed => exact ⟨(hsome nofun).2, hdemoted nofun⟩
  | .collapsed edge survivor => exact ⟨(hsome nofun).2, hdemoted nofun⟩

theorem leafDelete_short {op : DeleteOp} {a b : StateLeaf} (h : leafDelete op a = .ok (.changed b))
    (ha : a.Short) : b.Short := by
  match a, op with
  | .raw old, .value => cases h
  | .raw old, .account => cases h
  | .raw old, .storage slot =>
    simp only [leafDelete] at h
    split at h
    · split at h <;> cases h
    · cases h
  | .raw old, .wipeStorage =>
    simp only [leafDelete] at h
    split at h
    · split at h
      · cases h
      · cases h
        exact Storage.short_empty
    · cases h
  | .account n b c s, .value => cases h
  | .account n b c s, .account => cases h
  | .account n b c s, .storage slot =>
    simp only [leafDelete] at h
    split at h
    · cases h
    · cases h
      exact (show s.Short from ha).put slot fun _ h => by cases h
  | .account n b c s, .wipeStorage =>
    simp only [leafDelete] at h
    split at h
    · cases h
    · cases h
      exact Storage.short_empty

theorem deletes_state (op : DeleteOp) : stateKind.Deletes env op (leafDelete op) where
  lifts := lifts_state
  record := ⟨applyDeleteOp_stateLeaf op, leafDelete_short⟩
  promoted := by
    rintro key q path nonce balance codeHash storage _ ram hk ⟨account, s, hf, rfl, ht, h⟩ ha
    obtain rfl : key = account := keyNibbles_injective hf
    have hlen := key_length hk
    have hrec {s' : Storage} (hs : s'.Short) :
        stateKind.Records q (.leaf path (.account nonce balance codeHash s')) :=
      .leaf (by omega) hlen hs
    have hput {a a' : StateLeaf} : Puts (.leaf path a) path (some a') (.leaf path a') := by
      intro p
      rw [Tree.get_leaf, Tree.get_leaf]
      split <;> rfl
    unfold deletePromoted
    cases op with
    | value => exact .error _ _
    | account =>
      refine .after (.ok ⟨none, ⟨.removed, rfl, rfl, fun h => by cases h⟩, rfl, fun p => ?_⟩)
      rw [Tree.get_leaf, Tree.get_empty]
      split <;> rfl
    | wipeStorage =>
      refine .after ((makeLeafChild_shows (hrec Storage.short_empty) (fun h => by cases h) rfl ram).attemptOn
        fun s' hs => .ok ?_)
      refine ⟨some (.account nonce balance codeHash .empty), ⟨.changed _, ?_, rfl, fun h => by cases h⟩, _, ?_,
        hs, hput⟩
      swap
      · exact fun h => by cases h
      rw [leafDelete, if_neg (mt Tree.isEmpty_iff.mp ht)]
    | storage slot =>
      have hleaf (hs : (s.get slot).isSome) : leafDelete (.storage slot)
          (.account nonce balance codeHash s) =
            .ok (.changed (.account nonce balance codeHash (s.put slot none))) := by
        rw [leafDelete, if_neg]
        rw [Option.isNone_iff_eq_none]
        rintro hn
        rw [hn] at hs
        cases hs
      have hshort : (s.put slot none).Short := (show s.Short from ha).put slot fun _ h => by cases h
      refine (deleteStorage_shows ht h).thenUpd (fun _ _ => .error _ _) ?_
      intro n out hout
      have hrest (hout : (s.get slot).isSome ∧
          Yields (demotedStorage out) (· = (s.put slot none).toNode)) :
          Updates (attempt (demotedStorage out) (fun e => (RamSlot.none, .error e)) fun storageNode =>
            let subtree : DiskSubtree := ⟨q, accountNode path nonce balance codeHash storageNode⟩
            attempt (if shouldPromoteAccount env.cfg subtree then
                promoteAccountToRam env (ram || env.hot) subtree
              else makeLeafChild env ram subtree) (fun e => (.none, .error e)) fun slot =>
            .pure (slot, .ok .changed)) fun s' out => ∃ v,
              Deleted (leafDelete (.storage slot)) (some (.account nonce balance codeHash s)) v out ∧
              OutcomeSlot stateKind q (.leaf path (.account nonce balance codeHash s)) path v
                (.account path nonce balance codeHash storage) s' out := by
        refine hout.2.attemptOn ?_
        rintro _ rfl
        dsimp only
        have hdone : Yields (if shouldPromoteAccount env.cfg
              ⟨q, accountNode path nonce balance codeHash (s.put slot none).toNode⟩ then
            promoteAccountToRam env (ram || env.hot)
              ⟨q, accountNode path nonce balance codeHash (s.put slot none).toNode⟩
          else makeLeafChild env ram
            ⟨q, accountNode path nonce balance codeHash (s.put slot none).toNode⟩)
          (ShowsSlot stateKind q · (.leaf path (.account nonce balance codeHash (s.put slot none)))) := by
          split
          · exact promoteAccount_shows lifts_state _ (hrec hshort) rfl
          · exact makeLeafChild_shows (hrec hshort) (fun h => by cases h) rfl ram
        refine hdone.attemptOn fun s' hs => .ok ?_
        exact ⟨some _, ⟨.changed _, hleaf hout.1, rfl, fun h => by cases h⟩, .leaf path _, (fun h => by cases h), hs, hput⟩
      cases out with
      | absent =>
        obtain ⟨rfl, hn⟩ := hout
        refine .ok ⟨some _, ⟨.absent, ?_, rfl, fun _ => rfl⟩, rfl, ?_⟩
        · rw [leafDelete, if_pos (Option.isNone_iff_eq_none.mpr hn)]
        · rw [Tree.get_leaf, if_pos rfl]
      | changed =>
        obtain ⟨hs, hn, ht'⟩ := hout
        refine .ok ⟨some _, ⟨.changed _, hleaf hs, rfl, fun h => by cases h⟩, .leaf path _, (fun h => by cases h),
          showsSlot_account hk (by omega) hshort ht' hn, hput⟩
      | removed => exact hrest hout
      | collapsed edge survivor => exact hrest hout

end

end FlatMpt
