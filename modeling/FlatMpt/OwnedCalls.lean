import FlatMpt.Owned
import FlatMpt.System

/-!
# Owned pointers through the public calls

Block application and the batches of RAM-build mode keep the frontier's pointers
owned.

    applyNet_owned
    insertSerial_owned, insertBatchRam_owned
-/

namespace FlatMpt

open Prog

section
variable [Keccak] {W : Holds} {α β σ : Type} {g : Multiset Rec} {rest : Multiset DiskPtr}

/-! ## Reads -/

mutual

theorem ramGet_owned (node : RamNode) (nibbles : List Nibble) (depth : Nat)
    (rest : Multiset DiskPtr) (g : Multiset Rec) (h : Owns (nodePtrs node + rest) g) :
    wp (quiet W) (ramGet node nibbles depth) g fun _ g' => g' = g := by
  match node with
  | .empty => exact rfl
  | .extension path child hash =>
    unfold ramGet
    split
    · exact ramGet_owned child nibbles _ rest g h
    · exact rfl
  | .branch children hash =>
    unfold ramGet
    split
    · exact rfl
    · rename_i idx _
      rw [nodePtrs_branch_at children hash idx, add_assoc] at h
      exact slotGet_owned (children idx) nibbles depth _ g h

theorem slotGet_owned (slot : RamSlot) (nibbles : List Nibble) (depth : Nat)
    (rest : Multiset DiskPtr) (g : Multiset Rec) (h : Owns (slotPtrsOf slot + rest) g) :
    wp (quiet W) (slotGet slot nibbles depth) g fun _ g' => g' = g := by
  match slot with
  | .none => exact rfl
  | .ram child => exact ramGet_owned child nibbles _ rest g h
  | .disk ptr root =>
    rw [slotPtrsOf_disk, Multiset.singleton_add] at h
    exact wp_attempt (readLazy_owned h (Multiset.mem_cons_self _ _)) (fun _ _ hg => hg)
      fun _ _ hg => hg
  | .mem bytes root => exact wp_attempt_pure (fun _ _ => rfl) fun _ _ => rfl
  | .account path nonce balance codeHash storage => exact rfl

end

omit [Keccak] in
theorem collectRecords_owned (reads : List (Act DiskSubtree))
    (h : ∀ read ∈ reads, wp (quiet W) read g fun _ g' => g' = g) :
    wp (quiet W) (collectRecords reads) g fun _ g' => g' = g := by
  induction reads with
  | nil => exact rfl
  | cons read reads ih =>
    refine wp_attempt (h read List.mem_cons_self) (fun _ _ hg => hg) fun sub g' hg => ?_
    subst hg
    refine wp_attempt_pure (fun _ _ => rfl) fun slots _ => ?_
    exact wp_attempt (ih fun r hr => h r (List.mem_cons_of_mem _ hr)) (fun _ _ hg => hg)
      fun _ _ hg => hg

mutual

theorem storageRecords_owned (node : RamNode) (rest : Multiset DiskPtr) (g : Multiset Rec)
    (h : Owns (nodePtrs node + rest) g) :
    ∀ read ∈ storageRecords node, wp (quiet W) read g fun _ g' => g' = g := by
  match node with
  | .empty => exact fun read hr => absurd hr List.not_mem_nil
  | .extension path child hash => exact storageRecords_owned child rest g h
  | .branch children hash =>
    intro read hr
    obtain ⟨i, -, hr⟩ := List.mem_flatMap.mp hr
    rw [nodePtrs_branch_at children hash i, add_assoc] at h
    exact slotRecords_owned (children i) _ g h read hr

theorem slotRecords_owned (slot : RamSlot) (rest : Multiset DiskPtr) (g : Multiset Rec)
    (h : Owns (slotPtrsOf slot + rest) g) :
    ∀ read ∈ slotRecords slot, wp (quiet W) read g fun _ g' => g' = g := by
  match slot with
  | .none => exact fun read hr => absurd hr List.not_mem_nil
  | .ram sub => exact storageRecords_owned sub rest g h
  | .disk ptr root =>
    intro read hr
    rw [slotPtrsOf_disk, Multiset.singleton_add] at h
    obtain rfl := List.mem_singleton.mp hr
    exact readLazy_owned h (Multiset.mem_cons_self _ _)
  | .mem bytes root =>
    intro read hr
    obtain rfl := List.mem_singleton.mp hr
    exact rfl
  | .account path nonce balance codeHash storage =>
    intro read hr
    obtain rfl := List.mem_singleton.mp hr
    exact rfl

end

theorem ramCollectStorage_owned (node : RamNode) (h : Owns (nodePtrs node + rest) g) :
    wp (quiet W) (ramCollectStorage node) g fun _ g' => g' = g :=
  collectRecords_owned _ (storageRecords_owned node rest g h)

/-! ## Blocks -/

/-- Results of a child with the inverse it recorded. -/
def childPtrs (r : RamSlot × Inverse) : Multiset DiskPtr := slotPtrsOf r.1

/-- Results of a descent with the inverse it recorded. -/
def groupPtrs (r : RamDelete × Inverse) : Multiset DiskPtr := outPtrs r.1

theorem finishChild_owned (env : Env) (ram : Bool) (h : Owns rest g) (subtree : DiskSubtree) :
    wp (quiet W) (finishChild env ram subtree) g (Solid slotPtrsOf rest) := by
  unfold finishChild
  split
  · exact promoteToRam_owned env _ h subtree
  · split
    · exact promoteAccountToRam_owned env _ h subtree
    · exact makeLeafChild_owned env ram h subtree

theorem creationChild_owned (env : Env) (ram : Bool) (h : Owns rest g) (pfx : List Nibble)
    (key : Key) (upd : NetUpdate) :
    wp (quiet W) (creationChild env ram pfx key upd) g (Loose childPtrs rest) := by
  unfold creationChild
  refine wp_attempt_pure (fun _ _ _ => h) fun (node, out, inv) _ => ?_
  have hfin : ∀ node, wp (quiet W) (attempt (finishChild env ram ⟨pfx, node⟩) .error fun slot =>
      Act.ok (slot, inv)) g (Loose childPtrs rest) := fun node =>
    wp_attempt (finishChild_owned env ram h _) (fun _ _ he hne => absurd he hne) fun _ _ hs => hs
  cases node with
  | empty =>
    show Owns (0 + rest) g
    rwa [zero_add]
  | leaf path value nref => exact hfin _
  | extension path child nref => exact hfin _
  | branch children nref => exact hfin _
  | account path nonce balance codeHash storage storageRoot nref => exact hfin _

theorem captureStorage_owned (key : Key) (nonce : UInt64) (balance : U256) (codeHash : Hash)
    (storage : RamNode) (h : Owns (nodePtrs storage + rest) g) :
    wp (quiet W) (captureStorage key nonce balance codeHash storage) g (Loose noPtrs rest) := by
  refine wp_attempt (ramCollectStorage_owned storage h) (fun e g' hg => ?_) fun slots g' hg => ?_
  · subst hg
    exact fun _ => h.right
  · subst hg
    refine wp_bind (wp_mono (freeRamRecords_owned storage h) fun _ g' h' => ?_)
    show Owns (0 + rest) g'
    rwa [zero_add]

theorem demoteAccount_owned (env : Env) (ram : Bool) (h : Owns rest g) (pfx : List Nibble)
    (key : Key) (account : Node) (upd : NetUpdate) :
    wp (quiet W) (demoteAccount env ram pfx key account upd) g (Loose childPtrs rest) :=
  wp_attempt_pure (fun _ _ _ => h) fun _ _ =>
    wp_attempt (finishChild_owned env ram h _) (fun _ _ he hne => absurd he hne) fun _ _ hs => hs

omit [Keccak] in
/-- Collecting more of the outcome keeps the pointers. -/
theorem afterSlot_owned (changed : Bool) (inv : Inverse) {p : Upd RamSlot (Bool × Inverse)}
    (h : wp (quiet W) p g (Leaves slotPtrsOf noPtrs rest)) :
    wp (quiet W) (afterSlot changed inv p) g (Leaves slotPtrsOf noPtrs rest) := by
  refine wp_bind (wp_mono h ?_)
  rintro ⟨slot, r⟩ g' hr
  cases r with
  | ok a => exact hr
  | error e => exact hr

theorem applySlots_owned (env : Env) (ram : Bool) (pfx : List Nibble) (key : Key)
    (path : List Nibble) (nonce : UInt64) (balance : U256) (codeHash : Hash)
    (slots : List (Key × Option Bytes)) (storage : RamNode) (h : Owns (nodePtrs storage + rest) g) :
    wp (quiet W) (applySlots env ram pfx key path nonce balance codeHash slots storage) g
      (Leaves slotPtrsOf noPtrs rest) := by
  induction slots generalizing storage g with
  | nil => exact Leaves.ok h
  | cons s slots ih =>
    obtain ⟨slot, value⟩ := s
    unfold applySlots
    refine wp_attempt (ramGet_owned storage _ _ rest g h) (fun e g' hg => ?_) fun prior g' hg => ?_
    · subst hg
      exact Leaves.error h
    subst hg
    cases value with
    | some value =>
      refine wp_thenUpd (insertRam_owned env storage (keyNibbles key) slot _ false rest _ h) ?_
      intro storage r g' hr
      cases r with
      | error e => exact hr
      | ok a =>
        have hr : Owns (nodePtrs storage + (0 + rest)) g' := hr
        rw [zero_add] at hr
        exact afterSlot_owned _ _ (ih storage hr)
    | none =>
      refine wp_thenUpd (deleteRam_owned env storage (keyNibbles key) slot .value false rest _ h) ?_
      intro storage r g' hr
      cases r with
      | error e => exact hr
      | ok out =>
        have hdem : wp (quiet W) (attempt (demotedStorage out)
            (fun e => ((RamSlot.none, Except.error e) : RamSlot × _)) fun storageNode =>
            attempt (demoteAccount env ram pfx key
              (accountNode path nonce balance codeHash storageNode) ⟨false, .keep, slots⟩)
              (fun e => (.none, .error e)) fun x =>
            .pure (x.1, .ok (true, undoSlot key slot prior none ++ x.2))) g'
            (Leaves slotPtrsOf noPtrs rest) := by
          have hlost : ∀ {e : Err} {g'}, (e ≠ .panic → Owns rest g') →
              Leaves slotPtrsOf (noPtrs (α := Bool × Inverse)) rest (.none, .error e) g' :=
            fun he => Leaves.lost (q := 0) rfl fun hne => by
              rw [zero_add]
              exact he hne
          refine wp_attempt (demotedStorage_owned out (Owns.right hr)) (fun e g' he => hlost he)
            fun node g' hn => ?_
          have hn : Owns (0 + rest) g' := hn
          rw [zero_add] at hn
          exact wp_attempt (demoteAccount_owned env ram hn pfx key _ _) (fun e g' he => hlost he)
            fun c g' hc => Leaves.ok hc
        have hcont : ∀ changed, (outPtrs out = 0) → wp (quiet W)
            (afterSlot changed (undoSlot key slot prior none)
              (applySlots env ram pfx key path nonce balance codeHash slots storage)) g'
            (Leaves slotPtrsOf noPtrs rest) := by
          intro changed ho
          have hr : Owns (nodePtrs storage + (outPtrs out + rest)) g' := hr
          rw [ho, zero_add] at hr
          exact afterSlot_owned _ _ (ih storage hr)
        cases out with
        | absent => exact hcont false rfl
        | changed => exact hcont true rfl
        | removed => exact hdem
        | collapsed edge survivor => exact hdem

theorem applyPromoted_owned (env : Env) (ram : Bool) (pfx : List Nibble) (key : Key)
    (upd : NetUpdate) (path : List Nibble) (nonce : UInt64) (balance : U256) (codeHash : Hash)
    (storage : RamNode) (h : Owns (nodePtrs storage + rest) g) :
    wp (quiet W) (applyPromoted env ram pfx key upd path nonce balance codeHash storage) g
      (Leaves slotPtrsOf groupPtrs rest) := by
  have hlost : ∀ {e : Err} {g'}, (e ≠ .panic → Owns rest g') →
      Leaves slotPtrsOf groupPtrs rest (.none, .error e) g' :=
    fun he => Leaves.lost (q := 0) rfl fun hne => by
      rw [zero_add]
      exact he hne
  have hfinish : ∀ {p : Upd RamSlot (Bool × Inverse)} (set : Bool) (inv : Inverse),
      wp (quiet W) p g (Leaves slotPtrsOf noPtrs rest) →
      wp (quiet W) ((afterSlot set inv p).bind fun r => .pure (r.1, r.2.map fun out =>
        ((if out.1 then RamDelete.changed else .absent), out.2))) g
        (Leaves slotPtrsOf groupPtrs rest) := by
    intro p set inv hp
    refine wp_bind (wp_mono (afterSlot_owned set inv hp) ?_)
    rintro ⟨slot, r⟩ g' hr
    cases r with
    | error e => exact hr
    | ok out =>
      obtain ⟨changed, inv'⟩ := out
      cases changed <;> exact hr
  unfold applyPromoted
  split
  · refine wp_attempt (captureStorage_owned key nonce balance codeHash storage h)
      (fun e g' he => hlost he) fun inv g' hi => ?_
    show Owns (0 + (0 + rest)) g'
    rw [zero_add]
    exact hi
  · split
    · refine wp_attempt (captureStorage_owned key nonce balance codeHash storage h)
        (fun e g' he => hlost he) fun inv g' hi => ?_
      have hi : Owns (0 + rest) g' := hi
      rw [zero_add] at hi
      refine wp_attempt (demoteAccount_owned env ram hi pfx key _ _) (fun e g' he => hlost he)
        fun c g' hc => ?_
      show Owns (slotPtrsOf c.1 + (0 + rest)) g'
      rw [zero_add]
      exact hc
    · simp only
      split
      · exact hfinish true _ (applySlots_owned env ram pfx key path _ _ _ _ storage h)
      · exact hfinish false _ (applySlots_owned env ram pfx key path _ _ _ _ storage h)

omit [Keccak] in
/-- A pure end of a descent, with its inverse. -/
theorem Leaves.group {node : RamNode} {r : Except Err RamDelete} (inv : Inverse)
    (h : Leaves nodePtrs outPtrs rest (node, r) g) :
    Leaves nodePtrs groupPtrs rest (node, r.map fun out => (out, inv)) g := by
  cases r with
  | ok out => exact h
  | error e => exact h

mutual

theorem applyRamGroup_owned (env : Env) (node : RamNode) (pfx : List Nibble) (key : Key)
    (upd : NetUpdate) (ram : Bool) (rest : Multiset DiskPtr) (g : Multiset Rec)
    (h : Owns (nodePtrs node + rest) g) :
    wp (quiet W) (applyRamGroup env node pfx key upd ram) g (Leaves nodePtrs groupPtrs rest) := by
  match node with
  | .empty =>
    have h0 : Owns (0 + (0 + rest)) g := by
      rw [zero_add]
      exact h
    unfold applyRamGroup
    split
    · exact h0
    · split
      · exact Leaves.panic rfl
      · rename_i idx _
        refine wp_attempt (creationChild_owned env ram h.right _ key upd)
          (fun e g' he => Leaves.lost (q := 0) rfl fun hne => by
            rw [zero_add]
            exact he hne) fun c g' hc => ?_
        obtain ⟨child, inv⟩ := c
        have hc : Owns (slotPtrsOf child + rest) g' := hc
        simp only
        split
        · show Owns (nodePtrs (.branch (Function.update emptyChildren idx child) none) + (0 + rest)) g'
          rwa [nodePtrs_single, zero_add]
        · show Owns (0 + (0 + rest)) g'
          rw [zero_add, zero_add]
          exact hc.right
  | .extension path child hash =>
    have hsame : Owns (nodePtrs child + (0 + rest)) g := by
      rw [zero_add]
      exact h
    unfold applyRamGroup
    simp only
    split
    · split
      · exact hsame
      · split
        · rename_i oldIdx oldRest newIdx _ _ _
          refine wp_attempt (creationChild_owned env ram h _ key upd)
            (fun e g' he => Leaves.lost rfl he) fun c g' hc => ?_
          refine Owns.mono hc ?_
          show nodePtrs (underCommon path _ _) + (0 + rest) ≤ slotPtrsOf c.1 + (nodePtrs child + rest)
          rw [nodePtrs_underCommon, zero_add, ← add_assoc]
          refine add_le_add_left (le_trans (nodePtrs_pair_le ..) (le_of_eq ?_)) rest
          rw [slotPtrsOf_ram, nodePtrs_wrapPath]
        · exact Leaves.panic rfl
    · refine wp_thenUpd (applyRamGroup_owned env child (pfx ++ path) key upd ram rest g h) ?_
      intro child r g' hr
      cases r with
      | error e => exact Leaves.lost rfl hr
      | ok out => exact Leaves.group out.2 (afterExtension_owned path child hash out.1 hr)
  | .branch children hash =>
    unfold applyRamGroup
    split
    · exact Leaves.panic rfl
    · rename_i idx _
      rw [nodePtrs_branch_at children hash idx, add_assoc] at h
      refine wp_thenUpd (applyGroupChild_owned env (children idx) (pfx ++ [idx]) key upd ram _ g h) ?_
      intro slot r g' hr
      cases r with
      | error e => exact Leaves.lost rfl fun he => (hr he).right
      | ok out =>
        refine Leaves.group out.2 (afterChild_owned _ hash out.1 ?_)
        have hr : Owns (slotPtrsOf slot + (outPtrs out.1 + (otherPtrs children idx + rest))) g' := hr
        rw [nodePtrs_branch_update, add_assoc]
        rwa [add_left_comm (outPtrs out.1)] at hr

theorem applyGroupChild_owned (env : Env) (slot : RamSlot) (pfx : List Nibble) (key : Key)
    (upd : NetUpdate) (ram : Bool) (rest : Multiset DiskPtr) (g : Multiset Rec)
    (h : Owns (slotPtrsOf slot + rest) g) :
    wp (quiet W) (applyGroupChild env slot pfx key upd ram) g (Leaves slotPtrsOf groupPtrs rest) := by
  match slot with
  | .none =>
    unfold applyGroupChild
    split
    · show Owns (0 + (0 + rest)) g
      rw [zero_add]
      exact h
    · refine wp_attempt (creationChild_owned env ram h.right _ key upd)
        (fun e g' he => Leaves.lost (q := 0) rfl fun hne => by
          rw [zero_add]
          exact he hne) fun c g' hc => ?_
      obtain ⟨child, inv⟩ := c
      have hc : Owns (slotPtrsOf child + (0 + rest)) g' := by
        rw [zero_add]
        exact hc
      simp only
      split <;> exact hc
  | .ram sub =>
    unfold applyGroupChild
    refine wp_thenUpd (applyRamGroup_owned env sub pfx key upd ram rest g h) ?_
    intro sub r g' hr
    cases r with
    | error e => exact hr
    | ok out =>
      obtain ⟨out, inv⟩ := out
      cases out with
      | absent => exact hr
      | changed => exact hr
      | removed =>
        show Owns (0 + (0 + rest)) g'
        rw [zero_add]
        exact Owns.right hr
      | collapsed edge survivor =>
        have hr : Owns (nodePtrs sub + (slotPtrsOf survivor + rest)) g' := hr
        rw [add_left_comm] at hr
        refine wp_attempt (rehomeChild_owned env ram survivor edge pfx hr) (fun e g' he => he)
          fun slot g' hs => ?_
        show Owns (slotPtrsOf slot + (0 + rest)) g'
        rw [zero_add]
        exact Owns.mono hs (Multiset.add_le_add_iff_left.mpr (Multiset.le_add_left _ _))
  | .mem bytes root =>
    have h : Owns rest g := h.right
    have h0 : Owns (0 + (0 + rest)) g := by rwa [zero_add, zero_add]
    have herr : ∀ e : Err, Leaves slotPtrsOf groupPtrs rest (.none, .error e) g := fun e =>
      Leaves.lost (q := 0) rfl fun _ => by rwa [zero_add]
    unfold applyGroupChild
    refine wp_attempt_pure (fun e _ => herr e) fun subtree _ => ?_
    refine wp_attempt_pure (fun e _ => herr e) fun (node, out, inv) _ => ?_
    cases out with
    | absent => exact h0
    | removed => exact h0
    | changed =>
      refine wp_attempt (finishChild_owned env true h _) (fun _ _ he => Leaves.panic he)
        fun slot g' hs => ?_
      show Owns (slotPtrsOf slot + (0 + rest)) g'
      rwa [zero_add]
  | .disk ptr root =>
    rw [slotPtrsOf_disk, Multiset.singleton_add] at h
    unfold applyGroupChild
    refine wp_attempt (readLazy_owned h (Multiset.mem_cons_self _ _)) (fun e g' hg => ?_)
      fun subtree g' hg => ?_
    · subst hg
      exact Leaves.error h
    subst hg
    refine wp_attempt_pure (fun _ _ => Leaves.error h) fun (node, out, inv) _ => ?_
    cases out with
    | absent =>
      show Owns ({ptr} + (0 + rest)) g'
      rwa [zero_add, Multiset.singleton_add]
    | changed =>
      refine wp_free h fun g' h' => ?_
      refine wp_attempt (finishChild_owned env _ h' _) (fun _ _ he => Leaves.panic he)
        fun slot g' hs => ?_
      show Owns (slotPtrsOf slot + (0 + rest)) g'
      rwa [zero_add]
    | removed =>
      refine wp_free h fun g' h' => ?_
      show Owns (0 + (0 + rest)) g'
      rwa [zero_add, zero_add]
  | .account path nonce balance codeHash storage =>
    have h : Owns (nodePtrs storage + rest) g := h
    unfold applyGroupChild
    simp only
    split
    · split
      · show Owns (nodePtrs storage + (0 + rest)) g
        rwa [zero_add]
      · split
        · refine wp_attempt (creationChild_owned env ram h _ key upd)
            (fun e g' he => Leaves.lost rfl he) fun c g' hc => ?_
          refine Owns.mono hc ?_
          show nodePtrs (underCommon path _ _) + (0 + rest) ≤
            slotPtrsOf c.1 + (nodePtrs storage + rest)
          rw [nodePtrs_underCommon, zero_add, ← add_assoc]
          exact add_le_add_left (nodePtrs_pair_le ..) rest
        · exact Leaves.panic rfl
    · exact applyPromoted_owned env ram pfx key upd path nonce balance codeHash storage h

end

omit [Keccak] in
/-- If joining the workers did not panic, none of them did. -/
theorem joinAll_quiet {rs : List (Except Err α)} (h : joinAll rs ≠ .error .panic) :
    ∀ r ∈ rs, r ≠ .error .panic := by
  rintro r hr rfl
  refine h ?_
  unfold joinAll
  rw [if_pos (List.any_eq_true.mpr ⟨_, hr, rfl⟩)]

theorem applyBucket_owned (env : Env) (ram : Bool) (pfx : List Nibble)
    (net : List (Key × NetUpdate)) (slot : RamSlot) (h : Owns (slotPtrsOf slot + rest) g) :
    wp (quiet W) (applyBucket env ram pfx net slot) g (Leaves slotPtrsOf noPtrs rest) := by
  induction net generalizing slot g with
  | nil => exact Leaves.ok h
  | cons e net ih =>
    unfold applyBucket
    refine wp_thenUpd (applyGroupChild_owned env slot pfx e.1 e.2 ram rest g h) ?_
    intro slot r g' hr
    cases r with
    | error e => exact hr
    | ok out =>
      have hr : Owns (slotPtrsOf slot + (groupPtrs out + rest)) g' := hr
      refine wp_thenUpd (ih slot (hr.mono ?_)) ?_
      · exact Multiset.add_le_add_iff_left.mpr (Multiset.le_add_left _ _)
      · intro slot r g' hr
        cases r with
        | ok inv => exact hr
        | error e => exact hr

theorem refoldTop_owned (env : Env) (children : Nibble → RamSlot)
    (h : Owns (nodePtrs (.branch children none) + rest) g) :
    wp (quiet W) (refoldTop env children) g (Leaves nodePtrs noPtrs rest) := by
  unfold refoldTop
  split
  · refine Leaves.ok ?_
    rw [nodePtrs_empty, zero_add]
    exact h.right
  · rename_i j _
    rw [nodePtrs_branch_at children none j, add_assoc] at h
    simp only
    have hleft : nodePtrs (.branch (Function.update children j .none) none) = otherPtrs children j := by
      rw [nodePtrs_branch_update, slotPtrsOf_none, zero_add]
    have hj : Owns (slotPtrsOf (children j) + rest) g :=
      h.mono (Multiset.add_le_add_iff_left.mpr (Multiset.le_add_left _ _))
    split
    · rename_i sub hsub
      split
      · rename_i node hnode
        refine Leaves.ok ?_
        rw [hsub, slotPtrsOf_ram] at hj
        rwa [nodePtrs_extendBy hnode]
      · refine Leaves.error ?_
        rw [hleft]
        exact h.right
    · refine wp_attempt (collapseRoot_owned env [j] _ h) (fun e g' he hne => ?_)
        fun node g' hn => Leaves.ok (Owns.mono hn ?_)
      · rw [hleft]
        exact he hne
      · exact Multiset.add_le_add_iff_left.mpr (Multiset.le_add_left _ _)
  · exact Leaves.ok h

theorem installRoot_owned (env : Env) (node : RamNode) (out : RamDelete)
    (h : Owns (nodePtrs node + (outPtrs out + rest)) g) :
    wp (quiet W) (installRoot env node out) g (Leaves nodePtrs noPtrs rest) := by
  cases out with
  | absent => exact h
  | changed => exact h
  | removed =>
    refine Leaves.ok ?_
    rw [nodePtrs_empty, zero_add]
    exact h.right.right
  | collapsed edge survivor =>
    have h : Owns (nodePtrs node + (slotPtrsOf survivor + rest)) g := h
    rw [add_left_comm] at h
    refine wp_attempt (collapseRoot_owned env edge survivor h) (fun e g' he => he)
      fun node g' hn => Leaves.ok (Owns.mono hn ?_)
    exact Multiset.add_le_add_iff_left.mpr (Multiset.le_add_left _ _)

theorem applySerial_owned (env : Env) (ram : Bool) (net : List (Key × NetUpdate)) (upper : RamNode)
    (h : Owns (nodePtrs upper + rest) g) :
    wp (quiet W) (applySerial env ram net upper) g (Leaves nodePtrs noPtrs rest) := by
  induction net generalizing upper g with
  | nil => exact Leaves.ok h
  | cons e net ih =>
    unfold applySerial
    refine wp_thenUpd (applyRamGroup_owned env upper [] e.1 e.2 ram rest g h) ?_
    intro upper r g' hr
    cases r with
    | error e => exact hr
    | ok out =>
      refine wp_thenUpd (installRoot_owned env upper out.1 hr) ?_
      intro upper r g' hr
      cases r with
      | error e => exact hr
      | ok u =>
        have hr : Owns (nodePtrs upper + (0 + rest)) g' := hr
        rw [zero_add] at hr
        refine wp_thenUpd (ih upper hr) ?_
        intro upper r g' hr
        cases r with
        | ok inv => exact hr
        | error e => exact hr

omit [Keccak] in
/-- A fan of workers over the slots of a branch. -/
theorem wp_fanSlots {children : Nibble → RamSlot} {ps : Nibble → Upd RamSlot α}
    {k : (Nibble → RamSlot × Except Err α) → Prog Resp β} {Q : β → Multiset Rec → Prop}
    (h : Owns (nodePtrs (.branch children none) + rest) g)
    (hps : ∀ i g, Owns (slotPtrsOf (children i) + 0) g →
      wp (quiet W) (ps i) g (Leaves slotPtrsOf noPtrs 0))
    (hpanic : ∀ rs g', (∃ i, (rs i).2 = .error .panic) → wp (quiet W) (k rs) g' Q)
    (hk : ∀ rs g', Owns (nodePtrs (.branch (fun i => (rs i).1) none) + rest) g' →
      wp (quiet W) (k rs) g' Q) :
    wp (quiet W) ((Prog.fan ps).bind k) g Q := by
  rw [nodePtrs_branch] at h
  obtain ⟨gs, f, rfl, hgs, hf⟩ := h.splitAll
  refine ⟨gs, f, fun _ => Leaves slotPtrsOf noPtrs 0, rfl,
    fun i => hps i (gs i) (by rw [add_zero]; exact hgs i), fun rs hs hR => ?_⟩
  by_cases hp : ∃ i, (rs i).2 = .error .panic
  · exact hpanic rs _ hp
  · refine hk rs _ ?_
    have hown : ∀ i, Owns (slotPtrsOf (rs i).1) (hs i) := by
      intro i
      have hr := hR i
      have hne : (rs i).2 ≠ .error .panic := fun he => hp ⟨i, he⟩
      cases hri : rs i with | mk slot r =>
      rw [hri] at hr hne
      cases r with
      | ok a =>
        have hr : Owns (slotPtrsOf slot + (0 + 0)) (hs i) := hr
        rwa [add_zero, add_zero] at hr
      | error e =>
        have hr := hr fun he => hne (congrArg Except.error he)
        rwa [add_zero] at hr
    rw [nodePtrs_branch]
    exact (Owns.sum hown).add hf

theorem applyNet_owned (env : Env) (ram : Bool) (net : List (Key × NetUpdate)) (upper : RamNode)
    (h : Owns (nodePtrs upper + rest) g) :
    wp (quiet W) (applyNet env ram net upper) g (Leaves nodePtrs noPtrs rest) := by
  unfold applyNet
  split
  · rename_i children hash
    refine wp_fanSlots h (fun i g h => applyBucket_owned env ram [i] _ (children i) h) ?_ ?_
    · rintro rs g' ⟨i, hi⟩
      have hp : joinAll (List.ofFn fun i => (rs i).2) = .error .panic := by
        by_contra hne
        exact joinAll_quiet hne _ (List.mem_ofFn.mpr ⟨i, rfl⟩) hi
      simp only [hp]
      exact Leaves.panic rfl
    · intro rs g' h'
      simp only
      split
      · exact Leaves.error h'
      · refine wp_thenUpd (refoldTop_owned env _ h') ?_
        intro upper r g' hr
        cases r with
        | ok a => exact hr
        | error e => exact hr
  · exact applySerial_owned env ram net upper h

/-! ## Batches -/

theorem insertSerial_owned (env : Env) (ram : Bool) (leaves : List (Key × Bytes)) (upper : RamNode)
    (h : Owns (nodePtrs upper + rest) g) :
    wp (quiet W) (insertSerial env ram leaves upper) g (Leaves nodePtrs noPtrs rest) := by
  induction leaves generalizing upper g with
  | nil => exact Leaves.ok h
  | cons e leaves ih =>
    unfold insertSerial
    refine wp_thenUpd (insertRam_owned env upper [] e.1 (.value e.2) ram rest g h) ?_
    intro upper r g' hr
    cases r with
    | error e => exact hr
    | ok u =>
      have hr : Owns (nodePtrs upper + (0 + rest)) g' := hr
      rw [zero_add] at hr
      exact ih upper hr

theorem insertBucket_owned (env : Env) (pfx : List Nibble) (leaves : List (Key × Bytes))
    (slot : RamSlot) (h : Owns (slotPtrsOf slot + rest) g) :
    wp (quiet W) (insertBucket env pfx leaves slot) g (Leaves slotPtrsOf noPtrs rest) := by
  induction leaves generalizing slot g with
  | nil => exact Leaves.ok h
  | cons e leaves ih =>
    unfold insertBucket
    refine wp_thenUpd (insertIntoChild_owned env slot pfx e.1 (.value e.2) true rest g h) ?_
    intro slot r g' hr
    cases r with
    | error e => exact hr
    | ok u =>
      have hr : Owns (slotPtrsOf slot + (0 + rest)) g' := hr
      rw [zero_add] at hr
      exact ih slot hr

theorem insertFanned_owned (env : Env) (leaves : List (Key × Bytes)) (upper : RamNode)
    (h : Owns (nodePtrs upper + rest) g) :
    wp (quiet W) (insertFanned env leaves upper) g (Leaves nodePtrs noPtrs rest) := by
  unfold insertFanned
  split
  · rename_i children hash
    refine wp_fanSlots h (fun i g h => insertBucket_owned env [i] _ (children i) h) ?_ ?_
    · rintro rs g' ⟨i, hi⟩
      have hp : joinAll (List.ofFn fun i => (rs i).2) = .error .panic := by
        by_contra hne
        exact joinAll_quiet hne _ (List.mem_ofFn.mpr ⟨i, rfl⟩) hi
      rw [hp]
      exact Leaves.panic rfl
    · intro rs g' h'
      cases joinAll (List.ofFn fun i => (rs i).2) with
      | ok us => exact Leaves.ok h'
      | error e => exact Leaves.error h'
  · exact insertSerial_owned env true leaves upper h

theorem insertBatchRam_owned (env : Env) (leaves : List (Key × Bytes)) (upper : RamNode)
    (h : Owns (nodePtrs upper + rest) g) :
    wp (quiet W) (insertBatchRam env leaves upper) g (Leaves nodePtrs noPtrs rest) := by
  unfold insertBatchRam
  split
  · exact insertFanned_owned env leaves upper h
  · split
    · exact insertFanned_owned env leaves upper h
    · rename_i key val _
      refine wp_thenUpd (insertRam_owned env upper [] key (.value val) true rest g h) ?_
      intro upper r g' hr
      cases r with
      | error e => exact hr
      | ok u =>
        have hr : Owns (nodePtrs upper + (0 + rest)) g' := hr
        rw [zero_add] at hr
        exact insertFanned_owned env _ upper hr

end

end FlatMpt
