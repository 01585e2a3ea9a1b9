import FlatMpt.StoreInv
import FlatMpt.Apply

/-!
# Owned pointers

Every store call of an operation succeeding, the operation frees only records the
frontier owned and leaves a frontier whose pointers are all owned, whatever the
records hold and however the operation ends.  Records may leak, but none is left
dangling.

    Owns ps g                -- every pointer has a record of its own
    Solid, Loose, Leaves     -- postconditions of the engine's programs
    insertRam_owned, deleteRam_owned, applyNet_owned
-/

namespace FlatMpt

open Prog

section

/-! ## Ownership -/

/-- Every pointer of `ps` has a record of its own among `g`. -/
def Owns (ps : Multiset DiskPtr) (g : Multiset Rec) : Prop := ps ≤ g.map Prod.fst

variable {ps rest : Multiset DiskPtr} {g : Multiset Rec} {p : DiskPtr}

theorem Owns.mono {ps' : Multiset DiskPtr} (h : Owns ps g) (hle : ps' ≤ ps) : Owns ps' g :=
  le_trans hle h

theorem Owns.right {qs : Multiset DiskPtr} (h : Owns (qs + rest) g) : Owns rest g :=
  h.mono (Multiset.le_add_left _ _)

theorem Owns.mem (h : Owns ps g) (hp : p ∈ ps) : ∃ b, (p, b) ∈ g := by
  obtain ⟨x, hx, rfl⟩ := Multiset.mem_map.mp (Multiset.mem_of_le h hp)
  exact ⟨x.2, hx⟩

theorem Owns.pop (h : Owns (p ::ₘ rest) g) : ∃ b g', g = (p, b) ::ₘ g' ∧ Owns rest g' := by
  obtain ⟨b, hb⟩ := h.mem (Multiset.mem_cons_self _ _)
  obtain ⟨g', rfl⟩ := Multiset.exists_cons_of_mem hb
  refine ⟨b, g', rfl, ?_⟩
  unfold Owns at h
  rw [Multiset.map_cons] at h
  exact (Multiset.cons_le_cons_iff p).mp h

theorem Owns.push (h : Owns rest g) (p : DiskPtr) (b : Bytes) : Owns (p ::ₘ rest) ((p, b) ::ₘ g) := by
  unfold Owns
  rw [Multiset.map_cons]
  exact (Multiset.cons_le_cons_iff p).mpr h

theorem map_fst_recsOf {ptrs : List DiskPtr} {payloads : List Bytes}
    (h : ptrs.length = payloads.length) : (recsOf ptrs payloads).map Prod.fst = ptrs := by
  unfold recsOf
  rw [Multiset.map_coe, List.map_fst_zip h.le]

theorem Owns.recs (h : Owns rest g) {ptrs : List DiskPtr} {payloads : List Bytes}
    (hlen : ptrs.length = payloads.length) :
    Owns (ptrs + rest) (recsOf ptrs payloads + g) := by
  unfold Owns
  rw [Multiset.map_add, map_fst_recsOf hlen]
  exact Multiset.add_le_add_iff_left.mpr h

/-- Some of the records are those of the pointers, one by one. -/
theorem Owns.split {qs : Multiset DiskPtr} (h : Owns (qs + rest) g) :
    ∃ g1 g2, g = g1 + g2 ∧ Owns qs g1 ∧ Owns rest g2 := by
  induction qs using Multiset.induction_on generalizing g with
  | empty => exact ⟨0, g, (zero_add g).symm, le_rfl, by rwa [zero_add] at h⟩
  | cons q qs ih =>
    rw [Multiset.cons_add] at h
    obtain ⟨b, g', rfl, h'⟩ := h.pop
    obtain ⟨g1, g2, rfl, h1, h2⟩ := ih h'
    exact ⟨(q, b) ::ₘ g1, g2, (Multiset.cons_add ..).symm, h1.push q b, h2⟩

theorem Owns.add {qs : Multiset DiskPtr} {g' : Multiset Rec} (h : Owns qs g) (h' : Owns rest g') :
    Owns (qs + rest) (g + g') := by
  unfold Owns
  rw [Multiset.map_add]
  exact add_le_add h h'

theorem Owns.splitAll {n : Nat} {qs : Fin n → Multiset DiskPtr} (h : Owns (∑ i, qs i + rest) g) :
    ∃ (gs : Fin n → Multiset Rec) (f : Multiset Rec), g = ∑ i, gs i + f ∧
      (∀ i, Owns (qs i) (gs i)) ∧ Owns rest f := by
  induction n generalizing g with
  | zero => exact ⟨Fin.elim0, g, by simp, fun i => i.elim0, by simpa using h⟩
  | succ n ih =>
    rw [Fin.sum_univ_succ, add_assoc] at h
    obtain ⟨g0, g', rfl, h0, h'⟩ := h.split
    obtain ⟨gs, f, rfl, hgs, hf⟩ := ih h'
    refine ⟨Fin.cons g0 gs, f, ?_, ?_, hf⟩
    · rw [Fin.sum_univ_succ, add_assoc]
      rfl
    · intro i
      refine Fin.cases ?_ ?_ i
      · exact h0
      · exact hgs

theorem Owns.sum {n : Nat} {qs : Fin n → Multiset DiskPtr} {gs : Fin n → Multiset Rec}
    (h : ∀ i, Owns (qs i) (gs i)) : Owns (∑ i, qs i) (∑ i, gs i) := by
  induction n with
  | zero => exact le_rfl
  | succ n ih =>
    rw [Fin.sum_univ_succ, Fin.sum_univ_succ]
    exact (h 0).add (ih fun i => h i.succ)

end

section

/-! ## Pointers of a frontier -/

def nodePtrs (node : RamNode) : Multiset DiskPtr := diskPtrs node

def slotPtrsOf (slot : RamSlot) : Multiset DiskPtr := slotPtrs slot

@[simp] theorem nodePtrs_empty : nodePtrs .empty = 0 := rfl

@[simp] theorem nodePtrs_extension (path : List Nibble) (child : RamNode) (hash : Option Hash) :
    nodePtrs (.extension path child hash) = nodePtrs child := rfl

@[simp] theorem slotPtrsOf_none : slotPtrsOf .none = 0 := rfl

@[simp] theorem slotPtrsOf_ram (node : RamNode) : slotPtrsOf (.ram node) = nodePtrs node := rfl

@[simp] theorem slotPtrsOf_disk (ptr : DiskPtr) (root : Hash) : slotPtrsOf (.disk ptr root) = {ptr} :=
  rfl

@[simp] theorem slotPtrsOf_mem (bytes : Bytes) (root : Hash) : slotPtrsOf (.mem bytes root) = 0 := rfl

@[simp] theorem slotPtrsOf_account (path : List Nibble) (nonce : UInt64) (balance : U256)
    (codeHash : Hash) (storage : RamNode) :
    slotPtrsOf (.account path nonce balance codeHash storage) = nodePtrs storage := rfl

theorem coe_flatMap {ι : Type} (l : List ι) (f : ι → List DiskPtr) :
    ((l.flatMap f : List DiskPtr) : Multiset DiskPtr) = (l.map fun i => (f i : Multiset DiskPtr)).sum := by
  induction l with
  | nil => rfl
  | cons i l ih => rw [List.flatMap_cons, ← Multiset.coe_add, ih, List.map_cons, List.sum_cons]

theorem nodePtrs_branch (children : Nibble → RamSlot) (hash : Option Hash) :
    nodePtrs (.branch children hash) = ∑ i, slotPtrsOf (children i) := by
  show ((List.finRange 16).flatMap fun i => slotPtrs (children i) : Multiset DiskPtr) = _
  rw [coe_flatMap, Fin.sum_univ_def]
  rfl

/-- The pointers of a branch's other slots. -/
def otherPtrs (children : Nibble → RamSlot) (i : Nibble) : Multiset DiskPtr :=
  ∑ j ∈ Finset.univ.erase i, slotPtrsOf (children j)

theorem nodePtrs_branch_at (children : Nibble → RamSlot) (hash : Option Hash) (i : Nibble) :
    nodePtrs (.branch children hash) = slotPtrsOf (children i) + otherPtrs children i := by
  rw [nodePtrs_branch, ← Finset.add_sum_erase _ _ (Finset.mem_univ i)]
  rfl

theorem otherPtrs_update (children : Nibble → RamSlot) (i : Nibble) (slot : RamSlot) :
    otherPtrs (Function.update children i slot) i = otherPtrs children i := by
  refine Finset.sum_congr rfl fun j hj => ?_
  rw [Function.update_of_ne (Finset.ne_of_mem_erase hj)]

theorem nodePtrs_branch_update (children : Nibble → RamSlot) (hash : Option Hash) (i : Nibble)
    (slot : RamSlot) : nodePtrs (.branch (Function.update children i slot) hash) =
      slotPtrsOf slot + otherPtrs children i := by
  rw [nodePtrs_branch_at _ _ i, Function.update_self, otherPtrs_update]

@[simp] theorem nodePtrs_single (hash : Option Hash) (i : Nibble) (slot : RamSlot) :
    nodePtrs (.branch (Function.update emptyChildren i slot) hash) = slotPtrsOf slot := by
  rw [nodePtrs_branch_update]
  have : otherPtrs emptyChildren i = 0 := Finset.sum_eq_zero fun _ _ => rfl
  rw [this, add_zero]

/-- Two slots on an empty branch: at least nothing appears from nowhere. -/
theorem nodePtrs_pair_le (hash : Option Hash) (i j : Nibble) (a b : RamSlot) :
    nodePtrs (.branch (Function.update (Function.update emptyChildren i a) j b) hash) ≤
      slotPtrsOf b + slotPtrsOf a := by
  rw [nodePtrs_branch_update]
  refine Multiset.add_le_add_iff_left.mpr ?_
  have h := nodePtrs_branch_at (Function.update emptyChildren i a) none j
  rw [nodePtrs_single] at h
  rw [h]
  exact Multiset.le_add_left _ _

@[simp] theorem nodePtrs_underCommon (path : List Nibble) (common : Nat) (children : Nibble → RamSlot) :
    nodePtrs (underCommon path common children) = nodePtrs (.branch children none) := by
  unfold underCommon
  split <;> rfl

@[simp] theorem nodePtrs_wrapPath (path : List Nibble) (branch : RamNode) :
    nodePtrs (wrapPath path branch) = nodePtrs branch := by
  unfold wrapPath
  split <;> rfl

@[simp] theorem nodePtrs_mergeExtension (path : List Nibble) (node : RamNode) :
    nodePtrs (mergeExtension path node) = nodePtrs node := by
  cases node <;> rfl

theorem nodePtrs_extendBy {edge : List Nibble} {sub node : RamNode} (h : extendBy edge sub = .ok node) :
    nodePtrs node = nodePtrs sub := by
  cases sub with
  | empty => cases h
  | extension path child hash => cases h; rfl
  | branch children hash => cases h; rfl

/-! ## Requests that succeed -/

/-- The logic of runs in which every store call succeeds. -/
def quiet (W : Holds) : Logic Resp (Multiset Rec) := (flat W).filter Quiet

variable {W : Holds} {α β σ : Type} {g : Multiset Rec} {rest : Multiset DiskPtr}

theorem wp_read {p : DiskPtr} {k : Except Err Bytes → Prog Resp α} {Q : α → Multiset Rec → Prop}
    (h : Owns rest g) (hp : p ∈ rest) (hk : ∀ b, wp (quiet W) (k (.ok b)) g Q) :
    wp (quiet W) (.step (.read p) k) g Q := by
  obtain ⟨b, hb⟩ := h.mem hp
  exact ⟨b, .inl hb, fun _ => hk b, fun e he => by cases he⟩

theorem wp_free {p : DiskPtr} {k : Unit → Prog Resp α} {Q : α → Multiset Rec → Prop}
    (h : Owns (p ::ₘ rest) g) (hk : ∀ g', Owns rest g' → wp (quiet W) (k ()) g' Q) :
    wp (quiet W) (.step (.free p) k) g Q := by
  obtain ⟨b, g', rfl, h'⟩ := h.pop
  exact ⟨b, g', rfl, fun _ => hk g' h'⟩

theorem wp_writePayload {payload : Bytes} {k : Except Err DiskPtr → Prog Resp α}
    {Q : α → Multiset Rec → Prop} (h : Owns rest g)
    (hk : ∀ p g', Owns (p ::ₘ rest) g' → wp (quiet W) (k (.ok p)) g' Q) :
    wp (quiet W) (.step (.writePayload payload) k) g Q :=
  ⟨fun p _ => hk p _ (h.push p payload), fun e he => by cases he⟩

theorem wp_writeBatch {payloads : List Bytes} {k : Except Err (List DiskPtr) → Prog Resp α}
    {Q : α → Multiset Rec → Prop} (h : Owns rest g)
    (hk : ∀ (ptrs : List DiskPtr) g', ptrs.length = payloads.length → Owns (ptrs + rest) g' →
      wp (quiet W) (k (.ok ptrs)) g' Q) :
    wp (quiet W) (.step (.writeBatch payloads) k) g Q :=
  ⟨fun ptrs hlen _ => hk ptrs _ hlen (h.recs hlen), fun e he => by cases he⟩

theorem wp_refuse {e : Err} {k : Unit → Prog Resp α} {Q : α → Multiset Rec → Prop} :
    wp (quiet W) (.step (.refuse e) k) g Q := fun h => by cases h

/-! ## Postconditions -/

/-- The result owns its pointers; only a panic may lose anything. -/
def Solid (ptrs : α → Multiset DiskPtr) (rest : Multiset DiskPtr) : Except Err α → Multiset Rec → Prop
  | .ok a, g => Owns (ptrs a + rest) g
  | .error e, _ => e = .panic

/-- The result owns its pointers; on an error the others' are left. -/
def Loose (ptrs : α → Multiset DiskPtr) (rest : Multiset DiskPtr) : Except Err α → Multiset Rec → Prop
  | .ok a, g => Owns (ptrs a + rest) g
  | .error e, g => e ≠ .panic → Owns rest g

/-- The frontier part left owns its pointers, and so does the result. -/
def Leaves (ptrs : σ → Multiset DiskPtr) (out : α → Multiset DiskPtr) (rest : Multiset DiskPtr) :
    σ × Except Err α → Multiset Rec → Prop
  | (s, .ok a), g => Owns (ptrs s + (out a + rest)) g
  | (s, .error e), g => e ≠ .panic → Owns (ptrs s + rest) g

/-- A result without pointers. -/
def noPtrs : α → Multiset DiskPtr := fun _ => 0

theorem Solid.loose {ptrs : α → Multiset DiskPtr} {r : Except Err α} (h : Solid ptrs rest r g) :
    Loose ptrs rest r g := by
  cases r with
  | ok a => exact h
  | error e => exact fun he => absurd h he

theorem wp_attempt {L : Logic Resp (Multiset Rec)} {p : Act α} {fail : Err → β}
    {k : α → Prog Resp β} {R : Except Err α → Multiset Rec → Prop} {Q : β → Multiset Rec → Prop}
    (h : wp L p g R) (herr : ∀ e g', R (.error e) g' → Q (fail e) g')
    (hok : ∀ a g', R (.ok a) g' → wp L (k a) g' Q) : wp L (attempt p fail k) g Q := by
  refine wp_bind (wp_mono h ?_)
  intro r g' hr
  cases r with
  | ok a => exact hok a g' hr
  | error e => exact herr e g' hr

/-- A pure step of an operation. -/
theorem wp_attempt_pure {L : Logic Resp (Multiset Rec)} {r : Except Err α} {fail : Err → β}
    {k : α → Prog Resp β} {Q : β → Multiset Rec → Prop} (herr : ∀ e, r = .error e → Q (fail e) g)
    (hok : ∀ a, r = .ok a → wp L (k a) g Q) : wp L (attempt (.pure r) fail k) g Q := by
  cases r with
  | ok a => exact hok a rfl
  | error e => exact herr e rfl

theorem wp_thenUpd {L : Logic Resp (Multiset Rec)} {p : Upd σ α}
    {k : σ → Except Err α → Prog Resp β} {R : σ × Except Err α → Multiset Rec → Prop}
    {Q : β → Multiset Rec → Prop} (h : wp L p g R)
    (hk : ∀ s r g', R (s, r) g' → wp L (k s r) g' Q) : wp L (thenUpd p k) g Q :=
  wp_bind (wp_mono h fun x g' hx => hk x.1 x.2 g' hx)

end

section
variable [Keccak] {W : Holds} {α β σ : Type} {g : Multiset Rec} {rest : Multiset DiskPtr}

/-! ## Records -/

/-- A read record may not decode; nothing changes. -/
theorem readLazy_owned {p : DiskPtr} (h : Owns rest g) (hp : p ∈ rest) :
    wp (quiet W) (readLazy p) g fun _ g' => g' = g :=
  wp_read h hp fun _ => rfl

omit [Keccak] in
theorem encode_owned (subtree : DiskSubtree) :
    wp (quiet W) (encode subtree) g fun r g' => g' = g ∧ ∃ payload, r = .ok payload := by
  unfold encode
  cases serializeSubtree subtree with
  | ok payload => exact ⟨rfl, payload, rfl⟩
  | error e => exact wp_refuse

theorem makeMemLeaf_owned (h : Owns rest g) (subtree : DiskSubtree) :
    wp (quiet W) (makeMemLeaf subtree) g (Solid slotPtrsOf rest) := by
  refine wp_attempt (encode_owned subtree) ?_ ?_
  · rintro e g' ⟨-, _, hr⟩
    cases hr
  · rintro payload g' ⟨rfl, -⟩
    show Owns (0 + rest) g'
    rwa [zero_add]

theorem makeDiskLeaf_owned (h : Owns rest g) (subtree : DiskSubtree) :
    wp (quiet W) (makeDiskLeaf subtree) g (Solid slotPtrsOf rest) := by
  refine wp_attempt (encode_owned subtree) ?_ ?_
  · rintro e g' ⟨-, _, hr⟩
    cases hr
  · rintro payload g' ⟨rfl, -⟩
    refine wp_writePayload h fun p g'' h' => ?_
    show Owns ({p} + rest) g''
    rwa [Multiset.singleton_add]

theorem makeLeafChild_owned (env : Env) (ram : Bool) (h : Owns rest g) (subtree : DiskSubtree) :
    wp (quiet W) (makeLeafChild env ram subtree) g (Solid slotPtrsOf rest) := by
  unfold makeLeafChild
  split
  · exact makeMemLeaf_owned h subtree
  · exact makeDiskLeaf_owned h subtree

/-! ## Promotion -/

/-- Pointers of a child on its way to the frontier. -/
def liftedPtrs : Lifted → Multiset DiskPtr
  | .done slot => slotPtrsOf slot
  | _ => 0

omit [Keccak] in
/-- Replacing one part of a sum leaves at most the rest and the new part. -/
theorem sum_update_le {γ : Type} (P : γ → Multiset DiskPtr) (f : Nibble → γ) (i : Nibble) (c : γ) :
    ∑ j, P (Function.update f i c j) ≤ P c + ∑ j, P (f j) := by
  rw [← Finset.add_sum_erase _ _ (Finset.mem_univ i), Function.update_self,
    ← Finset.add_sum_erase Finset.univ (fun j => P (f j)) (Finset.mem_univ i)]
  refine Multiset.add_le_add_iff_left.mpr (le_trans (le_of_eq ?_) (Multiset.le_add_left _ _))
  refine Finset.sum_congr rfl fun j hj => ?_
  rw [Function.update_of_ne (Finset.ne_of_mem_erase hj)]

omit [Keccak] in
theorem liftAll_owned {lift : Nibble → Act Lifted}
    (hlift : ∀ i rest g, Owns rest g → wp (quiet W) (lift i) g (Solid liftedPtrs rest))
    (is : List Nibble) (acc : Nibble → Lifted) (h : Owns (∑ j, liftedPtrs (acc j) + rest) g) :
    wp (quiet W) (liftAll lift is acc) g (Solid (fun acc => ∑ j, liftedPtrs (acc j)) rest) := by
  induction is generalizing acc g with
  | nil => exact h
  | cons i is ih =>
    refine wp_attempt (hlift i _ _ h) (fun e g' he => he) fun l g' hl => ih _ ?_
    refine Owns.mono hl ?_
    rw [← add_assoc]
    exact add_le_add_left (sum_update_le liftedPtrs acc i l) rest

omit [Keccak] in
/-- Only lifted children and written records end up in the branch. -/
theorem assignPtrs_le (lifts : Nibble → Lifted) (is : List Nibble) (ptrs : List DiskPtr) :
    ∑ j, slotPtrsOf (assignPtrs lifts is ptrs j) ≤
      (is.map fun i => liftedPtrs (lifts i)).sum + ptrs := by
  induction is generalizing ptrs with
  | nil =>
    have : ∑ j, slotPtrsOf (assignPtrs lifts [] ptrs j) = 0 := Finset.sum_eq_zero fun _ _ => rfl
    rw [this]
    exact Multiset.zero_le _
  | cons i is ih =>
    rw [List.map_cons, List.sum_cons]
    cases hl : lifts i with
    | none =>
      simp only [assignPtrs, hl, liftedPtrs, zero_add]
      exact ih ptrs
    | done slot =>
      simp only [assignPtrs, hl, liftedPtrs, add_assoc]
      exact le_trans (sum_update_le slotPtrsOf _ i slot) (Multiset.add_le_add_iff_left.mpr (ih ptrs))
    | pending payload root =>
      cases ptrs with
      | nil =>
        simp only [assignPtrs, hl, liftedPtrs, zero_add]
        exact ih []
      | cons ptr ptrs =>
        simp only [assignPtrs, hl, liftedPtrs, zero_add]
        refine le_trans (sum_update_le slotPtrsOf _ i _) ?_
        rw [slotPtrsOf_disk, ← Multiset.cons_coe, Multiset.add_cons, Multiset.singleton_add]
        exact (Multiset.cons_le_cons_iff ptr).mpr (ih ptrs)

omit [Keccak] in
theorem liftBranch_owned {ram : Bool} {lift : Nibble → Act Lifted}
    (hlift : ∀ i rest g, Owns rest g → wp (quiet W) (lift i) g (Solid liftedPtrs rest))
    (h : Owns rest g) : wp (quiet W) (liftBranch ram lift) g (Solid nodePtrs rest) := by
  have h0 : Owns (∑ _j : Nibble, liftedPtrs .none + rest) g := by
    have hz : ∑ _j : Nibble, liftedPtrs .none = 0 := Finset.sum_eq_zero fun _ _ => rfl
    rwa [hz, zero_add]
  refine wp_attempt (liftAll_owned hlift _ _ h0) (fun e g' he => he) fun lifts g' hl => ?_
  have hle (ptrs : List DiskPtr) : nodePtrs (.branch (assignPtrs lifts (List.finRange 16) ptrs) none) ≤
      ∑ j, liftedPtrs (lifts j) + ptrs := by
    rw [nodePtrs_branch, Fin.sum_univ_def (f := fun j => liftedPtrs (lifts j))]
    exact assignPtrs_le lifts _ ptrs
  by_cases hr : ram = true
  · rw [if_pos hr]
    refine Owns.mono hl (add_le_add_left ?_ rest)
    have := hle []
    rwa [Multiset.coe_nil, add_zero] at this
  · rw [if_neg hr]
    refine wp_writeBatch hl fun ptrs g'' _ hp => Owns.mono hp ?_
    rw [← add_assoc, add_comm (ptrs : Multiset DiskPtr)]
    exact add_le_add_left (hle ptrs) rest

mutual

theorem promoteChild_owned (env : Env) (node : Option Node) (ram : Bool) (pfx : List Nibble)
    (rest : Multiset DiskPtr) (g : Multiset Rec) (h : Owns rest g) :
    wp (quiet W) (promoteChild env node ram pfx) g (Solid liftedPtrs rest) := by
  match node with
  | none =>
    show Owns (0 + rest) g
    rwa [zero_add]
  | some node =>
    unfold promoteChild
    split
    · exact wp_attempt (promoteOversized_owned env node ram pfx rest g h) (fun e g' he => he)
        fun slot g' hs => hs
    · split
      · exact wp_attempt (makeMemLeaf_owned h _) (fun e g' he => he) fun slot g' hs => hs
      · refine wp_attempt (encode_owned _) ?_ ?_
        · rintro e g' ⟨-, _, hr⟩
          cases hr
        · rintro payload g' ⟨rfl, -⟩
          show Owns (0 + rest) g'
          rwa [zero_add]

theorem promoteOversized_owned (env : Env) (node : Node) (ram : Bool) (pfx : List Nibble)
    (rest : Multiset DiskPtr) (g : Multiset Rec) (h : Owns rest g) :
    wp (quiet W) (promoteOversized env node ram pfx) g (Solid slotPtrsOf rest) := by
  match node with
  | .branch children _ =>
    exact wp_attempt (liftBranch_owned
      (fun i rest g h => promoteChild_owned env (children i) ram _ rest g h) h)
      (fun e g' he => he) fun branch g' hb => hb
  | .extension path (.branch children _) _ =>
    refine wp_attempt (liftBranch_owned
      (fun i rest g h => promoteChild_owned env (children i) ram _ rest g h) h)
      (fun e g' he => he) fun branch g' hb => ?_
    show Owns (nodePtrs (wrapPath path branch) + rest) g'
    rwa [nodePtrs_wrapPath]
  | .extension _ .empty _ => exact rfl
  | .extension _ (.leaf ..) _ => exact rfl
  | .extension _ (.extension ..) _ => exact rfl
  | .extension _ (.account ..) _ => exact rfl
  | .account path nonce balance codeHash (.branch children _) _ _ =>
    exact wp_attempt (liftBranch_owned
      (fun i rest g h => promoteChild_owned env (children i) env.hot _ rest g h) h)
      (fun e g' he => he) fun branch g' hb => hb
  | .account path nonce balance codeHash (.extension spath (.branch children _) _) _ _ =>
    refine wp_attempt (liftBranch_owned
      (fun i rest g h => promoteChild_owned env (children i) env.hot _ rest g h) h)
      (fun e g' he => he) fun branch g' hb => ?_
    show Owns (nodePtrs (wrapPath spath branch) + rest) g'
    rwa [nodePtrs_wrapPath]
  | .account _ _ _ _ .empty _ _ => exact rfl
  | .account _ _ _ _ (.leaf ..) _ _ => exact rfl
  | .account _ _ _ _ (.account ..) _ _ => exact rfl
  | .account _ _ _ _ (.extension _ .empty _) _ _ => exact rfl
  | .account _ _ _ _ (.extension _ (.leaf ..) _) _ _ => exact rfl
  | .account _ _ _ _ (.extension _ (.extension ..) _) _ _ => exact rfl
  | .account _ _ _ _ (.extension _ (.account ..) _) _ _ => exact rfl
  | .empty => exact wp_refuse
  | .leaf .. => exact wp_refuse

end

theorem promoteNode_owned (env : Env) (ram : Bool) (h : Owns rest g) (subtree : DiskSubtree) :
    wp (quiet W) (promoteNode env ram subtree) g (Solid nodePtrs rest) := by
  unfold promoteNode
  split
  · exact liftBranch_owned (fun i rest g h => promoteChild_owned env _ ram _ rest g h) h
  · refine wp_attempt (liftBranch_owned
      (fun i rest g h => promoteChild_owned env _ ram _ rest g h) h)
      (fun e g' he => he) fun branch g' hb => ?_
    show Owns (nodePtrs (wrapPath _ branch) + rest) g'
    rwa [nodePtrs_wrapPath]
  · exact rfl

theorem promoteToRam_owned (env : Env) (ram : Bool) (h : Owns rest g) (subtree : DiskSubtree) :
    wp (quiet W) (promoteToRam env ram subtree) g (Solid slotPtrsOf rest) :=
  wp_attempt (promoteNode_owned env ram h subtree) (fun _ _ he => he) fun _ _ hn => hn

theorem promoteAccountToRam_owned (env : Env) (ram : Bool) (h : Owns rest g)
    (subtree : DiskSubtree) :
    wp (quiet W) (promoteAccountToRam env ram subtree) g (Solid slotPtrsOf rest) := by
  unfold promoteAccountToRam
  split
  · exact wp_attempt (promoteNode_owned env ram h _) (fun _ _ he => he) fun _ _ hn => hn
  · exact rfl

/-! ## Insertion -/

omit [Keccak] in
theorem Leaves.ok {ptrs : σ → Multiset DiskPtr} {s : σ} {a : α} (h : Owns (ptrs s + rest) g) :
    Leaves ptrs noPtrs rest (s, .ok a) g := by
  show Owns (ptrs s + (0 + rest)) g
  rwa [zero_add]

omit [Keccak] in
theorem Leaves.error {ptrs : σ → Multiset DiskPtr} {out : α → Multiset DiskPtr} {s : σ} {e : Err}
    (h : Owns (ptrs s + rest) g) : Leaves ptrs out rest (s, .error e) g := fun _ => h

omit [Keccak] in
theorem Leaves.panic {ptrs : σ → Multiset DiskPtr} {out : α → Multiset DiskPtr} {s : σ} {e : Err}
    (h : e = .panic) : Leaves ptrs out rest (s, .error e) g := fun he => absurd h he

omit [Keccak] in
/-- What is left of a part whose pointers are given up. -/
theorem Leaves.lost {ptrs : σ → Multiset DiskPtr} {out : α → Multiset DiskPtr} {s : σ} {e : Err}
    {q : Multiset DiskPtr} (hs : ptrs s = 0) (h : e ≠ .panic → Owns (q + rest) g) :
    Leaves ptrs out rest (s, .error e) g := fun he => by
  rw [hs, zero_add]
  exact (h he).right

theorem placeLeaf_owned (env : Env) (ram : Bool) (h : Owns rest g) (pfx : List Nibble) (key : Key)
    (op : LeafOp) : wp (quiet W) (placeLeaf env ram pfx key op) g (Loose slotPtrsOf rest) :=
  wp_attempt_pure (fun _ _ _ => h) fun _ _ =>
    wp_mono (makeLeafChild_owned env ram h _) fun _ _ hs => hs.loose

theorem rewriteMem_owned (env : Env) (ram : Bool) (h : Owns rest g) (subtree : DiskSubtree) :
    wp (quiet W) (rewriteMem env ram subtree) g (Solid slotPtrsOf rest) := by
  unfold rewriteMem
  split
  · exact promoteToRam_owned env _ h subtree
  · split
    · exact promoteAccountToRam_owned env _ h subtree
    · exact makeMemLeaf_owned h subtree

omit [Keccak] in
/-- The old record is freed, then the new one made. -/
theorem freed_owned {ptr : DiskPtr} {root : Hash} {p : Act RamSlot}
    (h : Owns (ptr ::ₘ rest) g)
    (hp : ∀ g', Owns rest g' → wp (quiet W) p g' (Solid slotPtrsOf rest)) :
    wp (quiet W) (.step (.free ptr) fun _ =>
      attempt p (fun e => ((RamSlot.disk ptr root), Except.error e)) fun slot =>
      .pure (slot, .ok ())) g (Leaves slotPtrsOf noPtrs rest) :=
  wp_free h fun g' h' => wp_attempt (hp g' h') (fun _ _ he => Leaves.panic he)
    fun _ _ hs => Leaves.ok hs

theorem rewriteDisk_owned (env : Env) (ram : Bool) {ptr : DiskPtr} (root : Hash)
    (h : Owns (ptr ::ₘ rest) g) (subtree : DiskSubtree) :
    wp (quiet W) (rewriteDisk env ram ptr root subtree) g (Leaves slotPtrsOf noPtrs rest) := by
  unfold rewriteDisk
  split
  · exact freed_owned h fun g' h' => promoteToRam_owned env _ h' subtree
  · split
    · exact freed_owned h fun g' h' => promoteAccountToRam_owned env _ h' subtree
    · split
      · exact freed_owned h fun g' h' => makeMemLeaf_owned h' subtree
      · refine wp_attempt_pure (fun _ _ => Leaves.error h) fun payload _ => ?_
        refine wp_free h fun g' h' => wp_writePayload h' fun p g'' h'' => ?_
        exact Leaves.ok h''

mutual

theorem insertRam_owned (env : Env) (node : RamNode) (pfx : List Nibble) (key : Key) (op : LeafOp)
    (ram : Bool) (rest : Multiset DiskPtr) (g : Multiset Rec) (h : Owns (nodePtrs node + rest) g) :
    wp (quiet W) (insertRam env node pfx key op ram) g (Leaves nodePtrs noPtrs rest) := by
  match node with
  | .empty =>
    unfold insertRam
    split
    · exact Leaves.panic rfl
    · rename_i idx _
      refine wp_attempt (placeLeaf_owned env ram h.right (pfx ++ [idx]) key op)
        (fun e g' he => Leaves.lost (q := 0) rfl fun hne => ?_) fun leaf g' hl => Leaves.ok ?_
      · rw [zero_add]
        exact he hne
      · rw [nodePtrs_single]
        exact hl
  | .extension path child hash =>
    unfold insertRam
    simp only
    split
    · split
      · rename_i oldIdx oldRest newIdx _ _ _
        refine wp_attempt (placeLeaf_owned env ram h _ key op)
          (fun e g' he => Leaves.lost rfl he) fun leaf g' hl => Leaves.ok (Owns.mono hl ?_)
        rw [nodePtrs_underCommon, ← add_assoc]
        refine add_le_add_left (le_trans (nodePtrs_pair_le ..) (le_of_eq ?_)) rest
        rw [slotPtrsOf_ram, nodePtrs_wrapPath, nodePtrs_extension]
      · exact Leaves.panic rfl
    · refine wp_thenUpd (insertRam_owned env child (pfx ++ path) key op ram rest g h) ?_
      intro child r g' hr
      cases r with
      | ok a => exact hr
      | error e => exact hr
  | .branch children hash =>
    unfold insertRam
    split
    · exact Leaves.error h
    · split
      · exact Leaves.panic rfl
      · rename_i idx _
        rw [nodePtrs_branch_at children hash idx, add_assoc] at h
        refine wp_thenUpd (insertIntoChild_owned env (children idx) (pfx ++ [idx]) key op ram _ g h) ?_
        intro slot r g' hr
        cases r with
        | ok a =>
          refine Leaves.ok ?_
          have hr : Owns (slotPtrsOf slot + (0 + (otherPtrs children idx + rest))) g' := hr
          rw [zero_add, ← add_assoc] at hr
          rwa [nodePtrs_branch_update]
        | error e =>
          intro he
          have hr := hr he
          rw [← add_assoc] at hr
          rwa [nodePtrs_branch_update]

theorem insertIntoChild_owned (env : Env) (slot : RamSlot) (pfx : List Nibble) (key : Key)
    (op : LeafOp) (ram : Bool) (rest : Multiset DiskPtr) (g : Multiset Rec)
    (h : Owns (slotPtrsOf slot + rest) g) :
    wp (quiet W) (insertIntoChild env slot pfx key op ram) g (Leaves slotPtrsOf noPtrs rest) := by
  match slot with
  | .ram child =>
    unfold insertIntoChild
    refine wp_thenUpd (insertRam_owned env child pfx key op ram rest g h) ?_
    intro child r g' hr
    cases r with
    | ok a => exact hr
    | error e => exact hr
  | .mem bytes root =>
    have h : Owns rest g := h.right
    unfold insertIntoChild
    refine wp_attempt_pure (fun _ _ => Leaves.error ?_) fun subtree _ => ?_
    · rwa [slotPtrsOf_none, zero_add]
    refine wp_attempt_pure (fun _ _ => Leaves.error ?_) fun node _ => ?_
    · rwa [slotPtrsOf_none, zero_add]
    exact wp_attempt (rewriteMem_owned env ram h _) (fun _ _ he => Leaves.panic he)
      fun _ _ hs => Leaves.ok hs
  | .disk ptr root =>
    rw [slotPtrsOf_disk, Multiset.singleton_add] at h
    have hmem : ptr ∈ ptr ::ₘ rest := Multiset.mem_cons_self _ _
    unfold insertIntoChild
    refine wp_attempt (readLazy_owned h hmem) (fun e g' hg => ?_) fun subtree g' hg => ?_
    · subst hg
      exact Leaves.error h
    · subst hg
      exact wp_attempt_pure (fun _ _ => Leaves.error h) fun node _ => rewriteDisk_owned env ram root h _
  | .account path nonce balance codeHash storage =>
    unfold insertIntoChild
    simp only
    split
    · split
      · refine wp_thenUpd (insertRam_owned env storage (keyNibbles key) _ _ false rest g h) ?_
        intro storage r g' hr
        cases r with
        | ok a => exact hr
        | error e => exact hr
      · exact Leaves.ok h
      · exact Leaves.error h
    · split
      · refine wp_attempt (placeLeaf_owned env ram h _ key op)
          (fun e g' he => Leaves.lost rfl he) fun leaf g' hl => Leaves.ok (Owns.mono hl ?_)
        rw [slotPtrsOf_ram, nodePtrs_underCommon, ← add_assoc]
        exact add_le_add_left (nodePtrs_pair_le ..) rest
      · exact Leaves.panic rfl
  | .none =>
    unfold insertIntoChild
    refine wp_attempt (placeLeaf_owned env ram h.right pfx key op)
      (fun e g' he => Leaves.lost (q := 0) rfl fun hne => ?_) fun leaf g' hl => Leaves.ok hl
    rw [zero_add]
    exact he hne

end

/-! ## Deletion -/

/-- Pointers that a delete hands to its caller. -/
def outPtrs : RamDelete → Multiset DiskPtr
  | .collapsed _ survivor => slotPtrsOf survivor
  | _ => 0

omit [Keccak] in
theorem freeAll_owned (ptrs : List DiskPtr) (h : Owns (ptrs + rest) g) :
    wp (quiet W) (freeAll ptrs) g fun _ g' => Owns rest g' := by
  induction ptrs generalizing g with
  | nil =>
    rw [Multiset.coe_nil, zero_add] at h
    exact h
  | cons ptr ptrs ih =>
    rw [← Multiset.cons_coe, Multiset.cons_add] at h
    exact wp_free h fun g' h' => ih h'

omit [Keccak] in
theorem freeRamRecords_owned (node : RamNode) (h : Owns (nodePtrs node + rest) g) :
    wp (quiet W) (freeRamRecords node) g fun _ g' => Owns rest g' := freeAll_owned _ h

omit [Keccak] in
theorem slotPtrs_le_branch (children : Nibble → RamSlot) (hash : Option Hash) (i : Nibble) :
    slotPtrsOf (children i) ≤ nodePtrs (.branch children hash) := by
  rw [nodePtrs_branch_at children hash i]
  exact Multiset.le_add_right _ _

omit [Keccak] in
theorem refoldBranch_owned (children : Nibble → RamSlot)
    (h : Owns (nodePtrs (.branch children none) + rest) g) :
    Leaves nodePtrs outPtrs rest (refoldBranch children) g := by
  unfold refoldBranch
  split
  · exact Owns.mono h (by rw [nodePtrs_empty, zero_add]; exact add_le_add_left (Multiset.zero_le _) rest)
  · rename_i j _
    have hj : Owns (slotPtrsOf (children j) + rest) g :=
      h.mono (add_le_add_left (slotPtrs_le_branch children none j) rest)
    split
    · rename_i sub hsub
      rw [hsub, slotPtrsOf_ram] at hj
      split
      · rename_i node hnode
        show Owns (nodePtrs node + (0 + rest)) g
        rwa [zero_add, nodePtrs_extendBy hnode]
      · exact Leaves.lost rfl fun _ => hj
    · show Owns (0 + (slotPtrsOf (children j) + rest)) g
      rwa [zero_add]
  · show Owns (nodePtrs (.branch children none) + (0 + rest)) g
    rwa [zero_add]

omit [Keccak] in
theorem afterChild_owned (children : Nibble → RamSlot) (hash : Option Hash) (out : RamDelete)
    (h : Owns (nodePtrs (.branch children none) + (outPtrs out + rest)) g) :
    Leaves nodePtrs outPtrs rest (afterChild children hash out) g := by
  cases out with
  | absent => exact h
  | changed => exact h
  | collapsed edge survivor => exact Leaves.panic rfl
  | removed =>
    have h : Owns (nodePtrs (.branch children none) + (0 + rest)) g := h
    rw [zero_add] at h
    exact refoldBranch_owned children h

omit [Keccak] in
theorem afterExtension_owned (path : List Nibble) (child : RamNode) (hash : Option Hash)
    (out : RamDelete) (h : Owns (nodePtrs child + (outPtrs out + rest)) g) :
    Leaves nodePtrs outPtrs rest (afterExtension path child hash out) g := by
  cases out with
  | absent => exact h
  | changed =>
    show Owns (nodePtrs (mergeExtension path child) + (outPtrs .changed + rest)) g
    rwa [nodePtrs_mergeExtension]
  | collapsed edge survivor =>
    show Owns (0 + (slotPtrsOf survivor + rest)) g
    rw [zero_add]
    exact h.right
  | removed =>
    show Owns (0 + (0 + rest)) g
    rw [zero_add, zero_add]
    exact h.right.right

theorem rehomeChild_owned (env : Env) (ram : Bool) (survivor : RamSlot) (edge pfx : List Nibble)
    (h : Owns (slotPtrsOf survivor + rest) g) :
    wp (quiet W) (rehomeChild env ram survivor edge pfx) g (Loose slotPtrsOf rest) := by
  cases survivor with
  | none => exact fun he => absurd rfl he
  | ram sub =>
    show Loose slotPtrsOf rest ((extendBy edge sub).map RamSlot.ram) g
    cases he : extendBy edge sub with
    | error e => exact fun _ => h.right
    | ok node =>
      show Owns (nodePtrs node + rest) g
      rw [nodePtrs_extendBy he]
      exact h
  | disk ptr root =>
    rw [slotPtrsOf_disk, Multiset.singleton_add] at h
    have hrest : Owns rest g := h.mono (Multiset.le_cons_self _ _)
    refine wp_attempt (readLazy_owned h (Multiset.mem_cons_self _ _)) (fun e g' hg => ?_)
      fun subtree g' hg => ?_
    · subst hg
      exact fun _ => hrest
    · subst hg
      refine wp_attempt_pure (fun _ _ _ => hrest) fun node _ => wp_free h fun g' h' => ?_
      exact wp_mono (makeLeafChild_owned env ram h' _) fun _ _ hs => hs.loose
  | mem bytes root =>
    refine wp_attempt_pure (fun _ _ _ => h.right) fun subtree _ => ?_
    refine wp_attempt_pure (fun _ _ _ => h.right) fun node _ => ?_
    exact wp_mono (makeMemLeaf_owned h.right _) fun _ _ hs => hs.loose
  | account path nonce balance codeHash storage => exact h

theorem materializeStorageSurvivor_owned (survivor : RamSlot) (edge : List Nibble)
    (h : Owns (slotPtrsOf survivor + rest) g) :
    wp (quiet W) (materializeStorageSurvivor survivor edge) g (Loose noPtrs rest) := by
  cases survivor with
  | disk ptr root =>
    rw [slotPtrsOf_disk, Multiset.singleton_add] at h
    have hrest : Owns rest g := h.mono (Multiset.le_cons_self _ _)
    refine wp_attempt (readLazy_owned h (Multiset.mem_cons_self _ _)) (fun e g' hg => ?_)
      fun subtree g' hg => ?_
    · subst hg
      exact fun _ => hrest
    · subst hg
      refine wp_attempt_pure (fun _ _ _ => hrest) fun node _ => wp_free h fun g' h' => ?_
      show Owns (0 + rest) g'
      rwa [zero_add]
  | mem bytes root =>
    refine wp_attempt_pure (fun _ _ _ => h.right) fun subtree _ => ?_
    cases prependPath subtree.node edge with
    | error e => exact fun _ => h.right
    | ok node => exact h
  | none => exact fun he => absurd rfl he
  | ram sub => exact fun he => absurd rfl he
  | account path nonce balance codeHash storage => exact fun he => absurd rfl he

theorem demotedStorage_owned (out : RamDelete) (h : Owns (outPtrs out + rest) g) :
    wp (quiet W) (demotedStorage out) g (Loose noPtrs rest) := by
  cases out with
  | removed => exact h
  | collapsed edge survivor => exact materializeStorageSurvivor_owned survivor edge h
  | absent => exact fun he => absurd rfl he
  | changed => exact fun he => absurd rfl he

mutual

theorem deleteRam_owned (env : Env) (node : RamNode) (pfx : List Nibble) (key : Key) (op : DeleteOp)
    (ram : Bool) (rest : Multiset DiskPtr) (g : Multiset Rec) (h : Owns (nodePtrs node + rest) g) :
    wp (quiet W) (deleteRam env node pfx key op ram) g (Leaves nodePtrs outPtrs rest) := by
  match node with
  | .empty =>
    show Owns (0 + (0 + rest)) g
    rw [zero_add]
    exact h
  | .extension path child hash =>
    unfold deleteRam
    split
    · refine wp_thenUpd (deleteRam_owned env child (pfx ++ path) key op ram rest g h) ?_
      intro child r g' hr
      cases r with
      | error e => exact Leaves.lost rfl hr
      | ok out => exact afterExtension_owned path child hash out hr
    · show Owns (nodePtrs child + (0 + rest)) g
      rw [zero_add]
      exact h
  | .branch children hash =>
    unfold deleteRam
    split
    · exact Leaves.panic rfl
    · rename_i idx _
      rw [nodePtrs_branch_at children hash idx, add_assoc] at h
      refine wp_thenUpd (deleteInChild_owned env (children idx) (pfx ++ [idx]) key op ram _ g h) ?_
      intro slot r g' hr
      cases r with
      | error e => exact Leaves.lost rfl fun he => (hr he).right
      | ok out =>
        refine afterChild_owned _ hash out ?_
        have hr : Owns (slotPtrsOf slot + (outPtrs out + (otherPtrs children idx + rest))) g' := hr
        rw [nodePtrs_branch_update, add_assoc]
        rwa [add_left_comm (outPtrs out)] at hr

theorem deleteInChild_owned (env : Env) (slot : RamSlot) (pfx : List Nibble) (key : Key)
    (op : DeleteOp) (ram : Bool) (rest : Multiset DiskPtr) (g : Multiset Rec)
    (h : Owns (slotPtrsOf slot + rest) g) :
    wp (quiet W) (deleteInChild env slot pfx key op ram) g (Leaves slotPtrsOf outPtrs rest) := by
  match slot with
  | .none =>
    show Owns (0 + (0 + rest)) g
    rw [zero_add]
    exact h
  | .ram sub =>
    unfold deleteInChild
    refine wp_thenUpd (deleteRam_owned env sub pfx key op ram rest g h) ?_
    intro sub r g' hr
    cases r with
    | error e => exact hr
    | ok out =>
      cases out with
      | absent => exact hr
      | changed => exact hr
      | removed =>
        show Owns (0 + (0 + rest)) g'
        rw [zero_add]
        exact Owns.right hr
      | collapsed edge survivor =>
        have hr : Owns (nodePtrs sub + (slotPtrsOf survivor + rest)) g' := hr
        rw [add_left_comm] at hr
        refine wp_attempt (rehomeChild_owned env ram survivor edge pfx hr) (fun e g' he => he)
          fun slot g' hs => ?_
        show Owns (slotPtrsOf slot + (0 + rest)) g'
        rw [zero_add]
        exact Owns.mono hs (Multiset.add_le_add_iff_left.mpr (Multiset.le_add_left _ _))
  | .mem bytes root =>
    have h : Owns rest g := h.right
    have h0 : Owns (0 + (0 + rest)) g := by rwa [zero_add, zero_add]
    have herr : ∀ e : Err, Leaves slotPtrsOf outPtrs rest (.none, .error e) g := fun e =>
      Leaves.lost rfl fun _ => by rwa [show (0 : Multiset DiskPtr) + rest = rest from zero_add _]
    unfold deleteInChild
    refine wp_attempt_pure (fun e _ => herr e) fun subtree _ => ?_
    refine wp_attempt_pure (fun e _ => herr e) fun (node, out) _ => ?_
    cases out with
    | absent => exact h0
    | removed => exact h0
    | changed =>
      refine wp_attempt (makeMemLeaf_owned h _) (fun _ _ he => Leaves.panic he) fun slot g' hs => ?_
      show Owns (slotPtrsOf slot + (0 + rest)) g'
      rwa [zero_add]
  | .disk ptr root =>
    rw [slotPtrsOf_disk, Multiset.singleton_add] at h
    unfold deleteInChild
    refine wp_attempt (readLazy_owned h (Multiset.mem_cons_self _ _)) (fun e g' hg => ?_)
      fun subtree g' hg => ?_
    · subst hg
      exact Leaves.error h
    subst hg
    refine wp_attempt_pure (fun _ _ => Leaves.error h) fun (node, out) _ => ?_
    cases out with
    | absent =>
      show Owns ({ptr} + (0 + rest)) g'
      rwa [zero_add, Multiset.singleton_add]
    | changed =>
      refine wp_free h fun g' h' => ?_
      refine wp_attempt (makeLeafChild_owned env false h' _) (fun _ _ he => Leaves.panic he)
        fun slot g' hs => ?_
      show Owns (slotPtrsOf slot + (0 + rest)) g'
      rwa [zero_add]
    | removed =>
      refine wp_free h fun g' h' => ?_
      show Owns (0 + (0 + rest)) g'
      rwa [zero_add, zero_add]
  | .account path nonce balance codeHash storage =>
    have h : Owns (nodePtrs storage + rest) g := h
    unfold deleteInChild
    split
    · show Owns (nodePtrs storage + (0 + rest)) g
      rwa [zero_add]
    · cases op with
      | value => exact Leaves.error h
      | account =>
        refine wp_bind (wp_mono (freeRamRecords_owned storage h) fun _ g' h' => ?_)
        show Owns (0 + (0 + rest)) g'
        rwa [zero_add, zero_add]
      | wipeStorage =>
        refine wp_bind (wp_mono (freeRamRecords_owned storage h) fun _ g' h' => ?_)
        refine wp_attempt (makeLeafChild_owned env ram h' _) (fun _ _ he => Leaves.panic he)
          fun slot g' hs => ?_
        show Owns (slotPtrsOf slot + (0 + rest)) g'
        rwa [zero_add]
      | storage slot =>
        simp only
        refine wp_thenUpd (deleteRam_owned env storage (keyNibbles key) slot .value false rest g h) ?_
        intro storage r g' hr
        cases r with
        | error e => exact hr
        | ok out =>
          have hdem : wp (quiet W)
              (attempt (demotedStorage out) (fun e => ((RamSlot.none, Except.error e) : RamSlot × _))
                fun storageNode =>
                let subtree : DiskSubtree :=
                  ⟨pfx, accountNode path nonce balance codeHash storageNode⟩
                attempt (if shouldPromoteAccount env.cfg subtree then
                    promoteAccountToRam env (ram || env.hot) subtree
                  else makeLeafChild env ram subtree) (fun e => (.none, .error e)) fun slot =>
                .pure (slot, .ok .changed)) g' (Leaves slotPtrsOf outPtrs rest) := by
            have ho : Owns (outPtrs out + rest) g' := Owns.right hr
            refine wp_attempt (demotedStorage_owned out ho)
              (fun e g' he => Leaves.lost (q := 0) rfl fun hne => by
                rw [zero_add]
                exact he hne) fun node g' hn => ?_
            have hn : Owns (0 + rest) g' := hn
            rw [zero_add] at hn
            simp only
            have hmk : wp (quiet W) (if shouldPromoteAccount env.cfg
                ⟨pfx, accountNode path nonce balance codeHash node⟩ then
                promoteAccountToRam env (ram || env.hot)
                  ⟨pfx, accountNode path nonce balance codeHash node⟩
                else makeLeafChild env ram ⟨pfx, accountNode path nonce balance codeHash node⟩)
                g' (Solid slotPtrsOf rest) := by
              split
              · exact promoteAccountToRam_owned env _ hn _
              · exact makeLeafChild_owned env ram hn _
            refine wp_attempt hmk (fun _ _ he => Leaves.panic he) fun slot g' hs => ?_
            show Owns (slotPtrsOf slot + (0 + rest)) g'
            rwa [zero_add]
          cases out with
          | absent => exact hr
          | changed => exact hr
          | removed => exact hdem
          | collapsed edge survivor => exact hdem

end

theorem collapseRoot_owned (env : Env) (edge : List Nibble) (survivor : RamSlot)
    (h : Owns (slotPtrsOf survivor + rest) g) :
    wp (quiet W) (collapseRoot env edge survivor) g (Loose nodePtrs rest) := by
  have hrebuild : ∀ {g'} (node : Node), Owns rest g' →
      wp (quiet W) (if hasTopBranch node then promoteNode env false ⟨[], node⟩
        else Act.fail .singleLeafRoot) g' (Loose nodePtrs rest) := by
    intro g' node h'
    split
    · exact wp_mono (promoteNode_owned env false h' _) fun _ _ hs => hs.loose
    · exact fun _ => h'
  cases survivor with
  | disk ptr root =>
    rw [slotPtrsOf_disk, Multiset.singleton_add] at h
    have hrest : Owns rest g := h.mono (Multiset.le_cons_self _ _)
    unfold collapseRoot
    refine wp_attempt (readLazy_owned h (Multiset.mem_cons_self _ _)) (fun e g' hg => ?_)
      fun subtree g' hg => ?_
    · subst hg
      exact fun _ => hrest
    · subst hg
      exact wp_attempt_pure (fun _ _ _ => hrest) fun node _ => wp_free h fun g' h' => hrebuild node h'
  | mem bytes root =>
    unfold collapseRoot
    refine wp_attempt_pure (fun _ _ _ => h.right) fun subtree _ => ?_
    exact wp_attempt_pure (fun _ _ _ => h.right) fun node _ => hrebuild node h.right
  | account path nonce balance codeHash storage => exact fun _ => h.right
  | none => exact fun he => absurd rfl he
  | ram sub => exact fun he => absurd rfl he

end

end FlatMpt
