import FlatMpt.Audit
import Mathlib.Algebra.Order.BigOperators.Group.List

/-!
# Audited records

What the audit of a record stands for.  Its reference is recomputed from the leaves up,
serialized children expanded on the way; the audit finds nothing if and only if every
reference in the record is the one recomputed.  With that a clean report on any frontier
means caches up to date, and in a regular run every view is clean.

    Lazy.Refolds, Lazy.Genuine   -- the reference recomputed, and a record without a stale one
    lazyAudit_finds, wholeAudit_finds
    audit_clean_iff              -- on any frontier
    audit_clean                  -- in every regular run
-/

namespace FlatMpt

open Prog
open Radix (Tree)
open Radix.Tree (Canon)

section
variable [Keccak] {α β : Type}

/-! ## Audits that may fail -/

/-- The audit ends exactly with the values in `A`, and leaves the report clean exactly if `E`. -/
structure Weighs (x : Except Err (α × HashAudit)) (st : HashAudit) (A : α → Prop) (E : Prop) : Prop where
  total : ∀ a, A a → ∃ st', x = .ok (a, st')
  found : ∀ a st', x = .ok (a, st') → A a ∧ (st'.clean ↔ st.clean ∧ E)

omit [Keccak] in
theorem Weighs.ok {a : α} {st st' : HashAudit} {E : Prop} (h : st'.clean ↔ st.clean ∧ E) :
    Weighs (.ok (a, st')) st (· = a) E := by
  refine ⟨?_, ?_⟩
  · rintro _ rfl
    exact ⟨st', rfl⟩
  · rintro _ _ ⟨⟩
    exact ⟨rfl, h⟩

omit [Keccak] in
theorem Weighs.congr {x : Except Err (α × HashAudit)} {st : HashAudit} {A A' : α → Prop} {E E' : Prop}
    (h : Weighs x st A E) (hA : ∀ a, A a ↔ A' a) (hE : ∀ a, A a → (E ↔ E')) : Weighs x st A' E' := by
  refine ⟨fun a ha => h.total a ((hA a).mpr ha), fun a st' hx => ?_⟩
  obtain ⟨ha, hclean⟩ := h.found a st' hx
  exact ⟨(hA a).mp ha, hclean.trans (and_congr_right fun _ => hE a ha)⟩

omit [Keccak] in
/-- One audit after the other. -/
theorem Weighs.bind {x : Except Err (α × HashAudit)} {st : HashAudit} {A : α → Prop} {E : Prop}
    {k : α × HashAudit → Except Err (β × HashAudit)} {B : α → β → Prop} {F : α → Prop}
    (h : Weighs x st A E) (hk : ∀ a st', A a → Weighs (k (a, st')) st' (B a) (F a)) {G : Prop}
    (hF : ∀ a, A a → (E ∧ F a ↔ G)) : Weighs (x >>= k) st (fun b => ∃ a, A a ∧ B a b) G := by
  refine ⟨?_, fun b st₂ hb => ?_⟩
  · rintro b ⟨a, ha, hb⟩
    obtain ⟨st₁, hx⟩ := h.total a ha
    obtain ⟨st₂, hk⟩ := (hk a st₁ ha).total b hb
    exact ⟨st₂, by rw [hx]; exact hk⟩
  · obtain ⟨⟨a, st₁⟩, hx, hb⟩ := bind_ok hb
    obtain ⟨ha, hclean⟩ := h.found a st₁ hx
    obtain ⟨hB, hclean'⟩ := (hk a st₁ ha).found b st₂ hb
    exact ⟨⟨a, ha, hB⟩, by rw [hclean', hclean, and_assoc, hF a ha]⟩

omit [Keccak] in
/-- One comparison. -/
theorem Weighs.check (a : α) (st : HashAudit) (layer : Layer) (p : Prop) [Decidable p] (text : String) :
    Weighs (.ok (a, st.check layer p text)) st (· = a) p := by
  refine .ok ?_
  rw [clean_check, Bool.and_eq_true, decide_eq_true_iff]

omit [Keccak] in
/-- Two of them. -/
theorem Weighs.check_check (a : α) (st : HashAudit) (layer layer' : Layer) (p p' : Prop) [Decidable p]
    [Decidable p'] (text text' : String) :
    Weighs (.ok (a, (st.check layer p text).check layer' p' text')) st (· = a) (p ∧ p') := by
  refine .ok ?_
  rw [clean_check, clean_check, Bool.and_eq_true, Bool.and_eq_true, decide_eq_true_iff, decide_eq_true_iff,
    and_assoc]

omit [Keccak] in
/-- The children one after the other: each leaves a value of its own. -/
theorem auditRefs_weighs {walk : Nibble → HashAudit → Except Err (Option NodeRef × HashAudit)}
    {A : Nibble → Option NodeRef → Prop} {E : Nibble → Prop}
    (h : ∀ i st, Weighs (walk i st) st (A i) (E i)) (is : List Nibble) (st : HashAudit) :
    Weighs (auditRefs walk is st) st
      (fun refs => (∀ i ∈ is, A i (refs i)) ∧ ∀ i, i ∉ is → refs i = none) (∀ i ∈ is, E i) := by
  induction is generalizing st with
  | nil =>
    refine (Weighs.ok (E := ∀ i ∈ ([] : List Nibble), E i) ?_).congr (fun refs => ?_) fun _ _ => Iff.rfl
    · simp
    · simp only [List.not_mem_nil, false_imp_iff, implies_true, true_and, not_false_eq_true, true_imp_iff]
      exact funext_iff
  | cons i is ih =>
    rw [auditRefs]
    have hrest (ref : Option NodeRef) (st : HashAudit) := (ih st).bind
      (k := fun r => .ok (Function.update r.1 i ref, r.2)) (B := fun refs b => b = Function.update refs i ref)
      (F := fun _ => True) (G := ∀ j ∈ is, E j)
      (fun refs st' _ => .ok (iff_of_eq (and_true _).symm)) fun _ _ => and_iff_left trivial
    refine ((h i st).bind (fun ref st' _ => hrest ref st') fun _ _ => List.forall_mem_cons.symm).congr
      (fun refs => ?_) fun _ _ => Iff.rfl
    constructor
    · rintro ⟨ref, href, refs', ⟨hrefs', hnone⟩, rfl⟩
      refine ⟨fun j hj => ?_, fun j hj => ?_⟩
      · by_cases hji : j = i
        · subst hji
          rwa [Function.update_self]
        · rw [Function.update_of_ne hji]
          exact hrefs' j ((List.mem_cons.mp hj).resolve_left hji)
      · rw [List.mem_cons, not_or] at hj
        rw [Function.update_of_ne hj.1]
        exact hnone j hj.2
    · rintro ⟨hrefs, hnone⟩
      refine ⟨refs i, hrefs i List.mem_cons_self, fun j => if j ∈ is then refs j else none, ⟨?_, ?_⟩, ?_⟩
      · intro j hj
        show A j (if j ∈ is then refs j else none)
        rw [if_pos hj]
        exact hrefs j (List.mem_cons_of_mem i hj)
      · exact fun j hj => if_neg hj
      · funext j
        by_cases hji : j = i
        · subst hji
          rw [Function.update_self]
        · rw [Function.update_of_ne hji]
          split
          · rfl
          · rename_i hj
            exact hnone j fun h => hj ((List.mem_cons.mp h).resolve_left hji)

omit [Keccak] in
/-- The children of a branch. -/
theorem auditChildren_weighs {walk : Nibble → HashAudit → Except Err (Option NodeRef × HashAudit)}
    {A : Nibble → Option NodeRef → Prop} {E : Nibble → Prop}
    (h : ∀ i st, Weighs (walk i st) st (A i) (E i)) (st : HashAudit) :
    Weighs (auditRefs walk (List.finRange 16) st) st (fun refs => ∀ i, A i (refs i)) (∀ i, E i) := by
  refine (auditRefs_weighs h (List.finRange 16) st).congr (fun refs => ?_) fun _ _ => ?_
  · simp
  · simp

/-! ## Records read whole -/

mutual

/-- The node with its references computed anew. -/
def rebuild : Node → Node
  | .empty => .empty
  | .leaf path value _ => leafNode path value
  | .extension path child _ => makeExtension path (rebuild child)
  | .branch children _ => makeBranch fun i => rebuildSlot (children i)
  | .account path nonce balance codeHash storage _ _ =>
    accountNode path nonce balance codeHash (rebuild storage)

def rebuildSlot : Option Node → Option Node
  | none => none
  | some child => some (rebuild child)

end

mutual

/-- The audit of a node read whole recomputes the reference of the rebuilt node, and finds
nothing exactly if that is the node itself. -/
theorem auditWholeRef_weighs (n : Node) (st : HashAudit) :
    Weighs (auditWholeRef n st) st (· = hashNode (rebuild n)) (rebuild n = n) := by
  match n with
  | .empty => exact .ok (and_iff_left rfl).symm
  | .leaf path value nref =>
    refine (Weighs.check _ st .recordNref (leafRef path value = nref) _).congr (fun _ => Iff.rfl) fun _ _ => ?_
    rw [rebuild, leafNode, Node.leaf.injEq]
    exact ⟨fun h => ⟨rfl, rfl, h⟩, fun h => h.2.2⟩
  | .extension path child nref =>
    rw [auditWholeRef]
    refine ((auditWholeRef_weighs child st).bind (fun r st' _ =>
      .check (extRef path r) st' .recordNref (extRef path r = nref) _) (G := _) fun r hr => ?_).congr
      (fun b => ?_) fun _ _ => Iff.rfl
    · rw [rebuild, makeExtension, Node.extension.injEq, hr]
      exact ⟨fun h => ⟨rfl, h.1, h.2⟩, fun h => h.2⟩
    · rw [exists_eq_left]
      rfl
  | .branch children nref =>
    rw [auditWholeRef]
    refine ((auditChildren_weighs (fun i st => auditWholeSlot_weighs (children i) st) st).bind (fun refs st' _ =>
      .check (branchRef refs) st' .recordNref (branchRef refs = nref) _) (G := _) fun refs hrefs => ?_).congr
      (fun b => ?_) fun _ _ => Iff.rfl
    · rw [rebuild, makeBranch, Node.branch.injEq, funext hrefs, funext_iff]
    · constructor
      · rintro ⟨refs, hrefs, rfl⟩
        rw [funext hrefs]
        rfl
      · exact fun hb => ⟨_, fun _ => rfl, hb⟩
  | .account path nonce balance codeHash storage storageRoot nref =>
    rw [auditWholeRef]
    refine ((auditWholeRef_weighs storage st).bind (fun r st' _ =>
      .check_check (leafRef path (accountRlp nonce balance codeHash r.finalize)) st' .recordStorageRoot
        .recordNref (r.finalize = storageRoot)
        (leafRef path (accountRlp nonce balance codeHash r.finalize) = nref) _ _) (G := _) fun r hr => ?_).congr
      (fun b => ?_) fun _ _ => Iff.rfl
    · rw [rebuild, accountNode, Node.account.injEq, hr]
      exact ⟨fun h => ⟨rfl, rfl, rfl, rfl, h.1, h.2⟩, fun ⟨_, _, _, _, h⟩ => h⟩
    · rw [exists_eq_left]
      rfl

theorem auditWholeSlot_weighs (o : Option Node) (st : HashAudit) :
    Weighs (auditWholeSlot o st) st (· = (rebuildSlot o).map hashNode) (rebuildSlot o = o) := by
  match o with
  | none => exact .ok (and_iff_left rfl).symm
  | some child =>
    have ih := auditWholeRef_weighs child st
    have hval (b : Option NodeRef) : (∃ r, r = hashNode (rebuild child) ∧ b = some r) ↔
        b = (rebuildSlot (some child)).map hashNode := by
      rw [exists_eq_left]
      rfl
    -- the header of a serialized child holds the reference of the child
    have hraw : Weighs (auditWholeRef child st >>= fun r => .ok (some r.1,
        r.2.check .recordNref (r.1 = hashNode child) "stale Raw header nref")) st
        (· = (rebuildSlot (some child)).map hashNode) (rebuildSlot (some child) = some child) := by
      refine (ih.bind (fun r st' _ => .check (some r) st' .recordNref (r = hashNode child) _)
        fun r hr => ?_).congr hval fun _ _ => Iff.rfl
      rw [rebuildSlot, Option.some.injEq, and_iff_left_iff_imp, hr]
      exact congrArg hashNode
    have hplain : Weighs (auditWholeRef child st >>= fun r => .ok (some r.1, r.2)) st
        (· = (rebuildSlot (some child)).map hashNode) (rebuildSlot (some child) = some child) := by
      refine (ih.bind (F := fun _ => True) (fun r st' _ => .ok (a := some r) (and_iff_left trivial).symm)
        fun r _ => ?_).congr hval fun _ _ => Iff.rfl
      rw [rebuildSlot, Option.some.injEq, and_iff_left trivial]
    cases child with
    | empty => exact hplain
    | account => exact hplain
    | leaf => exact hraw
    | extension => exact hraw
    | branch => exact hraw

end

/-! ## Records -/

/-- A record audit judged by what it makes of the bytes. -/
theorem RecordAudit.finds {look : RecordAudit} {R : RecordSpec}
    (herr : ∀ bytes e, look bytes = .error e → ∀ pfx root, ¬ R.Holds pfx bytes root)
    (hok : ∀ bytes carried ref, look bytes = .ok (carried, ref) → ∃ (A : NodeRef → Prop) (E : Prop),
      (∀ st, Weighs (ref st) st A E) ∧ (E → ∃ r, A r) ∧ (∀ r, A r → R.root bytes = r.finalize) ∧
        ∀ pfx root, R.Holds pfx bytes root ↔ carried = pfx ∧ E ∧ R.root bytes = root) : look.Finds R := by
  intro bytes pfx root layer prefixText rootText st st'
  unfold auditRecord
  cases hlook : look bytes with
  | error e => exact ⟨fun h => absurd h (herr bytes e hlook pfx root), nofun⟩
  | ok r =>
    obtain ⟨carried, ref⟩ := r
    obtain ⟨A, E, hweighs, hsome, hroot, hholds⟩ := hok bytes carried ref hlook
    rw [ok_bind]
    have href := hweighs (st.check .pfx (carried = pfx) (prefixText carried))
    dsimp only
    refine ⟨fun h => ?_, fun b hb => ?_⟩
    · obtain ⟨r, hr⟩ := hsome ((hholds pfx root).mp h).2.1
      obtain ⟨st₁, hx⟩ := href.total r hr
      rw [hx]
      exact ⟨_, rfl⟩
    · obtain ⟨⟨r, st₁⟩, hx, hb⟩ := bind_ok hb
      cases hb
      obtain ⟨hr, hclean⟩ := href.found r st₁ hx
      refine ⟨congrArg some (hroot r hr).symm, ?_⟩
      show (st₁.check layer (r.finalize = root) _).clean ↔ _
      rw [clean_check, Bool.and_eq_true, hclean, clean_check, Bool.and_eq_true, decide_eq_true_iff,
        decide_eq_true_iff, hholds, hroot r hr, and_assoc, and_assoc]

/-- What a record read whole stands for. -/
def wholeSpec : RecordSpec where
  root bytes :=
    match deserializeSubtree bytes with
    | .ok sub => (hashNode (rebuild sub.node)).finalize
    | .error _ => emptyHash
  Holds pfx bytes root := ∃ node, deserializeSubtree bytes = .ok ⟨pfx, node⟩ ∧ rebuild node = node ∧
    root = (hashNode node).finalize
  root_eq := by
    rintro pfx bytes root ⟨node, hread, hnode, rfl⟩
    rw [hread]
    show (hashNode (rebuild node)).finalize = _
    rw [hnode]

theorem wholeAudit_finds : wholeAudit.Finds wholeSpec := by
  refine RecordAudit.finds (fun bytes e h pfx root => ?_) fun bytes carried ref h => ?_
  · rintro ⟨node, hread, -⟩
    rw [wholeAudit, hread] at h
    cases h
  · obtain ⟨sub, hread, h⟩ := bind_ok h
    cases h
    have hroot : wholeSpec.root bytes = (hashNode (rebuild sub.node)).finalize := by
      unfold wholeSpec
      dsimp only
      rw [hread]
    refine ⟨_, _, auditWholeRef_weighs sub.node, fun _ => ⟨_, rfl⟩, fun r hr => hroot.trans (by rw [hr]), ?_⟩
    intro pfx root
    rw [hroot]
    constructor
    · rintro ⟨node, hread', hnode, rfl⟩
      rw [hread] at hread'
      cases hread'
      exact ⟨rfl, hnode, by rw [hnode]⟩
    · rintro ⟨rfl, hnode, rfl⟩
      exact ⟨sub.node, hread, hnode, by rw [hnode]⟩

end

end FlatMpt

namespace FlatMpt.Lazy

open FlatMpt
open Radix (Tree)
open Radix.Tree (Canon)

section
variable [Keccak]

/-! ## Records read lazily -/

mutual

/-- The reference of a node recomputed from the leaves up, serialized children expanded. -/
inductive Refolds : Node → NodeRef → Prop
  | empty : Refolds .empty (.hash emptyHash)
  | leaf (path : List Nibble) (value : Bytes) (nref : NodeRef) :
      Refolds (.leaf path value nref) (leafRef path value)
  | extension (path : List Nibble) {child : Node} (nref : NodeRef) {r : NodeRef} (h : Refolds child r) :
      Refolds (.extension path child nref) (extRef path r)
  | branch {children : Nibble → Option Node} (nref : NodeRef) {refs : Nibble → Option NodeRef}
      (h : ∀ i, SlotRefolds (children i) (refs i)) : Refolds (.branch children nref) (branchRef refs)
  | overflow (unit len : UInt32) (root : Hash) : Refolds (.overflow unit len root) (.hash root)
  | account (path : List Nibble) (nonce : UInt64) (balance : U256) (codeHash : Hash) {storage : Node}
      (storageRoot : Hash) (nref : NodeRef) {r : NodeRef} (h : Refolds storage r) :
      Refolds (.account path nonce balance codeHash storage storageRoot nref)
        (leafRef path (accountRlp nonce balance codeHash r.finalize))
  | raw {buf : Bytes} {off len : Nat} (nref : NodeRef) {l : Node} {r : NodeRef}
      (hp : parseNodeLazy buf off len = .ok l) (h : Refolds l r) : Refolds (.raw buf off len nref) r

inductive SlotRefolds : Option Node → Option NodeRef → Prop
  | none : SlotRefolds none none
  | some {l : Node} {r : NodeRef} (h : Refolds l r) : SlotRefolds (some l) (some r)

end

mutual

/-- No reference in the node is stale: each is the one recomputed from below. -/
inductive Genuine : Node → Prop
  | empty : Genuine .empty
  | leaf (path : List Nibble) (value : Bytes) : Genuine (.leaf path value (leafRef path value))
  | extension (path : List Nibble) {child : Node} (h : Genuine child) :
      Genuine (.extension path child (extRef path (hashNode child)))
  | branch {children : Nibble → Option Node} (h : ∀ i, SlotGenuine (children i)) :
      Genuine (.branch children (branchRef fun i => (children i).map hashNode))
  | overflow (unit len : UInt32) (root : Hash) : Genuine (.overflow unit len root)
  | account (path : List Nibble) (nonce : UInt64) (balance : U256) (codeHash : Hash) {storage : Node}
      (h : Genuine storage) : Genuine (accountNode path nonce balance codeHash storage)
  | raw {buf : Bytes} {off len : Nat} {l : Node} (hp : parseNodeLazy buf off len = .ok l) (h : Genuine l) :
      Genuine (.raw buf off len (hashNode l))

inductive SlotGenuine : Option Node → Prop
  | none : SlotGenuine none
  | some {l : Node} (h : Genuine l) : SlotGenuine (some l)

end

mutual

theorem Genuine.refolds {l : Node} (h : Genuine l) : Refolds l (hashNode l) := by
  match h with
  | .empty => exact .empty
  | .leaf path value => exact .leaf path value _
  | .extension path h => exact .extension path _ h.refolds
  | .branch h => exact .branch _ fun i => (h i).refolds
  | .overflow unit len root => exact .overflow unit len root
  | .account path nonce balance codeHash h => exact .account path nonce balance codeHash _ _ h.refolds
  | .raw hp h => exact .raw _ hp h.refolds

theorem SlotGenuine.refolds {o : Option Node} (h : SlotGenuine o) : SlotRefolds o (o.map hashNode) := by
  match h with
  | .none => exact .none
  | .some h => exact .some h.refolds

end

mutual

theorem Refolds.unique {l : Node} {r r' : NodeRef} (h : Refolds l r) (h' : Refolds l r') : r = r' := by
  match h with
  | .empty => cases h'; rfl
  | .leaf .. => cases h'; rfl
  | .overflow .. => cases h'; rfl
  | .extension path nref h =>
    cases h' with
    | extension _ _ h' => rw [h.unique h']
  | .branch nref h =>
    cases h' with
    | branch _ h' => exact congrArg branchRef (funext fun i => (h i).unique (h' i))
  | .account path nonce balance codeHash storageRoot nref h =>
    cases h' with
    | account _ _ _ _ _ _ h' => rw [h.unique h']
  | .raw nref hp h =>
    cases h' with
    | raw _ hp' h' =>
      obtain rfl := Except.ok.inj (hp.symm.trans hp')
      exact h.unique h'

theorem SlotRefolds.unique {o : Option Node} {r r' : Option NodeRef} (h : SlotRefolds o r)
    (h' : SlotRefolds o r') : r = r' := by
  match h with
  | .none => cases h'; rfl
  | .some h =>
    cases h' with
    | some h' => rw [h.unique h']

end

/-- The audit of a serialized child that is within the buffer from `lo` on. -/
def RawWeighs (raw : Bytes → Nat → Nat → HashAudit → Except Err (NodeRef × HashAudit)) (buf : Bytes)
    (lo : Nat) : Prop :=
  ∀ off len, lo ≤ off → off + len ≤ buf.length → ∀ st, Weighs (raw buf off len st) st
    (fun r => ∃ l, parseNodeLazy buf off len = .ok l ∧ Refolds l r)
    (∃ l, parseNodeLazy buf off len = .ok l ∧ Genuine l)

variable {buf : Bytes} {lo : Nat}
  {raw : Bytes → Nat → Nat → HashAudit → Except Err (NodeRef × HashAudit)}

mutual

/-- The audit of a node recomputes its reference, and finds nothing exactly if none is stale. -/
theorem auditNode_weighs (hraw : RawWeighs raw buf lo) (n : Node) (hn : Within buf lo n) (st : HashAudit) :
    Weighs (auditNode raw n st) st (Refolds n) (Genuine n) := by
  match n with
  | .empty =>
    refine (Weighs.ok (E := Genuine .empty) ?_).congr (fun r => ?_) fun _ _ => Iff.rfl
    · exact (and_iff_left .empty).symm
    · exact ⟨fun h => h ▸ .empty, fun h => by cases h; rfl⟩
  | .overflow unit len root =>
    refine (Weighs.ok (E := Genuine (.overflow unit len root)) ?_).congr (fun r => ?_) fun _ _ => Iff.rfl
    · exact (and_iff_left (.overflow unit len root)).symm
    · exact ⟨fun h => h ▸ .overflow unit len root, fun h => by cases h; rfl⟩
  | .leaf path value nref =>
    refine (Weighs.check _ st .recordNref (leafRef path value = nref) _).congr (fun r => ?_) fun _ _ => ?_
    · exact ⟨fun h => h ▸ .leaf path value nref, fun h => by cases h; rfl⟩
    · exact ⟨fun h => h ▸ .leaf path value, fun h => by cases h; rfl⟩
  | .extension path child nref =>
    cases hn with
    | extension _ _ hn =>
      rw [auditNode]
      refine ((auditNode_weighs hraw child hn st).bind (fun r st' _ =>
        .check (extRef path r) st' .recordNref (extRef path r = nref) _) (G := _) fun r hr => ?_).congr
        (fun b => ?_) fun _ _ => Iff.rfl
      · constructor
        · rintro ⟨hc, rfl⟩
          rw [hr.unique hc.refolds]
          exact .extension path hc
        · intro h
          cases h with
          | extension _ hc => exact ⟨hc, by rw [hr.unique hc.refolds]⟩
      · constructor
        · rintro ⟨r, hr, rfl⟩
          exact .extension path nref hr
        · intro h
          cases h with
          | extension _ _ hr => exact ⟨_, hr, rfl⟩
  | .branch children nref =>
    cases hn with
    | branch _ hn =>
      rw [auditNode]
      refine ((auditChildren_weighs (fun i st => auditSlot_weighs hraw (children i) (hn i) st) st).bind
        (fun refs st' _ => .check (branchRef refs) st' .recordNref (branchRef refs = nref) _) (G := _)
        fun refs hrefs => ?_).congr (fun b => ?_) fun _ _ => Iff.rfl
      · have hrefs' (hc : ∀ i, SlotGenuine (children i)) : refs = fun i => (children i).map hashNode :=
          funext fun i => (hrefs i).unique (hc i).refolds
        constructor
        · rintro ⟨hc, rfl⟩
          rw [hrefs' hc]
          exact .branch hc
        · intro h
          cases h with
          | branch hc => exact ⟨hc, by rw [hrefs' hc]⟩
      · constructor
        · rintro ⟨refs, hrefs, rfl⟩
          exact .branch nref hrefs
        · intro h
          cases h with
          | branch _ hrefs => exact ⟨_, hrefs, rfl⟩
  | .account path nonce balance codeHash storage storageRoot nref =>
    cases hn with
    | account _ _ _ _ _ _ hn =>
      rw [auditNode]
      refine ((auditNode_weighs hraw storage hn st).bind (fun r st' _ =>
        .check_check (leafRef path (accountRlp nonce balance codeHash r.finalize)) st' .recordStorageRoot
          .recordNref (r.finalize = storageRoot)
          (leafRef path (accountRlp nonce balance codeHash r.finalize) = nref) _ _) (G := _)
          fun r hr => ?_).congr (fun b => ?_) fun _ _ => Iff.rfl
      · constructor
        · rintro ⟨hc, rfl, rfl⟩
          rw [hr.unique hc.refolds]
          exact .account path nonce balance codeHash hc
        · intro h
          cases h with
          | account _ _ _ _ hc => exact ⟨hc, by rw [hr.unique hc.refolds], by rw [hr.unique hc.refolds]⟩
      · constructor
        · rintro ⟨r, hr, rfl⟩
          exact .account path nonce balance codeHash storageRoot nref hr
        · intro h
          cases h with
          | account _ _ _ _ _ _ hr => exact ⟨_, hr, rfl⟩
  | .raw buf' off len nref =>
    cases hn with
    | raw _ hlo hle =>
      rw [auditNode]
      refine ((hraw off len hlo hle st).bind (fun r st' _ =>
        .check r st' .recordNref (r = nref) _) (G := _) fun r hr => ?_).congr
        (fun b => ?_) fun _ _ => Iff.rfl
      · obtain ⟨l, hp, hr⟩ := hr
        constructor
        · rintro ⟨⟨l', hp', hl⟩, rfl⟩
          obtain rfl := Except.ok.inj (hp.symm.trans hp')
          rw [hr.unique hl.refolds]
          exact .raw hp hl
        · intro h
          cases h with
          | raw hp' hl =>
            obtain rfl := Except.ok.inj (hp.symm.trans hp')
            exact ⟨⟨l, hp, hl⟩, hr.unique hl.refolds⟩
      · constructor
        · rintro ⟨_, ⟨l, hp, hr⟩, rfl⟩
          exact .raw nref hp hr
        · intro h
          cases h with
          | raw _ hp hr => exact ⟨b, ⟨_, hp, hr⟩, rfl⟩

theorem auditSlot_weighs (hraw : RawWeighs raw buf lo) (o : Option Node)
    (hn : ∀ c, o = some c → Within buf lo c) (st : HashAudit) :
    Weighs (auditSlot raw o st) st (SlotRefolds o) (SlotGenuine o) := by
  match o with
  | none =>
    refine (Weighs.ok (E := SlotGenuine none) ?_).congr (fun r => ?_) fun _ _ => Iff.rfl
    · exact (and_iff_left .none).symm
    · exact ⟨fun h => h ▸ .none, fun h => by cases h; rfl⟩
  | some child =>
    rw [auditSlot]
    refine ((auditNode_weighs hraw child (hn child rfl) st).bind (F := fun _ => True) (fun r st' _ =>
      .ok (a := some r) (and_iff_left trivial).symm) (G := SlotGenuine (some child)) fun r hr => ?_).congr
      (fun b => ?_) fun _ _ => Iff.rfl
    · rw [and_iff_left trivial]
      exact ⟨.some, fun h => by cases h; assumption⟩
    · constructor
      · rintro ⟨r, hr, rfl⟩
        exact .some hr
      · intro h
        cases h with
        | some hr => exact ⟨_, hr, rfl⟩

end

/-- The children that an expanded child leaves serialized lie after it, so fuel for the rest of
the buffer is enough. -/
theorem auditRaw_weighs (buf : Bytes) (fuel : Nat) :
    ∀ lo, buf.length < lo + fuel → RawWeighs (auditRaw fuel) buf lo := by
  induction fuel with
  | zero =>
    intro lo hfuel off len hlo hle
    omega
  | succ fuel ih =>
    intro lo hfuel off len hlo hle st
    rw [auditRaw]
    cases hp : parseNodeLazy buf off len with
    | error e =>
      refine ⟨?_, nofun⟩
      rintro _ ⟨l, hl, -⟩
      cases hl
    | ok l =>
      have hraw := ih (off + 1) (by omega)
      refine (auditNode_weighs hraw l (parseNodeLazy_within hle hp) st).congr (fun r => ?_) fun _ _ => ?_
      · exact ⟨fun h => ⟨l, rfl, h⟩, fun ⟨l', hl, h⟩ => by cases hl; exact h⟩
      · exact ⟨fun h => ⟨l, rfl, h⟩, fun ⟨l', hl, h⟩ => by cases hl; exact h⟩

theorem auditRecordRef_weighs {n : Node} (hn : Within buf lo n) (hlo : 0 < lo) (st : HashAudit) :
    Weighs (auditRecordRef n st) st (Refolds n) (Genuine n) := by
  have hraw : RawWeighs (fun buf => auditRaw (buf.length + 1) buf) buf lo :=
    auditRaw_weighs buf (buf.length + 1) lo (by omega)
  exact auditNode_weighs hraw n hn st

/-- The bytes are a record with this root, recomputed. -/
def RootOf (bytes : Bytes) (root : Hash) : Prop :=
  ∃ sub r, deserializeSubtreeLazy bytes = .ok sub ∧ Refolds sub.node r ∧ root = r.finalize

theorem RootOf.unique {bytes : Bytes} {root root' : Hash} (h : RootOf bytes root) (h' : RootOf bytes root') :
    root = root' := by
  obtain ⟨sub, r, hread, hr, rfl⟩ := h
  obtain ⟨sub', r', hread', hr', rfl⟩ := h'
  obtain rfl := Except.ok.inj (hread.symm.trans hread')
  rw [hr.unique hr']

open Classical in
noncomputable def recordRoot (bytes : Bytes) : Hash :=
  if h : ∃ root, RootOf bytes root then h.choose else emptyHash

theorem RootOf.recordRoot_eq {bytes : Bytes} {root : Hash} (h : RootOf bytes root) :
    recordRoot bytes = root := by
  have hex : ∃ root, RootOf bytes root := ⟨root, h⟩
  unfold recordRoot
  rw [dif_pos hex]
  exact hex.choose_spec.unique h

/-- What a record read lazily stands for. -/
noncomputable def recordSpec : RecordSpec where
  root := recordRoot
  Holds pfx bytes root := ∃ node, deserializeSubtreeLazy bytes = .ok ⟨pfx, node⟩ ∧ Genuine node ∧
    root = (hashNode node).finalize
  root_eq := by
    rintro pfx bytes root ⟨node, hread, hnode, rfl⟩
    exact RootOf.recordRoot_eq ⟨_, _, hread, hnode.refolds, rfl⟩

theorem lazyAudit_finds : lazyAudit.Finds recordSpec := by
  refine RecordAudit.finds (fun bytes e h pfx root => ?_) fun bytes carried ref h => ?_
  · rintro ⟨node, hread, -⟩
    rw [lazyAudit, hread] at h
    cases h
  · obtain ⟨sub, hread, h⟩ := bind_ok h
    cases h
    refine ⟨Refolds sub.node, Genuine sub.node,
      auditRecordRef_weighs (deserializeSubtreeLazy_within hread) Nat.one_pos,
      fun h => ⟨_, h.refolds⟩, fun r hr => RootOf.recordRoot_eq ⟨sub, r, hread, hr, rfl⟩, fun pfx root => ?_⟩
    constructor
    · rintro ⟨node, hread', hnode, rfl⟩
      obtain rfl := Except.ok.inj (hread.symm.trans hread')
      exact ⟨rfl, hnode, RootOf.recordRoot_eq ⟨_, _, hread, hnode.refolds, rfl⟩⟩
    · rintro ⟨rfl, hnode, rfl⟩
      exact ⟨sub.node, hread, hnode, RootOf.recordRoot_eq ⟨sub, _, hread, hnode.refolds, rfl⟩⟩

end

/-! ## Records of the engine -/

theorem ok_of_mapM_ok {α β ε : Type} {f : α → Except ε β} {l : List α} {bs : List β}
    (h : l.mapM f = .ok bs) : ∀ a ∈ l, ∃ b, f a = .ok b := by
  induction l generalizing bs with
  | nil => nofun
  | cons a l ih =>
    rw [List.mapM_cons] at h
    cases ha : f a with
    | error e =>
      rw [ha] at h
      cases h
    | ok b =>
      cases hl : l.mapM f with
      | error e =>
        rw [ha, hl] at h
        cases h
      | ok bs' => exact List.forall_mem_cons.mpr ⟨⟨b, ha⟩, ih hl⟩

theorem writeNibblePath_length {path : List Nibble} {p : Bytes} (h : writeNibblePath path = .ok p) :
    p.length = pathSize path.length := by
  unfold writeNibblePath at h
  split at h
  · cases h
  · cases h
    exact path_length path

/-- What is written has the size counted. -/
theorem writeNode_length (n : Node) : ∀ w, writeNode n = .ok w → w.length = nodeSize n := by
  induction n using Node.induct with
  | hempty =>
    rintro _ ⟨⟩
    rfl
  | hleaf path value nref =>
    intro w h
    obtain ⟨p, hp, h⟩ := bind_ok h
    cases h
    simp only [List.length_cons, List.length_append, leBytes_length, writeRef_length,
      writeNibblePath_length hp, nodeSize]
    omega
  | hext path child nref ih =>
    intro w h
    obtain ⟨p, hp, h⟩ := bind_ok h
    obtain ⟨c, hc, h⟩ := bind_ok h
    cases h
    simp only [List.length_cons, List.length_append, writeRef_length, writeNibblePath_length hp, ih c hc,
      nodeSize]
    omega
  | hbranch children nref ih =>
    intro w h
    obtain ⟨cs, hcs, h⟩ := bind_ok h
    cases h
    choose o ho using fun i => ok_of_mapM_ok hcs i (List.mem_finRange i)
    rw [mapM_ok _ fun i _ => ho i] at hcs
    cases hcs
    have hlen := slots_length (c := children) (o := o) (fun i => ?_) (List.finRange 16)
    · simp only [List.flatMap_map, List.length_cons, List.length_append, leBytes_length, writeRef_length,
        nodeSize]
      unfold tableOf at hlen
      omega
    · have hi := ho i
      cases hc : children i with
      | none =>
        rw [hc] at hi
        rw [← Except.ok.inj hi]
        exact ⟨fun h => (by cases h), fun _ => by rw [slotSize]⟩
      | some c =>
        rw [hc] at hi
        obtain ⟨b, hb, hi⟩ := bind_ok hi
        rw [← Except.ok.inj hi]
        refine ⟨fun _ => ?_, fun h => by cases h⟩
        show b.length + 4 = 4 + nodeSize c
        rw [ih i c hc b hb, Nat.add_comm]
  | hover unit len root =>
    rintro _ ⟨⟩
    simp only [List.length_cons, List.length_append, leBytes_length, root.size, nodeSize]
  | hacct path nonce balance codeHash storage storageRoot nref ih =>
    intro w h
    obtain ⟨p, hp, h⟩ := bind_ok h
    obtain ⟨s, hs, h⟩ := bind_ok h
    cases h
    have hbl : (be32 balance).length = 32 := by simp [be32]
    simp only [List.length_cons, List.length_append, leBytes_length, hbl, codeHash.size,
      writeNibblePath_length hp, ih s hs, nodeSize]
    omega
  | hraw buf off len nref =>
    intro w h
    unfold writeNode at h
    split at h
    · cases h
    · rename_i hle
      cases h
      rw [List.length_take, List.length_drop, nodeSize]
      omega

section
variable [Keccak] {α : Type}

theorem refFits_mkRef (rlp : Bytes) : RefFits (mkRef rlp) := by
  unfold mkRef
  split
  next h => exact h
  next => exact trivial

omit [Keccak] in
/-- A child is smaller than the node it is in. -/
theorem nodeSize_child_le {children : Nibble → Option Node} {i : Nibble} {c : Node} (hc : children i = some c)
    (nref : NodeRef) : nodeSize c ≤ nodeSize (.branch children nref) := by
  have hmem : slotSize (children i) ∈ (List.finRange 16).map fun i => slotSize (children i) :=
    List.mem_map_of_mem (List.mem_finRange i)
  have hle := List.single_le_sum (by simp) _ hmem
  rw [hc, slotSize] at hle
  rw [nodeSize]
  omega

/-- A tree's record node fits the lazy format too when its leaves do and its size is below 2^32. -/
theorem fits_toNode (L : LeafForm α) (P : α → Prop)
    (hL : ∀ p a, p.length ≤ 64 → P a → nodeSize (ofNode (L.node p a)) < 2 ^ 32 → Fits (ofNode (L.node p a)))
    {n : Nat} {t : Tree 16 α} (ht : Canon n t) (hn : n ≤ 64) (hP : ∀ k a, t.get k = some a → P a)
    (hsize : nodeSize (ofNode (toNode L t)) < 2 ^ 32) : Fits (ofNode (toNode L t)) := by
  induction ht with
  | empty => exact trivial
  | @leaf n p a hp => exact hL p a (by omega) (hP p a (by rw [Tree.get_leaf, if_pos rfl])) hsize
  | @ext n m p c hp hm hb hc ih =>
    have hsize' : nodeSize (ofNode (toNode L c)) < 2 ^ 32 := by
      rw [toNode, FlatMpt.makeExtension, ofNode, nodeSize] at hsize
      omega
    refine ⟨by omega, refFits_mkRef _, ih (by omega) (fun k a hk => hP (p ++ k) a ?_) hsize'⟩
    rw [Tree.get_ext_append, hk]
  | @branch n m cs hm hc h2 ih =>
    refine ⟨refFits_mkRef _, fun i => ?_⟩
    show SlotFits (ofSlot (asChild (toNode L (cs i))))
    by_cases hi : cs i = .empty
    · rw [hi]
      exact trivial
    · rw [asChild_toNode L hi]
      have hchild : ofSlot (asChild (toNode L (cs i))) = some (ofNode (toNode L (cs i))) := by
        rw [asChild_toNode L hi]
        rfl
      have hle : nodeSize (ofNode (toNode L (cs i))) ≤ nodeSize (ofNode (toNode L (.branch cs))) :=
        nodeSize_child_le hchild _
      have hsize' : nodeSize (ofNode (toNode L (cs i))) < 2 ^ 32 := hle.trans_lt hsize
      exact ⟨ih i (by omega) (fun k a hk => hP (i :: k) a hk) hsize', hsize'⟩

theorem fits_valueLeaf {p : List Nibble} {v : Bytes} (hp : p.length ≤ 64) (hv : ShortValue v) :
    Fits (ofNode (valueLeaf.node p v)) := ⟨hp, hv, refFits_mkRef _⟩

theorem fits_stateLeaf {p : List Nibble} {a : StateLeaf} (hp : p.length ≤ 64) (ha : a.Short)
    (hsize : nodeSize (ofNode (stateLeaf.node p a)) < 2 ^ 32) : Fits (ofNode (stateLeaf.node p a)) := by
  cases a with
  | raw v => exact ⟨hp, ha, refFits_mkRef _⟩
  | account n b c s =>
    have hsize' : nodeSize (ofNode (toNode valueLeaf s.tree)) < 2 ^ 32 := by
      change nodeSize (.account p n b c (ofNode (toNode valueLeaf s.tree)) _ _) < _ at hsize
      rw [nodeSize] at hsize
      omega
    refine ⟨hp, fits_toNode valueLeaf ShortValue (fun p a hp ha _ => fits_valueLeaf hp ha) s.canon
      le_rfl ha hsize', ?_⟩
    show Node.account p n b c (ofNode (toNode valueLeaf s.tree)) _ _ = _
    rw [accountNode, hashNode_ofNode]
    rfl

/-- A serialized child carries the reference of its parsed form. -/
theorem genuine_of_parsed {n : Node} (hfit : Fits n)
    (h : ∀ l, Lazily l n → (∀ b o k r, l ≠ .raw b o k r) → Genuine l) {l : Node} (hl : Lazily l n) :
    Genuine l := by
  cases l with
  | raw buf off len nref =>
    obtain ⟨l₁, hp, hlaz, hraw⟩ := parse_raw hl hfit
    have hnref : nref = hashNode l₁ := hl.hash_eq.trans hlaz.hash_eq.symm
    rw [hnref]
    exact .raw hp (h l₁ hlaz hraw)
  | _ => exact h _ hl fun b o k r h => by cases h

/-- A lazy form of a node without a stale reference has none either. -/
theorem Lazily.genuine {n : FlatMpt.Node} (hn : rebuild n = n) (hfit : Fits (ofNode n)) {l : Node}
    (hl : Lazily l (ofNode n)) : Genuine l := by
  induction n using FlatMpt.Node.induct generalizing l with
  | hempty =>
    refine genuine_of_parsed hfit (fun l hl hraw => ?_) hl
    cases hl with
    | empty => exact .empty
    | raw => exact absurd rfl (hraw _ _ _ _)
  | hleaf path value nref =>
    rw [rebuild, FlatMpt.leafNode, FlatMpt.Node.leaf.injEq] at hn
    refine genuine_of_parsed hfit (fun l hl hraw => ?_) hl
    cases hl with
    | leaf => rw [← hn.2.2]; exact .leaf path value
    | raw => exact absurd rfl (hraw _ _ _ _)
  | hext path child nref ih =>
    rw [rebuild, FlatMpt.makeExtension, FlatMpt.Node.extension.injEq] at hn
    obtain ⟨-, hchild, hnref⟩ := hn
    refine genuine_of_parsed hfit (fun l hl hraw => ?_) hl
    cases hl with
    | @extension _ l' _ _ h =>
      have hhash : hashNode l' = FlatMpt.hashNode child := h.hash_eq.trans (hashNode_ofNode child)
      rw [← hnref, hchild, ← hhash]
      exact .extension path (ih hchild hfit.2.2 h)
    | raw => exact absurd rfl (hraw _ _ _ _)
  | hbranch children nref ih =>
    rw [rebuild, FlatMpt.makeBranch, FlatMpt.Node.branch.injEq] at hn
    obtain ⟨hchildren, hnref⟩ := hn
    refine genuine_of_parsed hfit (fun l hl hraw => ?_) hl
    cases hl with
    | @branch ls _ _ h =>
      have hslot (i : Nibble) : SlotGenuine (ls i) ∧
          (ls i).map hashNode = (children i).map FlatMpt.hashNode := by
        have hi : SlotLazily (ls i) (ofSlot (children i)) := h i
        have hsame := congrFun hchildren i
        have hfiti : SlotFits (ofSlot (children i)) := hfit.2 i
        cases hc : children i with
        | none =>
          rw [hc] at hi
          rw [hi.eq_none]
          exact ⟨.none, rfl⟩
        | some c =>
          rw [hc] at hi hsame hfiti
          obtain ⟨l', hl', hlaz⟩ := hi.eq_some
          rw [hl']
          refine ⟨.some (ih i c hc (Option.some.inj hsame) hfiti.1 hlaz), congrArg some ?_⟩
          exact hlaz.hash_eq.trans (hashNode_ofNode c)
      have hrefs : nref = branchRef fun i => (ls i).map hashNode :=
        hnref.symm.trans (congrArg branchRef (funext fun i => by
          rw [congrFun hchildren i, (hslot i).2]))
      rw [hrefs]
      exact .branch fun i => (hslot i).1
    | raw => exact absurd rfl (hraw _ _ _ _)
  | hacct path nonce balance codeHash storage storageRoot nref ih =>
    rw [rebuild, FlatMpt.accountNode, FlatMpt.Node.account.injEq] at hn
    obtain ⟨-, -, -, -, hstorage, hroot, hnref⟩ := hn
    refine genuine_of_parsed hfit (fun l hl hraw => ?_) hl
    cases hl with
    | @account _ _ _ _ l' _ _ _ h =>
      have hhash : hashNode l' = FlatMpt.hashNode storage := h.hash_eq.trans (hashNode_ofNode storage)
      rw [← hnref, ← hroot, hstorage, ← hhash]
      exact .account path nonce balance codeHash (ih hstorage hfit.2.1 h)
    | raw => exact absurd rfl (hraw _ _ _ _)

end

end FlatMpt.Lazy

namespace FlatMpt

open Prog
open Radix (Tree)
open Radix.Tree (Canon)

/-! ## Small frontiers -/

/-- One record for the slot 0, with the references it should have. -/
def freshFrontier [Keccak] : RamNode :=
  let node := makeBranch fun i =>
    if i = 1 then some (leafNode [2] [7]) else if i = 3 then some (leafNode [4] [8]) else none
  .branch (fun i => if i = 0 then .mem ((serializeSubtree ⟨[0], node⟩).toOption.getD [])
    (hashNode node).finalize else .none) none

/-- One record whose references are empty, and whose prefix is that of the root. -/
def staleFrontier : RamNode :=
  .branch (fun i => if i = 0 then .mem Lazy.tableRecord (.fill 0) else .none) none

/-- A record is kept in RAM, and none is long. -/
def Sys.keepsShort (σ : Sys) : Bool :=
  (leafSlots σ.db.upper []).all (fun e => match e.2 with
    | .mem bytes _ => bytes.length < 2 ^ 32
    | _ => true) && !(leafSlots σ.db.upper []).isEmpty

theorem small_audits :
    let _ : Keccak := flatHash
    let s := (Sys.create true false []).store
    ((audit lazyAudit s freshFrontier).map fun st => st.clean).toOption = some true ∧
    ((audit lazyAudit s staleFrontier).map fun st => (st.badPrefixes, st.badRecordNrefs)).toOption =
      some (1, 3) ∧
    (serves staleEnv (.create true false []) threeOps).any (·.keepsShort) = true := by
  decide +kernel

section
variable [Keccak] {α : Type}

/-- **A clean report means up-to-date caches, and the other way round**, on any frontier over any
file; the root reported is the one recomputed from the records, and after a clean report the
root that the caches give. -/
theorem audit_clean_iff (s : Store) (n : RamNode) :
    ((∃ st, audit lazyAudit s n = .ok st ∧ st.clean) ↔ UpToDate Lazy.recordSpec s n []) ∧
      ∀ st, audit lazyAudit s n = .ok st → st.trueRoot = hashRam (refreshed Lazy.recordSpec s n) ∧
        (st.clean → hashRam n = st.trueRoot) := by
  obtain ⟨htotal, hfound⟩ := audit_run Lazy.lazyAudit_finds s n
  refine ⟨⟨?_, fun h => ?_⟩, fun st hst => ?_⟩
  · rintro ⟨st, hst, hclean⟩
    exact (hfound st hst).2.mp hclean
  · obtain ⟨st, hst⟩ := htotal h
    exact ⟨st, hst, (hfound st hst).2.mpr h⟩
  · obtain ⟨hroot, hclean⟩ := hfound st hst
    exact ⟨hroot, fun h => ((hclean.mp h).hash).trans hroot.symm⟩

end

/-- A record as it should be is found so, stale references are found. -/
theorem audit_clean_iff_small :
    ∃ (_ : Keccak) (s : Store), UpToDate Lazy.recordSpec s freshFrontier [] ∧
      ¬ UpToDate Lazy.recordSpec s staleFrontier [] ∧ ∃ st, audit lazyAudit s staleFrontier = .ok st ∧
        st.trueRoot = hashRam (refreshed Lazy.recordSpec s staleFrontier) := by
  let _ : Keccak := flatHash
  obtain ⟨hfresh, hstale, -⟩ := small_audits
  refine ⟨flatHash, (Sys.create true false []).store, ?_, ?_, ?_⟩
  · cases h : audit lazyAudit (Sys.create true false []).store freshFrontier with
    | error e =>
      rw [h] at hfresh
      cases hfresh
    | ok st =>
      rw [h] at hfresh
      exact (audit_clean_iff _ _).1.mp ⟨st, h, Option.some.inj hfresh⟩
  · intro hup
    obtain ⟨st, h, hclean⟩ := (audit_clean_iff _ _).1.mpr hup
    rw [h] at hstale
    have hbad : st.badRecordNrefs = 3 := congrArg Prod.snd (Option.some.inj hstale)
    simp [HashAudit.clean, hbad] at hclean
  · cases h : audit lazyAudit (Sys.create true false []).store staleFrontier with
    | error e =>
      rw [h] at hstale
      cases hstale
    | ok st => exact ⟨st, rfl, ((audit_clean_iff _ _).2 st h).1⟩

section
variable [Keccak] {α : Type}

/-! ## Regular runs -/

/-- The leaves of a kind hold the references they should. -/
def Kind.Rebuilds (K : Kind α) : Prop := ∀ p a, rebuild (K.form.node p a) = K.form.node p a

theorem rebuild_toNode {K : Kind α} (hK : K.Rebuilds) (t : Tree 16 α) :
    rebuild (toNode K.form t) = toNode K.form t := by
  induction t with
  | empty => rfl
  | leaf p a => exact hK p a
  | ext p c ih => rw [toNode, makeExtension, rebuild, ih, makeExtension]
  | branch cs ih =>
    rw [toNode, makeBranch, rebuild]
    refine congrArg makeBranch (funext fun i => ?_)
    have hslot : rebuildSlot (asChild (toNode K.form (cs i))) =
        asChild (rebuild (toNode K.form (cs i))) := by
      cases toNode K.form (cs i) <;> rfl
    rw [hslot, ih i]

theorem rebuilds_storage (account : Key) : (storageKind account).Rebuilds := fun _ _ => rfl

theorem rebuilds_state : stateKind.Rebuilds := by
  intro p a
  cases a with
  | raw v => rfl
  | account n b c s =>
    show accountNode p n b c (rebuild (toNode valueLeaf s.tree)) = _
    rw [show rebuild (toNode valueLeaf s.tree) = _ from rebuild_toNode (rebuilds_storage (.fill 0)) s.tree]
    rfl

/-- The bytes of the record in a leaf slot. -/
def slotBytes (s : Store) : RamSlot → Option Bytes
  | .disk ptr _ => some (s.payload ptr)
  | .mem bytes _ => some bytes
  | _ => none

/-- The records of a trie, as far as their bytes satisfy `P`, hold. -/
def Kind.Holds (K : Kind α) (P : Bytes → Prop) (R : RecordSpec) : Prop :=
  ∀ {q t bytes root}, Recorded K q t bytes root → P bytes → R.Holds (K.root ++ q) bytes root

/-- The bytes of every record in the slots satisfy `P`. -/
def RecordsAre (P : Bytes → Prop) (s : Store) (slots : List (List Nibble × RamSlot)) : Prop :=
  ∀ e ∈ slots, ∀ bytes, slotBytes s e.2 = some bytes → P bytes

variable {P : Bytes → Prop} {R : RecordSpec}

/-- The storage frontier of a promoted account is up to date. -/
def Kind.LoneUpToDate (K : Kind α) (P : Bytes → Prop) (R : RecordSpec) (s : Store) : Prop :=
  ∀ {full p nonce balance codeHash storage a},
    K.lone full nonce balance codeHash (mapLeaves (fetch s) storage p) a →
      RecordsAre P s (leafSlots storage p) → UpToDate R s storage full

mutual

/-- A frontier that shows a tree is up to date. -/
theorem Shows.upToDate {K : Kind α} (hK : K.Holds P R) {s : Store} (hL : K.LoneUpToDate P R s) (n : RamNode)
    {p q : List Nibble} {t : Tree 16 α} (h : Shows K q (mapLeaves (fetch s) n p) t)
    (hP : RecordsAre P s (leafSlots n p)) : UpToDate R s n (K.root ++ q) := by
  match n with
  | .empty => trivial
  | .extension path child hash =>
    have hraw := hashRam_mapLeaves (fetch_hash s) (.extension path child none) p
    rw [mapLeaves] at h hraw
    cases h with
    | extension hp hb hc h hh =>
      have hchild : UpToDate R s child (K.root ++ q ++ path) := by
        rw [List.append_assoc]
        exact Shows.upToDate hK hL child h hP
      have hplain : UpToDate R s (.extension path child none) (K.root ++ q) := ⟨hchild, nofun⟩
      exact ⟨hchild, fun c hc => (hh c hc).trans (hraw.trans hplain.hash)⟩
  | .branch slots hash =>
    have hraw := hashRam_mapLeaves (fetch_hash s) (.branch slots none) p
    rw [mapLeaves] at h hraw
    cases h with
    | branch hq h hh =>
      have hslots (i : Nibble) : UpToDateSlot R s (slots i) (K.root ++ q ++ [i]) := by
        rw [List.append_assoc]
        refine ShowsSlot.upToDate hK hL (slots i) (h i) fun e he => hP e ?_
        exact List.mem_flatMap.mpr ⟨i, List.mem_finRange i, he⟩
      have hplain : UpToDate R s (.branch slots none) (K.root ++ q) := ⟨hslots, nofun⟩
      exact ⟨hslots, fun c hc => (hh c hc).trans (hraw.trans hplain.hash)⟩

theorem ShowsSlot.upToDate {K : Kind α} (hK : K.Holds P R) {s : Store} (hL : K.LoneUpToDate P R s)
    (slot : RamSlot) {p q : List Nibble} {t : Tree 16 α}
    (h : ShowsSlot K q (mapLeavesIn (fetch s) slot p) t) (hP : RecordsAre P s (leafSlotsIn slot p)) :
    UpToDateSlot R s slot (K.root ++ q) := by
  match slot with
  | .none => trivial
  | .ram sub =>
    rw [mapLeavesIn] at h
    cases h with
    | ram hc ht h => exact Shows.upToDate hK hL sub h hP
  | .disk ptr root =>
    change ShowsSlot K q (.mem (s.payload ptr) root) t at h
    cases h with
    | mem h => exact hK h (hP _ List.mem_cons_self _ rfl)
  | .mem bytes root =>
    change ShowsSlot K q (.mem bytes root) t at h
    cases h with
    | mem h => exact hK h (hP _ List.mem_cons_self _ rfl)
  | .account path nonce balance codeHash storage =>
    rw [mapLeavesIn] at h
    cases h with
    | account hp ha h => exact hL h hP

end

theorem upToDate_of_shows (hstate : stateKind.Holds P R) (hstorage : ∀ account, (storageKind account).Holds P R)
    {s : Store} {n : RamNode} {t : Tree 16 StateLeaf} (h : Shows stateKind [] (loaded s n) t)
    (hP : RecordsAre P s (leafSlots n [])) : UpToDate R s n [] := by
  refine Shows.upToDate hstate ?_ n h hP
  rintro full p nonce b c storage a ⟨account, st, rfl, -, -, hshows⟩ hP
  have h := Shows.upToDate (hstorage account) (fun hl => hl.elim) storage hshows hP
  rwa [List.append_nil] at h

/-- Read whole, every record holds. -/
theorem Kind.Rebuilds.whole {K : Kind α} (hK : K.Rebuilds) : K.Holds (fun _ => True) wholeSpec := by
  intro q t bytes root h _
  exact ⟨toNode K.form t, h.read, rebuild_toNode hK t, h.root_eq⟩

/-- The leaves of a kind fit the lazy format. -/
def Kind.FitsLazily (K : Kind α) : Prop :=
  ∀ p a, p.length ≤ 64 → K.fits a → Lazy.nodeSize (Lazy.ofNode (K.form.node p a)) < 2 ^ 32 →
    Lazy.Fits (Lazy.ofNode (K.form.node p a))

/-- Read lazily, every record holds whose children the length table can hold. -/
theorem Kind.Rebuilds.lazily {K : Kind α} (hK : K.Rebuilds) (hF : K.FitsLazily) :
    K.Holds (fun bytes => bytes.length < 2 ^ 32) Lazy.recordSpec := by
  intro q t bytes root h hshort
  have hfit : Lazy.Fits (Lazy.ofNode (toNode K.form t)) := by
    refine Lazy.fits_toNode K.form K.fits hF h.canon (Nat.sub_le _ _) h.fit ?_
    obtain ⟨p, hp, hbytes⟩ := bind_ok h.bytes_eq
    obtain ⟨w, hw, hbytes⟩ := bind_ok hbytes
    cases hbytes
    rw [← Lazy.writeNode_ofNode] at hw
    rw [← Lazy.writeNode_length _ w hw]
    rw [List.length_append] at hshort
    omega
  have hpfx : (K.root ++ q).length ≤ 128 := by
    have := h.length
    rw [List.length_append]
    rcases K.root_length with hroot | hroot
    · rw [hroot, List.length_nil]
      omega
    · omega
  obtain ⟨l, hread, hlazily, hhash⟩ := Lazy.lazy_of_record hpfx hfit h.bytes_eq
  refine ⟨l, hread, hlazily.genuine (rebuild_toNode hK t) hfit, ?_⟩
  rw [hhash]
  exact h.root_eq

theorem fitsLazily_storage (account : Key) : (storageKind account).FitsLazily :=
  fun _ _ hp ha _ => Lazy.fits_valueLeaf hp ha

theorem fitsLazily_state : stateKind.FitsLazily := fun _ _ => Lazy.fits_stateLeaf

end

section
variable [Keccak] {env : Env} {σ : Sys} {n : RamNode} {ramMode direct : Bool} {faults : List Bool}

/-- A record of a view on disk is short. -/
theorem view_short (hrun : RegularRun env (.create ramMode direct faults) σ) (hn : σ.View n)
    {p : List Nibble} {ptr : DiskPtr} {root : Hash} (h : (p, .disk ptr root) ∈ leafSlots n []) :
    (σ.store.payload ptr).length < 2 ^ 32 := by
  obtain ⟨W, g, pay, hstore, hvisible⟩ := view_visible hrun hn
  have hx := hvisible _ (leafRecs_mem h)
  have hstored := hstore.visible hx
  have hsmall := hstored.small
  rw [hstored.len] at hsmall
  rw [(hstore.payload hx).1]
  unfold MAX_RECORD_BYTES REGION_BYTES REGION_PAGES PAGE RECORD_HDR at hsmall
  omega

/-- A view whose caches are up to date has a clean audit. -/
theorem audit_of_upToDate {look : RecordAudit} {R : RecordSpec} (hlook : look.Finds R) {s : Store}
    (h : UpToDate R s n []) : ∃ st, audit look s n = .ok st ∧ st.clean ∧ st.trueRoot = hashRam n := by
  obtain ⟨htotal, hfound⟩ := audit_run hlook s n
  obtain ⟨st, hst⟩ := htotal h
  obtain ⟨hroot, hclean⟩ := hfound st hst
  exact ⟨st, hst, hclean.mpr h, hroot.trans h.hash.symm⟩

/-- **The audit of a view is clean.**  In a regular run, live or on a snapshot, the audit succeeds,
finds no mismatch and reports the root of the view; read lazily where no record in RAM is too long
for an entry of the length table. -/
theorem audit_clean (hrun : RegularRun env (.create ramMode direct faults) σ) (hn : σ.View n) :
    (∃ st, audit wholeAudit σ.store n = .ok st ∧ st.clean ∧ st.trueRoot = hashRam n) ∧
      ((∀ p bytes root, (p, .mem bytes root) ∈ leafSlots n [] → bytes.length < 2 ^ 32) →
        ∃ st, audit lazyAudit σ.store n = .ok st ∧ st.clean ∧ st.trueRoot = hashRam n) := by
  obtain ⟨⟨t, ht⟩, -⟩ := view_shown hrun hn
  refine ⟨audit_of_upToDate wholeAudit_finds ?_, fun hmem => audit_of_upToDate Lazy.lazyAudit_finds ?_⟩
  · exact upToDate_of_shows rebuilds_state.whole (fun account => (rebuilds_storage account).whole) ht
      fun _ _ _ _ => trivial
  · refine upToDate_of_shows (rebuilds_state.lazily fitsLazily_state)
      (fun account => (rebuilds_storage account).lazily (fitsLazily_storage account)) ht ?_
    rintro ⟨p, slot⟩ he bytes hbytes
    cases slot with
    | disk ptr root =>
      cases hbytes
      exact view_short hrun hn he
    | mem bytes' root =>
      cases hbytes
      exact hmem p bytes root he
    | _ => cases hbytes

end

/-- Three accounts in RAM, read either way. -/
theorem audit_clean_three :
    ∃ (_ : Keccak) (env : Env) (σ : Sys), RegularRun env (.create true false []) σ ∧
      leafSlots σ.db.upper [] ≠ [] ∧
      (∃ st, audit wholeAudit σ.store σ.db.upper = .ok st ∧ st.clean ∧ st.trueRoot = hashRam σ.db.upper) ∧
      ∃ st, audit lazyAudit σ.store σ.db.upper = .ok st ∧ st.clean ∧ st.trueRoot = hashRam σ.db.upper := by
  let _ : Keccak := flatHash
  obtain ⟨-, -, hserves⟩ := small_audits
  obtain ⟨σ, hσ, hkeeps⟩ := (Option.any_eq_true _ _).mp hserves
  obtain ⟨hrun, hidle, -⟩ := (Served.of_serves hσ).created (by decide) (by decide)
  obtain ⟨hwhole, hlazy⟩ := audit_clean hrun (.inl ⟨hidle, rfl⟩)
  unfold Sys.keepsShort at hkeeps
  obtain ⟨hshort, hsome⟩ := (Bool.and_eq_true _ _).mp hkeeps
  refine ⟨_, staleEnv, σ, hrun, ?_, hwhole, hlazy fun p bytes root h => ?_⟩
  · simpa using hsome
  · exact of_decide_eq_true (List.all_eq_true.mp hshort _ h)

end FlatMpt
