import FlatMpt.Record

/-!
# Record nodes as radix trees

`toNode L t` is the record node of a radix tree `t`, every cached reference
computed from the structure.  `L` says how a leaf is written.  The record
operations act on `toNode L t` as updates of the map `t.get`, and the structure
stays the canonical one:

    nodeInsert_toNode    -- sets the key's value
    nodeDelete_toNode    -- clears or changes it
-/

namespace FlatMpt

open Radix (Tree commonPrefix)
open Radix.Tree (Canon)

section
variable [Keccak]

/-- How leaves of a tree with values in `α` are written as nodes. -/
structure LeafForm (α : Type) where
  node : List Nibble → α → Node
  leaf_or_account : ∀ p a, (∃ v nref, node p a = .leaf p v nref) ∨
    ∃ n b c s sr nref, node p a = .account p n b c s sr nref
  rehome_node : ∀ p a q, rehome (node p a) q = .ok (node q a)

/-- A child slot: absent for the empty tree. -/
def asChild : Node → Option Node
  | .empty => none
  | n => some n

/-- The record node of a tree. -/
def toNode {α : Type} (L : LeafForm α) : Tree 16 α → Node
  | .empty => .empty
  | .leaf p a => L.node p a
  | .ext p c => makeExtension p (toNode L c)
  | .branch cs => makeBranch fun i => asChild (toNode L (cs i))

/-! ## Shape of `toNode` -/

variable {α : Type} (L : LeafForm α)

@[simp] theorem toNode_empty : toNode L .empty = .empty := rfl

theorem toNode_ne_empty {t : Tree 16 α} (h : t ≠ .empty) : toNode L t ≠ .empty := by
  cases t with
  | empty => exact absurd rfl h
  | leaf p a =>
    rcases L.leaf_or_account p a with ⟨v, n, hm⟩ | ⟨n, b, c, s, sr, nr, hm⟩ <;>
      simp [toNode, hm]
  | ext p c => simp [toNode, makeExtension]
  | branch cs => simp [toNode, makeBranch]

theorem asChild_toNode {t : Tree 16 α} (h : t ≠ .empty) :
    asChild (toNode L t) = some (toNode L t) := by
  have hne := toNode_ne_empty L h
  cases hn : toNode L t with
  | empty => exact absurd hn hne
  | _ => rfl

theorem asChild_toNode_isSome (t : Tree 16 α) : (asChild (toNode L t)).isSome = !t.isEmpty := by
  by_cases h : t = .empty
  · subst h; rfl
  · rw [asChild_toNode L h]
    cases t <;> first | rfl | exact absurd rfl h

theorem asChild_update (cs : Nibble → Tree 16 α) (i : Nibble) (t : Tree 16 α) :
    Function.update (fun j => asChild (toNode L (cs j))) i (asChild (toNode L t)) =
      fun j => asChild (toNode L (Function.update cs i t j)) := by
  funext j
  by_cases hj : j = i
  · subst hj; simp
  · simp [Function.update_of_ne hj]

theorem makeBranch_update (cs : Nibble → Tree 16 α) (i : Nibble) {t : Tree 16 α} (h : t ≠ .empty) :
    makeBranch (Function.update (fun j => asChild (toNode L (cs j))) i (some (toNode L t))) =
      toNode L (.branch (Function.update cs i t)) := by
  rw [← asChild_toNode L h, asChild_update]
  rfl

/-- The split written by an insertion is the tree fork. -/
theorem makeBranch_twoChildren {i j : Nibble} {t u : Tree 16 α} (ht : t ≠ .empty) (hu : u ≠ .empty) :
    makeBranch (twoChildren i (toNode L t) j (toNode L u)) =
      toNode L (.branch (Tree.pair i t j u)) := by
  rw [twoChildren, ← asChild_toNode L ht, ← asChild_toNode L hu]
  have h0 : (fun _ => none : Nibble → Option Node) = fun j => asChild (toNode L .empty) := rfl
  rw [h0, asChild_update L (fun _ => .empty), asChild_update]
  rfl

theorem underPath_toNode (c : List Nibble) (cs : Nibble → Tree 16 α) :
    underPath c (toNode L (.branch cs)) = toNode L (Tree.prepend c (.branch cs)) := by
  unfold underPath
  cases c with
  | nil => rfl
  | cons i c => rfl

/-! ## Insertion -/

/-- `t'` is `t` with key `k` set to `b`. -/
def Sets (n : Nat) (t : Tree 16 α) (k : List Nibble) (b : α) (t' : Tree 16 α) : Prop :=
  Canon n t' ∧ ∀ q, t'.get q = if q = k then some b else t.get q

omit [Keccak] in
theorem Sets.ne_empty {n : Nat} {t t' : Tree 16 α} {k : List Nibble} {b : α}
    (h : Sets n t k b t') : t' ≠ .empty :=
  Tree.ne_empty_of_get (k := k) (a := b) (by rw [h.2, if_pos rfl])

omit [Keccak] in
/-- A branch stays a branch when a key is set. -/
theorem Sets.isBranch {n : Nat} {t t' : Tree 16 α} {k : List Nibble} {b : α}
    (h : Sets n t k b t') (ht : Canon n t) (hb : Tree.IsBranch t) : Tree.IsBranch t' := by
  have hkeep : ∀ q a, t.get q = some a → ∃ a', t'.get q = some a' := by
    intro q a hq
    rw [h.2]
    split
    · exact ⟨b, rfl⟩
    · exact ⟨a, hq⟩
  obtain ⟨cs⟩ := hb
  obtain ⟨i, j, k, l, a, c, hij, hk, hl⟩ := ht.branch_parts
  obtain ⟨a', ha'⟩ := hkeep _ _ hk
  obtain ⟨c', hc'⟩ := hkeep _ _ hl
  exact h.1.isBranch_of_parts hij ha' hc'

omit [Keccak] in
/-- Setting a key below a stretch. -/
theorem Sets.ext {n m : Nat} {t t' : Tree 16 α} {p k : List Nibble} {b : α} (h : Sets m t k b t')
    (hn : n = p.length + m) (hp : p ≠ []) (ht : Canon m t) (hb : Tree.IsBranch t) :
    Sets n (.ext p t) (p ++ k) b (.ext p t') := by
  refine ⟨.ext hp hn (h.isBranch ht hb) h.1, fun q => ?_⟩
  by_cases hq : ∃ q', q = p ++ q'
  · obtain ⟨q', rfl⟩ := hq
    rw [Tree.get_ext_append, Tree.get_ext_append, h.2]
    simp
  · have hne : ∀ u : Tree 16 α, (Tree.ext p u).get q = none := by
      intro u
      cases hg : (Tree.ext p u).get q with
      | none => rfl
      | some a =>
        obtain ⟨q', hq', -⟩ := Tree.get_ext_eq_some hg
        exact absurd ⟨q', hq'⟩ hq
    rw [hne, hne, if_neg]
    rintro rfl
    exact hq ⟨k, rfl⟩

theorem nodeInsert_leaf (place : List Nibble → Except Err Node)
    (apply : Node → List Nibble → Except Err Node) (p k : List Nibble) (a : α) :
    nodeInsert place apply (L.node p a) k = insertAtLeaf place apply (L.node p a) p k := by
  rcases L.leaf_or_account p a with ⟨v, n, hm⟩ | ⟨n, b, c, s, sr, nr, hm⟩ <;>
    rw [hm, nodeInsert]

theorem nodeInsert_sets {n : Nat} {t : Tree 16 α} (ht : Canon n t) {k : List Nibble}
    (hk : k.length = n) (place : List Nibble → Except Err Node)
    (apply : Node → List Nibble → Except Err Node) (g : Option α → Except Err α)
    (hplace : ∀ p, place p = (g none).map (L.node p))
    (happly : ∀ p a, apply (L.node p a) p = (g (some a)).map (L.node p)) :
    (∀ b, g (t.get k) = .ok b →
      ∃ t', nodeInsert place apply (toNode L t) k = .ok (toNode L t') ∧ Sets n t k b t') ∧
    ∀ e, g (t.get k) = .error e → nodeInsert place apply (toNode L t) k = .error e := by
  induction ht generalizing k with
  | empty =>
    have hp : nodeInsert place apply .empty k = (g none).map (L.node k) := by
      rw [nodeInsert, hplace]
    constructor
    · intro b hb
      refine ⟨.leaf k b, ?_, .leaf hk, fun q => Tree.get_leaf k q b⟩
      rw [toNode_empty, hp, show g none = .ok b from hb]
      rfl
    · intro e he
      rw [toNode_empty, hp, show g none = .error e from he]
      rfl
  | @leaf n p a hp =>
    rw [toNode, nodeInsert_leaf]
    obtain ⟨c, p', k', rfl, rfl, hc, hne⟩ := Radix.commonPrefix_spec p k
    have hlen : p'.length = k'.length := by simp at hp hk; omega
    unfold insertAtLeaf
    rw [hc]
    cases p' with
    | nil =>
      obtain rfl := List.eq_nil_of_length_eq_zero (by simpa using hlen.symm)
      simp only [List.append_nil, Tree.get_leaf, if_true, happly]
      constructor
      · intro b hb
        refine ⟨.leaf c b, by rw [hb]; rfl, .leaf (by simpa using hk), fun q => ?_⟩
        rw [Tree.get_leaf, Tree.get_leaf]
        split <;> rfl
      · intro e he
        rw [he]
        rfl
    | cons i p' =>
      cases k' with
      | nil => simp at hlen
      | cons j k' =>
        have hij : i ≠ j := hne i p' j k' rfl rfl
        have hget : (Tree.leaf (c ++ i :: p') a).get (c ++ j :: k') = none := by
          rw [Tree.get_leaf, if_neg]
          intro h
          rw [List.append_cancel_left_eq] at h
          exact hij (List.cons.inj h).1.symm
        rw [if_neg (by simp), hget]
        simp only [List.drop_left, L.rehome_node, List.take_left, hplace]
        constructor
        · intro b hb
          refine ⟨Tree.fork c i p' (.leaf [] a) j (.leaf k' b), ?_, ?_, fun q => ?_⟩
          · rw [hb]
            show Except.ok _ = _
            rw [show L.node p' a = toNode L (.leaf p' a) from rfl,
              show L.node k' b = toNode L (.leaf k' b) from rfl,
              makeBranch_twoChildren L (by simp) (by simp), underPath_toNode]
            simp [Tree.fork, Tree.prepend]
          · simp only [List.length_append, List.length_cons] at hk hlen
            exact Canon.fork (m := 0) (.leaf rfl) (.leaf rfl) hij (by simp) (by simp)
              (by omega) (by omega)
          · rw [Tree.get_fork_leaf hij]
            simp [Tree.prepend]
        · intro e he
          rw [he]
          rfl
  | @ext n m p c hp hn hb hc ih =>
    have hc0 : c ≠ .empty := by cases hb; simp
    rw [toNode, makeExtension, nodeInsert]
    obtain ⟨s, p', k', rfl, rfl, hs, hne⟩ := Radix.commonPrefix_spec p k
    rw [hs]
    cases p' with
    | nil =>
      simp only [List.append_nil] at hn ⊢
      have hk' : k'.length = m := by simp at hk; omega
      obtain ⟨h1, h2⟩ := ih hk'
      simp only [if_true, List.drop_left, Tree.get_ext_append]
      constructor
      · intro b hb'
        obtain ⟨t', ht', hset⟩ := h1 b hb'
        refine ⟨.ext s t', ?_, hset.ext hn (by simpa using hp) hc hb⟩
        rw [ht']
        rfl
      · intro e he
        rw [h2 e he]
        rfl
    | cons i p' =>
      cases k' with
      | nil => simp at hk hn; omega
      | cons j k' =>
        have hij : i ≠ j := hne i p' j k' rfl rfl
        have hext : Tree.prepend (s ++ i :: p') c = .ext (s ++ i :: p') c :=
          Tree.prepend_ext_child (.ext hp hn hb hc)
        have hget : (Tree.ext (s ++ i :: p') c).get (s ++ j :: k') = none := by
          rw [← hext]
          apply Tree.get_prepend_of_off
          intro q hq
          rw [List.append_assoc, List.append_cancel_left_eq] at hq
          exact hij (List.cons.inj hq).1.symm
        have hrest : (if p' = [] then toNode L c else makeExtension p' (toNode L c)) =
            toNode L (Tree.prepend p' c) := by
          obtain ⟨cs⟩ := hb
          simp only [Tree.prepend]
          split <;> rfl
        rw [if_neg (by simp), hget]
        simp only [List.drop_left, List.take_left, hplace, hrest]
        constructor
        · intro b hb'
          refine ⟨Tree.fork s i p' c j (.leaf k' b), ?_, ?_, fun q => ?_⟩
          · rw [hb']
            show Except.ok _ = _
            rw [show L.node k' b = toNode L (.leaf k' b) from rfl,
              makeBranch_twoChildren L (by simpa using hc0) (by simp), underPath_toNode]
            rfl
          · simp only [List.length_append, List.length_cons] at hk hn
            exact Canon.fork hc (.leaf rfl) hij hc0 (by simp) (by omega) (by omega)
          · rw [Tree.get_fork_leaf hij, hext]
        · intro e he
          rw [he]
          rfl
  | @branch n m cs hn hc h2 ih =>
    cases k with
    | nil => simp at hk; omega
    | cons i k =>
      simp only [List.length_cons] at hk
      have hki : k.length = m := by omega
      have hslot : nodeInsertSlot place apply (asChild (toNode L (cs i))) k =
          nodeInsert place apply (toNode L (cs i)) k := by
        by_cases h : cs i = .empty
        · rw [h, toNode_empty, nodeInsert]
          rfl
        · rw [asChild_toNode L h, nodeInsertSlot]
      have hins : nodeInsert place apply (toNode L (.branch cs)) (i :: k) = (do
          let child ← nodeInsert place apply (toNode L (cs i)) k
          return makeBranch (Function.update (fun j => asChild (toNode L (cs j))) i (some child))) := by
        rw [toNode, makeBranch, nodeInsert, hslot]
      obtain ⟨h1, h2'⟩ := ih i hki
      rw [hins, Tree.get_branch_cons]
      constructor
      · intro b hb
        obtain ⟨t', ht', hs⟩ := h1 b hb
        refine ⟨.branch (Function.update cs i t'), ?_, ?_, Tree.get_branch_update cs i t' hs.2⟩
        · rw [ht']
          show Except.ok _ = _
          rw [makeBranch_update L cs i hs.ne_empty]
        · exact .branch hn (Tree.canon_update hc i hs.1) (Tree.twoChildren_update h2 i hs.ne_empty)
      · intro e he
        rw [h2' e he]
        rfl

/-- **Insertion sets the key.**  `g` gives the new leaf value from the old one. -/
theorem nodeInsert_toNode {n : Nat} {t : Tree 16 α} (ht : Canon n t) {k : List Nibble}
    (hk : k.length = n) (place : List Nibble → Except Err Node)
    (apply : Node → List Nibble → Except Err Node) (g : Option α → Except Err α)
    (hplace : ∀ p, place p = (g none).map (L.node p))
    (happly : ∀ p a, apply (L.node p a) p = (g (some a)).map (L.node p)) :
    nodeInsert place apply (toNode L t) k =
      (g (t.get k)).map fun b => toNode L (t.put n k (some b)) := by
  obtain ⟨h1, h2⟩ := nodeInsert_sets L ht hk place apply g hplace happly
  cases hg : g (t.get k) with
  | ok b =>
    obtain ⟨t', ht', hs⟩ := h1 b hg
    rw [ht', hs.1.eq_put hs.2]
    rfl
  | error e =>
    rw [h2 e hg]
    rfl

/-! ## Deletion -/

/-- What a delete does to a leaf's value. -/
inductive LeafDelete (α : Type)
  | absent
  | changed (a : α)
  | removed

/-- The value left by a delete of the leaf holding `a`. -/
def LeafDelete.result (a : α) : LeafDelete α → Option α
  | .absent => some a
  | .changed b => some b
  | .removed => none

/-- The same as the outcome on the leaf's node. -/
def LeafDelete.applied (p : List Nibble) (a : α) : LeafDelete α → Applied
  | .absent => .absent (L.node p a)
  | .changed b => .changed (L.node p b)
  | .removed => .removed

/-- What happened to a tree that was re-folded into `t`. -/
def refolded (t : Tree 16 α) : NodeDelete := if t.isEmpty then .removed else .changed

/-- The outcome of a delete that leaves the tree `t`. -/
def LeafDelete.outcome (t : Tree 16 α) : LeafDelete α → NodeDelete
  | .absent => .absent
  | _ => refolded t

/-- `t'` is `t` with the leaf `a` at `k` deleted by `d`, and `out` says what
happened. -/
structure Deletes (n : Nat) (t : Tree 16 α) (k : List Nibble) (a : α) (d : LeafDelete α)
    (t' : Tree 16 α) (out : NodeDelete) : Prop where
  canon : Canon n t'
  get : ∀ q, t'.get q = if q = k then d.result a else t.get q
  out_eq : out = d.outcome t'

theorem prependPath_toNode {t : Tree 16 α} (ht : t ≠ .empty) (p : List Nibble) :
    prependPath (toNode L t) p = .ok (toNode L (Tree.prepend p t)) := by
  unfold prependPath
  by_cases hp : p = []
  · subst hp; simp
  · rw [if_neg hp]
    cases t with
    | empty => exact absurd rfl ht
    | leaf q a =>
      have hre := L.rehome_node q a (p ++ q)
      rw [toNode, Tree.prepend, toNode]
      rcases L.leaf_or_account q a with ⟨v, n, hm⟩ | ⟨n, b, c, s, sr, nr, hm⟩ <;>
        (rw [hm] at hre ⊢; exact hre)
    | ext q c => rfl
    | branch cs => rw [Tree.prepend, if_neg hp]; rfl

theorem survivors_toNode (cs : Nibble → Tree 16 α) :
    survivors (fun j => asChild (toNode L (cs j))) =
      (List.finRange 16).filter fun i => !(cs i).isEmpty := by
  unfold survivors
  congr 1
  funext i
  rw [asChild_toNode_isSome]

/-- A branch whose child was removed re-folds to the collapsed tree. -/
theorem removeChild_toNode (cs : Nibble → Tree 16 α) :
    removeChild (fun j => asChild (toNode L (cs j))) =
      .ok (toNode L (Tree.collapse cs), refolded (Tree.collapse cs)) := by
  have hmem : ∀ j ∈ (List.finRange 16).filter (fun i => !(cs i).isEmpty), cs j ≠ .empty := by
    intro j hj h
    simp [h, Tree.isEmpty] at hj
  unfold removeChild Tree.collapse
  rw [survivors_toNode]
  cases hl : (List.finRange 16).filter (fun i => !(cs i).isEmpty) with
  | nil => rfl
  | cons j l =>
    cases l with
    | nil =>
      have hj : cs j ≠ .empty := hmem j (by rw [hl]; simp)
      have hp : (Tree.prepend [j] (cs j)).isEmpty = false := by
        rw [Bool.eq_false_iff, ne_eq, Tree.isEmpty_iff, Tree.prepend_eq_empty]
        exact hj
      simp only [asChild_toNode L hj, prependPath_toNode L hj, refolded, hp]
      rfl
    | cons i l => rfl

theorem nodeDelete_leaf (apply : Node → Except Err Applied) (p k : List Nibble) (a : α) :
    nodeDelete apply (L.node p a) k = deleteAtLeaf apply (L.node p a) p k := by
  rcases L.leaf_or_account p a with ⟨v, n, hm⟩ | ⟨n, b, c, s, sr, nr, hm⟩ <;>
    rw [hm, nodeDelete]

omit [Keccak] in
theorem refolded_prepend (p : List Nibble) (t : Tree 16 α) :
    refolded (Tree.prepend p t) = refolded t := by
  have h : (Tree.prepend p t).isEmpty = t.isEmpty := by
    rw [Bool.eq_iff_iff, Tree.isEmpty_iff, Tree.isEmpty_iff, Tree.prepend_eq_empty]
  rw [refolded, h]
  rfl

omit [Keccak] in
theorem refolded_of_ne {t : Tree 16 α} (h : t ≠ .empty) : refolded t = .changed := by
  rw [refolded, if_neg]
  rwa [Tree.isEmpty_iff]

omit [Keccak] in
/-- A delete below a stretch, the stretch merged into what is left. -/
theorem Deletes.prepend {n m : Nat} {t t' : Tree 16 α} {p k : List Nibble} {a : α}
    {d : LeafDelete α} {out : NodeDelete} (h : Deletes m t k a d t' out) (hn : n = p.length + m) :
    Deletes n (Tree.prepend p t) (p ++ k) a d (Tree.prepend p t') out where
  canon := h.canon.prepend p hn
  get q := by
    by_cases hq : ∃ q', q = p ++ q'
    · obtain ⟨q', rfl⟩ := hq
      rw [Tree.get_prepend_append, Tree.get_prepend_append, h.get]
      simp
    · rw [Tree.get_prepend_of_off fun q' hq' => hq ⟨q', hq'⟩,
        Tree.get_prepend_of_off fun q' hq' => hq ⟨q', hq'⟩, if_neg]
      rintro rfl
      exact hq ⟨k, rfl⟩
  out_eq := by
    rw [h.out_eq]
    cases d with
    | absent => rfl
    | _ => exact (refolded_prepend p t').symm

omit [Keccak] in
/-- A delete that leaves the leaf leaves the tree. -/
theorem Deletes.eq_of_absent {n : Nat} {t t' : Tree 16 α} {k : List Nibble} {a : α}
    {out : NodeDelete} (h : Deletes n t k a .absent t' out) (ht : Canon n t)
    (ha : t.get k = some a) : t' = t := by
  refine h.canon.ext_get ht fun q => ?_
  rw [h.get]
  split
  next hq => rw [hq, ha]; rfl
  next => rfl

theorem nodeDelete_deletes {n : Nat} {t : Tree 16 α} (ht : Canon n t) {k : List Nibble}
    (hk : k.length = n) (apply : Node → Except Err Applied) (f : α → Except Err (LeafDelete α))
    (happly : ∀ p a, apply (L.node p a) = (f a).map (LeafDelete.applied L p a)) :
    (t.get k = none → nodeDelete apply (toNode L t) k = .ok (toNode L t, .absent)) ∧
    (∀ a d, t.get k = some a → f a = .ok d →
      ∃ t' out, nodeDelete apply (toNode L t) k = .ok (toNode L t', out) ∧
        Deletes n t k a d t' out) ∧
    ∀ a e, t.get k = some a → f a = .error e → nodeDelete apply (toNode L t) k = .error e := by
  induction ht generalizing k with
  | empty => exact ⟨fun _ => by rw [toNode, nodeDelete], by simp, by simp⟩
  | @leaf n p a hp =>
    rw [toNode, nodeDelete_leaf, deleteAtLeaf, Tree.get_leaf]
    by_cases hpk : p = k
    · subst hpk
      simp only [if_true, happly]
      refine ⟨by simp, ?_, ?_⟩
      · rintro b d hb hd
        obtain rfl := Option.some.inj hb
        rw [hd]
        cases d with
        | absent =>
          refine ⟨.leaf p a, .absent, rfl, .leaf hp, fun q => ?_, rfl⟩
          rw [Tree.get_leaf]
          split <;> rfl
        | changed b =>
          refine ⟨.leaf p b, .changed, rfl, .leaf hp, fun q => ?_, rfl⟩
          rw [Tree.get_leaf, Tree.get_leaf]
          split <;> rfl
        | removed =>
          refine ⟨.empty, .removed, rfl, .empty, fun q => ?_, rfl⟩
          rw [Tree.get_leaf, Tree.get_empty]
          split <;> rfl
      · rintro b e hb he
        obtain rfl := Option.some.inj hb
        rw [he]
        rfl
    · rw [if_neg hpk, if_neg (Ne.symm hpk)]
      simp
  | @ext n m p c hp hn hb hc ih =>
    have hext : Tree.prepend p c = .ext p c := Tree.prepend_ext_child (.ext hp hn hb hc)
    rw [toNode, makeExtension, nodeDelete]
    by_cases hpre : ∃ k', k = p ++ k'
    · obtain ⟨k', rfl⟩ := hpre
      obtain ⟨h1, h2, h3⟩ := ih (k := k') (by simp at hk; omega)
      rw [if_pos (by simp), List.drop_left, Tree.get_ext_append]
      refine ⟨fun hnone => by rw [h1 hnone]; rfl, ?_, fun a e ha he => by rw [h3 a e ha he]; rfl⟩
      intro a d ha hd
      obtain ⟨c', out, hdel, hD⟩ := h2 a d ha hd
      have hD' := hD.prepend (p := p) hn
      rw [hext] at hD'
      refine ⟨Tree.prepend p c', out, ?_, hD'⟩
      rw [hdel, hD.out_eq]
      cases d with
      | absent =>
        rw [hD.eq_of_absent hc ha, hext]
        rfl
      | _ =>
        show Except.bind _ _ = _
        simp only [LeafDelete.outcome]
        by_cases hc' : c' = .empty
        · subst hc'; rfl
        · rw [refolded_of_ne hc']
          show Except.bind (prependPath (toNode L c') p) _ = _
          rw [prependPath_toNode L hc']
          rfl
    · have hnone : (Tree.ext p c).get k = none := by
        rw [← hext]
        exact Tree.get_prepend_of_off fun k' hk' => hpre ⟨k', hk'⟩
      have hnp : p.isPrefixOf k = false := by
        rw [Bool.eq_false_iff, ne_eq, List.isPrefixOf_iff_prefix]
        rintro ⟨k', hk'⟩
        exact hpre ⟨k', hk'.symm⟩
      rw [hnone, hnp]
      simp
  | @branch n m cs hn hc h2 ih =>
    cases k with
    | nil => simp at hk; omega
    | cons i k =>
      simp only [List.length_cons] at hk
      obtain ⟨h1, h2', h3⟩ := ih i (k := k) (by omega)
      rw [toNode, makeBranch, nodeDelete, Tree.get_branch_cons]
      have hsame : ∀ o, asChild (toNode L (cs i)) = o →
          Function.update (fun j => asChild (toNode L (cs j))) i o =
            fun j => asChild (toNode L (cs j)) := by
        rintro o rfl
        exact Function.update_eq_self _ _
      by_cases hi : cs i = .empty
      · rw [hi, toNode_empty]
        refine ⟨fun _ => ?_, by simp, by simp⟩
        show Except.ok (Node.branch (Function.update _ i none) _, NodeDelete.absent) = _
        rw [hsame none (by rw [hi]; rfl)]
      · rw [asChild_toNode L hi, nodeDeleteSlot]
        refine ⟨fun hnone => ?_, ?_, fun a e ha he => by rw [h3 a e ha he]; rfl⟩
        · rw [h1 hnone]
          show Except.ok (Node.branch (Function.update _ i _) _, NodeDelete.absent) = _
          rw [hsame _ (asChild_toNode L hi)]
        · intro a d ha hd
          obtain ⟨c', out, hdel, hD⟩ := h2' a d ha hd
          have hget : ∀ q, (Tree.branch (Function.update cs i c')).get q =
              if q = i :: k then d.result a else (Tree.branch cs).get q :=
            Tree.get_branch_update cs i c' hD.get
          have hcan : ∀ j, Canon m (Function.update cs i c' j) := Tree.canon_update hc i hD.canon
          rw [hdel, hD.out_eq]
          cases d with
          | absent =>
            have hc' := hD.eq_of_absent (hc i) ha
            refine ⟨.branch cs, .absent, ?_, .branch hn hc h2, fun q => ?_, rfl⟩
            · show Except.ok (Node.branch (Function.update _ i _) _, NodeDelete.absent) = _
              rw [hc', hsame _ (asChild_toNode L hi)]
              rfl
            · rw [← hget q, hc', Function.update_eq_self]
          | _ =>
            simp only [LeafDelete.outcome]
            by_cases hc' : c' = .empty
            · subst hc'
              refine ⟨Tree.collapse (Function.update cs i .empty), _, ?_, Canon.collapse hcan hn,
                fun q => by rw [Tree.get_collapse, hget], rfl⟩
              show removeChild (Function.update _ i none) = _
              have h0 : (none : Option Node) = asChild (toNode L .empty) := rfl
              rw [h0, asChild_update, removeChild_toNode]
              rfl
            · refine ⟨.branch (Function.update cs i c'), .changed, ?_,
                .branch hn hcan (Tree.twoChildren_update h2 i hc'), hget, rfl⟩
              rw [refolded_of_ne hc']
              show Except.ok (makeBranch (Function.update _ i _), NodeDelete.changed) = _
              rw [makeBranch_update L cs i hc']

/-- A delete on the tree: `f` is the delete at the leaf. -/
def deleteTree (n : Nat) (t : Tree 16 α) (k : List Nibble) (f : α → Except Err (LeafDelete α)) :
    Except Err (Tree 16 α × NodeDelete) :=
  match t.get k with
  | none => .ok (t, .absent)
  | some a => (f a).map fun d =>
      (t.put n k (d.result a), d.outcome (t.put n k (d.result a)))

/-- **Deletion clears or changes the key.** -/
theorem nodeDelete_toNode {n : Nat} {t : Tree 16 α} (ht : Canon n t) {k : List Nibble}
    (hk : k.length = n) (apply : Node → Except Err Applied) (f : α → Except Err (LeafDelete α))
    (happly : ∀ p a, apply (L.node p a) = (f a).map (LeafDelete.applied L p a)) :
    nodeDelete apply (toNode L t) k =
      (deleteTree n t k f).map fun r => (toNode L r.1, r.2) := by
  obtain ⟨h1, h2, h3⟩ := nodeDelete_deletes L ht hk apply f happly
  unfold deleteTree
  cases ha : t.get k with
  | none => exact h1 ha
  | some a =>
    cases hf : f a with
    | error e =>
      rw [h3 a e ha hf]
      simp only [hf]
      rfl
    | ok d =>
      obtain ⟨t', out, hdel, hD⟩ := h2 a d ha hf
      rw [hdel, hD.out_eq, hD.canon.eq_put hD.get]
      simp only [hf]
      rfl

end

end FlatMpt
