import Mathlib.Data.List.Basic
import Mathlib.Logic.Function.Basic
import Mathlib.Data.List.FinRange

/-!
# Path-compressed radix trees

Trees over digit strings `List (Fin r)`: a leaf holds the rest of its key, an
extension a shared stretch, a branch one child per digit.  `get` is lookup, and
`Canon n t` says that `t` is the compressed tree of a map on keys of length `n`:
extensions are non-empty and lead to branches, branches have two children.

    Canon.ext_get   -- canonical trees with the same lookups are equal
    get_prepend, Canon.prepend     -- a stretch in front of a tree
    get_collapse, Canon.collapse   -- a branch brought back to canonical form
    get_fork_leaf, Canon.fork      -- two keys parting ways
    get_build, Canon.eq_build      -- the tree of a map, and back
    get_put                        -- one key set or cleared
-/

namespace Radix

/-- Length of the longest common prefix. -/
def commonPrefix {ι : Type} [DecidableEq ι] : List ι → List ι → Nat
  | a :: as, b :: bs => if a = b then commonPrefix as bs + 1 else 0
  | _, _ => 0

/-- Two strings split at their common prefix. -/
theorem commonPrefix_spec {ι : Type} [DecidableEq ι] (p k : List ι) :
    ∃ c p' k', p = c ++ p' ∧ k = c ++ k' ∧ commonPrefix p k = c.length ∧
      ∀ i s j u, p' = i :: s → k' = j :: u → i ≠ j := by
  induction p generalizing k with
  | nil => exact ⟨[], [], k, rfl, rfl, by cases k <;> rfl, by simp⟩
  | cons a p ih =>
    cases k with
    | nil => exact ⟨[], a :: p, [], rfl, rfl, rfl, by simp⟩
    | cons b k =>
      by_cases hab : a = b
      · subst hab
        obtain ⟨c, p', k', rfl, rfl, hc, hne⟩ := ih k
        exact ⟨a :: c, p', k', rfl, rfl, by simp [commonPrefix, hc], hne⟩
      · refine ⟨[], a :: p, b :: k, rfl, rfl, by simp [commonPrefix, hab], ?_⟩
        intro i s j u hi hj
        obtain ⟨rfl, rfl⟩ := List.cons.inj hi
        obtain ⟨rfl, rfl⟩ := List.cons.inj hj
        exact hab

/-- A radix tree over digits `Fin r`. -/
inductive Tree (r : Nat) (α : Type) where
  | empty
  | leaf (path : List (Fin r)) (value : α)
  | ext (path : List (Fin r)) (child : Tree r α)
  | branch (children : Fin r → Tree r α)

variable {r : Nat} {α : Type}

namespace Tree

/-- The value at a key, relative to the tree's position. -/
def get : Tree r α → List (Fin r) → Option α
  | empty, _ => none
  | leaf path a, k => if path = k then some a else none
  | ext path child, k => if k.take path.length = path then child.get (k.drop path.length) else none
  | branch _, [] => none
  | branch children, i :: k => (children i).get k

inductive IsBranch : Tree r α → Prop
  | intro (children : Fin r → Tree r α) : IsBranch (branch children)

/-- At least two children. -/
def TwoChildren (children : Fin r → Tree r α) : Prop :=
  ∃ i j, i ≠ j ∧ children i ≠ empty ∧ children j ≠ empty

/-- The canonical tree of a map on keys of length `n`. -/
inductive Canon : Nat → Tree r α → Prop
  | empty {n : Nat} : Canon n empty
  | leaf {n : Nat} {path : List (Fin r)} {a : α} (hp : path.length = n) : Canon n (leaf path a)
  | ext {n m : Nat} {path : List (Fin r)} {child : Tree r α} (hp : path ≠ [])
      (hn : n = path.length + m) (hb : IsBranch child) (hc : Canon m child) :
      Canon n (ext path child)
  | branch {n m : Nat} {children : Fin r → Tree r α} (hn : n = m + 1)
      (hc : ∀ i, Canon m (children i)) (h2 : TwoChildren children) : Canon n (branch children)

/-! ## Lookup -/

@[simp] theorem get_empty (k : List (Fin r)) : (empty : Tree r α).get k = none := rfl

theorem get_leaf (p k : List (Fin r)) (a : α) :
    (leaf p a).get k = if k = p then some a else none := by
  simp only [get, eq_comm]

@[simp] theorem get_branch_cons (cs : Fin r → Tree r α) (i : Fin r) (k : List (Fin r)) :
    (branch cs).get (i :: k) = (cs i).get k := rfl

@[simp] theorem get_branch_nil (cs : Fin r → Tree r α) : (branch cs).get [] = none := rfl

@[simp] theorem get_ext_append (p k : List (Fin r)) (c : Tree r α) :
    (ext p c).get (p ++ k) = c.get k := by
  simp [get]

theorem get_ext_eq_some {p k : List (Fin r)} {c : Tree r α} {a : α}
    (h : (ext p c).get k = some a) : ∃ k', k = p ++ k' ∧ c.get k' = some a := by
  simp only [get] at h
  split at h
  next hp => exact ⟨k.drop p.length, by conv_lhs => rw [← List.take_append_drop p.length k, hp], h⟩
  next => cases h

theorem Canon.get_length {n : Nat} {t : Tree r α} (h : Canon n t) {k : List (Fin r)} {a : α}
    (hg : t.get k = some a) : k.length = n := by
  induction h generalizing k with
  | empty => cases hg
  | leaf hp =>
    rw [get_leaf] at hg
    split at hg
    next hk => rw [hk, hp]
    next => cases hg
  | ext hp hn hb hc ih =>
    obtain ⟨k', rfl, hk'⟩ := get_ext_eq_some hg
    rw [List.length_append, ih hk', hn]
  | branch hn hc h2 ih =>
    cases k with
    | nil => cases hg
    | cons i k => rw [List.length_cons, ih i hg, hn]

theorem Canon.get_eq_none {n : Nat} {t : Tree r α} (h : Canon n t) {k : List (Fin r)}
    (hk : k.length ≠ n) : t.get k = none := by
  cases hg : t.get k with
  | none => rfl
  | some a => exact absurd (h.get_length hg) hk

/-- A canonical tree that is not empty holds a key. -/
theorem Canon.exists_get {n : Nat} {t : Tree r α} (h : Canon n t) (ht : t ≠ .empty) :
    ∃ k a, t.get k = some a := by
  induction h with
  | empty => exact absurd rfl ht
  | @leaf n p a hp => exact ⟨p, a, by rw [get_leaf, if_pos rfl]⟩
  | @ext n m p c hp hn hb hc ih =>
    obtain ⟨cs⟩ := hb
    obtain ⟨k, a, hk⟩ := ih (by simp)
    exact ⟨p ++ k, a, by rw [get_ext_append, hk]⟩
  | branch hn hc h2 ih =>
    obtain ⟨i, j, -, hi, -⟩ := h2
    obtain ⟨k, a, hk⟩ := ih i hi
    exact ⟨i :: k, a, hk⟩

theorem Canon.eq_empty_of_get {n : Nat} {t : Tree r α} (h : Canon n t)
    (hg : ∀ k, t.get k = none) : t = .empty := by
  by_contra ht
  obtain ⟨k, a, hk⟩ := h.exists_get ht
  rw [hg k] at hk
  cases hk

/-! ## Uniqueness -/

/-- Every branch parts two keys at its first digit. -/
theorem Canon.branch_parts {n : Nat} {cs : Fin r → Tree r α} (h : Canon n (.branch cs)) :
    ∃ i j k l a b, i ≠ j ∧ (Tree.branch cs).get (i :: k) = some a ∧
      (Tree.branch cs).get (j :: l) = some b := by
  cases h with
  | branch hn hc h2 =>
    obtain ⟨i, j, hij, hi, hj⟩ := h2
    obtain ⟨k, a, hk⟩ := (hc i).exists_get hi
    obtain ⟨l, b, hl⟩ := (hc j).exists_get hj
    exact ⟨i, j, k, l, a, b, hij, hk, hl⟩

/-- Two keys with different first digits make a canonical tree a branch. -/
theorem Canon.isBranch_of_parts {n : Nat} {t : Tree r α} (h : Canon n t) {i j : Fin r}
    {k l : List (Fin r)} {a b : α} (hij : i ≠ j) (hk : t.get (i :: k) = some a)
    (hl : t.get (j :: l) = some b) : IsBranch t := by
  cases h with
  | empty => cases hk
  | @leaf _ p c hp =>
    rw [get_leaf] at hk hl
    split at hk
    next h1 =>
      split at hl
      next h2 => exact absurd (List.cons.inj (h1.trans h2.symm)).1 hij
      next => cases hl
    next => cases hk
  | @ext _ m p c hp hn hb hc =>
    obtain ⟨k', hk', -⟩ := get_ext_eq_some hk
    obtain ⟨l', hl', -⟩ := get_ext_eq_some hl
    cases p with
    | nil => exact absurd rfl hp
    | cons d p => exact absurd ((List.cons.inj hk').1.trans (List.cons.inj hl').1.symm) hij
  | branch hn hc h2 => exact ⟨_⟩

theorem append_cons_prefix {ι : Type} {p q k l k' l' : List ι} {i j : ι} (hij : i ≠ j)
    (h1 : p ++ i :: k = q ++ k') (h2 : p ++ j :: l = q ++ l') : ∃ s, p = q ++ s := by
  induction q generalizing p with
  | nil => exact ⟨p, rfl⟩
  | cons d q ih =>
    cases p with
    | nil =>
      obtain ⟨rfl, -⟩ := List.cons.inj h1
      obtain ⟨rfl, -⟩ := List.cons.inj h2
      exact absurd rfl hij
    | cons e p =>
      rw [List.cons_append, List.cons_append] at h1 h2
      obtain ⟨rfl, h1'⟩ := List.cons.inj h1
      obtain ⟨-, h2'⟩ := List.cons.inj h2
      obtain ⟨s, rfl⟩ := ih h1' h2'
      exact ⟨s, rfl⟩

/-- A stretch before a branch is determined by the keys. -/
theorem ext_prefix_of_get {n m : Nat} {p q : List (Fin r)} {cs : Fin r → Tree r α} {d : Tree r α}
    (hc : Canon n (.branch cs)) (hget : ∀ k, (ext p (.branch cs)).get k = (ext q d).get k)
    (_hd : Canon m d) : ∃ s, p = q ++ s := by
  obtain ⟨i, j, k, l, a, b, hij, hk, hl⟩ := hc.branch_parts
  have h1 := (hget (p ++ i :: k)).symm.trans ((get_ext_append ..).trans hk)
  have h2 := (hget (p ++ j :: l)).symm.trans ((get_ext_append ..).trans hl)
  obtain ⟨k', hk', -⟩ := get_ext_eq_some h1
  obtain ⟨l', hl', -⟩ := get_ext_eq_some h2
  exact append_cons_prefix hij hk' hl'

theorem not_branch_eq_ext {n m : Nat} {q : List (Fin r)} {cs : Fin r → Tree r α} {d : Tree r α}
    (hc : Canon n (.branch cs)) (hq : q ≠ []) (hd : Canon m d) :
    ¬ ∀ k, (branch cs).get k = (ext q d).get k := by
  intro hget
  have hnil : ∀ k, (ext [] (.branch cs)).get k = (ext q d).get k := fun k => by
    rw [← hget k]
    exact get_ext_append [] k _
  obtain ⟨s, hs⟩ := ext_prefix_of_get hc hnil hd
  cases q with
  | nil => exact hq rfl
  | cons _ _ => cases hs

theorem not_branch_eq_leaf {n : Nat} {q : List (Fin r)} {cs : Fin r → Tree r α} {b : α}
    (hc : Canon n (.branch cs)) : ¬ ∀ k, (branch cs).get k = (leaf q b).get k := by
  intro hget
  obtain ⟨i, j, k, l, a, b', hij, hk, hl⟩ := hc.branch_parts
  rw [hget, get_leaf] at hk hl
  split at hk
  next h1 =>
    split at hl
    next h2 =>
      obtain ⟨rfl, -⟩ := List.cons.inj (h1.trans h2.symm)
      exact hij rfl
    next => cases hl
  next => cases hk

theorem not_ext_eq_leaf {n : Nat} {p q : List (Fin r)} {c : Tree r α} {b : α}
    (hb : IsBranch c) (hc : Canon n c) : ¬ ∀ k, (ext p c).get k = (leaf q b).get k := by
  intro hget
  obtain ⟨cs⟩ := hb
  have hin : ∀ k, (branch cs).get k = if p ++ k = q then some b else none := fun k => by
    rw [← get_leaf, ← hget, get_ext_append]
  obtain ⟨i, j, k, l, a, b', hij, hk, hl⟩ := hc.branch_parts
  rw [hin] at hk hl
  split at hk
  next h1 =>
    split at hl
    next h2 =>
      obtain ⟨rfl, -⟩ := List.cons.inj (List.append_cancel_left (h1.trans h2.symm))
      exact hij rfl
    next => cases hl
  next => cases hk

/-- **Canonical trees are determined by their lookups.** -/
theorem Canon.ext_get {n : Nat} {t u : Tree r α} (ht : Canon n t) (hu : Canon n u)
    (hget : ∀ k, t.get k = u.get k) : t = u := by
  induction ht generalizing u with
  | empty => exact (hu.eq_empty_of_get fun k => (hget k).symm).symm
  | @leaf n p a hp =>
    cases hu with
    | empty => exact absurd (hget p) (by rw [get_leaf, if_pos rfl]; simp)
    | @leaf _ q b hq =>
      have h := hget p
      rw [get_leaf, if_pos rfl, get_leaf] at h
      split at h
      next hpq => rw [hpq, Option.some.inj h]
      next => cases h
    | ext hq hn hb hc => exact absurd (fun k => (hget k).symm) (not_ext_eq_leaf hb hc)
    | branch hn hc h2 =>
      exact absurd (fun k => (hget k).symm) (not_branch_eq_leaf (.branch hn hc h2))
  | @ext n m p c hp hn hb hc ih =>
    cases hu with
    | empty => exact absurd ((Canon.ext hp hn hb hc).eq_empty_of_get fun k => hget k) (by simp)
    | leaf hq => exact absurd hget (not_ext_eq_leaf hb hc)
    | @ext _ m' q d hq hn' hb' hd =>
      obtain ⟨cs⟩ := hb
      obtain ⟨ds⟩ := hb'
      obtain ⟨s, hs⟩ := ext_prefix_of_get hc hget hd
      obtain ⟨u, hu⟩ := ext_prefix_of_get hd (fun k => (hget k).symm) hc
      have hpq : p = q := by
        rw [hs, List.append_assoc] at hu
        have hsu := List.append_eq_nil_iff.1 (List.append_right_eq_self.1 hu.symm)
        rw [hs, hsu.1, List.append_nil]
      subst hpq
      have hmm : m' = m := by omega
      subst hmm
      rw [ih hd fun k => by rw [← get_ext_append p, hget, get_ext_append]]
    | branch hn' hc' h2 =>
      exact absurd (fun k => (hget k).symm) (not_branch_eq_ext (.branch hn' hc' h2) hp hc)
  | @branch n m cs hn hc h2 ih =>
    cases hu with
    | empty => exact absurd ((Canon.branch hn hc h2).eq_empty_of_get fun k => hget k) (by simp)
    | leaf hq => exact absurd hget (not_branch_eq_leaf (.branch hn hc h2))
    | ext hq hn' hb hd => exact absurd hget (not_branch_eq_ext (.branch hn hc h2) hq hd)
    | @branch _ m' ds hn' hc' h2' =>
      have hmm : m' = m := by omega
      subst hmm
      exact congrArg _ (funext fun i => ih i (hc' i) fun k => hget (i :: k))

/-! ## Stretches, collapse, forks -/

/-- A stretch in front of a tree, merged into its top path. -/
def prepend (p : List (Fin r)) : Tree r α → Tree r α
  | empty => empty
  | leaf q a => leaf (p ++ q) a
  | ext q c => ext (p ++ q) c
  | branch cs => if p = [] then branch cs else ext p (branch cs)

@[simp] theorem prepend_nil (t : Tree r α) : prepend [] t = t := by
  cases t <;> simp [prepend]

@[simp] theorem prepend_eq_empty {p : List (Fin r)} {t : Tree r α} :
    prepend p t = empty ↔ t = empty := by
  cases t with
  | branch cs =>
    simp only [prepend]
    split <;> simp
  | _ => simp [prepend]

theorem prepend_prepend (p q : List (Fin r)) (t : Tree r α) :
    prepend p (prepend q t) = prepend (p ++ q) t := by
  cases t with
  | branch cs =>
    cases q with
    | nil => simp
    | cons i q => simp [prepend]
  | _ => simp [prepend]

theorem get_prepend_append (p k : List (Fin r)) (t : Tree r α) :
    (prepend p t).get (p ++ k) = t.get k := by
  cases t with
  | empty => rfl
  | leaf q a => simp [prepend, get_leaf]
  | ext q c =>
    simp only [prepend, get, List.length_append, List.take_append, List.drop_append,
      Nat.add_sub_cancel_left]
    rw [List.take_of_length_le (by omega), List.drop_of_length_le (by omega)]
    simp
  | branch cs =>
    simp only [prepend]
    split
    next hp => rw [hp]; rfl
    next => rw [get_ext_append]

theorem get_prepend_eq_some {p k : List (Fin r)} {t : Tree r α} {a : α}
    (h : (prepend p t).get k = some a) : ∃ k', k = p ++ k' ∧ t.get k' = some a := by
  cases t with
  | empty => cases h
  | leaf q b =>
    rw [prepend, get_leaf] at h
    split at h
    next hk => exact ⟨q, hk, by rw [get_leaf, if_pos rfl, h]⟩
    next => cases h
  | ext q c =>
    obtain ⟨k', rfl, hk'⟩ := get_ext_eq_some h
    exact ⟨q ++ k', by simp, by rw [get_ext_append, hk']⟩
  | branch cs =>
    rw [prepend] at h
    split at h
    next hp => exact ⟨k, by simp [hp], h⟩
    next => exact get_ext_eq_some h

theorem get_prepend_of_off {p k : List (Fin r)} {t : Tree r α} (h : ∀ k', k ≠ p ++ k') :
    (prepend p t).get k = none := by
  cases hg : (prepend p t).get k with
  | none => rfl
  | some a =>
    obtain ⟨k', hk, -⟩ := get_prepend_eq_some hg
    exact absurd hk (h k')

theorem Canon.prepend {n m : Nat} {t : Tree r α} (p : List (Fin r)) (h : Canon m t)
    (hn : n = p.length + m) : Canon n (prepend p t) := by
  cases h with
  | empty => exact .empty
  | leaf hq => exact .leaf (by rw [List.length_append, hq, hn])
  | ext hq hm hb hc => exact .ext (by simp [hq]) (by rw [List.length_append, hn, hm]; omega) hb hc
  | branch hm hc h2 =>
    simp only [Tree.prepend]
    split
    next hp => exact .branch (by rw [hn, hp, hm]; simp) hc h2
    next hp => exact .ext hp hn ⟨_⟩ (.branch hm hc h2)

/-- An extension's path can be handed to its child's parent. -/
theorem prepend_ext_child {n : Nat} {p : List (Fin r)} {c : Tree r α} (h : Canon n (.ext p c)) :
    prepend p c = .ext p c := by
  cases h with
  | ext hp hn hb hc =>
    obtain ⟨cs⟩ := hb
    simp [prepend, hp]

def isEmpty : Tree r α → Bool
  | empty => true
  | _ => false

@[simp] theorem isEmpty_iff {t : Tree r α} : t.isEmpty = true ↔ t = empty := by
  cases t <;> simp [isEmpty]

/-- A branch in canonical form: gone without children, merged into a single
child. -/
def collapse (children : Fin r → Tree r α) : Tree r α :=
  match (List.finRange r).filter fun i => !(children i).isEmpty with
  | [] => empty
  | [j] => prepend [j] (children j)
  | _ => branch children

theorem collapse_cases (cs : Fin r → Tree r α) :
    (collapse cs = empty ∧ ∀ i, cs i = empty) ∨
    (∃ j, collapse cs = prepend [j] (cs j) ∧ cs j ≠ empty ∧ ∀ i, i ≠ j → cs i = empty) ∨
    (collapse cs = branch cs ∧ TwoChildren cs) := by
  have hmem : ∀ i, i ∈ (List.finRange r).filter (fun i => !(cs i).isEmpty) ↔ cs i ≠ empty := by
    intro i
    simp [List.mem_filter, ← isEmpty_iff]
  have hnd : ((List.finRange r).filter fun i => !(cs i).isEmpty).Nodup :=
    (List.nodup_finRange r).filter _
  unfold collapse
  cases hl : (List.finRange r).filter (fun i => !(cs i).isEmpty) with
  | nil =>
    left
    refine ⟨rfl, fun i => ?_⟩
    by_contra hi
    have h := (hmem i).2 hi
    rw [hl] at h
    cases h
  | cons j l =>
    cases l with
    | nil =>
      right; left
      refine ⟨j, rfl, (hmem j).1 (by rw [hl]; simp), fun i hij => ?_⟩
      by_contra hi
      have h := (hmem i).2 hi
      rw [hl] at h
      exact hij (List.mem_singleton.1 h)
    | cons k l =>
      right; right
      rw [hl] at hnd
      refine ⟨rfl, j, k, ?_, (hmem j).1 (by rw [hl]; simp), (hmem k).1 (by rw [hl]; simp)⟩
      rintro rfl
      simp at hnd

theorem get_collapse (cs : Fin r → Tree r α) (k : List (Fin r)) :
    (collapse cs).get k = (branch cs).get k := by
  rcases collapse_cases cs with ⟨h, hall⟩ | ⟨j, h, -, hall⟩ | ⟨h, -⟩
  · rw [h]
    cases k with
    | nil => rfl
    | cons i k => rw [get_branch_cons, hall i]; rfl
  · rw [h]
    cases k with
    | nil => exact get_prepend_of_off (by simp)
    | cons i k =>
      rw [get_branch_cons]
      by_cases hij : i = j
      · subst hij
        exact get_prepend_append [i] k _
      · rw [hall i hij, get_prepend_of_off]
        · rfl
        · rintro k' hk
          exact hij (List.cons.inj hk).1
  · rw [h]

theorem Canon.collapse {n m : Nat} {cs : Fin r → Tree r α} (h : ∀ i, Canon m (cs i))
    (hn : n = m + 1) : Canon n (collapse cs) := by
  rcases collapse_cases cs with ⟨he, -⟩ | ⟨j, he, -, -⟩ | ⟨he, h2⟩
  · rw [he]; exact .empty
  · rw [he]; exact (h j).prepend [j] (by simp; omega)
  · rw [he]; exact .branch hn h h2

/-- Two children at digits `i` and `j`, nothing else. -/
def pair (i : Fin r) (t : Tree r α) (j : Fin r) (u : Tree r α) : Fin r → Tree r α :=
  Function.update (Function.update (fun _ => empty) i t) j u

theorem twoChildren_pair {i j : Fin r} {t u : Tree r α} (hij : i ≠ j) (ht : t ≠ empty)
    (hu : u ≠ empty) : TwoChildren (pair i t j u) := by
  refine ⟨i, j, hij, ?_, ?_⟩
  · rw [pair, Function.update_of_ne hij, Function.update_self]
    exact ht
  · rw [pair, Function.update_self]
    exact hu

theorem canon_pair {m : Nat} {i j : Fin r} {t u : Tree r α} (ht : Canon m t) (hu : Canon m u)
    (l : Fin r) : Canon m (pair i t j u l) := by
  unfold pair
  by_cases hlj : l = j
  · rw [hlj, Function.update_self]; exact hu
  · rw [Function.update_of_ne hlj]
    by_cases hli : l = i
    · rw [hli, Function.update_self]; exact ht
    · rw [Function.update_of_ne hli]; exact .empty

/-- A tree below the stretch `c ++ i :: p` and another below `c ++ [j]`, parting
after `c`. -/
def fork (c : List (Fin r)) (i : Fin r) (p : List (Fin r)) (t : Tree r α) (j : Fin r)
    (u : Tree r α) : Tree r α :=
  prepend c (branch (pair i (prepend p t) j u))

theorem get_fork_new (c p q : List (Fin r)) (i j : Fin r) (t u : Tree r α) :
    (fork c i p t j u).get (c ++ j :: q) = u.get q := by
  rw [fork, get_prepend_append, get_branch_cons, pair, Function.update_self]

theorem get_fork_old {c p q : List (Fin r)} {i j : Fin r} {t u : Tree r α}
    (hq : ∀ q', q ≠ c ++ j :: q') :
    (fork c i p t j u).get q = (prepend (c ++ i :: p) t).get q := by
  by_cases hc : ∃ q', q = c ++ q'
  · obtain ⟨q', rfl⟩ := hc
    rw [fork, get_prepend_append, ← prepend_prepend, get_prepend_append]
    cases q' with
    | nil => rw [get_prepend_of_off (by simp)]; rfl
    | cons l q' =>
      have hlj : l ≠ j := by
        rintro rfl
        exact hq q' rfl
      rw [get_branch_cons, pair, Function.update_of_ne hlj]
      by_cases hli : l = i
      · subst hli
        rw [Function.update_self, show l :: p = [l] ++ p from rfl, ← prepend_prepend]
        exact (get_prepend_append [l] q' _).symm
      · rw [Function.update_of_ne hli, get_prepend_of_off]
        · rfl
        · rintro k' hk
          exact hli (List.cons.inj hk).1
  · rw [fork, get_prepend_of_off fun k' hk => hc ⟨k', hk⟩, get_prepend_of_off]
    rintro k' rfl
    exact hc ⟨i :: (p ++ k'), by simp⟩

/-- A new key parting from a tree's stretch is added, nothing else changes. -/
theorem get_fork_leaf {c p k : List (Fin r)} {i j : Fin r} {t : Tree r α} {b : α} (hij : i ≠ j)
    (q : List (Fin r)) :
    (fork c i p t j (leaf k b)).get q =
      if q = c ++ j :: k then some b else (prepend (c ++ i :: p) t).get q := by
  by_cases hq : ∃ q', q = c ++ j :: q'
  · obtain ⟨q', rfl⟩ := hq
    rw [get_fork_new, get_leaf]
    have hnone : (prepend (c ++ i :: p) t).get (c ++ j :: q') = none := by
      apply get_prepend_of_off
      rintro k' hk
      rw [List.append_assoc, List.append_cancel_left_eq] at hk
      exact hij (List.cons.inj hk).1.symm
    rw [hnone]
    simp
  · rw [get_fork_old fun q' h => hq ⟨q', h⟩, if_neg]
    rintro rfl
    exact hq ⟨k, rfl⟩

theorem Canon.fork {n m m' : Nat} {c p : List (Fin r)} {i j : Fin r} {t u : Tree r α}
    (ht : Canon m t) (hu : Canon m' u) (hij : i ≠ j) (ht0 : t ≠ .empty) (hu0 : u ≠ .empty)
    (hm : m' = p.length + m) (hn : n = c.length + (m' + 1)) : Canon n (fork c i p t j u) := by
  refine Canon.prepend c (.branch rfl (canon_pair (ht.prepend p hm) hu) ?_) hn
  exact twoChildren_pair hij (by simpa using ht0) hu0

/-! ## Updating one child -/

theorem get_branch_update (cs : Fin r → Tree r α) (i : Fin r) (t : Tree r α) {v : Option α}
    {k : List (Fin r)} (ht : ∀ q, t.get q = if q = k then v else (cs i).get q)
    (q : List (Fin r)) :
    (branch (Function.update cs i t)).get q = if q = i :: k then v else (branch cs).get q := by
  cases q with
  | nil => simp
  | cons l q =>
    rw [get_branch_cons, get_branch_cons]
    by_cases hli : l = i
    · subst hli
      rw [Function.update_self, ht q]
      simp
    · rw [Function.update_of_ne hli, if_neg]
      simp [hli]

theorem canon_update {n : Nat} {cs : Fin r → Tree r α} (h : ∀ i, Canon n (cs i)) (i : Fin r)
    {t : Tree r α} (ht : Canon n t) (l : Fin r) : Canon n (Function.update cs i t l) := by
  by_cases hl : l = i
  · rw [hl, Function.update_self]; exact ht
  · rw [Function.update_of_ne hl]; exact h l

theorem twoChildren_update {cs : Fin r → Tree r α} (h : TwoChildren cs) (i : Fin r) {t : Tree r α}
    (ht : t ≠ empty) : TwoChildren (Function.update cs i t) := by
  obtain ⟨a, b, hab, ha, hb⟩ := h
  refine ⟨a, b, hab, ?_, ?_⟩
  · by_cases hai : a = i
    · rw [hai, Function.update_self]; exact ht
    · rwa [Function.update_of_ne hai]
  · by_cases hbi : b = i
    · rw [hbi, Function.update_self]; exact ht
    · rwa [Function.update_of_ne hbi]

/-- The tree is not empty when it holds a key. -/
theorem ne_empty_of_get {t : Tree r α} {k : List (Fin r)} {a : α} (h : t.get k = some a) :
    t ≠ empty := by
  rintro rfl
  cases h

/-! ## The tree of a map -/

/-- The canonical tree of a map on keys of length `n`. -/
def build : Nat → (List (Fin r) → Option α) → Tree r α
  | 0, f =>
    match f [] with
    | none => empty
    | some a => leaf [] a
  | n + 1, f => collapse fun i => build n fun k => f (i :: k)

theorem canon_build (n : Nat) (f : List (Fin r) → Option α) : Canon n (build n f) := by
  induction n generalizing f with
  | zero =>
    unfold build
    cases f [] with
    | none => exact .empty
    | some a => exact .leaf rfl
  | succ n ih => exact Canon.collapse (fun i => ih _) rfl

theorem get_build {n : Nat} {f : List (Fin r) → Option α} {k : List (Fin r)} (hk : k.length = n) :
    (build n f).get k = f k := by
  induction n generalizing f k with
  | zero =>
    obtain rfl := List.eq_nil_of_length_eq_zero hk
    unfold build
    cases f [] with
    | none => rfl
    | some a => rfl
  | succ n ih =>
    cases k with
    | nil => cases hk
    | cons i k =>
      rw [build, get_collapse, get_branch_cons]
      exact ih (by simpa using hk)

theorem Canon.eq_build {n : Nat} {t : Tree r α} (h : Canon n t) {f : List (Fin r) → Option α}
    (hf : ∀ k, k.length = n → t.get k = f k) : t = build n f := by
  refine h.ext_get (canon_build n f) fun k => ?_
  by_cases hk : k.length = n
  · rw [get_build hk, hf k hk]
  · rw [h.get_eq_none hk, (canon_build n f).get_eq_none hk]

/-- The tree with key `k` set to `v` (`none` clears it). -/
def put (n : Nat) (t : Tree r α) (k : List (Fin r)) (v : Option α) : Tree r α :=
  build n fun q => if q = k then v else t.get q

theorem canon_put (n : Nat) (t : Tree r α) (k : List (Fin r)) (v : Option α) :
    Canon n (t.put n k v) := canon_build _ _

theorem get_put {n : Nat} {t : Tree r α} (ht : Canon n t) {k : List (Fin r)} (hk : k.length = n)
    (v : Option α) (q : List (Fin r)) :
    (t.put n k v).get q = if q = k then v else t.get q := by
  by_cases hq : q.length = n
  · exact get_build hq
  · rw [(canon_put n t k v).get_eq_none hq, if_neg, ht.get_eq_none hq]
    rintro rfl
    exact hq hk

theorem Canon.eq_put {n : Nat} {t t' : Tree r α} (ht' : Canon n t') {k : List (Fin r)}
    {v : Option α} (hget : ∀ q, t'.get q = if q = k then v else t.get q) : t' = t.put n k v :=
  ht'.eq_build fun q _ => hget q

theorem Canon.put_self {n : Nat} {t : Tree r α} (ht : Canon n t) {k : List (Fin r)} {v : Option α}
    (h : t.get k = v) : t.put n k v = t :=
  (ht.eq_put fun q => by split <;> simp_all).symm

attribute [irreducible] put

end Tree

end Radix
