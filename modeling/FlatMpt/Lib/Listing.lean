import Mathlib.Data.List.Dedup
import Mathlib.Data.List.FinRange
import Std.Data.TreeMap
import FlatMpt.Lib.Radix

/-!
# Entries of a radix tree in order

`toList` lists the keys of a tree with their values in lexicographic order; a sorted
list with the same lookups is this list.

    mem_toList, sorted_toList
    eq_toList           -- from lookups
    ends_branch         -- first and last key of a branch part at once
    Alike               -- two trees of one shape
-/

namespace Radix

/-- A common stretch in front. -/
theorem commonPrefix_append_append {ι : Type} [DecidableEq ι] (p k l : List ι) :
    commonPrefix (p ++ k) (p ++ l) = p.length + commonPrefix k l := by
  induction p with
  | nil => exact (Nat.zero_add _).symm
  | cons a p ih =>
    rw [List.cons_append, List.cons_append, commonPrefix, if_pos rfl, ih, List.length_cons]
    omega

variable {r : Nat} {α : Type}

/-- Strictly increasing keys. -/
def Sorted (l : List (List (Fin r) × α)) : Prop := l.Pairwise fun a b => compare a.1 b.1 = .lt

/-- A stretch in front of a key. -/
def prefixed (p : List (Fin r)) (e : List (Fin r) × α) : List (Fin r) × α := (p ++ e.1, e.2)

theorem compare_append (p a b : List (Fin r)) : compare (p ++ a) (p ++ b) = compare a b := by
  induction p with
  | nil => rfl
  | cons i p ih =>
    rw [List.cons_append, List.cons_append, List.compare_cons_cons, Std.ReflOrd.compare_self, ih]
    rfl

theorem compare_of_lt {i j : Fin r} (h : i < j) (a b : List (Fin r)) :
    compare (i :: a) (j :: b) = .lt := by
  rw [List.compare_cons_cons, show compare i j = .lt from compare_lt_iff_lt.mpr h]
  rfl

/-- Smaller keys have no greater first digit. -/
theorem le_of_compare {i j : Fin r} {a b : List (Fin r)} (h : compare (i :: a) (j :: b) = .lt) :
    i ≤ j := by
  by_contra hlt
  have hgt := compare_of_lt (Fin.not_le.mp hlt) b a
  rw [(Std.OrientedCmp.eq_swap : compare (j :: b) (i :: a) = _), h] at hgt
  cases hgt

theorem Sorted.map_prefixed {l : List (List (Fin r) × α)} (h : Sorted l) (p : List (Fin r)) :
    Sorted (l.map (prefixed p)) := by
  refine List.pairwise_map.mpr (h.imp fun {a b} hlt => ?_)
  unfold prefixed
  dsimp only
  rw [compare_append]
  exact hlt

/-- A sorted list is determined by its members. -/
theorem Sorted.eq_of_mem {l m : List (List (Fin r) × α)} (hl : Sorted l) (hm : Sorted m)
    (h : ∀ e, e ∈ l ↔ e ∈ m) : l = m := by
  have hnodup : ∀ {l : List (List (Fin r) × α)}, Sorted l → l.Nodup := by
    intro l hs
    refine hs.imp fun {a b} hlt hab => ?_
    rw [hab, Std.ReflOrd.compare_self] at hlt
    cases hlt
  have hperm := (List.perm_ext_iff_of_nodup (hnodup hl) (hnodup hm)).mpr h
  refine hperm.eq_of_pairwise (fun a b _ _ hab hba => ?_) hl hm
  rw [(Std.OrientedCmp.eq_swap : compare b.1 a.1 = _), hab] at hba
  cases hba

namespace Tree

/-- Keys with their values, in order. -/
def toList : Tree r α → List (List (Fin r) × α)
  | empty => []
  | leaf path a => [(path, a)]
  | ext path child => child.toList.map (prefixed path)
  | branch children => (List.finRange r).flatMap fun i => (children i).toList.map (prefixed [i])

theorem mem_toList {t : Tree r α} {k : List (Fin r)} {a : α} :
    (k, a) ∈ t.toList ↔ t.get k = some a := by
  induction t generalizing k with
  | empty =>
    constructor
    · exact fun h => absurd h List.not_mem_nil
    · exact fun h => by cases h
  | leaf path b =>
    rw [toList, List.mem_singleton, get]
    constructor
    · intro h
      cases h
      exact if_pos rfl
    · intro h
      split at h
      · rename_i hp
        cases h
        rw [hp]
      · cases h
  | ext path child ih =>
    rw [toList, List.mem_map]
    constructor
    · rintro ⟨⟨k', b⟩, hm, he⟩
      cases he
      rw [get_ext_append]
      exact ih.mp hm
    · intro h
      obtain ⟨k', rfl, hk⟩ := get_ext_eq_some h
      exact ⟨(k', a), ih.mpr hk, rfl⟩
  | branch children ih =>
    rw [toList, List.mem_flatMap]
    constructor
    · rintro ⟨i, -, hi⟩
      obtain ⟨⟨k', b⟩, hm, he⟩ := List.mem_map.mp hi
      obtain ⟨rfl, rfl⟩ := Prod.ext_iff.mp he
      exact (ih i).mp hm
    · intro h
      cases k with
      | nil => cases h
      | cons i k =>
        exact ⟨i, List.mem_finRange i, List.mem_map.mpr ⟨(k, a), (ih i).mpr h, rfl⟩⟩

theorem sorted_toList (t : Tree r α) : Sorted t.toList := by
  induction t with
  | empty => exact .nil
  | leaf path a => exact List.pairwise_singleton _ _
  | ext path child ih => exact ih.map_prefixed path
  | branch children ih =>
    refine List.pairwise_flatMap.mpr ⟨fun i _ => (ih i).map_prefixed [i], ?_⟩
    refine (List.pairwise_lt_finRange r).imp fun {i j} hlt x hx y hy => ?_
    obtain ⟨x', -, rfl⟩ := List.mem_map.mp hx
    obtain ⟨y', -, rfl⟩ := List.mem_map.mp hy
    exact compare_of_lt hlt _ _

/-- A sorted list of a tree's entries. -/
theorem eq_toList {t : Tree r α} {l : List (List (Fin r) × α)} (hs : Sorted l)
    (h : ∀ k a, (k, a) ∈ l ↔ t.get k = some a) : l = t.toList :=
  hs.eq_of_mem (sorted_toList t) fun e => (h e.1 e.2).trans mem_toList.symm

theorem toList_ne_nil {n : Nat} {t : Tree r α} (h : Canon n t) (ht : t ≠ empty) : t.toList ≠ [] := by
  obtain ⟨k, a, hk⟩ := h.exists_get ht
  exact List.ne_nil_of_mem (mem_toList.mpr hk)

/-- The first and the last key of a branch differ in the first digit. -/
theorem ends_branch {n : Nat} {children : Fin r → Tree r α} (h : Canon n (branch children)) :
    ∃ i j k l a b, i ≠ j ∧ (branch children).toList.head? = some (i :: k, a) ∧
      (branch children).toList.getLast? = some (j :: l, b) := by
  obtain ⟨i, j, k, l, a, b, hij, hi, hj⟩ := h.branch_parts
  have hne : (branch children).toList ≠ [] := List.ne_nil_of_mem (mem_toList.mpr hi)
  have hcons : ∀ e ∈ (branch children).toList, ∃ i k, e.1 = i :: k := by
    intro e he
    cases hk : e.1 with
    | nil =>
      have hget : (branch children).get e.1 = some e.2 := mem_toList.mp he
      rw [hk] at hget
      cases hget
    | cons i k => exact ⟨i, k, rfl⟩
  obtain ⟨first, hfirst⟩ := Option.isSome_iff_exists.mp (List.isSome_head?.mpr hne)
  obtain ⟨last, hlast⟩ : ∃ last, (branch children).toList.getLast? = some last :=
    ⟨_, List.getLast?_eq_some_getLast hne⟩
  obtain ⟨f, fk, hf⟩ := hcons first (List.mem_of_mem_head? hfirst)
  obtain ⟨g, gk, hg⟩ := hcons last (List.mem_of_getLast? hlast)
  have hlow : ∀ e ∈ (branch children).toList, ∀ i k, e.1 = i :: k → f ≤ i := by
    intro e he i k hk
    cases hl : (branch children).toList with
    | nil => exact absurd hl hne
    | cons x xs =>
      have hs := sorted_toList (branch children)
      rw [hl] at hfirst he hs
      cases hfirst
      rcases List.mem_cons.mp he with rfl | he
      · rw [hf] at hk
        cases hk
        exact le_rfl
      · have hc := (List.pairwise_cons.mp hs).1 e he
        rw [hf, hk] at hc
        exact le_of_compare hc
  have hhigh : ∀ e ∈ (branch children).toList, ∀ i k, e.1 = i :: k → i ≤ g := by
    intro e he i k hk
    obtain ⟨xs, hl⟩ := List.getLast?_eq_some_iff.mp hlast
    have hs := sorted_toList (branch children)
    rw [hl] at he hs
    rcases List.mem_append.mp he with he | he
    · have hc := (List.pairwise_append.mp hs).2.2 e he last (List.mem_singleton_self _)
      rw [hg, hk] at hc
      exact le_of_compare hc
    · cases List.mem_singleton.mp he
      rw [hg] at hk
      cases hk
      exact le_rfl
  refine ⟨f, g, fk, gk, first.2, last.2, fun hfg => hij ?_, ?_, ?_⟩
  · have h1 := hlow _ (mem_toList.mpr hi) i k rfl
    have h2 := hhigh _ (mem_toList.mpr hi) i k rfl
    have h3 := hlow _ (mem_toList.mpr hj) j l rfl
    have h4 := hhigh _ (mem_toList.mpr hj) j l rfl
    rw [hfg] at h1 h3
    exact (le_antisymm h2 h1).trans (le_antisymm h3 h4)
  · rw [hfirst, ← hf]
  · rw [hlast, ← hg]

/-! ## Trees of one shape -/

/-- Two trees of one shape, with related leaves. -/
inductive Alike {β : Type} (R : α → β → Prop) : Tree r α → Tree r β → Prop
  | empty : Alike R empty empty
  | leaf (path : List (Fin r)) {a : α} {b : β} (h : R a b) : Alike R (leaf path a) (leaf path b)
  | ext (path : List (Fin r)) {t : Tree r α} {u : Tree r β} (h : Alike R t u) :
      Alike R (ext path t) (ext path u)
  | branch {ts : Fin r → Tree r α} {us : Fin r → Tree r β} (h : ∀ i, Alike R (ts i) (us i)) :
      Alike R (branch ts) (branch us)

variable {β : Type} {R : α → β → Prop} {t : Tree r α} {u : Tree r β}

theorem Alike.get (h : Alike R t u) (k : List (Fin r)) : Option.Rel R (t.get k) (u.get k) := by
  induction h generalizing k with
  | empty => exact .none
  | leaf path h =>
    rw [Tree.get, Tree.get]
    split
    · exact .some h
    · exact .none
  | ext path h ih =>
    rw [Tree.get, Tree.get]
    split
    · exact ih _
    · exact .none
  | branch h ih =>
    cases k with
    | nil => exact .none
    | cons i k => exact ih i k

theorem Alike.isEmpty (h : Alike R t u) : t.isEmpty = u.isEmpty := by
  cases h <;> rfl

theorem Alike.canon {n : Nat} (h : Alike R t u) (ht : Canon n t) : Canon n u := by
  induction h generalizing n with
  | empty => exact .empty
  | leaf path h =>
    cases ht with
    | leaf hp => exact .leaf hp
  | ext path h ih =>
    cases ht with
    | ext hp hn hb hc =>
      refine .ext hp hn ?_ (ih hc)
      cases hb
      cases h
      exact ⟨_⟩
  | @branch ts us h ih =>
    cases ht with
    | branch hn hc h2 =>
      obtain ⟨i, j, hij, hi, hj⟩ := h2
      have hne {l : Fin r} (hl : ts l ≠ Tree.empty) : us l ≠ Tree.empty := fun he =>
        hl (isEmpty_iff.mp (((h l).isEmpty).trans (isEmpty_iff.mpr he)))
      exact .branch hn (fun i => ih i (hc i)) ⟨i, j, hij, hne hi, hne hj⟩

/-- The entries are the same but for the leaves. -/
theorem Alike.toList (h : Alike R t u) :
    List.Forall₂ (fun a b => a.1 = b.1 ∧ R a.2 b.2) t.toList u.toList := by
  have hprefixed {l : List (List (Fin r) × α)} {m : List (List (Fin r) × β)} (p : List (Fin r))
      (h : List.Forall₂ (fun a b => a.1 = b.1 ∧ R a.2 b.2) l m) :
      List.Forall₂ (fun a b => a.1 = b.1 ∧ R a.2 b.2) (l.map (prefixed p)) (m.map (prefixed p)) := by
    rw [List.forall₂_map_left_iff, List.forall₂_map_right_iff]
    exact h.imp fun a b ⟨hk, hR⟩ => ⟨congrArg (p ++ ·) hk, hR⟩
  induction h with
  | empty => exact .nil
  | leaf path h => exact .cons ⟨rfl, h⟩ .nil
  | ext path h ih => exact hprefixed path ih
  | branch h ih =>
    rw [Tree.toList, Tree.toList]
    induction List.finRange r with
    | nil => exact .nil
    | cons i is ihis =>
      rw [List.flatMap_cons, List.flatMap_cons]
      exact List.rel_append (hprefixed [i] (ih i)) ihis

/-! ## Leaves mapped -/

def map (f : α → β) : Tree r α → Tree r β
  | empty => empty
  | leaf path a => leaf path (f a)
  | ext path child => ext path (child.map f)
  | branch children => branch fun i => (children i).map f

theorem alike_map (f : α → β) (t : Tree r α) : Alike (fun a b => b = f a) t (t.map f) := by
  induction t with
  | empty => exact .empty
  | leaf path a => exact .leaf path rfl
  | ext path child ih => exact .ext path ih
  | branch children ih => exact .branch ih

/-- Back from the leaves of a tree of this shape. -/
theorem Alike.map_eq {g : β → α} (h : Alike R t u) (hg : ∀ a b, R a b → g b = a) : u.map g = t := by
  induction h with
  | empty => rfl
  | leaf path h => exact congrArg (Tree.leaf path) (hg _ _ h)
  | ext path h ih => exact congrArg (Tree.ext path) ih
  | branch h ih => exact congrArg Tree.branch (funext ih)

@[simp] theorem isEmpty_map (f : α → β) (t : Tree r α) : (t.map f).isEmpty = t.isEmpty :=
  (alike_map f t).isEmpty.symm

theorem get_map (f : α → β) (t : Tree r α) (k : List (Fin r)) : (t.map f).get k = (t.get k).map f := by
  have h := (alike_map f t).get k
  generalize t.get k = o at h ⊢
  generalize (t.map f).get k = o' at h ⊢
  cases h with
  | none => rfl
  | some h => exact congrArg some h

theorem toList_map (f : α → β) (t : Tree r α) :
    (t.map f).toList = t.toList.map fun e => (e.1, f e.2) := by
  have h : List.Forall₂ (fun (a : List (Fin r) × α) b => (a.1, f a.2) = b) t.toList (t.map f).toList :=
    (alike_map f t).toList.imp fun a b hab => Prod.ext hab.1 hab.2.symm
  have hmap := List.forall₂_map_left_iff.mpr h
  rw [List.forall₂_eq_eq_eq] at hmap
  exact hmap.symm

theorem Canon.map {n : Nat} (h : Canon n t) (f : α → β) : Canon n (t.map f) := (alike_map f t).canon h

end Tree

end Radix
