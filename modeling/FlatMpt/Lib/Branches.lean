import FlatMpt.Lib.Seek

/-!
# Branches of a radix tree

`branches` lists the positions at which a tree branches, a position before those below it,
each with its children.  In a canonical tree these are the positions at which keys part.

    strip               -- the entries below a position
    sorted_branches
    strip_branches      -- the entries below a child of a branch
    partAt_of_branch, exists_branch_of_partAt    -- where keys part
-/

namespace Radix

variable {r : Nat} {α : Type}

/-- The entries below a position, without its path. -/
def strip (p : List (Fin r)) (l : List (List (Fin r) × α)) : List (List (Fin r) × α) :=
  l.filterMap fun e => if p.isPrefixOf e.1 then some (e.1.drop p.length, e.2) else none

theorem mem_strip {p k : List (Fin r)} {a : α} {l : List (List (Fin r) × α)} :
    (k, a) ∈ strip p l ↔ (p ++ k, a) ∈ l := by
  unfold strip
  rw [List.mem_filterMap]
  constructor
  · rintro ⟨⟨k', b⟩, he, hk⟩
    by_cases hp : p.isPrefixOf k' = true
    · rw [if_pos hp] at hk
      obtain ⟨rest, rfl⟩ := List.isPrefixOf_iff_prefix.mp hp
      rw [List.drop_left] at hk
      cases hk
      exact he
    · rw [if_neg hp] at hk
      cases hk
  · intro he
    refine ⟨_, he, ?_⟩
    rw [if_pos (List.isPrefixOf_iff_prefix.mpr (List.prefix_append p k)), List.drop_left]

theorem strip_append (p q : List (Fin r)) (l : List (List (Fin r) × α)) :
    strip (p ++ q) l = strip q (strip p l) := by
  unfold strip
  rw [List.filterMap_filterMap]
  refine List.filterMap_congr fun e _ => ?_
  by_cases hp : p.isPrefixOf e.1 = true
  · obtain ⟨rest, hrest⟩ := List.isPrefixOf_iff_prefix.mp hp
    rw [if_pos hp, Option.bind_some, ← hrest, List.drop_left, List.length_append, ← List.drop_drop,
      List.drop_left]
    have hiff : (p ++ q).isPrefixOf (p ++ rest) = q.isPrefixOf rest := by
      rw [Bool.eq_iff_iff, List.isPrefixOf_iff_prefix, List.isPrefixOf_iff_prefix,
        List.prefix_append_right_inj]
    rw [hiff]
  · have hpq : ¬(p ++ q).isPrefixOf e.1 = true := fun h => hp
      (List.isPrefixOf_iff_prefix.mpr ((List.prefix_append p q).trans (List.isPrefixOf_iff_prefix.mp h)))
    rw [if_neg hp, if_neg hpq]
    rfl

theorem strip_prefixed (p : List (Fin r)) (l : List (List (Fin r) × α)) :
    strip p (l.map (prefixed p)) = l := by
  unfold strip
  rw [List.filterMap_map]
  refine (List.filterMap_congr fun e _ => ?_).trans List.filterMap_some
  unfold prefixed
  dsimp only [Function.comp_apply]
  rw [if_pos (List.isPrefixOf_iff_prefix.mpr (List.prefix_append p e.1)), List.drop_left]

theorem strip_prefixed_ne {i j : Fin r} (h : i ≠ j) (l : List (List (Fin r) × α)) :
    strip [i] (l.map (prefixed [j])) = [] := by
  rw [List.eq_nil_iff_forall_not_mem]
  rintro ⟨k, a⟩ hm
  obtain ⟨e, -, he⟩ := List.mem_map.mp (mem_strip.mp hm)
  cases he
  exact h rfl

/-- Keys that have the path in common and part behind it. -/
def PartAt (l : List (List (Fin r) × α)) (p : List (Fin r)) : Prop :=
  ∃ i j, i ≠ j ∧ strip (p ++ [i]) l ≠ [] ∧ strip (p ++ [j]) l ≠ []

theorem strip_ne_nil {p : List (Fin r)} {i : Fin r} {l : List (List (Fin r) × α)} :
    strip (p ++ [i]) l ≠ [] ↔ ∃ k a, (p ++ i :: k, a) ∈ l := by
  constructor
  · intro h
    obtain ⟨⟨k, a⟩, hm⟩ := List.exists_mem_of_ne_nil _ h
    have hmem := mem_strip.mp hm
    rw [List.append_assoc] at hmem
    exact ⟨k, a, hmem⟩
  · rintro ⟨k, a, hm⟩
    refine List.ne_nil_of_mem (a := (k, a)) (mem_strip.mpr ?_)
    rwa [List.append_assoc]

namespace Tree

theorem strip_branch (cs : Fin r → Tree r α) (i : Fin r) :
    strip [i] (branch cs).toList = (cs i).toList := by
  have hpart (is : List (Fin r)) (hnodup : is.Nodup) :
      strip [i] (is.flatMap fun j => (cs j).toList.map (prefixed [j])) =
        if i ∈ is then (cs i).toList else [] := by
    induction is with
    | nil => rfl
    | cons j is ih =>
      obtain ⟨hj, hnodup⟩ := List.nodup_cons.mp hnodup
      have hsplit : strip [i] ((j :: is).flatMap fun j => (cs j).toList.map (prefixed [j])) =
          strip [i] ((cs j).toList.map (prefixed [j])) ++
            strip [i] (is.flatMap fun j => (cs j).toList.map (prefixed [j])) := by
        unfold strip
        rw [List.flatMap_cons, List.filterMap_append]
      rw [hsplit, ih hnodup]
      by_cases hij : i = j
      · subst hij
        rw [strip_prefixed, if_neg hj, List.append_nil, if_pos List.mem_cons_self]
      · rw [strip_prefixed_ne hij, List.nil_append]
        simp only [List.mem_cons, hij, false_or]
  rw [toList, hpart _ (List.nodup_finRange r), if_pos (List.mem_finRange i)]

/-- The positions of the branches with their children, in order. -/
def branches : Tree r α → List (List (Fin r) × (Fin r → Tree r α))
  | empty => []
  | leaf _ _ => []
  | ext path child => child.branches.map (prefixed path)
  | branch children =>
    ([], children) :: (List.finRange r).flatMap fun i => (children i).branches.map (prefixed [i])

theorem sorted_branches (t : Tree r α) : Sorted t.branches := by
  induction t with
  | empty => exact .nil
  | leaf path a => exact .nil
  | ext path child ih => exact ih.map_prefixed path
  | branch children ih =>
    refine .cons (fun x hx => ?_) (List.pairwise_flatMap.mpr ⟨fun i _ => (ih i).map_prefixed [i], ?_⟩)
    · obtain ⟨i, -, hi⟩ := List.mem_flatMap.mp hx
      obtain ⟨y, -, rfl⟩ := List.mem_map.mp hi
      rfl
    · refine (List.pairwise_lt_finRange r).imp fun {i j} hlt x hx y hy => ?_
      obtain ⟨x', -, rfl⟩ := List.mem_map.mp hx
      obtain ⟨y', -, rfl⟩ := List.mem_map.mp hy
      exact compare_of_lt hlt _ _

variable {t : Tree r α} {p : List (Fin r)} {cs : Fin r → Tree r α}

theorem mem_branches_ext {path : List (Fin r)} :
    (p, cs) ∈ (ext path t).branches ↔ ∃ q, p = path ++ q ∧ (q, cs) ∈ t.branches := by
  rw [branches, List.mem_map]
  constructor
  · rintro ⟨⟨q, ds⟩, hm, he⟩
    cases he
    exact ⟨q, rfl, hm⟩
  · rintro ⟨q, rfl, hm⟩
    exact ⟨(q, cs), hm, rfl⟩

theorem mem_branches_branch {ts : Fin r → Tree r α} : (p, cs) ∈ (branch ts).branches ↔
    (p = [] ∧ cs = ts) ∨ ∃ i q, p = i :: q ∧ (q, cs) ∈ (ts i).branches := by
  rw [branches, List.mem_cons, Prod.mk.injEq, List.mem_flatMap]
  refine or_congr_right ⟨?_, ?_⟩
  · rintro ⟨i, -, hi⟩
    obtain ⟨⟨q, ds⟩, hm, he⟩ := List.mem_map.mp hi
    cases he
    exact ⟨i, q, rfl, hm⟩
  · rintro ⟨i, q, rfl, hm⟩
    exact ⟨i, List.mem_finRange i, List.mem_map.mpr ⟨(q, cs), hm, rfl⟩⟩

/-- What lies below a child of a branch. -/
theorem strip_branches (h : (p, cs) ∈ t.branches) (i : Fin r) :
    strip (p ++ [i]) t.toList = (cs i).toList := by
  induction t generalizing p with
  | empty => cases h
  | leaf path a => cases h
  | ext path child ih =>
    obtain ⟨q, rfl, hq⟩ := mem_branches_ext.mp h
    rw [toList, List.append_assoc, strip_append, strip_prefixed]
    exact ih hq
  | branch ts ih =>
    rcases mem_branches_branch.mp h with ⟨rfl, rfl⟩ | ⟨j, q, rfl, hq⟩
    · exact strip_branch cs i
    · rw [List.cons_append, ← List.singleton_append, strip_append, strip_branch]
      exact ih j hq

theorem canon_branches {n : Nat} (hc : Canon n t) (h : (p, cs) ∈ t.branches) :
    ∃ m, Canon m (branch cs) := by
  induction hc generalizing p with
  | empty => cases h
  | leaf hp => cases h
  | ext hp hn hb hc ih =>
    obtain ⟨q, -, hq⟩ := mem_branches_ext.mp h
    exact ih hq
  | branch hn hc h2 ih =>
    rcases mem_branches_branch.mp h with ⟨-, rfl⟩ | ⟨j, q, -, hq⟩
    · exact ⟨_, .branch hn hc h2⟩
    · exact ih j hq

/-- A branch with two children parts its keys. -/
theorem partAt_of_branch {n : Nat} (hc : Canon n (branch cs)) (h : (p, cs) ∈ t.branches) :
    PartAt t.toList p := by
  obtain ⟨i, j, k, l, a, b, hij, hi, hj⟩ := hc.branch_parts
  refine ⟨i, j, hij, ?_, ?_⟩
  · rw [strip_branches h]
    exact List.ne_nil_of_mem (mem_toList.mpr hi)
  · rw [strip_branches h]
    exact List.ne_nil_of_mem (mem_toList.mpr hj)

/-- Where keys part there is a branch. -/
theorem exists_branch_of_partAt (h : PartAt t.toList p) : ∃ cs, (p, cs) ∈ t.branches := by
  obtain ⟨i, j, hij, hi, hj⟩ := h
  obtain ⟨k, a, hk⟩ := strip_ne_nil.mp hi
  obtain ⟨l, b, hl⟩ := strip_ne_nil.mp hj
  rw [mem_toList] at hk hl
  clear hi hj
  induction t generalizing p with
  | empty => cases hk
  | leaf path c =>
    have hleaf {k : List (Fin r)} {b : α} (h : (leaf path c).get k = some b) : k = path := by
      rw [get] at h
      split at h
      next heq => exact heq.symm
      next => cases h
    cases List.append_cancel_left ((hleaf hk).trans (hleaf hl).symm)
    exact absurd rfl hij
  | ext path child ih =>
    obtain ⟨k', hk', hgk⟩ := get_ext_eq_some hk
    obtain ⟨l', hl', hgl⟩ := get_ext_eq_some hl
    have hpath : ∃ q, p = path ++ q := by
      rcases List.append_eq_append_iff.mp hk' with ⟨m, rfl, hm⟩ | ⟨q, rfl, -⟩
      · cases m with
        | nil => exact ⟨[], by rw [List.append_nil, List.append_nil]⟩
        | cons x m =>
          obtain ⟨rfl, -⟩ := List.cons_eq_cons.mp hm
          rw [List.append_assoc] at hl'
          cases List.append_cancel_left hl'
          exact absurd rfl hij
      · exact ⟨q, rfl⟩
    obtain ⟨q, rfl⟩ := hpath
    rw [List.append_assoc, get_ext_append] at hk hl
    obtain ⟨cs, hcs⟩ := ih hk hl
    exact ⟨cs, mem_branches_ext.mpr ⟨q, rfl, hcs⟩⟩
  | branch ts ih =>
    cases p with
    | nil => exact ⟨ts, mem_branches_branch.mpr (.inl ⟨rfl, rfl⟩)⟩
    | cons m q =>
      obtain ⟨cs, hcs⟩ := ih m hk hl
      exact ⟨cs, mem_branches_branch.mpr (.inr ⟨m, q, rfl, hcs⟩)⟩

/-- A canonical tree branches below its root exactly where keys part. -/
theorem branches_ne_nil_iff {n : Nat} (h : Canon n t) : t.branches ≠ [] ↔ 2 ≤ t.toList.length := by
  have htwo {n : Nat} {ts : Fin r → Tree r α} (h : Canon n (branch ts)) :
      2 ≤ (branch ts).toList.length := by
    obtain ⟨i, j, k, l, a, b, hij, hi, hj⟩ := h.branch_parts
    by_contra hlt
    obtain ⟨e, he⟩ : ∃ e, (branch ts).toList = [e] := by
      refine List.length_eq_one_iff.mp ?_
      have := List.length_pos_of_mem (mem_toList.mpr hi)
      omega
    have hi := mem_toList.mpr hi
    have hj := mem_toList.mpr hj
    rw [he, List.mem_singleton] at hi hj
    cases hi.trans hj.symm
    exact hij rfl
  cases h with
  | empty => exact ⟨fun h => absurd rfl h, fun h => by cases h⟩
  | leaf hp => exact ⟨fun h => absurd rfl h, fun h => absurd h (by simp [toList])⟩
  | ext hp hn hb hc =>
    obtain ⟨ts⟩ := hb
    refine ⟨fun _ => ?_, fun _ => by simp [branches]⟩
    rw [toList, List.length_map]
    exact htwo hc
  | branch hn hc h2 => exact ⟨fun _ => htwo (.branch hn hc h2), fun _ => by simp [branches]⟩

end Tree

end Radix
