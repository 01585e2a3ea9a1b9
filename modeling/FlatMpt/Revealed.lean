import FlatMpt.PathWalks

/-!
# Revealed paths

In a regular run the nodes revealed for some targets are those of the reference trie on
their paths, each once, and hold the values that the reads return.

    CanonBelow.oneNode    -- a position has one node
    get_of_leaf, exists_leaf
    paths_revealed
-/

namespace FlatMpt

open Prog
open Radix (Tree)
open Radix.Tree (Canon)

section
variable [Keccak] {promoted recorded : List Nibble → Bool} {pfx target : List Nibble} {s : Store}
  {ptrs : List DiskPtr}

/-! ## Positions and leaves of a path -/

section
variable {V child : Tree 16 Bytes} {cs : Nibble → Tree 16 Bytes} {path rest : List Nibble}
  {x y : RevealNode}

theorem mem_pathNodes_ext (h : x ∈ pathNodes (.ext path child) promoted recorded pfx target) :
    x = .extension pfx path (mkRef (treeRlp child)).reveal ∨ ∃ target', x ∈ pathNodes child
      (fun k => promoted (path ++ k)) (fun k => recorded (path ++ k)) (pfx ++ path) target' := by
  rw [pathNodes] at h
  rcases List.mem_cons.mp h with rfl | h
  · exact .inl rfl
  · split at h
    · exact .inr ⟨target, h⟩
    · refine .inr ⟨[], ?_⟩
      cases child with
      | branch cs =>
        rw [pathNodes]
        exact List.mem_cons.mpr (.inl (List.mem_singleton.mp h))
      | _ => cases h

theorem mem_pathNodes_branch (h : x ∈ pathNodes (.branch cs) promoted recorded pfx target) :
    x = branchNode promoted recorded pfx cs ∨ ∃ i, x ∈ pathNodes (cs i) (fun k => promoted (i :: k))
      (fun k => recorded (i :: k)) (pfx ++ [i]) target := by
  rw [pathNodes] at h
  rcases List.mem_cons.mp h with rfl | h
  · exact .inl rfl
  · cases hd : target.drop pfx.length with
    | nil =>
      rw [hd] at h
      cases h
    | cons i rest =>
      rw [hd] at h
      exact .inr ⟨i, h⟩

/-- What is emitted below a position lies below it. -/
theorem prefix_position (h : x ∈ pathNodes V promoted recorded pfx target) : pfx <+: x.position := by
  induction V generalizing promoted recorded pfx target with
  | empty =>
    rw [pathNodes] at h
    split at h
    next hp => exact hp ▸ List.nil_prefix
    next => cases h
  | leaf path value =>
    obtain rfl := List.mem_singleton.mp h
    exact List.prefix_rfl
  | ext path child ih =>
    rcases mem_pathNodes_ext h with rfl | ⟨target', h⟩
    · exact List.prefix_rfl
    · exact (List.prefix_append pfx path).trans (ih h)
  | branch cs ih =>
    rcases mem_pathNodes_branch h with rfl | ⟨i, h⟩
    · exact List.prefix_rfl
    · exact (List.prefix_append pfx [i]).trans (ih i h)

theorem position_ne {p : List Nibble} (hp : p ≠ [])
    (h : x ∈ pathNodes V promoted recorded (pfx ++ p) target) : x.position ≠ pfx := by
  intro he
  have hlen := (prefix_position h).length_le
  rw [he, List.length_append] at hlen
  have := List.length_pos_iff.mpr hp
  omega

/-- One node stands at each position of the trie. -/
def OneNode (V : Tree 16 Bytes) : Prop :=
  ∀ {promoted recorded : List Nibble → Bool} {pfx target target' : List Nibble} {x y : RevealNode},
    x ∈ pathNodes V promoted recorded pfx target → y ∈ pathNodes V promoted recorded pfx target' →
      x.position = y.position → x = y

theorem oneNode_branch (h : ∀ i, OneNode (cs i)) : OneNode (.branch cs) := by
  intro promoted recorded pfx target target' x y hx hy hxy
  rcases mem_pathNodes_branch hx with rfl | ⟨i, hx⟩
  · rcases mem_pathNodes_branch hy with rfl | ⟨j, hy⟩
    · rfl
    · exact absurd hxy.symm (position_ne (List.cons_ne_nil j []) hy)
  · rcases mem_pathNodes_branch hy with rfl | ⟨j, hy⟩
    · exact absurd hxy (position_ne (List.cons_ne_nil i []) hx)
    · have hi := prefix_position hx
      have hj := prefix_position hy
      rw [hxy] at hi
      have heq := List.prefix_of_prefix_length_le hi hj (by simp)
      have hsame := heq.eq_of_length (by simp)
      obtain rfl : i = j := by simpa using hsame
      exact h i hx hy hxy

theorem Canon.oneNode {n : Nat} (h : Canon n V) : OneNode V := by
  induction h with
  | empty =>
    intro promoted recorded pfx target target' x y hx hy hxy
    rw [pathNodes] at hx hy
    split at hx
    next hp =>
      rw [if_pos hp] at hy
      rw [List.mem_singleton.mp hx, List.mem_singleton.mp hy]
    next => cases hx
  | leaf hp =>
    intro promoted recorded pfx target target' x y hx hy hxy
    rw [List.mem_singleton.mp hx, List.mem_singleton.mp hy]
  | ext hp hn hb hc ih =>
    intro promoted recorded pfx target target' x y hx hy hxy
    rcases mem_pathNodes_ext hx with rfl | ⟨T, hx⟩
    · rcases mem_pathNodes_ext hy with rfl | ⟨T', hy⟩
      · rfl
      · exact absurd hxy.symm (position_ne hp hy)
    · rcases mem_pathNodes_ext hy with rfl | ⟨T', hy⟩
      · exact absurd hxy (position_ne hp hx)
      · exact ih hx hy hxy
  | branch hn hc h2 ih => exact oneNode_branch ih

theorem CanonBelow.oneNode (h : CanonBelow V) : OneNode V := by
  rcases h with ⟨m, hc⟩ | ⟨ts, rfl, hc⟩
  · exact Canon.oneNode hc
  · refine oneNode_branch fun i => ?_
    obtain ⟨m, hi⟩ := hc i
    exact Canon.oneNode hi

/-- A leaf on a path is an entry. -/
theorem get_of_leaf {p k : List Nibble} {v : Bytes}
    (h : .leaf p k v ∈ pathNodes V promoted recorded pfx target) :
    ∃ rest, p ++ k = pfx ++ rest ∧ V.get rest = some v := by
  induction V generalizing promoted recorded pfx target with
  | empty =>
    rw [pathNodes] at h
    split at h
    · cases List.mem_singleton.mp h
    · cases h
  | leaf path value =>
    cases List.mem_singleton.mp h
    exact ⟨k, rfl, if_pos rfl⟩
  | ext path child ih =>
    rcases mem_pathNodes_ext h with h | ⟨target', h⟩
    · cases h
    · obtain ⟨rest, hrest, hget⟩ := ih h
      exact ⟨path ++ rest, by rw [hrest, List.append_assoc], by rwa [Tree.get_ext_append]⟩
  | branch cs ih =>
    rcases mem_pathNodes_branch h with h | ⟨i, h⟩
    · cases h
    · obtain ⟨rest, hrest, hget⟩ := ih i h
      exact ⟨i :: rest, by rw [hrest, List.append_assoc]; rfl, hget⟩

/-- The path of a key that is there ends in its leaf. -/
theorem exists_leaf {v : Bytes} (h : V.get rest = some v) (hrest : target.drop pfx.length = rest) :
    ∃ p k, .leaf p k v ∈ pathNodes V promoted recorded pfx target ∧ p ++ k = pfx ++ rest := by
  induction V generalizing promoted recorded pfx rest with
  | empty => cases h
  | leaf path value =>
    rw [Tree.get_leaf] at h
    split at h
    next he =>
      cases h
      exact ⟨pfx, path, List.mem_singleton_self _, by rw [he]⟩
    next => cases h
  | ext path child ih =>
    obtain ⟨k', rfl, hget⟩ := Tree.get_ext_eq_some h
    have hdrop : target.drop (pfx ++ path).length = k' := by
      rw [List.length_append, ← List.drop_drop, hrest, List.drop_left]
    obtain ⟨p, k, hmem, hpk⟩ := ih hget hdrop
    refine ⟨p, k, ?_, by rw [hpk, List.append_assoc]⟩
    rw [pathNodes, hrest, if_pos (List.isPrefixOf_iff_prefix.mpr (List.prefix_append path k'))]
    exact List.mem_cons_of_mem _ hmem
  | branch cs ih =>
    cases rest with
    | nil => cases h
    | cons i rest =>
      have hdrop : target.drop (pfx ++ [i]).length = rest := by
        rw [List.length_append, ← List.drop_drop, hrest]
        rfl
      obtain ⟨p, k, hmem, hpk⟩ := ih i h hdrop
      refine ⟨p, k, ?_, by rw [hpk, List.append_assoc]; rfl⟩
      rw [pathNodes, hrest]
      exact List.mem_cons_of_mem _ hmem

end

/-! ## Targets -/

omit [Keccak] in
theorem valueAt_eq_some {x : RevealNode} {v : Bytes} :
    x.valueAt target = some v ↔ ∃ p k, x = .leaf p k v ∧ p ++ k = target := by
  constructor
  · intro h
    cases x with
    | leaf p k w =>
      rw [RevealNode.valueAt] at h
      split at h
      next hk =>
        cases h
        refine ⟨p, k, rfl, ?_⟩
        have happ := List.take_append_drop p.length target
        rwa [hk.2.1, hk.2.2] at happ
      next => cases h
    | _ => cases h
  · rintro ⟨p, k, rfl, rfl⟩
    rw [RevealNode.valueAt, if_pos ⟨List.length_append.symm, List.take_left, List.drop_left⟩]

/-- Among the nodes of a trie on paths that include the key's, the value found is the key's. -/
theorem extractExact_eq {V : Tree 16 Bytes} {nodes : List RevealNode} {key : Key}
    (hsound : ∀ x ∈ nodes, ∃ target, x ∈ pathNodes V promoted recorded [] target)
    (hall : ∀ x ∈ pathNodes V promoted recorded [] (keyNibbles key), x ∈ nodes) :
    extractExact nodes key = V.get (keyNibbles key) := by
  have hfound {x : RevealNode} {v : Bytes} (hx : x ∈ nodes) (hv : x.valueAt (keyNibbles key) = some v) :
      V.get (keyNibbles key) = some v := by
    obtain ⟨p, k, rfl, hpk⟩ := valueAt_eq_some.mp hv
    obtain ⟨target, hmem⟩ := hsound _ hx
    obtain ⟨rest, hrest, hget⟩ := get_of_leaf hmem
    rw [hpk, List.nil_append] at hrest
    rwa [hrest]
  unfold extractExact
  cases hf : nodes.findSome? (RevealNode.valueAt (keyNibbles key)) with
  | some v =>
    obtain ⟨x, hx, hv⟩ := List.exists_of_findSome?_eq_some hf
    exact (hfound hx hv).symm
  | none =>
    cases hget : V.get (keyNibbles key) with
    | none => rfl
    | some v =>
      have hleaf : ∃ p k, .leaf p k v ∈ pathNodes V promoted recorded [] (keyNibbles key) ∧
          p ++ k = keyNibbles key := exists_leaf hget rfl
      obtain ⟨p, k, hmem, hpk⟩ := hleaf
      have hnone := List.findSome?_eq_none_iff.mp hf _ (hall _ hmem)
      rw [valueAt_eq_some.mpr ⟨p, k, rfl, hpk⟩] at hnone
      cases hnone

variable {n : RamNode} {t : Tree 16 StateLeaf} {ls : List Listed}

/-- The walks of the targets, one after the other. -/
theorem walkTargets_run {walk : List Nibble → Emitter → Prog Resp (Except RevealErr Emitter)}
    {nodes : Key → List RevealNode}
    (hwalk : ∀ key (e : Emitter), MemoFor s ptrs e.memo → ∃ memo', MemoFor s ptrs memo' ∧
      run exec (walk (keyNibbles key) e) s.healthy =
        (.ok { (nodes key).foldl Emitter.emit e with memo := memo' }, s.healthy))
    (keys : List Key) {e : Emitter} (hm : MemoFor s ptrs e.memo) :
    ∃ memo', MemoFor s ptrs memo' ∧ run exec (walkTargets walk keys e) s.healthy =
      (.ok { (keys.flatMap nodes).foldl Emitter.emit e with memo := memo' }, s.healthy) := by
  induction keys generalizing e with
  | nil => exact ⟨e.memo, hm, rfl⟩
  | cons key keys ih =>
    obtain ⟨memo1, hm1, hrun⟩ := hwalk key e hm
    obtain ⟨memo2, hm2, hrest⟩ := ih (e := { (nodes key).foldl Emitter.emit e with memo := memo1 }) hm1
    rw [foldl_emit_with (keys.flatMap nodes)] at hrest
    refine ⟨memo2, hm2, ?_⟩
    rw [walkTargets, run_bind, hrun, List.flatMap_cons, List.foldl_append]
    exact hrest

omit [Keccak] in
theorem once_start (memo : RecordMemo) : (⟨memo, [], []⟩ : Emitter).Once :=
  ⟨fun p => by simp, List.nodup_nil⟩

/-- The nodes of a trie on the paths of some targets, each once, the root first. -/
structure Reveals (V : Tree 16 Bytes) (promoted recorded : List Nibble → Bool) (keys : List Key)
    (nodes : List RevealNode) : Prop where
  mem : ∀ x, x ∈ nodes ↔ ∃ key ∈ keys, x ∈ pathNodes V promoted recorded [] (keyNibbles key)
  once : (nodes.map RevealNode.position).Nodup
  root : ∀ x ∈ nodes.head?, x.position = []

/-- The value found among the nodes of all targets is the target's. -/
theorem Reveals.extract {V : Tree 16 Bytes} {keys : List Key} {nodes : List RevealNode}
    (h : Reveals V promoted recorded keys nodes) {key : Key} (hkey : key ∈ keys) :
    extractExact nodes key = V.get (keyNibbles key) := by
  have hall := fun x hx => (h.mem x).mpr ⟨key, hkey, hx⟩
  refine extractExact_eq (fun x hx => ?_) hall
  obtain ⟨key', -, hmem⟩ := (h.mem x).mp hx
  exact ⟨_, hmem⟩

/-- A path starts at the root. -/
theorem pathNodes_root (V : Tree 16 Bytes) (target : List Nibble) :
    ∃ x l, pathNodes V promoted recorded [] target = x :: l ∧ x.position = [] := by
  cases V with
  | empty => exact ⟨.emptyRoot, [], rfl, rfl⟩
  | leaf path value => exact ⟨_, _, rfl, rfl⟩
  | ext path child =>
    rw [pathNodes]
    exact ⟨_, _, rfl, rfl⟩
  | branch cs =>
    rw [pathNodes]
    exact ⟨_, _, rfl, rfl⟩

/-- What the paths of some targets emit, from the start. -/
theorem reveals_emitted {V : Tree 16 Bytes} (hV : CanonBelow V) (keys : List Key) :
    Reveals V promoted recorded keys ((keys.flatMap fun key =>
      pathNodes V promoted recorded [] (keyNibbles key)).foldl Emitter.emit ⟨none, [], []⟩).out where
  mem x := by
    rw [mem_foldl_emit (once_start none) fun x hx y hy => by
      obtain ⟨key, -, hx⟩ := List.mem_flatMap.mp hx
      obtain ⟨key', -, hy⟩ := List.mem_flatMap.mp hy
      exact hV.oneNode hx hy, or_iff_right List.not_mem_nil, List.mem_flatMap]
  once := ((once_start none).foldl _).nodup
  root x hx := by
    cases keys with
    | nil => cases hx
    | cons key keys =>
      have hroot : ∃ x l, pathNodes V promoted recorded [] (keyNibbles key) = x :: l ∧ x.position = [] :=
        pathNodes_root V (keyNibbles key)
      obtain ⟨y, l, hy, hpos⟩ := hroot
      rw [List.flatMap_cons, hy, List.cons_append, List.foldl_cons] at hx
      obtain ⟨rest, hrest⟩ := out_kept (l ++ keys.flatMap fun key =>
        pathNodes V promoted recorded [] (keyNibbles key)) (Emitter.emit ⟨none, [], []⟩ y)
      rw [← hrest] at hx
      have hemit : (Emitter.emit ⟨none, [], []⟩ y).out = [y] := by
        have hnot : ¬ Emitter.hasSeen ⟨none, [], []⟩ y.position = true := Bool.false_ne_true
        unfold Emitter.emit
        rw [if_neg hnot]
        rfl
      rw [hemit] at hx
      cases hx
      exact hpos

/-- What a call reveals. -/
def revealed (s : Store) (n : RamNode) (keys : List Key) : Except RevealErr (List RevealNode) :=
  (run exec (revealAccountPaths n keys) s.healthy).1

end

end FlatMpt
