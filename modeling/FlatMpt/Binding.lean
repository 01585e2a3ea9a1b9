import Mathlib.Algebra.Order.BigOperators.Group.List
import FlatMpt.Reference

/-!
# The reference root is binding

A node's bytes show its kind, its path, its value and its references, and a reference
shows the node behind it unless two hashed nodes collide.  So trees with the same root
are the same, and so are the maps.

    embed_inj       -- inline and hashed references
    treeRlp_inj     -- node by node
    root_binding
-/

namespace FlatMpt

open Radix (Tree)
open Radix.Tree (Canon)
open Eth (rlpString rlpList hexPrefix Item)

section
variable [Keccak]

/-! ## References -/

/-- The bytes of a node. -/
def IsNode (x : Bytes) : Prop := ∃ items, x = rlpList items ∧ items.flatten.length < 2 ^ 64

omit [Keccak] in
theorem IsNode.ne_string {x bs : Bytes} (h : IsNode x) (hb : bs.length < 2 ^ 64) : rlpString bs ≠ x := by
  obtain ⟨items, rfl, hlen⟩ := h
  exact Eth.rlpString_ne_rlpList hb hlen

theorem hash_length (x : Bytes) : (keccak256 x).bytes.length < 2 ^ 64 := by
  rw [(keccak256 x).size]
  decide

theorem embed_item {x : Bytes} (h : IsNode x) :
    Item (mkRef x).embed ∧ (mkRef x).embed.length ≤ 41 := by
  unfold mkRef
  split
  · rename_i hlt
    obtain ⟨items, rfl, hlen⟩ := h
    exact ⟨Eth.item_list hlen, Nat.le_trans (Nat.le_of_lt hlt) (by decide)⟩
  · have hle := Eth.rlpString_length_le (hash_length x)
    rw [(keccak256 x).size] at hle
    exact ⟨Eth.item_string (hash_length x), hle⟩

theorem embed_ne_empty {x : Bytes} (h : IsNode x) : (mkRef x).embed ≠ rlpString [] := by
  unfold mkRef
  split
  · exact (h.ne_string (by decide)).symm
  · intro he
    have hnil := Eth.rlpString_inj (hash_length x) (by decide) he
    have hsize := (keccak256 x).size
    rw [hnil] at hsize
    cases hsize

/-- A reference determines its node up to a collision. -/
theorem embed_inj {x y : Bytes} (hx : IsNode x) (hy : IsNode y)
    (hinj : 32 ≤ x.length → 32 ≤ y.length → keccak256 x = keccak256 y → x = y)
    (h : (mkRef x).embed = (mkRef y).embed) : x = y := by
  unfold mkRef at h
  split at h
  · split at h
    · exact h
    · exact absurd h.symm (hx.ne_string (hash_length y))
  · rename_i hlx
    split at h
    · exact absurd h (hy.ne_string (hash_length x))
    · rename_i hly
      refine hinj (Nat.le_of_not_lt hlx) (Nat.le_of_not_lt hly) (Bytes32.ext ?_)
      exact Eth.rlpString_inj (hash_length x) (hash_length y) h

/-! ## Nodes -/

omit [Keccak] in
theorem path_item {path : List Nibble} (leaf : Bool) (h : path.length ≤ 64) :
    (hexPrefix path leaf).length < 2 ^ 64 ∧ Item (rlpString (hexPrefix path leaf)) ∧
      (rlpString (hexPrefix path leaf)).length ≤ 74 := by
  have hle := (Eth.hexPrefix_flagged path leaf).2
  have hlt : (hexPrefix path leaf).length < 2 ^ 64 := by omega
  have hs := Eth.rlpString_length_le hlt
  exact ⟨hlt, Eth.item_string hlt, by omega⟩

omit [Keccak] in
/-- A path and another item. -/
theorem pair_items {path : List Nibble} (leaf : Bool) (h : path.length ≤ 64) {x : Bytes} (hx : Item x)
    (hlen : x.length < 2 ^ 63 + 10) :
    (∀ y ∈ [rlpString (hexPrefix path leaf), x], Item y) ∧
      [rlpString (hexPrefix path leaf), x].flatten.length < 2 ^ 64 := by
  obtain ⟨-, hitem, hle⟩ := path_item leaf h
  refine ⟨List.forall_mem_cons.mpr ⟨hitem, List.forall_mem_singleton.mpr hx⟩, ?_⟩
  rw [List.flatten_cons, List.flatten_cons, List.flatten_nil, List.append_nil, List.length_append]
  omega

omit [Keccak] in
theorem value_item {value : Bytes} (h : value.length < 2 ^ 63) :
    Item (rlpString value) ∧ (rlpString value).length < 2 ^ 63 + 10 := by
  have hle : (rlpString value).length ≤ value.length + 9 := Eth.rlpString_length_le (by omega)
  exact ⟨Eth.item_string (by omega), by omega⟩

/-- The items of a branch. -/
def branchItems (children : Nibble → Tree 16 Bytes) : List Bytes :=
  ((List.finRange 16).map fun i =>
    if (children i).isEmpty then rlpString [] else (mkRef (treeRlp (children i))).embed) ++ [rlpString []]

theorem treeRlp_branch (children : Nibble → Tree 16 Bytes) :
    treeRlp (.branch children) = rlpList (branchItems children) := by
  rw [treeRlp, branchRlp, branchItems]
  congr 2
  refine List.map_congr_left fun i _ => ?_
  by_cases hi : (children i).isEmpty = true
  · rw [if_pos hi, if_pos hi]
  · rw [if_neg hi, if_neg hi]

theorem branch_items {children : Nibble → Tree 16 Bytes}
    (h : ∀ i, children i ≠ .empty → IsNode (treeRlp (children i))) :
    (∀ y ∈ branchItems children, Item y) ∧ (branchItems children).flatten.length < 2 ^ 64 := by
  have hempty : Item (rlpString []) ∧ (rlpString []).length ≤ 41 :=
    ⟨Eth.item_string (by decide), by decide⟩
  have hall : ∀ y ∈ branchItems children, Item y ∧ y.length ≤ 41 := by
    intro y hy
    rcases List.mem_append.mp hy with hy | hy
    · obtain ⟨i, -, rfl⟩ := List.mem_map.mp hy
      split
      · exact hempty
      · rename_i hi
        exact embed_item (h i fun he => hi (by rw [he]; rfl))
    · cases List.mem_singleton.mp hy
      exact hempty
  refine ⟨fun y hy => (hall y hy).1, ?_⟩
  have hsum := List.sum_le_card_nsmul ((branchItems children).map List.length) 41 (by
    intro n hn
    obtain ⟨y, hy, rfl⟩ := List.mem_map.mp hn
    exact (hall y hy).2)
  have hcard : ((branchItems children).map List.length).length = 17 := by
    rw [List.length_map, branchItems, List.length_append, List.length_map, List.length_finRange]
    rfl
  rw [hcard, show (17 • 41 : Nat) = 697 from rfl] at hsum
  rw [List.length_flatten]
  omega

/-- A tree whose nodes fit RLP's lengths. -/
structure Encodable (n : Nat) (t : Tree 16 Bytes) : Prop where
  canon : Canon n t
  le : n ≤ 64
  values : ∀ k v, t.get k = some v → v.length < 2 ^ 63

omit [Keccak] in
theorem Encodable.child {n m : Nat} {children : Nibble → Tree 16 Bytes}
    (h : Encodable n (.branch children)) (hn : n = m + 1) (hc : ∀ i, Canon m (children i)) (i : Nibble) :
    Encodable m (children i) :=
  ⟨hc i, by have := h.le; omega, fun k v hk => h.values (i :: k) v hk⟩

omit [Keccak] in
theorem Encodable.below {n m : Nat} {path : List Nibble} {child : Tree 16 Bytes}
    (h : Encodable n (.ext path child)) (hn : n = path.length + m) (hc : Canon m child) :
    Encodable m child :=
  ⟨hc, by have := h.le; omega, fun k v hk => h.values (path ++ k) v (by rw [Tree.get_ext_append]; exact hk)⟩

theorem treeRlp_isNode {n : Nat} {t : Tree 16 Bytes} (h : Encodable n t) (ht : t ≠ .empty) :
    IsNode (treeRlp t) := by
  obtain ⟨hcanon, hle, hvalues⟩ := h
  induction hcanon with
  | empty => exact absurd rfl ht
  | @leaf n path value hp =>
    obtain ⟨hi, hl⟩ := value_item (hvalues path value (if_pos rfl))
    exact ⟨_, rfl, (pair_items true (hp.trans_le hle) hi hl).2⟩
  | @ext n m path child hp hn hb hc ih =>
    have hchild : child ≠ .empty := by
      obtain ⟨children⟩ := hb
      nofun
    have hbelow := Encodable.below ⟨.ext hp hn hb hc, hle, hvalues⟩ hn hc
    obtain ⟨hi, hl⟩ := embed_item (ih hchild hbelow.le hbelow.values)
    exact ⟨_, rfl, (pair_items false (by omega) hi (by omega)).2⟩
  | @branch n m children hn hc h2 ih =>
    refine ⟨_, treeRlp_branch children, (branch_items fun i hi => ?_).2⟩
    have hchild := Encodable.child ⟨.branch hn hc h2, hle, hvalues⟩ hn hc i
    exact ih i hi hchild.le hchild.values

theorem mem_treeHashed_ext {path : List Nibble} {child : Tree 16 Bytes} {x : Bytes}
    (h : x ∈ refHashes (treeRlp child) ∨ x ∈ treeHashed child) : x ∈ treeHashed (.ext path child) :=
  List.mem_append.mpr h

theorem mem_treeHashed_branch {children : Nibble → Tree 16 Bytes} {i : Nibble} {x : Bytes}
    (hi : children i ≠ .empty)
    (h : x ∈ refHashes (treeRlp (children i)) ∨ x ∈ treeHashed (children i)) :
    x ∈ treeHashed (.branch children) := by
  refine List.mem_flatMap.mpr ⟨i, List.mem_finRange i, ?_⟩
  rw [if_neg fun he => hi (Tree.isEmpty_iff.mp he)]
  exact List.mem_append.mpr h

omit [Keccak] in
theorem mem_refHashes {x : Bytes} (h : 32 ≤ x.length) : x ∈ refHashes x := by
  unfold refHashes
  rw [if_neg (Nat.not_lt_of_le h)]
  exact List.mem_singleton_self x

omit [Keccak] in
theorem pair_inj {p q : List Nibble} {a b : Bool} {x y : Bytes} (hp : p.length ≤ 64)
    (hq : q.length ≤ 64) (hx : Item x ∧ x.length < 2 ^ 63 + 10) (hy : Item y ∧ y.length < 2 ^ 63 + 10)
    (h : rlpList [rlpString (hexPrefix p a), x] = rlpList [rlpString (hexPrefix q b), y]) :
    p = q ∧ a = b ∧ x = y := by
  obtain ⟨hix, hlx⟩ := pair_items a hp hx.1 hx.2
  obtain ⟨hiy, hly⟩ := pair_items b hq hy.1 hy.2
  have hitems := Eth.rlpList_inj hix hiy hlx hly h
  obtain ⟨hpath, htail⟩ := List.cons.inj hitems
  obtain ⟨rfl, rfl⟩ :=
    Eth.hexPrefix_inj (Eth.rlpString_inj (path_item a hp).1 (path_item b hq).1 hpath)
  exact ⟨rfl, rfl, (List.cons.inj htail).1⟩

theorem pair_ne_branch {p : List Nibble} {a : Bool} {x : Bytes} {children : Nibble → Tree 16 Bytes}
    (hp : p.length ≤ 64) (hx : Item x ∧ x.length < 2 ^ 63 + 10)
    (hc : ∀ i, children i ≠ .empty → IsNode (treeRlp (children i))) :
    rlpList [rlpString (hexPrefix p a), x] ≠ treeRlp (.branch children) := by
  intro h
  rw [treeRlp_branch] at h
  obtain ⟨hix, hlx⟩ := pair_items a hp hx.1 hx.2
  obtain ⟨hib, hlb⟩ := branch_items hc
  have hlen := congrArg List.length (Eth.rlpList_inj hix hib hlx hlb h)
  rw [branchItems, List.length_append, List.length_map, List.length_finRange] at hlen
  cases hlen

/-- The second item of a leaf or an extension. -/
theorem ref_item {x : Bytes} (h : IsNode x) :
    Item (mkRef x).embed ∧ (mkRef x).embed.length < 2 ^ 63 + 10 := by
  obtain ⟨hi, hl⟩ := embed_item h
  exact ⟨hi, by omega⟩

/-- **Trees with the same bytes are the same**, up to a collision of hashed nodes. -/
theorem treeRlp_inj {n : Nat} {t u : Tree 16 Bytes} (ht : Encodable n t) (hu : Encodable n u)
    (ht0 : t ≠ .empty) (hu0 : u ≠ .empty) {S : Set Bytes} (hinj : Set.InjOn keccak256 S)
    (hS : ∀ x, x ∈ treeHashed t ∨ x ∈ treeHashed u → x ∈ S) (h : treeRlp t = treeRlp u) : t = u := by
  have hle := ht.le
  -- references of children below the same branch or path
  have href : ∀ {m : Nat} {c d : Tree 16 Bytes}, Encodable m c → Encodable m d → c ≠ .empty →
      d ≠ .empty → (∀ x ∈ refHashes (treeRlp c), x ∈ S) → (∀ x ∈ refHashes (treeRlp d), x ∈ S) →
      (mkRef (treeRlp c)).embed = (mkRef (treeRlp d)).embed → treeRlp c = treeRlp d := by
    intro m c d hc hd hc0 hd0 hcS hdS he
    refine embed_inj (treeRlp_isNode hc hc0) (treeRlp_isNode hd hd0) (fun h1 h2 hk => ?_) he
    exact hinj (hcS _ (mem_refHashes h1)) (hdS _ (mem_refHashes h2)) hk
  induction t generalizing n u with
  | empty => exact absurd rfl ht0
  | leaf p v =>
    have hp : p.length ≤ 64 := by
      cases ht.canon with
      | leaf hp => exact hp.trans_le hle
    have hv := value_item (ht.values p v (if_pos rfl))
    cases hu.canon with
    | empty => exact absurd rfl hu0
    | @leaf _ q w hq =>
      have hw := hu.values q w (if_pos rfl)
      obtain ⟨rfl, -, hvw⟩ := pair_inj hp (hq.trans_le hle) hv (value_item hw) h
      have hv' := ht.values p v (if_pos rfl)
      rw [Eth.rlpString_inj (by omega) (by omega) hvw]
    | ext hq hn hb hc =>
      have hd := treeRlp_isNode (hu.below hn hc) (by cases hb; nofun)
      exact absurd (pair_inj hp (by omega) hv (ref_item hd) h).2.1 (by decide)
    | branch hn hc h2 =>
      exact absurd h (pair_ne_branch hp hv fun i hi => treeRlp_isNode (hu.child hn hc i) hi)
  | ext p c ih =>
    obtain ⟨m, hn, hb, hc, hp⟩ : ∃ m, n = p.length + m ∧ Tree.IsBranch c ∧ Canon m c ∧ p ≠ [] := by
      cases ht.canon with
      | ext hp hn hb hc => exact ⟨_, hn, hb, hc, hp⟩
    have hc0 : c ≠ .empty := by
      cases hb
      nofun
    have hce := ht.below hn hc
    have hcr := ref_item (treeRlp_isNode hce hc0)
    cases hu.canon with
    | empty => exact absurd rfl hu0
    | leaf hq =>
      have hw := hu.values _ _ (if_pos rfl)
      exact absurd (pair_inj (by omega) (hq.trans_le hle) hcr (value_item hw) h).2.1 (by decide)
    | @ext _ m' q d hq hn' hb' hd =>
      have hd0 : d ≠ .empty := by
        cases hb'
        nofun
      have hde := hu.below hn' hd
      obtain ⟨rfl, -, he⟩ := pair_inj (by omega) (by omega) hcr (ref_item (treeRlp_isNode hde hd0)) h
      obtain rfl : m' = m := by omega
      have hcd := href hce hde hc0 hd0 (fun x hx => hS x (.inl (mem_treeHashed_ext (.inl hx))))
        (fun x hx => hS x (.inr (mem_treeHashed_ext (.inl hx)))) he
      rw [ih hce hde hc0 hd0 (fun x hx => hS x (hx.imp (fun hx => mem_treeHashed_ext (.inr hx))
        fun hx => mem_treeHashed_ext (.inr hx))) hcd hce.le]
    | branch hn' hc' h2 =>
      exact absurd h (pair_ne_branch (by omega) hcr fun i hi => treeRlp_isNode (hu.child hn' hc' i) hi)
  | branch cs ih =>
    obtain ⟨m, hn, hc⟩ : ∃ m, n = m + 1 ∧ ∀ i, Canon m (cs i) := by
      cases ht.canon with
      | branch hn hc h2 => exact ⟨_, hn, hc⟩
    have hnode : ∀ i, cs i ≠ .empty → IsNode (treeRlp (cs i)) := fun i hi =>
      treeRlp_isNode (ht.child hn hc i) hi
    cases hu.canon with
    | empty => exact absurd rfl hu0
    | leaf hq =>
      have hw := hu.values _ _ (if_pos rfl)
      exact absurd h.symm (pair_ne_branch (hq.trans_le hle) (value_item hw) hnode)
    | ext hq hn' hb' hd =>
      have hd0 := treeRlp_isNode (hu.below hn' hd) (by cases hb'; nofun)
      exact absurd h.symm (pair_ne_branch (by omega) (ref_item hd0) hnode)
    | @branch _ m' ds hn' hd h2 =>
      obtain rfl : m' = m := by omega
      have hnode' : ∀ i, ds i ≠ .empty → IsNode (treeRlp (ds i)) := fun i hi =>
        treeRlp_isNode (hu.child hn' hd i) hi
      rw [treeRlp_branch, treeRlp_branch] at h
      have hitems := Eth.rlpList_inj (branch_items hnode).1 (branch_items hnode').1
        (branch_items hnode).2 (branch_items hnode').2 h
      have hslot := List.map_inj_left.mp (List.append_cancel_right hitems)
      refine congrArg Tree.branch (funext fun i => ?_)
      have hi := hslot i (List.mem_finRange i)
      by_cases h1 : cs i = .empty
      · by_cases h2 : ds i = .empty
        · rw [h1, h2]
        · rw [if_pos (Tree.isEmpty_iff.mpr h1), if_neg fun he => h2 (Tree.isEmpty_iff.mp he)] at hi
          exact absurd hi.symm (embed_ne_empty (hnode' i h2))
      · by_cases h2 : ds i = .empty
        · rw [if_pos (Tree.isEmpty_iff.mpr h2), if_neg fun he => h1 (Tree.isEmpty_iff.mp he)] at hi
          exact absurd hi (embed_ne_empty (hnode i h1))
        · rw [if_neg fun he => h1 (Tree.isEmpty_iff.mp he),
            if_neg fun he => h2 (Tree.isEmpty_iff.mp he)] at hi
          have hce := ht.child hn hc i
          have hde := hu.child hn' hd i
          have hcd := href hce hde h1 h2 (fun x hx => hS x (.inl (mem_treeHashed_branch h1 (.inl hx))))
            (fun x hx => hS x (.inr (mem_treeHashed_branch h2 (.inl hx)))) hi
          exact ih i hce hde h1 h2 (fun x hx => hS x (hx.imp
            (fun hx => mem_treeHashed_branch h1 (.inr hx))
            fun hx => mem_treeHashed_branch h2 (.inr hx))) hcd hce.le

/-! ## The root -/

/-- A byte vector; none is longer. -/
abbrev VecU8 := { bs : Bytes // bs.length < 2 ^ 63 }

def rawEntries (entries : List (Key × VecU8)) : List (Bytes × Bytes) :=
  entries.map fun e => (e.1.bytes, e.2.1)

/-- The value of a key after these writes. -/
def valueOf (entries : List (Key × VecU8)) (k : Key) : Option Bytes :=
  written (rawEntries entries) (keyNibbles k)

omit [Keccak] in
theorem rawEntries_length (entries : List (Key × VecU8)) : ∀ e ∈ rawEntries entries, e.1.length = 32 := by
  intro e he
  obtain ⟨e', -, rfl⟩ := List.mem_map.mp he
  exact e'.1.size

omit [Keccak] in
/-- Values are written ones. -/
theorem written_mem {entries : List (Bytes × Bytes)} :
    ∀ {k : List Nibble} {v : Bytes}, written entries k = some v → ∃ e ∈ entries, e.2 = v := by
  have hstep : ∀ f : List Nibble → Option Bytes, ∀ k v, entries.foldl (fun m e =>
      Function.update m (Eth.rawNibbles e.1) (if e.2.isEmpty then none else some e.2)) f k = some v →
      f k = some v ∨ ∃ e ∈ entries, e.2 = v := by
    induction entries with
    | nil => exact fun f k v h => .inl h
    | cons e entries ih =>
      intro f k v h
      rcases ih _ k v h with h | ⟨e', he', hv⟩
      · dsimp only at h
        by_cases hk : k = Eth.rawNibbles e.1
        · rw [hk, Function.update_self] at h
          split at h
          · cases h
          · exact .inr ⟨e, List.mem_cons_self, Option.some.inj h⟩
        · rw [Function.update_of_ne hk] at h
          exact .inl h
      · exact .inr ⟨e', List.mem_cons_of_mem _ he', hv⟩
  intro k v h
  exact (hstep _ k v h).resolve_left nofun

omit [Keccak] in
theorem encodable_writtenTree (entries : List (Key × VecU8)) :
    Encodable 64 (writtenTree (rawEntries entries)) where
  canon := canon_writtenTree _
  le := le_rfl
  values k v h := by
    rw [get_writtenTree (rawEntries_length entries)] at h
    obtain ⟨e, he, rfl⟩ := written_mem h
    obtain ⟨e', -, rfl⟩ := List.mem_map.mp he
    exact e'.2.2

/-- **The root is a binding commitment.**  Writes with the same root leave the same map,
unless two of the strings hashed for them collide. -/
theorem root_binding {es fs : List (Key × VecU8)}
    (hinj : Set.InjOn keccak256
      { x | x ∈ hashedStrings (rawEntries es) ∨ x ∈ hashedStrings (rawEntries fs) })
    (h : Eth.root (rawEntries es) = Eth.root (rawEntries fs)) : valueOf es = valueOf fs := by
  have htrees : writtenTree (rawEntries es) = writtenTree (rawEntries fs) := by
    have hes := hashedStrings_eq (rawEntries_length es)
    have hfs := hashedStrings_eq (rawEntries_length fs)
    have het := encodable_writtenTree es
    have hft := encodable_writtenTree fs
    rw [root_eq (rawEntries_length es), root_eq (rawEntries_length fs), treeRoot, treeRoot] at h
    rw [hes, hfs] at hinj
    generalize writtenTree (rawEntries es) = t at het h hinj ⊢
    generalize writtenTree (rawEntries fs) = u at hft h hinj ⊢
    by_cases ht : t = .empty
    · by_cases hu : u = .empty
      · rw [ht, hu]
      · rw [if_pos (Tree.isEmpty_iff.mpr ht), if_neg fun he => hu (Tree.isEmpty_iff.mp he)] at h hinj
        have he := hinj (.inl (List.mem_singleton_self _)) (.inr List.mem_cons_self) h
        exact absurd he ((treeRlp_isNode hft hu).ne_string (by decide))
    · by_cases hu : u = .empty
      · rw [if_neg fun he => ht (Tree.isEmpty_iff.mp he), if_pos (Tree.isEmpty_iff.mpr hu)] at h hinj
        have he := hinj (.inl List.mem_cons_self) (.inr (List.mem_singleton_self _)) h
        exact absurd he.symm ((treeRlp_isNode het ht).ne_string (by decide))
      · rw [if_neg fun he => ht (Tree.isEmpty_iff.mp he),
          if_neg fun he => hu (Tree.isEmpty_iff.mp he)] at h hinj
        have he := hinj (.inl List.mem_cons_self) (.inr List.mem_cons_self) h
        exact treeRlp_inj het hft ht hu hinj
          (fun x hx => hx.imp (List.mem_cons_of_mem _) (List.mem_cons_of_mem _)) he
  funext k
  unfold valueOf
  rw [← get_writtenTree (rawEntries_length es), ← get_writtenTree (rawEntries_length fs), htrees]

end

/-- A hash that tells strings of different lengths apart. -/
abbrev lengthKeccak : Keccak := ⟨fun bs => .fill (UInt8.ofNat bs.length)⟩

def twoEntries : List (Key × VecU8) :=
  [(.fill 1, ⟨[1], by decide⟩), (.fill 0x21, ⟨[2, 3], by decide⟩)]

/-- Two entries written in either order. -/
theorem root_binding_orders :
    let _ : Keccak := lengthKeccak
    valueOf twoEntries = valueOf twoEntries.reverse := by
  intro _
  have hall : ∀ x ∈ hashedStrings (rawEntries twoEntries) ++ hashedStrings (rawEntries twoEntries.reverse),
      ∀ y ∈ hashedStrings (rawEntries twoEntries) ++ hashedStrings (rawEntries twoEntries.reverse),
      keccak256 x = keccak256 y → x = y := by decide +kernel
  refine root_binding (fun x hx y hy => ?_) (by decide +kernel)
  exact hall x (List.mem_append.mpr hx) y (List.mem_append.mpr hy)

end FlatMpt
