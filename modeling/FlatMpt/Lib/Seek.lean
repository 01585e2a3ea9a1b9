import FlatMpt.Lib.Listing

/-!
# Successor search

`seek lo` is the first entry whose key is not below `lo`; without a bound it is the first
entry of all.  Below a branch only one part stays bounded: the parts before it hold smaller
keys, the parts after it greater ones.

    side              -- a stretch of path and the bound
    seek_ext_on, seek_ext_greater, seek_ext_less
    seek_branch_cons

A cursor that seeks in a sorted list and goes on at the successor of the key it stands at
goes through the whole list.

    Seeks.drains, Seeks.drains_all
-/

namespace Radix

variable {r : Nat} {α : Type}

/-- Whether a key is not below the bound. -/
def atLeast (lo : Option (List (Fin r))) (k : List (Fin r)) : Bool := lo.all fun l => (compare l k).isLE

theorem atLeast_none (k : List (Fin r)) : atLeast none k = true := rfl

theorem atLeast_nil (k : List (Fin r)) : atLeast (some []) k = true := by
  cases k <;> rfl

theorem atLeast_append (p l k : List (Fin r)) : atLeast (some (p ++ l)) (p ++ k) = atLeast (some l) k := by
  unfold atLeast
  rw [Option.all_some, Option.all_some, compare_append]

/-- How a stretch of path lies to a bound, as far as both go. -/
def side (p l : List (Fin r)) : Ordering :=
  compare (p.take (min p.length l.length)) (l.take (min p.length l.length))

theorem side_cons (i j : Fin r) (p l : List (Fin r)) :
    side (i :: p) (j :: l) = (compare i j).then (side p l) := by
  unfold side
  rw [List.length_cons, List.length_cons, Nat.add_min_add_right, List.take_succ_cons,
    List.take_succ_cons, List.compare_cons_cons]

theorem side_nil (p : List (Fin r)) : side p [] = .eq := by
  unfold side
  rw [List.length_nil, Nat.min_zero, List.take_zero, List.take_zero, Std.ReflOrd.compare_self]

theorem nil_side (l : List (Fin r)) : side [] l = .eq := by
  unfold side
  rw [List.length_nil, Nat.zero_min, List.take_zero, List.take_zero, Std.ReflOrd.compare_self]

theorem side_append (p a b : List (Fin r)) : side (p ++ a) (p ++ b) = side a b := by
  induction p with
  | nil => rfl
  | cons i p ih =>
    rw [List.cons_append, List.cons_append, side_cons, Std.ReflOrd.compare_self, ih]
    rfl

/-- A stretch on the path of the bound: one continues the other. -/
theorem side_eq_iff {p l : List (Fin r)} :
    side p l = .eq ↔ (∃ m, l = p ++ m) ∨ ∃ m, p = l ++ m := by
  constructor
  · intro h
    induction p generalizing l with
    | nil => exact .inl ⟨l, rfl⟩
    | cons i p ih =>
      cases l with
      | nil => exact .inr ⟨i :: p, rfl⟩
      | cons j l =>
        rw [side_cons, Ordering.then_eq_eq] at h
        obtain rfl := Std.LawfulEqOrd.eq_of_compare h.1
        rcases ih h.2 with ⟨m, rfl⟩ | ⟨m, rfl⟩
        · exact .inl ⟨m, rfl⟩
        · exact .inr ⟨m, rfl⟩
  · rintro (⟨m, rfl⟩ | ⟨m, rfl⟩)
    · have h := side_append p [] m
      rw [List.append_nil] at h
      rw [h, nil_side]
    · have h := side_append l m []
      rw [List.append_nil] at h
      rw [h, side_nil]

/-- Below a stretch on the path of the bound, what is left of the bound decides. -/
theorem side_drop {p l : List (Fin r)} (h : side p l = .eq) (a : List (Fin r)) :
    side (p ++ a) l = side a (l.drop p.length) := by
  rcases side_eq_iff.mp h with ⟨m, rfl⟩ | ⟨m, rfl⟩
  · rw [side_append, List.drop_left]
  · rw [List.drop_eq_nil_of_le (by simp), side_nil]
    exact side_eq_iff.mpr (.inr ⟨m ++ a, List.append_assoc _ _ _⟩)

/-- Off the path of the bound, every continuation lies on the same side. -/
theorem compare_of_side {p l : List (Fin r)} (h : side p l ≠ .eq) (k : List (Fin r)) :
    compare (p ++ k) l = side p l := by
  induction p generalizing l with
  | nil => exact absurd (nil_side l) h
  | cons i p ih =>
    cases l with
    | nil => exact absurd (side_nil _) h
    | cons j l =>
      rw [side_cons] at h ⊢
      rw [List.cons_append, List.compare_cons_cons]
      cases hij : compare i j with
      | lt => rfl
      | gt => rfl
      | eq =>
        rw [hij] at h
        exact ih h

/-- What of the bound is left below a stretch on its path. -/
theorem atLeast_drop {p l : List (Fin r)} (h : side p l = .eq) (k : List (Fin r)) :
    atLeast (some l) (p ++ k) = atLeast (some (l.drop p.length)) k := by
  rcases side_eq_iff.mp h with ⟨m, rfl⟩ | ⟨m, rfl⟩
  · rw [List.drop_left, atLeast_append]
  · have hl := atLeast_append l [] (m ++ k)
    rw [List.append_nil] at hl
    rw [List.append_assoc, hl, List.drop_eq_nil_of_le (by simp), atLeast_nil, atLeast_nil]

theorem atLeast_eq (l k : List (Fin r)) : atLeast (some l) k = (compare k l).isGE := by
  unfold atLeast
  rw [Option.all_some, (Std.OrientedCmp.eq_swap : compare k l = _)]
  cases compare l k <;> rfl

/-- The first result over a list, of two functions that agree on its members. -/
theorem findSome_congr {β γ : Type} {f g : β → Option γ} {l : List β} (h : ∀ b ∈ l, f b = g b) :
    l.findSome? f = l.findSome? g := by
  induction l with
  | nil => rfl
  | cons b l ih =>
    rw [List.findSome?_cons, List.findSome?_cons, h b List.mem_cons_self,
      ih fun c hc => h c (List.mem_cons_of_mem _ hc)]

/-- The partner of a member. -/
theorem exists_related {β γ : Type} {R : β → γ → Prop} {l : List β} {m : List γ}
    (h : List.Forall₂ R l m) {b : β} (hb : b ∈ l) : ∃ c ∈ m, R b c := by
  induction h with
  | nil => cases hb
  | cons hR h ih =>
    rcases List.mem_cons.mp hb with rfl | hb
    · exact ⟨_, List.mem_cons_self, hR⟩
    · obtain ⟨c, hc, hbc⟩ := ih hb
      exact ⟨c, List.mem_cons_of_mem _ hc, hbc⟩

/-- The first members that pass, in lists of related members. -/
theorem find_rel {β γ : Type} {R : β → γ → Prop} {l : List β} {m : List γ} {p : β → Bool}
    {q : γ → Bool} (h : List.Forall₂ R l m) (hpq : ∀ {b c}, R b c → p b = q c) :
    Option.Rel R (l.find? p) (m.find? q) := by
  induction h with
  | nil => exact .none
  | cons hR h ih =>
    rw [List.find?_cons, List.find?_cons, hpq hR]
    split
    · exact .some hR
    · exact ih

theorem le_of_mem_drop {i j : Fin r} (h : i ∈ (List.finRange r).drop j) : j ≤ i := by
  obtain ⟨n, hn, rfl⟩ := List.mem_drop_iff_getElem.mp h
  simp [Fin.le_def]

namespace Tree

/-- The first entry whose key is not below the bound. -/
def seek (t : Tree r α) (lo : Option (List (Fin r))) : Option (List (Fin r) × α) :=
  t.toList.find? fun e => atLeast lo e.1

theorem seek_leaf (p : List (Fin r)) (a : α) (lo : Option (List (Fin r))) :
    (leaf p a).seek lo = if atLeast lo p then some (p, a) else none := by
  unfold seek
  rw [toList, List.find?_cons]
  dsimp only
  split
  · rw [if_pos ‹_›]
  · rw [if_neg (by simp [*])]
    rfl

theorem seek_nil (t : Tree r α) : t.seek (some []) = t.seek none := by
  unfold seek
  simp only [atLeast_nil, atLeast_none]

/-- The entries below a stretch, under a bound that they all meet in the same way. -/
theorem find_prefixed (l : List (List (Fin r) × α)) (p : List (Fin r)) {lo lo' : Option (List (Fin r))}
    (h : ∀ k, atLeast lo (p ++ k) = atLeast lo' k) :
    (l.map (prefixed p)).find? (fun e => atLeast lo e.1) =
      (l.find? fun e => atLeast lo' e.1).map (prefixed p) := by
  rw [List.find?_map]
  refine congrArg (Option.map (prefixed p)) (congrArg (List.find? · l) (funext fun e => ?_))
  exact h e.1

theorem seek_ext_none (p : List (Fin r)) (c : Tree r α) :
    (ext p c).seek none = (c.seek none).map (prefixed p) :=
  find_prefixed _ p fun _ => rfl

/-- The stretch is on the path of the bound. -/
theorem seek_ext_on {p l : List (Fin r)} (c : Tree r α) (h : side p l = .eq) :
    (ext p c).seek (some l) = (c.seek (some (l.drop p.length))).map (prefixed p) :=
  find_prefixed _ p fun k => atLeast_drop h k

/-- Everything below the stretch is after the bound. -/
theorem seek_ext_greater {p l : List (Fin r)} (c : Tree r α) (h : side p l = .gt) :
    (ext p c).seek (some l) = (c.seek none).map (prefixed p) :=
  find_prefixed _ p fun k => by
    rw [atLeast_eq, compare_of_side (by rw [h]; decide) k, h]
    rfl

/-- Everything below the stretch is before the bound. -/
theorem seek_ext_less {p l : List (Fin r)} (c : Tree r α) (h : side p l = .lt) :
    (ext p c).seek (some l) = none := by
  unfold seek
  rw [toList, List.find?_eq_none]
  intro e he
  obtain ⟨e', -, rfl⟩ := List.mem_map.mp he
  unfold prefixed
  rw [atLeast_eq, compare_of_side (by rw [h]; decide), h]
  exact Bool.false_ne_true

/-- Without a bound, the parts of a branch in order. -/
theorem seek_branch_none (cs : Fin r → Tree r α) :
    (branch cs).seek none =
      (List.finRange r).findSome? fun i => ((cs i).seek none).map (prefixed [i]) := by
  unfold seek
  rw [toList, List.find?_flatMap]
  exact congrArg (List.findSome? · _) (funext fun i => find_prefixed _ [i] fun _ => rfl)

/-- With a bound, the parts from its first digit on. -/
theorem seek_branch_cons (cs : Fin r → Tree r α) (j : Fin r) (l : List (Fin r)) :
    (branch cs).seek (some (j :: l)) = ((List.finRange r).drop j).findSome? fun i =>
      ((cs i).seek (if j < i then none else some l)).map (prefixed [i]) := by
  have hpart (i : Fin r) (hi : j ≤ i) :
      ((cs i).toList.map (prefixed [i])).find? (fun e => atLeast (some (j :: l)) e.1) =
        ((cs i).seek (if j < i then none else some l)).map (prefixed [i]) := by
    refine find_prefixed _ [i] fun k => ?_
    rcases hi.lt_or_eq with hlt | rfl
    · rw [if_pos hlt]
      unfold atLeast
      rw [Option.all_some, List.singleton_append, compare_of_lt hlt]
      rfl
    · rw [if_neg (lt_irrefl _)]
      exact atLeast_append [j] l k
  have hbefore (i : Fin r) (hi : i < j) :
      ((cs i).toList.map (prefixed [i])).find? (fun e => atLeast (some (j :: l)) e.1) = none := by
    rw [List.find?_eq_none]
    intro e he
    obtain ⟨e', -, rfl⟩ := List.mem_map.mp he
    unfold atLeast prefixed
    rw [Option.all_some, List.singleton_append, (Std.OrientedCmp.eq_swap : compare (j :: l) (i :: e'.1) = _),
      compare_of_lt hi]
    exact Bool.false_ne_true
  unfold seek
  rw [toList, List.find?_flatMap]
  conv_lhs => rw [← List.take_append_drop j (List.finRange r)]
  rw [List.findSome?_append]
  have htake : ((List.finRange r).take j).findSome?
      (fun i => ((cs i).toList.map (prefixed [i])).find? fun e => atLeast (some (j :: l)) e.1) = none := by
    refine List.findSome?_eq_none_iff.mpr fun i hi => hbefore i ?_
    obtain ⟨n, hn, rfl⟩ := List.mem_take_iff_getElem.mp hi
    simpa [Fin.lt_def] using (lt_of_lt_of_le hn (min_le_left _ _))
  rw [htake, Option.none_or]
  exact findSome_congr fun i hi => hpart i (le_of_mem_drop hi)

/-- Trees of one shape, searched for the same key. -/
theorem Alike.seek {β : Type} {R : α → β → Prop} {t : Tree r α} {u : Tree r β} (h : Alike R t u)
    (lo : Option (List (Fin r))) :
    Option.Rel (fun a b => a.1 = b.1 ∧ R a.2 b.2) (t.seek lo) (u.seek lo) :=
  find_rel h.toList fun hab => congrArg (atLeast lo) hab.1

/-- A lookup, in the list of entries. -/
theorem get_eq_find (t : Tree r α) (k : List (Fin r)) :
    t.get k = (t.toList.find? fun e => e.1 = k).map Prod.snd := by
  cases hf : t.toList.find? fun e => e.1 = k with
  | none =>
    cases hg : t.get k with
    | none => rfl
    | some a =>
      have hnot := List.find?_eq_none.mp hf _ (mem_toList.mpr hg)
      exact absurd (decide_eq_true rfl) hnot
  | some e =>
    obtain ⟨k', a⟩ := e
    obtain rfl : k' = k := by simpa using List.find?_some hf
    exact mem_toList.mp (List.mem_of_find?_eq_some hf)

end Tree

end Radix

namespace Ordered

variable {κ K ε β E : Type}

/-- The results of `next`, from a first one on, until it returns nothing. -/
inductive Drains (next : κ → κ × Except E (Option β)) :
    κ × Except E (Option β) → List (Except E β) → Prop
  | done (c : κ) : Drains next (c, .ok none) []
  | yields {c : κ} {bs : List (Except E β)} (b : β) (h : Drains next (next c) bs) :
      Drains next (c, .ok (some b)) (.ok b :: bs)
  | fails {c : κ} {bs : List (Except E β)} (e : E) (h : Drains next (next c) bs) :
      Drains next (c, .error e) (.error e :: bs)

theorem Drains.of_map {next : κ → κ × Except E (Option β)} {c : κ} {bs : List (Except E β)}
    {r : Except E β} (h : Drains next (next c) bs) : Drains next (c, r.map some) (r :: bs) := by
  cases r with
  | ok b => exact .yields b h
  | error e => exact .fails e h

variable [Ord K]

/-- Entries in the order of their keys. -/
def Ascending (key : ε → K) (l : List ε) : Prop := l.Pairwise fun a b => compare (key a) (key b) = .lt

/-- A lookup in an ascending list. -/
theorem Ascending.find [Std.LawfulEqOrd K] [DecidableEq K] {key : ε → K} {l : List ε} (hl : Ascending key l)
    {e : ε} (he : e ∈ l) : l.find? (fun x => key x = key e) = some e := by
  induction hl with
  | nil => cases he
  | @cons a l hlt hl ih =>
    rcases List.mem_cons.mp he with rfl | he
    · rw [List.find?_cons_of_pos (by simp)]
    · rw [List.find?_cons_of_neg, ih he]
      rw [decide_eq_true_eq]
      intro heq
      have := hlt e he
      rw [heq, Std.ReflOrd.compare_self] at this
      cases this

/-- An ascending list is determined by its lookups. -/
theorem Ascending.eq_of_find [Std.TransOrd K] [Std.LawfulEqOrd K] [DecidableEq K] {key : ε → K} {l m : List ε}
    (hl : Ascending key l) (hm : Ascending key m)
    (h : ∀ k, l.find? (fun e => key e = k) = m.find? fun e => key e = k) : l = m := by
  have hmem {l m : List ε} (hl : Ascending key l) (h : ∀ k, l.find? (fun e => key e = k) = m.find? fun e => key e = k)
      {e : ε} (he : e ∈ l) : e ∈ m := by
    have := hl.find he
    rw [h] at this
    exact List.mem_of_find?_eq_some this
  have hnodup {l : List ε} (hl : Ascending key l) : l.Nodup := by
    refine hl.imp fun {a b} hlt hab => ?_
    rw [hab, Std.ReflOrd.compare_self] at hlt
    cases hlt
  have hperm := (List.perm_ext_iff_of_nodup (hnodup hl) (hnodup hm)).mpr fun e =>
    ⟨hmem hl h, hmem hm fun k => (h k).symm⟩
  refine hperm.eq_of_pairwise (fun a b _ _ hab hba => ?_) hl hm
  rw [(Std.OrientedCmp.eq_swap : compare (key b) (key a) = _), hab] at hba
  cases hba

/-- Related entries in the same order. -/
theorem Ascending.of_forall₂ {δ : Type} {key : ε → K} {l : List ε} {m : List δ} {R : ε → δ → Prop}
    (h : List.Forall₂ R l m) {lt : δ → δ → Prop} (hm : m.Pairwise lt)
    (hR : ∀ {a b x y}, R a x → R b y → lt x y → compare (key a) (key b) = .lt) : Ascending key l := by
  induction h with
  | nil => exact .nil
  | cons hax h ih =>
    obtain ⟨hx, hm⟩ := List.pairwise_cons.mp hm
    refine .cons (fun b hb => ?_) (ih hm)
    obtain ⟨y, hy, hby⟩ := Radix.exists_related h hb
    exact hR hax hby (hx y hy)

/-- The first entry whose key is not below the target. -/
def firstFrom (key : ε → K) (l : List ε) (k : K) : Option ε := l.find? fun e => (compare k (key e)).isLE

/-- A seek finds the first entry that is not below its target, and stands there. -/
structure Seeks (key : ε → K) (out : ε → Except E β) (l : List ε) (fit : κ → Prop)
    (last : κ → Option K) (seek : κ → K → κ × Except E (Option β)) : Prop where
  keeps : ∀ {c}, fit c → ∀ k, fit (seek c k).1
  last : ∀ {c}, fit c → ∀ k, last (seek c k).1 = (firstFrom key l k).map key
  result : ∀ {c}, fit c → ∀ k,
    (seek c k).2 = (firstFrom key l k).elim (.ok none) fun e => (out e).map some

/-- The next key up. -/
structure Successor (succ : K → Option K) : Prop where
  some : ∀ {k k'}, succ k = some k' → ∀ j, (compare k' j).isLE ↔ compare k j = .lt
  none : ∀ {k}, succ k = none → ∀ j, compare k j ≠ .lt

/-- `next` seeks the successor of the key that the cursor stands at. -/
structure Advances (succ : K → Option K) (last : κ → Option K) (seek : κ → K → κ × Except E (Option β))
    (next : κ → κ × Except E (Option β)) : Prop where
  stop : ∀ {c k}, last c = some k → succ k = none → (next c).2 = .ok none
  go : ∀ {c k k'}, last c = some k → succ k = some k' → next c = seek c k'

variable {key : ε → K} {out : ε → Except E β} {l : List ε} {fit : κ → Prop} {last : κ → Option K}
  {seek : κ → K → κ × Except E (Option β)} {next : κ → κ × Except E (Option β)} {succ : K → Option K}

omit [Ord K] in
theorem Drains.of_none {r : κ × Except E (Option β)} (h : r.2 = .ok none) : Drains next r [] := by
  obtain ⟨c, r⟩ := r
  cases h
  exact .done c

/-- The keys above that of one entry are those of the entries behind it. -/
theorem firstFrom_successor [Std.TransOrd K] {l1 l2 : List ε} {e : ε}
    (hl : Ascending key (l1 ++ e :: l2)) {k : K} (hk : ∀ j, (compare k j).isLE ↔ compare (key e) j = .lt) :
    firstFrom key (l1 ++ e :: l2) k = l2.head? := by
  unfold Ascending at hl
  obtain ⟨-, hl2, hl12⟩ := List.pairwise_append.mp hl
  have hnot {x : ε} (hx : compare (key e) (key x) ≠ .lt) : ¬(compare k (key x)).isLE = true :=
    fun h => hx ((hk _).mp h)
  have hself : compare (key e) (key e) ≠ .lt := by
    rw [Std.ReflOrd.compare_self]
    exact nofun
  unfold firstFrom
  rw [List.find?_append, List.find?_eq_none.mpr fun x hx => hnot ?_, Option.none_or,
    show (e :: l2).find? _ = l2.find? _ from List.find?_cons_of_neg (hnot hself)]
  · cases l2 with
    | nil => rfl
    | cons x l2 =>
      exact List.find?_cons_of_pos ((hk _).mpr (List.rel_of_pairwise_cons hl2 List.mem_cons_self))
  · rw [(Std.OrientedCmp.eq_swap : compare (key e) (key x) = _), hl12 x hx e List.mem_cons_self]
    exact nofun

/-- From an entry on, a seek and `next` yield the rest. -/
theorem Seeks.drains_suffix [Std.TransOrd K] (hs : Seeks key out l fit last seek)
    (hl : Ascending key l) (hsucc : Successor succ) (hnext : Advances succ last seek next)
    {l1 l2 : List ε} (he : l = l1 ++ l2) {c : κ} (hc : fit c) {k : K}
    (hfirst : firstFrom key l k = l2.head?) : Drains next (seek c k) (l2.map out) := by
  induction l2 generalizing l1 c k with
  | nil => exact .of_none (by rw [hs.result hc, hfirst]; rfl)
  | cons e l2 ih =>
    have hresult := hs.result hc k
    have hlast := hs.last hc k
    have hgood := hs.keeps hc k
    rw [hfirst] at hresult hlast
    generalize seek c k = res at hresult hlast hgood ⊢
    obtain ⟨c', r⟩ := res
    obtain rfl : r = (out e).map some := hresult
    refine .of_map ?_
    have hord := hl
    rw [he] at hord
    cases hk : succ (key e) with
    | none =>
      cases l2 with
      | nil => exact .of_none (hnext.stop hlast hk)
      | cons x l2 =>
        have hx := List.rel_of_pairwise_cons (List.pairwise_append.mp hord).2.1 List.mem_cons_self
        exact absurd hx (hsucc.none hk _)
    | some k' =>
      rw [hnext.go hlast hk]
      have hsplit : l = (l1 ++ [e]) ++ l2 := by
        rw [he, List.append_assoc]
        rfl
      refine ih hsplit hgood ?_
      rw [he]
      exact firstFrom_successor hord (hsucc.some hk)

/-- An ascending list ends with the entries that are not below a key. -/
theorem Ascending.exists_append_filter [Std.TransOrd K] (hl : Ascending key l) (k : K) :
    ∃ l1, l = l1 ++ l.filter fun e => (compare k (key e)).isLE := by
  induction hl with
  | nil => exact ⟨[], rfl⟩
  | @cons a l hlt hl ih =>
    by_cases ha : (compare k (key a)).isLE
    · refine ⟨[], ?_⟩
      rw [List.nil_append, List.filter_eq_self.mpr]
      intro e he
      rcases List.mem_cons.mp he with rfl | he
      · exact ha
      · exact Std.TransCmp.isLE_trans ha (by rw [hlt e he]; rfl)
    · obtain ⟨l1, h1⟩ := ih
      refine ⟨a :: l1, ?_⟩
      rw [List.filter_cons, if_neg ha, List.cons_append, ← h1]

/-- **A seek of any key, and `next` until it returns nothing, yield every entry from that key
on, in order.** -/
theorem Seeks.drains [Std.TransOrd K] (hs : Seeks key out l fit last seek) (hl : Ascending key l)
    (hsucc : Successor succ) (hnext : Advances succ last seek next) {c : κ} (hc : fit c) (k : K) :
    Drains next (seek c k) ((l.filter fun e => (compare k (key e)).isLE).map out) := by
  obtain ⟨l1, h1⟩ := hl.exists_append_filter k
  exact hs.drains_suffix hl hsucc hnext h1 hc List.head?_filter.symm

/-- From a least key on, that is every entry. -/
theorem Seeks.drains_all [Std.TransOrd K] (hs : Seeks key out l fit last seek) (hl : Ascending key l)
    (hsucc : Successor succ) (hnext : Advances succ last seek next) {c : κ} (hc : fit c) {zero : K}
    (hzero : ∀ k, (compare zero k).isLE) : Drains next (seek c zero) (l.map out) := by
  have h := hs.drains hl hsucc hnext hc zero
  rwa [List.filter_eq_self.mpr fun e _ => hzero (key e)] at h

end Ordered
