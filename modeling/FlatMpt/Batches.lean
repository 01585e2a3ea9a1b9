import FlatMpt.SimulateBatch
import FlatMpt.Blocks

/-!
# Batches on the frontier

A batch keeps the frontier in shape and leaves the last value written under each key:
keys inserted one after the other, a worker for each slot of a top branch, or groups
folded into the records they route to and put back in their slots.

    lastWrite, Wrote        -- the values a list of writes leaves
    insertBatchRam_shows    -- in RAM-build mode
    batchAlone_shows        -- over records on disk
-/

namespace FlatMpt

open Prog
open Radix (Tree)
open Radix.Tree (Canon)

/-! ## Writes -/

/-- The value last written under a key. -/
def lastWrite (leaves : List (Key × Bytes)) (p : List Nibble) : Option Bytes :=
  (leaves.reverse.find? fun e => keyNibbles e.1 = p).map Prod.snd

section
variable {leaves leaves' : List (Key × Bytes)} {p : List Nibble} {v : Bytes}

theorem lastWrite_append (leaves leaves' : List (Key × Bytes)) (p : List Nibble) :
    lastWrite (leaves ++ leaves') p = (lastWrite leaves' p).or (lastWrite leaves p) := by
  unfold lastWrite
  rw [List.reverse_append, List.find?_append, Option.map_or]

theorem lastWrite_single (e : Key × Bytes) (p : List Nibble) :
    lastWrite [e] p = if keyNibbles e.1 = p then some e.2 else none := by
  unfold lastWrite
  rw [List.reverse_singleton, List.find?_singleton]
  by_cases h : keyNibbles e.1 = p
  · rw [if_pos (decide_eq_true h), if_pos h]
    rfl
  · rw [if_neg (by simp [h]), if_neg h]
    rfl

theorem lastWrite_eq_some (h : lastWrite leaves p = some v) :
    ∃ e ∈ leaves, keyNibbles e.1 = p ∧ e.2 = v := by
  obtain ⟨e, he, rfl⟩ := Option.map_eq_some_iff.mp h
  have hk := List.find?_some he
  exact ⟨e, List.mem_reverse.mp (List.mem_of_find?_eq_some he), of_decide_eq_true hk, rfl⟩

theorem lastWrite_eq_none : lastWrite leaves p = none ↔ ∀ e ∈ leaves, keyNibbles e.1 ≠ p := by
  unfold lastWrite
  rw [Option.map_eq_none_iff, List.find?_eq_none]
  simp

/-- With each key once, the order of the writes does not matter. -/
theorem lastWrite_iff (hn : (leaves.map Prod.fst).Nodup) :
    lastWrite leaves p = some v ↔ ∃ e ∈ leaves, keyNibbles e.1 = p ∧ e.2 = v := by
  refine ⟨lastWrite_eq_some, ?_⟩
  rintro ⟨e, he, rfl, rfl⟩
  cases h : lastWrite leaves (keyNibbles e.1) with
  | none => exact absurd rfl (lastWrite_eq_none.mp h e he)
  | some w =>
    obtain ⟨e', he', hk, rfl⟩ := lastWrite_eq_some h
    rw [List.inj_on_of_nodup_map hn he' he (keyNibbles_injective hk)]

theorem lastWrite_perm (hn : (leaves.map Prod.fst).Nodup) (hp : leaves.Perm leaves') (p : List Nibble) :
    lastWrite leaves p = lastWrite leaves' p := by
  refine Option.ext fun v => ?_
  rw [lastWrite_iff hn, lastWrite_iff ((hp.map _).nodup_iff.mp hn)]
  simp only [hp.mem_iff]

theorem getElem?_foldl_insert (entries : List (Key × Bytes)) (m : Std.TreeMap Key Bytes compare) (k : Key) :
    (entries.foldl (fun m e => m.insert e.1 e.2) m)[k]? = (lastWrite entries (keyNibbles k)).or m[k]? := by
  induction entries generalizing m with
  | nil => rfl
  | cons e entries ih =>
    have hcons : e :: entries = [e] ++ entries := rfl
    rw [List.foldl_cons, ih, hcons, lastWrite_append, Option.or_assoc, lastWrite_single,
      Std.TreeMap.getElem?_insert]
    refine congrArg (Option.or _) ?_
    by_cases hk : e.1 = k
    · rw [if_pos (by rw [hk]; exact Std.ReflCmp.compare_self), if_pos (by rw [hk])]
      rfl
    · rw [if_neg fun h => hk (Std.LawfulEqCmp.compare_eq_iff_eq.mp h),
        if_neg fun h => hk (keyNibbles_injective h)]
      rfl

theorem mem_dedupLeaves_iff (entries : List (Key × Bytes)) (k : Key) (v : Bytes) :
    (k, v) ∈ dedupLeaves entries ↔ lastWrite entries (keyNibbles k) = some v := by
  unfold dedupLeaves
  rw [Std.TreeMap.mem_toList_iff_getElem?_eq_some, getElem?_foldl_insert]
  simp

theorem dedupLeaves_nodup (entries : List (Key × Bytes)) : ((dedupLeaves entries).map Prod.fst).Nodup := by
  unfold dedupLeaves
  refine List.pairwise_map.mpr (Std.TreeMap.distinct_keys_toList.imp fun hne he => hne ?_)
  rw [he]
  exact Std.ReflCmp.compare_self

/-- Deduplicated, the writes leave the same. -/
theorem lastWrite_dedupLeaves (entries : List (Key × Bytes)) (p : List Nibble) :
    lastWrite (dedupLeaves entries) p = lastWrite entries p := by
  refine Option.ext fun v => ?_
  rw [lastWrite_iff (dedupLeaves_nodup entries)]
  constructor
  · rintro ⟨⟨k, w⟩, he, rfl, rfl⟩
    exact (mem_dedupLeaves_iff entries k w).mp he
  · intro h
    obtain ⟨e, -, rfl, rfl⟩ := lastWrite_eq_some h
    exact ⟨e, (mem_dedupLeaves_iff entries e.1 e.2).mpr h, rfl, rfl⟩

end

/-- `t'` is the tree `t` at `q` with the writes carried out. -/
def Wrote (q : List Nibble) (leaves : List (Key × Bytes)) (t t' : Tree 16 StateLeaf) : Prop :=
  ∀ p, t'.get p = (lastWrite leaves (q ++ p)).elim (t.get p) fun v => some (.raw v)

section
variable {q : List Nibble} {leaves leaves' : List (Key × Bytes)} {t t1 t' : Tree 16 StateLeaf}

theorem Wrote.nil (q : List Nibble) (t : Tree 16 StateLeaf) : Wrote q [] t t := fun _ => rfl

theorem Wrote.append (h : Wrote q leaves t t1) (h' : Wrote q leaves' t1 t') :
    Wrote q (leaves ++ leaves') t t' := by
  intro p
  rw [h' p, h p, lastWrite_append]
  cases lastWrite leaves' (q ++ p) <;> rfl

theorem Wrote.cons {e : Key × Bytes} (h : Wrote q [e] t t1) (h' : Wrote q leaves t1 t') :
    Wrote q (e :: leaves) t t' := h.append h'

theorem Wrote.perm (hn : (leaves.map Prod.fst).Nodup) (hp : leaves.Perm leaves') (h : Wrote q leaves t t') :
    Wrote q leaves' t t' := by
  intro p
  rw [h p, lastWrite_perm hn hp]

/-- One key set to a value. -/
theorem Wrote.of_puts {key : Key} {rest : List Nibble} {v : Bytes} (hk : keyNibbles key = q ++ rest)
    (h : Puts t rest (some (.raw v)) t') : Wrote q [(key, v)] t t' := by
  intro p
  rw [h p, lastWrite_single]
  dsimp only
  by_cases hp : p = rest
  · rw [if_pos hp, if_pos (by rw [hp]; exact hk)]
    rfl
  · rw [if_neg hp, if_neg fun he => hp (List.append_cancel_left (he.symm.trans hk))]
    rfl

end

/-! ## Keys apart -/

/-- No other path of `S` shares the first 63 nibbles. -/
def ApartFrom (S : Set (List Nibble)) (path : List Nibble) : Prop :=
  ∀ p ∈ S, p.take 63 = path.take 63 → p = path

/-- The keys of the tree at `q` are among `S`. -/
def Inside {α : Type} (S : Set (List Nibble)) (q : List Nibble) (t : Tree 16 α) : Prop :=
  ∀ p a, t.get p = some a → q ++ p ∈ S

section
variable {α : Type} {S : Set (List Nibble)} {q rest : List Nibble} {t t' : Tree 16 α}

theorem Inside.put {v : Option α} (h : Inside S q t) (hk : q ++ rest ∈ S) (hp : Puts t rest v t') :
    Inside S q t' := by
  intro p a hpa
  rw [hp p] at hpa
  split at hpa
  next he => rwa [he]
  next => exact h p a hpa

theorem Inside.child {ts : Nibble → Tree 16 α} (h : Inside S q (.branch ts)) (i : Nibble) :
    Inside S (q ++ [i]) (ts i) := fun p a hp => by
  rw [List.append_assoc]
  exact h (i :: p) a hp

theorem inside_branch {ts : Nibble → Tree 16 α} (h : ∀ i, Inside S (q ++ [i]) (ts i)) :
    Inside S q (.branch ts) := by
  intro p a hp
  cases p with
  | nil => cases hp
  | cons i p =>
    have := h i p a hp
    rwa [List.append_assoc] at this

variable [Keccak] {K : Kind α}

theorem Inside.apart (h : Inside S q t) (hk : ApartFrom S (q ++ rest)) : K.Apart q rest t :=
  fun _ k a hka htake => List.append_cancel_left (hk _ (h k a hka) htake)

end

/-- Values that can be written, under keys of `S` apart from the others. -/
def Values (S : Set (List Nibble)) (leaves : List (Key × Bytes)) : Prop :=
  ∀ e ∈ leaves, (keyNibbles e.1 ∈ S ∧ ApartFrom S (keyNibbles e.1)) ∧ ShortValue e.2

section
variable {S : Set (List Nibble)} {leaves : List (Key × Bytes)}

theorem Values.tail {e : Key × Bytes} (h : Values S (e :: leaves)) : Values S leaves :=
  fun x hx => h x (List.mem_cons_of_mem _ hx)

theorem Values.sub {leaves' : List (Key × Bytes)} (h : Values S leaves)
    (hsub : ∀ e ∈ leaves', e ∈ leaves) : Values S leaves' := fun e he => h e (hsub e he)

theorem mem_leavesOf {i : Nibble} {e : Key × Bytes} (h : e ∈ leavesOf leaves i) :
    e ∈ leaves ∧ ∃ rest, keyNibbles e.1 = [i] ++ rest := by
  obtain ⟨he, hi⟩ := List.mem_filter.mp h
  refine ⟨he, (keyNibbles e.1).tail, ?_⟩
  cases hk : keyNibbles e.1 with
  | nil =>
    rw [hk] at hi
    cases hi
  | cons j r =>
    rw [hk, List.head?_cons, decide_eq_true_eq] at hi
    cases hi
    rfl

variable [Keccak] {env : Env} {q rest : List Nibble} {t : Tree 16 StateLeaf} {n : RamNode}
  {key : Key} {value : Bytes} {ram : Bool}

/-! ## One key after the other -/

theorem stateKind_within_root : stateKind.Within [] := fun _ => by decide

theorem leafInsert_value {o : Option StateLeaf} {b : StateLeaf} (h : leafInsert (.value value) o = .ok b) :
    b = .raw value := by
  rcases o with _ | ⟨v⟩ | ⟨n, c, d, s⟩
  · cases h
    rfl
  · cases h
    rfl
  · cases h

/-- What a value leaves of the frontier. -/
theorem insertValue_shows (hk : keyNibbles key ∈ S ∧ ApartFrom S (keyNibbles key)) (hv : ShortValue value)
    (h : Shows stateKind [] n t) (hin : Inside S [] t) :
    Updates (insertRam env n [] key (.value value) ram) fun n' _ =>
      ∃ t', Shows stateKind [] n' t' ∧ Inside S [] t' ∧ Wrote [] [(key, value)] t t' := by
  have hins : Updates (insertRam env n (stateKind.root ++ []) key (.value value) ram) _ :=
    insertRam_shows (inserts_state (show LeafOp.Short (.value value) from hv)) n h (.inl rfl) stateKind_within_root
      (hin.apart hk.2) rfl
  refine hins.mono ?_
  rintro n' _ ⟨b, hb, t', hn, hp, -⟩
  obtain rfl := leafInsert_value hb
  exact ⟨t', hn, hin.put hk.1 hp, .of_puts rfl hp⟩

theorem insertSerial_shows (leaves : List (Key × Bytes)) (hl : Values S leaves)
    (h : Shows stateKind [] n t) (hin : Inside S [] t) :
    Updates (insertSerial env ram leaves n) fun n' _ =>
      ∃ t', Shows stateKind [] n' t' ∧ Inside S [] t' ∧ Wrote [] leaves t t' := by
  induction leaves generalizing n t with
  | nil => exact .ok ⟨t, h, hin, .nil [] t⟩
  | cons e leaves ih =>
    obtain ⟨key, value⟩ := e
    obtain ⟨hk, hv⟩ := hl _ List.mem_cons_self
    unfold insertSerial
    refine (insertValue_shows hk hv h hin).thenUpd (fun _ _ => .error _ _) ?_
    rintro n' _ ⟨t', h', hin', hw⟩
    refine (ih hl.tail h' hin').mono ?_
    rintro _ _ ⟨t1, h1, hin1, hw1⟩
    exact ⟨t1, h1, hin1, hw.cons hw1⟩

theorem insertBucket_shows {i : Nibble} (leaves : List (Key × Bytes))
    (hl : Values S leaves) (hi : ∀ e ∈ leaves, ∃ rest, keyNibbles e.1 = [i] ++ rest) {s : RamSlot}
    (h : ShowsSlot stateKind [i] s t) (hin : Inside S [i] t) :
    Updates (insertBucket env [i] leaves s) fun s' _ =>
      ∃ t', ShowsSlot stateKind [i] s' t' ∧ Inside S [i] t' ∧ Wrote [i] leaves t t' := by
  induction leaves generalizing s t with
  | nil => exact .ok ⟨t, h, hin, .nil [i] t⟩
  | cons e leaves ih =>
    obtain ⟨key, value⟩ := e
    obtain ⟨hk, hv⟩ := hl _ List.mem_cons_self
    obtain ⟨rest, hrest⟩ := hi _ List.mem_cons_self
    dsimp only at hrest hk
    rw [hrest] at hk
    have hw : stateKind.Within [i] := fun _ => by
      rw [List.length_singleton]
      decide
    have hins : Updates (insertIntoChild env s (stateKind.root ++ [i]) key (.value value) true) _ :=
      insertIntoChild_shows (inserts_state (show LeafOp.Short (.value value) from hv)) s h (by simp) hw
        (hin.apart hk.2) hrest
    unfold insertBucket
    refine Updates.thenUpd hins (fun _ _ => .error _ _) ?_
    rintro s' _ ⟨b, t', hb, hs, hp⟩
    obtain rfl := leafInsert_value hb
    refine (ih hl.tail (fun e he => hi e (List.mem_cons_of_mem _ he)) hs (hin.put hk.1 hp)).mono ?_
    rintro _ _ ⟨t1, h1, hin1, hw1⟩
    exact ⟨t1, h1, hin1, (Wrote.of_puts hrest hp).cons hw1⟩

/-! ## RAM-build mode -/

omit [Keccak] in
/-- One key first. -/
theorem perm_cons_filter (hn : (leaves.map Prod.fst).Nodup) (he : (key, value) ∈ leaves) :
    ((key, value) :: leaves.filter fun e => e.1 ≠ key).Perm leaves := by
  induction leaves with
  | nil => cases he
  | cons e leaves ih =>
    obtain ⟨hnot, hn'⟩ := List.nodup_cons.mp hn
    by_cases hk : e.1 = key
    · obtain rfl : e = (key, value) := by
        rcases List.mem_cons.mp he with h | h
        · exact h.symm
        · exact absurd (hk ▸ List.mem_map_of_mem h) hnot
      have hall : leaves.filter (fun e => decide (e.1 ≠ key)) = leaves := by
        refine List.filter_eq_self.mpr fun x hx => decide_eq_true fun h => hnot ?_
        show key ∈ _
        rw [← h]
        exact List.mem_map_of_mem hx
      rw [List.filter_cons_of_neg (by simp), hall]
    · rw [List.filter_cons_of_pos (by simpa using hk)]
      rcases List.mem_cons.mp he with rfl | he
      · exact absurd rfl hk
      · exact (List.Perm.swap _ _ _).trans ((ih hn' he).cons e)

omit [Keccak] in
/-- The writes of a slot. -/
theorem lastWrite_leavesOf (leaves : List (Key × Bytes)) (i : Nibble) (p : List Nibble) :
    lastWrite (leavesOf leaves i) (i :: p) = lastWrite leaves (i :: p) := by
  unfold lastWrite leavesOf
  rw [← List.filter_reverse, List.find?_filter]
  refine congrArg (fun f => (leaves.reverse.find? f).map Prod.snd) (funext fun e => ?_)
  by_cases h : keyNibbles e.1 = i :: p
  · simp [h]
  · simp [h]

theorem insertFanned_shows (hl : Values S leaves) (h : Shows stateKind [] n t)
    (hin : Inside S [] t) : Updates (insertFanned env leaves n) fun n' _ =>
      ∃ t', Shows stateKind [] n' t' ∧ Inside S [] t' ∧ Wrote [] leaves t t' := by
  cases h with
  | empty => exact insertSerial_shows leaves hl .empty hin
  | extension hp hb hc h hh => exact insertSerial_shows leaves hl (.extension hp hb hc h hh) hin
  | @branch _ slots ts hash hq hs hh =>
    have hbucket (i : Nibble) : Updates (insertBucket env [i] (leavesOf leaves i) (slots i))
        fun s' _ => ∃ t', ShowsSlot stateKind [i] s' t' ∧ Inside S [i] t' ∧
          Wrote [i] (leavesOf leaves i) (ts i) t' :=
      insertBucket_shows _ (hl.sub fun e he => (mem_leavesOf he).1) (fun e he => (mem_leavesOf he).2)
        (hs i) (hin.child i)
    refine Updates.fan fun rs hrs => Updates.pure fun u hu => ?_
    cases hj : joinAll (List.ofFn fun i => (rs i).2) with
    | error e =>
      rw [hj] at hu
      cases hu
    | ok us =>
      have hslot (i : Nibble) : ∃ t', ShowsSlot stateKind [i] (rs i).1 t' ∧ Inside S [i] t' ∧
          Wrote [i] (leavesOf leaves i) (ts i) t' := by
        obtain ⟨u, heq⟩ := joinAll_each hj i
        rw [hrs i] at heq ⊢
        exact hbucket i u heq
      choose ts' hts' hins hws using hslot
      refine ⟨.branch ts', .branch hq hts' (.none _), inside_branch hins, fun p => ?_⟩
      cases p with
      | nil =>
        have hnone : lastWrite leaves [] = none :=
          lastWrite_eq_none.mpr fun e _ he => by
            have := congrArg List.length he
            rw [keyNibbles_length] at this
            cases this
        rw [List.nil_append, hnone]
        rfl
      | cons i p =>
        show (ts' i).get p = (lastWrite leaves (i :: p)).elim ((ts i).get p) _
        rw [hws i p, ← lastWrite_leavesOf leaves i p]
        rfl

theorem insertBatchRam_shows (hn : (leaves.map Prod.fst).Nodup) (hl : Values S leaves)
    (h : Shows stateKind [] n t) (hin : Inside S [] t) : Updates (insertBatchRam env leaves n) fun n' _ =>
      ∃ t', Shows stateKind [] n' t' ∧ Inside S [] t' ∧ Wrote [] leaves t t' := by
  unfold insertBatchRam
  split
  · exact insertFanned_shows hl h hin
  · cases hb : bootstrapKey leaves with
    | none => exact insertFanned_shows hl h hin
    | some e =>
      obtain ⟨key, value⟩ := e
      have he : (key, value) ∈ leaves := by
        obtain ⟨i, -, hi⟩ := List.exists_of_findSome?_eq_some hb
        exact (mem_leavesOf (List.mem_of_getLast? hi)).1
      refine (insertValue_shows (hl _ he).1 (hl _ he).2 h hin).thenUpd (fun _ _ => .error _ _) ?_
      rintro n' _ ⟨t', h', hin', hw⟩
      refine (insertFanned_shows (hl.sub fun e he => (List.mem_filter.mp he).1) h' hin').mono ?_
      rintro n1 _ ⟨t1, h1, hin1, hw1⟩
      have hperm := perm_cons_filter hn he
      exact ⟨t1, h1, hin1, (hw.cons hw1).perm ((hperm.map _).nodup_iff.mpr hn) hperm⟩

/-! ## Records of groups -/

theorem recordNodeInsert_value {op : LeafOp} (hop : op.Short) {u : Tree 16 StateLeaf} {node' : Node}
    (h : stateKind.Records q u) (hlen : q.length + rest.length = 64)
    (hi : recordNodeInsert (toNode stateLeaf u) rest op = .ok node') :
    ∃ b u', leafInsert op (u.get rest) = .ok b ∧ node' = toNode stateLeaf u' ∧ stateKind.Records q u' ∧
      Puts u rest (some b) u' := by
  have hput : RecordPut q u rest (u.get rest) (toNode stateLeaf u) := by
    refine ⟨u, rfl, h, fun p => ?_⟩
    split
    next hp => rw [hp]
    next => rfl
  obtain ⟨b, hb, u', hnode, hr, hp⟩ := hput.insert hlen hop hi
  exact ⟨b, u', hb, hnode, hr, hp⟩

/-- The values of a group in its record. -/
theorem insertValues_shows (keys : List (Key × Bytes)) (hl : Values S keys)
    (hq : ∀ e ∈ keys, ∃ rest, keyNibbles e.1 = q ++ rest) {u : Tree 16 StateLeaf} {node : Node}
    (h : stateKind.Records q u) (hin : Inside S q u) (hu : u ≠ .empty)
    (hi : insertValues q.length keys (toNode stateLeaf u) = .ok node) :
    ∃ u', node = toNode stateLeaf u' ∧ stateKind.Records q u' ∧ Inside S q u' ∧ u' ≠ .empty ∧
      Wrote q keys u u' := by
  induction keys generalizing u with
  | nil =>
    cases hi
    exact ⟨u, rfl, h, hin, hu, .nil q u⟩
  | cons e keys ih =>
    obtain ⟨key, value⟩ := e
    obtain ⟨hk, hv⟩ := hl _ List.mem_cons_self
    obtain ⟨rest, hrest⟩ := hq _ List.mem_cons_self
    dsimp only at hk hrest
    obtain ⟨node', hnode', hi⟩ := bind_ok hi
    rw [hrest, List.drop_left] at hnode'
    obtain ⟨b, u', hb, rfl, hr, hp⟩ := recordNodeInsert_value (show LeafOp.Short (.value value) from hv) h
      (key_length hrest) hnode'
    obtain rfl := leafInsert_value hb
    obtain ⟨u1, hnode, hr1, hin1, hu1, hw1⟩ := ih hl.tail (fun e he => hq e (List.mem_cons_of_mem _ he)) hr
      (hin.put (hrest ▸ hk.1) hp) hp.ne_empty hi
    exact ⟨u1, hnode, hr1, hin1, hu1, (Wrote.of_puts hrest hp).cons hw1⟩

/-- What a folded group holds. -/
def FoldsTo (q : List Nibble) (u : Tree 16 StateLeaf) : GroupOut → Prop
  | .promoted slot => ShowsSlot stateKind q slot u
  | .leaf payload root => Recorded stateKind q u payload root

theorem foldGroup_shows {keys : List (Key × Bytes)} (hl : Values S keys)
    (hq : ∀ e ∈ keys, ∃ rest, keyNibbles e.1 = q ++ rest) {u : Tree 16 StateLeaf} (ptr : DiskPtr)
    (h : stateKind.Records q u) (hin : Inside S q u) (hu : u ≠ .empty) :
    Yields (foldGroup env ptr ⟨q, toNode stateLeaf u⟩ keys) fun out =>
      ∃ u', u' ≠ .empty ∧ Inside S q u' ∧ Wrote q keys u u' ∧ FoldsTo q u' out := by
  unfold foldGroup
  refine Yields.attempt (Yields.pure fun node hn => insertValues_shows keys hl hq h hin hu hn) ?_
  rintro _ ⟨u', rfl, hr, hin', hu', hw⟩
  dsimp only
  split
  · exact .step ((promoteToRam_shows liftsLeaves_state false hr rfl).attempt fun slot hs =>
      .ok ⟨u', hu', hin', hw, hs⟩)
  · refine Yields.attempt (P := fun payload => serializeSubtree ⟨q, toNode stateLeaf u'⟩ = .ok payload)
      (Yields.pure fun payload hs => hs) fun payload hs => .step (.ok ⟨u', hu', hin', hw, ?_⟩)
    exact ⟨hs, rfl, hr.length, hr.canon, hu', hr.fit⟩

/-- A group folded into its record. -/
theorem foldAlone_shows {keys : List (Key × Bytes)} (hl : Values S keys)
    (hq : ∀ e ∈ keys, ∃ rest, keyNibbles e.1 = q ++ rest) {u : Tree 16 StateLeaf} {payload : Bytes}
    {root : Hash} (h : Recorded stateKind q u payload root) (hin : Inside S q u) {slot : RamSlot}
    (hf : foldAlone env payload keys = .ok slot) :
    ∃ u', u' ≠ .empty ∧ ShowsSlot stateKind q slot u' ∧ Inside S q u' ∧ Wrote q keys u u' := by
  obtain ⟨out, hout, hslot⟩ := bind_ok hf
  have hyields : Yields (attempt (.pure (deserializeSubtree payload)) .error fun subtree =>
      foldGroup env (named payload) subtree keys) fun out =>
        ∃ u', u' ≠ .empty ∧ Inside S q u' ∧ Wrote q keys u u' ∧ FoldsTo q u' out := by
    refine (yields_record h).attempt ?_
    rintro _ rfl
    exact foldGroup_shows hl hq _ h.records hin h.ne_empty
  obtain ⟨u', hu', hin', hw, hto⟩ := hyields out hout
  refine ⟨u', hu', ?_, hin', hw⟩
  cases out with
  | promoted s =>
    cases hslot
    exact hto
  | leaf payload' root' =>
    change (if _ then _ else _) = _ at hslot
    split at hslot
    · cases hslot
    · cases hslot
      exact shows_named hto

end

/-! ## Records put back -/

section
variable [Keccak] {α : Type} {K : Kind α}

/-- `t'` is `t` with `u` in place of what was below `p`. -/
def Grafts (p : List Nibble) (u t t' : Tree 16 α) : Prop :=
  ∀ k, (∀ r, k = p ++ r → t'.get k = u.get r) ∧ ((∀ r, k ≠ p ++ r) → t'.get k = t.get k)

omit [Keccak] in
theorem Grafts.inside {S : Set (List Nibble)} {q p : List Nibble} {u t t' : Tree 16 α} (h : Grafts p u t t')
    (ht : Inside S q t) (hu : Inside S (q ++ p) u) : Inside S q t' := by
  intro k a hk
  obtain ⟨hin, hout⟩ := h k
  by_cases hp : ∃ r, k = p ++ r
  · obtain ⟨r, rfl⟩ := hp
    rw [hin r rfl] at hk
    rw [← List.append_assoc]
    exact hu r a hk
  · rw [hout fun r hr => hp ⟨r, hr⟩] at hk
    exact ht k a hk

/-- What a replacement below `p` leaves of a node. -/
def ReplacesNode (K : Kind α) (q p : List Nibble) (t u : Tree 16 α) (m : RamNode) : Prop :=
  ∃ t', Shows K q m t' ∧ Grafts p u t t' ∧ t' ≠ .empty ∧
    (Tree.IsBranch t → Tree.IsBranch t') ∧ (Canon (64 - q.length) t → Canon (64 - q.length) t')

def ReplacesSlot (K : Kind α) (q p : List Nibble) (t u : Tree 16 α) (s : RamSlot) : Prop :=
  ∃ t', ShowsSlot K q s t' ∧ Grafts p u t t' ∧ t' ≠ .empty

/-- The record at the end of a route. -/
def RecordAt (K : Kind α) (q p : List Nibble) (t : Tree 16 α) (ptr : DiskPtr) : Prop :=
  ∃ root u, Recorded K (q ++ p) u (nameOf ptr) root ∧ ∀ r, u.get r = t.get (p ++ r)

omit [Keccak] in
theorem Grafts.below {path p : List Nibble} {u t t' : Tree 16 α} (h : Grafts p u t t') :
    Grafts (path ++ p) u (.ext path t) (.ext path t') := by
  intro k
  refine ⟨fun r hr => ?_, fun hne => ?_⟩
  · rw [hr, List.append_assoc, Tree.get_ext_append, (h _).1 r rfl]
  · by_cases hk : ∃ k', k = path ++ k'
    · obtain ⟨k', rfl⟩ := hk
      rw [Tree.get_ext_append, Tree.get_ext_append]
      exact (h k').2 fun r hr => hne r (by rw [hr, List.append_assoc])
    · have hnone (c : Tree 16 α) : (Tree.ext path c).get k = none := by
        cases hg : (Tree.ext path c).get k with
        | none => rfl
        | some a =>
          obtain ⟨k', hk', -⟩ := Tree.get_ext_eq_some hg
          exact absurd ⟨k', hk'⟩ hk
      rw [hnone, hnone]

omit [Keccak] in
theorem Grafts.branch {p : List Nibble} {i : Nibble} {ts : Nibble → Tree 16 α} {u t' : Tree 16 α}
    (h : Grafts p u (ts i) t') : Grafts (i :: p) u (.branch ts) (.branch (Function.update ts i t')) := by
  intro k
  cases k with
  | nil => exact ⟨fun r hr => (by cases hr), fun _ => rfl⟩
  | cons j k =>
    show (∀ r, j :: k = i :: (p ++ r) → (Function.update ts i t' j).get k = u.get r) ∧
      ((∀ r, j :: k ≠ i :: (p ++ r)) → (Function.update ts i t' j).get k = (ts j).get k)
    by_cases hj : j = i
    · subst hj
      rw [Function.update_self]
      exact ⟨fun r hr => (h k).1 r (List.cons.inj hr).2, fun hne => (h k).2 fun r hr => hne r (by rw [hr])⟩
    · rw [Function.update_of_ne hj]
      exact ⟨fun r hr => absurd (List.cons.inj hr).1 hj, fun _ => rfl⟩

mutual

/-- A key that routes to a record has its slot replaced. -/
theorem installAtKey_shows (n : RamNode) {q k p : List Nibble} {t : Tree 16 α} (h : Shows K q n t)
    (hr : routeKey n k = some p) :
    ∃ ptr, findDiskPtrKey n k = some ptr ∧ RecordAt K q p t ptr ∧ (∃ r, k = p ++ r) ∧
      ∀ s u, u ≠ .empty → ShowsSlot K (q ++ p) s u →
        ∃ m, installAtKey n k s = some m ∧ ReplacesNode K q p t u m := by
  match n with
  | .empty => cases hr
  | .extension path child hash =>
    cases h with
    | @extension _ _ _ t _ hp hb hcc hch hh =>
    unfold routeKey at hr
    split at hr
    next hpath =>
      obtain ⟨p, hp', rfl⟩ := Option.map_eq_some_iff.mp hr
      obtain ⟨r, rfl⟩ := List.isPrefixOf_iff_prefix.mp hpath
      rw [List.drop_left] at hp'
      obtain ⟨ptr, hptr, ⟨root, u, hrec, hin⟩, ⟨r', rfl⟩, hput⟩ := installAtKey_shows child hch hp'
      rw [List.append_assoc] at hrec hput
      refine ⟨ptr, ?_, ⟨root, u, hrec, fun r => ?_⟩, ⟨r', (List.append_assoc ..).symm⟩, ?_⟩
      · unfold findDiskPtrKey
        rw [if_pos hpath, List.drop_left, hptr]
      · rw [hin r, List.append_assoc, Tree.get_ext_append]
      · intro s u' hu' hs
        obtain ⟨m, hm, t', hn, hin', ht', hbr, hcan⟩ := hput s u' hu' hs
        refine ⟨.extension path m none, ?_, .ext path t', ?_, ?_, nofun, nofun, ?_⟩
        · unfold installAtKey
          rw [List.drop_left, hm]
          rfl
        · exact .extension hp (hbr hb) (hcan hcc) hn (.none _)
        · exact hin'.below
        · intro hc
          have hlen := isBranch_length_lt hb hcc
          rw [List.length_append] at hlen
          exact .ext hp (by rw [List.length_append]; omega) (hbr hb) (hcan hcc)
    next => cases hr
  | .branch slots hash =>
    cases h with
    | @branch _ _ ts _ hq hs hh =>
    unfold routeKey at hr
    cases k with
    | nil => cases hr
    | cons i k =>
      obtain ⟨p, hp, rfl⟩ := Option.map_eq_some_iff.mp hr
      obtain ⟨ptr, hptr, ⟨root, u, hrec, hin⟩, ⟨r, rfl⟩, hput⟩ := installAtSlot_shows (slots i) (hs i) hp
      rw [List.append_assoc] at hrec hput
      refine ⟨ptr, hptr, ⟨root, u, hrec, hin⟩, ⟨r, rfl⟩, ?_⟩
      intro s u' hu' hsu
      obtain ⟨m, hm, t', hsl, hin', ht'⟩ := hput s u' hu' hsu
      have hslots := showsSlot_update (fun l _ => hs l) hsl
      refine ⟨.branch (Function.update slots i m) none, ?_, .branch (Function.update ts i t'),
        .branch hq hslots (.none _), ?_, nofun, fun _ => ⟨_⟩, fun hc =>
          canon_branch hq (fun l => (hslots l).canon) ?_⟩
      · unfold installAtKey
        dsimp only
        rw [hm]
        rfl
      · exact hin'.branch
      · cases hc with
        | branch _ _ h2 => exact Tree.twoChildren_update h2 i ht'

theorem installAtSlot_shows (slot : RamSlot) {q k p : List Nibble} {t : Tree 16 α}
    (h : ShowsSlot K q slot t) (hr : routeSlotKey slot k = some p) :
    ∃ ptr, findSlotPtrKey slot k = some ptr ∧ RecordAt K q p t ptr ∧ (∃ r, k = p ++ r) ∧
      ∀ s u, u ≠ .empty → ShowsSlot K (q ++ p) s u →
        ∃ m, installAtSlot slot k s = some m ∧ ReplacesSlot K q p t u m := by
  match slot with
  | .none => cases hr
  | .ram child =>
    cases h with
    | ram hc ht h =>
      obtain ⟨ptr, hptr, hrec, hk, hput⟩ := installAtKey_shows child h hr
      refine ⟨ptr, hptr, hrec, hk, fun s u hu hs => ?_⟩
      obtain ⟨m, hm, t', hn, hin, ht', -, hcan⟩ := hput s u hu hs
      refine ⟨.ram m, ?_, t', .ram (hcan hc) ht' hn, hin, ht'⟩
      unfold installAtSlot
      rw [hm]
      rfl
  | .disk ptr root =>
    cases h with
    | disk h =>
      cases hr
      rw [List.append_nil]
      refine ⟨ptr, rfl, ⟨root, t, by rwa [List.append_nil], fun r => rfl⟩,
        ⟨k, rfl⟩, fun s u hu hs => ⟨s, rfl, u, hs, fun k => ⟨fun r hr => by rw [hr, List.nil_append], ?_⟩, hu⟩⟩
      exact fun hne => absurd rfl (hne k)
  | .mem bytes root => cases hr
  | .account .. => cases hr

end

end

/-! ## Routes of a group -/

section
variable {n m : RamNode} {g : Multiset Rec}

/-- Records that share a unit are in one slot. -/
theorem route_of_unit (h : Placed n m g) (hg : Scattered g) {k k' p p' : List Nibble}
    {ptr ptr' : DiskPtr} (hp : routeKey n k = some p) (hp' : routeKey n k' = some p')
    (hk : findDiskPtrKey n k = some ptr) (hk' : findDiskPtrKey n k' = some ptr')
    (hunit : ptr.unit = ptr'.unit) : p = p' := by
  by_contra hne
  obtain ⟨q, b, rest, hq, -, -, rfl, hput⟩ := installAtKey_placed h hp
  obtain ⟨n1, m1, hn1, -, h1⟩ := hput .none .none 0 .none
  rw [zero_add] at h1
  obtain ⟨n2, hn2, hkeep⟩ := installAtKey_route n hp .none
  obtain rfl : n1 = n2 := Option.some.inj (hn1.symm.trans hn2)
  obtain ⟨hr, hf⟩ := hkeep k' p' hp' hne
  obtain ⟨q', b', rest', hq', -, -, rfl, -⟩ := installAtKey_placed h1 hr
  rw [hf, hk'] at hq'
  rw [hk] at hq
  cases hq
  cases hq'
  have happ : ptr.Apart ptr' := hg (ptr, b) (ptr', b') (by
    rw [← add_assoc]
    exact Multiset.le_add_right _ _)
  have h1 := unit_pos ptr
  have h2 := unit_pos ptr'
  rcases happ with h | h <;> omega

theorem mem_keys_addToGroup {ptr : DiskPtr} {e x : Key × Bytes} {gs : List Group} {a : Group}
    (ha : a ∈ addToGroup ptr e gs) (hx : x ∈ a.keys) :
    (x = e ∧ a.ptr.unit = ptr.unit) ∨ ∃ b ∈ gs, x ∈ b.keys ∧ a.ptr.unit = b.ptr.unit := by
  induction gs with
  | nil =>
    rw [addToGroup, List.mem_singleton] at ha
    subst ha
    exact .inl ⟨List.mem_singleton.mp hx, rfl⟩
  | cons g gs ih =>
    unfold addToGroup at ha
    split at ha
    next hunit =>
      rcases List.mem_cons.mp ha with rfl | ha
      · rcases List.mem_append.mp hx with hx | hx
        · exact .inr ⟨g, List.mem_cons_self, hx, rfl⟩
        · exact .inl ⟨List.mem_singleton.mp hx, hunit⟩
      · exact .inr ⟨a, List.mem_cons_of_mem _ ha, hx, rfl⟩
    next =>
      rcases List.mem_cons.mp ha with rfl | ha
      · exact .inr ⟨a, List.mem_cons_self, hx, rfl⟩
      · rcases ih ha with h | ⟨b, hb, h⟩
        · exact .inl h
        · exact .inr ⟨b, List.mem_cons_of_mem _ hb, h⟩

theorem keys_addToGroup (ptr : DiskPtr) (e : Key × Bytes) (gs : List Group) :
    ((addToGroup ptr e gs).flatMap Group.keys).Perm (gs.flatMap Group.keys ++ [e]) := by
  induction gs with
  | nil => exact .refl _
  | cons g gs ih =>
    unfold addToGroup
    split
    · rw [List.flatMap_cons, List.flatMap_cons, List.append_assoc, List.append_assoc]
      exact List.perm_append_comm.append_left g.keys
    · rw [List.flatMap_cons, List.flatMap_cons, List.append_assoc]
      exact ih.append_left g.keys

/-- Each write is in one group or fresh. -/
theorem groupsOf_perm (n : RamNode) (leaves : List (Key × Bytes)) :
    ((groupsOf n leaves).1.flatMap Group.keys ++ (groupsOf n leaves).2).Perm leaves := by
  induction leaves using List.reverseRecOn with
  | nil => exact .refl _
  | append_singleton leaves e ih =>
    cases hf : findDiskPtrKey n (keyNibbles e.1) with
    | none =>
      have hstep : groupsOf n (leaves ++ [e]) = ((groupsOf n leaves).1, (groupsOf n leaves).2 ++ [e]) := by
        unfold groupsOf
        rw [List.foldl_append, List.foldl_cons, List.foldl_nil, hf]
      rw [hstep, ← List.append_assoc]
      exact ih.append_right [e]
    | some ptr =>
      have hstep : groupsOf n (leaves ++ [e]) =
          (addToGroup ptr e (groupsOf n leaves).1, (groupsOf n leaves).2) := by
        unfold groupsOf
        rw [List.foldl_append, List.foldl_cons, List.foldl_nil, hf]
      rw [hstep]
      refine ((keys_addToGroup ptr e _).append_right _).trans ?_
      rw [List.append_assoc]
      refine (List.perm_append_comm.append_left _).trans ?_
      rw [← List.append_assoc]
      exact ih.append_right [e]

/-- The keys of a group route to its record's slot. -/
theorem groupsOf_keys (n : RamNode) (leaves : List (Key × Bytes)) :
    (∀ a ∈ (groupsOf n leaves).1, ∀ e ∈ a.keys, e ∈ leaves ∧
      ∃ ptr, findDiskPtrKey n (keyNibbles e.1) = some ptr ∧ ptr.unit = a.ptr.unit) ∧
    ∀ e ∈ (groupsOf n leaves).2, e ∈ leaves := by
  let Good (acc : List Group × List (Key × Bytes)) : Prop :=
    (∀ a ∈ acc.1, ∀ e ∈ a.keys, e ∈ leaves ∧
      ∃ ptr, findDiskPtrKey n (keyNibbles e.1) = some ptr ∧ ptr.unit = a.ptr.unit) ∧
    ∀ e ∈ acc.2, e ∈ leaves
  unfold groupsOf
  refine List.foldlRecOn leaves _ (motive := Good)
    ⟨fun a ha => absurd ha List.not_mem_nil, fun e he => absurd he List.not_mem_nil⟩
    fun acc h e he => ?_
  cases hf : findDiskPtrKey n (keyNibbles e.1) with
  | none =>
    refine ⟨h.1, fun x hx => ?_⟩
    rcases List.mem_append.mp hx with hx | hx
    · exact h.2 x hx
    · rwa [List.mem_singleton.mp hx]
  | some ptr =>
    refine ⟨fun a ha x hx => ?_, h.2⟩
    rcases mem_keys_addToGroup ha hx with ⟨rfl, hu⟩ | ⟨b, hb, hx, hu⟩
    · exact ⟨he, ptr, hf, hu.symm⟩
    · rw [hu]
      exact h.1 b hb x hx

end

section
variable [Keccak] {S : Set (List Nibble)} {env : Env} {n m : RamNode} {g : Multiset Rec}
  {t : Tree 16 StateLeaf}

omit [Keccak] in
/-- The writes of a group, grafted. -/
theorem Wrote.graft {p : List Nibble} {keys : List (Key × Bytes)} {u u' t' : Tree 16 StateLeaf}
    (hkeys : ∀ e ∈ keys, ∃ r, keyNibbles e.1 = p ++ r) (hu : ∀ r, u.get r = t.get (p ++ r))
    (h : Wrote p keys u u') (hg : Grafts p u' t t') : Wrote [] keys t t' := by
  intro k
  rw [List.nil_append]
  by_cases hk : ∃ r, k = p ++ r
  · obtain ⟨r, rfl⟩ := hk
    rw [(hg _).1 r rfl, h r, hu r]
  · have hnone : lastWrite keys k = none := lastWrite_eq_none.mpr fun e he heq => by
      obtain ⟨r, hr⟩ := hkeys e he
      exact hk ⟨r, heq.symm.trans hr⟩
    rw [(hg k).2 fun r hr => hk ⟨r, hr⟩, hnone]
    rfl

/-- The results of the groups put back, one after the other. -/
theorem installResults_shows (xs : List Loaded) (path : Key → List Nibble) {slots : List RamSlot}
    (hslots : (xs.mapM fun x => foldAlone env x.2 x.1.keys) = .ok slots)
    (hx : ∀ x ∈ xs, findDiskPtrKey m (keyNibbles x.1.rep) = some (named x.2) ∧ Values S x.1.keys ∧
      ∀ e ∈ x.1.keys, ∃ r, keyNibbles e.1 = path x.1.rep ++ r)
    (hr : Routed m path (xs.map fun x => x.1.rep)) (h : Shows stateKind [] m t)
    (hin : Inside S [] t) :
    ∃ t', Shows stateKind [] (installResults ((xs.map fun x => x.1.rep).zip slots) m) t' ∧
      Inside S [] t' ∧ Wrote [] (xs.flatMap fun x => x.1.keys) t t' := by
  induction xs generalizing m t slots with
  | nil => exact ⟨t, by cases hslots; exact h, hin, .nil [] t⟩
  | cons x xs ih =>
    rw [List.mapM_cons] at hslots
    obtain ⟨slot, hslot, hslots⟩ := bind_ok hslots
    obtain ⟨rest, hrest, hslots⟩ := bind_ok hslots
    cases hslots
    obtain ⟨hptr, hvals, hkeys⟩ := hx x List.mem_cons_self
    have hroute : routeKey m (keyNibbles x.1.rep) = some (path x.1.rep) :=
      hr.route _ List.mem_cons_self
    obtain ⟨ptr, hptr', ⟨root, u, hrec, hu⟩, -, hput⟩ := installAtKey_shows m h hroute
    rw [hptr] at hptr'
    cases hptr'
    rw [nameOf_named, List.nil_append] at hrec
    have hinu : Inside S (path x.1.rep) u := fun r a hr => hin (path x.1.rep ++ r) a (hu r ▸ hr)
    obtain ⟨u', hu', hs, hin', hw⟩ := foldAlone_shows hvals hkeys hrec hinu hslot
    obtain ⟨m', hm', t', hn, hgraft, -, -, -⟩ := hput slot u' hu' (by rwa [List.nil_append])
    obtain ⟨m2, hm2, hr', hkeep⟩ := hr.cons slot
    obtain rfl : m' = m2 := Option.some.inj (hm'.symm.trans hm2)
    have hins : installResults (((x :: xs).map fun x => x.1.rep).zip (slot :: rest)) m =
        installResults ((xs.map fun x => x.1.rep).zip rest) m' :=
      installResults_cons (x.1.rep, slot) _ hm'
    rw [hins]
    have hnext : ∀ y ∈ xs, findDiskPtrKey m' (keyNibbles y.1.rep) = some (named y.2) ∧
        Values S y.1.keys ∧ ∀ e ∈ y.1.keys, ∃ r, keyNibbles e.1 = path y.1.rep ++ r := by
      intro y hy
      obtain ⟨hy1, hy2, hy3⟩ := hx y (List.mem_cons_of_mem _ hy)
      refine ⟨?_, hy2, hy3⟩
      rw [hkeep _ (List.mem_map_of_mem hy)]
      exact hy1
    obtain ⟨t1, h1, hin1, hw1⟩ := ih hrest hnext hr' hn (hgraft.inside hin (by rwa [List.nil_append]))
    exact ⟨t1, h1, hin1, (hw.graft hkeys hu hgraft).append hw1⟩

/-- **A batch over records on disk.** -/
theorem batchAlone_shows (h : Placed n m g) (hg : Scattered g)
    {pay : DiskPtr → Bytes} (hpay : ∀ x ∈ g, pay x.1 = x.2) {leaves : List (Key × Bytes)}
    (hnd : (leaves.map Prod.fst).Nodup) (hl : Values S leaves) (hm : Shows stateKind [] m t) (hin : Inside S [] t) {m' : RamNode}
    (hb : batchAlone env (load pay (groupsOf n leaves).1) (groupsOf n leaves).2 m = .ok m') :
    ∃ t', Shows stateKind [] m' t' ∧ Inside S [] t' ∧ Wrote [] leaves t t' := by
  obtain ⟨slots, hslots, hb⟩ := bind_ok hb
  have hgroup := groupsOf_grouped n leaves
  obtain ⟨hkeys, hfresh⟩ := groupsOf_keys n leaves
  obtain ⟨-, -, hnamed⟩ := hgroup.recs h hg hpay
  have hrouted := hgroup.routed
  have hrep : ∀ a ∈ (groupsOf n leaves).1, routeKey n (keyNibbles a.rep) = some (pathIn n a.rep) :=
    fun a ha => hrouted.route _ (List.mem_map_of_mem ha)
  have hroute {k p : List Nibble} (hk : routeKey n k = some p) : routeKey m k = some p := by
    obtain ⟨ptr, b, rest, -, -, hr, -⟩ := installAtKey_placed h hk
    exact hr
  have hpre : ∀ a ∈ (groupsOf n leaves).1, ∀ e ∈ a.keys,
      ∃ r, keyNibbles e.1 = pathIn n a.rep ++ r := by
    intro a ha e he
    obtain ⟨-, ptr, hptr, hunit⟩ := hkeys a ha e he
    have hsome : (routeKey n (keyNibbles e.1)).isSome := by
      rw [routeKey_isSome, hptr]
      rfl
    obtain ⟨p, hp⟩ := Option.isSome_iff_exists.mp hsome
    obtain rfl : p = pathIn n a.rep :=
      route_of_unit h hg hp (hrep a ha) hptr (hgroup.rep a ha) hunit
    obtain ⟨-, -, -, hr, -⟩ := installAtKey_shows m hm (hroute hp)
    exact hr
  have hreps : ((load pay (groupsOf n leaves).1).map fun x => x.1.rep) =
      (groupsOf n leaves).1.map Group.rep := List.map_map ..
  obtain ⟨t1, h1, hin1, hw1⟩ := installResults_shows (S := S) _ (pathIn n) hslots (by
      intro x hx
      obtain ⟨a, ha, rfl⟩ := List.mem_map.mp hx
      exact ⟨hnamed a ha, fun e he => hl e (hkeys a ha e he).1, hpre a ha⟩)
    (by
      rw [hreps]
      exact ⟨fun k hk => hroute (hrouted.route k hk), hrouted.apart⟩) hm hin
  dsimp only at hb
  cases hv : (value ideal (insertSerial env false (groupsOf n leaves).2
      (installResults (((load pay (groupsOf n leaves).1).map fun x => x.1.rep).zip slots) m))).2 with
  | error e =>
    rw [hv] at hb
    cases hb
  | ok u =>
    rw [hv] at hb
    cases hb
    obtain ⟨t2, h2, hin2, hw2⟩ := insertSerial_shows _ (fun e he => hl e (hfresh e he)) h1 hin1 u hv
    have hperm := groupsOf_perm n leaves
    have hkeysOf : ((load pay (groupsOf n leaves).1).flatMap fun x => x.1.keys) =
        (groupsOf n leaves).1.flatMap Group.keys := List.flatMap_map ..
    rw [hkeysOf] at hw1
    exact ⟨t2, h2, hin2, (hw1.append hw2).perm ((hperm.map _).nodup_iff.mpr hnd) hperm⟩

end

end FlatMpt
