import FlatMpt.Kinds

/-!
# Insertion sets a key

A single insert sets the leaf at its key and leaves every other key, and the frontier
still shows the tree.  Below an account's path the walk counts the depth anew, so a slot
must not stand at the full length of a key: no other account key may agree with the new
one on its first 63 nibbles.

    Tree.Puts         -- one key set
    Kind.Apart        -- no key but this one shares its first 63 nibbles
    Kind.Inserts      -- an operation that inserts
    insertRam_shows   -- the descent, by induction on the frontier
-/

namespace FlatMpt

open Prog
open Radix (Tree commonPrefix)
open Radix.Tree (Canon)

/-! ## One key -/

/-- `t'` is `t` with the key `k` set to `v`, or cleared. -/
def Puts {α : Type} (t : Tree 16 α) (k : List Nibble) (v : Option α) (t' : Tree 16 α) : Prop :=
  ∀ p, t'.get p = if p = k then v else t.get p

section
variable {α : Type} {t t' : Tree 16 α} {k : List Nibble} {v : Option α}

theorem puts_put {n : Nat} (ht : Canon n t) (hk : k.length = n) : Puts t k v (t.put n k v) :=
  fun _ => Tree.get_put ht hk _ _

theorem Puts.ne_empty {b : α} (h : Puts t k (some b) t') : t' ≠ .empty :=
  Tree.ne_empty_of_get (h k |>.trans (if_pos rfl))

theorem Puts.branch {ts : Nibble → Tree 16 α} {i : Nibble} (h : Puts (ts i) k v t') :
    Puts (.branch ts) (i :: k) v (.branch (Function.update ts i t')) :=
  Tree.get_branch_update ts i t' h

theorem Puts.prepend {p : List Nibble} (h : Puts t k v t') :
    Puts (Tree.prepend p t) (p ++ k) v (Tree.prepend p t') := by
  intro r
  by_cases hr : ∃ r', r = p ++ r'
  · obtain ⟨r', rfl⟩ := hr
    rw [Tree.get_prepend_append, Tree.get_prepend_append, h]
    simp only [List.append_cancel_left_eq]
  · rw [Tree.get_prepend_of_off fun r' hr' => hr ⟨r', hr'⟩,
      Tree.get_prepend_of_off fun r' hr' => hr ⟨r', hr'⟩, if_neg]
    rintro rfl
    exact hr ⟨k, rfl⟩

end

section
variable [Keccak] {α : Type} {K : Kind α} {env : Env} {q rest : List Nibble} {t : Tree 16 α}
  {key : Key} {op : LeafOp} {g : Option α → Except Err α} {ram : Bool}

/-! ## Depths -/

/-- A position whose depth the walk counts right. -/
def Kind.Within (K : Kind α) (q : List Nibble) : Prop := K.root = [] → q.length < 64

/-- No other key shares the first 63 nibbles, in the state trie. -/
def Kind.Apart (K : Kind α) (q rest : List Nibble) (t : Tree 16 α) : Prop :=
  K.root = [] → ∀ k a, t.get k = some a → (q ++ k).take 63 = (q ++ rest).take 63 → k = rest

theorem Kind.Within.walkDepth (h : K.Within q) : walkDepth (K.root ++ q) = q.length := by
  unfold FlatMpt.walkDepth
  rcases K.root_length with hr | hr
  · rw [hr, List.nil_append, if_neg (by have := h hr; omega)]
  · rw [List.length_append, hr, if_pos (by omega)]
    omega

theorem Kind.localDepth (K : Kind α) (hq : q ≠ []) (hlen : q.length ≤ 64) :
    localDepth (K.root ++ q) = q.length := by
  have hpos := List.length_pos_of_ne_nil hq
  unfold FlatMpt.localDepth
  rcases K.root_length with hr | hr
  · rw [hr, List.nil_append, if_neg (by omega)]
  · rw [List.length_append, hr, if_pos (by omega)]
    omega

theorem Kind.Within.drop (h : K.Within q) (hk : keyNibbles key = q ++ rest) :
    (keyNibbles key).drop (FlatMpt.walkDepth (K.root ++ q)) = rest := by
  rw [h.walkDepth, hk, List.drop_left]

theorem Kind.Within.head (h : K.Within q) (hk : keyNibbles key = q ++ rest) :
    (keyNibbles key)[FlatMpt.walkDepth (K.root ++ q)]? = rest.head? := by
  rw [h.walkDepth, hk, List.getElem?_append_right (le_refl _), Nat.sub_self, List.head?_eq_getElem?]

omit [Keccak] in
theorem key_length (hk : keyNibbles key = q ++ rest) : q.length + rest.length = 64 := by
  rw [← List.length_append, ← hk, keyNibbles_length]

theorem Kind.Apart.child {ts : Nibble → Tree 16 α} {i : Nibble}
    (h : K.Apart q (i :: rest) (.branch ts)) : K.Apart (q ++ [i]) rest (ts i) := by
  intro hr k a hk hq
  rw [List.append_assoc, List.append_assoc] at hq
  exact (List.cons.inj (h hr (i :: k) a hk hq)).2

theorem Kind.Apart.below {path : List Nibble} (h : K.Apart q (path ++ rest) (.ext path t)) :
    K.Apart (q ++ path) rest t := by
  intro hr k a hk hq
  rw [List.append_assoc, List.append_assoc] at hq
  exact List.append_cancel_left (h hr (path ++ k) a (by rw [Tree.get_ext_append, hk]) hq)

/-- Where the key parts from another one, the depth is counted right. -/
theorem Kind.Apart.within {c k r : List Nibble} {i j : Nibble} {a : α}
    (h : K.Apart q (c ++ j :: r) t) (hk : t.get (c ++ i :: k) = some a) (hij : i ≠ j)
    (hlen : q.length + (c ++ j :: r).length = 64) : K.Within (q ++ c ++ [j]) := by
  intro hr
  rw [List.length_append, List.length_append, List.length_singleton]
  rw [List.length_append, List.length_cons] at hlen
  by_contra hlt
  have hqc : (q ++ c).length = 63 := by
    rw [List.length_append]
    omega
  have htake (l : List Nibble) : (q ++ (c ++ l)).take 63 = q ++ c := by
    rw [← List.append_assoc, ← hqc, List.take_left]
  have := h hr _ a hk ((htake _).trans (htake _).symm)
  exact hij (List.cons.inj (List.append_cancel_left this)).1

theorem Kind.Apart.child_within {ts : Nibble → Tree 16 α} {i : Nibble}
    (h : K.Apart q (i :: rest) (.branch ts)) (hc : q = [] ∨ Canon (64 - q.length) (.branch ts))
    (hlen : q.length + (i :: rest).length = 64) : K.Within (q ++ [i]) := by
  obtain rfl | hc := hc
  · intro _
    rw [List.nil_append, List.length_singleton]
    decide
  · obtain ⟨i1, i2, k, l, a, b, hne, h1, h2⟩ := hc.branch_parts
    have hin {j : Nibble} {k : List Nibble} {a : α} (hj : j ≠ i)
        (hk : (Tree.branch ts).get ([] ++ j :: k) = some a) : K.Within (q ++ [i]) := by
      have := Kind.Apart.within h hk hj hlen
      rwa [List.append_nil] at this
    by_cases hi : i1 = i
    · exact hin (fun hj => hne (hi.trans hj.symm)) h2
    · exact hin hi h1

/-! ## New leaves -/

/-- An insert at the promoted account it names. -/
def insertPromoted (env : Env) (key : Key) (op : LeafOp) (path : List Nibble) (nonce : UInt64)
    (balance : U256) (codeHash : Hash) (storage : RamNode) : Upd RamSlot Unit :=
  match op with
  | .storage slot value =>
    thenUpd (insertRam env storage (keyNibbles key) slot (.value value) false) fun storage r =>
    .pure (.account path nonce balance codeHash storage, r)
  | .account nonce balance codeHash => .pure (.account path nonce balance codeHash storage, .ok ())
  | .value _ => .pure (.account path nonce balance codeHash storage, .error .valueOnPromoted)

/-- What an insert needs of its kind: new leaves, the leaf at the key in a record, and
the leaf promoted into the frontier. -/
structure Kind.Inserts (K : Kind α) (env : Env) (op : LeafOp) (g : Option α → Except Err α) :
    Prop where
  lifts : K.Lifts env
  place : ∀ p, placeNew op p = (g none).map (K.form.node p)
  apply : ∀ p a, applyOp op (K.form.node p a) p = (g (some a)).map (K.form.node p)
  fits : ∀ {o b}, g o = .ok b → (∀ a, o = some a → K.fits a) → K.fits b
  promoted : ∀ {key path nonce balance codeHash storage a},
    K.lone (K.root ++ keyNibbles key) nonce balance codeHash storage a → K.fits a →
    Updates (insertPromoted env key op path nonce balance codeHash storage) fun s _ =>
      ∃ b nonce balance codeHash storage, g (some a) = .ok b ∧
        s = .account path nonce balance codeHash storage ∧
        K.lone (K.root ++ keyNibbles key) nonce balance codeHash storage b

theorem Kind.Records.leaf (hq : q.length ≤ 64) (hrest : q.length + rest.length = 64) {b : α}
    (hb : K.fits b) : K.Records q (.leaf rest b) := by
  refine ⟨hq, .leaf (by omega), fun k a hk => ?_⟩
  rw [Tree.get_leaf] at hk
  split at hk
  · cases hk
    exact hb
  · cases hk

theorem placeLeaf_shows (hI : K.Inserts env op g) (hw : K.Within q)
    (hk : keyNibbles key = q ++ rest) : Yields (placeLeaf env ram (K.root ++ q) key op) fun s =>
      ∃ b, g none = .ok b ∧ ShowsSlot K q s (.leaf rest b) := by
  have hlen := key_length hk
  unfold placeLeaf
  rw [hw.drop hk, hI.place]
  have hnew : Yields (.pure ((g none).map (K.form.node rest))) fun n =>
      ∃ b, g none = .ok b ∧ n = toNode K.form (.leaf rest b) := by
    intro n hn
    change (g none).map _ = .ok n at hn
    cases hg : g none with
    | error e =>
      rw [hg] at hn
      cases hn
    | ok b =>
      rw [hg] at hn
      cases hn
      exact ⟨b, rfl, rfl⟩
  refine hnew.attempt ?_
  rintro n ⟨b, hb, rfl⟩
  exact (makeLeafChild_shows (.leaf (by omega) hlen (hI.fits hb nofun)) nofun rfl ram).mono
    fun s hs => ⟨b, hb, hs⟩

/-! ## Forks -/

omit [Keccak] in
theorem isBranch_length_lt (hb : Tree.IsBranch t) (hc : Canon (64 - q.length) t) : q.length < 64 := by
  cases hb
  cases hc with
  | branch hn _ _ => omega

theorem showsSlot_pair {i j : Nibble} {a b : RamSlot} {t u : Tree 16 α}
    (ha : ShowsSlot K (q ++ [i]) a t) (hb : ShowsSlot K (q ++ [j]) b u) (l : Nibble) :
    ShowsSlot K (q ++ [l]) (Function.update (Function.update emptyChildren i a) j b l)
      (Tree.pair i t j u l) := by
  refine showsSlot_update (fun l hl => ?_) hb l
  exact showsSlot_update (fun _ _ => .none) ha l

theorem underCommon_shows {c r : List Nibble} {slots : Nibble → RamSlot} {ts : Nibble → Tree 16 α}
    (hc : Canon (64 - (q ++ c).length) (.branch ts))
    (h : ∀ i, ShowsSlot K (q ++ c ++ [i]) (slots i) (ts i)) :
    Shows K q (underCommon (c ++ r) c.length slots) (Tree.prepend c (.branch ts)) := by
  have hlen : (q ++ c).length < 64 := by
    cases hc with
    | branch hn _ _ => omega
  unfold underCommon
  by_cases hcn : c = []
  · subst hcn
    rw [List.append_nil] at h hlen
    rw [Tree.prepend_nil, if_pos List.length_nil]
    exact .branch hlen h (.none _)
  · rw [Tree.prepend, if_neg (mt List.eq_nil_of_length_eq_zero hcn), if_neg hcn, List.take_left]
    exact .extension hcn ⟨ts⟩ hc (.branch hlen h (.none _)) (.none _)

/-- A frontier node of the tree with one key set, or cleared. -/
def ShowsPut (K : Kind α) (q : List Nibble) (t : Tree 16 α) (rest : List Nibble) (v : Option α)
    (n : RamNode) : Prop :=
  ∃ t', Shows K q n t' ∧ Puts t rest v t' ∧
    (t ≠ .empty → Canon (64 - q.length) t → Canon (64 - q.length) t')

/-- A new leaf parting from a slot of the frontier. -/
theorem fork_shows {c p r : List Nibble} {i j : Nibble} {old new : RamSlot} {b : α}
    (hij : i ≠ j) (ht : t ≠ .empty) (hc : Canon (64 - (q ++ (c ++ i :: p)).length) t)
    (hq : (q ++ (c ++ i :: p)).length ≤ 64) (hlen : q.length + (c ++ j :: r).length = 64)
    (hold : ShowsSlot K (q ++ c ++ [i]) old (Tree.prepend p t))
    (hnew : ShowsSlot K (q ++ c ++ [j]) new (.leaf r b)) (x : List Nibble) :
    ShowsPut K q (Tree.prepend (c ++ i :: p) t) (c ++ j :: r) (some b)
      (underCommon (c ++ x) c.length
        (Function.update (Function.update emptyChildren i old) j new)) := by
  simp only [List.length_append, List.length_cons] at hc hq hlen
  have hold' : Canon r.length (Tree.prepend p t) := hc.prepend p (by omega)
  have hpair : Canon (64 - (q ++ c).length)
      (.branch (Tree.pair i (Tree.prepend p t) j (.leaf r b))) := by
    rw [List.length_append]
    exact .branch (by omega) (Tree.canon_pair hold' (.leaf rfl))
      (Tree.twoChildren_pair hij (by simpa using ht) (by simp))
  exact ⟨Tree.fork c i p t j (.leaf r b), underCommon_shows hpair (showsSlot_pair hold hnew),
    Tree.get_fork_leaf hij, fun _ _ =>
      Canon.fork hc (.leaf rfl) hij ht (by simp) (by omega) (by omega)⟩

/-! ## Records -/

theorem Kind.Records.put (h : K.Records q t) (hlen : q.length + rest.length = 64) {v : Option α}
    (hv : ∀ b, v = some b → K.fits b) : K.Records q (t.put (64 - q.length) rest v) := by
  refine ⟨h.length, Tree.canon_put .., fun k a hk => ?_⟩
  rw [puts_put h.canon (by omega) k] at hk
  split at hk
  · exact hv a hk
  · exact h.fit k a hk

theorem Recorded.records {bytes : Bytes} {root : Hash} (h : Recorded K q t bytes root) :
    K.Records q t := ⟨h.length, h.canon, h.fit⟩

/-- An insert in a record. -/
theorem yields_recordInsert (hI : K.Inserts env op g) (h : K.Records q t) (hq : q ≠ [])
    (hk : keyNibbles key = q ++ rest) :
    Yields (.pure (recordNodeInsert (toNode K.form t)
        ((keyNibbles key).drop (localDepth (K.root ++ q))) op)) fun n =>
      ∃ b t', g (t.get rest) = .ok b ∧ n = toNode K.form t' ∧ K.Records q t' ∧
        Puts t rest (some b) t' := by
  have hlen := key_length hk
  rw [K.localDepth hq h.length, hk, List.drop_left, recordNodeInsert,
    nodeInsert_toNode K.form h.canon (by omega) _ _ g hI.place hI.apply]
  intro n hn
  change (g _).map _ = .ok n at hn
  cases hg : g (t.get rest) with
  | error e =>
    rw [hg] at hn
    cases hn
  | ok b =>
    rw [hg] at hn
    cases hn
    have hb : K.fits b := hI.fits hg fun a ha => h.fit rest a ha
    exact ⟨b, _, rfl, rfl, h.put hlen (by rintro _ ⟨⟩; exact hb), puts_put h.canon (by omega)⟩

/-! ## The descent -/

/-- What an insert leaves of a node. -/
def InsertsNode (K : Kind α) (g : Option α → Except Err α) (q : List Nibble) (t : Tree 16 α)
    (rest : List Nibble) (n : RamNode) : Prop :=
  ∃ b, g (t.get rest) = .ok b ∧ ShowsPut K q t rest (some b) n

/-- What an insert leaves of a slot. -/
def InsertsSlot (K : Kind α) (g : Option α → Except Err α) (q : List Nibble) (t : Tree 16 α)
    (rest : List Nibble) (s : RamSlot) : Prop :=
  ∃ b t', g (t.get rest) = .ok b ∧ ShowsSlot K q s t' ∧ Puts t rest (some b) t'

omit [Keccak] in
theorem get_leaf_of_parts {c p r : List Nibble} {i j : Nibble} (hij : i ≠ j) (t : Tree 16 α) :
    (Tree.prepend (c ++ i :: p) t).get (c ++ j :: r) = none := by
  refine Tree.get_prepend_of_off fun k hk => hij ?_
  rw [List.append_assoc] at hk
  exact (List.cons.inj (List.append_cancel_left hk)).1.symm

mutual

theorem insertRam_shows (hI : K.Inserts env op g) (n : RamNode) {q rest : List Nibble}
    {t : Tree 16 α} (h : Shows K q n t) (hc : q = [] ∨ t ≠ .empty ∧ Canon (64 - q.length) t)
    (hw : K.Within q) (ha : K.Apart q rest t) (hk : keyNibbles key = q ++ rest) :
    Updates (insertRam env n (K.root ++ q) key op ram) fun n' _ => InsertsNode K g q t rest n' := by
  have hlen := key_length hk
  match n with
  | .empty =>
    cases h
    obtain rfl | ⟨ht, -⟩ := hc
    · unfold insertRam
      rw [hw.head hk]
      cases rest with
      | nil => exact .error _ _
      | cons i r =>
        have hw' : K.Within ([] ++ [i]) := fun _ => by
          rw [List.nil_append, List.length_singleton]
          decide
        simp only [List.head?_cons, List.append_assoc]
        refine (placeLeaf_shows hI hw' hk).attemptOn ?_
        rintro leaf ⟨b, hb, hs⟩
        refine .ok ⟨b, hb, .branch (Function.update (fun _ => .empty) i (.leaf r b)), ?_, ?_,
          fun h => absurd rfl h⟩
        · exact .branch (by decide) (showsSlot_update (fun _ _ => .none) hs) (.none _)
        · have hget := Tree.get_branch_update (fun _ => .empty) i _ fun p => Tree.get_leaf r p b
          exact fun p => (hget p).trans (by cases p <;> rfl)
    · exact absurd rfl ht
  | .extension path child hash =>
    cases h with
    | @extension _ _ _ t _ hp hb hcc hch hh =>
    have ht : t ≠ .empty := by
      cases hb
      simp
    have hqp : (q ++ path).length < 64 := isBranch_length_lt hb hcc
    have hext : Canon (64 - q.length) (.ext path t) :=
      .ext hp (by rw [List.length_append] at hqp ⊢; omega) hb hcc
    unfold insertRam
    rw [hw.drop hk]
    obtain ⟨c, p, r, rfl, rfl, hcm, hne⟩ := Radix.commonPrefix_spec path rest
    dsimp only
    rw [hcm]
    cases p with
    | nil =>
      rw [List.append_nil] at ha hp hqp hcc hch hext ⊢
      rw [if_neg (by omega), List.append_assoc]
      refine (insertRam_shows hI child hch (.inr ⟨ht, hcc⟩) (fun _ => hqp) ha.below
        (by rw [hk, List.append_assoc])).thenUpd (fun _ _ => .error _ _) ?_
      rintro n' _ ⟨b, hb', t', hn, hput, hc'⟩
      have hset : Sets (64 - (q ++ c).length) t r b t' := ⟨hc' ht hcc, hput⟩
      have hset' := hset.ext (n := 64 - q.length) (by rw [List.length_append] at hqp ⊢; omega) hp hcc hb
      refine .ok ⟨b, by rwa [Tree.get_ext_append], .ext c t', ?_, hset'.2, fun _ _ => hset'.1⟩
      exact .extension hp (hset.isBranch hcc hb) hset.1 hn (.none _)
    | cons i p =>
      rw [if_pos (by simp), List.drop_left, List.drop_left]
      cases r with
      | nil => exact .error _ _
      | cons j r =>
        have hij : i ≠ j := hne i p j r rfl rfl
        obtain ⟨k, a, hka⟩ := hcc.exists_get ht
        have hget : (Tree.ext (c ++ i :: p) t).get (c ++ i :: (p ++ k)) = some a := by
          rw [← hka, ← Tree.get_ext_append (c ++ i :: p) k t, List.append_assoc, List.cons_append]
        have hk' : keyNibbles key = (q ++ c ++ [j]) ++ r := by
          rw [hk]
          simp only [List.append_assoc, List.singleton_append]
        have hplace : Yields (placeLeaf env ram (K.root ++ (q ++ c ++ [j])) key op) _ :=
          placeLeaf_shows hI (ha.within hget hij hlen) hk'
        have hpos : (q ++ c ++ [i]) ++ p = q ++ (c ++ i :: p) := by simp
        have hslot : ShowsSlot K (q ++ c ++ [i]) (.ram (wrapPath p child)) (Tree.prepend p t) := by
          have hc' := (hpos.symm ▸ hcc : Canon (64 - ((q ++ c ++ [i]) ++ p).length) t)
          refine .ram (hc'.prepend p ?_) (by simpa using ht)
            (wrapPath_shows hb hc' (hpos.symm ▸ hch))
          rw [← hpos] at hqp
          simp only [List.length_append] at hqp ⊢
          omega
        simp only [List.take_left, List.append_assoc] at hplace ⊢
        refine hplace.attemptOn ?_
        rintro leaf ⟨b, hg, hs⟩
        rw [← List.append_assoc] at hs
        refine .ok ⟨b, ?_, ?_⟩
        · rw [← Tree.prepend_ext_child hext, get_leaf_of_parts hij]
          exact hg
        · have := fork_shows hij ht hcc hqp.le hlen hslot hs (i :: p)
          rwa [Tree.prepend_ext_child hext] at this
  | .branch slots hash =>
    cases h with
    | @branch _ _ ts _ hq hs hh =>
    unfold insertRam
    rw [hw.walkDepth, if_neg (by omega), ← hw.walkDepth, hw.head hk]
    cases rest with
    | nil => exact .error _ _
    | cons i r =>
      have hw' : K.Within (q ++ [i]) := ha.child_within (hc.imp_right And.right) hlen
      simp only [List.head?_cons, List.append_assoc]
      refine (insertIntoChild_shows hI (slots i) (hs i) (by simp) hw' ha.child
        (by rw [hk, List.append_assoc]; rfl)).thenUpd (fun _ _ => .error _ _) ?_
      rintro s' _ ⟨b, t', hb, hs', hp⟩
      have hslots := showsSlot_update (fun l _ => hs l) hs'
      refine .ok ⟨b, hb, .branch (Function.update ts i t'), .branch hq hslots (.none _), hp.branch,
        fun _ hc => canon_branch hq (fun l => (hslots l).canon) ?_⟩
      cases hc with
      | branch _ _ h2 => exact Tree.twoChildren_update h2 i hp.ne_empty

theorem insertIntoChild_shows (hI : K.Inserts env op g) (s : RamSlot) {q rest : List Nibble}
    {t : Tree 16 α} (h : ShowsSlot K q s t) (hq : q ≠ []) (hw : K.Within q)
    (ha : K.Apart q rest t) (hk : keyNibbles key = q ++ rest) :
    Updates (insertIntoChild env s (K.root ++ q) key op ram) fun s' _ =>
      InsertsSlot K g q t rest s' := by
  have hlen := key_length hk
  match s with
  | .none =>
    cases h
    unfold insertIntoChild
    refine (placeLeaf_shows hI hw hk).attemptOn fun s hs => .ok ?_
    obtain ⟨b, hb, hs⟩ := hs
    exact ⟨b, _, hb, hs, fun p => Tree.get_leaf rest p b⟩
  | .ram child =>
    cases h with
    | ram hc ht h =>
      unfold insertIntoChild
      refine (insertRam_shows hI child h (.inr ⟨ht, hc⟩) hw ha hk).thenUpd (fun _ _ => .error _ _) ?_
      rintro n' _ ⟨b, hb, t', hn, hp, hc'⟩
      exact .ok ⟨b, t', hb, .ram (hc' ht hc) hp.ne_empty hn, hp⟩
  | .disk ptr root =>
    cases h with
    | disk h =>
      unfold insertIntoChild
      refine (yields_readRecord h).attemptOn ?_
      rintro _ rfl
      refine (yields_recordInsert hI h.records hq hk).attemptOn ?_
      rintro _ ⟨b, t', hb, rfl, hr, hp⟩
      exact (rewriteDisk_shows hI.lifts ram ptr root hr hp.ne_empty rfl).mono
        fun s _ hs => ⟨b, t', hb, hs, hp⟩
  | .mem bytes root =>
    cases h with
    | mem h =>
      unfold insertIntoChild
      refine (yields_record h).attemptOn ?_
      rintro _ rfl
      refine (yields_recordInsert hI h.records hq hk).attemptOn ?_
      rintro _ ⟨b, t', hb, rfl, hr, hp⟩
      refine (rewriteMem_shows hI.lifts ram hr hp.ne_empty rfl).attemptOn fun s hs => .ok ?_
      exact ⟨b, t', hb, hs, hp⟩
  | .account path nonce balance codeHash storage =>
    cases h with
    | @account _ _ _ _ _ _ a hp ha' hl =>
    unfold insertIntoChild
    rw [hw.drop hk]
    obtain ⟨c, p, r, rfl, rfl, hcm, hne⟩ := Radix.commonPrefix_spec path rest
    dsimp only
    rw [hcm]
    cases p with
    | nil =>
      rw [List.append_nil] at hp hl ⊢
      obtain rfl : r = [] := List.eq_nil_of_length_eq_zero (by
        rw [List.length_append] at hlen
        omega)
      rw [List.append_nil] at hk ⊢
      rw [if_pos rfl]
      rw [List.append_assoc, ← hk] at hl
      refine Updates.mono (show Updates (insertPromoted env key op c nonce balance codeHash storage) _
        from hI.promoted hl ha') ?_
      rintro s _ ⟨b, n', b', c', st', hb, rfl, hl'⟩
      refine ⟨b, .leaf c b, by rwa [Tree.get_leaf, if_pos rfl], .account hp (hI.fits hb ?_) ?_, ?_⟩
      · rintro _ ⟨⟩
        exact ha'
      · rwa [List.append_assoc, ← hk]
      · intro p
        rw [Tree.get_leaf, Tree.get_leaf]
        split <;> rfl
    | cons i p =>
      rw [if_neg (by simp), List.drop_left, List.drop_left]
      cases r with
      | nil => exact .error _ _
      | cons j r =>
        have hij : i ≠ j := hne i p j r rfl rfl
        have hleaf : Tree.prepend (c ++ i :: p) (.leaf [] a) = .leaf (c ++ i :: p) a := by
          rw [Tree.prepend, List.append_nil]
        have hget : (Tree.leaf (c ++ i :: p) a).get (c ++ i :: p) = some a := by
          rw [Tree.get_leaf, if_pos rfl]
        have hk' : keyNibbles key = (q ++ c ++ [j]) ++ r := by
          rw [hk]
          simp only [List.append_assoc, List.singleton_append]
        have hplace : Yields (placeLeaf env ram (K.root ++ (q ++ c ++ [j])) key op) _ :=
          placeLeaf_shows hI (ha.within hget hij hlen) hk'
        have hpos : K.root ++ (q ++ c ++ [i]) ++ p = K.root ++ q ++ (c ++ i :: p) := by simp
        have hslot : ShowsSlot K (q ++ c ++ [i]) (.account p nonce balance codeHash storage)
            (Tree.prepend p (.leaf [] a)) := by
          rw [Tree.prepend, List.append_nil]
          refine .account ?_ ha' (hpos ▸ hl)
          simp only [List.length_append, List.length_cons, List.length_nil] at hp ⊢
          omega
        simp only [List.take_left, List.append_assoc] at hplace ⊢
        refine hplace.attemptOn ?_
        rintro leaf ⟨b, hg, hs⟩
        rw [← List.append_assoc] at hs
        have hlen' : (q ++ (c ++ i :: p)).length = 64 := by
          rw [List.length_append]
          omega
        have hleaf0 : Canon (64 - (q ++ (c ++ i :: p)).length) (.leaf [] a : Tree 16 α) :=
          .leaf (by rw [hlen']; rfl)
        obtain ⟨t', hn, hput, hc'⟩ := fork_shows hij (by simp) hleaf0 hlen'.le hlen hslot hs (i :: p)
        rw [hleaf] at hput hc'
        refine .ok ⟨b, t', ?_, .ram (hc' nofun (.leaf hp)) hput.ne_empty hn, hput⟩
        rw [← hleaf, get_leaf_of_parts hij]
        exact hg

end

end

section
variable [Keccak] {env : Env}

/-! ## The kinds -/

theorem inserts_storage (account : Key) {v : Bytes} (hv : ShortValue v) :
    (storageKind account).Inserts env (.value v) fun _ => .ok v where
  lifts := lifts_storage account
  place _ := rfl
  apply _ _ := rfl
  fits := by
    rintro o b ⟨⟩ _
    exact hv
  promoted h _ := h.elim

/-- A slot write in a promoted account. -/
theorem insertStorage_shows {account slot : Key} {v : Bytes} {s : Storage} {storage : RamNode}
    (hv : ShortValue v) (ht : s.tree ≠ .empty)
    (h : Shows (storageKind account) [] storage s.tree) :
    Updates (insertRam env storage (keyNibbles account) slot (.value v) false) fun n _ =>
      Shows (storageKind account) [] n (s.put slot (some v)).tree ∧
        (s.put slot (some v)).tree ≠ .empty := by
  have hroot : (storageKind account).root ≠ [] := by
    intro hr
    have := keyNibbles_length account
    rw [show keyNibbles account = [] from hr] at this
    cases this
  have hins : Updates (insertRam env storage (keyNibbles account ++ []) slot (.value v) false) _ :=
    insertRam_shows (inserts_storage account hv) storage h (.inl rfl) (fun hr => absurd hr hroot)
      (fun hr => absurd hr hroot) (List.nil_append _).symm
  rw [List.append_nil] at hins
  refine hins.mono ?_
  rintro n _ ⟨b, ⟨⟩, t', hn, hput, hc⟩
  have heq : t' = (s.put slot (some v)).tree := (hc ht s.canon).eq_put hput
  exact ⟨heq ▸ hn, heq ▸ hput.ne_empty⟩

/-- The value of an insert can be written. -/
def LeafOp.Short : LeafOp → Prop
  | .value v => ShortValue v
  | .account .. => True
  | .storage _ v => ShortValue v

theorem Storage.Short.put {s : Storage} (h : s.Short) (slot : Key) {v : Option Bytes}
    (hv : ∀ b, v = some b → ShortValue b) : (s.put slot v).Short :=
  (Kind.Records.put (Storage.records h default) ((Nat.zero_add _).trans (keyNibbles_length slot)) hv).fit

omit [Keccak] in
theorem Storage.short_empty : Storage.empty.Short := nofun

omit [Keccak] in
theorem shortValue_accountRlp (nonce : UInt64) (balance : U256) (codeHash storageRoot : Hash) :
    ShortValue (accountRlp nonce balance codeHash storageRoot) :=
  Nat.lt_of_le_of_lt (Eth.Account.rlp_length _) (by decide)

theorem leafInsert_short {op : LeafOp} (hop : op.Short) {o : Option StateLeaf} {b : StateLeaf}
    (h : leafInsert op o = .ok b) (ho : ∀ a, o = some a → a.Short) : b.Short := by
  have hput {s : Storage} (hs : s.Short) (slot : Key) {v : Bytes} (hv : ShortValue v) :
      (s.put slot (some v)).Short := hs.put slot (by rintro _ ⟨⟩; exact hv)
  match o, op with
  | none, .value v =>
    cases h
    exact hop
  | none, .account .. =>
    cases h
    exact Storage.short_empty
  | none, .storage slot v =>
    cases h
    exact hput Storage.short_empty slot hop
  | some (.raw old), .value v =>
    cases h
    exact hop
  | some (.raw old), .account n b c =>
    simp only [leafInsert] at h
    split at h
    · split at h
      · cases h
        exact shortValue_accountRlp ..
      · cases h
        exact Storage.short_empty
    · cases h
      exact Storage.short_empty
  | some (.raw old), .storage slot v =>
    simp only [leafInsert] at h
    split at h
    · split at h
      · cases h
        exact hput Storage.short_empty slot hop
      · cases h
    · cases h
  | some (.account n b c s), .value v => cases h
  | some (.account n b c s), .account .. =>
    cases h
    exact (ho _ rfl : s.Short)
  | some (.account n b c s), .storage slot v =>
    cases h
    exact hput (ho _ rfl) slot hop

theorem inserts_state {op : LeafOp} (hop : op.Short) :
    stateKind.Inserts env op (leafInsert op) where
  lifts := lifts_state
  place := placeNew_stateLeaf op
  apply := applyOp_stateLeaf op
  fits := leafInsert_short hop
  promoted := by
    rintro key path nonce balance codeHash storage _ ⟨account, s, hf, rfl, ht, h⟩ ha
    obtain rfl : key = account := keyNibbles_injective hf
    cases op with
    | value v => exact .error _ _
    | account n b c =>
      exact .ok ⟨_, n, b, c, storage, rfl, rfl, key, s, rfl, rfl, ht, h⟩
    | storage slot v =>
      unfold insertPromoted
      refine (insertStorage_shows hop ht h).thenUpd (fun _ _ => .error _ _) ?_
      rintro n _ ⟨hn, ht'⟩
      exact .ok ⟨_, nonce, balance, codeHash, n, rfl, rfl, key, s.put slot (some v), rfl, rfl, ht', hn⟩

end

end FlatMpt
