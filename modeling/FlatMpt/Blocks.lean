import FlatMpt.Applies

/-!
# Blocks on the frontier

A normalised block, applied on the whole frontier: one worker for each slot of a top
branch, or one account after the other.  Each account gets its own net updates, in
order.

    Applies        -- what a list of net updates did to the leaves
    applyNet_shows
-/

namespace FlatMpt

open Prog
open Radix (Tree)
open Radix.Tree (Canon)

/-- The net updates of the account at a path, in order. -/
def updatesAt (path : List Nibble) (net : List (Key × NetUpdate)) : List NetUpdate :=
  net.filterMap fun e => if keyNibbles e.1 = path then some e.2 else none

theorem updatesAt_append (path : List Nibble) (net net' : List (Key × NetUpdate)) :
    updatesAt path (net ++ net') = updatesAt path net ++ updatesAt path net' :=
  List.filterMap_append

theorem updatesAt_eq_nil {path : List Nibble} {net : List (Key × NetUpdate)}
    (h : ∀ e ∈ net, keyNibbles e.1 ≠ path) : updatesAt path net = [] := by
  unfold updatesAt
  rw [List.filterMap_eq_nil_iff]
  exact fun e he => if_neg (h e he)

/-- A top slot's bucket holds the updates below it. -/
theorem updatesAt_bucketOf (i : Nibble) (r : List Nibble) (net : List (Key × NetUpdate)) :
    updatesAt (i :: r) (bucketOf net i) = updatesAt (i :: r) net := by
  unfold updatesAt bucketOf
  rw [List.filterMap_filter]
  congr 1
  funext e
  by_cases h : keyNibbles e.1 = i :: r
  · rw [if_pos h, h]
    simp
  · rw [if_neg h]
    split <;> rfl

section
variable [Keccak] {env : Env} {q rest : List Nibble} {t t' u : Tree 16 StateLeaf} {key : Key}
  {upd : NetUpdate} {net net' : List (Key × NetUpdate)} {ram : Bool}

/-! ## Updates one after the other -/

/-- The updates on the leaf are those of the account. -/
def NetRels (us : List NetUpdate) (o v : Option StateLeaf) : Prop :=
  Structured o → Structured v ∧ acctOf v = us.foldl (fun a u => u.apply a) (acctOf o)

/-- `t'` is `t` with the updates of every account below `q` applied. -/
def Applies (q : List Nibble) (net : List (Key × NetUpdate)) (t t' : Tree 16 StateLeaf) : Prop :=
  ∀ p, NetRels (updatesAt (q ++ p) net) (t.get p) (t'.get p)

theorem Applies.refl (q : List Nibble) (t : Tree 16 StateLeaf) : Applies q [] t t :=
  fun _ h => ⟨h, rfl⟩

theorem Applies.trans (h : Applies q net t t') (h' : Applies q net' t' u) :
    Applies q (net ++ net') t u := by
  intro p ho
  obtain ⟨hv, hacct⟩ := h p ho
  obtain ⟨hw, hacct'⟩ := h' p hv
  refine ⟨hw, ?_⟩
  rw [hacct', hacct, updatesAt_append, List.foldl_append]

/-- One account's update. -/
theorem Applies.put {v : Option StateLeaf} (hk : keyNibbles key = q ++ rest) (hp : Puts t rest v t')
    (hrel : NetRel upd (t.get rest) v) : Applies q [(key, upd)] t t' := by
  intro p ho
  rw [hp p]
  by_cases hpr : p = rest
  · subst hpr
    have hat : updatesAt (q ++ p) [(key, upd)] = [upd] := by
      unfold updatesAt
      rw [List.filterMap_cons, if_pos hk]
      rfl
    rw [if_pos rfl, hat]
    exact hrel ho
  · have hat : updatesAt (q ++ p) [(key, upd)] = [] := by
      refine updatesAt_eq_nil fun e he => ?_
      rw [List.mem_singleton.mp he, hk]
      exact fun h => hpr (List.append_cancel_left h).symm
    rw [if_neg hpr, hat]
    exact ⟨ho, rfl⟩

/-- The updates of the slots of a top branch. -/
theorem Applies.branch {ts ts' : Nibble → Tree 16 StateLeaf}
    (h : ∀ i, Applies [i] (bucketOf net i) (ts i) (ts' i)) :
    Applies [] net (.branch ts) (.branch ts') := by
  intro p ho
  cases p with
  | nil =>
    have hat : updatesAt ([] ++ []) net = [] := updatesAt_eq_nil fun e _ he => by
      have := congrArg List.length he
      rw [keyNibbles_length] at this
      cases this
    rw [hat]
    exact ⟨ho, rfl⟩
  | cons i r =>
    have := h i r ho
    rwa [List.singleton_append, updatesAt_bucketOf] at this

theorem Applies.congr (h : Applies q net t t') (hu : ∀ p, u.get p = t'.get p) : Applies q net t u := by
  intro p
  rw [hu]
  exact h p

/-- The accounts of a tree. -/
def logicalOf (t : Tree 16 StateLeaf) : Logical := fun k => acctOf (t.get (keyNibbles k))

/-- Every account of the tree is in structured form. -/
def AllStructured (t : Tree 16 StateLeaf) : Prop := ∀ p, Structured (t.get p)

theorem applyNets_eq (net : List (Key × NetUpdate)) (l : Logical) (k : Key) :
    applyNets l net k = (updatesAt (keyNibbles k) net).foldl (fun a u => u.apply a) (l k) := by
  unfold applyNets
  induction net generalizing l with
  | nil => rfl
  | cons e net ih =>
    rw [List.foldl_cons, ih]
    unfold updatesAt
    by_cases hk : e.1 = k
    · rw [List.filterMap_cons, if_pos (congrArg keyNibbles hk), List.foldl_cons, hk,
        Function.update_self]
    · rw [List.filterMap_cons, if_neg fun h => hk (keyNibbles_injective h),
        Function.update_of_ne (Ne.symm hk)]

/-- On structured accounts, the updates are those of the logical state. -/
theorem Applies.logical (h : Applies [] net t t') (ht : AllStructured t) :
    AllStructured t' ∧ logicalOf t' = applyNets (logicalOf t) net := by
  refine ⟨fun p => (h p (ht p)).1, funext fun k => ?_⟩
  rw [applyNets_eq]
  exact (h (keyNibbles k) (ht _)).2

/-! ## Slots and roots -/

theorem OutcomeSlot.shows {α : Type} {K : Kind α} {t : Tree 16 α} {v : Option α} {s s' : RamSlot}
    {out : RamDelete} (h : ShowsSlot K q s t) (ho : OutcomeSlot K q t rest v s s' out) :
    ∃ t', ShowsSlot K q s' t' ∧ Puts t rest v t' := by
  match out with
  | .absent =>
    obtain ⟨rfl, rfl⟩ := ho
    refine ⟨t, h, fun p => ?_⟩
    split
    next hp => rw [hp]
    next => rfl
  | .changed =>
    obtain ⟨t', -, hs, hp⟩ := ho
    exact ⟨t', hs, hp⟩
  | .removed =>
    obtain ⟨rfl, hp⟩ := ho
    exact ⟨.empty, .none, hp⟩
  | .collapsed .. => exact ho.elim

/-- The root after a descent of the state trie. -/
theorem installRoot_shows {α : Type} {K : Kind α} {t : Tree 16 α} {v : Option α} {n n' : RamNode}
    {out : RamDelete} (hL : K.Lifts env) (hroot : K.root = []) (h : Shows K [] n t)
    (ho : Outcome K [] t rest v n n' out) :
    Updates (installRoot env n' out) fun u _ => ∃ t', Shows K [] u t' ∧ Puts t rest v t' := by
  match out with
  | .absent =>
    obtain ⟨rfl, rfl⟩ := ho
    refine .ok ⟨t, h, fun p => ?_⟩
    split
    next hp => rw [hp]
    next => rfl
  | .changed =>
    obtain ⟨t', -, hn, hp, -⟩ := ho
    exact .ok ⟨t', hn, hp⟩
  | .removed => exact .ok ⟨.empty, .empty, ho⟩
  | .collapsed edge s =>
    obtain ⟨t', ht', -, -, hs, hp⟩ := ho
    exact (collapseRoot_shows hL hroot ht' hs).attemptOn fun u hu => .ok ⟨_, hu, hp⟩

/-- A top branch is folded as any other, a lone record at the root. -/
theorem refoldTop_shows {α : Type} {K : Kind α} {slots : Nibble → RamSlot} {ts : Nibble → Tree 16 α}
    (hL : K.Lifts env) (hroot : K.root = []) (h : ∀ i, ShowsSlot K [i] (slots i) (ts i)) :
    Updates (refoldTop env slots) fun n _ => Shows K [] n (Tree.collapse ts) := by
  have hfold := refoldBranch_shows (q := []) (by decide) h
  unfold refoldBranch at hfold
  unfold refoldTop
  cases hl : ramSurvivors slots with
  | nil =>
    rw [hl] at hfold
    have hcol : Tree.collapse ts = .empty := hfold _ rfl
    rw [hcol]
    exact .ok .empty
  | cons j l =>
    cases l with
    | nil =>
      rw [hl] at hfold
      dsimp only at hfold ⊢
      have hlone {s : RamSlot} (hs : slots j = s)
          (ho : Refolded K [] ts .empty (.collapsed [j] s)) :
          Updates (attempt (collapseRoot env [j] s)
            (fun e => (RamNode.branch (Function.update slots j .none) none, .error e)) fun node =>
              .pure (node, .ok ())) fun n _ => Shows K [] n (Tree.collapse ts) := by
        obtain ⟨t, ht, -, -, hs, heq⟩ := ho
        rw [heq]
        exact (collapseRoot_shows hL hroot ht hs).attemptOn fun u hu => .ok hu
      cases hj : slots j with
      | ram sub =>
        rw [hj] at hfold
        dsimp only at hfold ⊢
        cases hn : extendBy [j] sub with
        | error e => exact .error _ _
        | ok n =>
          rw [hn] at hfold
          exact .ok (hfold _ rfl).2
      | none => exact hlone hj (by rw [hj] at hfold; exact hfold _ rfl)
      | disk ptr root => exact hlone hj (by rw [hj] at hfold; exact hfold _ rfl)
      | mem bytes root => exact hlone hj (by rw [hj] at hfold; exact hfold _ rfl)
      | account p n b c st => exact hlone hj (by rw [hj] at hfold; exact hfold _ rfl)
    | cons i l =>
      rw [hl] at hfold
      exact .ok (hfold _ rfl).2

/-! ## Normalised blocks -/

/-- An operation whose value can be written. -/
def StateOp.Short : StateOp → Prop
  | .setStorage _ v => ShortValue v
  | _ => True

instance : DecidablePred StateOp.Short
  | .setStorage _ v => inferInstanceAs (Decidable (v.length < 2 ^ 32))
  | .setAccount .. => inferInstanceAs (Decidable True)
  | .deleteAccount => inferInstanceAs (Decidable True)
  | .wipeStorage => inferInstanceAs (Decidable True)
  | .deleteStorage _ => inferInstanceAs (Decidable True)

omit [Keccak] in
theorem noteSlot_fits {slot : Key} {v : Option Bytes} {idx : Key → Key → Option Nat} (h : upd.Fits)
    (hd : upd.account ≠ .delete) (hv : ∀ b, v = some b → ShortValue b) :
    (noteSlot key slot v upd idx).1.Fits := by
  unfold noteSlot
  cases idx key slot with
  | none =>
    refine ⟨fun h' => absurd h' hd, fun s hs => ?_⟩
    rcases List.mem_append.mp hs with hs | hs
    · exact h.short s hs
    · rw [List.mem_singleton.mp hs]
      exact hv
  | some i =>
    refine ⟨fun h' => absurd h' hd, fun s hs => ?_⟩
    obtain ⟨j, hj⟩ := List.mem_iff_getElem?.mp hs
    rw [List.getElem?_modify] at hj
    obtain ⟨s0, hs0, rfl⟩ := Option.map_eq_some_iff.mp hj
    split
    · exact hv
    · exact h.short s0 (List.mem_of_getElem? hs0)

theorem normalizeOp_fits {op : StateOp} {idx : Key → Key → Option Nat} (h : upd.Fits)
    (hop : op.Short) : (normalizeOp key op upd idx).1.Fits := by
  cases op with
  | setAccount n b c => exact ⟨nofun, h.short⟩
  | deleteAccount => exact ⟨fun _ => rfl, nofun⟩
  | wipeStorage => exact ⟨fun _ => rfl, nofun⟩
  | setStorage slot v =>
    unfold normalizeOp
    have hv : ∀ b, some v = some b → ShortValue b := by
      rintro _ ⟨⟩
      exact hop
    by_cases hd : upd.account = .delete
    · exact noteSlot_fits (by rw [if_pos hd]; exact ⟨nofun, h.short⟩) (by rw [if_pos hd]; nofun) hv
    · exact noteSlot_fits (by rwa [if_neg hd]) (by rwa [if_neg hd]) hv
  | deleteStorage slot =>
    unfold normalizeOp
    dsimp only
    by_cases hd : upd.account = .delete
    · rwa [if_pos hd]
    · rw [if_neg hd]
      exact noteSlot_fits h hd (v := none) nofun

/-- The net updates of a block whose values can be written fit. -/
theorem normalizeBlock_fits {ops : List (Key × StateOp)} (h : ∀ e ∈ ops, e.2.Short) :
    ∀ e ∈ normalizeBlock ops, e.2.Fits := by
  have hfold : ∀ (ops : List (Key × StateOp)) (st : NormState), (∀ e ∈ ops, e.2.Short) →
      (∀ k, (st.entry k).Fits) → ∀ k, ((ops.foldl normalizeStep st).entry k).Fits := by
    intro ops
    induction ops with
    | nil => exact fun _ _ hst => hst
    | cons e ops ih =>
      intro st hops hst
      refine ih _ (fun e he => hops e (List.mem_cons_of_mem _ he)) fun k => ?_
      by_cases hk : k = e.1
      · rw [hk, entry_normalizeStep_self]
        exact normalizeOp_fits (hst e.1) (hops e List.mem_cons_self)
      · rw [entry_normalizeStep_of_ne _ _ _ hk]
        exact hst k
  intro e he
  have hempty (k : Key) : (NormState.empty.entry k).Fits := by
    have : NormState.empty.entry k = .fresh := by simp [NormState.entry, NormState.empty]
    rw [this]
    exact ⟨(fun h => by cases h), fun s hs => absurd hs List.not_mem_nil⟩
  have := hfold ops .empty h hempty e.1
  unfold NormState.entry at this
  rwa [Std.TreeMap.mem_toList_iff_getElem?_eq_some.1 he] at this

/-! ## The block -/

/-- Updates of accounts below `q` that the engine can hold. -/
def Below (q : List Nibble) (net : List (Key × NetUpdate)) : Prop :=
  ∀ e ∈ net, e.2.Fits ∧ ∃ rest, keyNibbles e.1 = q ++ rest

omit [Keccak] in
theorem Below.of_fits (h : ∀ e ∈ net, e.2.Fits) : Below [] net := fun e he => ⟨h e he, _, rfl⟩

omit [Keccak] in
theorem Below.bucketOf (h : Below [] net) (i : Nibble) : Below [i] (bucketOf net i) := by
  intro e he
  obtain ⟨he, hi⟩ := List.mem_filter.mp he
  refine ⟨(h e he).1, (keyNibbles e.1).tail, ?_⟩
  cases hk : keyNibbles e.1 with
  | nil =>
    rw [hk] at hi
    cases hi
  | cons j r =>
    rw [hk, List.head?_cons, decide_eq_true_eq] at hi
    cases hi
    rfl

theorem applyBucket_shows (net : List (Key × NetUpdate)) (hnet : Below q net) (hq : q ≠ [])
    {s : RamSlot} (h : ShowsSlot stateKind q s t) :
    Updates (applyBucket env ram q net s) fun s' _ =>
      ∃ t', ShowsSlot stateKind q s' t' ∧ Applies q net t t' := by
  induction net generalizing s t with
  | nil => exact .ok ⟨t, h, .refl q t⟩
  | cons e net ih =>
    obtain ⟨key, upd⟩ := e
    obtain ⟨hupd, rest, hk⟩ := hnet _ List.mem_cons_self
    unfold applyBucket
    refine (applyGroupChild_shows hupd s h hq hk).thenUpd (fun _ _ => .error _ _) ?_
    rintro s' ⟨out, inv⟩ ⟨v, hrel, hout⟩
    obtain ⟨t', hs', hp⟩ := hout.shows h
    refine (ih (fun e he => hnet e (List.mem_cons_of_mem _ he)) hs').thenUpd
      (fun _ _ => .error _ _) ?_
    rintro s'' inv' ⟨t'', hs'', happ⟩
    exact .ok ⟨t'', hs'', (Applies.put hk hp hrel).trans happ⟩

theorem applySerial_shows (net : List (Key × NetUpdate)) (hnet : Below [] net) {n : RamNode}
    (h : Shows stateKind [] n t) : Updates (applySerial env ram net n) fun n' _ =>
      ∃ t', Shows stateKind [] n' t' ∧ Applies [] net t t' := by
  induction net generalizing n t with
  | nil => exact .ok ⟨t, h, .refl [] t⟩
  | cons e net ih =>
    obtain ⟨key, upd⟩ := e
    obtain ⟨hupd, rest, hk⟩ := hnet _ List.mem_cons_self
    unfold applySerial
    refine (applyRamGroup_shows hupd n h (.inl rfl) hk).thenUpd (fun _ _ => .error _ _) ?_
    rintro n' ⟨out, inv⟩ ⟨v, hrel, hout⟩
    refine (installRoot_shows lifts_state rfl h hout).thenUpd (fun _ _ => .error _ _) ?_
    rintro u _ ⟨t', hu, hp⟩
    refine (ih (fun e he => hnet e (List.mem_cons_of_mem _ he)) hu).thenUpd
      (fun _ _ => .error _ _) ?_
    rintro u' inv' ⟨t'', hu', happ⟩
    exact .ok ⟨t'', hu', (Applies.put hk hp hrel).trans happ⟩

/-- **A block on the frontier** applies to every account its own updates, and leaves
the others. -/
theorem applyNet_shows (net : List (Key × NetUpdate)) (hnet : Below [] net) (n : RamNode)
    (h : Shows stateKind [] n t) : Updates (applyNet env ram net n) fun n' _ =>
      ∃ t', Shows stateKind [] n' t' ∧ Applies [] net t t' := by
  cases h with
  | empty => exact applySerial_shows net hnet .empty
  | extension hp hb hc h hh => exact applySerial_shows net hnet (.extension hp hb hc h hh)
  | @branch _ slots ts hash hq hs hh =>
    have hbucket (i : Nibble) : Updates (applyBucket env ram [i] (bucketOf net i) (slots i))
        fun s' _ => ∃ t', ShowsSlot stateKind [i] s' t' ∧ Applies [i] (bucketOf net i) (ts i) t' :=
      applyBucket_shows _ (hnet.bucketOf i) (by simp) (hs i)
    refine Updates.fan fun rs hrs => ?_
    dsimp only
    cases hj : joinAll (List.ofFn fun i => (rs i).2) with
    | error e => exact .error _ _
    | ok invs =>
      have hslot (i : Nibble) : ∃ t', ShowsSlot stateKind [i] (rs i).1 t' ∧
          Applies [i] (bucketOf net i) (ts i) t' := by
        obtain ⟨inv, heq⟩ := joinAll_each hj i
        rw [hrs i] at heq ⊢
        exact hbucket i inv heq
      choose ts' hts' happ using hslot
      refine (refoldTop_shows lifts_state rfl hts').map fun n _ hn => ?_
      exact ⟨_, hn, (Applies.branch happ).congr (Tree.get_collapse ts')⟩

end

end FlatMpt
