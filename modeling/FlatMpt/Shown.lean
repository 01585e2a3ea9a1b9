import FlatMpt.Batches
import FlatMpt.Answers
import FlatMpt.SysInv

/-!
# Calls on the tree shown

A call that ends well leaves a frontier that shows a tree again, and that tree is the
old one changed as the call says.  Spills, relocations and persists leave it as it was.

    Call.Turns        -- what a call does to the tree
    callProg_shows
-/

namespace FlatMpt

open Prog
open Radix (Tree)

section
variable [Keccak]

/-! ## Keys of the tree -/

/-- The paths of a tree's keys. -/
def pathsOf {α : Type} (t : Tree 16 α) : Set (List Nibble) := {p | (t.get p).isSome}

omit [Keccak] in
theorem inside_pathsOf {α : Type} {S : Set (List Nibble)} {t : Tree 16 α} (h : pathsOf t ⊆ S) :
    Inside S [] t := fun _ _ hp => h (Option.isSome_iff_exists.mpr ⟨_, hp⟩)

/-- Paths of full length, as those of keys. -/
theorem Shows.get_length {α : Type} {K : Kind α} {n : RamNode} {t : Tree 16 α} (h : Shows K [] n t)
    {p : List Nibble} {a : α} (hp : t.get p = some a) : p.length = 64 := by
  rcases h.canon with hc | ⟨ts, rfl, -, hts⟩
  · exact hc.get_length hp
  · cases p with
    | nil => cases hp
    | cons i p =>
      have := (hts i).get_length hp
      rw [List.length_cons, this]
      rfl

/-! ## Calls -/

/-- Arguments that the engine can hold, on a tree whose keys they do not come too close
to. -/
def Call.Fit (t : Tree 16 StateLeaf) : Call → Prop
  | .applyBlock ops _ => ∀ e ∈ ops, e.2.Short
  | .insertBatch entries arrange _ => (∀ gs, (arrange gs).Perm gs) ∧ ∀ e ∈ entries,
      ShortValue e.2 ∧ ApartFrom (pathsOf t ∪ {p | ∃ e ∈ entries, p = keyNibbles e.1}) (keyNibbles e.1)
  | .insert key op => op.Short ∧ stateKind.Apart [] (keyNibbles key) t
  | .delete key _ => stateKind.Apart [] (keyNibbles key) t
  | _ => True

/-- What a call that ends well does to the tree. -/
def Call.Turns (t t' : Tree 16 StateLeaf) : Call → Prop
  | .applyBlock ops _ => Applies [] (normalizeBlock ops) t t'
  | .insert key op => ∃ b, leafInsert op (t.get (keyNibbles key)) = .ok b ∧
      Puts t (keyNibbles key) (some b) t'
  | .delete key op => ∃ v out, Deleted (leafDelete op) (t.get (keyNibbles key)) v out ∧
      Puts t (keyNibbles key) v t'
  | .insertBatch .. => True
  | _ => t' = t

section
variable {env : Env} {n m n' : RamNode} {t : Tree 16 StateLeaf} {key : Key} {ram leak c : Prop}
  {W : Holds} {ok : (r : Req) → Resp r → Prop} {g rest : Multiset Rec}

/-! ## From the ideal store -/

theorem shows_inline {α : Type} {K : Kind α} {n : RamNode} {t : Tree 16 α} :
    Shows K [] (inline n) t ↔ Shows K [] n t := shows_inlineAt n []

/-- A frontier with its records that shows `t`. -/
abbrev FrontShows (t : Tree 16 StateLeaf) : Prop → RamNode → Multiset Rec → Prop :=
  FrontedWith fun n => Shows stateKind [] n t

/-- A frontier that shows a tree in relation `R` is left, if all ends well. -/
def LeavesTree {α : Type} (R : Tree 16 StateLeaf → Prop) (leak : Prop) (n : RamNode) (r : Except Err α)
    (g : Multiset Rec) : Prop :=
  ∀ a, r = .ok a → ∃ t, R t ∧ FrontShows t leak n g

theorem LeavesTree.error {α : Type} {R : Tree 16 StateLeaf → Prop} (e : Err) :
    LeavesTree R leak n (.error e : Except Err α) g := nofun

/-- What an update leaves over the ideal store, it leaves over the file. -/
theorem leavesTree_of_sim {α : Type} {p q : Upd RamNode α} {R : Tree 16 StateLeaf → Prop}
    (h : IdealSim W ok p q g (AgreeOn c Placed (Left Placed)))
    (hq : Updates q fun n' _ => ∃ t', Shows stateKind [] n' t' ∧ R t') (hr : leak ∨ rest = 0) :
    wp ((flat W).filter ok) p (g + rest) fun x g' => LeavesTree R leak x.1 x.2 g' := by
  refine wp_mono (wp_frame rest h) ?_
  rintro ⟨n', r⟩ _ ⟨g', rfl, hx⟩ a ha
  dsimp only at ha
  subst ha
  cases hv : value ideal q with
  | mk m' r' =>
    rw [hv] at hx
    cases r' with
    | error e => exact hx.elim
    | ok b =>
      obtain ⟨t', hs, hR⟩ := hq b (by rw [hv])
      rw [hv] at hs
      exact ⟨t', hR, .of_placed hx.1 (shows_inline.mpr hs) hr⟩

theorem FrontShows.fill (h : FrontShows t leak n g) : FrontShows t leak (fillRam n) g := by
  obtain ⟨m, g0, rest, hp, rfl, hr, hs⟩ := h.placed
  exact .of_placed (fillRam_placed hp) (shows_inline.mpr (shows_inline.mp hs).fill) hr

/-- The end of a call that returns the root. -/
theorem replyRoot_shows {R : Tree 16 StateLeaf → Prop} (ram : Bool) {p : Upd RamNode Unit}
    (h : wp ((flat W).filter ok) p g fun x g' => LeavesTree R leak x.1 x.2 g') :
    wp ((flat W).filter ok) (replyRoot ram p) g fun x g' => LeavesTree R leak x.1.upper x.2 g' := by
  refine wp_bind (wp_mono h ?_)
  rintro ⟨n', e | u⟩ g' hx
  · exact LeavesTree.error e
  · obtain ⟨t', hR, hs⟩ := hx u rfl
    rintro _ -
    exact ⟨t', hR, hs.fill⟩

/-! ## Records moved -/

omit [Keccak] in
/-- Moving records leaves the tree. -/
theorem FrontedWith.moved {P : RamNode → Prop} {pay pay' : List Nibble → Bytes}
    (hP : P (inline (mapLeaves (toNamed pay) n []))) (h : Moved pay n pay' n') (hr : leak ∨ rest = 0) :
    FrontedWith P leak n' (recsAt pay' n' + rest) :=
  ⟨pay', rest, rfl, hr, by rwa [h.inline]⟩

omit [Keccak] in
theorem spillQuota_keeps {P : RamNode → Prop} (passes : List (List Nibble → Bool))
    (h : FrontedWith P leak n g) : wp ((flat W).filter ok) (spillQuota passes n) g fun x g' =>
      ∀ u, x.2 = .ok u → FrontedWith P leak x.1 g' := by
  obtain ⟨pay, rest, rfl, hr, hP⟩ := h
  refine wp_mono (spillQuota_moves (E := fun _ => True) (fun _ _ _ _ _ => trivial) passes n pay rest) ?_
  rintro ⟨n', e | u⟩ g' hx
  · exact nofun
  · obtain ⟨gone, ptrs, -, hlen, hmem, rfl, rfl⟩ := hx
    exact fun _ _ => .moved hP (Moved.of_spill hlen pay n hmem) hr

omit [Keccak] in
theorem gcStep_keeps {P : RamNode → Prop} (picks : List (List Nat)) (h : FrontedWith P leak n g) :
    wp ((flat W).filter ok) (gcStep picks n) g fun x g' =>
      ∀ u, x.2 = .ok u → FrontedWith P leak x.1 g' := by
  obtain ⟨pay, rest, rfl, hr, hP⟩ := h
  refine wp_mono (gcStep_moves (E := fun _ => True) (fun _ _ _ _ _ => trivial) picks) ?_
  rintro ⟨n', e | u⟩ g' hx
  · exact nofun
  · obtain ⟨hmoved, rfl⟩ := hx
    exact fun _ _ => .moved hP hmoved hr

/-! ## The calls -/

theorem applyBlock_shows (hok : Faithful ok c) {db : Db} {ops : List (Key × StateOp)}
    (hops : ∀ e ∈ ops, e.2.Short) (passes : List (List Nibble → Bool))
    (h : FrontShows t leak db.upper g) :
    wp ((flat W).filter ok) (applyBlock env ops passes db) g fun x g' =>
      LeavesTree (Applies [] (normalizeBlock ops) t) leak x.1.upper x.2 g' := by
  obtain ⟨m, g0, rest, hp, rfl, hr, hs⟩ := h.placed
  have hnet := leavesTree_of_sim (R := Applies [] (normalizeBlock ops) t)
    (applyNet_sim (W := W) hok env db.ramMode (normalizeBlock ops) hp)
    ((applyNet_shows _ (.of_fits (normalizeBlock_fits hops)) m (shows_inline.mp hs)).mono
      fun _ _ h => h) hr
  refine wp_bind (wp_mono hnet ?_)
  rintro ⟨n1, e | inv⟩ g1 h1
  · exact LeavesTree.error e
  obtain ⟨t', hR, h1⟩ := h1 inv rfl
  have hspill : wp ((flat W).filter ok)
      (if !db.ramMode && env.hot then spillQuota passes n1 else .pure (n1, .ok ())) g1
        fun x g' => ∀ u, x.2 = .ok u → FrontShows t' leak x.1 g' := by
    split
    · exact spillQuota_keeps passes h1
    · exact fun _ _ => h1
  refine wp_bind (wp_mono hspill ?_)
  rintro ⟨n2, e | u⟩ g2 h2
  · exact LeavesTree.error e
  · exact fun _ _ => ⟨t', hR, (h2 u rfl).fill⟩

theorem insert_shows (hok : Faithful ok c) {db : Db} {op : LeafOp} (hop : op.Short)
    (ha : stateKind.Apart [] (keyNibbles key) t) (h : FrontShows t leak db.upper g) :
    wp ((flat W).filter ok) (insertRam env db.upper [] key op db.ramMode) g fun x g' =>
      LeavesTree (Call.Turns t · (.insert key op)) leak x.1 x.2 g' := by
  obtain ⟨m, g0, rest, hp, rfl, hr, hs⟩ := h.placed
  refine leavesTree_of_sim (insertRam_sim (W := W) hok env hp [] key op db.ramMode) ?_ hr
  have hins : Updates (insertRam env m (stateKind.root ++ []) key op db.ramMode) _ :=
    insertRam_shows (inserts_state hop) m (shows_inline.mp hs) (.inl rfl) stateKind_within_root ha rfl
  refine hins.mono ?_
  rintro n' _ ⟨b, hb, t', hn, hput, -⟩
  exact ⟨t', hn, b, hb, hput⟩

/-- A delete with its collapses, over the ideal store. -/
theorem deleteCall_sim (hok : Faithful ok c) (op : DeleteOp) (ram : Bool) (hp : Placed n m g) :
    IdealSim W ok (thenUpd (deleteRam env n [] key op ram) fun upper r =>
        match r with
        | .error e => .pure (upper, .error e)
        | .ok out => installRoot env upper out)
      (thenUpd (deleteRam env m [] key op ram) fun upper r =>
        match r with
        | .error e => .pure (upper, .error e)
        | .ok out => installRoot env upper out) g (AgreeOn c Placed (Left Placed)) := by
  refine thenUpd_sim id id (deleteRam_sim hok env hp [] key op ram) (fun _ _ => rfl)
    (fun _ _ => rfl) (fun s t g0 hs => ⟨g0, hs⟩) ?_
  rintro s u out out' g' hd
  exact installRoot_sim hok env hd

theorem deleteCall_shows (hok : Faithful ok c) {db : Db} {op : DeleteOp}
    (ha : stateKind.Apart [] (keyNibbles key) t) (h : FrontShows t leak db.upper g) :
    wp ((flat W).filter ok)
      (thenUpd (deleteRam env db.upper [] key op db.ramMode) fun upper r =>
        match r with
        | .error e => .pure (upper, .error e)
        | .ok out => installRoot env upper out) g fun x g' =>
      LeavesTree (Call.Turns t · (.delete key op)) leak x.1 x.2 g' := by
  obtain ⟨m, g0, rest, hp, rfl, hr, hs⟩ := h.placed
  refine leavesTree_of_sim (deleteCall_sim hok op db.ramMode hp) ?_ hr
  have hdel : Updates (deleteRam env m (stateKind.root ++ []) key op db.ramMode) _ :=
    deleteRam_shows (deletes_state op) m (shows_inline.mp hs) (.inl rfl) stateKind_within_root ha rfl
  refine Updates.thenUpd hdel (fun _ _ => .error _ _) ?_
  rintro n' out ⟨v, hv, hout⟩
  refine (installRoot_shows lifts_state rfl (shows_inline.mp hs) hout).mono ?_
  rintro u _ ⟨t', hu, hput⟩
  exact ⟨t', hu, v, out, hv, hput⟩

/-- A delete that finds nothing leaves the root as it was. -/
theorem deleteCall_root (hok : Faithful ok c) {db : Db} {op : DeleteOp}
    (ha : stateKind.Apart [] (keyNibbles key) t)
    (habs : ∀ a, t.get (keyNibbles key) = some a → leafDelete op a = .ok .absent)
    (h : FrontShows t leak db.upper g) :
    wp ((flat W).filter ok) (callProg env db (.delete key op)) g fun x _ =>
      ∀ reply, x.2 = .ok reply → hashRam x.1.upper = hashRam db.upper := by
  obtain ⟨m, g0, rest, hp, rfl, hr, hs⟩ := h.placed
  have hdel : Updates (deleteRam env m (stateKind.root ++ []) key op db.ramMode) _ :=
    deleteRam_shows (deletes_state op) m (shows_inline.mp hs) (.inl rfl) stateKind_within_root ha rfl
  have hideal : Updates (thenUpd (deleteRam env m [] key op db.ramMode) fun upper r =>
      match r with
      | .error e => .pure (upper, .error e)
      | .ok out => installRoot env upper out) fun n' _ => n' = m := by
    refine Updates.thenUpd hdel (fun _ _ => .error _ _) ?_
    rintro n' out ⟨v, hv, hout⟩
    obtain rfl : out = .absent := by
      cases hget : t.get (keyNibbles key) with
      | none =>
        rw [hget] at hv
        exact hv.2
      | some a =>
        rw [hget] at hv
        obtain ⟨d, hd, -, hout⟩ := hv
        rw [habs a hget] at hd
        cases hd
        exact hout rfl
    exact .ok hout.1
  refine wp_bind (wp_mono (wp_frame rest (deleteCall_sim hok op db.ramMode hp)) ?_)
  rintro ⟨n', e | u⟩ _ ⟨g', rfl, hx⟩
  · exact fun _ he => absurd he nofun
  · rintro reply -
    show hashRam (fillRam n') = _
    rw [hashRam_fillRam]
    cases hv : value ideal (thenUpd (deleteRam env m [] key op db.ramMode) fun upper r =>
      match r with
      | .error e => .pure (upper, .error e)
      | .ok out => installRoot env upper out) with
    | mk m' r' =>
      rw [hv] at hx
      cases r' with
      | error e => exact hx.elim
      | ok b =>
        have hm : m' = m := by
          have := hideal b (by rw [hv])
          rwa [hv] at this
        subst hm
        rw [← hashRam_placed hx.1, hashRam_placed hp]

omit [Keccak] in
theorem mem_dedupLeaves {entries : List (Key × Bytes)} {e : Key × Bytes}
    (h : e ∈ dedupLeaves entries) : e ∈ entries := by
  obtain ⟨e', he', hk, hv⟩ := lastWrite_eq_some ((mem_dedupLeaves_iff entries e.1 e.2).mp h)
  rwa [← Prod.ext (keyNibbles_injective hk) hv]

theorem insertBatch_shows (hok : Faithful ok c) {db : Db} {entries : List (Key × Bytes)}
    {arrange : List Group → List Group} (spill : Bool)
    (hcall : Call.Fit t (.insertBatch entries arrange spill)) (h : FrontShows t leak db.upper g)
    (hg : Scattered g) :
    wp ((flat W).filter ok) (insertBatchTo env db.ramMode spill arrange entries db.upper) g
      fun x g' => LeavesTree (Wrote [] entries t) leak x.1 x.2 g' := by
  obtain ⟨harr, hentries⟩ := hcall
  have hwrote {t' : Tree 16 StateLeaf} (h : Wrote [] (dedupLeaves entries) t t') : Wrote [] entries t t' :=
    fun p => (h p).trans (by rw [lastWrite_dedupLeaves])
  have hvals : Values (pathsOf t ∪ {p | ∃ e ∈ entries, p = keyNibbles e.1}) (dedupLeaves entries) :=
    fun e he => ⟨⟨.inr ⟨e, mem_dedupLeaves he, rfl⟩, (hentries e (mem_dedupLeaves he)).2⟩,
      (hentries e (mem_dedupLeaves he)).1⟩
  have hin : Inside (pathsOf t ∪ {p | ∃ e ∈ entries, p = keyNibbles e.1}) [] t :=
    inside_pathsOf Set.subset_union_left
  unfold insertBatchTo
  split
  next hnil => exact fun _ _ => ⟨t, hnil ▸ .nil [] t, h⟩
  obtain ⟨m, g0, rest, hp, rfl, hr, hs⟩ := h.placed
  have hs := shows_inline.mp hs
  dsimp only
  split
  next hram =>
    have hbatch := leavesTree_of_sim (R := Wrote [] entries t)
      (insertBatchRam_sim (W := W) hok env (dedupLeaves entries) hp)
      ((insertBatchRam_shows (dedupLeaves_nodup entries) hvals hs hin).mono
        fun _ _ ⟨t', h, _, hw⟩ => ⟨t', h, hwrote hw⟩) hr
    refine wp_bind (wp_mono hbatch ?_)
    rintro ⟨n1, e | u⟩ g1 h1
    · exact LeavesTree.error e
    · obtain ⟨t', hw, h1⟩ := h1 u rfl
      show wp _ (if spill then _ else _) _ _
      split
      · exact wp_mono (spillQuota_keeps _ h1) fun x g' hx u hu => ⟨t', hw, hx u hu⟩
      · exact fun _ _ => ⟨t', hw, h1⟩
  next hram =>
    have hg0 : Scattered g0 := hg.mono (Multiset.le_add_right _ _)
    obtain ⟨pay, hpay⟩ := hg0.payload
    refine wp_mono (wp_frame rest (insertBatchDisk_folds hok env harr (dedupLeaves entries) hp hg0 hpay)) ?_
    rintro ⟨n1, e | u⟩ _ ⟨g1, rfl, h1⟩
    · exact LeavesTree.error e
    · obtain ⟨m1, halone, h1⟩ := h1
      obtain ⟨t', hs', -, hw⟩ := batchAlone_shows hp hg0 hpay (dedupLeaves_nodup entries) hvals hs hin halone
      exact fun _ _ => ⟨t', hwrote hw, .of_placed h1 (shows_inline.mpr hs') hr⟩

/-- **A call that ends well leaves a tree**, changed as the call says. -/
theorem callProg_shows (hok : Faithful ok c) {db : Db} {call : Call}
    (hcall : ∀ b, call ≠ .gcInstall b) (hfit : call.Fit t) (h : FrontShows t leak db.upper g)
    (hg : Scattered g) : wp ((flat W).filter ok) (callProg env db call) g fun x g' =>
      LeavesTree (call.Turns t) leak x.1.upper x.2 g' := by
  cases call with
  | applyBlock ops passes => exact applyBlock_shows hok hfit passes h
  | insertBatch entries arrange spill =>
    exact replyRoot_shows _ (wp_mono (insertBatch_shows hok spill hfit h hg) fun x g' hx a ha =>
      let ⟨t', _, h'⟩ := hx a ha
      ⟨t', trivial, h'⟩)
  | insert key op => exact replyRoot_shows _ (insert_shows hok hfit.1 hfit.2 h)
  | delete key op => exact replyRoot_shows _ (deleteCall_shows hok hfit h)
  | gcStep picks =>
    refine wp_bind (wp_mono (gcStep_keeps picks h) ?_)
    rintro ⟨n1, e | u⟩ g1 h1
    · exact LeavesTree.error e
    · exact fun _ _ => ⟨t, rfl, h1 u rfl⟩
  | gcInstall batch => exact absurd rfl (hcall batch)
  | persist picks =>
    refine wp_bind (wp_mono (spillQuota_keeps [fun _ => true] h) ?_)
    rintro ⟨n1, e | u⟩ g1 h1
    · exact LeavesTree.error e
    refine wp_bind (wp_mono (gcStep_keeps picks (h1 u rfl)) ?_)
    rintro ⟨n2, e | u⟩ g2 h2
    · exact LeavesTree.error e
    · exact fun _ _ => ⟨t, rfl, h2 u rfl⟩

end

end

end FlatMpt
