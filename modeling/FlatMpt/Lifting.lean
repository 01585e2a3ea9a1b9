import FlatMpt.Shows

/-!
# Promotion keeps the tree

The frontier node that a promotion makes of a record shows the record's tree.

    LiftsLeaves          -- what promoting an oversized leaf must give
    promoteNode_shows
    makeLeafChild_shows  -- a new record
-/

namespace FlatMpt

open Prog
open Radix (Tree)
open Radix.Tree (Canon)

section
variable [Keccak] {α : Type} {K : Kind α} {env : Env} {q pfx : List Nibble} {t : Tree 16 α}

/-! ## New records -/

/-- A tree that a record at `q` can hold. -/
structure Kind.Records (K : Kind α) (q : List Nibble) (t : Tree 16 α) : Prop where
  length : q.length ≤ 64
  canon : Canon (64 - q.length) t
  fit : K.Fit t

theorem yields_recorded (h : K.Records q t) (ht : t ≠ .empty) (hpfx : pfx = K.root ++ q) :
    Yields (encode ⟨pfx, toNode K.form t⟩) fun payload =>
      Recorded K q t payload (hashNode (toNode K.form t)).finalize := by
  subst hpfx
  exact (yields_encode _).mono fun payload hp =>
    ⟨hp, rfl, h.length, h.canon, ht, h.fit⟩

theorem makeMemLeaf_shows (h : K.Records q t) (ht : t ≠ .empty) (hpfx : pfx = K.root ++ q) :
    Yields (makeMemLeaf ⟨pfx, toNode K.form t⟩) (ShowsSlot K q · t) :=
  (yields_recorded h ht hpfx).attempt fun _ hr => .ok (.mem hr)

/-- The pointer that names a record. -/
theorem shows_named {payload : Bytes} {root : Hash} (h : Recorded K q t payload root) :
    ShowsSlot K q (.disk (named payload) root) t := by
  refine .disk ?_
  rw [nameOf_named]
  exact h

theorem makeDiskLeaf_shows (h : K.Records q t) (ht : t ≠ .empty) (hpfx : pfx = K.root ++ q) :
    Yields (makeDiskLeaf ⟨pfx, toNode K.form t⟩) (ShowsSlot K q · t) :=
  (yields_recorded h ht hpfx).attempt fun payload hr =>
    (yields_writePayload payload).attempt fun _ hp => .ok (hp ▸ shows_named hr)

theorem makeLeafChild_shows (h : K.Records q t) (ht : t ≠ .empty) (hpfx : pfx = K.root ++ q)
    (ram : Bool) : Yields (makeLeafChild env ram ⟨pfx, toNode K.form t⟩) (ShowsSlot K q · t) := by
  unfold makeLeafChild
  split
  · exact makeMemLeaf_shows h ht hpfx
  · exact makeDiskLeaf_shows h ht hpfx

/-! ## Lifted branches -/

/-- A lifted child shows its tree; in RAM nothing is left to write. -/
def LiftedShows (K : Kind α) (ram : Bool) (q : List Nibble) (l : Lifted) (t : Tree 16 α) : Prop :=
  match l with
  | .none => t = .empty
  | .done slot => ShowsSlot K q slot t
  | .pending payload root => ram = false ∧ Recorded K q t payload root

variable {ts : Nibble → Tree 16 α} {ram : Bool}

theorem liftAll_shows {lift : Nibble → Act Lifted}
    (hlift : ∀ i, Yields (lift i) (LiftedShows K ram (q ++ [i]) · (ts i))) (l : List Nibble)
    {acc : Nibble → Lifted} (hacc : ∀ i, i ∉ l → LiftedShows K ram (q ++ [i]) (acc i) (ts i)) :
    Yields (liftAll lift l acc) fun lifts => ∀ i, LiftedShows K ram (q ++ [i]) (lifts i) (ts i) := by
  induction l generalizing acc with
  | nil => exact .ok fun i => hacc i List.not_mem_nil
  | cons j rest ih =>
    refine (hlift j).attempt fun x hx => ih fun i hi => ?_
    by_cases hij : i = j
    · subst hij
      rw [Function.update_self]
      exact hx
    · rw [Function.update_of_ne hij]
      exact hacc i fun hm => (List.mem_cons.mp hm).elim hij hi

theorem showsSlot_update {slots : Nibble → RamSlot} {j : Nibble} {slot : RamSlot} {u : Tree 16 α}
    (h : ∀ i, i ≠ j → ShowsSlot K (q ++ [i]) (slots i) (ts i)) (hs : ShowsSlot K (q ++ [j]) slot u) (i : Nibble) :
    ShowsSlot K (q ++ [i]) (Function.update slots j slot i) (Function.update ts j u i) := by
  by_cases hi : i = j
  · subst hi
    rw [Function.update_self, Function.update_self]
    exact hs
  · rw [Function.update_of_ne hi, Function.update_of_ne hi]
    exact h i hi

/-- The written children, in their slots. -/
theorem assignPtrs_shows {lifts : Nibble → Lifted}
    (h : ∀ i, LiftedShows K ram (q ++ [i]) (lifts i) (ts i)) {l : List Nibble} (hl : l.Nodup)
    (i : Nibble) :
    ShowsSlot K (q ++ [i]) (assignPtrs lifts l ((pendingPayloads lifts l).map named) i)
      (if i ∈ l then ts i else .empty) := by
  induction l with
  | nil => exact .none
  | cons j rest ih =>
    obtain ⟨hj, hrest⟩ := List.nodup_cons.mp hl
    have ih := ih hrest
    by_cases hij : i = j
    · subst hij
      rw [if_pos List.mem_cons_self]
      rw [if_neg hj] at ih
      have hi := h i
      cases hx : lifts i with
      | none =>
        rw [hx] at hi
        simp only [assignPtrs, pendingPayloads, hx]
        rw [show ts i = .empty from hi]
        exact ih
      | done slot =>
        rw [hx] at hi
        simp only [assignPtrs, pendingPayloads, hx, Function.update_self]
        exact hi
      | pending payload root =>
        rw [hx] at hi
        simp only [assignPtrs, pendingPayloads, hx, List.map_cons, Function.update_self]
        exact shows_named hi.2
    · have hmem : i ∈ j :: rest ↔ i ∈ rest := by simp [hij]
      simp only [hmem]
      cases hx : lifts j with
      | none =>
        simp only [assignPtrs, pendingPayloads, hx]
        exact ih
      | done slot =>
        simp only [assignPtrs, pendingPayloads, hx, Function.update_of_ne hij]
        exact ih
      | pending payload root =>
        simp only [assignPtrs, pendingPayloads, hx, List.map_cons, Function.update_of_ne hij]
        exact ih

/-- In RAM no child is left to write. -/
theorem pendingPayloads_ram {lifts : Nibble → Lifted}
    (h : ∀ i, LiftedShows K true (q ++ [i]) (lifts i) (ts i)) (l : List Nibble) :
    pendingPayloads lifts l = [] := by
  induction l with
  | nil => rfl
  | cons i rest ih =>
    have hi := h i
    cases hx : lifts i with
    | pending payload root =>
      rw [hx] at hi
      exact absurd hi.1 (by decide)
    | none =>
      simp only [pendingPayloads, hx]
      exact ih
    | done slot =>
      simp only [pendingPayloads, hx]
      exact ih

theorem liftBranch_shows {lift : Nibble → Act Lifted} (hq : q.length < 64)
    (hlift : ∀ i, Yields (lift i) (LiftedShows K ram (q ++ [i]) · (ts i))) :
    Yields (liftBranch ram lift) (Shows K q · (.branch ts)) := by
  have hnone (i : Nibble) (hi : i ∉ List.finRange 16) :
      LiftedShows K ram (q ++ [i]) .none (ts i) := absurd (List.mem_finRange i) hi
  refine (liftAll_shows hlift (List.finRange 16) hnone).attempt fun lifts h => ?_
  have hall (i : Nibble) := assignPtrs_shows h (List.nodup_finRange 16) i
  simp only [List.mem_finRange, if_true] at hall
  split
  · rename_i hram
    subst hram
    rw [pendingPayloads_ram h] at hall
    exact .ok (.branch hq hall (.none _))
  · exact (yields_writeBatch _).attempt fun ptrs hp => .ok (hp ▸ .branch hq hall (.none _))

/-! ## Promotion -/

/-- Promoting an oversized leaf. -/
def LiftsLeaves (K : Kind α) (env : Env) : Prop :=
  ∀ {q : List Nibble} {p : List Nibble} {a : α} (ram : Bool), p.length = 64 - q.length →
    q.length ≤ 64 → K.fits a →
    Yields (promoteOversized env (K.form.node p a) ram (K.root ++ q)) (ShowsSlot K q · (.leaf p a))

theorem wrapPath_shows {path : List Nibble} {n : RamNode} (hb : Tree.IsBranch t)
    (hc : Canon (64 - (q ++ path).length) t) (h : Shows K (q ++ path) n t) :
    Shows K q (wrapPath path n) (Tree.prepend path t) := by
  cases hb with
  | intro ts =>
    unfold wrapPath Tree.prepend
    split
    · rename_i hp
      rw [hp, List.append_nil] at h
      exact h
    · rename_i hp
      exact .extension hp ⟨ts⟩ hc h (.none _)

theorem Kind.Records.child (h : K.Records q (.branch ts)) (i : Nibble) :
    q.length < 64 ∧ K.Records (q ++ [i]) (ts i) := by
  have hlen : q.length < 64 := by
    cases h.canon with
    | branch hn _ _ => omega
  refine ⟨hlen, ⟨?_, ?_, fun k a hk => h.fit (i :: k) a hk⟩⟩
  · rw [List.length_append, List.length_singleton]
    omega
  · cases h.canon with
    | @branch _ m _ hn hc _ =>
      have : 64 - (q ++ [i]).length = m := by
        rw [List.length_append, List.length_singleton]
        omega
      rw [this]
      exact hc i

theorem Kind.Records.below {path : List Nibble} (h : K.Records q (.ext path t)) :
    path ≠ [] ∧ Tree.IsBranch t ∧ K.Records (q ++ path) t := by
  cases h.canon with
  | @ext _ m _ _ hp hn hb hc =>
    have hm : 0 < m := by
      cases hb
      cases hc with
      | branch hm _ _ => omega
    have hlen : 64 - (q ++ path).length = m := by
      rw [List.length_append]
      omega
    refine ⟨hp, hb, ?_, hlen ▸ hc, fun k a hk => h.fit (path ++ k) a ?_⟩
    · rw [List.length_append]
      omega
    · rw [Tree.get_ext_append, hk]

theorem promoteChild_of (h : K.Records q t) (hpfx : pfx = K.root ++ q)
    (ho : Yields (promoteOversized env (toNode K.form t) ram pfx) (ShowsSlot K q · t)) :
    Yields (promoteChild env (asChild (toNode K.form t)) ram pfx) (LiftedShows K ram q · t) := by
  by_cases ht : t = .empty
  · subst ht
    exact .ok rfl
  · rw [asChild_toNode K.form ht]
    unfold promoteChild
    split
    · exact ho.attempt fun _ hs => .ok hs
    · split
      · exact (makeMemLeaf_shows h ht hpfx).attempt fun _ hs => .ok hs
      · rename_i hram
        exact (yields_recorded h ht hpfx).attempt fun _ hr => .ok ⟨Bool.eq_false_iff.mpr hram, hr⟩

theorem promoteOversized_shows (hleaf : LiftsLeaves K env) (t : Tree 16 α) {q pfx : List Nibble}
    (h : K.Records q t) (hpfx : pfx = K.root ++ q) (ram : Bool) :
    Yields (promoteOversized env (toNode K.form t) ram pfx) (ShowsSlot K q · t) := by
  match t with
  | .empty => exact .refuse _
  | .leaf p a =>
    subst hpfx
    cases h.canon with
    | leaf hp => exact hleaf ram hp h.length (h.fit p a (by rw [Tree.get_leaf, if_pos rfl]))
  | .branch ts =>
    rw [toNode, makeBranch, promoteOversized]
    refine (liftBranch_shows (h.child 0).1 fun i => promoteChild_of (h.child i).2 ?_
      (promoteOversized_shows hleaf (ts i) (h.child i).2 ?_ ram)).attempt fun n hn =>
        .ok (.ram h.canon (fun h => by cases h) hn) <;>
    rw [hpfx, List.append_assoc]
  | .ext path (.branch ts) =>
    obtain ⟨hp, hb, hr⟩ := h.below
    rw [toNode, toNode, makeBranch, makeExtension, promoteOversized]
    refine (liftBranch_shows (hr.child 0).1 fun i => promoteChild_of (hr.child i).2 ?_
      (promoteOversized_shows hleaf (ts i) (hr.child i).2 ?_ ram)).attempt fun n hn =>
        .ok (.ram h.canon (fun h => by cases h) ?_)
    · rw [hpfx, List.append_assoc, List.append_assoc, List.append_assoc]
    · rw [hpfx, List.append_assoc, List.append_assoc, List.append_assoc]
    · have := wrapPath_shows hb hr.canon hn
      rwa [Tree.prepend, if_neg hp] at this
  | .ext path .empty => cases h.below.2.1
  | .ext path (.leaf ..) => cases h.below.2.1
  | .ext path (.ext ..) => cases h.below.2.1

theorem promoteChild_shows (hleaf : LiftsLeaves K env) (h : K.Records q t)
    (hpfx : pfx = K.root ++ q) :
    Yields (promoteChild env (asChild (toNode K.form t)) ram pfx) (LiftedShows K ram q · t) :=
  promoteChild_of h hpfx (promoteOversized_shows hleaf t h hpfx ram)

/-- Lifting a record's top branch. -/
theorem promoteNode_shows (hleaf : LiftsLeaves K env) (ram : Bool) (h : K.Records q t)
    (hpfx : pfx = K.root ++ q) :
    Yields (promoteNode env ram ⟨pfx, toNode K.form t⟩) fun n => Shows K q n t ∧ t ≠ .empty := by
  unfold promoteNode
  cases t with
  | empty => exact .fail _
  | leaf p a =>
    rcases K.form.leaf_or_account p a with ⟨v, r, hn⟩ | ⟨n, b, c, s, sr, r, hn⟩ <;>
    · rw [toNode, hn]
      exact .fail _
  | branch ts =>
    rw [toNode, makeBranch]
    refine (liftBranch_shows (h.child 0).1 fun i => promoteChild_shows hleaf (h.child i).2 ?_).mono
      fun n hn => ⟨hn, fun h => by cases h⟩
    rw [hpfx, List.append_assoc]
  | ext path c =>
    obtain ⟨hp, ⟨ts⟩, hr⟩ := h.below
    rw [toNode, toNode, makeBranch, makeExtension]
    refine (liftBranch_shows (hr.child 0).1 fun i =>
      promoteChild_shows hleaf (hr.child i).2 ?_).attempt fun n hn => .ok ⟨?_, fun h => by cases h⟩
    · rw [hpfx, List.append_assoc, List.append_assoc, List.append_assoc]
    · have := wrapPath_shows ⟨ts⟩ hr.canon hn
      rwa [Tree.prepend, if_neg hp] at this

theorem promoteToRam_shows (hleaf : LiftsLeaves K env) (ram : Bool) (h : K.Records q t)
    (hpfx : pfx = K.root ++ q) :
    Yields (promoteToRam env ram ⟨pfx, toNode K.form t⟩) (ShowsSlot K q · t) :=
  (promoteNode_shows hleaf ram h hpfx).attempt fun _ hn => .ok (.ram h.canon hn.2 hn.1)

/-! ## Rewritten records -/

/-- Promotion of leaves: of an oversized one, and of a single-account record. -/
structure Kind.Lifts (K : Kind α) (env : Env) : Prop where
  leaves : LiftsLeaves K env
  accounts : ∀ {q p : List Nibble} {a : α} (ram : Bool), p.length = 64 - q.length →
    q.length ≤ 64 → K.fits a →
    Yields (promoteAccountToRam env ram ⟨K.root ++ q, K.form.node p a⟩) (ShowsSlot K q · (.leaf p a))

theorem promoteAccount_shows (hL : K.Lifts env) (ram : Bool) (h : K.Records q t)
    (hpfx : pfx = K.root ++ q) :
    Yields (promoteAccountToRam env ram ⟨pfx, toNode K.form t⟩) (ShowsSlot K q · t) := by
  cases t with
  | empty => exact .fail _
  | leaf p a =>
    subst hpfx
    cases h.canon with
    | leaf hp => exact hL.accounts ram hp h.length (h.fit p a (by rw [Tree.get_leaf, if_pos rfl]))
  | ext p c => exact .fail _
  | branch ts => exact .fail _

theorem rewriteMem_shows (hL : K.Lifts env) (ram : Bool) (h : K.Records q t) (ht : t ≠ .empty)
    (hpfx : pfx = K.root ++ q) :
    Yields (rewriteMem env ram ⟨pfx, toNode K.form t⟩) (ShowsSlot K q · t) := by
  unfold rewriteMem
  split
  · exact promoteToRam_shows hL.leaves true h hpfx
  · split
    · exact promoteAccount_shows hL _ h hpfx
    · exact makeMemLeaf_shows h ht hpfx

theorem finishChild_shows (hL : K.Lifts env) (ram : Bool) (h : K.Records q t) (ht : t ≠ .empty)
    (hpfx : pfx = K.root ++ q) :
    Yields (finishChild env ram ⟨pfx, toNode K.form t⟩) (ShowsSlot K q · t) := by
  unfold finishChild
  split
  · exact promoteToRam_shows hL.leaves ram h hpfx
  · split
    · exact promoteAccount_shows hL _ h hpfx
    · exact makeLeafChild_shows h ht hpfx ram

theorem rewriteDisk_shows (hL : K.Lifts env) (ram : Bool) (ptr : DiskPtr) (root : Hash)
    (h : K.Records q t) (ht : t ≠ .empty) (hpfx : pfx = K.root ++ q) :
    Updates (rewriteDisk env ram ptr root ⟨pfx, toNode K.form t⟩) fun s _ => ShowsSlot K q s t := by
  unfold rewriteDisk
  split
  · exact .step ((promoteToRam_shows hL.leaves env.hot h hpfx).attemptOn fun _ hs => .ok hs)
  · split
    · exact .step ((promoteAccount_shows hL _ h hpfx).attemptOn fun _ hs => .ok hs)
    · split
      · exact .step ((makeMemLeaf_shows h ht hpfx).attemptOn fun _ hs => .ok hs)
      · have hserial : Yields (.pure (serializeSubtree ⟨pfx, toNode K.form t⟩)) fun payload =>
            Recorded K q t payload (hashNode (toNode K.form t)).finalize := by
          intro payload hp
          subst hpfx
          exact ⟨hp, rfl, h.length, h.canon, ht, h.fit⟩
        refine hserial.attemptOn fun payload hr => .step ?_
        exact (yields_writePayload payload).attemptOn fun _ hp => .ok (hp ▸ shows_named hr)

end

end FlatMpt
