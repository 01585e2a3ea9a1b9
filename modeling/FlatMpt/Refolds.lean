import FlatMpt.Inserts

/-!
# What a descent leaves

A descent that clears or changes one key reports what it did.  `Outcome` reads the
report: the node is as it was, it shows the tree with the key put, nothing is left, or
one record is left that must be re-homed below an edge.

    Outcome, OutcomeSlot
    afterExtension_outcome, afterChild_outcome   -- a level up
    rehomeChild_shows, collapseRoot_shows        -- the lone record
-/

namespace FlatMpt

open Prog
open Radix (Tree)
open Radix.Tree (Canon)

section
variable [Keccak] {α : Type} {K : Kind α} {env : Env} {q rest : List Nibble} {t : Tree 16 α}
  {v : Option α} {out : RamDelete}

/-- What the outcome says of the node left, `v` put at the key. -/
def Outcome (K : Kind α) (q : List Nibble) (t : Tree 16 α) (rest : List Nibble) (v : Option α)
    (n n' : RamNode) : RamDelete → Prop
  | .absent => n' = n ∧ v = t.get rest
  | .changed => ∃ t', t' ≠ .empty ∧ Shows K q n' t' ∧ Puts t rest v t' ∧
      (t ≠ .empty → Canon (64 - q.length) t → Canon (64 - q.length) t')
  | .removed => Puts t rest v .empty
  | .collapsed edge s => ∃ t', t' ≠ .empty ∧ edge ≠ [] ∧ (q ++ edge).length ≤ 64 ∧
      ShowsSlot K (q ++ edge) s t' ∧ Puts t rest v (Tree.prepend edge t')

/-- The same of a slot; a survivor has been re-homed. -/
def OutcomeSlot (K : Kind α) (q : List Nibble) (t : Tree 16 α) (rest : List Nibble) (v : Option α)
    (s s' : RamSlot) : RamDelete → Prop
  | .absent => s' = s ∧ v = t.get rest
  | .changed => ∃ t', t' ≠ .empty ∧ ShowsSlot K q s' t' ∧ Puts t rest v t'
  | .removed => s' = .none ∧ Puts t rest v .empty
  | .collapsed .. => False

/-! ## Stretches -/

/-- A frontier node below a stretch of path. -/
theorem extendBy_shows {edge : List Nibble} {sub n : RamNode} (he : edge ≠ [])
    (hc : Canon (64 - (q ++ edge).length) t) (h : Shows K (q ++ edge) sub t)
    (hn : extendBy edge sub = .ok n) : Shows K q n (Tree.prepend edge t) := by
  cases h with
  | empty => cases hn
  | @extension _ path child u hash hp hb hcc hch hh =>
    cases hn
    rw [List.append_assoc] at hcc hch
    exact .extension (by simp [he]) hb hcc hch (.none _)
  | @branch _ slots ts hash hq hs hh =>
    cases hn
    rw [Tree.prepend, if_neg he]
    exact .extension he ⟨ts⟩ hc (.branch hq hs hh) (.none _)

theorem mergeExtension_shows {path : List Nibble} {child : RamNode} (hp : path ≠ [])
    (ht : t ≠ .empty) (hc : Canon (64 - (q ++ path).length) t) (h : Shows K (q ++ path) child t) :
    Shows K q (mergeExtension path child) (Tree.prepend path t) := by
  cases h with
  | empty => exact absurd rfl ht
  | @extension _ cpath child u hash hp' hb hcc hch hh =>
    rw [List.append_assoc] at hcc hch
    exact .extension (by simp [hp]) hb hcc hch (.none _)
  | @branch _ slots ts hash hq hs hh =>
    rw [Tree.prepend, if_neg hp]
    exact .extension hp ⟨ts⟩ hc (.branch hq hs hh) (.none _)

theorem Kind.Records.prepend {edge : List Nibble} (h : K.Records (q ++ edge) t) :
    K.Records q (Tree.prepend edge t) := by
  have hlen := h.length
  rw [List.length_append] at hlen
  refine ⟨by omega, h.canon.prepend edge (by rw [List.length_append]; omega), fun k a hk => ?_⟩
  obtain ⟨k', -, hk'⟩ := Tree.get_prepend_eq_some hk
  exact h.fit k' a hk'

theorem ShowsSlot.prepend_canon {edge : List Nibble} {s : RamSlot} (h : ShowsSlot K (q ++ edge) s t)
    (hlen : (q ++ edge).length ≤ 64) : Canon (64 - q.length) (Tree.prepend edge t) := by
  rw [List.length_append] at hlen
  exact h.canon.prepend edge (by rw [List.length_append]; omega)

/-- A survivor's record below the edge. -/
theorem yields_prepended {edge : List Nibble} (ht : t ≠ .empty) :
    Yields (.pure (prependPath (toNode K.form t) edge)) (· = toNode K.form (Tree.prepend edge t)) := by
  rw [prependPath_toNode K.form ht]
  rintro _ ⟨⟩
  rfl

theorem rehomeChild_shows {edge : List Nibble} {s : RamSlot} (ram : Bool) (he : edge ≠ [])
    (ht : t ≠ .empty) (hlen : (q ++ edge).length ≤ 64) (h : ShowsSlot K (q ++ edge) s t) :
    Yields (rehomeChild env ram s edge (K.root ++ q)) (ShowsSlot K q · (Tree.prepend edge t)) := by
  have hne : Tree.prepend edge t ≠ .empty := mt Tree.prepend_eq_empty.mp ht
  have hcan := h.prepend_canon hlen
  unfold rehomeChild
  cases h with
  | none => exact .fail _
  | ram hc _ h =>
    refine .pure fun s hs => ?_
    cases hn : extendBy edge _ with
    | error e =>
      rw [hn] at hs
      cases hs
    | ok n =>
      rw [hn] at hs
      cases hs
      exact .ram hcan hne (extendBy_shows he hc h hn)
  | disk h =>
    refine (yields_readRecord h).attempt ?_
    rintro _ rfl
    refine (yields_prepended ht).attempt ?_
    rintro _ rfl
    exact .step (makeLeafChild_shows h.records.prepend hne rfl ram)
  | mem h =>
    refine (yields_record h).attempt ?_
    rintro _ rfl
    refine (yields_prepended ht).attempt ?_
    rintro _ rfl
    exact makeMemLeaf_shows h.records.prepend hne rfl
  | @account _ path _ _ _ _ a hp ha hl =>
    refine .ok (.account ?_ ha ?_)
    · rw [List.length_append] at hlen hp ⊢
      omega
    · simpa only [List.append_assoc] using hl

/-! ## A level up -/

theorem afterExtension_outcome {path : List Nibble} {child child' : RamNode} {hash : Option Hash}
    (hp : path ≠ []) (hb : Tree.IsBranch t) (hc : Canon (64 - (q ++ path).length) t)
    (h : Outcome K (q ++ path) t rest v child child' out) :
    Updates (.pure (afterExtension path child' hash out)) fun n out' =>
      Outcome K q (.ext path t) (path ++ rest) v (.extension path child hash) n out' ∧
        (out = .absent → out' = .absent) := by
  have ht : t ≠ .empty := by
    cases hb
    simp
  have hext : Tree.prepend path t = .ext path t := by
    cases hb
    exact if_neg hp
  have hput {t' : Tree 16 α} (h : Puts t rest v t') :
      Puts (.ext path t) (path ++ rest) v (Tree.prepend path t') := by
    have := h.prepend (p := path)
    rwa [hext] at this
  have hlen := isBranch_length_lt hb hc
  rw [List.length_append] at hlen
  match out with
  | .absent =>
    obtain ⟨rfl, hv⟩ := h
    exact .ok ⟨⟨rfl, by rw [Tree.get_ext_append, hv]⟩, fun _ => rfl⟩
  | .changed =>
    obtain ⟨t', ht', hn, hp', hcan⟩ := h
    have hc' := hcan ht hc
    refine .ok ⟨⟨_, mt Tree.prepend_eq_empty.mp ht', mergeExtension_shows hp ht' hc' hn, hput hp',
      fun _ _ => hc'.prepend path ?_⟩, nofun⟩
    rw [List.length_append]
    omega
  | .removed => exact .ok ⟨hput h, nofun⟩
  | .collapsed edge s =>
    obtain ⟨t', ht', he, hl, hs, hp'⟩ := h
    rw [List.append_assoc] at hl hs
    refine .ok ⟨⟨t', ht', by simp [hp], hl, hs, ?_⟩, nofun⟩
    rw [← Tree.prepend_prepend]
    exact hput hp'

theorem ramSurvivors_shows {slots : Nibble → RamSlot} {ts : Nibble → Tree 16 α}
    (h : ∀ i, ShowsSlot K (q ++ [i]) (slots i) (ts i)) :
    ramSurvivors slots = (List.finRange 16).filter fun i => !(ts i).isEmpty := by
  unfold ramSurvivors
  congr 1
  funext i
  exact (h i).isSome

/-- What re-folding a branch leaves of its tree. -/
def Refolded (K : Kind α) (q : List Nibble) (ts : Nibble → Tree 16 α) (n : RamNode) :
    RamDelete → Prop
  | .absent => False
  | .changed => Tree.collapse ts ≠ .empty ∧ Shows K q n (Tree.collapse ts)
  | .removed => Tree.collapse ts = .empty
  | .collapsed edge s => ∃ t, t ≠ .empty ∧ edge ≠ [] ∧ (q ++ edge).length ≤ 64 ∧
      ShowsSlot K (q ++ edge) s t ∧ Tree.collapse ts = Tree.prepend edge t

theorem refoldBranch_shows {slots : Nibble → RamSlot} {ts : Nibble → Tree 16 α} (hq : q.length < 64)
    (h : ∀ i, ShowsSlot K (q ++ [i]) (slots i) (ts i)) :
    Updates (.pure (refoldBranch slots)) (Refolded K q ts) := by
  have hne {j : Nibble} (hj : j ∈ (List.finRange 16).filter fun i => !(ts i).isEmpty) :
      ts j ≠ .empty := by
    intro h
    simp [h, Tree.isEmpty] at hj
  unfold refoldBranch
  rw [ramSurvivors_shows h]
  cases hl : (List.finRange 16).filter fun i => !(ts i).isEmpty with
  | nil =>
    have hcol : Tree.collapse ts = .empty := by
      unfold Tree.collapse
      rw [hl]
    exact .ok hcol
  | cons j l =>
    cases l with
    | nil =>
      have hcol : Tree.collapse ts = Tree.prepend [j] (ts j) := by
        unfold Tree.collapse
        rw [hl]
      have hj : ts j ≠ .empty := hne (by rw [hl]; exact List.mem_singleton_self j)
      have hs := h j
      have hlone {s : RamSlot} (hs : ShowsSlot K (q ++ [j]) s (ts j)) :
          Refolded K q ts .empty (.collapsed [j] s) := by
        refine ⟨ts j, hj, by simp, ?_, hs, hcol⟩
        rw [List.length_append, List.length_singleton]
        omega
      dsimp only
      cases hj' : slots j with
      | ram sub =>
        rw [hj'] at hs
        cases hs with
        | ram hc _ hsub =>
          dsimp only
          cases hn : extendBy [j] sub with
          | error e => exact .error _ _
          | ok n =>
            have hshow : Shows K q n (Tree.collapse ts) :=
              hcol ▸ extendBy_shows (by simp) hc hsub hn
            exact .ok ⟨hcol ▸ mt Tree.prepend_eq_empty.mp hj, hshow⟩
      | none => exact .ok (hlone (hj' ▸ hs))
      | disk ptr root => exact .ok (hlone (hj' ▸ hs))
      | mem bytes root => exact .ok (hlone (hj' ▸ hs))
      | account => exact .ok (hlone (hj' ▸ hs))
    | cons i l =>
      have hcol : Tree.collapse ts = .branch ts := by
        unfold Tree.collapse
        rw [hl]
      have hshow : Shows K q (.branch slots none) (Tree.collapse ts) := hcol ▸ .branch hq h (.none _)
      exact .ok ⟨(fun h => by rw [hcol] at h; cases h), hshow⟩

theorem afterChild_outcome {slots : Nibble → RamSlot} {ts : Nibble → Tree 16 α} {i : Nibble}
    {s : RamSlot} {hash : Option Hash} (hq : q.length < 64)
    (h : ∀ l, ShowsSlot K (q ++ [l]) (slots l) (ts l))
    (ho : OutcomeSlot K (q ++ [i]) (ts i) rest v (slots i) s out) :
    Updates (.pure (afterChild (Function.update slots i s) hash out)) fun n out' =>
      Outcome K q (.branch ts) (i :: rest) v (.branch slots hash) n out' ∧
        (out = .absent → out' = .absent) := by
  match out with
  | .absent =>
    obtain ⟨rfl, hv⟩ := ho
    rw [Function.update_eq_self]
    exact .ok ⟨⟨rfl, hv⟩, fun _ => rfl⟩
  | .changed =>
    obtain ⟨t', ht', hs, hp⟩ := ho
    have hslots := showsSlot_update (fun l _ => h l) hs
    refine .ok ⟨⟨.branch (Function.update ts i t'), nofun, .branch hq hslots (.none _), hp.branch,
      fun _ hc => canon_branch hq (fun l => (hslots l).canon) ?_⟩, nofun⟩
    cases hc with
    | branch _ _ h2 => exact Tree.twoChildren_update h2 i ht'
  | .removed =>
    obtain ⟨rfl, hp⟩ := ho
    have hslots := showsSlot_update (fun l _ => h l) (.none : ShowsSlot K (q ++ [i]) .none .empty)
    have hput : Puts (.branch ts) (i :: rest) v (Tree.collapse (Function.update ts i .empty)) :=
      fun p => (Tree.get_collapse _ p).trans (hp.branch p)
    have hcan : Canon (64 - q.length) (Tree.collapse (Function.update ts i .empty)) := by
      refine Canon.collapse (m := 64 - (q.length + 1)) (fun l => ?_) (by omega)
      have := (hslots l).canon
      rwa [List.length_append, List.length_singleton] at this
    refine (refoldBranch_shows hq hslots).mono fun n out hr => ⟨?_, nofun⟩
    match out with
    | .absent => exact hr.elim
    | .changed => exact ⟨_, hr.1, hr.2, hput, fun _ _ => hcan⟩
    | .removed =>
      rw [show Tree.collapse _ = .empty from hr] at hput
      exact hput
    | .collapsed edge s =>
      obtain ⟨t, ht, he, hl, hs, heq⟩ := hr
      exact ⟨t, ht, he, hl, hs, heq ▸ hput⟩
  | .collapsed .. => exact ho.elim

/-! ## The lone record -/

theorem materializeStorageSurvivor_shows {edge : List Nibble} {s : RamSlot} (ht : t ≠ .empty)
    (h : ShowsSlot K (q ++ edge) s t) : Yields (materializeStorageSurvivor s edge)
      (· = toNode K.form (Tree.prepend edge t)) := by
  unfold materializeStorageSurvivor
  cases h with
  | none => exact .fail _
  | ram _ _ _ => exact .fail _
  | disk h =>
    refine (yields_readRecord h).attempt ?_
    rintro _ rfl
    exact (yields_prepended ht).attempt fun _ hn => .step (.ok hn)
  | mem h =>
    refine (yields_record h).attempt ?_
    rintro _ rfl
    exact yields_prepended ht
  | account => exact .fail _

/-- The tree of a storage frontier that fell below promoted form. -/
theorem demotedStorage_shows {n n' : RamNode} (h : Outcome K q t rest v n n' out) :
    Yields (demotedStorage out) fun node =>
      ∃ u, node = toNode K.form u ∧ Canon (64 - q.length) u ∧ Puts t rest v u := by
  match out with
  | .absent => exact .fail _
  | .changed => exact .fail _
  | .removed => exact .ok ⟨.empty, rfl, .empty, h⟩
  | .collapsed edge s =>
    obtain ⟨t', ht', -, hl, hs, hp⟩ := h
    exact (materializeStorageSurvivor_shows ht' hs).mono fun node hn =>
      ⟨_, hn, hs.prepend_canon hl, hp⟩

theorem collapseRoot_shows {edge : List Nibble} {s : RamSlot} (hL : K.Lifts env) (hroot : K.root = [])
    (ht : t ≠ .empty) (h : ShowsSlot K edge s t) :
    Yields (collapseRoot env edge s) (Shows K [] · (Tree.prepend edge t)) := by
  have hrebuild (hr : K.Records edge t) : Yields
      (if hasTopBranch (toNode K.form (Tree.prepend edge t)) then
        promoteNode env false ⟨[], toNode K.form (Tree.prepend edge t)⟩
      else Act.fail .singleLeafRoot) (Shows K [] · (Tree.prepend edge t)) := by
    split
    · exact (promoteNode_shows hL.leaves false (Kind.Records.prepend (q := []) hr)
        (by rw [hroot]; rfl)).mono fun n hn => hn.1
    · exact .fail _
  unfold collapseRoot
  cases h with
  | none => exact .fail _
  | ram _ _ _ => exact .fail _
  | disk h =>
    refine (yields_readRecord h).attempt ?_
    rintro _ rfl
    refine (yields_prepended ht).attempt ?_
    rintro _ rfl
    exact .step (hrebuild h.records)
  | mem h =>
    refine (yields_record h).attempt ?_
    rintro _ rfl
    refine (yields_prepended ht).attempt ?_
    rintro _ rfl
    exact hrebuild h.records
  | account => exact .fail _

end

end FlatMpt
