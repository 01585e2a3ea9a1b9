import FlatMpt.Workers

/-!
# Batches over the ideal store

A batch reads each touched record once and splices the results into the frontier.
The results land in slots of their own, so their order does not matter.

    routeKey             -- the path of the record that a key routes to
    installAtKey_comm    -- two results in two slots
    installResults_perm, installResults_placed
    insertBatchDisk_folds
-/

namespace FlatMpt

open Prog

/-! ## Routes -/

mutual

/-- The path of the disk slot that a key routes to. -/
def routeKey : RamNode → List Nibble → Option (List Nibble)
  | .empty, _ => none
  | .extension path child _, nibbles =>
    if path.isPrefixOf nibbles then (routeKey child (nibbles.drop path.length)).map (path ++ ·)
    else none
  | .branch children _, nibbles =>
    match nibbles with
    | [] => none
    | idx :: rest => (routeSlotKey (children idx) rest).map (idx :: ·)

def routeSlotKey : RamSlot → List Nibble → Option (List Nibble)
  | .ram child, rest => routeKey child rest
  | .disk .., _ => some []
  | _, _ => none

end

mutual

theorem routeKey_isSome (n : RamNode) (k : List Nibble) :
    (routeKey n k).isSome = (findDiskPtrKey n k).isSome := by
  match n with
  | .empty => rfl
  | .extension path child _ =>
    unfold routeKey findDiskPtrKey
    split
    · rw [Option.isSome_map, routeKey_isSome child]
    · rfl
  | .branch children _ =>
    unfold routeKey findDiskPtrKey
    cases k with
    | nil => rfl
    | cons idx rest =>
      show ((routeSlotKey (children idx) rest).map _).isSome = (findSlotPtrKey (children idx) rest).isSome
      rw [Option.isSome_map, routeSlotKey_isSome (children idx)]

theorem routeSlotKey_isSome (s : RamSlot) (k : List Nibble) :
    (routeSlotKey s k).isSome = (findSlotPtrKey s k).isSome := by
  match s with
  | .none => rfl
  | .ram child => exact routeKey_isSome child k
  | .disk .. => rfl
  | .account .. => rfl
  | .mem .. => rfl

end

mutual

/-- A slot holds one record. -/
theorem findDiskPtrKey_of_route (n : RamNode) {k k' p : List Nibble} (h : routeKey n k = some p)
    (h' : routeKey n k' = some p) : findDiskPtrKey n k = findDiskPtrKey n k' := by
  match n with
  | .empty => cases h
  | .extension path child _ =>
    unfold routeKey at h h'
    unfold findDiskPtrKey
    split at h
    · split at h'
      · rename_i hk hk'
        obtain ⟨q, hq, rfl⟩ := Option.map_eq_some_iff.mp h
        obtain ⟨q', hq', he⟩ := Option.map_eq_some_iff.mp h'
        rw [List.append_cancel_left he] at hq'
        rw [if_pos hk, if_pos hk']
        exact findDiskPtrKey_of_route child hq hq'
      · cases h'
    · cases h
  | .branch children _ =>
    unfold routeKey at h h'
    cases k with
    | nil => cases h
    | cons idx rest =>
      cases k' with
      | nil => cases h'
      | cons idx' rest' =>
        obtain ⟨q, hq, rfl⟩ := Option.map_eq_some_iff.mp h
        obtain ⟨q', hq', he⟩ := Option.map_eq_some_iff.mp h'
        injection he with hi he
        subst hi he
        exact findSlotPtrKey_of_route (children idx') hq hq'

theorem findSlotPtrKey_of_route (s : RamSlot) {k k' p : List Nibble}
    (h : routeSlotKey s k = some p) (h' : routeSlotKey s k' = some p) :
    findSlotPtrKey s k = findSlotPtrKey s k' := by
  match s with
  | .none => cases h
  | .ram child => exact findDiskPtrKey_of_route child h h'
  | .disk .. => rfl
  | .account .. => cases h
  | .mem .. => cases h

end

mutual

/-- A routed key has a slot to replace; the other slots keep their routes. -/
theorem installAtKey_route (n : RamNode) {k p : List Nibble} (h : routeKey n k = some p) (s : RamSlot) :
    ∃ m, installAtKey n k s = some m ∧
      ∀ k' p', routeKey n k' = some p' → p ≠ p' →
        routeKey m k' = some p' ∧ findDiskPtrKey m k' = findDiskPtrKey n k' := by
  match n with
  | .empty => cases h
  | .extension path child _ =>
    unfold routeKey at h
    split at h
    · obtain ⟨q, hq, rfl⟩ := Option.map_eq_some_iff.mp h
      obtain ⟨m, hm, hother⟩ := installAtKey_route child hq s
      refine ⟨.extension path m none, ?_, ?_⟩
      · unfold installAtKey
        rw [hm]
        rfl
      · intro k' p' hk' hp
        unfold routeKey at hk'
        unfold routeKey findDiskPtrKey
        split at hk'
        · rename_i hpath
          obtain ⟨q', hq', rfl⟩ := Option.map_eq_some_iff.mp hk'
          obtain ⟨hr, hf⟩ := hother _ q' hq' fun he => hp (by rw [he])
          rw [if_pos hpath, if_pos hpath, if_pos hpath, hr, hf]
          exact ⟨rfl, rfl⟩
        · cases hk'
    · cases h
  | .branch children _ =>
    unfold routeKey at h
    cases k with
    | nil => cases h
    | cons idx rest =>
      obtain ⟨q, hq, rfl⟩ := Option.map_eq_some_iff.mp h
      obtain ⟨t, ht, hother⟩ := installAtSlot_route (children idx) hq s
      refine ⟨.branch (Function.update children idx t) none, ?_, ?_⟩
      · unfold installAtKey
        dsimp only
        rw [ht]
        rfl
      · intro k' p' hk' hp
        unfold routeKey at hk'
        unfold routeKey findDiskPtrKey
        cases k' with
        | nil => cases hk'
        | cons idx' rest' =>
          obtain ⟨q', hq', rfl⟩ := Option.map_eq_some_iff.mp hk'
          dsimp only
          by_cases hi : idx' = idx
          · subst hi
            obtain ⟨hr, hf⟩ := hother _ q' hq' fun he => hp (by rw [he])
            rw [Function.update_self, hr, hf]
            exact ⟨rfl, rfl⟩
          · rw [Function.update_of_ne hi, hq']
            exact ⟨rfl, rfl⟩

theorem installAtSlot_route (slot : RamSlot) {k p : List Nibble} (h : routeSlotKey slot k = some p)
    (s : RamSlot) :
    ∃ t, installAtSlot slot k s = some t ∧
      ∀ k' p', routeSlotKey slot k' = some p' → p ≠ p' →
        routeSlotKey t k' = some p' ∧ findSlotPtrKey t k' = findSlotPtrKey slot k' := by
  match slot with
  | .none => cases h
  | .ram child =>
    obtain ⟨m, hm, hother⟩ := installAtKey_route child h s
    refine ⟨.ram m, ?_, hother⟩
    unfold installAtSlot
    rw [hm]
    rfl
  | .disk .. =>
    refine ⟨s, rfl, ?_⟩
    intro k' p' hk' hp
    cases h
    cases hk'
    exact absurd rfl hp
  | .account .. => cases h
  | .mem .. => cases h

end

mutual

/-- Results in two slots land in either order. -/
theorem installAtKey_comm (n : RamNode) {k k' p p' : List Nibble} (h : routeKey n k = some p)
    (h' : routeKey n k' = some p') (hp : p ≠ p') (s s' : RamSlot) :
    ((installAtKey n k s).bind fun m => installAtKey m k' s') =
      (installAtKey n k' s').bind fun m => installAtKey m k s := by
  match n with
  | .empty => rfl
  | .extension path child _ =>
    unfold routeKey at h h'
    split at h
    · split at h'
      · obtain ⟨q, hq, rfl⟩ := Option.map_eq_some_iff.mp h
        obtain ⟨q', hq', rfl⟩ := Option.map_eq_some_iff.mp h'
        have hc := installAtKey_comm child hq hq' (fun he => hp (by rw [he])) s s'
        obtain ⟨m, hm, -⟩ := installAtKey_route child hq s
        obtain ⟨m', hm', -⟩ := installAtKey_route child hq' s'
        rw [hm, hm'] at hc
        simp only [installAtKey, hm, hm', Option.map_some, Option.bind_some]
        exact congrArg (Option.map fun child => RamNode.extension path child none) hc
      · cases h'
    · cases h
  | .branch children _ =>
    unfold routeKey at h h'
    cases k with
    | nil => cases h
    | cons idx rest =>
      cases k' with
      | nil => cases h'
      | cons idx' rest' =>
        obtain ⟨q, hq, rfl⟩ := Option.map_eq_some_iff.mp h
        obtain ⟨q', hq', rfl⟩ := Option.map_eq_some_iff.mp h'
        obtain ⟨t, ht, -⟩ := installAtSlot_route (children idx) hq s
        obtain ⟨t', ht', -⟩ := installAtSlot_route (children idx') hq' s'
        by_cases hi : idx = idx'
        · subst hi
          have hc := installAtSlot_comm (children idx) hq hq' (fun he => hp (by rw [he])) s s'
          rw [ht, ht'] at hc
          simp only [installAtKey, ht, ht', Option.map_some, Option.bind_some, Function.update_self,
            Function.update_idem]
          exact congrArg (Option.map fun slot =>
            RamNode.branch (Function.update children idx slot) none) hc
        · simp only [installAtKey, ht, ht', Option.map_some, Option.bind_some,
            Function.update_of_ne hi, Function.update_of_ne (Ne.symm hi)]
          rw [Function.update_comm hi]

theorem installAtSlot_comm (slot : RamSlot) {k k' p p' : List Nibble}
    (h : routeSlotKey slot k = some p) (h' : routeSlotKey slot k' = some p') (hp : p ≠ p')
    (s s' : RamSlot) :
    ((installAtSlot slot k s).bind fun m => installAtSlot m k' s') =
      (installAtSlot slot k' s').bind fun m => installAtSlot m k s := by
  match slot with
  | .none => rfl
  | .ram child =>
    have hc := installAtKey_comm child h h' hp s s'
    obtain ⟨m, hm, -⟩ := installAtKey_route child h s
    obtain ⟨m', hm', -⟩ := installAtKey_route child h' s'
    rw [hm, hm'] at hc
    simp only [installAtSlot, hm, hm', Option.map_some, Option.bind_some]
    exact congrArg (Option.map RamSlot.ram) hc
  | .disk .. =>
    cases h
    cases h'
    exact absurd rfl hp
  | .account .. => cases h
  | .mem .. => cases h

end

/-! ## Results in their slots -/

/-- The keys route to slots of their own. -/
structure Routed (n : RamNode) (path : Key → List Nibble) (ks : List Key) : Prop where
  route : ∀ k ∈ ks, routeKey n (keyNibbles k) = some (path k)
  apart : (ks.map path).Nodup

theorem Routed.cons {n : RamNode} {path : Key → List Nibble} {k : Key} {ks : List Key}
    (h : Routed n path (k :: ks)) (s : RamSlot) :
    ∃ m, installAtKey n (keyNibbles k) s = some m ∧ Routed m path ks ∧
      ∀ k' ∈ ks, findDiskPtrKey m (keyNibbles k') = findDiskPtrKey n (keyNibbles k') := by
  obtain ⟨hk, hks⟩ := List.nodup_cons.mp h.apart
  obtain ⟨m, hm, hother⟩ := installAtKey_route n (h.route k List.mem_cons_self) s
  have hk' : ∀ k' ∈ ks, _ := fun k' hk' =>
    hother _ _ (h.route k' (List.mem_cons_of_mem _ hk')) fun he => hk (by
      rw [he]
      exact List.mem_map_of_mem hk')
  exact ⟨m, hm, ⟨fun k' hm' => (hk' k' hm').1, hks⟩, fun k' hm' => (hk' k' hm').2⟩

theorem Routed.perm {n : RamNode} {path : Key → List Nibble} {ks ks' : List Key}
    (h : Routed n path ks) (hp : ks.Perm ks') : Routed n path ks' :=
  ⟨fun k hk => h.route k (hp.mem_iff.mpr hk), ((hp.map path).nodup_iff).mp h.apart⟩

theorem installResults_cons (e : Key × RamSlot) (l : List (Key × RamSlot)) {n m : RamNode}
    (h : installAtKey n (keyNibbles e.1) e.2 = some m) :
    installResults (e :: l) n = installResults l m := by
  unfold installResults
  rw [List.foldl_cons, h]
  rfl

/-- Results may land in any order. -/
theorem installResults_perm {l l' : List (Key × RamSlot)} (hp : l.Perm l') {n : RamNode}
    {path : Key → List Nibble} (h : Routed n path (l.map Prod.fst)) :
    installResults l n = installResults l' n := by
  induction hp generalizing n with
  | nil => rfl
  | @cons e l l' _ ih =>
    obtain ⟨m, hm, hr, -⟩ := h.cons e.2
    rw [installResults_cons e l hm, installResults_cons e l' hm]
    exact ih hr
  | swap e e' l =>
    have hr := h.route
    obtain ⟨m, hm, hr1, -⟩ := h.cons e'.2
    obtain ⟨m', hm', hr2, -⟩ := (h.perm (.swap e.1 e'.1 _)).cons e.2
    obtain ⟨m2, hm2, -⟩ := hr1.cons e.2
    obtain ⟨m2', hm2', -⟩ := hr2.cons e'.2
    have hne : path e'.1 ≠ path e.1 := by
      have := (List.nodup_cons.mp h.apart).1
      exact fun he => this (by
        rw [he]
        exact List.mem_cons_self)
    have hc := installAtKey_comm n (hr e'.1 List.mem_cons_self)
      (hr e.1 (List.mem_cons_of_mem _ List.mem_cons_self)) hne e'.2 e.2
    rw [hm, hm', Option.bind_some, Option.bind_some, hm2, hm2'] at hc
    cases hc
    rw [installResults_cons e' _ hm, installResults_cons e _ hm2, installResults_cons e _ hm',
      installResults_cons e' _ hm2']
  | trans hp _ ih ih' => rw [ih h, ih' (h.perm (hp.map Prod.fst))]

mutual

/-- A slot is replaced in both stores; its record is given up. -/
theorem installAtKey_placed {n c : RamNode} {g : Multiset Rec} (h : Placed n c g) {k p : List Nibble}
    (hk : routeKey n k = some p) :
    ∃ ptr b rest, findDiskPtrKey n k = some ptr ∧ findDiskPtrKey c k = some (named b) ∧
      routeKey c k = some p ∧ g = {(ptr, b)} + rest ∧
      ∀ s t gs, PlacedSlot s t gs → ∃ m m', installAtKey n k s = some m ∧
        installAtKey c k t = some m' ∧ Placed m m' (gs + rest) := by
  match h with
  | .empty => cases hk
  | @Placed.extension path n c _ g h =>
    unfold routeKey at hk
    split at hk
    · rename_i hpath
      obtain ⟨q, hq, rfl⟩ := Option.map_eq_some_iff.mp hk
      obtain ⟨ptr, b, rest, hn, hc, hr, rfl, hput⟩ := installAtKey_placed h hq
      refine ⟨ptr, b, rest, ?_, ?_, ?_, rfl, ?_⟩
      · unfold findDiskPtrKey
        rw [if_pos hpath, hn]
      · unfold findDiskPtrKey
        rw [if_pos hpath, hc]
      · unfold routeKey
        rw [if_pos hpath, hr]
        rfl
      · intro s t gs hs
        obtain ⟨m, m', hm, hm', hp⟩ := hput s t gs hs
        refine ⟨.extension path m none, .extension path m' none, ?_, ?_, .extension hp⟩
        · unfold installAtKey
          rw [hm]
          rfl
        · unfold installAtKey
          rw [hm']
          rfl
    · cases hk
  | @Placed.branch ns cs _ gs h =>
    unfold routeKey at hk
    cases k with
    | nil => cases hk
    | cons idx rest =>
      obtain ⟨q, hq, rfl⟩ := Option.map_eq_some_iff.mp hk
      obtain ⟨ptr, b, left, hn, hc, hr, hg, hput⟩ := installAtSlot_placed (h idx) hq
      refine ⟨ptr, b, left + otherRecs gs idx, hn, hc, ?_, ?_, ?_⟩
      · unfold routeKey
        dsimp only
        rw [hr]
        rfl
      · rw [sum_recs_at gs idx, hg, add_assoc]
      · intro s t gs' hs
        obtain ⟨m, m', hm, hm', hp⟩ := hput s t gs' hs
        refine ⟨.branch (Function.update ns idx m) none, .branch (Function.update cs idx m') none,
          ?_, ?_, ?_⟩
        · unfold installAtKey
          dsimp only
          rw [hm]
          rfl
        · unfold installAtKey
          dsimp only
          rw [hm']
          rfl
        · rw [← add_assoc]
          exact placed_update h idx hp none

theorem installAtSlot_placed {n c : RamSlot} {g : Multiset Rec} (h : PlacedSlot n c g)
    {k p : List Nibble} (hk : routeSlotKey n k = some p) :
    ∃ ptr b rest, findSlotPtrKey n k = some ptr ∧ findSlotPtrKey c k = some (named b) ∧
      routeSlotKey c k = some p ∧ g = {(ptr, b)} + rest ∧
      ∀ s t gs, PlacedSlot s t gs → ∃ m m', installAtSlot n k s = some m ∧
        installAtSlot c k t = some m' ∧ PlacedSlot m m' (gs + rest) := by
  match h with
  | .none => cases hk
  | .ram h =>
    obtain ⟨ptr, b, rest, hn, hc, hr, hg, hput⟩ := installAtKey_placed h hk
    refine ⟨ptr, b, rest, hn, hc, hr, hg, ?_⟩
    intro s t gs hs
    obtain ⟨m, m', hm, hm', hp⟩ := hput s t gs hs
    refine ⟨.ram m, .ram m', ?_, ?_, .ram hp⟩
    · unfold installAtSlot
      rw [hm]
      rfl
    · unfold installAtSlot
      rw [hm']
      rfl
  | @PlacedSlot.disk ptr payload _ =>
    refine ⟨ptr, payload, 0, rfl, rfl, hk, (add_zero _).symm, ?_⟩
    intro s t gs hs
    rw [add_zero]
    exact ⟨s, t, rfl, rfl, hs⟩
  | .account _ => cases hk
  | .mem => cases hk

end

section
variable [Keccak] {c : Prop} {W : Holds} {ok : (r : Req) → Resp r → Prop} {env : Env}

theorem installResults_placed {ls : List Landed} {xs : List Loaded}
    (hls : List.Forall₂ (Lands env) ls xs) {n m : RamNode} {rest : Multiset Rec}
    {path : Key → List Nibble} (h : Placed n m (loadedRecs xs + rest))
    (hr : Routed n path (ls.map Landed.rep))
    (hn : ∀ x ∈ xs, findDiskPtrKey n (keyNibbles x.1.rep) = some x.1.ptr)
    (hm : ∀ x ∈ xs, findDiskPtrKey m (keyNibbles x.1.rep) = some (named x.2)) :
    Placed (installResults (ls.map fun l => (l.rep, l.slot)) n)
      (installResults (ls.map fun l => (l.rep, l.named)) m) ((ls.map Landed.recs).sum + rest) := by
  induction hls generalizing n m rest with
  | nil => exact h
  | @cons l x ls xs hl hls ih =>
    have hrep : ∀ k ∈ ls.map Landed.rep, ∃ y ∈ xs, y.1.rep = k := by
      intro k hk
      obtain ⟨l', hl', rfl⟩ := List.mem_map.mp hk
      obtain ⟨y, hy, hly⟩ := exists_of_forall₂ hls hl'
      exact ⟨y, hy, hly.1.symm⟩
    have hroute := hr.route l.rep List.mem_cons_self
    obtain ⟨ptr, b, left, hp, hb, -, hg, hput⟩ := installAtKey_placed h hroute
    obtain ⟨n', m', hn', hm', hplaced⟩ := hput _ _ _ hl.2.2
    rw [hl.1, hn x List.mem_cons_self] at hp
    rw [hl.1, hm x List.mem_cons_self] at hb
    obtain rfl := Option.some.inj hp
    have hbx : x.2 = b := by
      rw [← nameOf_named x.2, Option.some.inj hb, nameOf_named]
    subst hbx
    rw [loadedRecs_cons, add_assoc] at hg
    rw [← add_left_cancel hg, add_left_comm] at hplaced
    have hrm : Routed m path (l.rep :: ls.map Landed.rep) := by
      refine ⟨fun k hk => ?_, hr.apart⟩
      obtain ⟨_, _, _, -, -, hk', -⟩ := installAtKey_placed h (hr.route k hk)
      exact hk'
    obtain ⟨n'', hn'', hrn', hfn⟩ := Routed.cons hr l.slot
    obtain ⟨m'', hm'', hrm', hfm⟩ := hrm.cons l.named
    cases hn'.symm.trans hn''
    cases hm'.symm.trans hm''
    rw [List.map_cons, List.map_cons, installResults_cons _ _ hn', installResults_cons _ _ hm',
      List.map_cons, List.sum_cons, add_assoc, add_left_comm]
    have hmem : ∀ y ∈ xs, y.1.rep ∈ ls.map Landed.rep := by
      intro y hy
      obtain ⟨l', hl', hly⟩ := exists_of_forall₂ (List.Forall₂.flip hls) hy
      exact List.mem_map.mpr ⟨l', hl', hly.1⟩
    refine ih hplaced hrn' (fun y hy => ?_) fun y hy => ?_
    · rw [hfn _ (hmem y hy)]
      exact hn y (List.mem_cons_of_mem _ hy)
    · rw [hfm _ (hmem y hy)]
      exact hm y (List.mem_cons_of_mem _ hy)

/-! ## The groups of a batch -/

/-- The groups of a batch are those of distinct records that their keys route to. -/
structure Grouped (n : RamNode) (gs : List Group) : Prop where
  rep : ∀ a ∈ gs, findDiskPtrKey n (keyNibbles a.rep) = some a.ptr
  apart : gs.Pairwise fun a b => a.ptr.unit ≠ b.ptr.unit

omit [Keccak] in
theorem mem_addToGroup {ptr : DiskPtr} {e : Key × Bytes} {gs : List Group} {a : Group}
    (ha : a ∈ addToGroup ptr e gs) :
    (a.ptr = ptr ∧ a.rep = e.1 ∧ ∀ b ∈ gs, b.ptr.unit ≠ ptr.unit) ∨
      ∃ b ∈ gs, a.ptr = b.ptr ∧ a.rep = b.rep := by
  induction gs with
  | nil =>
    rw [addToGroup, List.mem_singleton] at ha
    subst ha
    exact .inl ⟨rfl, rfl, fun b hb => absurd hb List.not_mem_nil⟩
  | cons g gs ih =>
    unfold addToGroup at ha
    split at ha
    · rcases List.mem_cons.mp ha with rfl | ha
      · exact .inr ⟨g, List.mem_cons_self, rfl, rfl⟩
      · exact .inr ⟨a, List.mem_cons_of_mem _ ha, rfl, rfl⟩
    · rename_i hne
      rcases List.mem_cons.mp ha with rfl | ha
      · exact .inr ⟨a, List.mem_cons_self, rfl, rfl⟩
      · rcases ih ha with ⟨h1, h2, h3⟩ | ⟨b, hb, h⟩
        · refine .inl ⟨h1, h2, fun b hb => ?_⟩
          rcases List.mem_cons.mp hb with rfl | hb
          · exact hne
          · exact h3 b hb
        · exact .inr ⟨b, List.mem_cons_of_mem _ hb, h⟩

omit [Keccak] in
theorem addToGroup_apart {ptr : DiskPtr} {e : Key × Bytes} {gs : List Group}
    (h : gs.Pairwise fun a b => a.ptr.unit ≠ b.ptr.unit) :
    (addToGroup ptr e gs).Pairwise fun a b => a.ptr.unit ≠ b.ptr.unit := by
  induction gs with
  | nil => exact List.pairwise_singleton _ _
  | cons g gs ih =>
    obtain ⟨hg, hgs⟩ := List.pairwise_cons.mp h
    unfold addToGroup
    split
    · exact List.pairwise_cons.mpr ⟨hg, hgs⟩
    · rename_i hne
      refine List.pairwise_cons.mpr ⟨fun a ha => ?_, ih hgs⟩
      rcases mem_addToGroup ha with ⟨h1, -, -⟩ | ⟨b, hb, h1, -⟩
      · rw [h1]
        exact hne
      · rw [h1]
        exact hg b hb

omit [Keccak] in
theorem groupsOf_grouped (n : RamNode) (leaves : List (Key × Bytes)) :
    Grouped n (groupsOf n leaves).1 := by
  unfold groupsOf
  refine List.foldlRecOn leaves _ (motive := fun acc : List Group × List (Key × Bytes) => Grouped n acc.1)
    ⟨fun a ha => absurd ha List.not_mem_nil, List.Pairwise.nil⟩ fun acc h e _ => ?_
  cases hf : findDiskPtrKey n (keyNibbles e.1) with
  | none => exact h
  | some ptr =>
    refine ⟨fun a ha => ?_, addToGroup_apart h.apart⟩
    rcases mem_addToGroup ha with ⟨h1, h2, -⟩ | ⟨b, hb, h1, h2⟩
    · rw [h1, h2, hf]
    · rw [h1, h2]
      exact h.rep b hb

omit [Keccak] in
/-- The groups' records are some of the frontier's. -/
theorem Grouped.recs {n c : RamNode} {g : Multiset Rec} (h : Placed n c g) (hg : Scattered g)
    {pay : DiskPtr → Bytes} (hpay : ∀ x ∈ g, pay x.1 = x.2) {gs : List Group} (hgs : Grouped n gs) :
    (∃ rest, g = loadedRecs (load pay gs) + rest) ∧
      (gs.Pairwise fun a b => a.ptr.Apart b.ptr) ∧
      ∀ a ∈ gs, findDiskPtrKey c (keyNibbles a.rep) = some (named (pay a.ptr)) := by
  have hat : ∀ a ∈ gs, (a.ptr, pay a.ptr) ∈ g ∧
      findDiskPtrKey c (keyNibbles a.rep) = some (named (pay a.ptr)) := by
    intro a ha
    have hsome : (routeKey n (keyNibbles a.rep)).isSome := by
      rw [routeKey_isSome, hgs.rep a ha]
      rfl
    obtain ⟨p, hp⟩ := Option.isSome_iff_exists.mp hsome
    obtain ⟨ptr, b, rest, hptr, hb, -, rfl, -⟩ := installAtKey_placed h hp
    rw [hgs.rep a ha] at hptr
    cases hptr
    have hmem : (a.ptr, b) ∈ {(a.ptr, b)} + rest :=
      Multiset.mem_add.mpr (.inl (Multiset.mem_singleton_self _))
    rw [hpay _ hmem]
    exact ⟨hmem, hb⟩
  have hne : gs.Pairwise fun a b => ((a.ptr, pay a.ptr) : Rec) ≠ (b.ptr, pay b.ptr) :=
    hgs.apart.imp fun hu he => hu (by rw [(Prod.mk.inj he).1])
  refine ⟨?_, ?_, fun a ha => (hat a ha).2⟩
  · refine Multiset.le_iff_exists_add.mp ((Multiset.le_iff_subset ?_).mpr ?_)
    · refine Multiset.coe_nodup.mpr (List.pairwise_map.mpr ?_)
      exact List.pairwise_map.mpr hne
    · intro x hx
      obtain ⟨y, hy, rfl⟩ := List.mem_map.mp (Multiset.mem_coe.mp hx)
      obtain ⟨a, ha, rfl⟩ := List.mem_map.mp hy
      exact (hat a ha).1
  · refine hne.imp_of_mem fun ha hb hab => hg.apart (hat _ ha).1 (hat _ hb).1 hab

omit [Keccak] in
theorem Grouped.perm {n : RamNode} {gs gs' : List Group} (h : Grouped n gs) (hp : gs.Perm gs') :
    Grouped n gs' :=
  ⟨fun a ha => h.rep a (hp.mem_iff.mpr ha), hp.pairwise h.apart fun {_ _} hab => Ne.symm hab⟩

/-- The path of each group's record. -/
def pathIn (n : RamNode) (k : Key) : List Nibble := (routeKey n (keyNibbles k)).getD []

omit [Keccak] in
theorem Grouped.routed {n : RamNode} {gs : List Group} (h : Grouped n gs) :
    Routed n (pathIn n) (gs.map Group.rep) := by
  have hroute : ∀ a ∈ gs, routeKey n (keyNibbles a.rep) = some (pathIn n a.rep) := by
    intro a ha
    have hsome : (routeKey n (keyNibbles a.rep)).isSome := by
      rw [routeKey_isSome, h.rep a ha]
      rfl
    obtain ⟨p, hp⟩ := Option.isSome_iff_exists.mp hsome
    unfold pathIn
    rw [hp]
    rfl
  refine ⟨fun k hk => ?_, ?_⟩
  · obtain ⟨a, ha, rfl⟩ := List.mem_map.mp hk
    exact hroute a ha
  · rw [List.map_map]
    refine List.pairwise_map.mpr (h.apart.imp_of_mem fun {a b} ha hb hu he => hu ?_)
    have he : pathIn n a.rep = pathIn n b.rep := he
    have hf := findDiskPtrKey_of_route n (hroute a ha) (by rw [he]; exact hroute b hb)
    rw [h.rep a ha, h.rep b hb] at hf
    rw [Option.some.inj hf]

/-! ## The batch -/

theorem insertSerial_sim (hok : Faithful ok c) (env : Env) (ram : Bool) (leaves : List (Key × Bytes))
    {n m : RamNode} {g : Multiset Rec} (h : Placed n m g) :
    IdealSim W ok (insertSerial env ram leaves n) (insertSerial env ram leaves m) g
      (AgreeOn c Placed (Left Placed)) := by
  induction leaves generalizing n m g with
  | nil => exact same_on_sim () h
  | cons e leaves ih =>
    obtain ⟨key, val⟩ := e
    unfold insertSerial
    refine thenUpd_sim id id (insertRam_sim hok env h [] key (.value val) ram) (fun _ _ => rfl)
      (fun _ _ => rfl) (fun s t g0 hs => ⟨g0, hs⟩) ?_
    rintro s t _ _ g' ⟨hs, rfl⟩
    exact ih hs

theorem insertBucket_sim (hok : Faithful ok c) (env : Env) (pfx : List Nibble)
    (leaves : List (Key × Bytes)) {s t : RamSlot} {g : Multiset Rec} (h : PlacedSlot s t g) :
    IdealSim W ok (insertBucket env pfx leaves s) (insertBucket env pfx leaves t) g
      (AgreeOn c PlacedSlot (Left PlacedSlot)) := by
  induction leaves generalizing s t g with
  | nil => exact same_on_sim () h
  | cons e leaves ih =>
    obtain ⟨key, val⟩ := e
    unfold insertBucket
    refine thenUpd_sim id id (insertIntoChild_sim hok env h pfx key (.value val) true)
      (fun _ _ => rfl) (fun _ _ => rfl) (fun s t g0 hs => ⟨g0, hs⟩) ?_
    rintro s t _ _ g' ⟨hs, rfl⟩
    exact ih hs

theorem insertFanned_sim (hok : Faithful ok c) (env : Env) (leaves : List (Key × Bytes))
    {n m : RamNode} {g : Multiset Rec} (h : Placed n m g) :
    IdealSim W ok (insertFanned env leaves n) (insertFanned env leaves m) g
      (AgreeOn c Placed (Left Placed)) := by
  cases h with
  | empty => exact insertSerial_sim hok env true leaves .empty
  | extension h => exact insertSerial_sim hok env true leaves (.extension h)
  | branch h =>
    refine Sim.bind (Sim.fan (Q := fun rs qs g => ∃ gs : Nibble → Multiset Rec, g = ∑ i, gs i ∧
      ∀ i, AgreeOn c PlacedSlot (Left PlacedSlot) (rs i) (qs i) (gs i))
      (fun i => insertBucket_sim hok env [i] (leavesOf leaves i) (h i))
      fun rs qs hs hR => ⟨hs, rfl, hR⟩) ?_
    rintro rs qs _ ⟨gs, rfl, hR⟩
    rcases join_cases hR with ⟨us, hj, hj', hslots⟩ | ⟨e, hj, hq⟩
    · rw [hj, hj']
      exact same_on_sim () (.branch hslots)
    · rw [hj]
      rcases hq with hc | ⟨hj', gs', hgs'⟩
      · have hf : AgreeOn c Placed (Left Placed) (RamNode.branch (fun i => (rs i).1) none, .error e)
            (RamNode.branch (fun i => (qs i).1) none,
              (joinAll (List.ofFn fun i => (qs i).2)).map fun _ => ()) (∑ i, gs i) := AgreeOn.fault hc
        exact hf
      · rw [hj']
        exact error_on_sim _ ⟨_, .branch hgs'⟩

omit [Keccak] in
theorem isBranch_placed {n m : RamNode} {g : Multiset Rec} (h : Placed n m g) :
    isBranch m = isBranch n := by
  cases h <;> rfl

theorem insertBatchRam_sim (hok : Faithful ok c) (env : Env) (leaves : List (Key × Bytes))
    {n m : RamNode} {g : Multiset Rec} (h : Placed n m g) :
    IdealSim W ok (insertBatchRam env leaves n) (insertBatchRam env leaves m) g
      (AgreeOn c Placed (Left Placed)) := by
  unfold insertBatchRam
  rw [isBranch_placed h]
  split
  · exact insertFanned_sim hok env leaves h
  · split
    · exact insertFanned_sim hok env leaves h
    · rename_i key val _
      refine thenUpd_sim id id (insertRam_sim hok env h [] key (.value val) true)
        (fun _ _ => rfl) (fun _ _ => rfl) (fun s t g0 hs => ⟨g0, hs⟩) ?_
      rintro s t _ _ g' ⟨hs, rfl⟩
      exact insertFanned_sim hok env _ hs

/-- The frontier a batch leaves, computed from the groups alone. -/
def batchAlone (env : Env) (xs : List Loaded) (fresh : List (Key × Bytes)) (m : RamNode) :
    Except Err RamNode := do
  let slots ← xs.mapM fun x => foldAlone env x.2 x.1.keys
  let out := value ideal (insertSerial env false fresh
    (installResults ((xs.map fun x => x.1.rep).zip slots) m))
  out.2.map fun _ => out.1

theorem mapM_foldAlone {ls : List Landed} {xs : List Loaded} (h : List.Forall₂ (Lands env) ls xs) :
    (xs.mapM fun x => foldAlone env x.2 x.1.keys) = .ok (ls.map Landed.named) ∧
      (xs.map fun x => x.1.rep).zip (ls.map Landed.named) = ls.map fun l => (l.rep, l.named) := by
  induction h with
  | nil => exact ⟨rfl, rfl⟩
  | cons hl _ ih =>
    refine ⟨?_, ?_⟩
    · rw [List.mapM_cons, hl.2.1, ok_bind, ih.1]
      rfl
    · rw [List.map_cons, List.map_cons, List.zip_cons_cons, ih.2, List.map_cons, hl.1]

theorem Unfolded.batchAlone {xs : List Loaded} (h : Unfolded env xs) (fresh : List (Key × Bytes))
    (m : RamNode) : ∃ e, batchAlone env xs fresh m = .error e := by
  have hex : ∃ e, (xs.mapM fun x => foldAlone env x.2 x.1.keys) = .error e := by
    obtain ⟨x, hx, e, he⟩ := h
    induction xs with
    | nil => cases hx
    | cons y xs ih =>
      rw [List.mapM_cons]
      cases hy : foldAlone env y.2 y.1.keys with
      | error e' => exact ⟨e', rfl⟩
      | ok slot =>
        rcases List.mem_cons.mp hx with rfl | hx
        · cases he.symm.trans hy
        · obtain ⟨e', he'⟩ := ih hx
          refine ⟨e', ?_⟩
          rw [ok_bind, he']
          rfl
  obtain ⟨e, he⟩ := hex
  refine ⟨e, ?_⟩
  unfold FlatMpt.batchAlone
  rw [he]
  rfl

/-- The batch ended as its groups alone determine. -/
def Spliced (c : Prop) (alone : Except Err RamNode) (r : RamNode × Except Err Unit)
    (g : Multiset Rec) : Prop :=
  match r.2 with
  | .ok () => ∃ m, alone = .ok m ∧ Placed r.1 m g
  | .error _ => c ∨ ∃ e, alone = .error e

/-- The workers' results land in the frontier as those of the groups alone. -/
theorem processAll_placed (hok : Faithful ok c) (env : Env) {arrange : List Group → List Group}
    (harr : ∀ gs, (arrange gs).Perm gs) (leaves : List (Key × Bytes)) {n m : RamNode}
    {g : Multiset Rec} (h : Placed n m g) (hg : Scattered g) {pay : DiskPtr → Bytes}
    (hpay : ∀ x ∈ g, pay x.1 = x.2) :
    wp ((flat W).filter ok) (processAll env (arrange (groupsOf n leaves).1)) g
      (Or (fun _ => c ∨ Unfolded env (load pay (groupsOf n leaves).1)) fun out g' =>
        ∃ slots, ((load pay (groupsOf n leaves).1).mapM fun x => foldAlone env x.2 x.1.keys) = .ok slots ∧
          Placed (installResults out n) (installResults
            (((load pay (groupsOf n leaves).1).map fun x => x.1.rep).zip slots) m) g') := by
  set gs := (groupsOf n leaves).1 with hgs
  have hgroup : Grouped n (arrange gs) := (groupsOf_grouped n leaves).perm (harr gs).symm
  obtain ⟨⟨rest, hrest⟩, hapart, hnamed⟩ := hgroup.recs h hg hpay
  have hload : (load pay (arrange gs)).Perm (load pay gs) := (harr gs).map _
  rw [hrest] at h ⊢
  refine wp_mono (wp_frame rest (processAll_folds (W := W) hok env pay (arrange gs) hapart)) ?_
  rintro (e | out) _ ⟨g1, rfl, hr⟩
  · exact hr.imp_right fun hu => hu.mono fun x hx => hload.mem_iff.mp hx
  obtain ⟨-, ls, written, waiting, hperm, rfl, hls, hwait, rfl⟩ := hr
  cases hwait
  rw [List.append_nil] at hperm
  -- the same results in the order of the groups
  obtain ⟨ls', hls', hperm'⟩ := List.perm_comp_forall₂ (hperm.symm.trans hload).symm hls.flip
  have hreps : ls.map Landed.rep = written.map fun x => x.1.rep := by
    clear * - hls
    induction hls with
    | nil => rfl
    | cons hl _ ih => rw [List.map_cons, List.map_cons, ih, hl.1]
  have hroute : Routed n (pathIn n) (ls.map Landed.rep) := by
    rw [hreps]
    refine hgroup.routed.perm ?_
    have := hperm.map fun x : Loaded => x.1.rep
    unfold load at this
    rwa [List.map_map] at this
  have hw : ∀ x ∈ written, ∃ a ∈ arrange gs, x = (a, pay a.ptr) := by
    intro x hx
    obtain ⟨a, ha, rfl⟩ := List.mem_map.mp (hperm.mem_iff.mpr hx)
    exact ⟨a, ha, rfl⟩
  rw [← loadedRecs_perm hperm.symm] at h
  have hput := installResults_placed hls h hroute
    (fun x hx => by
      obtain ⟨a, ha, rfl⟩ := hw x hx
      exact hgroup.rep a ha)
    (fun x hx => by
      obtain ⟨a, ha, rfl⟩ := hw x hx
      exact hnamed a ha)
  have hroute' : Routed m (pathIn n) ((ls.map fun l => (l.rep, l.named)).map Prod.fst) := by
    rw [List.map_map]
    refine ⟨fun k hk => ?_, hroute.apart⟩
    obtain ⟨_, _, _, -, -, hk', -⟩ := installAtKey_placed h (hroute.route k hk)
    exact hk'
  obtain ⟨hslots, hzip⟩ := mapM_foldAlone hls'.flip
  refine ⟨_, hslots, ?_⟩
  rw [hzip, ← installResults_perm (hperm'.symm.map _) hroute']
  exact hput

/-- The disk path of a batch leaves what its groups alone determine, whatever the
order of the groups and the interleaving of the workers. -/
theorem insertBatchDisk_folds (hok : Faithful ok c) (env : Env) {arrange : List Group → List Group}
    (harr : ∀ gs, (arrange gs).Perm gs) (leaves : List (Key × Bytes)) {n m : RamNode}
    {g : Multiset Rec} (h : Placed n m g) (hg : Scattered g) {pay : DiskPtr → Bytes}
    (hpay : ∀ x ∈ g, pay x.1 = x.2) :
    wp ((flat W).filter ok) (insertBatchDisk env arrange leaves n) g
      (Spliced c (batchAlone env (load pay (groupsOf n leaves).1) (groupsOf n leaves).2 m)) := by
  refine wp_bind (wp_mono (processAll_placed hok env harr leaves h hg hpay) ?_)
  rintro (e | out) g1 hr
  · exact hr.imp_right fun hu => hu.batchAlone _ _
  obtain ⟨slots, hslots, hput⟩ := hr
  refine wp_mono (insertSerial_sim (W := W) hok env false (groupsOf n leaves).2 hput) ?_
  rintro ⟨n', r⟩ g' hr
  unfold batchAlone
  rw [hslots, ok_bind]
  generalize value ideal (insertSerial env false (groupsOf n leaves).2 (installResults
    (((load pay (groupsOf n leaves).1).map fun x => x.1.rep).zip slots) m)) = out at hr ⊢
  obtain ⟨m', r'⟩ := out
  cases r with
  | error e =>
    refine hr.imp_right fun hv => ⟨e, ?_⟩
    rw [hv.1]
    rfl
  | ok u =>
    cases r' with
    | error e => exact hr.elim
    | ok u' => exact ⟨m', rfl, hr.1⟩

end

end FlatMpt
