import FlatMpt.Simulate

/-!
# Blocks over the ideal store

Reads, and block application with its workers, compute over the file what they
compute over the ideal store.

    ramGet_sim, ramCollectStorage_sim
    applyGroupChild_sim, applyNet_sim
-/

namespace FlatMpt

open Prog
open Radix (commonPrefix)

section
variable [Keccak] {c : Prop} {W : Holds} {ok : (r : Req) → Resp r → Prop} {g : Multiset Rec}

/-! ## Reads -/

/-- The same answer, and nothing changed. -/
def Answer {α : Type} (g : Multiset Rec) (a b : α) (g' : Multiset Rec) : Prop := b = a ∧ g' = g

omit [Keccak] in
theorem visible_slot {gs : Nibble → Multiset Rec} (h : ∀ x ∈ ∑ i, gs i, W.Visible g x) (i : Nibble) :
    ∀ x ∈ gs i, W.Visible g x :=
  fun x hx => h x (Multiset.mem_sum.mpr ⟨i, Finset.mem_univ i, hx⟩)

omit [Keccak] in
theorem answer_sim {α : Type} (a : α) : IdealSim W ok (Act.ok a) (Act.ok a) g (Agree c (Answer g)) :=
  ⟨rfl, rfl⟩

omit [Keccak] in
theorem pure_answer_sim {α : Type} (x : Except Err α) :
    IdealSim W ok (.pure x) (.pure x) g (Agree c (Answer g)) := by
  cases x with
  | ok a => exact ⟨rfl, rfl⟩
  | error e => exact Or.inr rfl

mutual

theorem hashRam_placed {n n' : RamNode} {g : Multiset Rec} (h : Placed n n' g) :
    hashRam n' = hashRam n := by
  match h with
  | .empty => rfl
  | .extension h =>
    unfold hashRam
    rw [hashRam_placed h]
  | @Placed.branch ns cs _ _ h =>
    have hc : (fun i => (ramChildHash (cs i)).map NodeRef.hash) =
        fun i => (ramChildHash (ns i)).map NodeRef.hash := by
      funext i
      rw [ramChildHash_placed (h i)]
    unfold hashRam
    rw [hc]

theorem ramChildHash_placed {s t : RamSlot} {g : Multiset Rec} (h : PlacedSlot s t g) :
    ramChildHash t = ramChildHash s := by
  match h with
  | .none => rfl
  | .ram h =>
    unfold ramChildHash
    rw [hashRam_placed h]
  | .disk => rfl
  | .account h =>
    unfold ramChildHash
    rw [hashRam_placed h]
  | .mem => rfl

end

mutual

theorem fillRam_placed {n n' : RamNode} {g : Multiset Rec} (h : Placed n n' g) :
    Placed (fillRam n) (fillRam n') g := by
  match h with
  | .empty => exact .empty
  | @Placed.extension _ _ _ none _ h =>
    unfold fillRam
    rw [hashRam_placed (.extension h)]
    exact .extension (fillRam_placed h)
  | @Placed.extension _ _ _ (some _) _ h => exact .extension h
  | @Placed.branch _ _ none _ h =>
    unfold fillRam
    rw [hashRam_placed (.branch h)]
    exact .branch fun i => fillSlot_placed (h i)
  | @Placed.branch _ _ (some _) _ h => exact .branch h

theorem fillSlot_placed {s t : RamSlot} {g : Multiset Rec} (h : PlacedSlot s t g) :
    PlacedSlot (fillSlot s) (fillSlot t) g := by
  match h with
  | .none => exact .none
  | .ram h => exact .ram (fillRam_placed h)
  | .disk => exact .disk
  | .account h => exact .account (fillRam_placed h)
  | .mem => exact .mem

end

mutual

theorem ramGet_sim (hok : Faithful ok c) {n n' : RamNode} {g0 : Multiset Rec} (h : Placed n n' g0)
    (hv : ∀ x ∈ g0, W.Visible g x) (nibbles : List Nibble) (depth : Nat) :
    IdealSim W ok (ramGet n nibbles depth) (ramGet n' nibbles depth) g (Agree c (Answer g)) := by
  match h with
  | .empty => exact answer_sim _
  | .extension h =>
    unfold ramGet
    split
    · exact ramGet_sim hok h hv nibbles _
    · exact answer_sim _
  | .branch h =>
    unfold ramGet
    split
    · exact fail_sim _
    · exact slotGet_sim hok (h _) (visible_slot hv _) nibbles depth

theorem slotGet_sim (hok : Faithful ok c) {s t : RamSlot} {g0 : Multiset Rec} (h : PlacedSlot s t g0)
    (hv : ∀ x ∈ g0, W.Visible g x) (nibbles : List Nibble) (depth : Nat) :
    IdealSim W ok (slotGet s nibbles depth) (slotGet t nibbles depth) g (Agree c (Answer g)) := by
  match h with
  | .none => exact answer_sim _
  | .ram h => exact ramGet_sim hok h hv nibbles _
  | .disk =>
    unfold slotGet
    refine attempt_sim (readLazy_sim hok (hv _ (Multiset.mem_singleton_self _))) ?_
    rintro sub _ g' ⟨rfl, -, rfl⟩
    exact answer_sim _
  | .mem =>
    unfold slotGet
    exact attempt_pure_sim fun sub _ => answer_sim _
  | .account h =>
    unfold slotGet
    rw [hashRam_placed h]
    exact answer_sim _

end

omit [Keccak] in
theorem collectRecords_sim {ps qs : List (Act DiskSubtree)}
    (h : List.Forall₂ (fun p q => IdealSim W ok p q g (Agree c (Answer g))) ps qs) :
    IdealSim W ok (collectRecords ps) (collectRecords qs) g (Agree c (Answer g)) := by
  induction h with
  | nil => exact answer_sim _
  | cons hp _ ih =>
    refine attempt_sim hp ?_
    rintro sub _ _ ⟨rfl, rfl⟩
    refine attempt_pure_sim fun slots _ => attempt_sim ih ?_
    rintro more _ _ ⟨rfl, rfl⟩
    exact answer_sim _

mutual

theorem storageRecords_sim (hok : Faithful ok c) {n n' : RamNode} {g0 : Multiset Rec}
    (h : Placed n n' g0) (hv : ∀ x ∈ g0, W.Visible g x) :
    List.Forall₂ (fun p q => IdealSim W ok p q g (Agree c (Answer g))) (storageRecords n)
      (storageRecords n') := by
  match h with
  | .empty => exact .nil
  | .extension h =>
    unfold storageRecords
    exact storageRecords_sim hok h hv
  | @Placed.branch ns cs _ _ h =>
    have hi := fun i => slotRecords_sim hok (h i) (visible_slot hv i)
    unfold storageRecords
    exact List.rel_flatMap (R := Eq) (List.forall₂_refl _) fun i j hij => hij ▸ hi i

theorem slotRecords_sim (hok : Faithful ok c) {s t : RamSlot} {g0 : Multiset Rec}
    (h : PlacedSlot s t g0) (hv : ∀ x ∈ g0, W.Visible g x) :
    List.Forall₂ (fun p q => IdealSim W ok p q g (Agree c (Answer g))) (slotRecords s)
      (slotRecords t) := by
  match h with
  | .none => exact .nil
  | .ram h => exact storageRecords_sim hok h hv
  | .disk =>
    refine .cons (Sim.mono (readLazy_sim hok (hv _ (Multiset.mem_singleton_self _))) ?_) .nil
    intro a b g' hab
    exact hab.mono fun a b h => ⟨h.1, h.2.2⟩
  | .mem =>
    exact .cons (pure_answer_sim _) .nil
  | .account h => exact .cons (fail_sim _) .nil

end

theorem ramCollectStorage_sim (hok : Faithful ok c) {n n' : RamNode} {g0 : Multiset Rec}
    (h : Placed n n' g0) (hv : ∀ x ∈ g0, W.Visible g x) :
    IdealSim W ok (ramCollectStorage n) (ramCollectStorage n') g (Agree c (Answer g)) :=
  collectRecords_sim (storageRecords_sim hok h hv)

/-! ## Children -/

theorem finishChild_sim (hok : Faithful ok c) (env : Env) (ram : Bool) (subtree : DiskSubtree) :
    IdealSim W ok (finishChild env ram subtree) (finishChild env ram subtree) 0
      (Agree c PlacedSlot) := by
  unfold finishChild
  split
  · exact promoteToRam_sim hok env ram subtree
  · split
    · exact promoteAccountToRam_sim hok env _ subtree
    · exact makeLeafChild_sim hok env ram subtree

/-- A child with the inverse operations. -/
def PlacedChild (a b : RamSlot × Inverse) (g : Multiset Rec) : Prop :=
  PlacedSlot a.1 b.1 g ∧ a.2 = b.2

theorem finished_sim (hok : Faithful ok c) (env : Env) (ram : Bool) (subtree : DiskSubtree)
    (inv : Inverse) :
    IdealSim W ok (attempt (finishChild env ram subtree) .error fun slot => Act.ok (slot, inv))
      (attempt (finishChild env ram subtree) .error fun slot => Act.ok (slot, inv)) 0
      (Agree c PlacedChild) :=
  attempt_sim (finishChild_sim hok env ram subtree) fun _ _ _ hs => ok_sim (R := PlacedChild) ⟨hs, rfl⟩

theorem creationChild_sim (hok : Faithful ok c) (env : Env) (ram : Bool) (pfx : List Nibble)
    (key : Key) (upd : NetUpdate) :
    IdealSim W ok (creationChild env ram pfx key upd) (creationChild env ram pfx key upd) 0
      (Agree c PlacedChild) := by
  refine attempt_pure_sim fun ⟨node, out, inv⟩ _ => ?_
  dsimp only
  split
  · exact ok_sim (R := PlacedChild) ⟨.none, rfl⟩
  · exact finished_sim hok env ram _ inv

theorem demoteAccount_sim (hok : Faithful ok c) (env : Env) (ram : Bool) (pfx : List Nibble)
    (key : Key) (account : Node) (upd : NetUpdate) :
    IdealSim W ok (demoteAccount env ram pfx key account upd)
      (demoteAccount env ram pfx key account upd) 0 (Agree c PlacedChild) :=
  attempt_pure_sim fun ⟨_, _, inv⟩ _ => finished_sim hok env ram _ inv

/-! ## Promoted accounts -/

theorem captureStorage_sim (hok : Faithful ok c) (key : Key) (nonce : UInt64) (balance : U256)
    (codeHash : Hash) {n n' : RamNode} {g : Multiset Rec} (h : Placed n n' g) :
    IdealSim W ok (captureStorage key nonce balance codeHash n)
      (captureStorage key nonce balance codeHash n') g (Agree c Same) := by
  refine attempt_sim (ramCollectStorage_sim hok h fun x hx => .inl hx) ?_
  rintro slots _ _ ⟨rfl, rfl⟩
  refine Sim.bind (freeRamRecords_sim h) ?_
  rintro _ _ _ rfl
  exact ok_sim (R := Same) ⟨rfl, rfl⟩

omit [Keccak] in
/-- What the slots before contributed is the same in both stores. -/
theorem afterSlot_sim {p q : Upd RamSlot (Bool × Inverse)} (changed : Bool) (inv : Inverse)
    (h : IdealSim W ok p q g (AgreeOn c PlacedSlot (Left PlacedSlot))) :
    IdealSim W ok (afterSlot changed inv p) (afterSlot changed inv q) g
      (AgreeOn c PlacedSlot (Left PlacedSlot)) := by
  refine Sim.bind h ?_
  rintro ⟨s, x⟩ ⟨t, y⟩ g' hxy
  cases x with
  | error e =>
    rcases hxy with hc | ⟨hy, hs⟩
    · exact Or.inl hc
    · have hy : y = .error e := hy
      subst hy
      exact Or.inr ⟨rfl, hs⟩
  | ok a =>
    cases y with
    | error e => exact hxy.elim
    | ok b =>
      obtain ⟨hs, rfl⟩ := hxy
      exact ⟨hs, rfl⟩

theorem applySlots_sim (hok : Faithful ok c) (env : Env) (ram : Bool) (pfx : List Nibble) (key : Key)
    (path : List Nibble) (nonce : UInt64) (balance : U256) (codeHash : Hash)
    (slots : List (Key × Option Bytes)) {n n' : RamNode} {g : Multiset Rec} (h : Placed n n' g) :
    IdealSim W ok (applySlots env ram pfx key path nonce balance codeHash slots n)
      (applySlots env ram pfx key path nonce balance codeHash slots n') g
      (AgreeOn c PlacedSlot (Left PlacedSlot)) := by
  induction slots generalizing n n' g with
  | nil => exact same_on_sim _ (.account h)
  | cons s rest ih =>
    obtain ⟨slot, value⟩ := s
    unfold applySlots
    refine attempt_on_sim (ramGet_sim hok h (fun x hx => .inl hx) _ _) ⟨_, .account h⟩ ?_
    rintro _ prior _ ⟨rfl, rfl⟩
    cases value with
    | some value =>
      refine thenUpd_sim (.account path nonce balance codeHash) (.account path nonce balance codeHash)
        (insertRam_sim hok env h _ _ _ false) (fun _ _ => rfl) (fun _ _ => rfl)
        (fun s t g0 hs => ⟨g0, .account hs⟩) ?_
      rintro s t _ _ g' ⟨hs, rfl⟩
      exact afterSlot_sim true _ (ih hs)
    | none =>
      refine thenUpd_sim (.account path nonce balance codeHash) (.account path nonce balance codeHash)
        (deleteRam_sim hok env h _ _ _ false) (fun _ _ => rfl) (fun _ _ => rfl)
        (fun s t g0 hs => ⟨g0, .account hs⟩) ?_
      intro s t out out' g' hd
      have hdem : IdealSim W ok
          (attempt (demotedStorage out) (fun e => ((RamSlot.none, Except.error e) : RamSlot × _))
            fun storageNode => attempt (demoteAccount env ram pfx key
                (accountNode path nonce balance codeHash storageNode) ⟨false, .keep, rest⟩)
              (fun e => (.none, .error e)) fun x =>
            .pure (x.1, .ok (true, undoSlot key slot prior none ++ x.2)))
          (attempt (demotedStorage out') (fun e => ((RamSlot.none, Except.error e) : RamSlot × _))
            fun storageNode => attempt (demoteAccount env ram pfx key
                (accountNode path nonce balance codeHash storageNode) ⟨false, .keep, rest⟩)
              (fun e => (.none, .error e)) fun x =>
            .pure (x.1, .ok (true, undoSlot key slot prior none ++ x.2))) g'
          (AgreeOn c PlacedSlot (Left PlacedSlot)) := by
        refine attempt_on_sim (demotedStorage_sim hok hd) ⟨_, .none⟩ ?_
        rintro node _ _ ⟨rfl, rfl⟩
        refine attempt_on_sim (demoteAccount_sim hok env ram pfx key _ _) ⟨_, .none⟩ ?_
        rintro ⟨slot', inv'⟩ ⟨slot'', _⟩ g'' ⟨hs, rfl⟩
        exact same_on_sim _ hs
      cases hd with
      | absent hs => exact afterSlot_sim false _ (ih hs)
      | changed hs => exact afterSlot_sim true _ (ih hs)
      | removed => exact hdem
      | collapsed _ => exact hdem

/-- A slot after a net update. -/
def AppliedSlot (s t : RamSlot) (a b : RamDelete × Inverse) (g : Multiset Rec) : Prop :=
  DeletedSlot s t a.1 b.1 g ∧ a.2 = b.2

/-- A node after a net update. -/
def AppliedNode (s t : RamNode) (a b : RamDelete × Inverse) (g : Multiset Rec) : Prop :=
  DeletedNode s t a.1 b.1 g ∧ a.2 = b.2

omit [Keccak] in
theorem finishSlots_sim {p q : Upd RamSlot (Bool × Inverse)} (set : Bool) (inv : Inverse)
    (h : IdealSim W ok p q g (AgreeOn c PlacedSlot (Left PlacedSlot))) :
    IdealSim W ok
      ((afterSlot set inv p).bind fun r => .pure (r.1, r.2.map fun out =>
        ((if out.1 then RamDelete.changed else .absent), out.2)))
      ((afterSlot set inv q).bind fun r => .pure (r.1, r.2.map fun out =>
        ((if out.1 then RamDelete.changed else .absent), out.2))) g
      (AgreeOn c PlacedSlot AppliedSlot) := by
  refine Sim.bind (afterSlot_sim set inv h) ?_
  rintro ⟨s, x⟩ ⟨t, y⟩ g' hxy
  cases x with
  | error e =>
    rcases hxy with hc | ⟨hy, hs⟩
    · exact Or.inl hc
    · have hy : y = .error e := hy
      subst hy
      exact Or.inr ⟨rfl, hs⟩
  | ok a =>
    cases y with
    | error e => exact hxy.elim
    | ok b =>
      obtain ⟨hs, rfl⟩ := hxy
      refine ⟨?_, rfl⟩
      show DeletedSlot s t (if a.1 then .changed else .absent) (if a.1 then .changed else .absent) g'
      split
      · exact .changed hs
      · exact .absent hs

theorem applyPromoted_sim (hok : Faithful ok c) (env : Env) (ram : Bool) (pfx : List Nibble)
    (key : Key) (upd : NetUpdate) (path : List Nibble) (nonce : UInt64) (balance : U256)
    (codeHash : Hash) {n n' : RamNode} {g : Multiset Rec} (h : Placed n n' g) :
    IdealSim W ok (applyPromoted env ram pfx key upd path nonce balance codeHash n)
      (applyPromoted env ram pfx key upd path nonce balance codeHash n') g
      (AgreeOn c PlacedSlot AppliedSlot) := by
  unfold applyPromoted
  split
  · refine attempt_on_sim (captureStorage_sim hok key nonce balance codeHash h) ⟨_, .none⟩ ?_
    rintro inv _ _ ⟨rfl, rfl⟩
    exact ⟨.removed, rfl⟩
  · split
    · refine attempt_on_sim (captureStorage_sim hok key nonce balance codeHash h) ⟨_, .none⟩ ?_
      rintro inv _ _ ⟨rfl, rfl⟩
      refine attempt_on_sim (demoteAccount_sim hok env ram pfx key _ _) ⟨_, .none⟩ ?_
      rintro ⟨slot, _⟩ ⟨slot', _⟩ g' ⟨hs, -⟩
      exact ⟨.changed hs, rfl⟩
    · simp only
      split
      · exact finishSlots_sim true _ (applySlots_sim hok env ram pfx key path _ _ _ upd.slots h)
      · exact finishSlots_sim false _ (applySlots_sim hok env ram pfx key path _ _ _ upd.slots h)

/-! ## The descent -/

omit [Keccak] in
/-- A pure end of a net update on a node. -/
theorem applied_sim {x y : RamNode × Except Err RamDelete} (inv : Inverse)
    (h : AgreeOn c Placed DeletedNode x y g) :
    AgreeOn c Placed AppliedNode (x.1, x.2.map fun out => (out, inv))
      (y.1, y.2.map fun out => (out, inv)) g := by
  obtain ⟨s, x⟩ := x
  obtain ⟨t, y⟩ := y
  cases x with
  | error e =>
    rcases h with hc | ⟨hy, hs⟩
    · exact Or.inl hc
    · have hy : y = .error e := hy
      subst hy
      exact Or.inr ⟨rfl, hs⟩
  | ok a =>
    cases y with
    | error e => exact h.elim
    | ok b => exact ⟨h, rfl⟩

omit [Keccak] in
theorem created_slot {s t : RamSlot} (h : PlacedSlot s t g) (inv : Inverse) :
    AppliedSlot s t (if s.isSome then .changed else .absent, inv)
      (if t.isSome then .changed else .absent, inv) g := by
  refine ⟨?_, rfl⟩
  show DeletedSlot s t (if s.isSome then .changed else .absent)
    (if t.isSome then .changed else .absent) g
  rw [h.isSome_eq]
  split
  · exact .changed h
  · exact .absent h

omit [Keccak] in
theorem applied_slot_sim {p q : Act RamSlot} {s t : RamSlot} (inv : Inverse)
    (h : IdealSim W ok p q g (Agree c PlacedSlot)) (hs : ∃ g0, PlacedSlot s t g0) :
    IdealSim W ok
      (attempt p (fun e => (s, Except.error e)) fun slot => .pure (slot, .ok (RamDelete.changed, inv)))
      (attempt q (fun e => (t, Except.error e)) fun slot => .pure (slot, .ok (RamDelete.changed, inv)))
      g (AgreeOn c PlacedSlot AppliedSlot) :=
  attempt_on_sim h hs fun _ _ _ hs => ok_on_sim (T := AppliedSlot) ⟨.changed hs, rfl⟩

omit [Keccak] in
theorem DeletedSlot.placed {s t : RamSlot} {out out' : RamDelete} (h : DeletedSlot s t out out' g) :
    PlacedSlot s t g := by
  cases h with
  | absent h => exact h
  | changed h => exact h
  | removed => exact .none

mutual

theorem applyRamGroup_sim (hok : Faithful ok c) (env : Env) {n n' : RamNode} {g : Multiset Rec}
    (hn : Placed n n' g) (pfx : List Nibble) (key : Key) (upd : NetUpdate) (ram : Bool) :
    IdealSim W ok (applyRamGroup env n pfx key upd ram) (applyRamGroup env n' pfx key upd ram) g
      (AgreeOn c Placed AppliedNode) := by
  match hn with
  | .empty =>
    unfold applyRamGroup
    split
    · exact ⟨.absent .empty, rfl⟩
    · split
      · exact error_on_sim _ ⟨_, .empty⟩
      · refine attempt_on_sim (creationChild_sim hok env ram _ key upd) ⟨_, .empty⟩ ?_
        rintro ⟨child, inv⟩ ⟨child', _⟩ g' ⟨hs, rfl⟩
        have hs : PlacedSlot child child' g' := hs
        show IdealSim W ok (if child.isSome then _ else _) (if child'.isSome then _ else _) g' _
        rw [hs.isSome_eq]
        split
        · exact ⟨.changed (placed_single hs _ none), rfl⟩
        · rename_i hnone
          rw [hs.recs_eq_zero (by simpa using hnone)]
          exact ⟨.absent .empty, rfl⟩
  | @Placed.extension path _ _ hash _ hn =>
    unfold applyRamGroup
    simp only
    split
    · split
      · exact ⟨.absent (.extension hn), rfl⟩
      · split
        · rename_i hold hnew
          rw [← zero_add g]
          refine attempt_on_frame_sim (creationChild_sim hok env ram _ key upd) ⟨_, .empty⟩ ?_
          rintro ⟨leaf, inv⟩ ⟨leaf', _⟩ g' ⟨hs, rfl⟩
          refine ⟨.changed (placed_underCommon ?_), rfl⟩
          exact placed_pair (.ram (placed_wrapPath hn)) hs (head_ne_of_common hold hnew) none
        · exact error_on_sim _ ⟨_, .empty⟩
    · refine thenUpd_sim (fun _ => .empty) (fun _ => .empty)
        (applyRamGroup_sim hok env hn _ key upd ram) (fun _ _ => rfl) (fun _ _ => rfl)
        (fun _ _ _ _ => ⟨_, .empty⟩) ?_
      rintro s t ⟨out, inv⟩ ⟨out', _⟩ g' ⟨hd, rfl⟩
      exact applied_sim inv (afterExtension_sim hd path hash)
  | @Placed.branch ns cs hash gs hs =>
    unfold applyRamGroup
    split
    · exact error_on_sim _ ⟨_, .empty⟩
    · rename_i idx _
      rw [sum_recs_at gs idx]
      refine thenUpd_frame_sim (fun _ => .empty) (fun _ => .empty)
        (applyGroupChild_sim hok env (hs idx) _ key upd ram) (fun _ _ => rfl) (fun _ _ => rfl)
        (fun _ _ _ _ => ⟨_, .empty⟩) ?_
      rintro s t ⟨out, inv⟩ ⟨out', _⟩ g' ⟨hd, rfl⟩
      exact applied_sim inv (afterChild_sim hs hash idx hd)

theorem applyGroupChild_sim (hok : Faithful ok c) (env : Env) {s s' : RamSlot} {g : Multiset Rec}
    (hs : PlacedSlot s s' g) (pfx : List Nibble) (key : Key) (upd : NetUpdate) (ram : Bool) :
    IdealSim W ok (applyGroupChild env s pfx key upd ram) (applyGroupChild env s' pfx key upd ram) g
      (AgreeOn c PlacedSlot AppliedSlot) := by
  match hs with
  | .none =>
    unfold applyGroupChild
    split
    · exact ⟨.absent .none, rfl⟩
    · refine attempt_on_sim (creationChild_sim hok env ram _ key upd) ⟨_, .none⟩ ?_
      rintro ⟨child, inv⟩ ⟨child', _⟩ g' ⟨hs, rfl⟩
      exact ok_on_sim (created_slot hs inv)
  | .ram hn =>
    unfold applyGroupChild
    refine thenUpd_sim RamSlot.ram RamSlot.ram (applyRamGroup_sim hok env hn pfx key upd ram)
      (fun _ _ => rfl) (fun _ _ => rfl) (fun s t g0 hs => ⟨g0, .ram hs⟩) ?_
    rintro s t ⟨out, inv⟩ ⟨out', _⟩ g' ⟨hd, rfl⟩
    have hd : DeletedNode s t out out' g' := hd
    cases hd with
    | absent h => exact ⟨.absent (.ram h), rfl⟩
    | changed h => exact ⟨.changed (.ram h), rfl⟩
    | removed => exact ⟨.removed, rfl⟩
    | collapsed h =>
      exact applied_slot_sim inv (rehomeChild_sim hok env ram h _ pfx) ⟨_, .ram .empty⟩
  | .mem =>
    unfold applyGroupChild
    refine attempt_pure_on_sim ⟨_, .none⟩ fun subtree _ => ?_
    refine attempt_pure_on_sim ⟨_, .none⟩ fun ⟨node, out, inv⟩ _ => ?_
    cases out with
    | absent => exact ⟨.absent .mem, rfl⟩
    | changed => exact applied_slot_sim inv (finishChild_sim hok env true _) ⟨_, .none⟩
    | removed => exact ⟨.removed, rfl⟩
  | @PlacedSlot.disk ptr payload _ =>
    unfold applyGroupChild
    refine attempt_on_sim (readLazy_sim hok (.inl (Multiset.mem_singleton_self _))) ⟨_, .disk⟩ ?_
    rintro subtree _ g' ⟨rfl, -, rfl⟩
    refine attempt_pure_on_sim ⟨_, .disk⟩ fun ⟨node, out, inv⟩ _ => ?_
    cases out with
    | absent => exact ⟨.absent .disk, rfl⟩
    | changed =>
      rw [← add_zero {(ptr, payload)}]
      exact free_sim (applied_slot_sim inv (finishChild_sim hok env _ _) ⟨_, .disk⟩)
    | removed =>
      rw [← add_zero {(ptr, payload)}]
      exact free_sim (ok_on_sim ⟨DeletedSlot.removed, rfl⟩)
  | .account hn =>
    unfold applyGroupChild
    simp only
    split
    · split
      · exact ⟨.absent (.account hn), rfl⟩
      · split
        · rename_i hold hnew
          rw [← zero_add g]
          refine attempt_on_frame_sim (creationChild_sim hok env ram _ key upd) ⟨_, .none⟩ ?_
          rintro ⟨leaf, inv⟩ ⟨leaf', _⟩ g' ⟨hs, rfl⟩
          refine ⟨.changed (.ram (placed_underCommon ?_)), rfl⟩
          exact placed_pair (.account hn) hs (head_ne_of_common hold hnew) none
        · exact error_on_sim _ ⟨_, .none⟩
    · exact applyPromoted_sim hok env ram pfx key upd _ _ _ _ hn

end

/-! ## The block -/

theorem applyBucket_sim (hok : Faithful ok c) (env : Env) (ram : Bool) (pfx : List Nibble)
    (net : List (Key × NetUpdate)) {s s' : RamSlot} {g : Multiset Rec} (hs : PlacedSlot s s' g) :
    IdealSim W ok (applyBucket env ram pfx net s) (applyBucket env ram pfx net s') g
      (AgreeOn c PlacedSlot (Left PlacedSlot)) := by
  induction net generalizing s s' g with
  | nil => exact same_on_sim _ hs
  | cons e rest ih =>
    obtain ⟨key, upd⟩ := e
    unfold applyBucket
    refine thenUpd_sim id id (applyGroupChild_sim hok env hs pfx key upd ram) (fun _ _ => rfl)
      (fun _ _ => rfl) (fun s t g0 hs => ⟨g0, hs⟩) ?_
    rintro s t ⟨out, inv⟩ ⟨out', _⟩ g' ⟨hd, rfl⟩
    refine thenUpd_sim id id (ih (DeletedSlot.placed hd)) (fun _ _ => rfl) (fun _ _ => rfl)
      (fun s t g0 hs => ⟨g0, hs⟩) ?_
    rintro s t inv' _ g'' ⟨hs, rfl⟩
    exact same_on_sim _ hs

theorem refoldTop_sim (hok : Faithful ok c) (env : Env) {ns cs : Nibble → RamSlot}
    {gs : Nibble → Multiset Rec} (h : ∀ i, PlacedSlot (ns i) (cs i) (gs i)) :
    IdealSim W ok (refoldTop env ns) (refoldTop env cs) (∑ i, gs i)
      (AgreeOn c Placed (Left Placed)) := by
  have hz : ∀ i, i ∉ ramSurvivors ns → gs i = 0 := fun i hi => recs_of_not_survivor h hi
  unfold refoldTop
  rw [ramSurvivors_eq h]
  split
  · rename_i hs
    have hsum : ∑ i, gs i = 0 := Finset.sum_eq_zero fun i _ => hz i (by rw [hs]; exact List.not_mem_nil)
    rw [hsum]
    exact same_on_sim _ .empty
  · rename_i j hs
    have hsum : ∑ i, gs i = gs j := by
      rw [sum_recs_at gs j, otherRecs, Finset.sum_eq_zero, add_zero]
      intro i hi
      refine hz i ?_
      rw [hs, List.mem_singleton]
      exact Finset.ne_of_mem_erase hi
    rw [hsum]
    have hleft : ∃ g0, Placed (.branch (Function.update ns j .none) none)
        (.branch (Function.update cs j .none) none) g0 := ⟨_, placed_update h j .none none⟩
    simp only
    have hj := h j
    generalize ns j = s, cs j = t, gs j = g at hj
    have hcol : IdealSim W ok (attempt (collapseRoot env [j] s)
          (fun e => (.branch (Function.update ns j .none) none, .error e)) fun node => .pure (node, .ok ()))
        (attempt (collapseRoot env [j] t)
          (fun e => (.branch (Function.update cs j .none) none, .error e)) fun node => .pure (node, .ok ()))
        g (AgreeOn c Placed (Left Placed)) :=
      attempt_on_sim (collapseRoot_sim hok env [j] hj) hleft fun _ _ _ hp => same_on_sim _ hp
    cases hj with
    | ram hn =>
      rcases placed_extendBy [j] hn with ⟨n', c', hn', hc', hp⟩ | ⟨e, hn', hc'⟩
      · simp only [hn', hc']
        exact same_on_sim _ hp
      · simp only [hn', hc']
        exact error_on_sim _ hleft
    | none => exact hcol
    | disk => exact hcol
    | account hn => exact hcol
    | mem => exact hcol
  · exact same_on_sim _ (.branch h)

theorem installRoot_sim (hok : Faithful ok c) (env : Env) {n n' : RamNode} {out out' : RamDelete}
    {g : Multiset Rec} (h : DeletedNode n n' out out' g) :
    IdealSim W ok (installRoot env n out) (installRoot env n' out') g
      (AgreeOn c Placed (Left Placed)) := by
  cases h with
  | absent h => exact same_on_sim _ h
  | changed h => exact same_on_sim _ h
  | removed => exact same_on_sim _ .empty
  | collapsed h =>
    exact attempt_on_sim (collapseRoot_sim hok env _ h) ⟨_, .empty⟩ fun _ _ _ hp => same_on_sim _ hp

theorem applySerial_sim (hok : Faithful ok c) (env : Env) (ram : Bool) (net : List (Key × NetUpdate))
    {n n' : RamNode} {g : Multiset Rec} (h : Placed n n' g) :
    IdealSim W ok (applySerial env ram net n) (applySerial env ram net n') g
      (AgreeOn c Placed (Left Placed)) := by
  induction net generalizing n n' g with
  | nil => exact same_on_sim _ h
  | cons e rest ih =>
    obtain ⟨key, upd⟩ := e
    unfold applySerial
    refine thenUpd_sim id id (applyRamGroup_sim hok env h [] key upd ram) (fun _ _ => rfl)
      (fun _ _ => rfl) (fun s t g0 hs => ⟨g0, hs⟩) ?_
    rintro s t ⟨out, inv⟩ ⟨out', _⟩ g' ⟨hd, rfl⟩
    refine thenUpd_sim id id (installRoot_sim hok env hd) (fun _ _ => rfl) (fun _ _ => rfl)
      (fun s t g0 hs => ⟨g0, hs⟩) ?_
    rintro s t _ _ g'' ⟨hs, rfl⟩
    refine thenUpd_sim id id (ih hs) (fun _ _ => rfl) (fun _ _ => rfl)
      (fun s t g0 hs => ⟨g0, hs⟩) ?_
    rintro s t inv' _ g'' ⟨hs, rfl⟩
    exact same_on_sim _ hs

omit [Keccak] in
theorem AgreeOn.shape {S : RamSlot → RamSlot → Multiset Rec → Prop} {α : Type}
    {x y : RamSlot × Except Err α} (h : AgreeOn c S (Left S) x y g) (hc : ¬c) :
    x.2 = y.2 ∧ ∃ g0, S x.1 y.1 g0 := by
  obtain ⟨s, x⟩ := x
  obtain ⟨t, y⟩ := y
  cases x with
  | error e =>
    obtain ⟨hy, hs⟩ := h.resolve_left hc
    exact ⟨Eq.symm hy, hs⟩
  | ok a =>
    cases y with
    | error e => exact h.elim
    | ok b =>
      obtain ⟨hs, rfl⟩ := h
      exact ⟨rfl, _, hs⟩

omit [Keccak] in
theorem AgreeOn.of_ok {S : RamSlot → RamSlot → Multiset Rec → Prop} {α : Type}
    {x y : RamSlot × Except Err α} (h : AgreeOn c S (Left S) x y g) {a : α} (hx : x.2 = .ok a) :
    y.2 = .ok a ∧ S x.1 y.1 g := by
  obtain ⟨s, x⟩ := x
  obtain ⟨t, y⟩ := y
  cases x with
  | error e => cases hx
  | ok b =>
    cases y with
    | error e => exact h.elim
    | ok b' =>
      obtain ⟨hs, rfl⟩ := h
      exact ⟨hx, hs⟩

omit [Keccak] in
theorem AgreeOn.fault {σ τ α β : Type} {S : σ → τ → Multiset Rec → Prop}
    {T : σ → τ → α → β → Multiset Rec → Prop} {s : σ} {e : Err} {y : τ × Except Err β} (hc : c) :
    AgreeOn c S T (s, .error e) y g := by
  obtain ⟨t, y⟩ := y
  exact Or.inl hc

omit [Keccak] in
/-- Workers are joined alike: all end well, or an error of the file's workers ends the
call. -/
theorem join_cases {α : Type} {rs qs : Nibble → RamSlot × Except Err α} {gs : Nibble → Multiset Rec}
    (h : ∀ i, AgreeOn c PlacedSlot (Left PlacedSlot) (rs i) (qs i) (gs i)) :
    (∃ l, joinAll (List.ofFn fun i => (rs i).2) = .ok l ∧ joinAll (List.ofFn fun i => (qs i).2) = .ok l ∧
      ∀ i, PlacedSlot (rs i).1 (qs i).1 (gs i)) ∨
    ∃ e, joinAll (List.ofFn fun i => (rs i).2) = .error e ∧
      (c ∨ joinAll (List.ofFn fun i => (qs i).2) = .error e ∧
        ∃ gs' : Nibble → Multiset Rec, ∀ i, PlacedSlot (rs i).1 (qs i).1 (gs' i)) := by
  cases hj : joinAll (List.ofFn fun i => (rs i).2) with
  | ok l =>
    have hi : ∀ i, ∃ a, (rs i).2 = .ok a := by
      intro i
      have hmem : (rs i).2 ∈ List.ofFn fun i => (rs i).2 := (List.mem_ofFn' _ _).mpr ⟨i, rfl⟩
      rw [joinAll_ok hj] at hmem
      obtain ⟨a, -, ha⟩ := List.mem_map.mp hmem
      exact ⟨a, ha.symm⟩
    choose a ha using hi
    have heq : (fun i => (qs i).2) = fun i => (rs i).2 := by
      funext i
      rw [((h i).of_ok (ha i)).1, ha i]
    exact .inl ⟨l, rfl, by rw [heq, hj], fun i => ((h i).of_ok (ha i)).2⟩
  | error e =>
    refine .inr ⟨e, rfl, ?_⟩
    by_cases hc : c
    · exact .inl hc
    · have heq : (fun i => (qs i).2) = fun i => (rs i).2 := by
        funext i
        exact ((h i).shape hc).1.symm
      choose gs' hgs' using fun i => ((h i).shape hc).2
      exact .inr ⟨by rw [heq, hj], gs', hgs'⟩

theorem applyNet_sim (hok : Faithful ok c) (env : Env) (ram : Bool) (net : List (Key × NetUpdate))
    {n n' : RamNode} {g : Multiset Rec} (h : Placed n n' g) :
    IdealSim W ok (applyNet env ram net n) (applyNet env ram net n') g
      (AgreeOn c Placed (Left Placed)) := by
  cases h with
  | empty => exact applySerial_sim hok env ram net .empty
  | extension h => exact applySerial_sim hok env ram net (.extension h)
  | branch h =>
    refine Sim.bind (Sim.fan (Q := fun rs qs g => ∃ gs : Nibble → Multiset Rec, g = ∑ i, gs i ∧
      ∀ i, AgreeOn c PlacedSlot (Left PlacedSlot) (rs i) (qs i) (gs i))
      (fun i => applyBucket_sim hok env ram [i] (bucketOf net i) (h i))
      fun rs qs hs hR => ⟨hs, rfl, hR⟩) ?_
    rintro rs qs _ ⟨gs, rfl, hR⟩
    rcases join_cases hR with ⟨invs, hj, hj', hslots⟩ | ⟨e, hj, hq⟩
    · simp only [hj, hj']
      refine thenUpd_sim id id (refoldTop_sim hok env hslots) (fun _ _ => rfl) (fun _ _ => rfl)
        (fun s t g0 hs => ⟨g0, hs⟩) ?_
      rintro s t _ _ g' ⟨hs, rfl⟩
      exact same_on_sim _ hs
    · simp only [hj]
      rcases hq with hc | ⟨hj', gs', hgs'⟩
      · exact AgreeOn.fault (g := ∑ i, gs i) (T := Left Placed) hc
      · simp only [hj']
        exact error_on_sim _ ⟨_, .branch hgs'⟩

end

end FlatMpt
