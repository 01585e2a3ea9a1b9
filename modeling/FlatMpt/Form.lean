import FlatMpt.Roots

/-!
# Canonical form

Frontier and records together are one canonical trie over keys of 64 nibbles: every
branch has two children, every extension has a path and leads to a branch, and every
leaf ends where its key does.  Only a branch at the root may have fewer children.

    NodeForm, RamForm       -- a record node, a frontier node below the root
    form_canonical
-/

namespace FlatMpt

open Radix (Tree)
open Radix.Tree (Canon)

/-! ## Records -/

mutual

/-- A record node, not empty, whose keys have `m` nibbles left; `accounts` if its leaves may be
structured accounts, which hold a trie of slots of the same form. -/
def NodeForm : Node → Bool → Nat → Prop
  | .empty, _, _ => False
  | .leaf path _ _, _, m => path.length = m
  | .extension path child _, accounts, m =>
    path ≠ [] ∧ path.length ≤ m ∧ child.isBranch ∧ NodeForm child accounts (m - path.length)
  | .branch children _, accounts, m =>
    (∃ i j, i ≠ j ∧ (children i).isSome ∧ (children j).isSome) ∧ 0 < m ∧
      ∀ i, NodeFormIn (children i) accounts (m - 1)
  | .account path _ _ _ storage _ _, accounts, m =>
    accounts ∧ path.length = m ∧ (storage = .empty ∨ NodeForm storage false 64)

def NodeFormIn : Option Node → Bool → Nat → Prop
  | none, _, _ => True
  | some child, accounts, m => NodeForm child accounts m

end

/-- The bytes of a record of that form at its position. -/
def RecordForm (bytes : Bytes) (accounts : Bool) (m : Nat) [Keccak] : Prop :=
  ∃ sub, deserializeSubtree bytes = .ok sub ∧ NodeForm sub.node accounts m

/-! ## Frontiers -/

def RamNode.isBranch : RamNode → Bool
  | .branch .. => true
  | _ => false

section
variable [Keccak]

mutual

/-- A frontier node, not empty, with the records below it. -/
def RamForm (s : Store) : RamNode → Bool → Nat → Prop
  | .empty, _, _ => False
  | .extension path child _, accounts, m =>
    path ≠ [] ∧ path.length ≤ m ∧ child.isBranch ∧ RamForm s child accounts (m - path.length)
  | .branch children _, accounts, m =>
    (∃ i j, i ≠ j ∧ (children i).isSome ∧ (children j).isSome) ∧ 0 < m ∧
      ∀ i, SlotForm s (children i) accounts (m - 1)

def SlotForm (s : Store) : RamSlot → Bool → Nat → Prop
  | .none, _, _ => True
  | .ram node, accounts, m => RamForm s node accounts m
  | .disk ptr _, accounts, m => RecordForm (s.payload ptr) accounts m
  | .mem bytes _, accounts, m => RecordForm bytes accounts m
  | .account path _ _ _ storage, accounts, m =>
    accounts ∧ path.length = m ∧ RamForm s storage false 64

end

/-- The root: a branch there may have fewer than two children. -/
def RootForm (s : Store) : RamNode → Prop
  | .empty => True
  | .extension path child hash => RamForm s (.extension path child hash) true 64
  | .branch children _ => ∀ i, SlotForm s (children i) true 63

/-! ## Trees -/

variable {α : Type} {K : Kind α}

/-- The leaves of a kind are of the form. -/
def Kind.Forms (K : Kind α) (accounts : Bool) : Prop := ∀ p a, NodeForm (K.form.node p a) accounts p.length

theorem nodeForm_toNode {accounts : Bool} (hK : K.Forms accounts) {m : Nat} {t : Tree 16 α}
    (h : Canon m t) (ht : t ≠ .empty) : NodeForm (toNode K.form t) accounts m := by
  induction h with
  | empty => exact absurd rfl ht
  | leaf hp => exact hp ▸ hK _ _
  | @ext n m p c hp hn hb hc ih =>
    cases hb with
    | intro cs =>
      refine ⟨hp, by omega, rfl, ?_⟩
      rw [hn, Nat.add_sub_cancel_left]
      exact ih (by simp)
  | @branch n m cs hn hc h2 ih =>
    obtain ⟨i, j, hij, hi, hj⟩ := h2
    have hpresent {i : Nibble} (hi : cs i ≠ .empty) :
        asChild (toNode K.form (cs i)) = some (toNode K.form (cs i)) := asChild_toNode K.form hi
    refine ⟨⟨i, j, hij, ?_, ?_⟩, by omega, fun k => ?_⟩
    · show (asChild (toNode K.form (cs i))).isSome
      rw [hpresent hi]
      rfl
    · show (asChild (toNode K.form (cs j))).isSome
      rw [hpresent hj]
      rfl
    · show NodeFormIn (asChild (toNode K.form (cs k))) accounts (n - 1)
      rw [hn, Nat.add_sub_cancel]
      by_cases hk : cs k = .empty
      · rw [hk]
        trivial
      · rw [hpresent hk]
        exact ih k hk

theorem forms_storage (account : Key) : (storageKind account).Forms false := fun _ _ => rfl

theorem forms_state : stateKind.Forms true := by
  intro p a
  cases a with
  | raw v => rfl
  | account n b c s =>
    refine ⟨rfl, rfl, ?_⟩
    by_cases hs : s.tree = .empty
    · refine .inl ?_
      show toNode valueLeaf s.tree = _
      rw [hs]
      rfl
    · exact .inr (nodeForm_toNode (forms_storage (.fill 0)) s.canon hs)

theorem Recorded.form {accounts : Bool} (hK : K.Forms accounts) {q : List Nibble} {t : Tree 16 α} {bytes : Bytes}
    {root : Hash} (h : Recorded K q t bytes root) : RecordForm bytes accounts (64 - q.length) :=
  ⟨_, h.read, nodeForm_toNode hK h.canon h.ne_empty⟩

/-- The storage frontier of a promoted account is of the form. -/
def Kind.LoneForms (K : Kind α) (accounts : Bool) (s : Store) : Prop :=
  ∀ {full p nonce balance codeHash storage a},
    K.lone full nonce balance codeHash (mapLeaves (fetch s) storage p) a →
      accounts ∧ RamForm s storage false 64

omit [Keccak] in
theorem isSome_fetch (s : Store) (slot : RamSlot) (p : List Nibble) :
    (mapLeavesIn (fetch s) slot p).isSome = slot.isSome := by
  cases slot <;> rfl

mutual

theorem Shows.form {accounts : Bool} (hK : K.Forms accounts) {s : Store} (hL : K.LoneForms accounts s) (n : RamNode)
    {p q : List Nibble} {t : Tree 16 α} (h : Shows K q (mapLeaves (fetch s) n p) t)
    (hc : Canon (64 - q.length) t) (ht : t ≠ .empty) : RamForm s n accounts (64 - q.length) := by
  match n with
  | .empty =>
    cases h
    exact absurd rfl ht
  | .extension path child hash =>
    rw [mapLeaves] at h
    cases h with
    | @extension _ _ _ t' _ hp hb hcc h hh =>
      cases hc with
      | @ext _ m _ _ _ hn _ hcm =>
        have hsub : 64 - q.length - path.length = 64 - (q ++ path).length := by
          rw [List.length_append]
          omega
        refine ⟨hp, by omega, ?_, hsub ▸ Shows.form hK hL child h hcc ?_⟩
        · cases hb
          cases child <;> cases h
          rfl
        · cases hb
          simp
  | .branch slots hash =>
    rw [mapLeaves] at h
    cases h with
    | @branch _ _ ts _ hq h hh =>
      cases hc with
      | @branch _ m _ hn hcm h2 =>
        obtain ⟨i, j, hij, hi, hj⟩ := h2
        have hpresent {i : Nibble} (hi : ts i ≠ .empty) : (slots i).isSome := by
          have hsome := (h i).isSome
          rw [isSome_fetch] at hsome
          rw [hsome, Bool.not_eq_true']
          exact Bool.eq_false_iff.mpr fun he => hi (Tree.isEmpty_iff.mp he)
        refine ⟨⟨i, j, hij, hpresent hi, hpresent hj⟩, by omega, fun k => ?_⟩
        have hsub : 64 - q.length - 1 = 64 - (q ++ [k]).length := by
          rw [List.length_append, List.length_singleton]
          omega
        rw [hsub]
        exact ShowsSlot.form hK hL (slots k) (h k)

theorem ShowsSlot.form {accounts : Bool} (hK : K.Forms accounts) {s : Store} (hL : K.LoneForms accounts s)
    (slot : RamSlot) {p q : List Nibble} {t : Tree 16 α}
    (h : ShowsSlot K q (mapLeavesIn (fetch s) slot p) t) : SlotForm s slot accounts (64 - q.length) := by
  match slot with
  | .none => trivial
  | .ram sub =>
    rw [mapLeavesIn] at h
    cases h with
    | ram hc ht h => exact Shows.form hK hL sub h hc ht
  | .disk ptr root =>
    change ShowsSlot K q (.mem (s.payload ptr) root) t at h
    cases h with
    | mem h => exact h.form hK
  | .mem bytes root =>
    change ShowsSlot K q (.mem bytes root) t at h
    cases h with
    | mem h => exact h.form hK
  | .account path nonce balance codeHash storage =>
    rw [mapLeavesIn] at h
    cases h with
    | account hp ha h =>
      obtain ⟨hacc, hform⟩ := hL h
      exact ⟨hacc, hp, hform⟩

end

theorem loneForms_storage (account : Key) (s : Store) : (storageKind account).LoneForms false s :=
  fun h => h.elim

theorem loneForms_state (s : Store) : stateKind.LoneForms true s := by
  rintro full p n b c storage a ⟨account, st, -, -, hne, hshows⟩
  exact ⟨rfl, hshows.form (forms_storage account) (loneForms_storage account s) storage st.canon hne⟩

/-- The root of a view, and of one whose keys part at the first nibble. -/
theorem rootForm_of_shows {s : Store} {n : RamNode} {t : Tree 16 StateLeaf}
    (h : Shows stateKind [] (loaded s n) t) :
    RootForm s n ∧ (Canon 64 t → t ≠ .empty → RamForm s n true 64) := by
  refine ⟨?_, fun hc ht => h.form forms_state (loneForms_state s) n hc ht⟩
  match n with
  | .empty => trivial
  | .extension path child hash =>
    rcases h.canon with hc | ⟨ts, ht, -, -⟩
    · refine h.form forms_state (loneForms_state s) (.extension path child hash) hc ?_
      unfold loaded at h
      rw [mapLeaves] at h
      cases h
      simp
    · unfold loaded at h
      rw [mapLeaves, ht] at h
      cases h
  | .branch slots hash =>
    unfold loaded at h
    rw [mapLeaves] at h
    cases h with
    | branch hq h hh =>
      exact fun i => ShowsSlot.form forms_state (loneForms_state s) (slots i) (h i)

end

/-- **Every view is in canonical form below its root**, through frontier and records, in every
regular run; and at the root too, where two live keys part at the first nibble. -/
theorem form_canonical [Keccak] {env : Env} {σ : Sys} {n : RamNode} {ramMode direct : Bool}
    {faults : List Bool} (hrun : RegularRun env (.create ramMode direct faults) σ) (hn : σ.View n) :
    RootForm σ.store n ∧ ∀ ls, Lists σ.store n ls → Parted ls → RamForm σ.store n true 64 := by
  obtain ⟨⟨t, ht⟩, -⟩ := view_shown hrun hn
  obtain ⟨hroot, hform⟩ := rootForm_of_shows ht
  refine ⟨hroot, fun ls hls hparted => ?_⟩
  obtain ⟨ls', hls'⟩ := exists_listed (ramLeaves_alike surfaces_state _ ht) fun _ _ => ht.get_length
  obtain rfl := hls.unique (lists_of_shows ht hls')
  refine hform (canon_of_parted ht hls' hparted) ?_
  rintro rfl
  obtain ⟨l, hl, -⟩ := hparted
  obtain ⟨e, -, hof⟩ := Radix.exists_related hls' hl
  obtain ⟨a, ha, -⟩ := hof.leaf
  cases ha

/-- Accounts that part at the first nibble, one of them promoted. -/
theorem form_canonical_slots :
    ∃ (_ : Keccak) (env : Env) (σ : Sys), RegularRun env (.create false false []) σ ∧
      RamForm σ.store σ.db.upper true 64 := by
  obtain ⟨_, σ, hrun, hidle, hobs, -⟩ := narrow_run
  have hview : σ.View σ.db.upper := .inl ⟨hidle, rfl⟩
  obtain ⟨ls, hls⟩ := exists_lists hrun hview
  have hparted := hobs.parted hls (show execBlock (fun _ => none) threeOps (.fill 0x30) = some _ from rfl)
    (show execBlock (fun _ => none) threeOps (.fill 0x40) = some _ from rfl) (by decide)
  exact ⟨_, narrowEnv, σ, hrun, (form_canonical hrun hview).2 ls hls hparted⟩

end FlatMpt
