import FlatMpt.Lifting
import FlatMpt.Rlp

/-!
# The state trie and the storage tries

The two kinds of trie: the storage trie of an account has value leaves and lies below
the account's key; the state trie starts at the empty path, and a leaf promoted into
its frontier is an account whose storage frontier shows the account's storage.

    storageKind, stateKind
    promoteAccountToRam_shows
    lifts_storage, lifts_state
-/

namespace FlatMpt

open Prog
open Radix (Tree)
open Radix.Tree (Canon)

/-! ## Keys -/

/-- Every path of 64 nibbles is a key's. -/
theorem exists_key {l : List Nibble} (hl : l.length = 64) : ∃ k : Key, keyNibbles k = l := by
  obtain ⟨bs, hbs, hlen⟩ := Eth.packNibbles_isSome (show l.length % 2 = 0 by omega)
  exact ⟨⟨bs, by omega⟩, Eth.flatMap_packNibbles hbs⟩

section
variable [Keccak]

/-! ## The kinds -/

/-- The storage trie of an account. -/
def storageKind (account : Key) : Kind Bytes where
  form := valueLeaf
  fits := ShortValue
  storable _ _ hp hv := ⟨hp, hv, refOk_mkRef _⟩
  root := keyNibbles account
  root_length := .inr (keyNibbles_length account)
  lone _ _ _ _ _ _ := False
  lone_fill := False.elim
  lone_inline _ := Iff.rfl

/-- A promoted account: its storage frontier shows its storage, which is not empty. -/
def PromotedAccount (full : List Nibble) (nonce : UInt64) (balance : U256) (codeHash : Hash)
    (storage : RamNode) (a : StateLeaf) : Prop :=
  ∃ account s, full = keyNibbles account ∧ a = .account nonce balance codeHash s ∧
    s.tree ≠ .empty ∧ Shows (storageKind account) [] storage s.tree

/-- The state trie. -/
def stateKind : Kind StateLeaf where
  form := stateLeaf
  fits := StateLeaf.Short
  storable _ _ := storable_stateLeaf
  root := []
  root_length := .inl rfl
  lone := PromotedAccount
  lone_fill := fun ⟨account, s, hf, ha, ht, h⟩ => ⟨account, s, hf, ha, ht, h.fill⟩
  lone_inline pfx := by
    constructor
    · rintro ⟨account, s, hf, ha, ht, h⟩
      exact ⟨account, s, hf, ha, ht, (shows_inlineAt _ pfx).mp h⟩
    · rintro ⟨account, s, hf, ha, ht, h⟩
      exact ⟨account, s, hf, ha, ht, (shows_inlineAt _ pfx).mpr h⟩

@[simp] theorem stateKind_root : stateKind.root = [] := rfl

@[simp] theorem storageKind_root (account : Key) : (storageKind account).root = keyNibbles account := rfl

/-! ## Promoted accounts -/

variable {env : Env} {q path : List Nibble}

theorem liftsLeaves_storage (account : Key) : LiftsLeaves (storageKind account) env :=
  fun _ _ _ _ => .refuse _

/-- The storage of an account, as a trie below its key. -/
theorem Storage.records {s : Storage} (h : s.Short) (account : Key) :
    (storageKind account).Records [] s.tree := ⟨by decide, s.canon, h⟩

/-- A storage frontier below an account's path. -/
theorem showsSlot_account {nonce : UInt64} {balance : U256} {codeHash : Hash} {s : Storage}
    {storage : RamNode} {account : Key} (hk : keyNibbles account = q ++ path)
    (hp : path.length = 64 - q.length) (hs : s.Short) (ht : s.tree ≠ .empty)
    (h : Shows (storageKind account) [] storage s.tree) :
    ShowsSlot stateKind q (.account path nonce balance codeHash storage)
      (.leaf path (.account nonce balance codeHash s)) :=
  .account hp hs ⟨account, s, hk.symm, rfl, ht, h⟩

omit [Keccak] in
theorem exists_account (hp : path.length = 64 - q.length) (hq : q.length ≤ 64) :
    ∃ account, keyNibbles account = q ++ path :=
  exists_key (by rw [List.length_append]; omega)

theorem promoteAccountToRam_shows {a : StateLeaf} (ram : Bool) (hp : path.length = 64 - q.length)
    (hq : q.length ≤ 64) (ha : a.Short) :
    Yields (promoteAccountToRam env ram ⟨q, stateLeaf.node path a⟩)
      (ShowsSlot stateKind q · (.leaf path a)) := by
  cases a with
  | raw v => exact .fail _
  | account n b c s =>
    obtain ⟨account, hk⟩ := exists_account hp hq
    show Yields (attempt (promoteNode env ram ⟨q ++ path, toNode valueLeaf s.tree⟩) _ _) _
    rw [← hk]
    refine (promoteNode_shows (liftsLeaves_storage account) ram (Storage.records ha account)
      (List.append_nil _).symm).attempt fun node hn => .ok ?_
    exact showsSlot_account hk hp ha hn.2 hn.1

theorem liftsLeaves_state : LiftsLeaves stateKind env := by
  intro q p a ram hp hq ha
  cases a with
  | raw v => exact .refuse _
  | account n b c s =>
    obtain ⟨account, hk⟩ := exists_account hp hq
    have hleaf : LiftsLeaves (storageKind account) env := liftsLeaves_storage account
    have hlift := promoteNode_shows hleaf env.hot (Storage.records ha account) (List.append_nil _).symm
    have hslot {node : RamNode} (h : Shows (storageKind account) [] node s.tree ∧ s.tree ≠ .empty) :
        ShowsSlot stateKind q (.account p n b c node) (.leaf p (.account n b c s)) :=
      showsSlot_account hk hp ha h.2 h.1
    rw [storageKind_root, hk] at hlift
    show Yields (promoteOversized env (accountNode p n b c (toNode valueLeaf s.tree)) ram q) _
    obtain ⟨t, ht⟩ := s
    cases t with
    | empty => exact .fail _
    | leaf k v => exact .fail _
    | branch ts => exact hlift.attempt fun node h => .ok (hslot h)
    | ext k t =>
      cases ht with
      | ext _ _ hb _ =>
        obtain ⟨ts⟩ := hb
        exact hlift.of_attempt.attempt fun node h => .ok (hslot h)

theorem lifts_storage (account : Key) : (storageKind account).Lifts env where
  leaves := liftsLeaves_storage account
  accounts _ _ _ _ := .fail _

theorem lifts_state : stateKind.Lifts env where
  leaves := liftsLeaves_state
  accounts := promoteAccountToRam_shows

end

end FlatMpt
