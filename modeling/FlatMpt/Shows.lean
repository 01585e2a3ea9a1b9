import FlatMpt.Yields
import FlatMpt.Inline

/-!
# Frontiers as trees

`Shows K q n t` says that the frontier node `n` at the position `q` shows the radix
tree `t`: its structure is that of `t` down to the slots, a record holds the record
node of the rest, written under the full path of its slot, and every cached hash is
the hash computed.  Below the top node the structure is canonical.  `K` is the trie:
how its leaves are written, where it starts, and which leaves lie in the frontier.

    Kind           -- a trie of records and frontier nodes
    Recorded       -- a record of a tree
    Shows, ShowsSlot
    Shows.fill, shows_inlineAt
-/

namespace FlatMpt

open Prog
open Radix (Tree)
open Radix.Tree (Canon)

section
variable [Keccak]

/-- A trie of the engine, with leaves in `α`. -/
structure Kind (α : Type) where
  form : LeafForm α
  /-- Leaves that the record format can hold. -/
  fits : α → Prop
  storable : ∀ p a, p.length ≤ 128 → fits a → Storable (form.node p a)
  /-- The position of the trie: that of the account for a storage trie. -/
  root : List Nibble
  root_length : root = [] ∨ root.length = 64
  /-- A leaf promoted into the frontier, with the full path of its key. -/
  lone : List Nibble → UInt64 → U256 → Hash → RamNode → α → Prop
  lone_fill : ∀ {full nonce balance codeHash storage a},
    lone full nonce balance codeHash storage a → lone full nonce balance codeHash (fillRam storage) a
  lone_inline : ∀ {full nonce balance codeHash storage a} (pfx : List Nibble),
    lone full nonce balance codeHash (inlineAt storage pfx) a ↔
      lone full nonce balance codeHash storage a

/-- The cache is empty or holds the hash of the node. -/
def Cached (hash : Option Hash) (n : RamNode) : Prop := ∀ h, hash = some h → h = hashRam n

variable {α : Type} (K : Kind α)

/-- Every leaf of the tree can be written. -/
def Kind.Fit (t : Tree 16 α) : Prop := ∀ k a, t.get k = some a → K.fits a

/-- The record of a tree below the position `q`. -/
structure Recorded (q : List Nibble) (t : Tree 16 α) (bytes : Bytes) (root : Hash) : Prop where
  bytes_eq : serializeSubtree ⟨K.root ++ q, toNode K.form t⟩ = .ok bytes
  root_eq : root = (hashNode (toNode K.form t)).finalize
  length : q.length ≤ 64
  canon : Canon (64 - q.length) t
  ne_empty : t ≠ .empty
  fit : K.Fit t

mutual

inductive Shows : List Nibble → RamNode → Tree 16 α → Prop
  | empty {q : List Nibble} : Shows q .empty .empty
  | extension {q path : List Nibble} {child : RamNode} {t : Tree 16 α} {hash : Option Hash}
      (hp : path ≠ []) (hb : Tree.IsBranch t) (hc : Canon (64 - (q ++ path).length) t)
      (h : Shows (q ++ path) child t) (hh : Cached hash (.extension path child none)) :
      Shows q (.extension path child hash) (.ext path t)
  | branch {q : List Nibble} {slots : Nibble → RamSlot} {ts : Nibble → Tree 16 α}
      {hash : Option Hash} (hq : q.length < 64) (h : ∀ i, ShowsSlot (q ++ [i]) (slots i) (ts i))
      (hh : Cached hash (.branch slots none)) : Shows q (.branch slots hash) (.branch ts)

inductive ShowsSlot : List Nibble → RamSlot → Tree 16 α → Prop
  | none {q : List Nibble} : ShowsSlot q .none .empty
  | ram {q : List Nibble} {n : RamNode} {t : Tree 16 α} (hc : Canon (64 - q.length) t)
      (ht : t ≠ .empty) (h : Shows q n t) : ShowsSlot q (.ram n) t
  | disk {q : List Nibble} {t : Tree 16 α} {ptr : DiskPtr} {root : Hash}
      (h : Recorded K q t (nameOf ptr) root) : ShowsSlot q (.disk ptr root) t
  | mem {q : List Nibble} {t : Tree 16 α} {bytes : Bytes} {root : Hash}
      (h : Recorded K q t bytes root) : ShowsSlot q (.mem bytes root) t
  | account {q path : List Nibble} {nonce : UInt64} {balance : U256} {codeHash : Hash}
      {storage : RamNode} {a : α} (hp : path.length = 64 - q.length) (ha : K.fits a)
      (h : K.lone (K.root ++ q ++ path) nonce balance codeHash storage a) :
      ShowsSlot q (.account path nonce balance codeHash storage) (.leaf path a)

end

variable {K} {q : List Nibble} {t : Tree 16 α}

/-! ## Records -/

/-- A record is read back as it was written. -/
theorem Recorded.read {bytes : Bytes} {root : Hash} (h : Recorded K q t bytes root) :
    deserializeSubtree bytes = .ok ⟨K.root ++ q, toNode K.form t⟩ := by
  have hlen : (K.root ++ q).length ≤ 128 := by
    have := h.length
    rcases K.root_length with hr | hr
    · rw [hr, List.nil_append]
      omega
    · rw [List.length_append, hr]
      omega
  obtain ⟨payload, hp, hd, -⟩ := deserializeSubtree_serialize (s := ⟨K.root ++ q, toNode K.form t⟩)
    hlen (storable_toNode K.form K.fits K.storable h.canon (by omega) h.fit)
  rw [h.bytes_eq] at hp
  cases hp
  exact hd

theorem yields_record {bytes : Bytes} {root : Hash} (h : Recorded K q t bytes root) :
    Yields (.pure (deserializeSubtree bytes)) (· = ⟨K.root ++ q, toNode K.form t⟩) := by
  rw [h.read]
  rintro _ ⟨⟩
  rfl

theorem yields_readRecord {ptr : DiskPtr} {root : Hash} (h : Recorded K q t (nameOf ptr) root) :
    Yields (readLazy ptr) (· = ⟨K.root ++ q, toNode K.form t⟩) := yields_record h

/-! ## Canonical form -/

theorem ShowsSlot.canon {s : RamSlot} (h : ShowsSlot K q s t) : Canon (64 - q.length) t := by
  cases h with
  | none => exact .empty
  | ram hc _ _ => exact hc
  | disk h => exact h.canon
  | mem h => exact h.canon
  | account hp _ _ => exact .leaf hp

theorem ShowsSlot.isSome {s : RamSlot} (h : ShowsSlot K q s t) : s.isSome = !t.isEmpty := by
  have hne {t : Tree 16 α} (ht : t ≠ .empty) : t.isEmpty = false := by
    cases t with
    | empty => exact absurd rfl ht
    | _ => rfl
  cases h with
  | none => rfl
  | ram _ ht _ => rw [hne ht]; rfl
  | disk h => rw [hne h.ne_empty]; rfl
  | mem h => rw [hne h.ne_empty]; rfl
  | account => rfl

/-- A frontier node shows a canonical tree, but for a top branch with one child. -/
theorem Shows.canon {n : RamNode} (h : Shows K q n t) :
    Canon (64 - q.length) t ∨ ∃ ts, t = .branch ts ∧ q.length < 64 ∧
      ∀ i, Canon (64 - (q ++ [i]).length) (ts i) := by
  cases h with
  | empty => exact .inl .empty
  | @extension _ path _ t hash hp hb hc h hh =>
    refine .inl (.ext hp ?_ hb hc)
    have : 0 < 64 - (q ++ path).length := by
      cases hb
      cases hc with
      | branch hn _ _ => omega
    rw [List.length_append] at this ⊢
    omega
  | branch hq h hh => exact .inr ⟨_, rfl, hq, fun i => (h i).canon⟩

omit [Keccak] in
/-- A branch of two children is canonical. -/
theorem canon_branch {ts : Nibble → Tree 16 α} (hq : q.length < 64)
    (h : ∀ i, Canon (64 - (q ++ [i]).length) (ts i)) (h2 : Tree.TwoChildren ts) :
    Canon (64 - q.length) (.branch ts) := by
  refine .branch (m := 64 - (q.length + 1)) (by omega) (fun i => ?_) h2
  have := h i
  rwa [List.length_append, List.length_singleton] at this

/-! ## Leaves -/

mutual

/-- Every leaf of a tree shown can be written. -/
theorem Shows.fit {q : List Nibble} {n : RamNode} {t : Tree 16 α} (h : Shows K q n t) : K.Fit t := by
  match h with
  | .empty => exact fun k a hk => by cases hk
  | .extension hp hb hc h hh =>
    intro k a hk
    rw [Radix.Tree.get] at hk
    split at hk
    · exact h.fit _ a hk
    · cases hk
  | .branch hq h hh =>
    intro k a hk
    cases k with
    | nil => cases hk
    | cons i k => exact (h i).fit k a hk

theorem ShowsSlot.fit {q : List Nibble} {s : RamSlot} {t : Tree 16 α} (h : ShowsSlot K q s t) : K.Fit t := by
  match h with
  | .none => exact fun k a hk => by cases hk
  | .ram hc ht h => exact h.fit
  | .disk h => exact h.fit
  | .mem h => exact h.fit
  | .account hp ha h =>
    intro k a hk
    rw [Tree.get_leaf] at hk
    split at hk
    · cases hk
      exact ha
    · cases hk

end

/-! ## Caches -/

theorem Cached.none (n : RamNode) : Cached none n := nofun

/-- A filled cache does not change the hash. -/
theorem Cached.extension {path : List Nibble} {child : RamNode} {hash : Option Hash}
    (h : Cached hash (.extension path child .none)) :
    hashRam (.extension path child hash) = hashRam (.extension path child .none) := by
  cases hash with
  | none => rfl
  | some v => exact h v rfl

theorem Cached.branch {slots : Nibble → RamSlot} {hash : Option Hash}
    (h : Cached hash (.branch slots .none)) :
    hashRam (.branch slots hash) = hashRam (.branch slots .none) := by
  cases hash with
  | none => rfl
  | some v => exact h v rfl

mutual

/-- Filling the caches keeps the tree. -/
theorem Shows.fill {q : List Nibble} {n : RamNode} {t : Tree 16 α} (h : Shows K q n t) :
    Shows K q (fillRam n) t := by
  match h with
  | .empty => exact .empty
  | @Shows.extension _ _ _ _ path child _ none hp hb hc h hh =>
    refine .extension hp hb hc h.fill fun v hv => ?_
    cases hv
    unfold hashRam
    rw [hashRam_fillRam]
  | @Shows.extension _ _ _ _ path child _ (some v) hp hb hc h hh => exact .extension hp hb hc h hh
  | @Shows.branch _ _ _ _ slots ts none hq h hh =>
    refine .branch hq (fun i => (h i).fill) fun v hv => ?_
    cases hv
    unfold hashRam
    simp only [ramChildHash_fillSlot]
  | @Shows.branch _ _ _ _ slots ts (some v) hq h hh => exact .branch hq h hh

theorem ShowsSlot.fill {q : List Nibble} {s : RamSlot} {t : Tree 16 α} (h : ShowsSlot K q s t) :
    ShowsSlot K q (fillSlot s) t := by
  match h with
  | .none => exact .none
  | .ram hc ht h => exact .ram hc ht h.fill
  | .disk h => exact .disk h
  | .mem h => exact .mem h
  | .account hp ha h => exact .account hp ha (K.lone_fill h)

end

/-! ## Records in RAM -/

mutual

theorem shows_inlineAt (n : RamNode) {q : List Nibble} {t : Tree 16 α} (pfx : List Nibble) :
    Shows K q (inlineAt n pfx) t ↔ Shows K q n t := by
  match n with
  | .empty => exact Iff.rfl
  | .extension path child hash =>
    have hash_eq : hashRam (.extension path (inlineAt child (pfx ++ path)) none) =
        hashRam (.extension path child none) := by
      unfold hashRam
      rw [hashRam_inlineAt]
    constructor
    · rintro (_ | ⟨hp, hb, hc, h, hh⟩ | _)
      exact .extension hp hb hc ((shows_inlineAt child _).mp h) fun v hv => (hh v hv).trans hash_eq
    · rintro (_ | ⟨hp, hb, hc, h, hh⟩ | _)
      exact .extension hp hb hc ((shows_inlineAt child _).mpr h) fun v hv =>
        (hh v hv).trans hash_eq.symm
  | .branch slots hash =>
    have hash_eq : hashRam (.branch (fun i => inlineSlotAt (slots i) (pfx ++ [i])) none) =
        hashRam (.branch slots none) := by
      unfold hashRam
      simp only [ramChildHash_inlineAt]
    constructor
    · rintro (_ | _ | ⟨hq, h, hh⟩)
      exact .branch hq (fun i => (showsSlot_inlineAt (slots i) _).mp (h i)) fun v hv =>
        (hh v hv).trans hash_eq
    · rintro (_ | _ | ⟨hq, h, hh⟩)
      exact .branch hq (fun i => (showsSlot_inlineAt (slots i) _).mpr (h i)) fun v hv =>
        (hh v hv).trans hash_eq.symm

theorem showsSlot_inlineAt (s : RamSlot) {q : List Nibble} {t : Tree 16 α} (pfx : List Nibble) :
    ShowsSlot K q (inlineSlotAt s pfx) t ↔ ShowsSlot K q s t := by
  match s with
  | .none => exact Iff.rfl
  | .ram n =>
    constructor
    · rintro (_ | ⟨hc, ht, h⟩ | _ | _ | _)
      exact .ram hc ht ((shows_inlineAt n _).mp h)
    · rintro (_ | ⟨hc, ht, h⟩ | _ | _ | _)
      exact .ram hc ht ((shows_inlineAt n _).mpr h)
  | .disk ptr root =>
    constructor
    · rintro (_ | _ | _ | h | _)
      exact .disk h
    · rintro (_ | _ | h | _ | _)
      exact .mem h
  | .mem bytes root => exact Iff.rfl
  | .account path nonce balance codeHash storage =>
    constructor
    · rintro (_ | _ | _ | _ | ⟨hp, ha, h⟩)
      exact .account hp ha ((K.lone_inline _).mp h)
    · rintro (_ | _ | _ | _ | ⟨hp, ha, h⟩)
      exact .account hp ha ((K.lone_inline _).mpr h)

end

end

end FlatMpt
