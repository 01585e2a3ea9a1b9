import FlatMpt.Expand
import FlatMpt.RecordState

/-!
# Operations on lazily read records

The record operations parse a raw child when their walk reaches it, and a raw survivor
when a branch collapses into it; everything else stays serialized.  They do to a lazy
node what the operations on parsed nodes do to the node it stands for.

    nodeInsert, nodeDelete    -- the descents, over raw nodes
    StandsFor l n             -- `l` is `n`, in part serialized
    nodeInsert_agrees, nodeDelete_agrees
-/

namespace FlatMpt.Lazy

open FlatMpt
open Radix (Tree commonPrefix)
open Radix.Tree (Canon)
open FlatMpt.Eth (EMPTY_ROOT EMPTY_CODE_HASH)

section
variable [Keccak]

/-! ## Nodes -/

/-- One level of a raw node. -/
def expand : Node → Except Err Node
  | .raw buf off len _ => parseNodeLazy buf off len
  | node => .ok node

def leafNode (path : List Nibble) (value : Bytes) : Node := .leaf path value (leafRef path value)

def makeExtension (path : List Nibble) (child : Node) : Node :=
  .extension path child (extRef path (hashNode child))

def makeBranch (children : Nibble → Option Node) : Node :=
  .branch children (branchRef fun i => (children i).map hashNode)

def rehome (node : Node) (path : List Nibble) : Except Err Node :=
  match node with
  | .leaf _ value _ => .ok (leafNode path value)
  | .account _ nonce balance codeHash storage _ _ =>
    .ok (accountNode path nonce balance codeHash storage)
  | _ => .error .panic

def twoChildren (i : Nibble) (a : Node) (j : Nibble) (b : Node) : Nibble → Option Node :=
  Function.update (Function.update (fun _ => none) i (some a)) j (some b)

def underPath (path : List Nibble) (branch : Node) : Node :=
  if path.length = 0 then branch else makeExtension path branch

/-! ## Insertion -/

def insertAtLeaf (place : List Nibble → Except Err Node)
    (apply : Node → List Nibble → Except Err Node) (old : Node) (path remaining : List Nibble) :
    Except Err Node :=
  let common := commonPrefix path remaining
  if common = path.length then apply old path
  else
    match path.drop common, remaining.drop common with
    | oldIdx :: oldRest, newIdx :: newRest => do
      let a ← rehome old oldRest
      let b ← place newRest
      return underPath (path.take common) (makeBranch (twoChildren oldIdx a newIdx b))
    | _, _ => .error .panic

/-- The child slot that a key leads to. -/
def insertSlot (place : List Nibble → Except Err Node)
    (descend : Node → List Nibble → Except Err Node) : Option Node → List Nibble → Except Err Node
  | none, rest => place rest
  | some (.overflow ..), _ => .error .panic
  | some child, rest => descend child rest

/-- One parsed node. -/
def insertStep (place : List Nibble → Except Err Node)
    (apply : Node → List Nibble → Except Err Node) (descend : Node → List Nibble → Except Err Node) :
    Node → List Nibble → Except Err Node
  | .empty, remaining => place remaining
  | .leaf path value nref, remaining =>
    insertAtLeaf place apply (.leaf path value nref) path remaining
  | .account path nonce balance codeHash storage storageRoot nref, remaining =>
    insertAtLeaf place apply (.account path nonce balance codeHash storage storageRoot nref) path
      remaining
  | .extension path child _, remaining =>
    let common := commonPrefix path remaining
    if common = path.length then do
      let child ← descend child (remaining.drop path.length)
      return makeExtension path child
    else
      match path.drop common, remaining.drop common with
      | oldIdx :: oldRest, newIdx :: newRest => do
        let a := if oldRest = [] then child else makeExtension oldRest child
        let b ← place newRest
        return underPath (path.take common) (makeBranch (twoChildren oldIdx a newIdx b))
      | _, _ => .error .panic
  | .branch children _, remaining =>
    match remaining with
    | [] => .error .panic
    | idx :: rest => do
      let child ← insertSlot place descend (children idx) rest
      return makeBranch (Function.update children idx (some child))
  | .overflow .., _ => .error .panic
  | .raw .., _ => .error .panic

/-- The descent of `record_node_insert`, at most this deep: a raw node is parsed first. -/
def nodeInsert (place : List Nibble → Except Err Node)
    (apply : Node → List Nibble → Except Err Node) : Nat → Node → List Nibble → Except Err Node
  | 0, _, _ => .error .panic
  | fuel + 1, node, remaining => do
    let node ← expand node
    insertStep place apply (nodeInsert place apply fuel) node remaining

def placeValue (value : Bytes) (path : List Nibble) : Except Err Node := .ok (leafNode path value)

def applyValue (value : Bytes) (old : Node) (path : List Nibble) : Except Err Node :=
  match old with
  | .leaf .. => .ok (leafNode path value)
  | _ => .error .leafOpMismatch

/-- No key is longer than 64 nibbles. -/
def depthLimit : Nat := 65

def storageInsert (storage : Node) (slot : Key) (value : Bytes) : Except Err Node :=
  nodeInsert (placeValue value) (applyValue value) depthLimit storage (keyNibbles slot)

def placeNew (op : LeafOp) (path : List Nibble) : Except Err Node :=
  match op with
  | .value v => placeValue v path
  | .account nonce balance codeHash => .ok (accountNode path nonce balance codeHash .empty)
  | .storage slot value => do
    let storage ← storageInsert .empty slot value
    return accountNode path 0 0 EMPTY_CODE_HASH storage

def applyOp (op : LeafOp) (old : Node) (path : List Nibble) : Except Err Node :=
  match old, op with
  | .leaf _ value _, .account nonce balance codeHash =>
    match Eth.Account.decode value with
    | some prior =>
      if prior.storageRoot ≠ EMPTY_ROOT then
        .ok (leafNode path (accountRlp nonce balance codeHash prior.storageRoot))
      else .ok (accountNode path nonce balance codeHash .empty)
    | none => .ok (accountNode path nonce balance codeHash .empty)
  | .account _ _ _ _ storage _ _, .account nonce balance codeHash =>
    .ok (accountNode path nonce balance codeHash storage)
  | .account _ nonce balance codeHash storage _ _, .storage slot value => do
    let storage ← storageInsert storage slot value
    return accountNode path nonce balance codeHash storage
  | .leaf _ value _, .storage slot sval =>
    match Eth.Account.decode value with
    | some prior =>
      if prior.storageRoot = EMPTY_ROOT then do
        let storage ← storageInsert .empty slot sval
        return accountNode path prior.nonce prior.balance prior.codeHash storage
      else .error .opaqueStorageWrite
    | none => .error .leafOpMismatch
  | old, .value v => applyValue v old path
  | _, _ => .error .leafOpMismatch

def recordNodeInsert (node : Node) (depth : Nat) (key : Key) (op : LeafOp) : Except Err Node :=
  nodeInsert (placeNew op) (applyOp op) depthLimit node ((keyNibbles key).drop depth)

/-! ## Deletion -/

/-- Re-root a node by prepending `edge`; a raw survivor is parsed first. -/
def prependPath (node : Node) (edge : List Nibble) : Except Err Node := do
  let node ← expand node
  if edge = [] then return node
  else
    match node with
    | .leaf path value _ => .ok (leafNode (edge ++ path) value)
    | .account path nonce balance codeHash storage _ _ =>
      .ok (accountNode (edge ++ path) nonce balance codeHash storage)
    | .extension path child _ => .ok (makeExtension (edge ++ path) child)
    | .branch children nref => .ok (makeExtension edge (.branch children nref))
    | _ => .error .panic

inductive Applied
  | absent (node : Node)
  | changed (node : Node)
  | removed

def deleteAtLeaf (apply : Node → Except Err Applied) (old : Node) (path remaining : List Nibble) :
    Except Err (Node × NodeDelete) :=
  if path = remaining then do
    match ← apply old with
    | .absent n => return (n, .absent)
    | .changed n => return (n, .changed)
    | .removed => return (.empty, .removed)
  else .ok (old, .absent)

def removeChild (children : Nibble → Option Node) : Except Err (Node × NodeDelete) :=
  match survivors children with
  | [] => .ok (.empty, .removed)
  | [j] =>
    match children j with
    | none => .error .panic
    | some survivor => do
      let n ← prependPath survivor [j]
      return (n, .changed)
  | _ => .ok (makeBranch children, .changed)

/-- The child slot that a key leads to. -/
def deleteSlot (descend : Node → List Nibble → Except Err (Node × NodeDelete)) :
    Option Node → List Nibble → Except Err (Option Node × NodeDelete)
  | none, _ => .ok (none, .absent)
  | some (.overflow ..), _ => .error .panic
  | some child, rest => do
    let (child, out) ← descend child rest
    return (some child, out)

/-- One parsed node. -/
def deleteStep (apply : Node → Except Err Applied)
    (descend : Node → List Nibble → Except Err (Node × NodeDelete)) :
    Node → List Nibble → Except Err (Node × NodeDelete)
  | .empty, _ => .ok (.empty, .absent)
  | .leaf path value nref, remaining => deleteAtLeaf apply (.leaf path value nref) path remaining
  | .account path nonce balance codeHash storage storageRoot nref, remaining =>
    deleteAtLeaf apply (.account path nonce balance codeHash storage storageRoot nref) path remaining
  | .extension path child nref, remaining =>
    if path.isPrefixOf remaining then do
      let (child, out) ← descend child (remaining.drop path.length)
      match out with
      | .absent => return (.extension path child nref, .absent)
      | .removed => return (.empty, .removed)
      | .changed => do
        let n ← prependPath child path
        return (n, .changed)
    else .ok (.extension path child nref, .absent)
  | .branch children nref, remaining =>
    match remaining with
    | [] => .error .panic
    | idx :: rest => do
      let (child, out) ← deleteSlot descend (children idx) rest
      match out with
      | .absent => return (.branch (Function.update children idx child) nref, .absent)
      | .changed => return (makeBranch (Function.update children idx child), .changed)
      | .removed => removeChild (Function.update children idx none)
  | .overflow .., _ => .error .panic
  | .raw .., _ => .error .panic

/-- The descent of `record_node_delete`, at most this deep: a raw node is parsed first. -/
def nodeDelete (apply : Node → Except Err Applied) :
    Nat → Node → List Nibble → Except Err (Node × NodeDelete)
  | 0, _, _ => .error .panic
  | fuel + 1, node, remaining => do
    let node ← expand node
    deleteStep apply (nodeDelete apply fuel) node remaining

def applyValueDelete (old : Node) : Except Err Applied :=
  match old with
  | .leaf .. => .ok .removed
  | _ => .error .deleteOpMismatch

def storageDelete (storage : Node) (slot : Key) : Except Err (Node × NodeDelete) :=
  nodeDelete applyValueDelete depthLimit storage (keyNibbles slot)

def applyDeleteOp (op : DeleteOp) (old : Node) : Except Err Applied :=
  match old, op with
  | .leaf .., .account => .ok .removed
  | .account .., .account => .ok .removed
  | .account path nonce balance codeHash storage _ _, .storage slot => do
    let (storage, out) ← storageDelete storage slot
    match out with
    | .absent => return .absent (accountNode path nonce balance codeHash storage)
    | .removed => return .changed (accountNode path nonce balance codeHash .empty)
    | .changed => return .changed (accountNode path nonce balance codeHash storage)
  | .account path nonce balance codeHash storage _ _, .wipeStorage =>
    match storage with
    | .empty => .ok (.absent (accountNode path nonce balance codeHash .empty))
    | _ => .ok (.changed (accountNode path nonce balance codeHash .empty))
  | .leaf path value nref, .storage _ =>
    match Eth.Account.decode value with
    | some prior =>
      if prior.storageRoot = EMPTY_ROOT then .ok (.absent (.leaf path value nref))
      else .error .opaqueStorageDelete
    | none => .error .deleteOpMismatch
  | .leaf path value _, .wipeStorage =>
    match Eth.Account.decode value with
    | some prior =>
      if prior.storageRoot = EMPTY_ROOT then .ok (.absent (leafNode path value))
      else .ok (.changed (accountNode path prior.nonce prior.balance prior.codeHash .empty))
    | none => .error .deleteOpMismatch
  | old, .value => applyValueDelete old
  | _, _ => .error .deleteOpMismatch

def recordNodeDelete (node : Node) (depth : Nat) (key : Key) (op : DeleteOp) :
    Except Err (Node × NodeDelete) :=
  nodeDelete (applyDeleteOp op) depthLimit node ((keyNibbles key).drop depth)

/-! ## What a lazy node stands for -/

mutual

/-- `l` is the parsed node `n`, raw nodes being what was written for a child. -/
inductive StandsFor : Node → FlatMpt.Node → Prop
  | empty : StandsFor .empty .empty
  | leaf (path : List Nibble) (value : Bytes) (nref : NodeRef) :
      StandsFor (.leaf path value nref) (.leaf path value nref)
  | extension (path : List Nibble) {l : Node} {n : FlatMpt.Node} (nref : NodeRef)
      (h : StandsFor l n) : StandsFor (.extension path l nref) (.extension path n nref)
  | branch {ls : Nibble → Option Node} {ns : Nibble → Option FlatMpt.Node} (nref : NodeRef)
      (h : ∀ i, SlotStandsFor (ls i) (ns i)) : StandsFor (.branch ls nref) (.branch ns nref)
  | account (path : List Nibble) (nonce : UInt64) (balance : U256) (codeHash : Hash) {l : Node}
      {n : FlatMpt.Node} (storageRoot : Hash) (nref : NodeRef) (h : StandsFor l n) :
      StandsFor (.account path nonce balance codeHash l storageRoot nref)
        (.account path nonce balance codeHash n storageRoot nref)
  | raw {buf : Bytes} {off len : Nat} {nref : NodeRef} {n : FlatMpt.Node}
      (h : Lazily (.raw buf off len nref) (ofNode n)) (hn : Fits (ofNode n)) :
      StandsFor (.raw buf off len nref) n

inductive SlotStandsFor : Option Node → Option FlatMpt.Node → Prop
  | none : SlotStandsFor none none
  | some {l : Node} {n : FlatMpt.Node} (h : StandsFor l n) : SlotStandsFor (some l) (some n)

end

theorem StandsFor.hash {l : Node} {n : FlatMpt.Node} (h : StandsFor l n) :
    hashNode l = FlatMpt.hashNode n := by
  cases h with
  | raw h hn => rw [h.hash_eq, hashNode_ofNode]
  | _ => rfl

theorem SlotStandsFor.hash {l : Option Node} {n : Option FlatMpt.Node} (h : SlotStandsFor l n) :
    l.map hashNode = n.map FlatMpt.hashNode := by
  cases h with
  | none => rfl
  | some h => exact congrArg Option.some h.hash

theorem SlotStandsFor.isSome {l : Option Node} {n : Option FlatMpt.Node} (h : SlotStandsFor l n) :
    l.isSome = n.isSome := by
  cases h <;> rfl

/-- A lazily read node. -/
theorem StandsFor.of_lazily {l : Node} {n : FlatMpt.Node} (h : Lazily l (ofNode n))
    (hn : Fits (ofNode n)) : StandsFor l n := by
  induction n using FlatMpt.Node.induct generalizing l with
  | hempty =>
    cases h with
    | empty => exact .empty
    | raw hne hbuf hw => exact .raw (.raw hne hbuf hw) hn
  | hleaf path value nref =>
    cases h with
    | leaf => exact .leaf path value nref
    | raw hne hbuf hw => exact .raw (.raw hne hbuf hw) hn
  | hext path child nref ih =>
    cases h with
    | extension _ _ hc => exact .extension path nref (ih hc hn.2.2)
    | raw hne hbuf hw => exact .raw (.raw hne hbuf hw) hn
  | hbranch children nref ih =>
    cases h with
    | @branch ls _ _ hs =>
      refine .branch nref fun i => ?_
      have hi : SlotLazily (ls i) (ofSlot (children i)) := hs i
      have hfit : SlotFits (ofSlot (children i)) := hn.2 i
      cases hc : children i with
      | none =>
        rw [hc] at hi
        rw [hi.eq_none]
        exact .none
      | some c =>
        rw [hc] at hi hfit
        obtain ⟨lc, hlc, hlaz⟩ := hi.eq_some
        rw [hlc]
        exact .some (ih i c hc hlaz hfit.1)
    | raw hne hbuf hw => exact .raw (.raw hne hbuf hw) hn
  | hacct path nonce balance codeHash storage storageRoot nref ih =>
    cases h with
    | account _ _ _ _ _ _ hs => exact .account path nonce balance codeHash storageRoot nref (ih hs hn.2.1)
    | raw hne hbuf hw => exact .raw (.raw hne hbuf hw) hn

/-- Empty nodes are not left serialized. -/
theorem Lazily.ne_empty {buf : Bytes} {off len : Nat} {nref : NodeRef} {n : Node}
    (h : Lazily (.raw buf off len nref) n) : n ≠ .empty := by
  cases h with
  | raw hne _ _ => exact hne

/-- Expanded one level, a node stands for the same. -/
theorem StandsFor.expand {l : Node} {n : FlatMpt.Node} (h : StandsFor l n) :
    ∃ l', expand l = .ok l' ∧ StandsFor l' n ∧ ∀ b o k r, l' ≠ .raw b o k r := by
  cases h with
  | raw h hn =>
    obtain ⟨l, hp, hl, hraw⟩ := parse_raw h hn
    exact ⟨l, hp, .of_lazily hl hn, hraw⟩
  | empty => exact ⟨_, rfl, .empty, nofun⟩
  | leaf => exact ⟨_, rfl, .leaf .., nofun⟩
  | extension _ _ h => exact ⟨_, rfl, .extension _ _ h, nofun⟩
  | branch _ h => exact ⟨_, rfl, .branch _ h, nofun⟩
  | account _ _ _ _ _ _ h => exact ⟨_, rfl, .account _ _ _ _ _ _ h, nofun⟩

/-- A lazy node expands to the node it stands for. -/
theorem StandsFor.expands {l : Node} {n : FlatMpt.Node} (h : StandsFor l n) :
    Expands l (ofNode n) := by
  induction n using FlatMpt.Node.induct generalizing l with
  | hempty =>
    cases h with
    | empty => exact .refl _
    | raw h hn => exact h.expands hn
  | hleaf path value nref =>
    cases h with
    | leaf => exact .refl _
    | raw h hn => exact h.expands hn
  | hext path child nref ih =>
    cases h with
    | extension _ _ hc => exact .extension (ih hc)
    | raw h hn => exact h.expands hn
  | hbranch children nref ih =>
    cases h with
    | @branch ls _ _ hs =>
      refine .branch fun i => ?_
      have hi := hs i
      generalize ls i = o at hi
      cases hc : children i with
      | none =>
        rw [hc] at hi
        cases hi
        exact .none
      | some c =>
        rw [hc] at hi
        cases hi with
        | some hl => exact .some (ih i c hc hl)
    | raw h hn => exact h.expands hn
  | hacct path nonce balance codeHash storage storageRoot nref ih =>
    cases h with
    | account _ _ _ _ _ _ hs => exact .account (ih hs)
    | raw h hn => exact h.expands hn

/-! ## Agreement -/

/-- The same error, or related results. -/
inductive Agrees {α β : Type} (R : α → β → Prop) : Except Err α → Except Err β → Prop
  | ok {a : α} {b : β} (h : R a b) : Agrees R (.ok a) (.ok b)
  | error (e : Err) : Agrees R (.error e) (.error e)

omit [Keccak] in
theorem Agrees.bind {α β γ δ : Type} {R : α → β → Prop} {S : γ → δ → Prop} {x : Except Err α}
    {y : Except Err β} {f : α → Except Err γ} {g : β → Except Err δ} (h : Agrees R x y)
    (hf : ∀ a b, R a b → Agrees S (f a) (g b)) : Agrees S (x.bind f) (y.bind g) := by
  cases h with
  | ok h => exact hf _ _ h
  | error e => exact .error e

theorem standsFor_leafNode (path : List Nibble) (value : Bytes) :
    StandsFor (leafNode path value) (FlatMpt.leafNode path value) := .leaf _ _ _

theorem StandsFor.accountNode {l : Node} {n : FlatMpt.Node} (h : StandsFor l n) (path : List Nibble)
    (nonce : UInt64) (balance : U256) (codeHash : Hash) :
    StandsFor (accountNode path nonce balance codeHash l)
      (FlatMpt.accountNode path nonce balance codeHash n) := by
  unfold Lazy.accountNode FlatMpt.accountNode
  rw [h.hash]
  exact .account _ _ _ _ _ _ h

theorem StandsFor.makeExtension {l : Node} {n : FlatMpt.Node} (h : StandsFor l n)
    (path : List Nibble) : StandsFor (makeExtension path l) (FlatMpt.makeExtension path n) := by
  unfold Lazy.makeExtension FlatMpt.makeExtension
  rw [h.hash]
  exact .extension _ _ h

theorem StandsFor.makeBranch {ls : Nibble → Option Node} {ns : Nibble → Option FlatMpt.Node}
    (h : ∀ i, SlotStandsFor (ls i) (ns i)) : StandsFor (makeBranch ls) (FlatMpt.makeBranch ns) := by
  have hhash : (fun i => (ls i).map hashNode) = fun i => (ns i).map FlatMpt.hashNode :=
    funext fun i => (h i).hash
  unfold Lazy.makeBranch FlatMpt.makeBranch
  rw [hhash]
  exact .branch _ h

theorem slots_update {ls : Nibble → Option Node} {ns : Nibble → Option FlatMpt.Node}
    (h : ∀ i, SlotStandsFor (ls i) (ns i)) (i : Nibble) {l : Option Node} {n : Option FlatMpt.Node}
    (hl : SlotStandsFor l n) :
    ∀ j, SlotStandsFor (Function.update ls i l j) (Function.update ns i n j) := by
  intro j
  by_cases hj : j = i
  · subst hj
    rw [Function.update_self, Function.update_self]
    exact hl
  · rw [Function.update_of_ne hj, Function.update_of_ne hj]
    exact h j

theorem slots_two {a b : Node} {c d : FlatMpt.Node} (i j : Nibble) (ha : StandsFor a c)
    (hb : StandsFor b d) :
    ∀ k, SlotStandsFor (twoChildren i a j b k) (FlatMpt.twoChildren i c j d k) :=
  slots_update (slots_update (fun _ => .none) i (.some ha)) j (.some hb)

theorem StandsFor.underPath {l : Node} {n : FlatMpt.Node} (h : StandsFor l n) (path : List Nibble) :
    StandsFor (underPath path l) (FlatMpt.underPath path n) := by
  unfold Lazy.underPath FlatMpt.underPath
  split
  · exact h
  · exact h.makeExtension path

/-- A parsed leaf or account. -/
def AtLeaf (l : Node) (n : FlatMpt.Node) : Prop :=
  (∃ p v nref, l = .leaf p v nref ∧ n = .leaf p v nref) ∨
    ∃ p nonce balance codeHash ls ns sr nref, l = .account p nonce balance codeHash ls sr nref ∧
      n = .account p nonce balance codeHash ns sr nref ∧ StandsFor ls ns

theorem AtLeaf.standsFor {l : Node} {n : FlatMpt.Node} (h : AtLeaf l n) : StandsFor l n := by
  rcases h with ⟨p, v, nref, rfl, rfl⟩ | ⟨p, nonce, balance, codeHash, ls, ns, sr, nref, rfl, rfl, h⟩
  · exact .leaf _ _ _
  · exact .account _ _ _ _ _ _ h

theorem AtLeaf.rehome {l : Node} {n : FlatMpt.Node} (h : AtLeaf l n) (path : List Nibble) :
    Agrees StandsFor (rehome l path) (FlatMpt.rehome n path) := by
  rcases h with ⟨p, v, nref, rfl, rfl⟩ | ⟨p, nonce, balance, codeHash, ls, ns, sr, nref, rfl, rfl, h⟩
  · exact .ok (standsFor_leafNode path v)
  · exact .ok (h.accountNode ..)

/-! ## Insertions agree -/

section
variable {place : List Nibble → Except Err Node} {apply : Node → List Nibble → Except Err Node}
  {place' : List Nibble → Except Err FlatMpt.Node}
  {apply' : FlatMpt.Node → List Nibble → Except Err FlatMpt.Node}

theorem insertAtLeaf_agrees (hplace : ∀ p, Agrees StandsFor (place p) (place' p))
    {l : Node} {n : FlatMpt.Node} (h : AtLeaf l n) (path remaining : List Nibble)
    (happly : Agrees StandsFor (apply l path) (apply' n path)) :
    Agrees StandsFor (insertAtLeaf place apply l path remaining)
      (FlatMpt.insertAtLeaf place' apply' n path remaining) := by
  unfold insertAtLeaf FlatMpt.insertAtLeaf
  dsimp only
  split
  · exact happly
  · generalize path.drop (commonPrefix path remaining) = olds
    generalize remaining.drop (commonPrefix path remaining) = news
    cases olds with
    | nil => exact .error _
    | cons oldIdx oldRest =>
      cases news with
      | nil => exact .error _
      | cons newIdx newRest =>
        exact (h.rehome _).bind fun a c ha => (hplace _).bind fun b d hb =>
          .ok ((StandsFor.makeBranch (slots_two _ _ ha hb)).underPath _)

/-- A walk starts by parsing the node. -/
theorem nodeInsert_expand {l l' : Node} (h : expand l = .ok l') (fuel : Nat) (k : List Nibble) :
    nodeInsert place apply (fuel + 1) l k =
      insertStep place apply (nodeInsert place apply fuel) l' k := by
  rw [nodeInsert, h]
  rfl

/-- Insertion into a lazy node. -/
theorem nodeInsert_agrees {α : Type} {L : LeafForm α} (hplace : ∀ p, Agrees StandsFor (place p) (place' p))
    (happly : ∀ l p a, AtLeaf l (L.node p a) → Agrees StandsFor (apply l p) (apply' (L.node p a) p))
    {m : Nat} {t : Tree 16 α} (ht : Canon m t) {l : Node} (hl : StandsFor l (toNode L t)) {k : List Nibble}
    (hk : k.length = m) {fuel : Nat} (hf : m < fuel) :
    Agrees StandsFor (nodeInsert place apply fuel l k) (FlatMpt.nodeInsert place' apply' (toNode L t) k) := by
  obtain ⟨fuel, rfl⟩ : ∃ f, fuel = f + 1 := ⟨fuel - 1, by omega⟩
  obtain ⟨l', hl', hs, hraw⟩ := hl.expand
  rw [nodeInsert_expand hl']
  clear hl hl'
  induction ht generalizing l' k fuel with
  | empty =>
    cases hs with
    | empty => exact hplace k
    | raw => exact absurd rfl (hraw _ _ _ _)
  | @leaf m p a hp =>
    rw [toNode] at hs ⊢
    have hap := happly l' p a
    rcases L.leaf_or_account p a with ⟨v, nref, he⟩ | ⟨n, b, c, s, sr, nref, he⟩
    · rw [he] at hs hap ⊢
      cases hs with
      | leaf =>
        have hat : AtLeaf (.leaf p v nref) (.leaf p v nref) := .inl ⟨_, _, _, rfl, rfl⟩
        exact insertAtLeaf_agrees hplace hat p k (hap hat)
      | raw => exact absurd rfl (hraw _ _ _ _)
    · rw [he] at hs hap ⊢
      cases hs with
      | @account _ _ _ _ ls _ _ _ h =>
        have hat : AtLeaf (.account p n b c ls sr nref) (.account p n b c s sr nref) :=
          .inr ⟨_, _, _, _, _, _, _, _, rfl, rfl, h⟩
        exact insertAtLeaf_agrees hplace hat p k (hap hat)
      | raw => exact absurd rfl (hraw _ _ _ _)
  | @ext n m path child hp hn hb hc ih =>
    have hpos : 0 < path.length := List.length_pos_iff.mpr hp
    cases hs with
    | raw => exact absurd rfl (hraw _ _ _ _)
    | @extension _ lc _ _ hchild =>
      rw [toNode, FlatMpt.makeExtension, FlatMpt.nodeInsert, insertStep]
      dsimp only
      split
      · obtain ⟨fuel, rfl⟩ : ∃ f, fuel = f + 1 := ⟨fuel - 1, by omega⟩
        obtain ⟨lc', hlc, hs, hraw⟩ := hchild.expand
        rw [nodeInsert_expand hlc]
        refine (ih ?_ fuel (by omega) lc' hs hraw).bind fun a b h => .ok (h.makeExtension path)
        rw [List.length_drop]
        omega
      · generalize path.drop (commonPrefix path k) = olds
        generalize k.drop (commonPrefix path k) = news
        cases olds with
        | nil => exact .error _
        | cons oldIdx oldRest =>
          cases news with
          | nil => exact .error _
          | cons newIdx newRest =>
            refine (hplace _).bind fun b d hb =>
              .ok ((StandsFor.makeBranch (slots_two _ _ ?_ hb)).underPath _)
            split
            · exact hchild
            · exact hchild.makeExtension _
  | @branch n m children hn hc h2 ih =>
    cases hs with
    | raw => exact absurd rfl (hraw _ _ _ _)
    | @branch ls _ _ hslots =>
      cases k with
      | nil => exact .error _
      | cons idx rest =>
        rw [List.length_cons] at hk
        refine Agrees.bind (R := StandsFor) (x := insertSlot place _ (ls idx) rest)
          (y := FlatMpt.nodeInsertSlot place' apply' (asChild (toNode L (children idx))) rest) ?_
          fun a b h => .ok (StandsFor.makeBranch (slots_update hslots idx (.some h)))
        have hidx : SlotStandsFor (ls idx) (asChild (toNode L (children idx))) := hslots idx
        generalize ls idx = o at hidx ⊢
        by_cases he : children idx = .empty
        · rw [he] at hidx ⊢
          cases hidx
          exact hplace rest
        · rw [asChild_toNode L he] at hidx ⊢
          cases hidx with
          | @some lc _ h =>
            obtain ⟨fuel, rfl⟩ : ∃ f, fuel = f + 1 := ⟨fuel - 1, by omega⟩
            obtain ⟨lc', hlc, hs, hraw⟩ := h.expand
            have hi := ih idx (k := rest) (by omega) fuel (by omega) lc' hs hraw
            rw [← nodeInsert_expand hlc] at hi
            show Agrees StandsFor _ (FlatMpt.nodeInsert place' apply' (toNode L (children idx)) rest)
            generalize toNode L (children idx) = n at h hi ⊢
            cases h <;> exact hi

end

theorem storageInsert_agrees {l : Node} (s : Storage) (hl : StandsFor l s.toNode) (slot : Key)
    (value : Bytes) :
    Agrees StandsFor (storageInsert l slot value) (FlatMpt.storageInsert s.toNode slot value) := by
  refine nodeInsert_agrees (L := valueLeaf) (fun p => .ok (standsFor_leafNode p value)) ?_ s.canon hl
    (keyNibbles_length slot) (by decide)
  rintro l p a (⟨p', v, nref, rfl, hn⟩ | ⟨p', n, b, c, ls, ns, sr, nref, -, hn, -⟩)
  · exact .ok (standsFor_leafNode p value)
  · cases hn

theorem placeNew_agrees (op : LeafOp) (p : List Nibble) :
    Agrees StandsFor (placeNew op p) (FlatMpt.placeNew op p) := by
  cases op with
  | value v => exact .ok (standsFor_leafNode p v)
  | account n b c => exact .ok (StandsFor.empty.accountNode p n b c)
  | storage slot v =>
    exact (storageInsert_agrees .empty .empty slot v).bind fun a b h => .ok (h.accountNode ..)

theorem applyOp_agrees (op : LeafOp) (l : Node) (p : List Nibble) (a : StateLeaf)
    (h : AtLeaf l (stateLeaf.node p a)) :
    Agrees StandsFor (applyOp op l p) (FlatMpt.applyOp op (stateLeaf.node p a) p) := by
  cases a with
  | raw v =>
    rcases h with ⟨p', v', nref, rfl, hn⟩ | ⟨p', n, b, c, ls, ns, sr, nref, rfl, hn, hs⟩
    · cases hn
      cases op with
      | value w => exact .ok (standsFor_leafNode p w)
      | account n b c =>
        unfold applyOp FlatMpt.applyOp stateLeaf FlatMpt.leafNode
        dsimp only
        cases Eth.Account.decode v with
        | none => exact .ok (StandsFor.empty.accountNode ..)
        | some prior =>
          dsimp only
          split
          · exact .ok (standsFor_leafNode ..)
          · exact .ok (StandsFor.empty.accountNode ..)
      | storage slot w =>
        unfold applyOp FlatMpt.applyOp stateLeaf FlatMpt.leafNode
        dsimp only
        cases Eth.Account.decode v with
        | none => exact .error _
        | some prior =>
          dsimp only
          split
          · exact (storageInsert_agrees .empty .empty slot w).bind fun a b h => .ok (h.accountNode ..)
          · exact .error _
    · cases hn
  | account n b c s =>
    rcases h with ⟨p', v', nref, rfl, hn⟩ | ⟨p', n, b, c, ls, ns, sr, nref, rfl, hn, hs⟩
    · cases hn
    · cases hn
      cases op with
      | value w => exact .error _
      | account n b c => exact .ok (hs.accountNode ..)
      | storage slot w =>
        exact (storageInsert_agrees s hs slot w).bind fun a b h => .ok (h.accountNode ..)

omit [Keccak] in
theorem remaining_length (key : Key) (depth : Nat) : ((keyNibbles key).drop depth).length = 64 - depth := by
  rw [List.length_drop, keyNibbles_length]

/-- `record_node_insert` on a lazily read state record. -/
theorem recordNodeInsert_agrees (depth : Nat) {t : Tree 16 StateLeaf} (ht : Canon (64 - depth) t)
    {l : Node} (hl : StandsFor l (toNode stateLeaf t)) (key : Key) (op : LeafOp) :
    Agrees StandsFor (recordNodeInsert l depth key op)
      (FlatMpt.recordNodeInsert (toNode stateLeaf t) ((keyNibbles key).drop depth) op) := by
  have hfuel : 64 - depth < depthLimit := by
    unfold depthLimit
    omega
  exact nodeInsert_agrees (placeNew_agrees op) (applyOp_agrees op) ht hl (remaining_length key depth) hfuel

/-! ## Deletions agree -/

/-- Related nodes, the same outcome. -/
def SameDelete (x : Node × NodeDelete) (y : FlatMpt.Node × NodeDelete) : Prop :=
  StandsFor x.1 y.1 ∧ x.2 = y.2

inductive AppliedAgrees : Applied → FlatMpt.Applied → Prop
  | absent {l : Node} {n : FlatMpt.Node} (h : StandsFor l n) : AppliedAgrees (.absent l) (.absent n)
  | changed {l : Node} {n : FlatMpt.Node} (h : StandsFor l n) : AppliedAgrees (.changed l) (.changed n)
  | removed : AppliedAgrees .removed .removed

theorem prependPath_agrees {l : Node} {n : FlatMpt.Node} (h : StandsFor l n) (edge : List Nibble) :
    Agrees StandsFor (prependPath l edge) (FlatMpt.prependPath n edge) := by
  obtain ⟨l', hl', hs, hraw⟩ := h.expand
  unfold prependPath FlatMpt.prependPath
  rw [hl']
  show Agrees StandsFor (if edge = [] then _ else _) _
  split
  · exact .ok hs
  · cases hs with
    | empty => exact .error _
    | leaf path value nref => exact .ok (standsFor_leafNode ..)
    | extension path nref hc => exact .ok (hc.makeExtension _)
    | branch nref hslots => exact .ok ((StandsFor.branch nref hslots).makeExtension edge)
    | account path nonce balance codeHash sr nref hc => exact .ok (hc.accountNode ..)
    | raw => exact absurd rfl (hraw _ _ _ _)

theorem removeChild_agrees {ls : Nibble → Option Node} {ns : Nibble → Option FlatMpt.Node}
    (h : ∀ i, SlotStandsFor (ls i) (ns i)) :
    Agrees SameDelete (removeChild ls) (FlatMpt.removeChild ns) := by
  have hsurv : survivors ls = survivors ns := by
    unfold survivors
    exact List.filter_congr fun i _ => (h i).isSome
  unfold removeChild FlatMpt.removeChild
  rw [hsurv]
  cases survivors ns with
  | nil => exact .ok ⟨.empty, rfl⟩
  | cons j tail =>
    cases tail with
    | nil =>
      have hj := h j
      dsimp only
      generalize ls j = o at hj ⊢
      generalize ns j = o' at hj ⊢
      cases hj with
      | none => exact .error _
      | some hs => exact (prependPath_agrees hs [j]).bind fun a b hab => .ok ⟨hab, rfl⟩
    | cons j' tail => exact .ok ⟨StandsFor.makeBranch h, rfl⟩

section
variable {apply : Node → Except Err Applied} {apply' : FlatMpt.Node → Except Err FlatMpt.Applied}

theorem deleteAtLeaf_agrees {l : Node} {n : FlatMpt.Node} (h : AtLeaf l n) (path remaining : List Nibble)
    (happly : Agrees AppliedAgrees (apply l) (apply' n)) :
    Agrees SameDelete (deleteAtLeaf apply l path remaining)
      (FlatMpt.deleteAtLeaf apply' n path remaining) := by
  unfold deleteAtLeaf FlatMpt.deleteAtLeaf
  split
  · refine happly.bind fun a b hab => ?_
    cases hab with
    | absent h => exact .ok ⟨h, rfl⟩
    | changed h => exact .ok ⟨h, rfl⟩
    | removed => exact .ok ⟨.empty, rfl⟩
  · exact .ok ⟨h.standsFor, rfl⟩

/-- A walk starts by parsing the node. -/
theorem nodeDelete_expand {l l' : Node} (h : expand l = .ok l') (fuel : Nat) (k : List Nibble) :
    nodeDelete apply (fuel + 1) l k = deleteStep apply (nodeDelete apply fuel) l' k := by
  rw [nodeDelete, h]
  rfl

/-- Deletion in a lazy node. -/
theorem nodeDelete_agrees {α : Type} {L : LeafForm α}
    (happly : ∀ l p a, AtLeaf l (L.node p a) → Agrees AppliedAgrees (apply l) (apply' (L.node p a)))
    {m : Nat} {t : Tree 16 α} (ht : Canon m t) {l : Node} (hl : StandsFor l (toNode L t))
    {k : List Nibble} (hk : k.length = m) {fuel : Nat} (hf : m < fuel) :
    Agrees SameDelete (nodeDelete apply fuel l k) (FlatMpt.nodeDelete apply' (toNode L t) k) := by
  obtain ⟨fuel, rfl⟩ : ∃ f, fuel = f + 1 := ⟨fuel - 1, by omega⟩
  obtain ⟨l', hl', hs, hraw⟩ := hl.expand
  rw [nodeDelete_expand hl']
  clear hl hl'
  induction ht generalizing l' k fuel with
  | empty =>
    cases hs with
    | empty => exact .ok ⟨.empty, rfl⟩
    | raw => exact absurd rfl (hraw _ _ _ _)
  | @leaf m p a hp =>
    rw [toNode] at hs ⊢
    have hap := happly l' p a
    rcases L.leaf_or_account p a with ⟨v, nref, he⟩ | ⟨n, b, c, s, sr, nref, he⟩
    · rw [he] at hs hap ⊢
      cases hs with
      | leaf =>
        have hat : AtLeaf (.leaf p v nref) (.leaf p v nref) := .inl ⟨_, _, _, rfl, rfl⟩
        exact deleteAtLeaf_agrees hat p k (hap hat)
      | raw => exact absurd rfl (hraw _ _ _ _)
    · rw [he] at hs hap ⊢
      cases hs with
      | @account _ _ _ _ ls _ _ _ h =>
        have hat : AtLeaf (.account p n b c ls sr nref) (.account p n b c s sr nref) :=
          .inr ⟨_, _, _, _, _, _, _, _, rfl, rfl, h⟩
        exact deleteAtLeaf_agrees hat p k (hap hat)
      | raw => exact absurd rfl (hraw _ _ _ _)
  | @ext n m path child hp hn hb hc ih =>
    have hpos : 0 < path.length := List.length_pos_iff.mpr hp
    cases hs with
    | raw => exact absurd rfl (hraw _ _ _ _)
    | @extension _ lc _ nref hchild =>
      rw [toNode, FlatMpt.makeExtension, FlatMpt.nodeDelete, deleteStep]
      split
      · obtain ⟨fuel, rfl⟩ : ∃ f, fuel = f + 1 := ⟨fuel - 1, by omega⟩
        obtain ⟨lc', hlc, hs, hraw⟩ := hchild.expand
        rw [nodeDelete_expand hlc]
        refine (ih ?_ fuel (by omega) lc' hs hraw).bind ?_
        · rw [List.length_drop]
          omega
        · rintro ⟨a, out⟩ ⟨b, -⟩ ⟨hab, rfl⟩
          cases out with
          | absent => exact .ok ⟨.extension _ _ hab, rfl⟩
          | removed => exact .ok ⟨.empty, rfl⟩
          | changed => exact (prependPath_agrees hab path).bind fun c d hcd => .ok ⟨hcd, rfl⟩
      · exact .ok ⟨.extension _ _ hchild, rfl⟩
  | @branch n m children hn hc h2 ih =>
    cases hs with
    | raw => exact absurd rfl (hraw _ _ _ _)
    | @branch ls _ nref hslots =>
      cases k with
      | nil => exact .error _
      | cons idx rest =>
        rw [List.length_cons] at hk
        refine Agrees.bind (R := fun x y => SlotStandsFor x.1 y.1 ∧ x.2 = y.2)
          (x := deleteSlot _ (ls idx) rest)
          (y := FlatMpt.nodeDeleteSlot apply' (asChild (toNode L (children idx))) rest) ?_ ?_
        · have hidx : SlotStandsFor (ls idx) (asChild (toNode L (children idx))) := hslots idx
          generalize ls idx = o at hidx ⊢
          by_cases he : children idx = .empty
          · rw [he] at hidx ⊢
            cases hidx
            exact .ok ⟨.none, rfl⟩
          · rw [asChild_toNode L he] at hidx ⊢
            cases hidx with
            | @some lc _ h =>
              obtain ⟨fuel, rfl⟩ : ∃ f, fuel = f + 1 := ⟨fuel - 1, by omega⟩
              obtain ⟨lc', hlc, hs, hraw⟩ := h.expand
              have hi := ih idx (k := rest) (by omega) fuel (by omega) lc' hs hraw
              rw [← nodeDelete_expand hlc] at hi
              have hslot : Agrees (fun x y => SlotStandsFor x.1 y.1 ∧ x.2 = y.2)
                  ((nodeDelete apply (fuel + 1) lc rest).bind fun r => .ok (some r.1, r.2))
                  ((FlatMpt.nodeDelete apply' (toNode L (children idx)) rest).bind fun r =>
                    .ok (some r.1, r.2)) := by
                refine hi.bind ?_
                rintro ⟨a, out⟩ ⟨b, -⟩ ⟨hab, rfl⟩
                exact .ok ⟨.some hab, rfl⟩
              show Agrees _ _ (FlatMpt.nodeDeleteSlot apply' (some (toNode L (children idx))) rest)
              generalize toNode L (children idx) = n at h hslot ⊢
              cases h <;> exact hslot
        · rintro ⟨a, out⟩ ⟨b, -⟩ ⟨hab, rfl⟩
          cases out with
          | absent => exact .ok ⟨.branch _ (slots_update hslots idx hab), rfl⟩
          | changed => exact .ok ⟨StandsFor.makeBranch (slots_update hslots idx hab), rfl⟩
          | removed => exact removeChild_agrees (slots_update hslots idx .none)

end

theorem storageDelete_agrees {l : Node} (s : Storage) (hl : StandsFor l s.toNode) (slot : Key) :
    Agrees SameDelete (storageDelete l slot) (FlatMpt.storageDelete s.toNode slot) := by
  refine nodeDelete_agrees (L := valueLeaf) ?_ s.canon hl (keyNibbles_length slot) (by decide)
  rintro l p a (⟨p', v, nref, rfl, hn⟩ | ⟨p', n, b, c, ls, ns, sr, nref, -, hn, -⟩)
  · exact .ok .removed
  · cases hn

theorem applyDeleteOp_agrees (op : DeleteOp) (l : Node) (p : List Nibble) (a : StateLeaf)
    (h : AtLeaf l (stateLeaf.node p a)) :
    Agrees AppliedAgrees (applyDeleteOp op l) (FlatMpt.applyDeleteOp op (stateLeaf.node p a)) := by
  cases a with
  | raw v =>
    rcases h with ⟨p', v', nref, rfl, hn⟩ | ⟨p', n, b, c, ls, ns, sr, nref, rfl, hn, hs⟩
    · cases hn
      unfold applyDeleteOp FlatMpt.applyDeleteOp stateLeaf FlatMpt.leafNode
      cases op with
      | value => exact .ok .removed
      | account => exact .ok .removed
      | storage slot =>
        dsimp only
        cases Eth.Account.decode v with
        | none => exact .error _
        | some prior =>
          dsimp only
          split
          · exact .ok (.absent (.leaf ..))
          · exact .error _
      | wipeStorage =>
        dsimp only
        cases Eth.Account.decode v with
        | none => exact .error _
        | some prior =>
          dsimp only
          split
          · exact .ok (.absent (standsFor_leafNode ..))
          · exact .ok (.changed (StandsFor.empty.accountNode ..))
    · cases hn
  | account n b c s =>
    rcases h with ⟨p', v', nref, rfl, hn⟩ | ⟨p', n, b, c, ls, ns, sr, nref, rfl, hn, hs⟩
    · cases hn
    · cases hn
      cases op with
      | value => exact .error _
      | account => exact .ok .removed
      | storage slot =>
        refine (storageDelete_agrees s hs slot).bind ?_
        rintro ⟨a, out⟩ ⟨b, -⟩ ⟨hab, rfl⟩
        cases out with
        | absent => exact .ok (.absent (hab.accountNode ..))
        | removed => exact .ok (.changed (StandsFor.empty.accountNode ..))
        | changed => exact .ok (.changed (hab.accountNode ..))
      | wipeStorage =>
        unfold applyDeleteOp FlatMpt.applyDeleteOp stateLeaf FlatMpt.accountNode
        dsimp only
        generalize s.toNode = ns at hs
        cases hs with
        | empty => exact .ok (.absent (StandsFor.empty.accountNode ..))
        | leaf => exact .ok (.changed (StandsFor.empty.accountNode ..))
        | extension => exact .ok (.changed (StandsFor.empty.accountNode ..))
        | branch => exact .ok (.changed (StandsFor.empty.accountNode ..))
        | account => exact .ok (.changed (StandsFor.empty.accountNode ..))
        | raw h hn =>
          cases ns with
          | empty => exact absurd rfl h.ne_empty
          | leaf => exact .ok (.changed (StandsFor.empty.accountNode ..))
          | extension => exact .ok (.changed (StandsFor.empty.accountNode ..))
          | branch => exact .ok (.changed (StandsFor.empty.accountNode ..))
          | account => exact .ok (.changed (StandsFor.empty.accountNode ..))

/-- `record_node_delete` on a lazily read state record. -/
theorem recordNodeDelete_agrees (depth : Nat) {t : Tree 16 StateLeaf} (ht : Canon (64 - depth) t)
    {l : Node} (hl : StandsFor l (toNode stateLeaf t)) (key : Key) (op : DeleteOp) :
    Agrees SameDelete (recordNodeDelete l depth key op)
      (FlatMpt.recordNodeDelete (toNode stateLeaf t) ((keyNibbles key).drop depth) op) := by
  have hfuel : 64 - depth < depthLimit := by
    unfold depthLimit
    omega
  exact nodeDelete_agrees (applyDeleteOp_agrees op) ht hl (remaining_length key depth) hfuel

end

end FlatMpt.Lazy
