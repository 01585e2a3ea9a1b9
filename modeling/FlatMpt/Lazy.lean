import FlatMpt.CodecRound

/-!
# Lazy records

Record nodes as the lazy reader sees them.  It parses a record down to its top
branch; the children it does not descend into stay `raw`, slices of the shared
buffer with their reference read off the header.  Overflow nodes, which the engine
no longer writes, are part of the format too.  A lazy reader carries its position in
the buffer and the bytes from there on.

    writeNode, readNode        -- the format, with every node kind
    readLazyNode, extractRef   -- the lazy reader and the header scan
    parseNodeLazy              -- one raw child, expanded one level
    Expands l l'               -- any partial expansion
-/

namespace FlatMpt.Lazy

open FlatMpt

/-- A record node, possibly not parsed. -/
inductive Node where
  | empty
  | leaf (path : List Nibble) (value : Bytes) (nref : NodeRef)
  | extension (path : List Nibble) (child : Node) (nref : NodeRef)
  | branch (children : Nibble → Option Node) (nref : NodeRef)
  /-- A child in a record of its own. -/
  | overflow (unit len : UInt32) (root : Hash)
  | account (path : List Nibble) (nonce : UInt64) (balance : U256) (codeHash : Hash)
      (storage : Node) (storageRoot : Hash) (nref : NodeRef)
  /-- A serialized child: a slice of the record buffer. -/
  | raw (buf : Bytes) (off len : Nat) (nref : NodeRef)

theorem Node.induct {P : Node → Prop} (hempty : P .empty)
    (hleaf : ∀ path value nref, P (.leaf path value nref))
    (hext : ∀ path child nref, P child → P (.extension path child nref))
    (hbranch : ∀ children nref, (∀ i c, children i = some c → P c) → P (.branch children nref))
    (hover : ∀ unit len root, P (.overflow unit len root))
    (hacct : ∀ path nonce balance codeHash storage storageRoot nref, P storage →
      P (.account path nonce balance codeHash storage storageRoot nref))
    (hraw : ∀ buf off len nref, P (.raw buf off len nref)) (n : Node) : P n :=
  Node.rec (motive_1 := P) (motive_2 := fun o => ∀ c, o = some c → P c) hempty hleaf hext
    (fun children nref ih => hbranch children nref fun i c hc => ih i c hc) hover hacct hraw
    (fun _ hc => by cases hc) (fun _ ih _ hc => by cases hc; exact ih) n

structure DiskSubtree where
  pfx : List Nibble
  node : Node

/-! ## Sizes -/

mutual

def nodeSize : Node → Nat
  | .empty => 1
  | .leaf path value nref => 1 + pathSize path.length + 4 + value.length + refSize nref
  | .extension path child nref => 1 + pathSize path.length + refSize nref + nodeSize child
  | .branch children nref =>
    1 + 2 + refSize nref + (((List.finRange 16).map fun i => slotSize (children i)).sum)
  | .overflow .. => 1 + 4 + 4 + 32
  | .account path _ _ _ storage _ _ => 1 + pathSize path.length + 8 + 32 + 32 + nodeSize storage
  | .raw _ _ len _ => len

/-- A child with its entry of the length table. -/
def slotSize : Option Node → Nat
  | none => 0
  | some child => 4 + nodeSize child

end

def recordSize (prefixLen : Nat) (node : Node) : Nat := pathSize prefixLen + nodeSize node

/-! ## Writer -/

mutual

def writeNode : Node → Except Err Bytes
  | .empty => .ok [0]
  | .leaf path value nref => do
    let p ← writeNibblePath path
    return 1 :: (p ++ (leBytes 4 value.length ++ (value ++ writeRef nref)))
  | .extension path child nref => do
    let p ← writeNibblePath path
    let c ← writeNode child
    return 2 :: (p ++ (writeRef nref ++ c))
  | .branch children nref => do
    let cs ← (List.finRange 16).mapM fun i => writeSlot (children i)
    let table := cs.flatMap fun c => (c.map fun bytes => leBytes 4 bytes.length).getD []
    return 3 :: (leBytes 2 (bitmap fun i => (children i).isSome) ++
      (writeRef nref ++ (table ++ cs.flatMap fun c => c.getD [])))
  | .overflow unit len root =>
    .ok (4 :: (leBytes 4 unit.toNat ++ (leBytes 4 len.toNat ++ root.bytes)))
  | .account path nonce balance codeHash storage _ _ => do
    let p ← writeNibblePath path
    let s ← writeNode storage
    return 5 :: (p ++ (leBytes 8 nonce.toNat ++ (be32 balance ++ (codeHash.bytes ++ s))))
  | .raw buf off len _ =>
    -- its own serialized bytes, verbatim
    if buf.length < off + len then .error .panic else .ok ((buf.drop off).take len)

def writeSlot : Option Node → Except Err (Option Bytes)
  | none => .ok none
  | some child => do
    let c ← writeNode child
    return some c

end

def serializeSubtree (subtree : DiskSubtree) : Except Err Bytes := do
  let p ← writeNibblePath subtree.pfx
  let n ← writeNode subtree.node
  return p ++ n

/-! ## Full reader -/

/-- The children marked in the bitmap, in slot order. -/
def readSlots (read : Reader Node) (present : Nibble → Bool) :
    List Nibble → (Nibble → Option Node) → Reader (Nibble → Option Node)
  | [], children, bs => .ok (children, bs)
  | i :: rest, children, bs =>
    if present i then do
      let (child, bs) ← read bs
      readSlots read present rest (Function.update children i (some child)) bs
    else readSlots read present rest children bs

section
variable [Keccak]

def hashNode : Node → NodeRef
  | .empty => .hash emptyHash
  | .leaf _ _ nref => nref
  | .extension _ _ nref => nref
  | .branch _ nref => nref
  | .overflow _ _ root => .hash root
  | .account _ _ _ _ _ _ nref => nref
  | .raw _ _ _ nref => nref

def accountNode (path : List Nibble) (nonce : UInt64) (balance : U256) (codeHash : Hash)
    (storage : Node) : Node :=
  let storageRoot := (hashNode storage).finalize
  .account path nonce balance codeHash storage storageRoot
    (leafRef path (accountRlp nonce balance codeHash storageRoot))

def readNode : Nat → Reader Node
  | 0, _ => .error .truncated
  | fuel + 1, bs => do
    let (tag, rest) ← readU8 bs
    match tag with
    | 0 => return (.empty, rest)
    | 1 => do
      let (path, rest) ← readNibblePath rest
      let (vlen, rest) ← readLe 4 rest
      let (value, rest) ← readBytes vlen rest
      let (nref, rest) ← readRef rest
      return (.leaf path value nref, rest)
    | 2 => do
      let (path, rest) ← readNibblePath rest
      let (nref, rest) ← readRef rest
      let (child, rest) ← readNode fuel rest
      return (.extension path child nref, rest)
    | 3 => do
      let (bits, rest) ← readLe 2 rest
      let (nref, rest) ← readRef rest
      let present : Nibble → Bool := fun i => bits.testBit i.val
      let (_, rest) ← readBytes (((List.finRange 16).filter present).length * 4) rest
      let (children, rest) ← readSlots (readNode fuel) present (List.finRange 16) (fun _ => none)
        rest
      return (.branch children nref, rest)
    | 4 => do
      let (unit, rest) ← readLe 4 rest
      let (len, rest) ← readLe 4 rest
      let (root, rest) ← readHash rest
      return (.overflow (UInt32.ofNat unit) (UInt32.ofNat len) root, rest)
    | 5 => do
      let (path, rest) ← readNibblePath rest
      let (nonce, rest) ← readLe 8 rest
      let (balance, rest) ← readBytes 32 rest
      let (codeHash, rest) ← readHash rest
      let (storage, rest) ← readNode fuel rest
      return (accountNode path (UInt64.ofNat nonce) (BitVec.ofNat 256 (leValue balance.reverse))
        codeHash storage, rest)
    | tag => .error (.invalidNodeTag tag)

def deserializeSubtree (payload : Bytes) : Except Err DiskSubtree := do
  let (pfx, rest) ← readNibblePath payload
  let (node, rest) ← readNode (rest.length + 1) rest
  if rest = [] then return ⟨pfx, node⟩ else .error .trailingBytes

/-! ## Header scan -/

/-- A node's reference from the front of its serialized bytes. -/
def extractRef (bytes : Bytes) : Except Err NodeRef := do
  let (tag, rest) ← readU8 bytes
  match tag with
  | 0 => return .hash emptyHash
  | 1 => do
    let (_, rest) ← skipNibblePath rest
    let (vlen, rest) ← readLe 4 rest
    let (_, rest) ← readBytes vlen rest
    let (nref, _) ← readRef rest
    return nref
  | 2 => do
    let (_, rest) ← skipNibblePath rest
    let (nref, _) ← readRef rest
    return nref
  | 3 => do
    let (_, rest) ← readBytes 2 rest
    let (nref, _) ← readRef rest
    return nref
  | 4 => do
    let (_, rest) ← readBytes (4 + 4) rest
    let (root, _) ← readHash rest
    return .hash root
  | tag => .error (.invalidNodeTag tag)
where
  /-- Past a nibble path, without its nibbles. -/
  skipNibblePath : Reader Unit := fun bs => do
    let (len, rest) ← readU8 bs
    if 128 < len.toNat then .error .recordPathTooLong
    else
      let (_, rest) ← readBytes ((len.toNat + 1) / 2) rest
      return ((), rest)

/-! ## Lazy reader -/

/-- A position in the buffer, and the bytes from there on. -/
structure Cursor where
  pos : Nat
  rest : Bytes

abbrev LazyReader (α : Type) := Cursor → Except Err (α × Cursor)

/-- A reader of plain bytes moves the position by what it consumed. -/
def lift {α : Type} (read : Reader α) : LazyReader α := fun c => do
  let (a, rest) ← read c.rest
  return (a, ⟨c.pos + (c.rest.length - rest.length), rest⟩)

/-- The length table. -/
def readTable : Nat → LazyReader (List Nat)
  | 0, c => .ok ([], c)
  | n + 1, c => do
    let (len, c) ← lift (readLe 4) c
    let (lens, c) ← readTable n c
    return (len :: lens, c)

/-- Leaves, extensions and branches stay raw; the table says how long they are. -/
def readLazySlots (buf : Bytes) (read : LazyReader Node) (present : Nibble → Bool) :
    List Nibble → List Nat → (Nibble → Option Node) → LazyReader (Nibble → Option Node)
  | [], _, children, c => .ok (children, c)
  | i :: is, lens, children, c =>
    if present i then
      match c.rest with
      | [] => .error .truncated
      | tag :: _ =>
        let len := lens.headD 0
        if tag = 1 ∨ tag = 2 ∨ tag = 3 then
          if c.rest.length < len then .error .panic
          else do
            let nref ← extractRef (c.rest.take len)
            readLazySlots buf read present is lens.tail
              (Function.update children i (some (.raw buf c.pos len nref)))
              ⟨c.pos + len, c.rest.drop len⟩
        else do
          let (child, c) ← read c
          readLazySlots buf read present is lens.tail (Function.update children i (some child)) c
    else readLazySlots buf read present is lens children c

/-- The spine of a record; branch children stay raw. -/
def readLazyNode (buf : Bytes) : Nat → LazyReader Node
  | 0, _ => .error .truncated
  | fuel + 1, c => do
    let (tag, c) ← lift readU8 c
    match tag with
    | 0 => return (.empty, c)
    | 1 => do
      let (path, c) ← lift readNibblePath c
      let (vlen, c) ← lift (readLe 4) c
      let (value, c) ← lift (readBytes vlen) c
      let (nref, c) ← lift readRef c
      return (.leaf path value nref, c)
    | 2 => do
      let (path, c) ← lift readNibblePath c
      let (nref, c) ← lift readRef c
      let (child, c) ← readLazyNode buf fuel c
      return (.extension path child nref, c)
    | 3 => do
      let (bits, c) ← lift (readLe 2) c
      let (nref, c) ← lift readRef c
      let present : Nibble → Bool := fun i => bits.testBit i.val
      let (lens, c) ← readTable ((List.finRange 16).filter present).length c
      let (children, c) ← readLazySlots buf (readLazyNode buf fuel) present (List.finRange 16) lens
        (fun _ => none) c
      return (.branch children nref, c)
    | 4 => do
      let (unit, c) ← lift (readLe 4) c
      let (len, c) ← lift (readLe 4) c
      let (root, c) ← lift readHash c
      return (.overflow (UInt32.ofNat unit) (UInt32.ofNat len) root, c)
    | 5 => do
      let (path, c) ← lift readNibblePath c
      let (nonce, c) ← lift (readLe 8) c
      let (balance, c) ← lift (readBytes 32) c
      let (codeHash, c) ← lift readHash c
      let (storage, c) ← readLazyNode buf fuel c
      return (accountNode path (UInt64.ofNat nonce) (BitVec.ofNat 256 (leValue balance.reverse))
        codeHash storage, c)
    | tag => .error (.invalidNodeTag tag)

/-- The reader at an offset of the buffer, with fuel for all that follows. -/
def lazyNodeAt (buf : Bytes) (off : Nat) : Except Err (Node × Cursor) :=
  readLazyNode buf (buf.length + 1) ⟨off, buf.drop off⟩

/-- Expand a raw node one level. -/
def parseNodeLazy (buf : Bytes) (off len : Nat) : Except Err Node := do
  let (node, c) ← lazyNodeAt buf off
  if c.pos = off + len then return node else .error .trailingRawBytes

/-- The record that starts at an offset, and where it ends. -/
def lazySubtreeAt (buf : Bytes) (off : Nat) : Except Err (DiskSubtree × Nat) := do
  let (pfx, c) ← lift readNibblePath ⟨off, buf.drop off⟩
  let (node, c) ← readLazyNode buf (buf.length + 1) c
  return (⟨pfx, node⟩, c.pos)

def deserializeSubtreeLazy (buf : Bytes) : Except Err DiskSubtree := do
  let (subtree, pos) ← lazySubtreeAt buf 0
  if pos = buf.length then return subtree else .error .trailingBytes

/-- A record inside a larger buffer. -/
def deserializeSubtreeLazyAt (buf : Bytes) (off len : Nat) : Except Err DiskSubtree :=
  if buf.length < off + len then .error .spanOutOfRange
  else do
    let (subtree, pos) ← lazySubtreeAt buf off
    if pos = off + len then return subtree else .error .trailingSpanBytes

/-! ## Partial expansion -/

mutual

/-- `l'` is `l` with some raw nodes parsed, to any depth. -/
inductive Expands : Node → Node → Prop
  | refl (l : Node) : Expands l l
  | raw {buf : Bytes} {off len : Nat} {nref : NodeRef} {l l' : Node}
      (hp : parseNodeLazy buf off len = .ok l) (h : Expands l l') :
      Expands (.raw buf off len nref) l'
  | extension {path : List Nibble} {l l' : Node} {nref : NodeRef} (h : Expands l l') :
      Expands (.extension path l nref) (.extension path l' nref)
  | branch {children children' : Nibble → Option Node} {nref : NodeRef}
      (h : ∀ i, SlotExpands (children i) (children' i)) :
      Expands (.branch children nref) (.branch children' nref)
  | account {path : List Nibble} {nonce : UInt64} {balance : U256} {codeHash : Hash} {l l' : Node}
      {storageRoot : Hash} {nref : NodeRef} (h : Expands l l') :
      Expands (.account path nonce balance codeHash l storageRoot nref)
        (.account path nonce balance codeHash l' storageRoot nref)

inductive SlotExpands : Option Node → Option Node → Prop
  | none : SlotExpands none none
  | some {l l' : Node} (h : Expands l l') : SlotExpands (some l) (some l')

end

end

end FlatMpt.Lazy
