import FlatMpt.Node

/-!
# Record format

The byte format of a record: the prefix path followed by the node tree.  The
writer fails only on paths that do not fit their length byte.  The reader works
on the bytes that remain; it is given more fuel than any record has nested nodes,
so running out never happens on real input.  Branches carry a table with the
serialized length of each child, which this full parse skips.

    deserializeSubtree (serializeSubtree s) = s        (deserializeSubtree_serialize)
-/

namespace FlatMpt

/-! ## Fixed-width integers -/

/-- The low `width` bytes of a number, little-endian. -/
def leBytes : Nat → Nat → Bytes
  | 0, _ => []
  | width + 1, n => UInt8.ofNat n :: leBytes width (n / 256)

@[simp] theorem leBytes_length (width n : Nat) : (leBytes width n).length = width := by
  induction width generalizing n with
  | zero => rfl
  | succ width ih => simp [leBytes, ih]

def leValue : Bytes → Nat
  | [] => 0
  | b :: bs => b.toNat + 256 * leValue bs

/-- Big-endian, as balances are stored. -/
def be32 (n : U256) : Bytes := (leBytes 32 n.toNat).reverse

/-! ## Sizes -/

/-- On-disk size of a node reference. -/
def refSize : NodeRef → Nat
  | .hash _ => 1 + 32
  | .inline rlp => 1 + (1 + rlp.length)

def pathSize (len : Nat) : Nat := 1 + (len + 1) / 2

mutual

def nodeSize : Node → Nat
  | .empty => 1
  | .leaf path value nref => 1 + pathSize path.length + 4 + value.length + refSize nref
  | .extension path child nref => 1 + pathSize path.length + refSize nref + nodeSize child
  | .branch children nref =>
    1 + 2 + refSize nref + (((List.finRange 16).map fun i => slotSize (children i)).sum)
  | .account path _ _ _ storage _ _ => 1 + pathSize path.length + 8 + 32 + 32 + nodeSize storage

/-- A child with its entry of the length table. -/
def slotSize : Option Node → Nat
  | none => 0
  | some child => 4 + nodeSize child

end

/-- Total on-disk size of a record. -/
def recordSize (prefixLen : Nat) (node : Node) : Nat := pathSize prefixLen + nodeSize node

/-! ## Writer -/

def writeRef : NodeRef → Bytes
  | .hash h => 0 :: h.bytes
  | .inline rlp => 1 :: UInt8.ofNat rlp.length :: rlp

/-- Nibbles packed two to a byte, the last one padded. -/
def packPath : List Nibble → Bytes
  | [] => []
  | [hi] => [packByte hi 0]
  | hi :: lo :: rest => packByte hi lo :: packPath rest

def writeNibblePath (path : List Nibble) : Except Err Bytes :=
  if 255 < path.length then .error .pathTooLong
  else .ok (UInt8.ofNat path.length :: packPath path)

/-- The bits of the children that are present. -/
def bitmap (present : Nibble → Bool) : Nat :=
  (List.finRange 16).foldl (fun b i => if present i then b ||| 1 <<< i.val else b) 0

mutual

def writeNode : Node → Except Err Bytes
  | .empty => .ok [0]
  | .leaf path value nref => do
    let p ← writeNibblePath path
    return 1 :: (p ++ (leBytes 4 value.length ++ (value ++ writeRef nref)))
  | .extension path child nref => do
    let p ← writeNibblePath path
    let c ← writeNode child
    return 2 :: (p ++ (writeRef nref ++ c))
  | .branch children nref => do
    let cs ← (List.finRange 16).mapM fun i => writeSlot (children i)
    let table := cs.flatMap fun c => (c.map fun bytes => leBytes 4 bytes.length).getD []
    return 3 :: (leBytes 2 (bitmap fun i => (children i).isSome) ++
      (writeRef nref ++ (table ++ cs.flatMap fun c => c.getD [])))
  | .account path nonce balance codeHash storage _ _ => do
    let p ← writeNibblePath path
    let s ← writeNode storage
    return 5 :: (p ++ (leBytes 8 nonce.toNat ++ (be32 balance ++ (codeHash.bytes ++ s))))

def writeSlot : Option Node → Except Err (Option Bytes)
  | none => .ok none
  | some child => do
    let c ← writeNode child
    return some c

end

/-- Serialize a subtree to its on-disk payload. -/
def serializeSubtree (subtree : DiskSubtree) : Except Err Bytes := do
  let p ← writeNibblePath subtree.pfx
  let n ← writeNode subtree.node
  return p ++ n

/-! ## Reader -/

/-- A reader: what it read, and the bytes that remain. -/
abbrev Reader (α : Type) := Bytes → Except Err (α × Bytes)

def readBytes (len : Nat) : Reader Bytes := fun bs =>
  if bs.length < len then .error .truncated else .ok (bs.take len, bs.drop len)

def readU8 : Reader UInt8 := fun bs =>
  match bs with
  | [] => .error .truncated
  | b :: rest => .ok (b, rest)

/-- A little-endian integer of `width` bytes. -/
def readLe (width : Nat) : Reader Nat := fun bs => do
  let (b, rest) ← readBytes width bs
  return (leValue b, rest)

def readHash : Reader Hash := fun bs =>
  if h : bs.length < 32 then .error .truncated
  else .ok (⟨bs.take 32, by simp; omega⟩, bs.drop 32)

def readNibblePath : Reader (List Nibble) := fun bs => do
  let (len, rest) ← readU8 bs
  if 128 < len.toNat then .error .recordPathTooLong
  else
    let (packed, rest) ← readBytes ((len.toNat + 1) / 2) rest
    return ((packed.flatMap byteNibbles).take len.toNat, rest)

def readRef : Reader NodeRef := fun bs => do
  let (tag, rest) ← readU8 bs
  if tag = 0 then
    let (h, rest) ← readHash rest
    return (.hash h, rest)
  else if tag = 1 then
    let (len, rest) ← readU8 rest
    let (rlp, rest) ← readBytes len.toNat rest
    return (.inline rlp, rest)
  else .error (.invalidRefTag tag)

/-- The children marked in the bitmap, in slot order. -/
def readSlots (read : Reader Node) (present : Nibble → Bool) :
    List Nibble → (Nibble → Option Node) → Reader (Nibble → Option Node)
  | [], children, bs => .ok (children, bs)
  | i :: rest, children, bs =>
    if present i then do
      let (child, bs) ← read bs
      readSlots read present rest (Function.update children i (some child)) bs
    else readSlots read present rest children bs

section
variable [Keccak]

def readNode : Nat → Reader Node
  | 0, _ => .error .truncated
  | fuel + 1, bs => do
    let (tag, rest) ← readU8 bs
    match tag with
    | 0 => return (.empty, rest)
    | 1 => do
      let (path, rest) ← readNibblePath rest
      let (vlen, rest) ← readLe 4 rest
      let (value, rest) ← readBytes vlen rest
      let (nref, rest) ← readRef rest
      return (.leaf path value nref, rest)
    | 2 => do
      let (path, rest) ← readNibblePath rest
      let (nref, rest) ← readRef rest
      let (child, rest) ← readNode fuel rest
      return (.extension path child nref, rest)
    | 3 => do
      let (bits, rest) ← readLe 2 rest
      let (nref, rest) ← readRef rest
      let present : Nibble → Bool := fun i => bits.testBit i.val
      let (_, rest) ← readBytes (((List.finRange 16).filter present).length * 4) rest
      let (children, rest) ← readSlots (readNode fuel) present (List.finRange 16) (fun _ => none)
        rest
      return (.branch children nref, rest)
    | 5 => do
      let (path, rest) ← readNibblePath rest
      let (nonce, rest) ← readLe 8 rest
      let (balance, rest) ← readBytes 32 rest
      let (codeHash, rest) ← readHash rest
      let (storage, rest) ← readNode fuel rest
      return (accountNode path (UInt64.ofNat nonce) (BitVec.ofNat 256 (leValue balance.reverse))
        codeHash storage, rest)
    | tag => .error (.invalidNodeTag tag)

/-- Parse a whole record payload. -/
def deserializeSubtree (payload : Bytes) : Except Err DiskSubtree := do
  let (pfx, rest) ← readNibblePath payload
  let (node, rest) ← readNode (rest.length + 1) rest
  if rest = [] then return ⟨pfx, node⟩ else .error .trailingBytes

/-- A record payload's leading nibble path. -/
def parsePrefix (payload : Bytes) : Except Err (List Nibble) :=
  (readNibblePath payload).map Prod.fst

end

end FlatMpt
