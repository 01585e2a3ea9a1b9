import FlatMpt.Codec
import FlatMpt.RecordState

/-!
# Record round trip

`Storable n` are the nodes the format can hold: paths of at most 128 nibbles,
values shorter than 4 GiB, inline references of at most one byte of length, and
account nodes with the references `accountNode` computes (they are not stored).
Such a node is written without error and read back as it was; the record nodes
of trees are storable as soon as their values are short enough.
-/

namespace FlatMpt

open Radix (Tree)
open Radix.Tree (Canon)

/-! ## Integers, bytes and paths -/

theorem ok_bind {ε α β : Type} (a : α) (f : α → Except ε β) : (Except.ok a >>= f) = f a := rfl

theorem leValue_lt (bs : Bytes) : leValue bs < 256 ^ bs.length := by
  induction bs with
  | nil => exact Nat.one_pos
  | cons b bs ih =>
    have hb := b.toNat_lt
    rw [leValue, List.length_cons, pow_succ]
    omega

theorem leValue_leBytes (width n : Nat) (h : n < 256 ^ width) :
    leValue (leBytes width n) = n := by
  induction width generalizing n with
  | zero => simp at h; simp [leBytes, leValue, h]
  | succ width ih =>
    rw [pow_succ] at h
    simp only [leBytes, leValue, UInt8.toNat_ofNat']
    rw [ih (n / 256) (by omega)]
    omega

theorem readBytes_append (bs rest : Bytes) (len : Nat) (h : bs.length = len) :
    readBytes len (bs ++ rest) = .ok (bs, rest) := by
  subst h
  simp [readBytes]

@[simp] theorem readU8_cons (b : UInt8) (rest : Bytes) : readU8 (b :: rest) = .ok (b, rest) := rfl

theorem readLe_append (width n : Nat) (rest : Bytes) (h : n < 256 ^ width) :
    readLe width (leBytes width n ++ rest) = .ok (n, rest) := by
  rw [readLe, readBytes_append _ _ _ (leBytes_length width n)]
  show Except.ok (leValue _, rest) = _
  rw [leValue_leBytes _ _ h]

theorem readBytes_ok {len : Nat} {bs b rest : Bytes} (h : readBytes len bs = .ok (b, rest)) :
    b.length = len := by
  unfold readBytes at h
  split at h
  · cases h
  next hlen =>
    cases h
    rw [List.length_take]
    omega

/-- A number read from `width` bytes. -/
theorem readLe_lt {width n : Nat} {bs rest : Bytes} (h : readLe width bs = .ok (n, rest)) :
    n < 256 ^ width := by
  obtain ⟨⟨b, rest'⟩, hb, h⟩ := bind_ok h
  cases h
  have := leValue_lt b
  rwa [readBytes_ok hb] at this

theorem readHash_append (h : Hash) (rest : Bytes) :
    readHash (h.bytes ++ rest) = .ok (h, rest) := by
  have hs := h.size
  unfold readHash
  rw [dif_neg (by simp; omega)]
  congr 1
  ext1
  · ext1
    simp [List.take_left' hs]
  · exact List.drop_left' hs

theorem packPath_length (path : List Nibble) : (packPath path).length = (path.length + 1) / 2 := by
  fun_induction packPath path with
  | case1 => rfl
  | case2 => simp
  | case3 hi lo rest ih => simp [ih]; omega

theorem byteNibbles_packByte (hi lo : Nibble) : byteNibbles (packByte hi lo) = [hi, lo] := by
  have h : (packByte hi lo).toNat = hi.val * 16 + lo.val := by
    simp only [packByte, UInt8.toNat_ofNat']
    omega
  simp only [byteNibbles, h, List.cons.injEq, and_true]
  constructor
  · ext; simp; omega
  · ext; simp

theorem take_packPath (path : List Nibble) :
    ((packPath path).flatMap byteNibbles).take path.length = path := by
  fun_induction packPath path with
  | case1 => rfl
  | case2 hi => simp [byteNibbles_packByte]
  | case3 hi lo rest ih =>
    rw [List.flatMap_cons, byteNibbles_packByte]
    simp [ih]

theorem writeNibblePath_ok {path : List Nibble} (h : path.length ≤ 128) :
    writeNibblePath path = .ok (UInt8.ofNat path.length :: packPath path) := by
  rw [writeNibblePath, if_neg (by omega)]

theorem readNibblePath_append {path : List Nibble} (h : path.length ≤ 128) (rest : Bytes) :
    readNibblePath ((UInt8.ofNat path.length :: packPath path) ++ rest) = .ok (path, rest) := by
  have hlen : (UInt8.ofNat path.length).toNat = path.length := by
    simp only [UInt8.toNat_ofNat']
    omega
  rw [readNibblePath, List.cons_append, readU8_cons]
  show (if 128 < (UInt8.ofNat path.length).toNat then _ else _) = _
  rw [hlen, if_neg (by omega), readBytes_append _ _ _ (packPath_length path)]
  show Except.ok (List.take _ _, rest) = _
  rw [take_packPath]

/-- References the format can hold. -/
def RefOk : NodeRef → Prop
  | .hash _ => True
  | .inline rlp => rlp.length < 256

theorem readRef_append {nref : NodeRef} (h : RefOk nref) (rest : Bytes) :
    readRef (writeRef nref ++ rest) = .ok (nref, rest) := by
  cases nref with
  | hash h =>
    rw [writeRef, readRef, List.cons_append, readU8_cons]
    show Except.bind (readHash _) _ = _
    rw [readHash_append]
    rfl
  | inline rlp =>
    have hlen : (UInt8.ofNat rlp.length).toNat = rlp.length := by
      simp only [UInt8.toNat_ofNat']
      exact Nat.mod_eq_of_lt h
    rw [writeRef, readRef, List.cons_append, List.cons_append, readU8_cons]
    show Except.bind (readBytes (UInt8.ofNat rlp.length).toNat _) _ = _
    rw [hlen, readBytes_append _ _ _ rfl]
    rfl

/-! ## Bitmaps -/

theorem testBit_foldl (p : Nibble → Bool) (l : List Nibble) (b : Nat) (j : Nibble) :
    (l.foldl (fun b i => if p i then b ||| 1 <<< i.val else b) b).testBit j.val =
      (b.testBit j.val || (p j && decide (j ∈ l))) := by
  induction l generalizing b with
  | nil => simp
  | cons i l ih =>
    rw [List.foldl_cons, ih]
    by_cases hp : p i
    · rw [if_pos hp, Nat.testBit_or, Nat.one_shiftLeft, Nat.testBit_two_pow]
      by_cases hij : i = j
      · subst hij; simp [hp]
      · have hv : i.val ≠ j.val := fun h => hij (Fin.ext h)
        simp [hv, Ne.symm hij]
    · rw [if_neg hp]
      by_cases hij : j = i
      · subst hij; simp [hp]
      · simp [hij]

theorem testBit_bitmap (p : Nibble → Bool) (j : Nibble) : (bitmap p).testBit j.val = p j := by
  rw [bitmap, testBit_foldl]
  simp

theorem bitmap_lt (p : Nibble → Bool) : bitmap p < 2 ^ 16 := by
  have h : ∀ (l : List Nibble) (b : Nat), b < 2 ^ 16 →
      l.foldl (fun b i => if p i then b ||| 1 <<< i.val else b) b < 2 ^ 16 := by
    intro l
    induction l with
    | nil => exact fun b hb => hb
    | cons i l ih =>
      intro b hb
      rw [List.foldl_cons]
      refine ih _ ?_
      by_cases hp : p i
      · rw [if_pos hp]
        refine Nat.or_lt_two_pow hb ?_
        rw [Nat.one_shiftLeft]
        exact Nat.pow_lt_pow_right (by omega) i.isLt
      · rwa [if_neg hp]
  exact h _ 0 (by decide)

/-! ## Nodes -/

section
variable [Keccak]

mutual

/-- Nodes the format can hold. -/
def Storable : Node → Prop
  | .empty => True
  | .leaf path value nref => path.length ≤ 128 ∧ value.length < 2 ^ 32 ∧ RefOk nref
  | .extension path child nref => path.length ≤ 128 ∧ RefOk nref ∧ Storable child
  | .branch children nref => RefOk nref ∧ ∀ i, SlotStorable (children i)
  | .account path nonce balance codeHash storage storageRoot nref =>
    path.length ≤ 128 ∧ Storable storage ∧
      Node.account path nonce balance codeHash storage storageRoot nref =
        accountNode path nonce balance codeHash storage

def SlotStorable : Option Node → Prop
  | none => True
  | some child => Storable child

end

omit [Keccak] in
theorem mapM_ok {α β : Type} {f : α → Except Err β} {g : α → β} (l : List α)
    (h : ∀ a ∈ l, f a = .ok (g a)) : l.mapM f = .ok (l.map g) := by
  induction l with
  | nil => rfl
  | cons a l ih =>
    rw [List.forall_mem_cons] at h
    rw [List.mapM_cons, h.1, ih h.2]
    rfl

omit [Keccak] in
/-- Reading the slots of a list of digits, each written as `w i`. -/
theorem readSlots_append (read : Reader Node) (children : Nibble → Option Node)
    (w : Nibble → Bytes) (l : List Nibble)
    (hread : ∀ i ∈ l, ∀ c, children i = some c → ∀ rest, read (w i ++ rest) = .ok (c, rest))
    (hnone : ∀ i, children i = none → w i = []) (acc : Nibble → Option Node) (rest : Bytes) :
    readSlots read (fun i => (children i).isSome) l acc (l.flatMap w ++ rest) =
      .ok (fun i => if i ∈ l then (if (children i).isSome then children i else acc i) else acc i,
        rest) := by
  induction l generalizing acc with
  | nil => simp [readSlots]
  | cons i l ih =>
    rw [List.forall_mem_cons] at hread
    rw [List.flatMap_cons, List.append_assoc]
    cases hc : children i with
    | none =>
      rw [hnone i hc, List.nil_append, readSlots, hc]
      simp only [Option.isSome_none, Bool.false_eq_true, if_false]
      rw [ih hread.2]
      congr 2
      funext j
      by_cases hj : j = i
      · subst hj; simp [hc]
      · simp [hj]
    | some c =>
      rw [readSlots, hc]
      simp only [Option.isSome_some, if_true]
      rw [hread.1 c hc]
      show readSlots read _ l (Function.update acc i (some c)) _ = _
      rw [ih hread.2]
      congr 2
      funext j
      by_cases hj : j = i
      · subst hj
        simp [hc]
      · simp [hj]

omit [Keccak] in
theorem length_le_flatMap {α β : Type} {w : α → List β} {l : List α} {a : α} (h : a ∈ l) :
    (w a).length ≤ (l.flatMap w).length := by
  induction l with
  | nil => cases h
  | cons b l ih =>
    rw [List.flatMap_cons, List.length_append]
    rcases List.mem_cons.1 h with rfl | h
    · omega
    · have := ih h
      omega

omit [Keccak] in
/-- The length table has one entry per present child. -/
theorem table_length {o : Nibble → Option Bytes} {present : Nibble → Bool}
    (h : ∀ i, (o i).isSome = present i) (l : List Nibble) :
    (l.flatMap fun i => ((o i).map fun bytes => leBytes 4 bytes.length).getD []).length =
      (l.filter present).length * 4 := by
  induction l with
  | nil => rfl
  | cons i l ih =>
    rw [List.flatMap_cons, List.length_append, ih, List.filter_cons, ← h i]
    cases o i with
    | none => simp
    | some b => simp; omega

/-- What the writer produced is read back, with enough fuel, whatever follows. -/
def RoundTrips (n : Node) : Prop :=
  ∃ bytes, writeNode n = .ok bytes ∧
    ∀ fuel rest, bytes.length ≤ fuel → readNode fuel (bytes ++ rest) = .ok (n, rest)

theorem roundTrips_of_storable (n : Node) (h : Storable n) : RoundTrips n := by
  induction n using Node.induct with
  | hempty =>
    refine ⟨[0], by rw [writeNode], fun fuel rest hf => ?_⟩
    cases fuel with
    | zero => simp at hf
    | succ fuel => rfl
  | hleaf path value nref =>
    obtain ⟨hp, hv, hr⟩ := h
    have hv : value.length < 256 ^ 4 := by omega
    refine ⟨_, by rw [writeNode, writeNibblePath_ok hp]; rfl, fun fuel rest hf => ?_⟩
    cases fuel with
    | zero => simp at hf
    | succ fuel =>
      rw [List.cons_append, readNode, readU8_cons, ok_bind]
      show (readNibblePath _ >>= _) = _
      simp only [List.append_assoc, readNibblePath_append hp, ok_bind, readBytes_append _ _ _ rfl,
        readLe_append 4 _ _ hv, readRef_append hr]
      rfl
  | hext path child nref ih =>
    obtain ⟨hp, hr, hc⟩ := h
    obtain ⟨c, hwc, hrc⟩ := ih hc
    refine ⟨_, by rw [writeNode, writeNibblePath_ok hp, hwc]; rfl, fun fuel rest hf => ?_⟩
    cases fuel with
    | zero => simp at hf
    | succ fuel =>
      have hfc : c.length ≤ fuel := by simp at hf; omega
      rw [List.cons_append, readNode, readU8_cons, ok_bind]
      show (readNibblePath _ >>= _) = _
      simp only [List.append_assoc, readNibblePath_append hp, ok_bind, readRef_append hr,
        hrc fuel rest hfc]
      rfl
  | hbranch children nref ih =>
    obtain ⟨hr, hs⟩ := h
    have hslot : ∀ i, ∃ o : Option Bytes, writeSlot (children i) = .ok o ∧
        o.isSome = (children i).isSome ∧ ∀ c, children i = some c → ∀ fuel rest,
          (o.getD []).length ≤ fuel → readNode fuel (o.getD [] ++ rest) = .ok (c, rest) := by
      intro i
      have hsi := hs i
      cases hc : children i with
      | none => exact ⟨none, by rw [writeSlot], rfl, by simp⟩
      | some c =>
        rw [hc, SlotStorable] at hsi
        obtain ⟨bytes, hw, hread⟩ := ih i c hc hsi
        refine ⟨some bytes, by rw [writeSlot, hw]; rfl, rfl, ?_⟩
        rintro c' hc' fuel rest hf
        obtain rfl := Option.some.inj hc'
        exact hread fuel rest hf
    choose o ho hsome hread using hslot
    have hmap : ((List.finRange 16).mapM fun i => writeSlot (children i)) =
        .ok ((List.finRange 16).map o) := mapM_ok _ fun i _ => ho i
    refine ⟨_, by rw [writeNode, hmap]; rfl, fun fuel rest hf => ?_⟩
    simp only [List.flatMap_map] at hf ⊢
    cases fuel with
    | zero => simp at hf
    | succ fuel =>
      have hkids : ∀ i, ((o i).getD []).length ≤ fuel := by
        intro i
        have h1 := length_le_flatMap (w := fun i => (o i).getD []) (List.mem_finRange i)
        simp only [List.length_cons, List.length_append] at hf h1
        omega
      have hnone : ∀ i, children i = none → (o i).getD [] = [] := by
        intro i hi
        have h := hsome i
        rw [hi] at h
        cases hoi : o i with
        | none => rfl
        | some b => rw [hoi] at h; cases h
      have hbm : bitmap (fun i => (children i).isSome) < 256 ^ 2 := bitmap_lt _
      have hpres : (fun i : Nibble => (bitmap fun i => (children i).isSome).testBit i.val) =
          fun i => (children i).isSome := by
        funext i
        exact testBit_bitmap _ i
      have htab := table_length hsome (List.finRange 16)
      have hslots := readSlots_append (readNode fuel) children (fun i => (o i).getD [])
        (List.finRange 16) (fun i _ c hc rest => hread i c hc fuel rest (hkids i)) hnone
        (fun _ => none) rest
      rw [List.cons_append, readNode, readU8_cons, ok_bind]
      show (readLe 2 _ >>= _) = _
      simp only [List.append_assoc, ok_bind, readLe_append 2 _ _ hbm, readRef_append hr, hpres,
        readBytes_append _ _ _ htab, hslots]
      show Except.ok (Node.branch _ nref, rest) = _
      congr 3
      funext i
      cases hc : children i <;> simp
  | hacct path nonce balance codeHash storage storageRoot nref ih =>
    obtain ⟨hp, hst, heq⟩ := h
    obtain ⟨s, hws, hrs⟩ := ih hst
    refine ⟨_, by rw [writeNode, writeNibblePath_ok hp, hws]; rfl, fun fuel rest hf => ?_⟩
    have hbal : BitVec.ofNat 256 (leValue (be32 balance).reverse) = balance := by
      rw [be32, List.reverse_reverse, leValue_leBytes _ _ (by have := balance.isLt; omega)]
      simp
    have hbl : (be32 balance).length = 32 := by simp [be32]
    have hnon : nonce.toNat < 256 ^ 8 := by have := nonce.toNat_lt; omega
    cases fuel with
    | zero => simp at hf
    | succ fuel =>
      have hfs : s.length ≤ fuel := by simp at hf; omega
      rw [List.cons_append, readNode, readU8_cons, ok_bind]
      show (readNibblePath _ >>= _) = _
      simp only [List.append_assoc, readNibblePath_append hp, ok_bind, readLe_append 8 _ _ hnon,
        readBytes_append _ _ _ hbl, readHash_append, hrs fuel rest hfs]
      show Except.ok (accountNode path (UInt64.ofNat nonce.toNat) _ codeHash storage, rest) = _
      rw [hbal, heq]
      simp

/-- **A storable record reads back as it was written.** -/
theorem deserializeSubtree_serialize {s : DiskSubtree} (hp : s.pfx.length ≤ 128)
    (h : Storable s.node) :
    ∃ payload, serializeSubtree s = .ok payload ∧ deserializeSubtree payload = .ok s ∧
      parsePrefix payload = .ok s.pfx := by
  obtain ⟨bytes, hw, hr⟩ := roundTrips_of_storable s.node h
  refine ⟨(UInt8.ofNat s.pfx.length :: packPath s.pfx) ++ bytes, ?_, ?_, ?_⟩
  · rw [serializeSubtree, writeNibblePath_ok hp, hw]
    rfl
  · have hread := hr (bytes.length + 1) [] (by omega)
    rw [List.append_nil] at hread
    rw [deserializeSubtree, readNibblePath_append hp, ok_bind]
    show (readNode (bytes.length + 1) bytes >>= _) = _
    rw [hread]
    rfl
  · rw [parsePrefix, readNibblePath_append hp]
    rfl

/-! ## Record nodes of trees -/

theorem refOk_mkRef (rlp : Bytes) : RefOk (mkRef rlp) := by
  unfold mkRef
  split
  next h => exact Nat.lt_trans h (by decide)
  next => exact trivial

/-- A tree's record node is storable when its leaves are. -/
theorem storable_toNode {α : Type} (L : LeafForm α) (P : α → Prop)
    (hL : ∀ p a, p.length ≤ 128 → P a → Storable (L.node p a)) {n : Nat} {t : Tree 16 α}
    (ht : Canon n t) (hn : n ≤ 128) (hP : ∀ k a, t.get k = some a → P a) :
    Storable (toNode L t) := by
  induction ht with
  | empty => exact trivial
  | @leaf n p a hp => exact hL p a (by omega) (hP p a (by rw [Tree.get_leaf, if_pos rfl]))
  | @ext n m p c hp hm hb hc ih =>
    refine ⟨by omega, refOk_mkRef _, ih (by omega) fun k a hk => hP (p ++ k) a ?_⟩
    rw [Tree.get_ext_append, hk]
  | @branch n m cs hm hc h2 ih =>
    refine ⟨refOk_mkRef _, fun i => ?_⟩
    show SlotStorable (asChild (toNode L (cs i)))
    by_cases hi : cs i = .empty
    · rw [hi]
      exact trivial
    · rw [asChild_toNode L hi]
      exact ih i (by omega) fun k a hk => hP (i :: k) a hk

/-- Values the length field can hold. -/
def ShortValue (v : Bytes) : Prop := v.length < 2 ^ 32

def Storage.Short (s : Storage) : Prop := ∀ k v, s.tree.get k = some v → ShortValue v

def StateLeaf.Short : StateLeaf → Prop
  | .raw v => ShortValue v
  | .account _ _ _ s => s.Short

theorem Storage.storable_toNode {s : Storage} (h : s.Short) : Storable s.toNode :=
  FlatMpt.storable_toNode valueLeaf ShortValue (fun _ _ hp hv => ⟨hp, hv, refOk_mkRef _⟩) s.canon
    (by omega) h

theorem storable_stateLeaf {p : List Nibble} {a : StateLeaf} (hp : p.length ≤ 128)
    (h : a.Short) : Storable (stateLeaf.node p a) := by
  cases a with
  | raw v => exact ⟨hp, h, refOk_mkRef _⟩
  | account n b c s => exact ⟨hp, Storage.storable_toNode h, rfl⟩

end

end FlatMpt
