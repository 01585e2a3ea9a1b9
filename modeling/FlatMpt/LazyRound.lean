import FlatMpt.Lazy

/-!
# Lazy records round trip

What the writer produced is read back in full, and lazily from any place in a larger
buffer.  `Lazily l n` says that `l` is `n` with some children left raw, each a slice
that holds exactly the child's bytes and carries its reference; it survives every
expansion and writes the same bytes.

    written_of_fits           -- write, size, full read, header scan, lazy read
    Lazily.expands, Lazily.of_expands
    record_round_trip
-/

namespace FlatMpt.Lazy

open FlatMpt

section
variable [Keccak]

def RefFits : NodeRef → Prop
  | .hash _ => True
  | .inline rlp => rlp.length < 32

omit [Keccak] in
theorem RefFits.ok {nref : NodeRef} (h : RefFits nref) : RefOk nref := by
  cases nref with
  | hash h => exact trivial
  | inline rlp => exact Nat.lt_trans h (by decide)

mutual

/-- Nodes the format can hold, in full. -/
def Fits : Node → Prop
  | .empty => True
  | .leaf path value nref => path.length ≤ 64 ∧ value.length < 2 ^ 32 ∧ RefFits nref
  | .extension path child nref => path.length ≤ 64 ∧ RefFits nref ∧ Fits child
  | .branch children nref => RefFits nref ∧ ∀ i, SlotFits (children i)
  | .overflow .. => True
  | .account path nonce balance codeHash storage storageRoot nref =>
    path.length ≤ 64 ∧ Fits storage ∧
      Node.account path nonce balance codeHash storage storageRoot nref =
        accountNode path nonce balance codeHash storage
  | .raw .. => False

def SlotFits : Option Node → Prop
  | none => True
  | some child => Fits child ∧ nodeSize child < 2 ^ 32

end

mutual

/-- `l` is `n`, some children of branches still serialized. -/
inductive Lazily : Node → Node → Prop
  | empty : Lazily .empty .empty
  | leaf (path : List Nibble) (value : Bytes) (nref : NodeRef) :
      Lazily (.leaf path value nref) (.leaf path value nref)
  | extension (path : List Nibble) {l n : Node} (nref : NodeRef) (h : Lazily l n) :
      Lazily (.extension path l nref) (.extension path n nref)
  | branch {ls ns : Nibble → Option Node} (nref : NodeRef) (h : ∀ i, SlotLazily (ls i) (ns i)) :
      Lazily (.branch ls nref) (.branch ns nref)
  | overflow (unit len : UInt32) (root : Hash) : Lazily (.overflow unit len root) (.overflow unit len root)
  | account (path : List Nibble) (nonce : UInt64) (balance : U256) (codeHash : Hash) {l n : Node}
      (storageRoot : Hash) (nref : NodeRef) (h : Lazily l n) :
      Lazily (.account path nonce balance codeHash l storageRoot nref)
        (.account path nonce balance codeHash n storageRoot nref)
  | raw {buf : Bytes} {off len : Nat} {n : Node} (hne : n ≠ .empty) (hbuf : off + len ≤ buf.length)
      (hw : writeNode n = .ok ((buf.drop off).take len)) : Lazily (.raw buf off len (hashNode n)) n

inductive SlotLazily : Option Node → Option Node → Prop
  | none : SlotLazily none none
  | some {l n : Node} (h : Lazily l n) : SlotLazily (some l) (some n)

end

theorem Lazily.hash_eq {l n : Node} (h : Lazily l n) : hashNode l = hashNode n := by
  cases h <;> rfl

theorem SlotLazily.isSome {l n : Option Node} (h : SlotLazily l n) : l.isSome = n.isSome := by
  cases h <;> rfl

theorem SlotLazily.eq_none {l : Option Node} (h : SlotLazily l Option.none) : l = Option.none := by
  cases h
  rfl

theorem SlotLazily.eq_some {l : Option Node} {n : Node} (h : SlotLazily l (Option.some n)) :
    ∃ l', l = Option.some l' ∧ Lazily l' n := by
  cases h with
  | some h => exact ⟨_, rfl, h⟩

mutual

/-- The same bytes are written. -/
theorem Lazily.write_eq {l n : Node} (h : Lazily l n) : writeNode l = writeNode n := by
  match h with
  | .empty => rfl
  | .leaf .. => rfl
  | .overflow .. => rfl
  | .extension path nref h =>
    unfold writeNode
    rw [h.write_eq]
  | .account path nonce balance codeHash storageRoot nref h =>
    unfold writeNode
    rw [h.write_eq]
  | .raw _ hbuf hw =>
    rw [hw]
    unfold writeNode
    rw [if_neg (Nat.not_lt.mpr hbuf)]
  | @Lazily.branch _ ls ns nref h =>
    have hs : (fun i => writeSlot (ls i)) = fun i => writeSlot (ns i) := by
      funext i
      exact (h i).write_eq
    have hp : (fun i => (ls i).isSome) = fun i => (ns i).isSome := by
      funext i
      exact (h i).isSome
    unfold writeNode
    rw [hs, hp]

theorem SlotLazily.write_eq {l n : Option Node} (h : SlotLazily l n) : writeSlot l = writeSlot n := by
  match h with
  | .none => rfl
  | .some h =>
    unfold writeSlot
    rw [h.write_eq]

end

/-! ## Readers on written bytes -/

omit [Keccak] in
theorem lift_append {α : Type} {read : Reader α} {w rest : Bytes} {a : α}
    (h : read (w ++ rest) = .ok (a, rest)) (pos : Nat) :
    lift read ⟨pos, w ++ rest⟩ = .ok (a, ⟨pos + w.length, rest⟩) := by
  have hlen : (w ++ rest).length - rest.length = w.length := by
    rw [List.length_append]
    omega
  unfold lift
  show (read (w ++ rest) >>= _) = _
  rw [h]
  show Except.ok (a, Cursor.mk (pos + ((w ++ rest).length - rest.length)) rest) = _
  rw [hlen]

omit [Keccak] in
theorem skipNibblePath_append {path : List Nibble} (h : path.length ≤ 128) (rest : Bytes) :
    extractRef.skipNibblePath ((UInt8.ofNat path.length :: packPath path) ++ rest) = .ok ((), rest) := by
  have hlen : (UInt8.ofNat path.length).toNat = path.length := by
    simp only [UInt8.toNat_ofNat']
    omega
  rw [extractRef.skipNibblePath, List.cons_append, readU8_cons]
  show (if 128 < (UInt8.ofNat path.length).toNat then _ else _) = _
  rw [hlen, if_neg (by omega), readBytes_append _ _ _ (packPath_length path)]
  rfl

omit [Keccak] in
theorem writeRef_length (nref : NodeRef) : (writeRef nref).length = refSize nref := by
  cases nref with
  | hash h =>
    show (h.bytes.length + 1) = 1 + 32
    rw [h.size]
  | inline rlp =>
    show rlp.length + 1 + 1 = 1 + (1 + rlp.length)
    omega

omit [Keccak] in
theorem path_length (path : List Nibble) :
    (UInt8.ofNat path.length :: packPath path).length = pathSize path.length := by
  rw [List.length_cons, packPath_length, pathSize]
  omega

/-- The entries of a length table. -/
def tableOf (o : Nibble → Option Bytes) (is : List Nibble) : Bytes :=
  is.flatMap fun i => ((o i).map fun bytes => leBytes 4 bytes.length).getD []

/-- The lengths of the children that are present. -/
def lensOf (o : Nibble → Option Bytes) (is : List Nibble) : List Nat :=
  is.filterMap fun i => (o i).map List.length

omit [Keccak] in
theorem readTable_append {o : Nibble → Option Bytes} {present : Nibble → Bool}
    (hsome : ∀ i, (o i).isSome = present i) (hsmall : ∀ i b, o i = some b → b.length < 2 ^ 32)
    (is : List Nibble) (pos : Nat) (rest : Bytes) :
    readTable (is.filter present).length ⟨pos, tableOf o is ++ rest⟩ =
      .ok (lensOf o is, ⟨pos + (tableOf o is).length, rest⟩) := by
  induction is generalizing pos with
  | nil => rfl
  | cons i is ih =>
    have hi := hsome i
    cases ho : o i with
    | none =>
      rw [ho] at hi
      have htab : tableOf o (i :: is) = tableOf o is := by simp [tableOf, ho]
      have hlens : lensOf o (i :: is) = lensOf o is := by simp [lensOf, ho]
      rw [List.filter_cons, if_neg (by rw [← hi]; simp), htab, hlens]
      exact ih pos
    | some b =>
      rw [ho] at hi
      have htab : tableOf o (i :: is) = leBytes 4 b.length ++ tableOf o is := by simp [tableOf, ho]
      have hlens : lensOf o (i :: is) = b.length :: lensOf o is := by simp [lensOf, ho]
      have hb : b.length < 256 ^ 4 := by
        have := hsmall i b ho
        omega
      rw [List.filter_cons, if_pos (by rw [← hi]; rfl), htab, hlens, List.append_assoc, List.length_cons,
        readTable, lift_append (readLe_append 4 b.length _ hb) pos, ok_bind]
      show (readTable _ _ >>= _) = _
      rw [ih, ok_bind, List.length_append, Nat.add_assoc]
      rfl

/-! ## The writer's bytes -/

/-- What the readers make of the bytes written for a node. -/
structure Written (n : Node) (w : Bytes) : Prop where
  write : writeNode n = .ok w
  size : w.length = nodeSize n
  nonempty : w ≠ []
  read : ∀ fuel rest, w.length ≤ fuel → readNode fuel (w ++ rest) = .ok (n, rest)
  extract : (w.headD 0 = 1 ∨ w.headD 0 = 2 ∨ w.headD 0 = 3) → extractRef w = .ok (hashNode n)
  lazily : ∀ buf fuel pos rest, buf.drop pos = w ++ rest → w.length ≤ fuel →
    ∃ l, readLazyNode buf fuel ⟨pos, w ++ rest⟩ = .ok (l, ⟨pos + w.length, rest⟩) ∧ Lazily l n ∧
      ∀ b off len r, l ≠ .raw b off len r

omit [Keccak] in
theorem drop_append_length {buf w w' rest : Bytes} {pos : Nat} (h : buf.drop pos = w ++ (w' ++ rest)) :
    buf.drop (pos + w.length) = w' ++ rest := by
  rw [← List.drop_drop, h, List.drop_left]

omit [Keccak] in
theorem tag_append (tag : UInt8) (w rest : Bytes) : tag :: w ++ rest = [tag] ++ (w ++ rest) := rfl

omit [Keccak] in
/-- Reading the slots of a list of digits, each written as `w i`. -/
theorem readSlots_append (read : Reader Node) (children : Nibble → Option Node)
    (w : Nibble → Bytes) (is : List Nibble)
    (hread : ∀ i ∈ is, ∀ c, children i = some c → ∀ rest, read (w i ++ rest) = .ok (c, rest))
    (hnone : ∀ i, children i = none → w i = []) (acc : Nibble → Option Node) (rest : Bytes) :
    readSlots read (fun i => (children i).isSome) is acc (is.flatMap w ++ rest) =
      .ok (fun i => if i ∈ is then (if (children i).isSome then children i else acc i) else acc i,
        rest) := by
  induction is generalizing acc with
  | nil => simp [readSlots]
  | cons i is ih =>
    rw [List.forall_mem_cons] at hread
    rw [List.flatMap_cons, List.append_assoc]
    cases hc : children i with
    | none =>
      rw [hnone i hc, List.nil_append, readSlots, hc]
      simp only [Option.isSome_none, Bool.false_eq_true, if_false]
      rw [ih hread.2]
      congr 2
      funext j
      by_cases hj : j = i
      · subst hj; simp [hc]
      · simp [hj]
    | some c =>
      rw [readSlots, hc]
      simp only [Option.isSome_some, if_true]
      rw [hread.1 c hc]
      show readSlots read _ is (Function.update acc i (some c)) _ = _
      rw [ih hread.2]
      congr 2
      funext j
      by_cases hj : j = i
      · subst hj
        simp [hc]
      · simp [hj]

/-- The bytes of the children, by slot. -/
structure WrittenSlots (children : Nibble → Option Node) (o : Nibble → Option Bytes) : Prop where
  write : ∀ i, writeSlot (children i) = .ok (o i)
  absent : ∀ i, children i = none → o i = none
  present : ∀ i c, children i = some c → ∃ w, o i = some w ∧ Written c w

namespace WrittenSlots

variable {children : Nibble → Option Node} {o : Nibble → Option Bytes}

theorem isSome (h : WrittenSlots children o) (i : Nibble) : (o i).isSome = (children i).isSome := by
  cases hc : children i with
  | none => rw [h.absent i hc]; rfl
  | some c =>
    obtain ⟨w, hw, -⟩ := h.present i c hc
    rw [hw]; rfl

/-- The children as read: lazy forms in the slots of `is`, `acc` elsewhere. -/
def Filled (children : Nibble → Option Node) (is : List Nibble) (acc ls : Nibble → Option Node) : Prop :=
  ∀ i, (i ∈ is → (children i).isSome → SlotLazily (ls i) (children i)) ∧
    (i ∉ is ∨ (children i).isSome = false → ls i = acc i)

theorem Filled.skip {is : List Nibble} {acc ls : Nibble → Option Node} {i : Nibble}
    (hc : children i = none) (h : Filled children is acc ls) : Filled children (i :: is) acc ls := by
  intro j
  refine ⟨fun hm hs => (h j).1 ((List.mem_cons.mp hm).resolve_left ?_) hs, fun hm => (h j).2 ?_⟩
  · rintro rfl
    rw [hc] at hs
    cases hs
  · exact hm.imp_left fun hm hm' => hm (List.mem_cons_of_mem _ hm')

theorem Filled.put {is : List Nibble} {acc ls : Nibble → Option Node} {i : Nibble} {c l : Node}
    (hc : children i = Option.some c) (hl : Lazily l c)
    (h : Filled children is (Function.update acc i (Option.some l)) ls) :
    Filled children (i :: is) acc ls := by
  intro j
  by_cases hj : j = i
  · subst hj
    refine ⟨fun _ hs => ?_, fun hm => ?_⟩
    · by_cases hm : j ∈ is
      · exact (h j).1 hm hs
      · rw [(h j).2 (.inl hm), Function.update_self, hc]
        exact .some hl
    · rcases hm with hm | hm
      · exact absurd List.mem_cons_self hm
      · rw [hc] at hm
        cases hm
  · refine ⟨fun hm hs => (h j).1 ((List.mem_cons.mp hm).resolve_left hj) hs, fun hm => ?_⟩
    rw [(h j).2 (hm.imp_left fun hm hm' => hm (List.mem_cons_of_mem _ hm')),
      Function.update_of_ne hj]

/-- One present child: read, or left as a slice. -/
theorem readLazySlot {c : Node} {w : Bytes} (hw : Written c w) (buf : Bytes) (fuel : Nat)
    (hfuel : w.length ≤ fuel) (present : Nibble → Bool) {i : Nibble} (hi : present i = true)
    (is : List Nibble) (lens : List Nat) (acc : Nibble → Option Node) (pos : Nat) (rest : Bytes)
    (hbuf : buf.drop pos = w ++ rest) :
    ∃ l, Lazily l c ∧
      Lazy.readLazySlots buf (readLazyNode buf fuel) present (i :: is) (w.length :: lens) acc
          ⟨pos, w ++ rest⟩ =
        Lazy.readLazySlots buf (readLazyNode buf fuel) present is lens
          (Function.update acc i (Option.some l)) ⟨pos + w.length, rest⟩ := by
  obtain ⟨tag, w', rfl⟩ := List.exists_cons_of_ne_nil hw.nonempty
  by_cases htag : tag = 1 ∨ tag = 2 ∨ tag = 3
  · refine ⟨.raw buf pos (tag :: w').length (hashNode c), .raw ?_ ?_ ?_, ?_⟩
    · rintro rfl
      have hwrite : writeNode .empty = .ok (tag :: w') := hw.write
      rw [writeNode] at hwrite
      obtain ⟨rfl, -⟩ := List.cons.inj (Except.ok.inj hwrite)
      revert htag
      decide
    · have := congrArg List.length hbuf
      rw [List.length_drop, List.length_append] at this
      simp only [List.length_cons] at this ⊢
      omega
    · rw [hbuf, List.take_left, hw.write]
    · rw [Lazy.readLazySlots, if_pos hi]
      show (if _ then (if ((tag :: w') ++ rest).length < (tag :: w').length then _ else
        (extractRef (((tag :: w') ++ rest).take (tag :: w').length) >>= _)) else _) = _
      rw [if_pos htag, if_neg (by rw [List.length_append]; omega), List.take_left, hw.extract htag, ok_bind]
      have hdrop : ((tag :: w') ++ rest).drop (tag :: w').length = rest := List.drop_left
      show Lazy.readLazySlots _ _ _ is lens _ ⟨_, ((tag :: w') ++ rest).drop (tag :: w').length⟩ = _
      rw [hdrop]
      rfl
  · obtain ⟨l, hread, hl, -⟩ := hw.lazily buf fuel pos _ hbuf hfuel
    refine ⟨l, hl, ?_⟩
    rw [Lazy.readLazySlots, if_pos hi]
    show (if _ then _ else (readLazyNode buf fuel ⟨pos, (tag :: w') ++ rest⟩ >>= _)) = _
    rw [if_neg htag, hread]
    rfl

/-- Slot by slot, each child is read or left as a slice. -/
theorem readLazySlots (h : WrittenSlots children o) (buf : Bytes) (fuel : Nat)
    (hfuel : ∀ i, ((o i).getD []).length ≤ fuel) (is : List Nibble)
    (acc : Nibble → Option Node) (pos : Nat) (rest : Bytes)
    (hbuf : buf.drop pos = is.flatMap (fun i => (o i).getD []) ++ rest) :
    ∃ ls : Nibble → Option Node,
      Lazy.readLazySlots buf (readLazyNode buf fuel) (fun i => (children i).isSome) is (lensOf o is) acc
          ⟨pos, is.flatMap (fun i => (o i).getD []) ++ rest⟩ =
        .ok (ls, ⟨pos + (is.flatMap fun i => (o i).getD []).length, rest⟩) ∧
      Filled children is acc ls := by
  induction is generalizing acc pos with
  | nil => exact ⟨acc, rfl, fun i => ⟨fun hi => absurd hi List.not_mem_nil, fun _ => rfl⟩⟩
  | cons i is ih =>
    cases hc : children i with
    | none =>
      have ho := h.absent i hc
      have hflat : (i :: is).flatMap (fun i => (o i).getD []) = is.flatMap fun i => (o i).getD [] := by
        simp [ho]
      have hlens : lensOf o (i :: is) = lensOf o is := by simp [lensOf, ho]
      rw [hflat] at hbuf ⊢
      obtain ⟨ls, hls, hall⟩ := ih acc pos hbuf
      refine ⟨ls, ?_, hall.skip hc⟩
      rw [hlens, Lazy.readLazySlots, hc]
      exact hls
    | some c =>
      obtain ⟨w, ho, hw⟩ := h.present i c hc
      have hflat : (i :: is).flatMap (fun i => (o i).getD []) =
          w ++ is.flatMap fun i => (o i).getD [] := by simp [ho]
      have hlens : lensOf o (i :: is) = w.length :: lensOf o is := by simp [lensOf, ho]
      rw [hflat, List.append_assoc] at hbuf ⊢
      have hfw : w.length ≤ fuel := by
        have := hfuel i
        rw [ho] at this
        exact this
      obtain ⟨l, hl, hstep⟩ := readLazySlot hw buf fuel hfw (fun i => (children i).isSome)
        (i := i) (by rw [hc]; rfl) is (lensOf o is) acc pos _ hbuf
      obtain ⟨ls, hls, hall⟩ := ih (Function.update acc i (Option.some l)) (pos + w.length)
        (drop_append_length hbuf)
      refine ⟨ls, ?_, hall.put hc hl⟩
      rw [hlens, hstep, hls, List.length_append, Nat.add_assoc]

end WrittenSlots

/-! ## Nodes -/

omit [Keccak] in
/-- The tag byte. -/
theorem lift_tag (tag : UInt8) (bs : Bytes) (pos : Nat) :
    lift readU8 ⟨pos, tag :: bs⟩ = .ok (tag, ⟨pos + 1, bs⟩) := by
  have h : readU8 ([tag] ++ bs) = .ok (tag, bs) := rfl
  exact lift_append h pos

theorem written_empty : Written .empty [0] where
  write := by rw [writeNode]
  size := rfl
  nonempty := List.cons_ne_nil _ _
  read fuel rest hf := by
    cases fuel with
    | zero => simp at hf
    | succ fuel => rfl
  extract h := by
    rcases h with h | h | h <;> cases h
  lazily buf fuel pos rest _ hf := by
    cases fuel with
    | zero => simp at hf
    | succ fuel =>
      refine ⟨.empty, ?_, .empty, fun b off len r h => by cases h⟩
      rw [List.singleton_append, readLazyNode, lift_tag]
      rfl

theorem written_leaf {path : List Nibble} {value : Bytes} {nref : NodeRef}
    (h : Fits (.leaf path value nref)) :
    Written (.leaf path value nref) (1 :: ((UInt8.ofNat path.length :: packPath path) ++
      (leBytes 4 value.length ++ (value ++ writeRef nref)))) := by
  obtain ⟨hp, hv, hr⟩ := h
  have hp : path.length ≤ 128 := by omega
  have hv : value.length < 256 ^ 4 := by omega
  refine ⟨by rw [writeNode, writeNibblePath_ok hp]; rfl, ?_, List.cons_ne_nil _ _, ?_, ?_, ?_⟩
  · simp only [List.length_cons, List.length_append, packPath_length, leBytes_length, writeRef_length,
      nodeSize, pathSize]
    omega
  · intro fuel rest hf
    cases fuel with
    | zero => simp at hf
    | succ fuel =>
      rw [List.cons_append, readNode, readU8_cons, ok_bind]
      show (readNibblePath _ >>= _) = _
      simp only [List.append_assoc, readNibblePath_append hp, ok_bind, readBytes_append _ _ _ rfl,
        readLe_append 4 _ _ hv, readRef_append hr.ok]
      rfl
  · intro _
    have href : readRef (writeRef nref) = .ok (nref, []) := by
      have := readRef_append hr.ok []
      rwa [List.append_nil] at this
    rw [extractRef, readU8_cons, ok_bind]
    show (extractRef.skipNibblePath _ >>= _) = _
    simp only [skipNibblePath_append hp, ok_bind, readBytes_append _ _ _ rfl,
      readLe_append 4 _ _ hv, href]
    rfl
  · intro buf fuel pos rest _ hf
    cases fuel with
    | zero => simp at hf
    | succ fuel =>
      refine ⟨_, ?_, .leaf path value nref, fun b off len r h => by cases h⟩
      have hpath := fun bs => lift_append (readNibblePath_append hp bs)
      have hlen := fun bs => lift_append (readLe_append 4 value.length bs hv)
      have hvalue := fun bs => lift_append (readBytes_append value bs _ rfl)
      have href := fun bs => lift_append (readRef_append hr.ok bs)
      rw [List.cons_append, readLazyNode, lift_tag, ok_bind]
      show (lift readNibblePath _ >>= _) = _
      simp only [List.append_assoc, hpath, ok_bind, hlen, hvalue, href, List.length_append,
        List.length_cons, Nat.add_assoc, Nat.add_comm 1]
      rfl

theorem written_extension {path : List Nibble} {child : Node} {nref : NodeRef} {c : Bytes}
    (h : Fits (.extension path child nref)) (hc : Written child c) :
    Written (.extension path child nref) (2 :: ((UInt8.ofNat path.length :: packPath path) ++
      (writeRef nref ++ c))) := by
  obtain ⟨hp, hr, -⟩ := h
  have hp : path.length ≤ 128 := by omega
  refine ⟨by rw [writeNode, writeNibblePath_ok hp, hc.write]; rfl, ?_, List.cons_ne_nil _ _, ?_, ?_, ?_⟩
  · simp only [List.length_cons, List.length_append, packPath_length, writeRef_length, hc.size,
      nodeSize, pathSize]
    omega
  · intro fuel rest hf
    cases fuel with
    | zero => simp at hf
    | succ fuel =>
      have hfc : c.length ≤ fuel := by simp at hf; omega
      rw [List.cons_append, readNode, readU8_cons, ok_bind]
      show (readNibblePath _ >>= _) = _
      simp only [List.append_assoc, readNibblePath_append hp, ok_bind, readRef_append hr.ok,
        hc.read fuel rest hfc]
      rfl
  · intro _
    rw [extractRef, readU8_cons, ok_bind]
    show (extractRef.skipNibblePath _ >>= _) = _
    simp only [skipNibblePath_append hp, ok_bind, readRef_append hr.ok]
    rfl
  · intro buf fuel pos rest hbuf hf
    cases fuel with
    | zero => simp at hf
    | succ fuel =>
      have hfc : c.length ≤ fuel := by simp at hf; omega
      rw [tag_append, List.append_assoc, List.append_assoc] at hbuf
      have hbuf := drop_append_length (drop_append_length (drop_append_length hbuf))
      obtain ⟨l, hl, hlaz, -⟩ := hc.lazily buf fuel _ rest hbuf hfc
      refine ⟨_, ?_, .extension path nref hlaz, fun b off len r h => by cases h⟩
      have hpath := fun bs => lift_append (readNibblePath_append hp bs)
      have href := fun bs => lift_append (readRef_append hr.ok bs)
      rw [List.length_singleton] at hl
      rw [List.cons_append, readLazyNode, lift_tag, ok_bind]
      show (lift readNibblePath _ >>= _) = _
      simp only [List.append_assoc, hpath, ok_bind, href, hl]
      show Except.ok (Node.extension path l nref, Cursor.mk _ rest) = _
      simp only [List.length_append, List.length_cons, Nat.add_assoc, Nat.add_comm 1]

theorem written_overflow (unit len : UInt32) (root : Hash) :
    Written (.overflow unit len root) (4 :: (leBytes 4 unit.toNat ++ (leBytes 4 len.toNat ++
      root.bytes))) := by
  have hu : unit.toNat < 256 ^ 4 := by have := unit.toNat_lt; omega
  have hl : len.toNat < 256 ^ 4 := by have := len.toNat_lt; omega
  refine ⟨by rw [writeNode], ?_, List.cons_ne_nil _ _, ?_, ?_, ?_⟩
  · simp only [List.length_cons, List.length_append, leBytes_length, root.size, nodeSize]
  · intro fuel rest hf
    cases fuel with
    | zero => simp at hf
    | succ fuel =>
      rw [List.cons_append, readNode, readU8_cons, ok_bind]
      show (readLe 4 _ >>= _) = _
      simp only [List.append_assoc, ok_bind, readLe_append 4 _ _ hu, readLe_append 4 _ _ hl,
        readHash_append]
      simp
      rfl
  · rintro (h | h | h) <;> cases h
  · intro buf fuel pos rest _ hf
    cases fuel with
    | zero => simp at hf
    | succ fuel =>
      refine ⟨_, ?_, .overflow unit len root, fun b off len r h => by cases h⟩
      have hunit := fun bs => lift_append (readLe_append 4 unit.toNat bs hu)
      have hlen := fun bs => lift_append (readLe_append 4 len.toNat bs hl)
      have hroot := fun bs => lift_append (readHash_append root bs)
      rw [List.cons_append, readLazyNode, lift_tag, ok_bind]
      show (lift (readLe 4) _ >>= _) = _
      simp only [List.append_assoc, hunit, hlen, hroot, ok_bind, List.length_append,
        List.length_cons, Nat.add_assoc, Nat.add_comm 1, UInt32.ofNat_toNat]
      rfl

theorem written_account {path : List Nibble} {nonce : UInt64} {balance : U256} {codeHash : Hash}
    {storage : Node} {storageRoot : Hash} {nref : NodeRef} {st : Bytes}
    (h : Fits (.account path nonce balance codeHash storage storageRoot nref))
    (hst : Written storage st) :
    Written (.account path nonce balance codeHash storage storageRoot nref)
      (5 :: ((UInt8.ofNat path.length :: packPath path) ++
        (leBytes 8 nonce.toNat ++ (be32 balance ++ (codeHash.bytes ++ st))))) := by
  obtain ⟨hp, -, heq⟩ := h
  have hp : path.length ≤ 128 := by omega
  have hbal : BitVec.ofNat 256 (leValue (be32 balance).reverse) = balance := by
    rw [be32, List.reverse_reverse, leValue_leBytes _ _ (by have := balance.isLt; omega)]
    simp
  have hbl : (be32 balance).length = 32 := by simp [be32]
  have hnon : nonce.toNat < 256 ^ 8 := by have := nonce.toNat_lt; omega
  refine ⟨by rw [writeNode, writeNibblePath_ok hp, hst.write]; rfl, ?_, List.cons_ne_nil _ _, ?_, ?_, ?_⟩
  · simp only [List.length_cons, List.length_append, packPath_length, leBytes_length, hbl,
      codeHash.size, hst.size, nodeSize, pathSize]
    omega
  · intro fuel rest hf
    cases fuel with
    | zero => simp at hf
    | succ fuel =>
      have hfs : st.length ≤ fuel := by simp at hf; omega
      rw [List.cons_append, readNode, readU8_cons, ok_bind]
      show (readNibblePath _ >>= _) = _
      simp only [List.append_assoc, readNibblePath_append hp, ok_bind, readLe_append 8 _ _ hnon,
        readBytes_append _ _ _ hbl, readHash_append, hst.read fuel rest hfs]
      show Except.ok (accountNode path (UInt64.ofNat nonce.toNat) _ codeHash storage, rest) = _
      rw [hbal, heq]
      simp
  · rintro (h | h | h) <;> cases h
  · intro buf fuel pos rest hbuf hf
    cases fuel with
    | zero => simp at hf
    | succ fuel =>
      have hfs : st.length ≤ fuel := by simp at hf; omega
      rw [tag_append, List.append_assoc, List.append_assoc, List.append_assoc, List.append_assoc] at hbuf
      have hbuf := drop_append_length (drop_append_length (drop_append_length (drop_append_length
        (drop_append_length hbuf))))
      obtain ⟨l, hl, hlaz, -⟩ := hst.lazily buf fuel _ rest hbuf hfs
      refine ⟨.account path nonce balance codeHash l storageRoot nref, ?_,
        .account path nonce balance codeHash storageRoot nref hlaz, fun b off len r h => by cases h⟩
      have hpath := fun bs => lift_append (readNibblePath_append hp bs)
      have hnonce := fun bs => lift_append (readLe_append 8 nonce.toNat bs hnon)
      have hbalance := fun bs => lift_append (readBytes_append (be32 balance) bs 32 hbl)
      have hcode := fun bs => lift_append (readHash_append codeHash bs)
      rw [List.length_singleton] at hl
      rw [List.cons_append, readLazyNode, lift_tag, ok_bind]
      show (lift readNibblePath _ >>= _) = _
      simp only [List.append_assoc, hpath, ok_bind, hnonce, hbalance, hcode, hl, hbal,
        UInt64.ofNat_toNat]
      -- the stored references are those of the storage as read
      have hacc : accountNode path nonce balance codeHash l =
          .account path nonce balance codeHash l storageRoot nref := by
        unfold accountNode at heq ⊢
        rw [hlaz.hash_eq]
        simp only [Node.account.injEq, true_and] at heq
        rw [heq.1, heq.2]
      rw [hacc]
      simp only [List.length_append, List.length_cons, Nat.add_assoc, Nat.add_comm 1]
      rfl

omit [Keccak] in
theorem tableOf_length {o : Nibble → Option Bytes} {present : Nibble → Bool}
    (h : ∀ i, (o i).isSome = present i) (is : List Nibble) :
    (tableOf o is).length = (is.filter present).length * 4 := table_length h is

omit [Keccak] in
/-- Each child is counted with its table entry. -/
theorem slots_length {c : Nibble → Option Node} {o : Nibble → Option Bytes}
    (h : ∀ i, ((o i).isSome → ((o i).getD []).length + 4 = slotSize (c i)) ∧
      (o i = none → slotSize (c i) = 0)) (is : List Nibble) :
    (tableOf o is).length + (is.flatMap fun i => (o i).getD []).length =
      (is.map fun i => slotSize (c i)).sum := by
  induction is with
  | nil => rfl
  | cons i is ih =>
    have hi := h i
    cases ho : o i with
    | none =>
      have h1 : tableOf o (i :: is) = tableOf o is := by simp [tableOf, ho]
      have h2 : ((i :: is).flatMap fun i => (o i).getD []) = is.flatMap fun i => (o i).getD [] := by
        simp [ho]
      rw [h1, h2, List.map_cons, List.sum_cons, hi.2 ho, ih, Nat.zero_add]
    | some b =>
      have h1 : tableOf o (i :: is) = leBytes 4 b.length ++ tableOf o is := by simp [tableOf, ho]
      have h2 : ((i :: is).flatMap fun i => (o i).getD []) = b ++ is.flatMap fun i => (o i).getD [] := by
        simp [ho]
      have hs := hi.1 (by rw [ho]; rfl)
      rw [ho] at hs
      simp only [Option.getD_some] at hs
      rw [h1, h2, List.map_cons, List.sum_cons, ← hs, ← ih]
      simp only [List.length_append, leBytes_length]
      omega

theorem written_branch {children : Nibble → Option Node} {nref : NodeRef} {o : Nibble → Option Bytes}
    (h : Fits (.branch children nref)) (ho : WrittenSlots children o) :
    Written (.branch children nref) (3 :: (leBytes 2 (bitmap fun i => (children i).isSome) ++
      (writeRef nref ++ (tableOf o (List.finRange 16) ++
        (List.finRange 16).flatMap fun i => (o i).getD [])))) := by
  obtain ⟨hr, hs⟩ := h
  have hmap : ((List.finRange 16).mapM fun i => writeSlot (children i)) =
      .ok ((List.finRange 16).map o) := mapM_ok _ fun i _ => ho.write i
  have hnone : ∀ i, children i = none → (o i).getD [] = [] := by
    intro i hi
    rw [ho.absent i hi]
    rfl
  have hbm : bitmap (fun i => (children i).isSome) < 256 ^ 2 := bitmap_lt _
  have hpres : (fun i : Nibble => (bitmap fun i => (children i).isSome).testBit i.val) =
      fun i => (children i).isSome := by
    funext i
    exact testBit_bitmap _ i
  have hsmall : ∀ i b, o i = some b → b.length < 2 ^ 32 := by
    intro i b hb
    cases hc : children i with
    | none =>
      rw [ho.absent i hc] at hb
      cases hb
    | some c =>
      obtain ⟨w, hw, hwc⟩ := ho.present i c hc
      rw [hb] at hw
      cases hw
      have hsi := hs i
      rw [hc] at hsi
      rw [hwc.size]
      exact hsi.2
  refine ⟨?_, ?_, List.cons_ne_nil _ _, ?_, ?_, ?_⟩
  · rw [writeNode, hmap, ok_bind]
    simp only [List.flatMap_map]
    rfl
  · have hlen := slots_length (c := children) (o := o) (fun i => ?_) (List.finRange 16)
    · simp only [List.length_cons, List.length_append, leBytes_length, writeRef_length, nodeSize]
      omega
    · cases hc : children i with
      | none =>
        rw [ho.absent i hc]
        exact ⟨fun h => (by cases h), fun _ => by rw [slotSize]⟩
      | some c =>
        obtain ⟨w, hw, hwc⟩ := ho.present i c hc
        rw [hw]
        refine ⟨fun _ => ?_, fun h => by cases h⟩
        show w.length + 4 = 4 + nodeSize c
        rw [hwc.size, Nat.add_comm]
  · intro fuel rest hf
    cases fuel with
    | zero => simp at hf
    | succ fuel =>
      have hkids : ∀ i, ((o i).getD []).length ≤ fuel := by
        intro i
        have h1 := length_le_flatMap (w := fun i => (o i).getD []) (List.mem_finRange i)
        simp only [List.length_cons, List.length_append] at hf h1
        omega
      have htab := tableOf_length ho.isSome (List.finRange 16)
      have hslots := readSlots_append (readNode fuel) children (fun i => (o i).getD [])
        (List.finRange 16) (fun i _ c hc rest => by
          obtain ⟨w, hw, hwc⟩ := ho.present i c hc
          have hk := hkids i
          rw [hw] at hk ⊢
          exact hwc.read fuel rest hk) hnone (fun _ => none) rest
      rw [List.cons_append, readNode, readU8_cons, ok_bind]
      show (readLe 2 _ >>= _) = _
      simp only [List.append_assoc, ok_bind, readLe_append 2 _ _ hbm, readRef_append hr.ok, hpres,
        readBytes_append _ _ _ htab, hslots]
      show Except.ok (Node.branch _ nref, rest) = _
      congr 3
      funext i
      cases hc : children i <;> simp
  · intro _
    rw [extractRef, readU8_cons, ok_bind]
    show (readBytes 2 _ >>= _) = _
    simp only [readBytes_append _ _ _ (leBytes_length 2 _), ok_bind, readRef_append hr.ok]
    rfl
  · intro buf fuel pos rest hbuf hf
    cases fuel with
    | zero => simp at hf
    | succ fuel =>
      have hkids : ∀ i, ((o i).getD []).length ≤ fuel := by
        intro i
        have h1 := length_le_flatMap (w := fun i => (o i).getD []) (List.mem_finRange i)
        simp only [List.length_cons, List.length_append] at hf h1
        omega
      rw [tag_append, List.append_assoc, List.append_assoc, List.append_assoc] at hbuf
      have hbuf := drop_append_length (drop_append_length (drop_append_length (drop_append_length hbuf)))
      obtain ⟨ls, hls, hfill⟩ := ho.readLazySlots buf fuel hkids (List.finRange 16) (fun _ => none) _
        rest hbuf
      refine ⟨.branch ls nref, ?_, .branch nref fun i => ?_, fun b off len r h => by cases h⟩
      · have hbits := fun bs => lift_append (readLe_append 2 _ bs hbm)
        have href := fun bs => lift_append (readRef_append hr.ok bs)
        have htab := readTable_append ho.isSome hsmall (List.finRange 16)
        rw [List.length_singleton] at hls
        rw [List.cons_append, readLazyNode, lift_tag, ok_bind]
        show (lift (readLe 2) _ >>= _) = _
        simp only [List.append_assoc, hbits, ok_bind, href, hpres, htab, hls]
        show Except.ok (Node.branch ls nref, Cursor.mk _ rest) = _
        simp only [List.length_append, List.length_cons, Nat.add_assoc, Nat.add_comm 1]
      · cases hc : children i with
        | none =>
          rw [(hfill i).2 (.inr (by rw [hc]; rfl))]
          exact .none
        | some c =>
          have := (hfill i).1 (List.mem_finRange i) (by rw [hc]; rfl)
          rwa [hc] at this

/-- What fits is written, and read both ways. -/
theorem written_of_fits (n : Node) (h : Fits n) : ∃ w, Written n w := by
  induction n using Node.induct with
  | hempty => exact ⟨_, written_empty⟩
  | hleaf path value nref => exact ⟨_, written_leaf h⟩
  | hext path child nref ih =>
    obtain ⟨c, hc⟩ := ih h.2.2
    exact ⟨_, written_extension h hc⟩
  | hover unit len root => exact ⟨_, written_overflow unit len root⟩
  | hacct path nonce balance codeHash storage storageRoot nref ih =>
    obtain ⟨st, hst⟩ := ih h.2.1
    exact ⟨_, written_account h hst⟩
  | hraw buf off len nref => exact absurd h id
  | hbranch children nref ih =>
    have hslot : ∀ i, ∃ o : Option Bytes, writeSlot (children i) = .ok o ∧
        (children i = none → o = none) ∧
        ∀ c, children i = some c → ∃ w, o = some w ∧ Written c w := by
      intro i
      have hsi := h.2 i
      cases hc : children i with
      | none => exact ⟨none, by rw [writeSlot], fun _ => rfl, fun c h => by cases h⟩
      | some c =>
        rw [hc] at hsi
        obtain ⟨w, hw⟩ := ih i c hc hsi.1
        refine ⟨some w, by rw [writeSlot, hw.write]; rfl, fun h => (by cases h), ?_⟩
        rintro c' h
        obtain rfl := Option.some.inj h
        exact ⟨w, rfl, hw⟩
    choose o h1 h2 h3 using hslot
    exact ⟨_, written_branch h ⟨h1, h2, h3⟩⟩

end

end FlatMpt.Lazy
