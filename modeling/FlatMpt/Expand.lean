import FlatMpt.LazyRound

/-!
# Partial expansion

`Lazily` is kept by every expansion, and ends at the node itself.

    parse_raw                 -- one level
    of_expands, expands       -- any number of levels
    record_round_trip         -- the format, full and lazy
-/

namespace FlatMpt.Lazy

open FlatMpt

section
variable [Keccak]

/-- A raw child parses to a lazy form of the same child that is not raw itself. -/
theorem parse_raw {buf : Bytes} {off len : Nat} {nref : NodeRef} {n : Node}
    (h : Lazily (.raw buf off len nref) n) (hn : Fits n) :
    ∃ l, parseNodeLazy buf off len = .ok l ∧ Lazily l n ∧ ∀ b o k r, l ≠ .raw b o k r := by
  cases h with
  | raw _ hbuf hw =>
    obtain ⟨w, hwr⟩ := written_of_fits n hn
    have hweq : (buf.drop off).take len = w := Except.ok.inj (hw.symm.trans hwr.write)
    have hlen : w.length = len := by
      rw [← hweq, List.length_take, List.length_drop]
      omega
    have hdrop : buf.drop off = w ++ (buf.drop off).drop len := by
      rw [← hweq, List.take_append_drop]
    obtain ⟨l, hl, hlaz, hraw⟩ := hwr.lazily buf (buf.length + 1) off _ hdrop (by omega)
    refine ⟨l, ?_, hlaz, hraw⟩
    rw [parseNodeLazy, lazyNodeAt, hdrop, hl, ok_bind]
    show (if off + w.length = off + len then _ else _) = _
    rw [hlen, if_pos rfl]
    rfl

mutual

/-- Expansion leads to lazy forms of the same node. -/
theorem of_expands {l l' n : Node} (he : Expands l l') (hl : Lazily l n) (hn : Fits n) :
    Lazily l' n := by
  match he with
  | .refl _ => exact hl
  | .raw hp he =>
    obtain ⟨l₁, hl₁, hlaz, -⟩ := parse_raw hl hn
    rw [Except.ok.inj (hl₁.symm.trans hp)] at hlaz
    exact of_expands he hlaz hn
  | .extension he =>
    cases hl with
    | extension _ _ hl => exact .extension _ _ (of_expands he hl hn.2.2)
  | .branch he =>
    cases hl with
    | branch _ hl => exact .branch _ fun i => slot_of_expands (he i) (hl i) (hn.2 i)
  | .account he =>
    cases hl with
    | account _ _ _ _ _ _ hl => exact .account _ _ _ _ _ _ (of_expands he hl hn.2.1)

theorem slot_of_expands {l l' n : Option Node} (he : SlotExpands l l') (hl : SlotLazily l n)
    (hn : SlotFits n) : SlotLazily l' n := by
  match he with
  | .none => exact hl
  | .some he =>
    cases hl with
    | some hl => exact .some (of_expands he hl hn.1)

end

/-- A raw node costs one more step than its parsed form. -/
theorem expands_of_parsed {n : Node} (hn : Fits n)
    (h : ∀ l, Lazily l n → (∀ b o k r, l ≠ .raw b o k r) → Expands l n) {l : Node} (hl : Lazily l n) :
    Expands l n := by
  cases l with
  | raw buf off len nref =>
    obtain ⟨l₁, hp, hlaz, hraw⟩ := parse_raw hl hn
    exact .raw hp (h l₁ hlaz hraw)
  | _ => exact h _ hl fun b o k r h => by cases h

/-- A lazy form expands to the node it stands for. -/
theorem Lazily.expands {l n : Node} (hl : Lazily l n) (hn : Fits n) : Expands l n := by
  induction n using Node.induct generalizing l with
  | hempty =>
    refine expands_of_parsed hn (fun l hl hraw => ?_) hl
    cases hl with
    | empty => exact .refl _
    | raw => exact absurd rfl (hraw _ _ _ _)
  | hleaf path value nref =>
    refine expands_of_parsed hn (fun l hl hraw => ?_) hl
    cases hl with
    | leaf => exact .refl _
    | raw => exact absurd rfl (hraw _ _ _ _)
  | hext path child nref ih =>
    refine expands_of_parsed hn (fun l hl hraw => ?_) hl
    cases hl with
    | extension _ _ hc => exact .extension (ih hc hn.2.2)
    | raw => exact absurd rfl (hraw _ _ _ _)
  | hbranch children nref ih =>
    refine expands_of_parsed hn (fun l hl hraw => ?_) hl
    cases hl with
    | raw => exact absurd rfl (hraw _ _ _ _)
    | branch _ hls =>
      refine .branch fun i => ?_
      have hi := hn.2 i
      have hs := hls i
      cases hc : children i with
      | none =>
        rw [hc] at hs
        rw [hs.eq_none]
        exact .none
      | some c =>
        rw [hc] at hs hi
        obtain ⟨lc, hlc, hlaz⟩ := hs.eq_some
        rw [hlc]
        exact .some (ih i c hc hlaz hi.1)
  | hover unit len root =>
    refine expands_of_parsed hn (fun l hl hraw => ?_) hl
    cases hl with
    | overflow => exact .refl _
    | raw => exact absurd rfl (hraw _ _ _ _)
  | hacct path nonce balance codeHash storage storageRoot nref ih =>
    refine expands_of_parsed hn (fun l hl hraw => ?_) hl
    cases hl with
    | account _ _ _ _ _ _ hs => exact .account (ih hs hn.2.1)
    | raw => exact absurd rfl (hraw _ _ _ _)
  | hraw buf off len nref => exact absurd hn id

/-! ## Records -/

/-- What a lazy reader makes of a record: the record itself once its raw children are
expanded, and the same bytes however many of them are. -/
structure ReadsAs (s : DiskSubtree) (payload : Bytes) (l : DiskSubtree) : Prop where
  pfx : l.pfx = s.pfx
  lazily : Lazily l.node s.node
  expands : Expands l.node s.node
  rewrites : ∀ t, Expands l.node t →
    Lazily t s.node ∧ serializeSubtree ⟨l.pfx, t⟩ = .ok payload

/-- The lazy reader on a record somewhere in a buffer. -/
theorem lazySubtreeAt_written {pfx : List Nibble} {n : Node} {w : Bytes} (hpfx : pfx.length ≤ 128)
    (hw : Written n w) {buf rest : Bytes} {off : Nat}
    (hbuf : buf.drop off = (UInt8.ofNat pfx.length :: packPath pfx) ++ (w ++ rest)) :
    ∃ l, lazySubtreeAt buf off =
        .ok (⟨pfx, l⟩, off + ((UInt8.ofNat pfx.length :: packPath pfx) ++ w).length) ∧
      Lazily l n := by
  have hlen := congrArg List.length hbuf
  rw [List.length_drop, List.length_append, List.length_append] at hlen
  obtain ⟨l, hl, hlaz, -⟩ := hw.lazily buf (buf.length + 1) _ rest (drop_append_length hbuf)
    (by omega)
  refine ⟨l, ?_, hlaz⟩
  rw [lazySubtreeAt, hbuf, lift_append (readNibblePath_append hpfx _), ok_bind]
  show (readLazyNode _ _ _ >>= _) = _
  rw [hl, List.length_append, ← Nat.add_assoc]
  rfl

theorem deserializeSubtreeLazy_written {pfx : List Nibble} {n : Node} {w : Bytes}
    (hpfx : pfx.length ≤ 128) (hw : Written n w) :
    ∃ l, deserializeSubtreeLazy ((UInt8.ofNat pfx.length :: packPath pfx) ++ w) = .ok ⟨pfx, l⟩ ∧
      Lazily l n := by
  have hbuf : ((UInt8.ofNat pfx.length :: packPath pfx) ++ w).drop 0 =
      (UInt8.ofNat pfx.length :: packPath pfx) ++ (w ++ []) := by
    rw [List.drop_zero, List.append_nil]
  obtain ⟨l, hl, hlaz⟩ := lazySubtreeAt_written hpfx hw hbuf
  refine ⟨l, ?_, hlaz⟩
  rw [deserializeSubtreeLazy, hl, ok_bind]
  show (if 0 + _ = _ then _ else _) = _
  rw [Nat.zero_add, if_pos rfl]
  rfl

theorem ReadsAs.of_lazily {s : DiskSubtree} {payload : Bytes} {l : Node} (hn : Fits s.node)
    (hs : serializeSubtree s = .ok payload) (hl : Lazily l s.node) : ReadsAs s payload ⟨s.pfx, l⟩ where
  pfx := rfl
  lazily := hl
  expands := hl.expands hn
  rewrites t ht := by
    have hlt := of_expands ht hl hn
    refine ⟨hlt, ?_⟩
    rw [← hs, serializeSubtree, serializeSubtree, hlt.write_eq]

/-- **Record round trip.**  A record the format can hold is written in exactly
`recordSize` bytes, read back as it was, and read lazily at any offset of any buffer
that holds it as a subtree that expands to it; every partial expansion writes the
same bytes. -/
theorem record_round_trip (s : DiskSubtree) (hpfx : s.pfx.length ≤ 128) (hn : Fits s.node) :
    ∃ payload, serializeSubtree s = .ok payload ∧
      payload.length = recordSize s.pfx.length s.node ∧
      deserializeSubtree payload = .ok s ∧
      (∃ l, deserializeSubtreeLazy payload = .ok l ∧ ReadsAs s payload l) ∧
      ∀ before after, ∃ l,
        deserializeSubtreeLazyAt (before ++ payload ++ after) before.length payload.length = .ok l ∧
          ReadsAs s payload l := by
  obtain ⟨pfx, n⟩ := s
  obtain ⟨w, hw⟩ := written_of_fits n hn
  have hs : serializeSubtree ⟨pfx, n⟩ = .ok ((UInt8.ofNat pfx.length :: packPath pfx) ++ w) := by
    rw [serializeSubtree, writeNibblePath_ok hpfx, hw.write]
    rfl
  refine ⟨_, hs, ?_, ?_, ?_, fun before after => ?_⟩
  · rw [List.length_append, path_length, hw.size]
    rfl
  · have hread := hw.read (w.length + 1) [] (by omega)
    rw [List.append_nil] at hread
    rw [deserializeSubtree, readNibblePath_append hpfx, ok_bind]
    show (readNode (w.length + 1) w >>= _) = _
    rw [hread]
    rfl
  · obtain ⟨l, hl, hlaz⟩ := deserializeSubtreeLazy_written hpfx hw
    exact ⟨⟨pfx, l⟩, hl, .of_lazily hn hs hlaz⟩
  · have hbuf : (before ++ ((UInt8.ofNat pfx.length :: packPath pfx) ++ w) ++ after).drop before.length =
        (UInt8.ofNat pfx.length :: packPath pfx) ++ (w ++ after) := by
      rw [List.append_assoc, List.drop_left, List.append_assoc]
    obtain ⟨l, hl, hlaz⟩ := lazySubtreeAt_written hpfx hw hbuf
    refine ⟨⟨pfx, l⟩, ?_, .of_lazily hn hs hlaz⟩
    rw [deserializeSubtreeLazyAt, if_neg (by simp only [List.length_append]; omega), hl, ok_bind]
    show (if _ = _ then _ else _) = _
    rw [if_pos rfl]
    rfl

/-! ## The engine's record nodes -/

mutual

/-- A parsed node as the engine keeps it. -/
def ofNode : FlatMpt.Node → Node
  | .empty => .empty
  | .leaf path value nref => .leaf path value nref
  | .extension path child nref => .extension path (ofNode child) nref
  | .branch children nref => .branch (fun i => ofSlot (children i)) nref
  | .account path nonce balance codeHash storage storageRoot nref =>
    .account path nonce balance codeHash (ofNode storage) storageRoot nref

def ofSlot : Option FlatMpt.Node → Option Node
  | none => none
  | some child => some (ofNode child)

end

theorem hashNode_ofNode (n : FlatMpt.Node) : hashNode (ofNode n) = FlatMpt.hashNode n := by
  cases n <;> rfl

omit [Keccak] in
theorem isSome_ofSlot (o : Option FlatMpt.Node) : (ofSlot o).isSome = o.isSome := by
  cases o <;> rfl

omit [Keccak] in
/-- The engine writes the bytes of this format. -/
theorem writeNode_ofNode (n : FlatMpt.Node) : writeNode (ofNode n) = FlatMpt.writeNode n := by
  induction n using FlatMpt.Node.induct with
  | hempty => rfl
  | hleaf path value nref => rfl
  | hext path child nref ih =>
    rw [ofNode, writeNode, FlatMpt.writeNode, ih]
  | hbranch children nref ih =>
    have hslots : (fun i => writeSlot (ofSlot (children i))) = fun i =>
        FlatMpt.writeSlot (children i) := by
      funext i
      cases hc : children i with
      | none => rfl
      | some c => rw [ofSlot, writeSlot, FlatMpt.writeSlot, ih i c hc]
    rw [ofNode, writeNode, FlatMpt.writeNode, hslots]
    simp only [isSome_ofSlot]
  | hacct path nonce balance codeHash storage storageRoot nref ih =>
    rw [ofNode, writeNode, FlatMpt.writeNode, ih]

/-- A record the engine wrote, read lazily: the same subtree with the same root. -/
theorem lazy_of_record {s : FlatMpt.DiskSubtree} {payload : Bytes} (hpfx : s.pfx.length ≤ 128)
    (hn : Fits (ofNode s.node)) (hs : FlatMpt.serializeSubtree s = .ok payload) :
    ∃ l, deserializeSubtreeLazy payload = .ok ⟨s.pfx, l⟩ ∧ Lazily l (ofNode s.node) ∧
      hashNode l = FlatMpt.hashNode s.node := by
  obtain ⟨w, hw⟩ := written_of_fits _ hn
  have hwrite : FlatMpt.writeNode s.node = .ok w := by rw [← writeNode_ofNode, hw.write]
  rw [FlatMpt.serializeSubtree, writeNibblePath_ok hpfx, hwrite] at hs
  obtain rfl := Except.ok.inj hs
  obtain ⟨l, hl, hlaz⟩ := deserializeSubtreeLazy_written hpfx hw
  exact ⟨l, hl, hlaz, by rw [hlaz.hash_eq, hashNode_ofNode]⟩

/-! ## Values the length field cannot hold -/

/-- A leaf that is read has a value of the length its four bytes gave. -/
theorem readNode_leaf_lt {fuel : Nat} {bs rest : Bytes} {path : List Nibble} {value : Bytes}
    {nref : NodeRef} (h : readNode fuel bs = .ok (.leaf path value nref, rest)) :
    value.length < 2 ^ 32 := by
  cases fuel with
  | zero => cases h
  | succ fuel =>
    unfold readNode at h
    obtain ⟨⟨tag, b⟩, -, h⟩ := bind_ok h
    dsimp only at h
    split at h
    · cases h
    · obtain ⟨⟨p, b1⟩, -, h⟩ := bind_ok h
      obtain ⟨⟨vlen, b2⟩, hv, h⟩ := bind_ok h
      obtain ⟨⟨v, b3⟩, hb, h⟩ := bind_ok h
      obtain ⟨⟨r, b4⟩, -, h⟩ := bind_ok h
      cases h
      have := readLe_lt hv
      unfold readBytes at hb
      split at hb
      · cases hb
      · cases hb
        rw [List.length_take]
        omega
    all_goals
      repeat obtain ⟨⟨_, _⟩, -, h⟩ := bind_ok h
      cases h

/-- A leaf whose value is too long is never read back. -/
theorem long_leaf_lost {pfx path : List Nibble} {value : Bytes} {nref : NodeRef}
    (hv : 2 ^ 32 ≤ value.length) (payload : Bytes) :
    deserializeSubtree payload ≠ .ok ⟨pfx, .leaf path value nref⟩ := by
  intro h
  obtain ⟨⟨p, b⟩, -, h⟩ := bind_ok h
  obtain ⟨⟨n, b'⟩, hn, h⟩ := bind_ok h
  dsimp only at h
  split at h
  · cases h
    exact absurd (readNode_leaf_lt hn) (Nat.not_lt.mpr hv)
  · cases h

end

/-- Two leaves under a branch, one of them with an inline reference. -/
theorem record_round_trip_branch :
    let _ : Keccak := ⟨fun _ => .fill 0⟩
    let s : DiskSubtree := ⟨[1, 2, 3], .branch
      (fun i => if i = 4 then some (.leaf [5] [6, 7] (.inline [8]))
        else if i = 9 then some (.leaf [] [1] (.hash (.fill 1))) else none) (.hash (.fill 2))⟩
    (s.pfx.length ≤ 128 ∧ Fits s.node) ∧
      ∃ payload, serializeSubtree s = .ok payload ∧
        payload.length = recordSize s.pfx.length s.node ∧
        deserializeSubtree payload = .ok s ∧
        (∃ l, deserializeSubtreeLazy payload = .ok l ∧ ReadsAs s payload l) ∧
        ∀ before after, ∃ l,
          deserializeSubtreeLazyAt (before ++ payload ++ after) before.length payload.length = .ok l ∧
            ReadsAs s payload l := by
  intro _ s
  have hpfx : s.pfx.length ≤ 128 := by decide
  have hn : Fits s.node := by
    refine ⟨trivial, fun i => ?_⟩
    dsimp only
    split
    · exact ⟨⟨by decide, by decide, show ([8] : Bytes).length < 32 by decide⟩, by decide⟩
    · split
      · exact ⟨⟨by decide, by decide, trivial⟩, by decide⟩
      · exact trivial
  exact ⟨⟨hpfx, hn⟩, record_round_trip s hpfx hn⟩

/-- A value of 4 GiB is written with its length truncated. -/
theorem long_value_record :
    let _ : Keccak := ⟨fun _ => .fill 0⟩
    let s : DiskSubtree := ⟨[], .leaf [] (List.replicate (2 ^ 32) 0) (.hash (.fill 0))⟩
    (∃ payload, serializeSubtree s = .ok payload) ∧
      ∀ payload, deserializeSubtree payload ≠ .ok s := by
  intro _ s
  exact ⟨⟨_, rfl⟩, long_leaf_lost (by rw [List.length_replicate])⟩

end FlatMpt.Lazy
