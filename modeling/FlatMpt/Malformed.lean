import FlatMpt.Expand
import FlatMpt.Lib.Reader

/-!
# Malformed records

What the readers do with arbitrary bytes.  The full reader and the header scan check every
length before they use it.  The lazy reader takes a length-table entry as it stands: it
slices the buffer there, and a child said to be longer than what is left panics.

    readNode_reads            -- the full reader never panics
    readNode_fuel             -- and its recursion ends
    Overlong                  -- a stored child is said to reach past the buffer
    readLazyNode_panic_iff    -- the lazy reader panics there, and nowhere else
    decoders_panic_iff
-/

namespace FlatMpt.Lazy

open FlatMpt
open Reader

/-- An error that is returned. -/
abbrev Returned (e : Err) : Prop := e ≠ .panic

/-! ## Fields -/

theorem readBytes_reads (len : Nat) : Reads Returned (readBytes len) := by
  intro bs
  unfold readBytes
  split
  · exact .error nofun
  · exact .ok _ (List.drop_suffix _ _)

theorem readU8_reads : Reads Returned readU8 := by
  intro bs
  cases bs with
  | nil => exact .error nofun
  | cons b rest => exact .ok b (List.suffix_cons b rest)

theorem readLe_reads (width : Nat) : Reads Returned (readLe width) :=
  (readBytes_reads width).bind fun b => .pure (leValue b)

theorem readHash_reads : Reads Returned readHash := by
  intro bs
  unfold readHash
  split
  · exact .error fun h => by cases h
  · exact .ok _ (List.drop_suffix _ _)

theorem readNibblePath_reads : Reads Returned readNibblePath := by
  intro bs
  unfold readNibblePath
  refine (readU8_reads bs).bind fun len rest _ _ => ?_
  dsimp only
  split
  · exact .error nofun
  · exact (readBytes_reads _ rest).bind fun packed rest _ _ => .ok _ (List.suffix_refl rest)

theorem skipNibblePath_reads : Reads Returned extractRef.skipNibblePath := by
  intro bs
  unfold extractRef.skipNibblePath
  refine (readU8_reads bs).bind fun len rest _ _ => ?_
  dsimp only
  split
  · exact .error nofun
  · exact (readBytes_reads _ rest).bind fun packed rest _ _ => .ok _ (List.suffix_refl rest)

theorem readRef_reads : Reads Returned readRef := by
  intro bs
  unfold readRef
  refine (readU8_reads bs).bind fun tag rest _ _ => ?_
  dsimp only
  split
  · exact (readHash_reads rest).bind fun h rest _ _ => .ok _ (List.suffix_refl rest)
  · split
    · refine (readU8_reads rest).bind fun len rest _ _ => ?_
      exact (readBytes_reads _ rest).bind fun rlp rest _ _ => .ok _ (List.suffix_refl rest)
    · exact .error nofun

/-! ## The full reader -/

theorem readSlots_reads {read : Reader Node} (h : Reads Returned read) (present : Nibble → Bool)
    (is : List Nibble) :
    ∀ children, Reads Returned (readSlots read present is children) := by
  induction is with
  | nil => exact fun children bs => .ok children (List.suffix_refl bs)
  | cons i is ih =>
    intro children bs
    unfold readSlots
    split
    · exact (h bs).bind fun child rest _ _ => ih _ rest
    · exact ih children bs

section
variable [Keccak]

/-- The full reader never panics. -/
theorem readNode_reads (fuel : Nat) : Reads Returned (readNode fuel) := by
  induction fuel with
  | zero => exact fun bs => .error nofun
  | succ fuel ih =>
    intro bs
    unfold readNode
    refine (readU8_reads bs).bind fun tag rest _ _ => ?_
    dsimp only
    split
    · exact .ok _ (List.suffix_refl rest)
    · refine (readNibblePath_reads rest).bind fun path rest _ _ => ?_
      refine (readLe_reads 4 rest).bind fun vlen rest _ _ => ?_
      refine (readBytes_reads vlen rest).bind fun value rest _ _ => ?_
      exact (readRef_reads rest).bind fun nref rest _ _ => .ok _ (List.suffix_refl rest)
    · refine (readNibblePath_reads rest).bind fun path rest _ _ => ?_
      refine (readRef_reads rest).bind fun nref rest _ _ => ?_
      exact (ih rest).bind fun child rest _ _ => .ok _ (List.suffix_refl rest)
    · refine (readLe_reads 2 rest).bind fun bits rest _ _ => ?_
      refine (readRef_reads rest).bind fun nref rest _ _ => ?_
      refine (readBytes_reads _ rest).bind fun table rest _ _ => ?_
      exact (readSlots_reads ih _ _ _ rest).bind fun children rest _ _ => .ok _ (List.suffix_refl rest)
    · refine (readLe_reads 4 rest).bind fun unit rest _ _ => ?_
      refine (readLe_reads 4 rest).bind fun len rest _ _ => ?_
      exact (readHash_reads rest).bind fun root rest _ _ => .ok _ (List.suffix_refl rest)
    · refine (readNibblePath_reads rest).bind fun path rest _ _ => ?_
      refine (readLe_reads 8 rest).bind fun nonce rest _ _ => ?_
      refine (readBytes_reads 32 rest).bind fun balance rest _ _ => ?_
      refine (readHash_reads rest).bind fun codeHash rest _ _ => ?_
      exact (ih rest).bind fun storage rest _ _ => .ok _ (List.suffix_refl rest)
    · exact .error nofun

end

theorem readU8_ok {bs rest : Bytes} {b : UInt8} (h : readU8 bs = .ok (b, rest)) : bs = b :: rest := by
  cases bs with
  | nil => cases h
  | cons b' bs =>
    cases h
    rfl

theorem readSlots_congr {read read' : Reader Node} (h : Reads Returned read) (present : Nibble → Bool)
    (is : List Nibble) :
    ∀ children bs, (∀ rest, rest <:+ bs → read rest = read' rest) →
      readSlots read present is children bs = readSlots read' present is children bs := by
  induction is with
  | nil => exact fun _ _ _ => rfl
  | cons i is ih =>
    intro children bs hread
    unfold readSlots
    split
    · rw [← hread bs (List.suffix_refl bs)]
      exact (h bs).bind_congr fun child rest hrest _ => ih _ rest fun r hr => hread r (hr.trans hrest)
    · exact ih children bs hread

section
variable [Keccak]

/-- Any fuel that exceeds the input is enough. -/
theorem readNode_fuel (fuel : Nat) :
    ∀ fuel' bs, bs.length < fuel → bs.length < fuel' → readNode fuel bs = readNode fuel' bs := by
  induction fuel with
  | zero => exact fun _ _ h => absurd h (Nat.not_lt_zero _)
  | succ fuel ih =>
    intro fuel' bs hf hf'
    obtain ⟨fuel', rfl⟩ : ∃ f, fuel' = f + 1 := ⟨fuel' - 1, by omega⟩
    unfold readNode
    refine (readU8_reads bs).bind_congr fun tag r htag hread => ?_
    -- every byte after the tag is reached with less input
    have hless : ∀ rest, rest <:+ r → readNode fuel rest = readNode fuel' rest := by
      intro rest hrest
      have hlen := hrest.length_le
      rw [readU8_ok hread, List.length_cons] at hf hf'
      exact ih fuel' rest (by omega) (by omega)
    dsimp only
    split
    · rfl
    · rfl
    · refine (readNibblePath_reads r).bind_congr fun path r₁ h₁ _ => ?_
      refine (readRef_reads r₁).bind_congr fun nref r₂ h₂ _ => ?_
      dsimp only
      rw [hless r₂ (h₂.trans h₁)]
    · refine (readLe_reads 2 r).bind_congr fun bits r₁ h₁ _ => ?_
      refine (readRef_reads r₁).bind_congr fun nref r₂ h₂ _ => ?_
      refine (readBytes_reads _ r₂).bind_congr fun table r₃ h₃ _ => ?_
      dsimp only
      rw [readSlots_congr (readNode_reads fuel) _ _ _ r₃ fun rest h =>
        hless rest (((h.trans h₃).trans h₂).trans h₁)]
    · rfl
    · refine (readNibblePath_reads r).bind_congr fun path r₁ h₁ _ => ?_
      refine (readLe_reads 8 r₁).bind_congr fun nonce r₂ h₂ _ => ?_
      refine (readBytes_reads 32 r₂).bind_congr fun balance r₃ h₃ _ => ?_
      refine (readHash_reads r₃).bind_congr fun codeHash r₄ h₄ _ => ?_
      dsimp only
      rw [hless r₄ (((h₄.trans h₃).trans h₂).trans h₁)]
    · rfl

omit [Keccak] in
theorem not_returned_panic : ¬ Returned .panic := fun h => h rfl

theorem deserializeSubtree_ne_panic (payload : Bytes) : deserializeSubtree payload ≠ .error .panic := by
  unfold deserializeSubtree
  refine (readNibblePath_reads payload).bind_ne not_returned_panic fun pfx rest => ?_
  refine (readNode_reads _ rest).bind_ne not_returned_panic fun node rest => ?_
  dsimp only
  split
  · exact nofun
  · exact nofun

theorem extractRef_ne_panic (bytes : Bytes) : extractRef bytes ≠ .error .panic := by
  unfold extractRef
  refine (readU8_reads bytes).bind_ne not_returned_panic fun tag rest => ?_
  dsimp only
  split
  · exact nofun
  · refine (skipNibblePath_reads rest).bind_ne not_returned_panic fun _ rest => ?_
    refine (readLe_reads 4 rest).bind_ne not_returned_panic fun vlen rest => ?_
    refine (readBytes_reads vlen rest).bind_ne not_returned_panic fun value rest => ?_
    exact (readRef_reads rest).bind_ne not_returned_panic fun nref rest => nofun
  · refine (skipNibblePath_reads rest).bind_ne not_returned_panic fun _ rest => ?_
    exact (readRef_reads rest).bind_ne not_returned_panic fun nref rest => nofun
  · refine (readBytes_reads 2 rest).bind_ne not_returned_panic fun bits rest => ?_
    exact (readRef_reads rest).bind_ne not_returned_panic fun nref rest => nofun
  · refine (readBytes_reads (4 + 4) rest).bind_ne not_returned_panic fun ptr rest => ?_
    exact (readHash_reads rest).bind_ne not_returned_panic fun root rest => nofun
  · exact nofun

omit [Keccak] in
theorem parsePrefix_ne_panic (payload : Bytes) : parsePrefix payload ≠ .error .panic := by
  have h := readNibblePath_reads payload
  unfold parsePrefix
  generalize readNibblePath payload = x at h
  cases h with
  | ok => exact nofun
  | error he =>
    intro heq
    cases heq
    exact he rfl

end

/-! ## The lazy reader's positions -/

/-- A position in the buffer, `lo` or after it. -/
structure Cursor.In (buf : Bytes) (lo : Nat) (c : Cursor) : Prop where
  from_lo : lo ≤ c.pos
  pos_le : c.pos ≤ buf.length
  rest_eq : c.rest = buf.drop c.pos

/-- Every raw child is a slice of the buffer, from `lo` on. -/
inductive Within (buf : Bytes) (lo : Nat) : Node → Prop
  | empty : Within buf lo .empty
  | leaf (path : List Nibble) (value : Bytes) (nref : NodeRef) : Within buf lo (.leaf path value nref)
  | extension (path : List Nibble) {child : Node} (nref : NodeRef) (h : Within buf lo child) :
      Within buf lo (.extension path child nref)
  | branch {children : Nibble → Option Node} (nref : NodeRef)
      (h : ∀ i c, children i = some c → Within buf lo c) : Within buf lo (.branch children nref)
  | overflow (unit len : UInt32) (root : Hash) : Within buf lo (.overflow unit len root)
  | account (path : List Nibble) (nonce : UInt64) (balance : U256) (codeHash : Hash) {storage : Node}
      (storageRoot : Hash) (nref : NodeRef) (h : Within buf lo storage) :
      Within buf lo (.account path nonce balance codeHash storage storageRoot nref)
  | raw {off len : Nat} (nref : NodeRef) (hlo : lo ≤ off) (h : off + len ≤ buf.length) :
      Within buf lo (.raw buf off len nref)

/-- A result that satisfies `Q`, further on in the buffer. -/
inductive Moves (buf : Bytes) (lo : Nat) {α : Type} (Q : α → Prop) (c : Cursor) :
    Except Err (α × Cursor) → Prop
  | ok {a : α} {c' : Cursor} (hs : c'.rest <:+ c.rest) (hin : c'.In buf lo) (hq : Q a) :
      Moves buf lo Q c (.ok (a, c'))
  | error (e : Err) : Moves buf lo Q c (.error e)

namespace Moves

variable {buf : Bytes} {lo : Nat} {α γ : Type} {Q : α → Prop} {c : Cursor} {x : Except Err (α × Cursor)}

/-- From an earlier position. -/
theorem later {c₀ : Cursor} (h : Moves buf lo Q c x) (hs : c.rest <:+ c₀.rest) : Moves buf lo Q c₀ x := by
  cases h with
  | ok hs' hin hq => exact .ok (hs'.trans hs) hin hq
  | error e => exact .error e

theorem bind {R : γ → Prop} {f : α × Cursor → Except Err (γ × Cursor)} (h : Moves buf lo Q c x)
    (hf : ∀ a c', c'.rest <:+ c.rest → c'.In buf lo → Q a → Moves buf lo R c' (f (a, c'))) :
    Moves buf lo R c (x >>= f) := by
  cases h with
  | @ok a c' hs hin hq =>
    exact (hf a c' hs hin hq).later hs
  | error e => exact .error e

theorem bind_congr {δ : Type} {f g : α × Cursor → Except Err δ} (h : Moves buf lo Q c x)
    (hfg : ∀ a c', c'.rest <:+ c.rest → c'.In buf lo → x = .ok (a, c') → f (a, c') = g (a, c')) :
    x >>= f = x >>= g := by
  cases h with
  | ok hs hin _ => exact hfg _ _ hs hin rfl
  | error e => rfl

end Moves

theorem lift_moves {α : Type} {read : Reader α} (h : Reads Returned read) {buf : Bytes} {lo : Nat} {c : Cursor}
    (hc : c.In buf lo) : Moves buf lo (fun _ => True) c (lift read c) := by
  have hr := h c.rest
  unfold lift
  generalize read c.rest = x at hr
  cases hr with
  | error he => exact .error _
  | @ok a rest hs =>
    obtain ⟨w, hw⟩ := hs
    refine .ok ⟨w, hw⟩ ?_ trivial
    have hlen := congrArg List.length hc.rest_eq
    rw [← hw, List.length_append, List.length_drop] at hlen
    refine ⟨hc.from_lo.trans (Nat.le_add_right _ _), ?_, ?_⟩
    · show c.pos + (c.rest.length - rest.length) ≤ _
      rw [← hw, List.length_append]
      have := hc.pos_le
      omega
    · show rest = buf.drop (c.pos + (c.rest.length - rest.length))
      rw [← List.drop_drop, ← hc.rest_eq, ← hw, List.length_append, Nat.add_sub_cancel, List.drop_left]

theorem readTable_moves {buf : Bytes} {lo : Nat} (n : Nat) :
    ∀ {c : Cursor}, c.In buf lo → Moves buf lo (fun _ => True) c (readTable n c) := by
  induction n with
  | zero => exact fun {c} hc => .ok (List.suffix_refl _) hc trivial
  | succ n ih =>
    intro c hc
    unfold readTable
    refine (lift_moves (readLe_reads 4) hc).bind fun len c _ hc _ => ?_
    exact (ih hc).bind fun lens c _ hc _ => .ok (List.suffix_refl _) hc trivial

/-- Past a stored child that fits. -/
theorem Cursor.In.skip {buf : Bytes} {lo : Nat} {c : Cursor} (h : c.In buf lo) {len : Nat}
    (hlen : len ≤ c.rest.length) :
    c.pos + len ≤ buf.length ∧ Cursor.In buf lo ⟨c.pos + len, c.rest.drop len⟩ := by
  have hrest := congrArg List.length h.rest_eq
  rw [List.length_drop] at hrest
  have hfits : c.pos + len ≤ buf.length := by
    have := h.pos_le
    omega
  exact ⟨hfits, h.from_lo.trans (Nat.le_add_right _ _), hfits, by rw [h.rest_eq, List.drop_drop]⟩

theorem Cursor.In.of_succ {buf : Bytes} {lo : Nat} {c : Cursor} (h : c.In buf (lo + 1)) : c.In buf lo :=
  ⟨(Nat.le_succ lo).trans h.from_lo, h.pos_le, h.rest_eq⟩

/-- The tag of a node is stepped over. -/
theorem readU8_moves {buf : Bytes} {lo : Nat} {c : Cursor} (hc : c.In buf lo) :
    Moves buf (lo + 1) (fun _ => True) c (lift readU8 c) := by
  have hmoves := lift_moves readU8_reads hc
  cases hread : lift readU8 c with
  | error e => exact .error e
  | ok r =>
    rw [hread] at hmoves
    cases hmoves with
    | ok hs hin _ =>
      refine .ok hs ⟨?_, hin.pos_le, hin.rest_eq⟩ trivial
      obtain ⟨⟨b, rest⟩, hb, hread⟩ := bind_ok hread
      cases hread
      rw [readU8_ok hb, List.length_cons]
      have := hc.from_lo
      show lo + 1 ≤ c.pos + (rest.length + 1 - rest.length)
      omega

section
variable [Keccak]

/-- Slot by slot, further on and within the buffer. -/
theorem readLazySlots_moves {buf : Bytes} {lo : Nat} {read : LazyReader Node}
    (hread : ∀ {c : Cursor}, c.In buf lo → Moves buf lo (Within buf lo) c (read c)) (present : Nibble → Bool)
    (is : List Nibble) :
    ∀ lens children {c : Cursor}, c.In buf lo → (∀ i n, children i = some n → Within buf lo n) →
      Moves buf lo (fun ns => ∀ i n, ns i = some n → Within buf lo n) c
        (readLazySlots buf read present is lens children c) := by
  induction is with
  | nil => exact fun lens children c hc hw => .ok (List.suffix_refl _) hc hw
  | cons i is ih =>
    intro lens children c hc hw
    -- the slot filled with a node within the buffer
    have hput : ∀ m, Within buf lo m → ∀ j n, Function.update children i (some m) j = some n →
        Within buf lo n := by
      intro m hm j n hn
      by_cases hj : j = i
      · rw [hj, Function.update_self] at hn
        cases hn
        exact hm
      · rw [Function.update_of_ne hj] at hn
        exact hw j n hn
    unfold readLazySlots
    split
    · split
      · exact .error _
      · rename_i tag tail htag
        dsimp only
        split
        · split
          · exact .error _
          · rename_i hlen
            obtain ⟨hfits, hskip⟩ := hc.skip (Nat.not_lt.mp hlen)
            cases hn : extractRef (c.rest.take (lens.headD 0)) with
            | error e => exact .error e
            | ok nref =>
              have hm := ih lens.tail _ hskip (hput _ (.raw nref hc.from_lo hfits))
              rw [ok_bind]
              exact hm.later (List.drop_suffix _ _)
        · refine (hread hc).bind fun child c' _ hc' hchild => ?_
          exact ih _ _ hc' (hput _ hchild)
    · exact ih lens children hc hw

/-- What the lazy reader leaves serialized lies in the buffer, after the tag of the node. -/
theorem readLazyNode_moves {buf : Bytes} {lo : Nat} (fuel : Nat) :
    ∀ {c : Cursor}, c.In buf lo →
      Moves buf (lo + 1) (Within buf (lo + 1)) c (readLazyNode buf fuel c) := by
  induction fuel with
  | zero => exact fun _ => .error _
  | succ fuel ih =>
    intro c hc
    have ih : ∀ {c : Cursor}, c.In buf (lo + 1) →
        Moves buf (lo + 1) (Within buf (lo + 1)) c (readLazyNode buf fuel c) := fun hc => ih hc.of_succ
    unfold readLazyNode
    refine (readU8_moves hc).bind fun tag c _ hc _ => ?_
    dsimp only
    split
    · exact .ok (List.suffix_refl _) hc .empty
    · refine (lift_moves readNibblePath_reads hc).bind fun path c _ hc _ => ?_
      refine (lift_moves (readLe_reads 4) hc).bind fun vlen c _ hc _ => ?_
      refine (lift_moves (readBytes_reads vlen) hc).bind fun value c _ hc _ => ?_
      refine (lift_moves readRef_reads hc).bind fun nref c _ hc _ => ?_
      exact .ok (List.suffix_refl _) hc (.leaf ..)
    · refine (lift_moves readNibblePath_reads hc).bind fun path c _ hc _ => ?_
      refine (lift_moves readRef_reads hc).bind fun nref c _ hc _ => ?_
      exact (ih hc).bind fun child c _ hc h => .ok (List.suffix_refl _) hc (.extension _ _ h)
    · refine (lift_moves (readLe_reads 2) hc).bind fun bits c _ hc _ => ?_
      refine (lift_moves readRef_reads hc).bind fun nref c _ hc _ => ?_
      refine (readTable_moves _ hc).bind fun lens c _ hc _ => ?_
      refine (readLazySlots_moves ih _ _ _ _ hc (fun _ _ h => by cases h)).bind fun children c _ hc h => ?_
      exact .ok (List.suffix_refl _) hc (.branch _ h)
    · refine (lift_moves (readLe_reads 4) hc).bind fun unit c _ hc _ => ?_
      refine (lift_moves (readLe_reads 4) hc).bind fun len c _ hc _ => ?_
      refine (lift_moves readHash_reads hc).bind fun root c _ hc _ => ?_
      exact .ok (List.suffix_refl _) hc (.overflow ..)
    · refine (lift_moves readNibblePath_reads hc).bind fun path c _ hc _ => ?_
      refine (lift_moves (readLe_reads 8) hc).bind fun nonce c _ hc _ => ?_
      refine (lift_moves (readBytes_reads 32) hc).bind fun balance c _ hc _ => ?_
      refine (lift_moves readHash_reads hc).bind fun codeHash c _ hc _ => ?_
      exact (ih hc).bind fun storage c _ hc h => .ok (List.suffix_refl _) hc (.account _ _ _ _ _ _ h)
    · exact .error _

/-- Slots read alike where the nodes are. -/
theorem readLazySlots_congr {buf : Bytes} {lo : Nat} {read read' : LazyReader Node}
    (hread : ∀ {c : Cursor}, c.In buf lo → Moves buf lo (Within buf lo) c (read c)) (present : Nibble → Bool)
    (is : List Nibble) :
    ∀ lens children {c : Cursor}, c.In buf lo →
      (∀ c' : Cursor, c'.In buf lo → c'.rest <:+ c.rest → read c' = read' c') →
      readLazySlots buf read present is lens children c =
        readLazySlots buf read' present is lens children c := by
  induction is with
  | nil => exact fun _ _ _ _ _ => rfl
  | cons i is ih =>
    intro lens children c hc heq
    unfold readLazySlots
    split
    · split
      · rfl
      · dsimp only
        split
        · split
          · rfl
          · rename_i hlen
            obtain ⟨-, hskip⟩ := hc.skip (Nat.not_lt.mp hlen)
            refine congrArg _ (funext fun nref => ?_)
            exact ih _ _ hskip fun c' hc' hs => heq c' hc' (hs.trans (List.drop_suffix _ _))
        · rw [← heq c hc (List.suffix_refl _)]
          refine (hread hc).bind_congr fun child c' hs hc' _ => ?_
          exact ih _ _ hc' fun c'' hc'' hs' => heq c'' hc'' (hs'.trans hs)
    · exact ih lens children hc heq

/-- Any fuel that exceeds what is left is enough. -/
theorem readLazyNode_fuel {buf : Bytes} {lo : Nat} (fuel : Nat) :
    ∀ fuel' {c : Cursor}, c.In buf lo → c.rest.length < fuel → c.rest.length < fuel' →
      readLazyNode buf fuel c = readLazyNode buf fuel' c := by
  induction fuel with
  | zero => exact fun _ _ _ h => absurd h (Nat.not_lt_zero _)
  | succ fuel ih =>
    intro fuel' c hc hf hf'
    obtain ⟨fuel', rfl⟩ : ∃ f, fuel' = f + 1 := ⟨fuel' - 1, by omega⟩
    unfold readLazyNode
    refine (readU8_moves hc).bind_congr fun tag c₁ _ hc₁ hread => ?_
    -- every position after the tag is reached with less left
    have hshort : c₁.rest.length < c.rest.length := by
      unfold lift at hread
      obtain ⟨⟨b, rest⟩, hb, hread⟩ := bind_ok hread
      cases hread
      rw [readU8_ok hb, List.length_cons]
      exact Nat.lt_succ_self _
    have hless : ∀ c' : Cursor, c'.In buf (lo + 1) → c'.rest <:+ c₁.rest →
        readLazyNode buf fuel c' = readLazyNode buf fuel' c' := by
      intro c' hc' hs
      have hlen := hs.length_le
      exact ih fuel' hc'.of_succ (by omega) (by omega)
    dsimp only
    split
    · rfl
    · rfl
    · refine (lift_moves readNibblePath_reads hc₁).bind_congr fun path c₂ h₂ hc₂ _ => ?_
      refine (lift_moves readRef_reads hc₂).bind_congr fun nref c₃ h₃ hc₃ _ => ?_
      dsimp only
      rw [hless c₃ hc₃ (h₃.trans h₂)]
    · refine (lift_moves (readLe_reads 2) hc₁).bind_congr fun bits c₂ h₂ hc₂ _ => ?_
      refine (lift_moves readRef_reads hc₂).bind_congr fun nref c₃ h₃ hc₃ _ => ?_
      refine (readTable_moves _ hc₃).bind_congr fun lens c₄ h₄ hc₄ _ => ?_
      dsimp only
      rw [readLazySlots_congr (fun hc => readLazyNode_moves fuel hc.of_succ) _ _ _ _ hc₄ fun c' hc' hs =>
        hless c' hc' (((hs.trans h₄).trans h₃).trans h₂)]
    · rfl
    · refine (lift_moves readNibblePath_reads hc₁).bind_congr fun path c₂ h₂ hc₂ _ => ?_
      refine (lift_moves (readLe_reads 8) hc₂).bind_congr fun nonce c₃ h₃ hc₃ _ => ?_
      refine (lift_moves (readBytes_reads 32) hc₃).bind_congr fun balance c₄ h₄ hc₄ _ => ?_
      refine (lift_moves readHash_reads hc₄).bind_congr fun codeHash c₅ h₅ hc₅ _ => ?_
      dsimp only
      rw [hless c₅ hc₅ (((h₅.trans h₄).trans h₃).trans h₂)]
    · rfl

/-! ## Overlong children -/

/-- A length table of `n` entries. -/
inductive Table : Nat → Bytes → List Nat → Bytes → Prop
  | nil (bs : Bytes) : Table 0 bs [] bs
  | cons {n len : Nat} {lens : List Nat} {bs r rest : Bytes} (h : readLe 4 bs = .ok (len, r))
      (ht : Table n r lens rest) : Table (n + 1) bs (len :: lens) rest

/-- The children of a branch. -/
def childCount (bits : Nat) : Nat := ((List.finRange 16).filter fun i => bits.testBit i.val).length

/-- A leaf, an extension or a branch comes next. -/
def stored : Bytes → Bool
  | tag :: _ => tag = 1 ∨ tag = 2 ∨ tag = 3
  | [] => false

mutual

/-- A node as the lazy reader takes it in, and the bytes after it. -/
inductive Spine : Bytes → Bytes → Prop
  | empty (rest : Bytes) : Spine (0 :: rest) rest
  | leaf {bs r₁ r₂ r₃ rest value : Bytes} {path : List Nibble} {vlen : Nat} {nref : NodeRef}
      (h₁ : readNibblePath bs = .ok (path, r₁)) (h₂ : readLe 4 r₁ = .ok (vlen, r₂))
      (h₃ : readBytes vlen r₂ = .ok (value, r₃)) (h₄ : readRef r₃ = .ok (nref, rest)) :
      Spine (1 :: bs) rest
  | extension {bs r₁ r₂ rest : Bytes} {path : List Nibble} {nref : NodeRef}
      (h₁ : readNibblePath bs = .ok (path, r₁)) (h₂ : readRef r₁ = .ok (nref, r₂))
      (h : Spine r₂ rest) : Spine (2 :: bs) rest
  | branch {bs r₁ r₂ r₃ rest : Bytes} {bits : Nat} {nref : NodeRef} {lens : List Nat}
      (h₁ : readLe 2 bs = .ok (bits, r₁)) (h₂ : readRef r₁ = .ok (nref, r₂))
      (h₃ : Table (childCount bits) r₂ lens r₃) (h : SpineSlots lens r₃ rest) : Spine (3 :: bs) rest
  | overflow {bs r₁ r₂ rest : Bytes} {unit len : Nat} {root : Hash}
      (h₁ : readLe 4 bs = .ok (unit, r₁)) (h₂ : readLe 4 r₁ = .ok (len, r₂))
      (h₃ : readHash r₂ = .ok (root, rest)) : Spine (4 :: bs) rest
  | account {bs r₁ r₂ r₃ r₄ rest balance : Bytes} {path : List Nibble} {nonce : Nat} {codeHash : Hash}
      (h₁ : readNibblePath bs = .ok (path, r₁)) (h₂ : readLe 8 r₁ = .ok (nonce, r₂))
      (h₃ : readBytes 32 r₂ = .ok (balance, r₃)) (h₄ : readHash r₃ = .ok (codeHash, r₄))
      (h : Spine r₄ rest) : Spine (5 :: bs) rest

/-- Children with these table entries: stored ones are stepped over. -/
inductive SpineSlots : List Nat → Bytes → Bytes → Prop
  | nil (bs : Bytes) : SpineSlots [] bs bs
  | stored {len : Nat} {lens : List Nat} {bs rest : Bytes} {nref : NodeRef} (hs : stored bs = true)
      (hlen : len ≤ bs.length) (href : extractRef (bs.take len) = .ok nref)
      (h : SpineSlots lens (bs.drop len) rest) : SpineSlots (len :: lens) bs rest
  | parsed {len : Nat} {lens : List Nat} {bs r rest : Bytes} (hs : stored bs = false) (h : Spine bs r)
      (hrest : SpineSlots lens r rest) : SpineSlots (len :: lens) bs rest

end

mutual

/-- The reader comes to a stored child said to be longer than the bytes left. -/
inductive Overlong : Bytes → Prop
  | extension {bs r₁ r₂ : Bytes} {path : List Nibble} {nref : NodeRef}
      (h₁ : readNibblePath bs = .ok (path, r₁)) (h₂ : readRef r₁ = .ok (nref, r₂))
      (h : Overlong r₂) : Overlong (2 :: bs)
  | branch {bs r₁ r₂ r₃ : Bytes} {bits : Nat} {nref : NodeRef} {lens : List Nat}
      (h₁ : readLe 2 bs = .ok (bits, r₁)) (h₂ : readRef r₁ = .ok (nref, r₂))
      (h₃ : Table (childCount bits) r₂ lens r₃) (h : OverlongSlots lens r₃) : Overlong (3 :: bs)
  | account {bs r₁ r₂ r₃ r₄ balance : Bytes} {path : List Nibble} {nonce : Nat} {codeHash : Hash}
      (h₁ : readNibblePath bs = .ok (path, r₁)) (h₂ : readLe 8 r₁ = .ok (nonce, r₂))
      (h₃ : readBytes 32 r₂ = .ok (balance, r₃)) (h₄ : readHash r₃ = .ok (codeHash, r₄))
      (h : Overlong r₄) : Overlong (5 :: bs)

inductive OverlongSlots : List Nat → Bytes → Prop
  | here {len : Nat} (lens : List Nat) {bs : Bytes} (hs : stored bs = true) (hlen : bs.length < len) :
      OverlongSlots (len :: lens) bs
  | stored {len : Nat} {lens : List Nat} {bs : Bytes} {nref : NodeRef} (hs : stored bs = true)
      (hlen : len ≤ bs.length) (href : extractRef (bs.take len) = .ok nref)
      (h : OverlongSlots lens (bs.drop len)) : OverlongSlots (len :: lens) bs
  | inside {len : Nat} (lens : List Nat) {bs : Bytes} (hs : stored bs = false) (h : Overlong bs) :
      OverlongSlots (len :: lens) bs
  | parsed {len : Nat} {lens : List Nat} {bs r : Bytes} (hs : stored bs = false) (h : Spine bs r)
      (hrest : OverlongSlots lens r) : OverlongSlots (len :: lens) bs

end

/-- A whole record, after its prefix. -/
inductive OverlongRecord : Bytes → Prop
  | intro {bs rest : Bytes} {pfx : List Nibble} (hp : readNibblePath bs = .ok (pfx, rest))
      (h : Overlong rest) : OverlongRecord bs

/-! ## What the lazy reader meets -/

/-- Taken in, panicked on an overlong child, or refused. -/
inductive Meets {α : Type} (spine : Bytes → Prop) (overlong : Prop) : Except Err (α × Cursor) → Prop
  | ok {a : α} {c : Cursor} (h : spine c.rest) : Meets spine overlong (.ok (a, c))
  | panic (h : overlong) : Meets spine overlong (.error .panic)
  | error {e : Err} (h : Returned e) : Meets spine overlong (.error e)

omit [Keccak] in
theorem Meets.mono {α : Type} {spine spine' : Bytes → Prop} {overlong overlong' : Prop}
    {x : Except Err (α × Cursor)} (h : Meets spine overlong x) (hs : ∀ rest, spine rest → spine' rest)
    (ho : overlong → overlong') : Meets spine' overlong' x := by
  cases h with
  | ok h => exact .ok (hs _ h)
  | panic h => exact .panic (ho h)
  | error h => exact .error h

omit [Keccak] in
theorem Meets.bind {α γ : Type} {spine spine' : Bytes → Prop} {overlong overlong' : Prop}
    {x : Except Err (α × Cursor)} {f : α × Cursor → Except Err (γ × Cursor)}
    (h : Meets spine overlong x) (ho : overlong → overlong')
    (hf : ∀ a c', spine c'.rest → Meets spine' overlong' (f (a, c'))) :
    Meets spine' overlong' (x >>= f) := by
  cases h with
  | ok h => exact hf _ _ h
  | panic h => exact .panic (ho h)
  | error h => exact .error h

omit [Keccak] in
theorem lift_meets {α γ : Type} {read : Reader α} (hr : Reads Returned read) {c : Cursor}
    {spine : Bytes → Prop} {overlong : Prop} {f : α × Cursor → Except Err (γ × Cursor)}
    (h : ∀ a c', read c.rest = .ok (a, c'.rest) → Meets spine overlong (f (a, c'))) :
    Meets spine overlong (lift read c >>= f) := by
  have hres := hr c.rest
  unfold lift
  cases hx : read c.rest with
  | error e =>
    rw [hx] at hres
    exact .error hres.of_error
  | ok r => exact h r.1 ⟨_, r.2⟩ hx

omit [Keccak] in
theorem readTable_meets {γ : Type} {spine : Bytes → Prop} {overlong : Prop} (n : Nat) :
    ∀ {c : Cursor} {f : List Nat × Cursor → Except Err (γ × Cursor)},
      (∀ lens c', Table n c.rest lens c'.rest → Meets spine overlong (f (lens, c'))) →
      Meets spine overlong (readTable n c >>= f) := by
  induction n with
  | zero => exact fun h => h [] _ (.nil _)
  | succ n ih =>
    intro c f h
    unfold readTable
    rw [bind_assoc]
    refine lift_meets (readLe_reads 4) fun len c₁ h₁ => ?_
    dsimp only
    rw [bind_assoc]
    exact ih fun lens c' ht => h (len :: lens) c' (.cons h₁ ht)

omit [Keccak] in
theorem Table.length_eq {n : Nat} {bs rest : Bytes} {lens : List Nat} (h : Table n bs lens rest) :
    lens.length = n := by
  induction h with
  | nil => rfl
  | cons _ _ ih => rw [List.length_cons, ih]

theorem readLazySlots_meets {buf : Bytes} {read : LazyReader Node}
    (hread : ∀ c : Cursor, Meets (Spine c.rest) (Overlong c.rest) (read c)) (present : Nibble → Bool)
    (is : List Nibble) :
    ∀ lens children (c : Cursor), lens.length = (is.filter present).length →
      Meets (SpineSlots lens c.rest) (OverlongSlots lens c.rest)
        (readLazySlots buf read present is lens children c) := by
  induction is with
  | nil =>
    intro lens children c hlens
    obtain rfl := List.eq_nil_of_length_eq_zero hlens
    exact .ok (.nil _)
  | cons i is ih =>
    intro lens children c hlens
    unfold readLazySlots
    split
    · rename_i hi
      rw [List.filter_cons_of_pos hi, List.length_cons] at hlens
      obtain ⟨len, lens, rfl⟩ := List.exists_cons_of_length_eq_add_one hlens
      have hlens := Nat.succ.inj hlens
      split
      · exact .error nofun
      · rename_i tag tail hrest
        dsimp only [List.headD_cons, List.tail_cons]
        split
        · rename_i htag
          have hs : stored c.rest = true := by
            rw [hrest]
            exact decide_eq_true htag
          split
          · rename_i hlong
            exact .panic (.here lens hs hlong)
          · rename_i hlong
            have hlen := Nat.not_lt.mp hlong
            cases href : extractRef (c.rest.take len) with
            | error e =>
              refine .error fun he => ?_
              rw [he] at href
              exact extractRef_ne_panic _ href
            | ok nref =>
              rw [ok_bind]
              exact (ih lens _ ⟨c.pos + len, c.rest.drop len⟩ hlens).mono
                (fun rest h => .stored hs hlen href h) (.stored hs hlen href)
        · rename_i htag
          have hs : stored c.rest = false := by
            rw [hrest]
            exact decide_eq_false htag
          exact (hread c).bind (.inside lens hs) fun child c' h =>
            (ih lens _ c' hlens).mono (fun rest hrest => .parsed hs h hrest) (.parsed hs h)
    · rename_i hi
      rw [List.filter_cons_of_neg hi] at hlens
      exact ih lens children c hlens

theorem readLazyNode_meets (buf : Bytes) (fuel : Nat) :
    ∀ c : Cursor, Meets (Spine c.rest) (Overlong c.rest) (readLazyNode buf fuel c) := by
  induction fuel with
  | zero => exact fun _ => .error nofun
  | succ fuel ih =>
    intro c
    unfold readLazyNode
    refine lift_meets readU8_reads fun tag c₀ h₀ => ?_
    rw [readU8_ok h₀]
    dsimp only
    split
    · exact .ok (.empty _)
    · refine lift_meets readNibblePath_reads fun path c₁ h₁ => ?_
      refine lift_meets (readLe_reads 4) fun vlen c₂ h₂ => ?_
      refine lift_meets (readBytes_reads vlen) fun value c₃ h₃ => ?_
      exact lift_meets readRef_reads fun nref c₄ h₄ => .ok (.leaf h₁ h₂ h₃ h₄)
    · refine lift_meets readNibblePath_reads fun path c₁ h₁ => ?_
      refine lift_meets readRef_reads fun nref c₂ h₂ => ?_
      exact (ih c₂).bind (.extension h₁ h₂) fun child c₃ h => .ok (.extension h₁ h₂ h)
    · refine lift_meets (readLe_reads 2) fun bits c₁ h₁ => ?_
      refine lift_meets readRef_reads fun nref c₂ h₂ => ?_
      refine readTable_meets _ fun lens c₃ h₃ => ?_
      exact (readLazySlots_meets ih _ _ lens _ c₃ h₃.length_eq).bind (.branch h₁ h₂ h₃)
        fun children c₄ h => .ok (.branch h₁ h₂ h₃ h)
    · refine lift_meets (readLe_reads 4) fun unit c₁ h₁ => ?_
      refine lift_meets (readLe_reads 4) fun len c₂ h₂ => ?_
      exact lift_meets readHash_reads fun root c₃ h₃ => .ok (.overflow h₁ h₂ h₃)
    · refine lift_meets readNibblePath_reads fun path c₁ h₁ => ?_
      refine lift_meets (readLe_reads 8) fun nonce c₂ h₂ => ?_
      refine lift_meets (readBytes_reads 32) fun balance c₃ h₃ => ?_
      refine lift_meets readHash_reads fun codeHash c₄ h₄ => ?_
      exact (ih c₄).bind (.account h₁ h₂ h₃ h₄) fun storage c₅ h => .ok (.account h₁ h₂ h₃ h₄ h)
    · exact .error nofun

/-! ## All of them are met -/

/-- A value, with these bytes left. -/
inductive Leaves {α : Type} (rest : Bytes) : Except Err (α × Cursor) → Prop
  | intro (a : α) (pos : Nat) : Leaves rest (.ok (a, ⟨pos, rest⟩))

omit [Keccak] in
theorem Leaves.bind {α γ : Type} {rest rest' : Bytes} {x : Except Err (α × Cursor)}
    {f : α × Cursor → Except Err (γ × Cursor)} (h : Leaves rest x)
    (hf : ∀ a pos, Leaves rest' (f (a, ⟨pos, rest⟩))) : Leaves rest' (x >>= f) := by
  cases h with
  | intro a pos => exact hf a pos

omit [Keccak] in
theorem lift_eq {α : Type} {read : Reader α} {bs rest : Bytes} {a : α} (h : read bs = .ok (a, rest))
    (pos : Nat) : lift read ⟨pos, bs⟩ = .ok (a, ⟨pos + (bs.length - rest.length), rest⟩) := by
  unfold lift
  rw [h]
  rfl

omit [Keccak] in
theorem Table.bind_readTable {γ : Type} {P : Except Err γ → Prop} {n : Nat} {bs rest : Bytes}
    {lens : List Nat} (h : Table n bs lens rest) :
    ∀ {f : List Nat × Cursor → Except Err γ} (pos : Nat), (∀ pos', P (f (lens, ⟨pos', rest⟩))) →
      P (readTable n ⟨pos, bs⟩ >>= f) := by
  induction h with
  | nil => exact fun pos hf => hf pos
  | cons h _ ih =>
    intro f pos hf
    rw [readTable, lift_eq h, ok_bind]
    show P ((readTable _ _ >>= _) >>= f)
    rw [bind_assoc]
    exact ih _ fun pos' => hf pos'

omit [Keccak] in
theorem Table.length_le {n : Nat} {bs rest : Bytes} {lens : List Nat} (h : Table n bs lens rest) :
    rest.length ≤ bs.length := by
  induction h with
  | nil => exact le_rfl
  | cons h _ ih => exact ih.trans ((readLe_reads 4).left_le h)

theorem readLazySlots_absent (buf : Bytes) (read : LazyReader Node) (present : Nibble → Bool)
    (is : List Nibble) (h : (is.filter present).length = 0) (lens : List Nat)
    (children : Nibble → Option Node) (c : Cursor) :
    readLazySlots buf read present is lens children c = .ok (children, c) := by
  induction is with
  | nil => rfl
  | cons i is ih =>
    by_cases hi : present i = true
    · rw [List.filter_cons_of_pos hi] at h
      cases h
    · rw [List.filter_cons_of_neg hi] at h
      rw [readLazySlots, if_neg hi, ih h]

/-- On to the next child that is present. -/
theorem readLazySlots_next (buf : Bytes) (read : LazyReader Node) (present : Nibble → Bool)
    (is : List Nibble) {k : Nat} (h : (is.filter present).length = k + 1) :
    ∃ i is', present i = true ∧ (is'.filter present).length = k ∧ ∀ lens children c,
      readLazySlots buf read present is lens children c =
        readLazySlots buf read present (i :: is') lens children c := by
  induction is with
  | nil => cases h
  | cons i is ih =>
    by_cases hi : present i = true
    · rw [List.filter_cons_of_pos hi] at h
      exact ⟨i, is, hi, Nat.succ.inj h, fun _ _ _ => rfl⟩
    · rw [List.filter_cons_of_neg hi] at h
      obtain ⟨j, is', hj, hk, heq⟩ := ih h
      refine ⟨j, is', hj, hk, fun lens children c => ?_⟩
      rw [readLazySlots, if_neg hi, heq]

section
variable {buf : Bytes} {read : LazyReader Node} {present : Nibble → Bool} {i : Nibble} {is : List Nibble}
  {len : Nat} {lens : List Nat} {children : Nibble → Option Node} {pos : Nat} {bs : Bytes}

/-- A stored child, stepped over or said to be too long. -/
theorem readLazySlots_stored (hi : present i = true) (hs : stored bs = true) :
    readLazySlots buf read present (i :: is) (len :: lens) children ⟨pos, bs⟩ =
      if bs.length < len then .error .panic
      else extractRef (bs.take len) >>= fun nref =>
        readLazySlots buf read present is lens (Function.update children i (some (.raw buf pos len nref)))
          ⟨pos + len, bs.drop len⟩ := by
  cases bs with
  | nil => cases hs
  | cons tag bs =>
    rw [readLazySlots, if_pos hi]
    exact if_pos (of_decide_eq_true hs)

/-- Any other child is read. -/
theorem readLazySlots_parsed (hi : present i = true) (hs : stored bs = false) (hne : bs ≠ []) :
    readLazySlots buf read present (i :: is) (len :: lens) children ⟨pos, bs⟩ =
      read ⟨pos, bs⟩ >>= fun r =>
        readLazySlots buf read present is lens (Function.update children i (some r.1)) r.2 := by
  cases bs with
  | nil => exact absurd rfl hne
  | cons tag bs =>
    rw [readLazySlots, if_pos hi]
    exact if_neg (of_decide_eq_false hs)

end

theorem Spine.ne_nil {bs rest : Bytes} (h : Spine bs rest) : bs ≠ [] := by
  cases h <;> exact List.cons_ne_nil _ _

theorem Overlong.ne_nil {bs : Bytes} (h : Overlong bs) : bs ≠ [] := by
  cases h <;> exact List.cons_ne_nil _ _

mutual

theorem Spine.length_le {bs rest : Bytes} (h : Spine bs rest) : rest.length ≤ bs.length := by
  match h with
  | .empty rest => exact Nat.le_succ _
  | .leaf h₁ h₂ h₃ h₄ =>
    have hl₁ := readNibblePath_reads.left_le h₁
    have hl₂ := (readLe_reads 4).left_le h₂
    have hl₃ := (readBytes_reads _).left_le h₃
    have hl₄ := readRef_reads.left_le h₄
    rw [List.length_cons]
    omega
  | .extension h₁ h₂ h =>
    have hl₁ := readNibblePath_reads.left_le h₁
    have hl₂ := readRef_reads.left_le h₂
    have hl := h.length_le
    rw [List.length_cons]
    omega
  | .branch h₁ h₂ h₃ h =>
    have hl₁ := (readLe_reads 2).left_le h₁
    have hl₂ := readRef_reads.left_le h₂
    have hl₃ := h₃.length_le
    have hl := h.length_le
    rw [List.length_cons]
    omega
  | .overflow h₁ h₂ h₃ =>
    have hl₁ := (readLe_reads 4).left_le h₁
    have hl₂ := (readLe_reads 4).left_le h₂
    have hl₃ := readHash_reads.left_le h₃
    rw [List.length_cons]
    omega
  | .account h₁ h₂ h₃ h₄ h =>
    have hl₁ := readNibblePath_reads.left_le h₁
    have hl₂ := (readLe_reads 8).left_le h₂
    have hl₃ := (readBytes_reads 32).left_le h₃
    have hl₄ := readHash_reads.left_le h₄
    have hl := h.length_le
    rw [List.length_cons]
    omega

theorem SpineSlots.length_le {lens : List Nat} {bs rest : Bytes} (h : SpineSlots lens bs rest) :
    rest.length ≤ bs.length := by
  match h with
  | .nil bs => exact le_rfl
  | .stored _ _ _ h =>
    have hl := h.length_le
    rw [List.length_drop] at hl
    omega
  | .parsed _ h hrest =>
    have hl := h.length_le
    have hl' := hrest.length_le
    omega

end

mutual

theorem Spine.reads {bs rest : Bytes} (h : Spine bs rest) :
    ∀ buf fuel pos, bs.length < fuel → Leaves rest (readLazyNode buf fuel ⟨pos, bs⟩) := by
  intro buf fuel pos hf
  obtain ⟨fuel, rfl⟩ : ∃ f, fuel = f + 1 := ⟨fuel - 1, by omega⟩
  match h with
  | .empty rest =>
    rw [readLazyNode, lift_tag, ok_bind]
    exact ⟨_, _⟩
  | .leaf h₁ h₂ h₃ h₄ =>
    rw [readLazyNode, lift_tag, ok_bind]
    show Leaves _ (lift readNibblePath _ >>= _)
    simp only [lift_eq h₁, lift_eq h₂, lift_eq h₃, lift_eq h₄, ok_bind]
    exact ⟨_, _⟩
  | .extension h₁ h₂ h =>
    have hl₁ := readNibblePath_reads.left_le h₁
    have hl₂ := readRef_reads.left_le h₂
    rw [List.length_cons] at hf
    rw [readLazyNode, lift_tag, ok_bind]
    show Leaves _ (lift readNibblePath _ >>= _)
    simp only [lift_eq h₁, lift_eq h₂, ok_bind]
    exact (h.reads buf fuel _ (by omega)).bind fun child pos => ⟨_, _⟩
  | .branch h₁ h₂ h₃ h =>
    have hl₁ := (readLe_reads 2).left_le h₁
    have hl₂ := readRef_reads.left_le h₂
    have hl₃ := h₃.length_le
    rw [List.length_cons] at hf
    rw [readLazyNode, lift_tag, ok_bind]
    show Leaves _ (lift (readLe 2) _ >>= _)
    simp only [lift_eq h₁, lift_eq h₂, ok_bind]
    refine h₃.bind_readTable _ fun pos => ?_
    exact (h.reads buf fuel pos _ _ _ h₃.length_eq.symm (by omega)).bind fun children pos => ⟨_, _⟩
  | .overflow h₁ h₂ h₃ =>
    rw [readLazyNode, lift_tag, ok_bind]
    show Leaves _ (lift (readLe 4) _ >>= _)
    simp only [lift_eq h₁, lift_eq h₂, lift_eq h₃, ok_bind]
    exact ⟨_, _⟩
  | .account h₁ h₂ h₃ h₄ h =>
    have hl₁ := readNibblePath_reads.left_le h₁
    have hl₂ := (readLe_reads 8).left_le h₂
    have hl₃ := (readBytes_reads 32).left_le h₃
    have hl₄ := readHash_reads.left_le h₄
    rw [List.length_cons] at hf
    rw [readLazyNode, lift_tag, ok_bind]
    show Leaves _ (lift readNibblePath _ >>= _)
    simp only [lift_eq h₁, lift_eq h₂, lift_eq h₃, lift_eq h₄, ok_bind]
    exact (h.reads buf fuel _ (by omega)).bind fun storage pos => ⟨_, _⟩

theorem SpineSlots.reads {lens : List Nat} {bs rest : Bytes} (h : SpineSlots lens bs rest) :
    ∀ buf fuel pos present is children, (is.filter present).length = lens.length → bs.length < fuel →
      Leaves rest (readLazySlots buf (readLazyNode buf fuel) present is lens children ⟨pos, bs⟩) := by
  intro buf fuel pos present is children hlen hf
  match h with
  | .nil bs =>
    rw [readLazySlots_absent _ _ _ _ hlen]
    exact ⟨_, _⟩
  | .stored hs hl href h =>
    obtain ⟨i, is', hi, hk, heq⟩ := readLazySlots_next buf (readLazyNode buf fuel) present is hlen
    rw [heq, readLazySlots_stored hi hs, if_neg (Nat.not_lt.mpr hl), href, ok_bind]
    exact h.reads buf fuel _ present is' _ hk (by rw [List.length_drop]; omega)
  | .parsed hs h hrest =>
    obtain ⟨i, is', hi, hk, heq⟩ := readLazySlots_next buf (readLazyNode buf fuel) present is hlen
    have hle := h.length_le
    rw [heq, readLazySlots_parsed hi hs h.ne_nil]
    exact (h.reads buf fuel pos hf).bind fun child pos =>
      hrest.reads buf fuel pos present is' _ hk (by omega)

end

mutual

theorem Overlong.panics {bs : Bytes} (h : Overlong bs) :
    ∀ buf fuel pos, bs.length < fuel → readLazyNode buf fuel ⟨pos, bs⟩ = .error .panic := by
  intro buf fuel pos hf
  obtain ⟨fuel, rfl⟩ : ∃ f, fuel = f + 1 := ⟨fuel - 1, by omega⟩
  match h with
  | .extension h₁ h₂ h =>
    have hl₁ := readNibblePath_reads.left_le h₁
    have hl₂ := readRef_reads.left_le h₂
    rw [List.length_cons] at hf
    rw [readLazyNode, lift_tag, ok_bind]
    show (lift readNibblePath _ >>= _) = _
    simp only [lift_eq h₁, lift_eq h₂, ok_bind]
    rw [h.panics buf fuel _ (by omega)]
    rfl
  | .branch h₁ h₂ h₃ h =>
    have hl₁ := (readLe_reads 2).left_le h₁
    have hl₂ := readRef_reads.left_le h₂
    have hl₃ := h₃.length_le
    rw [List.length_cons] at hf
    rw [readLazyNode, lift_tag, ok_bind]
    show (lift (readLe 2) _ >>= _) = _
    simp only [lift_eq h₁, lift_eq h₂, ok_bind]
    refine h₃.bind_readTable (P := fun x => x = .error .panic) _ fun pos => ?_
    have hslots := h.panics buf fuel pos (fun i => Nat.testBit _ i.val) _ (fun _ => none)
      h₃.length_eq.symm (by omega)
    show (readLazySlots _ _ _ _ _ _ _ >>= _) = _
    rw [hslots]
    rfl
  | .account h₁ h₂ h₃ h₄ h =>
    have hl₁ := readNibblePath_reads.left_le h₁
    have hl₂ := (readLe_reads 8).left_le h₂
    have hl₃ := (readBytes_reads 32).left_le h₃
    have hl₄ := readHash_reads.left_le h₄
    rw [List.length_cons] at hf
    rw [readLazyNode, lift_tag, ok_bind]
    show (lift readNibblePath _ >>= _) = _
    simp only [lift_eq h₁, lift_eq h₂, lift_eq h₃, lift_eq h₄, ok_bind]
    rw [h.panics buf fuel _ (by omega)]
    rfl

theorem OverlongSlots.panics {lens : List Nat} {bs : Bytes} (h : OverlongSlots lens bs) :
    ∀ buf fuel pos present is children, (is.filter present).length = lens.length → bs.length < fuel →
      readLazySlots buf (readLazyNode buf fuel) present is lens children ⟨pos, bs⟩ = .error .panic := by
  intro buf fuel pos present is children hlen hf
  match h with
  | .here lens hs hlong =>
    obtain ⟨i, is', hi, hk, heq⟩ := readLazySlots_next buf (readLazyNode buf fuel) present is hlen
    rw [heq, readLazySlots_stored hi hs, if_pos hlong]
  | .stored hs hl href h =>
    obtain ⟨i, is', hi, hk, heq⟩ := readLazySlots_next buf (readLazyNode buf fuel) present is hlen
    rw [heq, readLazySlots_stored hi hs, if_neg (Nat.not_lt.mpr hl), href, ok_bind]
    exact h.panics buf fuel _ present is' _ hk (by rw [List.length_drop]; omega)
  | .inside lens hs h =>
    obtain ⟨i, is', hi, hk, heq⟩ := readLazySlots_next buf (readLazyNode buf fuel) present is hlen
    rw [heq, readLazySlots_parsed hi hs h.ne_nil, h.panics buf fuel pos hf]
    rfl
  | .parsed hs h hrest =>
    obtain ⟨i, is', hi, hk, heq⟩ := readLazySlots_next buf (readLazyNode buf fuel) present is hlen
    have hle := h.length_le
    have hread := h.reads buf fuel pos hf
    rw [heq, readLazySlots_parsed hi hs h.ne_nil]
    generalize readLazyNode buf fuel ⟨pos, _⟩ = x at hread
    cases hread with
    | intro child pos => exact hrest.panics buf fuel pos present is' _ hk (by omega)

end

/-- The lazy reader panics on an overlong child, and on nothing else. -/
theorem readLazyNode_panic_iff (buf : Bytes) {fuel pos : Nat} {bs : Bytes} (hf : bs.length < fuel) :
    readLazyNode buf fuel ⟨pos, bs⟩ = .error .panic ↔ Overlong bs := by
  refine ⟨fun h => ?_, fun h => h.panics buf fuel pos hf⟩
  have hmeets := readLazyNode_meets buf fuel ⟨pos, bs⟩
  rw [h] at hmeets
  cases hmeets with
  | panic h => exact h
  | error h => exact absurd rfl h

/-! ## The decoders -/

omit [Keccak] in
/-- What follows does not panic. -/
theorem bind_panic_iff {α β : Type} {x : Except Err α} {f : α → Except Err β}
    (hf : ∀ a, f a ≠ .error .panic) : x >>= f = .error .panic ↔ x = .error .panic := by
  cases x with
  | error e => exact ⟨fun h => by cases h; rfl, fun h => by cases h; rfl⟩
  | ok a => exact ⟨fun h => absurd h (hf a), nofun⟩

theorem parseNodeLazy_panic_iff (buf : Bytes) (off len : Nat) :
    parseNodeLazy buf off len = .error .panic ↔ Overlong (buf.drop off) := by
  have hf : (buf.drop off).length < buf.length + 1 := by
    rw [List.length_drop]
    omega
  have hpanic : readLazyNode buf (buf.length + 1) ⟨off, buf.drop off⟩ = .error .panic ↔ _ :=
    readLazyNode_panic_iff buf hf
  rw [← hpanic]
  refine bind_panic_iff fun r => ?_
  dsimp only
  split <;> nofun

theorem lazySubtreeAt_panic_iff (buf : Bytes) (off : Nat) :
    lazySubtreeAt buf off = .error .panic ↔ OverlongRecord (buf.drop off) := by
  unfold lazySubtreeAt
  have hprefix := readNibblePath_reads (buf.drop off)
  cases hp : readNibblePath (buf.drop off) with
  | error e =>
    rw [hp] at hprefix
    have he := hprefix.of_error
    rw [lift, hp]
    refine ⟨fun h => ?_, fun h => ?_⟩
    · cases h
      exact absurd rfl he
    · cases h with
      | intro hp' _ =>
        rw [hp] at hp'
        cases hp'
  | ok r =>
    have hle := readNibblePath_reads.left_le hp
    have hf : r.2.length < buf.length + 1 := by
      rw [List.length_drop] at hle
      omega
    rw [lift_eq hp, ok_bind]
    show (readLazyNode buf (buf.length + 1) ⟨_, r.2⟩ >>= _) = _ ↔ _
    refine Iff.trans (bind_panic_iff fun q h => ?_) ((readLazyNode_panic_iff buf hf).trans ?_)
    · cases h
    refine ⟨.intro hp, fun h => ?_⟩
    cases h with
    | intro hp' h =>
      rw [hp] at hp'
      cases hp'
      exact h

theorem deserializeSubtreeLazy_panic_iff (buf : Bytes) :
    deserializeSubtreeLazy buf = .error .panic ↔ OverlongRecord buf := by
  refine Iff.trans (bind_panic_iff fun r => ?_) (lazySubtreeAt_panic_iff buf 0)
  dsimp only
  split <;> nofun

theorem deserializeSubtreeLazyAt_panic_iff (buf : Bytes) (off len : Nat) :
    deserializeSubtreeLazyAt buf off len = .error .panic ↔
      off + len ≤ buf.length ∧ OverlongRecord (buf.drop off) := by
  unfold deserializeSubtreeLazyAt
  split
  · rename_i hlong
    exact ⟨nofun, fun h => absurd h.1 (Nat.not_le.mpr hlong)⟩
  · rename_i hfits
    rw [and_iff_right (Nat.not_lt.mp hfits), ← lazySubtreeAt_panic_iff]
    refine bind_panic_iff fun r => ?_
    dsimp only
    split <;> nofun

/-- What the lazy readers leave serialized lies in their buffer, after the byte they start at. -/
theorem lazySubtreeAt_within {buf : Bytes} {off : Nat} (hoff : off ≤ buf.length) {r : DiskSubtree × Nat}
    (h : lazySubtreeAt buf off = .ok r) : Within buf (off + 1) r.1.node := by
  have hin : Cursor.In buf off ⟨off, buf.drop off⟩ := ⟨le_rfl, hoff, rfl⟩
  obtain ⟨⟨pfx, c⟩, hp, h⟩ := bind_ok h
  obtain ⟨⟨node, c'⟩, hn, h⟩ := bind_ok h
  cases h
  have hmoves := lift_moves readNibblePath_reads hin
  rw [hp] at hmoves
  cases hmoves with
  | ok _ hc _ =>
    have hnode := readLazyNode_moves (buf.length + 1) hc
    rw [hn] at hnode
    cases hnode with
    | ok _ _ hw => exact hw

theorem parseNodeLazy_within {buf : Bytes} {off len : Nat} (hfits : off + len ≤ buf.length) {node : Node}
    (h : parseNodeLazy buf off len = .ok node) : Within buf (off + 1) node := by
  have hin : Cursor.In buf off ⟨off, buf.drop off⟩ := ⟨le_rfl, (Nat.le_add_right off len).trans hfits, rfl⟩
  obtain ⟨⟨n, c⟩, hn, h⟩ := bind_ok h
  have hmoves := readLazyNode_moves (buf.length + 1) hin
  rw [show readLazyNode buf (buf.length + 1) ⟨off, buf.drop off⟩ = _ from hn] at hmoves
  cases hmoves with
  | ok _ _ hw =>
    dsimp only at h
    split at h
    · cases h
      exact hw
    · cases h

theorem deserializeSubtreeLazy_within {buf : Bytes} {s : DiskSubtree}
    (h : deserializeSubtreeLazy buf = .ok s) : Within buf 1 s.node := by
  obtain ⟨r, hr, h⟩ := bind_ok h
  have hw := lazySubtreeAt_within (Nat.zero_le _) hr
  dsimp only at h
  split at h
  · cases h
    exact hw
  · cases h

/-- **What the decoders do with malformed bytes.**  The recursions end within the length
of their input.  The full reader, the header scan and the prefix parse return whatever the
bytes are; what the lazy readers leave serialized lies in their buffer, after the byte they
start at; and they return exactly when no stored child they come to is said to reach past
its end. -/
theorem decoders_return_iff :
    (∀ bs fuel, bs.length < fuel → readNode fuel bs = readNode (bs.length + 1) bs) ∧
    (∀ buf fuel off, off ≤ buf.length → buf.length < fuel →
      readLazyNode buf fuel ⟨off, buf.drop off⟩ =
        readLazyNode buf (buf.length + 1) ⟨off, buf.drop off⟩) ∧
    (∀ bs, deserializeSubtree bs ≠ .error .panic ∧ extractRef bs ≠ .error .panic ∧
      parsePrefix bs ≠ .error .panic) ∧
    (∀ buf, (deserializeSubtreeLazy buf ≠ .error .panic ↔ ¬ OverlongRecord buf) ∧
      ∀ s, deserializeSubtreeLazy buf = .ok s → Within buf 1 s.node) ∧
    (∀ buf off len, (deserializeSubtreeLazyAt buf off len ≠ .error .panic ↔
        ¬ (off + len ≤ buf.length ∧ OverlongRecord (buf.drop off))) ∧
      ∀ s, deserializeSubtreeLazyAt buf off len = .ok s → Within buf (off + 1) s.node) ∧
    ∀ buf off len, (parseNodeLazy buf off len ≠ .error .panic ↔ ¬ Overlong (buf.drop off)) ∧
      (off + len ≤ buf.length → ∀ n, parseNodeLazy buf off len = .ok n → Within buf (off + 1) n) := by
  refine ⟨fun bs fuel hf => readNode_fuel _ _ bs hf (Nat.lt_succ_self _), fun buf fuel off hoff hf => ?_,
    fun bs => ⟨deserializeSubtree_ne_panic bs, extractRef_ne_panic bs, parsePrefix_ne_panic bs⟩,
    fun buf => ⟨not_congr (deserializeSubtreeLazy_panic_iff buf), fun _ => deserializeSubtreeLazy_within⟩,
    fun buf off len => ⟨not_congr (deserializeSubtreeLazyAt_panic_iff buf off len), fun s hs => ?_⟩,
    fun buf off len => ⟨not_congr (parseNodeLazy_panic_iff buf off len), fun hfits n hn =>
      parseNodeLazy_within hfits hn⟩⟩
  · have hle : (buf.drop off).length ≤ buf.length := by
      rw [List.length_drop]
      omega
    exact readLazyNode_fuel _ _ ⟨le_rfl, hoff, rfl⟩ (by dsimp only; omega) (by dsimp only; omega)
  · unfold deserializeSubtreeLazyAt at hs
    split at hs
    · cases hs
    · rename_i hfits
      obtain ⟨r, hr, hs⟩ := bind_ok hs
      have hw := lazySubtreeAt_within (by omega) hr
      dsimp only at hs
      split at hs
      · cases hs
        exact hw
      · cases hs

end

/-- A branch of one leaf, which the table says is eight bytes long. -/
def tableRecord : Bytes := [0, 3, 1, 0, 1, 0, 8, 0, 0, 0, 1, 0, 0, 0, 0, 0, 1, 0]

/-- The lazy reader takes the branch and leaves the child, which is read in its turn. -/
theorem decoders_return_table :
    let _ : Keccak := ⟨fun _ => .fill 0⟩
    readNode 40 (tableRecord.drop 1) = readNode 18 (tableRecord.drop 1) ∧
      ¬ OverlongRecord tableRecord ∧
      (∃ s, deserializeSubtreeLazy tableRecord = .ok s ∧ Within tableRecord 1 s.node) ∧
      (∃ s, deserializeSubtreeLazyAt (9 :: tableRecord) 1 18 = .ok s ∧
        Within (9 :: tableRecord) 2 s.node) ∧
      ∃ n, parseNodeLazy tableRecord 10 8 = .ok n ∧ Within tableRecord 11 n := by
  intro _
  obtain ⟨hfuel, -, -, hlazy, hat, hparse⟩ := decoders_return_iff
  obtain ⟨s, hs⟩ : ∃ s, deserializeSubtreeLazy tableRecord = .ok s := ⟨_, rfl⟩
  refine ⟨hfuel _ 40 (by decide), (hlazy tableRecord).1.mp ?_, ⟨s, hs, (hlazy _).2 _ hs⟩,
    ⟨_, rfl, (hat _ 1 18).2 _ rfl⟩, _, rfl, (hparse tableRecord 10 8).2 (by decide) _ rfl⟩
  rw [hs]
  exact nofun

/-- A branch whose only child, a leaf cut off after its tag, is said to be 255 bytes long. -/
def overlongRecord : Bytes := [0, 3, 1, 0, 1, 0, 255, 0, 0, 0, 1]

theorem lazy_decoder_panics :
    let _ : Keccak := ⟨fun _ => .fill 0⟩
    ¬ ∀ buf, deserializeSubtreeLazy buf ≠ .error .panic := by
  intro _ h
  exact h overlongRecord rfl

end FlatMpt.Lazy
