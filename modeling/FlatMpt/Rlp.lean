import FlatMpt.Eth

/-!
# RLP and hex-prefix are injective

Every encoded item shows where it ends, so a list's items can be told apart; the flag
nibble tells leaf paths from extension paths.

    decodeHeader_string, decodeHeader_list
    Item                      -- one encoded item
    rlpString_inj, rlpList_inj
    hexPrefix_inj
    Account.decode_rlp
-/

namespace FlatMpt.Eth

open FlatMpt

/-! ## Lengths -/

/-- Big-endian value of a byte string. -/
abbrev beValue (bs : Bytes) : Nat := bs.foldl (fun acc b => acc * 256 + b.toNat) 0

theorem foldr_toNat {ds : List Nat} (h : ∀ d ∈ ds, d < 256) :
    ds.foldr (fun d acc => acc * 256 + (UInt8.ofNat d).toNat) 0 =
      ds.foldr (fun d acc => d + 256 * acc) 0 := by
  induction ds with
  | nil => rfl
  | cons d ds ih =>
    have hd : (UInt8.ofNat d).toNat = d := UInt8.toNat_ofNat_of_lt' (h d List.mem_cons_self)
    rw [List.foldr_cons, List.foldr_cons, ih fun x hx => h x (List.mem_cons_of_mem _ hx), hd]
    omega

theorem beValue_beBytes (n : Nat) : beValue (beBytes n) = n := by
  unfold beValue beBytes
  rw [List.foldl_map, List.foldl_reverse,
    foldr_toNat fun d hd => Nat.digits_lt_base (by decide) hd]
  have h := Nat.ofDigits_digits 256 n
  rw [Nat.ofDigits_eq_foldr] at h
  exact h

theorem beBytes_length_le {n k : Nat} (h : n < 256 ^ k) : (beBytes n).length ≤ k := by
  unfold beBytes
  rw [List.length_map, List.length_reverse]
  exact (Nat.digits_length_le_iff (by decide) n).mpr h

theorem beBytes_pos {n : Nat} (h : n ≠ 0) : 0 < (beBytes n).length := by
  unfold beBytes
  rw [List.length_map, List.length_reverse]
  exact List.length_pos_iff.mpr (Nat.digits_ne_nil_iff_ne_zero.mpr h)

/-- No leading zero. -/
theorem beBytes_head (n : Nat) : (beBytes n).head? ≠ some 0 := by
  unfold beBytes
  rw [List.head?_map, List.head?_reverse]
  intro h
  obtain ⟨d, hd, h0⟩ := Option.map_eq_some_iff.mp h
  have hne : Nat.digits 256 n ≠ [] := by
    intro hnil
    rw [hnil] at hd
    cases hd
  have hn : n ≠ 0 := Nat.digits_ne_nil_iff_ne_zero.mp hne
  rw [List.getLast?_eq_some_getLast hne] at hd
  have hlast := Nat.getLast_digit_ne_zero 256 hn
  have hlt : (Nat.digits 256 n).getLast hne < 256 :=
    Nat.digits_lt_base (by decide) (List.getLast_mem hne)
  rw [Option.some.inj hd] at hlast hlt
  have hz := congrArg UInt8.toNat h0
  rw [UInt8.toNat_ofNat_of_lt' hlt] at hz
  exact hlast hz

/-! ## Headers -/

theorem toNat_ofNat {n : Nat} (h : n < 256) : (UInt8.ofNat n).toNat = n := UInt8.toNat_ofNat_of_lt' h

/-- A list's header is read back. -/
theorem decodeHeader_list {payload : Bytes} (h : payload.length < 2 ^ 64) (rest : Bytes) :
    decodeHeader (rlpHeader true payload.length ++ payload ++ rest) =
      some (true, payload.length, payload ++ rest) := by
  have hfits : ¬ (payload ++ rest).length < payload.length := by
    rw [List.length_append]
    omega
  unfold rlpHeader
  dsimp only
  rw [if_pos rfl]
  by_cases hs : payload.length < 56
  · have hb : (UInt8.ofNat (0xc0 + payload.length)).toNat = 0xc0 + payload.length :=
      toNat_ofNat (by omega)
    rw [if_pos hs, List.append_assoc]
    show decodeHeader (_ :: (payload ++ rest)) = _
    unfold decodeHeader
    dsimp only
    rw [hb, if_neg (by omega), if_neg (by omega), if_pos (by omega), Nat.add_sub_cancel_left,
      if_neg hfits]
  · have hle : (beBytes payload.length).length ≤ 8 := beBytes_length_le (by omega)
    have hpos := beBytes_pos (n := payload.length) (by omega)
    have hb : (UInt8.ofNat (0xc0 + 55 + (beBytes payload.length).length)).toNat =
        0xf7 + (beBytes payload.length).length := toNat_ofNat (by omega)
    rw [if_neg hs, List.append_assoc]
    show decodeHeader (_ :: (beBytes payload.length ++ (payload ++ rest))) = _
    unfold decodeHeader
    dsimp only
    rw [hb, if_neg (by omega), if_neg (by omega), if_neg (by omega),
      if_pos (decide_eq_true (by omega)), Nat.add_sub_cancel_left,
      if_neg (by rw [List.length_append]; omega), List.take_left, List.drop_left,
      show List.foldl _ 0 _ = _ from beValue_beBytes payload.length,
      if_neg (not_or.mpr ⟨beBytes_head _, hs⟩), if_neg hfits, decide_eq_true (by omega)]

/-- A string's header is read back. -/
theorem decodeHeader_string {bs : Bytes} (h : bs.length < 2 ^ 64) (rest : Bytes) :
    decodeHeader (rlpString bs ++ rest) = some (false, bs.length, bs ++ rest) := by
  have hfits : ¬ (bs ++ rest).length < bs.length := by
    rw [List.length_append]
    omega
  have hlong : ∀ hs : bs.length < 56 → ¬ (bs.length = 1 ∧
      ((bs ++ rest).head?.map UInt8.toNat).getD 0x80 < 0x80),
      decodeHeader (rlpHeader false bs.length ++ bs ++ rest) = some (false, bs.length, bs ++ rest) := by
    intro hone
    unfold rlpHeader
    dsimp only
    rw [if_neg Bool.false_ne_true]
    by_cases hs : bs.length < 56
    · have hb : (UInt8.ofNat (0x80 + bs.length)).toNat = 0x80 + bs.length := toNat_ofNat (by omega)
      rw [if_pos hs, List.append_assoc]
      show decodeHeader (_ :: (bs ++ rest)) = _
      unfold decodeHeader
      dsimp only
      rw [hb, if_neg (by omega), if_pos (by omega), Nat.add_sub_cancel_left, if_neg (hone hs),
        if_neg hfits]
    · have hle : (beBytes bs.length).length ≤ 8 := beBytes_length_le (by omega)
      have hpos := beBytes_pos (n := bs.length) (by omega)
      have hb : (UInt8.ofNat (0x80 + 55 + (beBytes bs.length).length)).toNat =
          0xb7 + (beBytes bs.length).length := toNat_ofNat (by omega)
      rw [if_neg hs, List.append_assoc]
      show decodeHeader (_ :: (beBytes bs.length ++ (bs ++ rest))) = _
      unfold decodeHeader
      dsimp only
      rw [hb, if_neg (by omega), if_neg (by omega), if_neg (by omega),
        if_neg (fun hd => absurd (of_decide_eq_true hd) (by omega)), Nat.add_sub_cancel_left,
        if_neg (by rw [List.length_append]; omega), List.take_left, List.drop_left,
        show List.foldl _ 0 _ = _ from beValue_beBytes bs.length,
        if_neg (not_or.mpr ⟨beBytes_head _, hs⟩), if_neg hfits, decide_eq_false (by omega)]
  unfold rlpString
  split
  · rename_i b
    split
    · rename_i hb
      have hb' : b.toNat < 0x80 := hb
      show decodeHeader (b :: rest) = _
      unfold decodeHeader
      dsimp only
      rw [if_pos hb']
      exact if_neg hfits
    · rename_i hb
      refine hlong fun _ hlt => hb ?_
      exact hlt.2
  · rename_i hne
    refine hlong fun _ hlt => ?_
    obtain ⟨b, rfl⟩ := List.length_eq_one_iff.mp hlt.1
    exact hne b rfl

/-! ## Items -/

/-- The first item of a byte string and what follows it. -/
def splitItem (bs : Bytes) : Option (Bytes × Bytes) :=
  match decodeHeader bs with
  | none => none
  | some (_, len, payload) =>
    some (bs.take (bs.length - payload.length + len), payload.drop len)

/-- One encoded item: it is found in front of anything. -/
def Item (x : Bytes) : Prop := ∀ rest, splitItem (x ++ rest) = some (x, rest)

theorem item_of_header {x payload : Bytes} {list : Bool} (hle : payload.length ≤ x.length)
    (h : ∀ rest, decodeHeader (x ++ rest) = some (list, payload.length, payload ++ rest)) :
    Item x := by
  intro rest
  have hlen : (x ++ rest).length - (payload ++ rest).length + payload.length = x.length := by
    rw [List.length_append, List.length_append]
    omega
  unfold splitItem
  rw [h rest]
  dsimp only
  rw [hlen, List.take_left, List.drop_left]

theorem length_le_rlpString (bs : Bytes) : bs.length ≤ (rlpString bs).length := by
  unfold rlpString
  split
  · split
    · exact le_rfl
    · rw [List.length_append]
      exact Nat.le_add_left _ _
  · rw [List.length_append]
    exact Nat.le_add_left _ _

theorem item_string {bs : Bytes} (h : bs.length < 2 ^ 64) : Item (rlpString bs) :=
  item_of_header (length_le_rlpString bs) (decodeHeader_string h)

theorem item_list {items : List Bytes} (h : items.flatten.length < 2 ^ 64) : Item (rlpList items) := by
  refine item_of_header ?_ (decodeHeader_list h)
  unfold rlpList
  rw [List.length_append]
  exact Nat.le_add_left _ _

theorem Item.ne_nil {x : Bytes} (h : Item x) : x ≠ [] := by
  rintro rfl
  have h0 := h []
  cases h0

/-- Items are told apart in their concatenation. -/
theorem flatten_inj {xs ys : List Bytes} (hx : ∀ x ∈ xs, Item x) (hy : ∀ y ∈ ys, Item y)
    (h : xs.flatten = ys.flatten) : xs = ys := by
  induction xs generalizing ys with
  | nil =>
    cases ys with
    | nil => rfl
    | cons y ys =>
      have hnil : y ++ ys.flatten = [] := h.symm
      exact absurd (List.append_eq_nil_iff.mp hnil).1 (hy y List.mem_cons_self).ne_nil
  | cons x xs ih =>
    cases ys with
    | nil =>
      have hnil : x ++ xs.flatten = [] := h
      exact absurd (List.append_eq_nil_iff.mp hnil).1 (hx x List.mem_cons_self).ne_nil
    | cons y ys =>
      have hsplit := hx x List.mem_cons_self xs.flatten
      rw [show x ++ xs.flatten = y ++ ys.flatten from h, hy y List.mem_cons_self] at hsplit
      obtain ⟨h1, h2⟩ := Prod.ext_iff.mp (Option.some.inj hsplit)
      dsimp only at h1 h2
      rw [← h1, ih (fun z hz => hx z (List.mem_cons_of_mem _ hz))
        (fun z hz => hy z (List.mem_cons_of_mem _ hz)) h2.symm]

theorem rlpList_inj {xs ys : List Bytes} (hx : ∀ x ∈ xs, Item x) (hy : ∀ y ∈ ys, Item y)
    (hxs : xs.flatten.length < 2 ^ 64) (hys : ys.flatten.length < 2 ^ 64)
    (h : rlpList xs = rlpList ys) : xs = ys := by
  have h1 := decodeHeader_list hxs []
  have h2 := decodeHeader_list hys []
  rw [show rlpHeader true xs.flatten.length ++ xs.flatten = rlpList xs from rfl, h] at h1
  rw [show rlpHeader true ys.flatten.length ++ ys.flatten = rlpList ys from rfl, h1] at h2
  have hp := (Prod.ext_iff.mp (Prod.ext_iff.mp (Option.some.inj h2)).2).2
  dsimp only at hp
  rw [List.append_nil, List.append_nil] at hp
  exact flatten_inj hx hy hp

theorem rlpString_inj {xs ys : Bytes} (hx : xs.length < 2 ^ 64) (hy : ys.length < 2 ^ 64)
    (h : rlpString xs = rlpString ys) : xs = ys := by
  have h1 := decodeHeader_string hx []
  rw [h, decodeHeader_string hy []] at h1
  have hp := (Prod.ext_iff.mp (Prod.ext_iff.mp (Option.some.inj h1)).2).2
  dsimp only at hp
  rw [List.append_nil, List.append_nil] at hp
  exact hp.symm

/-- No string is a list. -/
theorem rlpString_ne_rlpList {bs : Bytes} {items : List Bytes} (hb : bs.length < 2 ^ 64)
    (hi : items.flatten.length < 2 ^ 64) : rlpString bs ≠ rlpList items := by
  intro h
  have h1 := decodeHeader_string hb []
  rw [h, show rlpList items = rlpHeader true items.flatten.length ++ items.flatten from rfl,
    decodeHeader_list hi []] at h1
  cases (Prod.ext_iff.mp (Option.some.inj h1)).1

theorem rlpHeader_length_le (list : Bool) {n : Nat} (h : n < 2 ^ 64) :
    (rlpHeader list n).length ≤ 9 := by
  unfold rlpHeader
  dsimp only
  split
  · exact Nat.le_of_ble_eq_true rfl
  · have := beBytes_length_le (n := n) (k := 8) (by omega)
    rw [List.length_cons]
    omega

theorem rlpString_length_le {bs : Bytes} (h : bs.length < 2 ^ 64) :
    (rlpString bs).length ≤ bs.length + 9 := by
  unfold rlpString
  split
  · split
    · exact Nat.le_add_right _ _
    · rw [List.length_append]
      have := rlpHeader_length_le false (n := 1) (by decide)
      exact Nat.add_comm _ _ ▸ Nat.add_le_add_left this _
  · rw [List.length_append]
    have := rlpHeader_length_le false h
    omega

/-! ## Paths -/

theorem flatMap_packNibbles {ns : List Nibble} {bs : Bytes} (h : packNibbles ns = some bs) :
    bs.flatMap byteNibbles = ns := by
  induction ns using packNibbles.induct generalizing bs with
  | case1 =>
    cases h
    rfl
  | case2 => cases h
  | case3 hi lo rest ih =>
    rw [packNibbles] at h
    obtain ⟨bs', hbs, rfl⟩ := Option.map_eq_some_iff.mp h
    have hv : (packByte hi lo).toNat = hi.val * 16 + lo.val := toNat_ofNat (by omega)
    have hhi : (⟨(packByte hi lo).toNat / 16, by have := (packByte hi lo).toNat_lt; omega⟩ : Nibble) = hi :=
      Fin.ext (by dsimp only; omega)
    have hlo : (⟨(packByte hi lo).toNat % 16, by omega⟩ : Nibble) = lo := Fin.ext (by dsimp only; omega)
    rw [List.flatMap_cons, ih hbs, byteNibbles, hhi, hlo]
    rfl

theorem packNibbles_isSome {ns : List Nibble} (h : ns.length % 2 = 0) :
    ∃ bs, packNibbles ns = some bs ∧ 2 * bs.length = ns.length := by
  induction ns using packNibbles.induct with
  | case1 => exact ⟨[], rfl, rfl⟩
  | case2 n => cases h
  | case3 hi lo rest ih =>
    rw [List.length_cons, List.length_cons] at h
    obtain ⟨bs, hbs, hlen⟩ := ih (by omega)
    refine ⟨packByte hi lo :: bs, by rw [packNibbles, hbs]; rfl, ?_⟩
    rw [List.length_cons, List.length_cons, List.length_cons]
    omega

/-- The flag nibble, padding, then the path. -/
def flagged (path : List Nibble) (leaf : Bool) : List Nibble :=
  let flag : Nibble := if leaf then 2 else 0
  if path.length % 2 = 1 then (flag + 1) :: path else flag :: 0 :: path

theorem hexPrefix_flagged (path : List Nibble) (leaf : Bool) :
    (hexPrefix path leaf).flatMap byteNibbles = flagged path leaf ∧
      (hexPrefix path leaf).length ≤ path.length + 1 := by
  have heven : (flagged path leaf).length % 2 = 0 := by
    unfold flagged
    dsimp only
    split
    · rw [List.length_cons]
      omega
    · rw [List.length_cons, List.length_cons]
      omega
  have hle : (flagged path leaf).length ≤ path.length + 2 := by
    unfold flagged
    dsimp only
    split <;> simp only [List.length_cons] <;> omega
  obtain ⟨bs, hbs, hlen⟩ := packNibbles_isSome heven
  have heq : hexPrefix path leaf = bs := by
    show (packNibbles (flagged path leaf)).getD [] = bs
    rw [hbs]
    rfl
  rw [heq]
  exact ⟨flatMap_packNibbles hbs, by omega⟩

theorem flagged_inj {p q : List Nibble} {a b : Bool} (h : flagged p a = flagged q b) :
    p = q ∧ a = b := by
  unfold flagged at h
  dsimp only at h
  by_cases hp : p.length % 2 = 1
  · by_cases hq : q.length % 2 = 1
    · rw [if_pos hp, if_pos hq] at h
      obtain ⟨hflag, rfl⟩ := List.cons.inj h
      refine ⟨rfl, ?_⟩
      revert hflag
      cases a <;> cases b <;> decide
    · rw [if_pos hp, if_neg hq] at h
      have hflag := (List.cons.inj h).1
      revert hflag
      cases a <;> cases b <;> exact fun hf => absurd hf (by decide)
  · by_cases hq : q.length % 2 = 1
    · rw [if_neg hp, if_pos hq] at h
      have hflag := (List.cons.inj h).1
      revert hflag
      cases a <;> cases b <;> exact fun hf => absurd hf (by decide)
    · rw [if_neg hp, if_neg hq] at h
      obtain ⟨hflag, hrest⟩ := List.cons.inj h
      obtain rfl := (List.cons.inj hrest).2
      refine ⟨rfl, ?_⟩
      revert hflag
      cases a <;> cases b <;> decide

theorem hexPrefix_inj {p q : List Nibble} {a b : Bool} (h : hexPrefix p a = hexPrefix q b) :
    p = q ∧ a = b := by
  refine flagged_inj ?_
  rw [← (hexPrefix_flagged p a).1, h, (hexPrefix_flagged q b).1]

/-! ## Accounts -/

theorem decodeBytes_string {bs : Bytes} (h : bs.length < 2 ^ 64) (rest : Bytes) :
    decodeBytes (rlpString bs ++ rest) = some (bs, rest) := by
  unfold decodeBytes
  rw [decodeHeader_string h]
  dsimp only
  rw [List.take_left, List.drop_left]

theorem decodeNat_rlpNat {n width : Nat} (h : n < 256 ^ width) (hw : width ≤ 32) (rest : Bytes) :
    decodeNat width (rlpNat n ++ rest) = some (n, rest) := by
  have hle := beBytes_length_le h
  unfold decodeNat rlpNat
  rw [decodeBytes_string (by omega)]
  dsimp only
  rw [if_neg (not_or.mpr ⟨by omega, beBytes_head n⟩)]
  exact congrArg some (Prod.ext (beValue_beBytes n) rfl)

theorem decodeHash_rlpString (h : Hash) (rest : Bytes) :
    decodeHash (rlpString h.bytes ++ rest) = some (h, rest) := by
  unfold decodeHash
  rw [decodeBytes_string (by rw [h.size]; decide)]
  dsimp only
  rw [dif_pos h.size]

/-- The fields of an account, encoded. -/
def Account.fields (a : Account) : List Bytes :=
  [rlpNat a.nonce.toNat, rlpNat a.balance.toNat, rlpString a.storageRoot.bytes,
    rlpString a.codeHash.bytes]

theorem Account.fields_length (a : Account) : a.fields.flatten.length ≤ 140 := by
  obtain ⟨nonce, balance, storageRoot, codeHash⟩ := a
  have h1 : (beBytes nonce.toNat).length ≤ 8 := beBytes_length_le nonce.toNat_lt
  have h2 : (beBytes balance.toNat).length ≤ 32 := beBytes_length_le balance.isLt
  have h3 : (rlpNat nonce.toNat).length ≤ (beBytes nonce.toNat).length + 9 :=
    rlpString_length_le (by omega)
  have h4 : (rlpNat balance.toNat).length ≤ (beBytes balance.toNat).length + 9 :=
    rlpString_length_le (by omega)
  have hhash (h : Hash) : (rlpString h.bytes).length ≤ 41 := by
    have := rlpString_length_le (show h.bytes.length < 2 ^ 64 by rw [h.size]; decide)
    rwa [h.size] at this
  have h5 := hhash storageRoot
  have h6 := hhash codeHash
  unfold Account.fields
  simp only [List.flatten_cons, List.flatten_nil, List.length_append, List.length_nil]
  omega

theorem Account.rlp_length (a : Account) : a.rlp.length ≤ 149 := by
  have h := a.fields_length
  have hheader := rlpHeader_length_le true (n := a.fields.flatten.length) (by omega)
  rw [show a.rlp = rlpHeader true a.fields.flatten.length ++ a.fields.flatten from rfl,
    List.length_append]
  omega

/-- An account is read back from its leaf value. -/
theorem Account.decode_rlp (a : Account) : Account.decode a.rlp = some a := by
  obtain ⟨nonce, balance, storageRoot, codeHash⟩ := a
  have hn : nonce.toNat < 256 ^ 8 := nonce.toNat_lt
  have hb : balance.toNat < 256 ^ 32 := balance.isLt
  let items := Account.fields ⟨nonce, balance, storageRoot, codeHash⟩
  have hflat : items.flatten = rlpNat nonce.toNat ++ (rlpNat balance.toNat ++
      (rlpString storageRoot.bytes ++ (rlpString codeHash.bytes ++ []))) := rfl
  have hlen : items.flatten.length < 2 ^ 64 :=
    Nat.lt_of_le_of_lt (Account.fields_length _) (by decide)
  have hhead : decodeHeader (rlpList items) = some (true, items.flatten.length, items.flatten) := by
    have h := decodeHeader_list hlen []
    rw [List.append_nil, List.append_nil] at h
    exact h
  unfold Account.decode
  rw [show Account.rlp ⟨nonce, balance, storageRoot, codeHash⟩ = rlpList items from rfl, hhead]
  simp only [bind, Option.bind, hflat, decodeNat_rlpNat hn (by decide),
    decodeNat_rlpNat hb (by decide), decodeHash_rlpString]
  simp [guard, UInt64.ofNat_toNat]

end FlatMpt.Eth
