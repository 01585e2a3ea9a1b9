import FlatMpt.Walks
import FlatMpt.Refines

/-!
# Ordered enumeration

In a regular run the account cursor lists what the point reads return, in key order: a seek
finds the least key that is not below its target, and `next` goes on through all the others.

    Lists                     -- all keys, with their values and slots, in order
    accounts_enumerated
-/

namespace FlatMpt

open Prog
open Radix (Tree prefixed atLeast)
open Ordered (Ascending firstFrom Drains Seeks)

/-! ## The order of keys -/

theorem compare_of_toNat_lt {a b : UInt8} (h : a.toNat < b.toNat) : compare a b = .lt := by
  show compareOfLessAndEq a b = _
  unfold compareOfLessAndEq
  rw [if_pos (UInt8.lt_iff_toNat_lt.mpr h)]

/-- The nibbles of a smaller byte come first. -/
theorem compare_byteNibbles_lt {a b : UInt8} (h : a.toNat < b.toNat) (as bs : List Nibble) :
    compare (byteNibbles a ++ as) (byteNibbles b ++ bs) = .lt := by
  unfold byteNibbles
  rw [List.cons_append, List.singleton_append, List.cons_append, List.singleton_append]
  by_cases hhi : a.toNat / 16 = b.toNat / 16
  · have hlo : a.toNat % 16 < b.toNat % 16 := by omega
    rw [List.compare_cons_cons, Std.LawfulEqOrd.compare_eq_iff_eq.mpr (Fin.ext hhi)]
    exact Radix.compare_of_lt hlo as bs
  · have hlt : a.toNat / 16 < b.toNat / 16 := by omega
    exact Radix.compare_of_lt hlt _ _

theorem compare_byteNibbles (a b : UInt8) (as bs : List Nibble) :
    compare (byteNibbles a ++ as) (byteNibbles b ++ bs) = (compare a b).then (compare as bs) := by
  rcases lt_trichotomy a.toNat b.toNat with h | h | h
  · rw [compare_byteNibbles_lt h, compare_of_toNat_lt h]
    rfl
  · obtain rfl := UInt8.toNat_inj.mp h
    rw [Radix.compare_append, Std.ReflOrd.compare_self]
    rfl
  · rw [(Std.OrientedCmp.eq_swap : compare (byteNibbles a ++ as) _ = _), compare_byteNibbles_lt h,
      (Std.OrientedCmp.eq_swap : compare a b = _), compare_of_toNat_lt h]
    rfl

/-- Nibbles are ordered as the bytes are. -/
theorem compare_keyNibbles (a b : Key) : compare (keyNibbles a) (keyNibbles b) = compare a b := by
  have hbytes (as bs : Bytes) : compare (as.flatMap byteNibbles) (bs.flatMap byteNibbles) = compare as bs := by
    induction as generalizing bs with
    | nil =>
      cases bs with
      | nil => rfl
      | cons b bs => rfl
    | cons a as ih =>
      cases bs with
      | nil => rfl
      | cons b bs =>
        rw [List.flatMap_cons, List.flatMap_cons, compare_byteNibbles, ih, List.compare_cons_cons]
  exact hbytes a.bytes b.bytes

/-- Adding one: what is not below the result is above the bytes; without a result nothing is. -/
theorem incBytes_spec (bs ks : Bytes) (h : ks.length = bs.length) :
    ((incBytes bs).2 = false → ((compare (incBytes bs).1 ks).isLE ↔ compare bs ks = .lt)) ∧
      ((incBytes bs).2 = true → (compare (incBytes bs).1 ks).isLE ∧ compare bs ks ≠ .lt) := by
  induction bs generalizing ks with
  | nil =>
    cases ks with
    | nil => exact ⟨(fun hf => by cases hf), fun _ => ⟨rfl, by decide⟩⟩
    | cons k ks => cases h
  | cons b bs ih =>
    cases ks with
    | nil => cases h
    | cons k ks =>
      obtain ⟨ih1, ih2⟩ := ih ks (by simpa using h)
      unfold incBytes
      cases hc : (incBytes bs).2 with
      | false =>
        rw [if_neg Bool.false_ne_true]
        refine ⟨fun _ => ?_, (fun hf => by cases hf)⟩
        have := ih1 hc
        rw [List.compare_cons_cons, List.compare_cons_cons]
        cases compare b k with
        | lt => simp
        | gt => simp
        | eq => simpa using this
      | true =>
        rw [if_pos rfl]
        obtain ⟨h1, h2⟩ := ih2 hc
        rw [List.compare_cons_cons, List.compare_cons_cons]
        by_cases hb : b.toNat = 255
        · obtain rfl : b = 255 := UInt8.toNat_inj.mp hb
          refine ⟨(fun hf => by cases hf), fun _ => ⟨?_, ?_⟩⟩
          · rcases Nat.eq_zero_or_pos k.toNat with hk | hk
            · obtain rfl : k = 0 := UInt8.toNat_inj.mp hk
              exact h1
            · rw [show compare (255 + 1 : UInt8) k = .lt from compare_of_toNat_lt hk]
              rfl
          · rcases Nat.eq_or_lt_of_le (Nat.le_of_lt_succ k.toNat_lt) with hk | hk
            · obtain rfl : k = 255 := UInt8.toNat_inj.mp hk
              exact h2
            · rw [(Std.OrientedCmp.eq_swap : compare 255 k = _), compare_of_toNat_lt hk]
              exact fun hf => by cases hf
        · have hb1 : (b + 1).toNat = b.toNat + 1 := by
            rw [UInt8.toNat_add]
            have := b.toNat_lt
            show (b.toNat + 1) % 256 = _
            omega
          refine ⟨fun _ => ?_, fun ht => ?_⟩
          · rcases lt_trichotomy (b.toNat + 1) k.toNat with hk | hk | hk
            · rw [compare_of_toNat_lt (hb1.trans_lt hk), compare_of_toNat_lt (by omega)]
              exact ⟨fun _ => rfl, fun _ => rfl⟩
            · obtain rfl : b + 1 = k := UInt8.toNat_inj.mp (hb1.trans hk)
              rw [Std.ReflOrd.compare_self, compare_of_toNat_lt (by omega)]
              exact ⟨fun _ => rfl, fun _ => h1⟩
            · rw [(Std.OrientedCmp.eq_swap : compare (b + 1) k = _),
                compare_of_toNat_lt (hk.trans_eq hb1.symm)]
              refine ⟨(fun hf => by cases hf), fun hl => ?_⟩
              rcases Nat.lt_or_eq_of_le (Nat.le_of_lt_succ hk) with hk | hk
              · rw [(Std.OrientedCmp.eq_swap : compare b k = _), compare_of_toNat_lt hk] at hl
                cases hl
              · obtain rfl := UInt8.toNat_inj.mp hk
                rw [Std.ReflOrd.compare_self] at hl
                exact absurd hl h2
          · rw [beq_iff_eq] at ht
            exact absurd (congrArg UInt8.toNat ht) hb

/-- What is not below the next key is above the key. -/
theorem keySuccessor_some {key succ : Key} (h : keySuccessor key = some succ) (k : Key) :
    (compare succ k).isLE ↔ compare key k = .lt := by
  unfold keySuccessor at h
  split at h
  · cases h
  · rename_i hc
    cases h
    exact (incBytes_spec key.bytes k.bytes (k.size.trans key.size.symm)).1 (Bool.eq_false_of_not_eq_true hc)

/-- The last key has nothing above it. -/
theorem keySuccessor_none {key : Key} (h : keySuccessor key = none) (k : Key) :
    compare key k ≠ .lt := by
  unfold keySuccessor at h
  split at h
  · exact ((incBytes_spec key.bytes k.bytes (k.size.trans key.size.symm)).2 ‹_›).2
  · cases h

/-! ## Listings -/

/-- A key with its value, as point reads return it, and its slots. -/
structure Listed where
  key : Key
  value : Bytes
  slots : List (Key × Bytes)

def Listed.slot (l : Listed) (slot : Key) : Option Bytes :=
  (l.slots.find? fun e => e.1 = slot).map Prod.snd

section
variable [Keccak]

/-- All keys that the reads find, with their values and slots, in order. -/
structure Lists (s : Store) (n : RamNode) (ls : List Listed) : Prop where
  ordered : Ascending Listed.key ls
  value : ∀ key, getValue s n key = .ok ((ls.find? fun l => l.key = key).map Listed.value)
  slotsOrdered : ∀ l ∈ ls, Ascending Prod.fst l.slots
  slot : ∀ key slot,
    getStorage s n key slot = .ok ((ls.find? fun l => l.key = key).bind (·.slot slot))

variable {t : Tree 16 StateLeaf} {s : Store} {n : RamNode} {ls : List Listed}

omit [Keccak] in
/-- The slots of a listed key are what is read of them. -/
theorem slots_unique {es es' : List (Key × Bytes)} (h : Ascending Prod.fst es) (h' : Ascending Prod.fst es')
    (hget : ∀ k, (es.find? fun e => e.1 = k).map Prod.snd = (es'.find? fun e => e.1 = k).map Prod.snd) :
    es = es' := by
  refine h.eq_of_find h' fun k => ?_
  have hk := hget k
  cases hf : es.find? fun e => e.1 = k with
  | none =>
    rw [hf] at hk
    exact (Option.map_eq_none_iff.mp hk.symm).symm
  | some e =>
    rw [hf] at hk
    obtain ⟨e', hf', hv⟩ := Option.map_eq_some_iff.mp hk.symm
    have hkey : e.1 = k := by simpa using List.find?_some hf
    have hkey' : e'.1 = k := by simpa using List.find?_some hf'
    rw [hf', Prod.ext (hkey.trans hkey'.symm) hv.symm]

/-- The reads fix the listing. -/
theorem Lists.unique {ls' : List Listed} (h : Lists s n ls) (h' : Lists s n ls') : ls = ls' := by
  refine h.ordered.eq_of_find h'.ordered fun k => ?_
  have hvalue := Except.ok.inj ((h.value k).symm.trans (h'.value k))
  have hslot (slot : Key) := Except.ok.inj ((h.slot k slot).symm.trans (h'.slot k slot))
  cases hf : ls.find? fun l => l.key = k with
  | none =>
    rw [hf] at hvalue
    exact (Option.map_eq_none_iff.mp hvalue.symm).symm
  | some l =>
    rw [hf] at hvalue hslot
    obtain ⟨l', hf', hv⟩ := Option.map_eq_some_iff.mp hvalue.symm
    rw [hf'] at hslot
    have hkey : l.key = k := by simpa using List.find?_some hf
    have hkey' : l'.key = k := by simpa using List.find?_some hf'
    have hslots := slots_unique (h.slotsOrdered l (List.mem_of_find?_eq_some hf))
      (h'.slotsOrdered l' (List.mem_of_find?_eq_some hf')) hslot
    obtain ⟨key, value, slots⟩ := l
    obtain ⟨key', value', slots'⟩ := l'
    cases hkey.trans hkey'.symm
    cases hv
    cases hslots
    exact hf'.symm

/-- An entry of a listing, and the leaf that it is for. -/
structure Listed.Of (t : Tree 16 StateLeaf) (l : Listed) (e : List Nibble × LeafOut) : Prop where
  key : keyNibbles l.key = e.1
  value : l.value = e.2.rlp
  leaf : ∃ a, t.get e.1 = some a ∧ a.Surfaces e.2 ∧ l.slots = a.slots

omit [Keccak] in
/-- The slots of a storage, under their keys. -/
theorem slots_forall₂ (st : Storage) :
    List.Forall₂ (fun (x : Key × Bytes) (e : List Nibble × Bytes) => keyNibbles x.1 = e.1 ∧ x.2 = e.2)
      (st.tree.toList.map (keyed [])) st.tree.toList := by
  rw [List.forall₂_map_left_iff, List.forall₂_same]
  intro e he
  obtain ⟨key, hkey⟩ := exists_key (st.canon.get_length (Tree.mem_toList.mp he))
  refine ⟨?_, rfl⟩
  unfold keyed
  rw [List.nil_append, ← hkey, keyOf_keyNibbles]

omit [Keccak] in
theorem StateLeaf.slots_ordered (a : StateLeaf) : Ascending Prod.fst a.slots := by
  cases a with
  | raw v => exact .nil
  | account n b c st =>
    refine .of_forall₂ (slots_forall₂ st) (Tree.sorted_toList st.tree) fun hx hy hlt => ?_
    rwa [← compare_keyNibbles, hx.1, hy.1]

omit [Keccak] in
theorem StateLeaf.slot_eq_find (a : StateLeaf) (slot : Key) :
    a.slot slot = (a.slots.find? fun e => e.1 = slot).map Prod.snd := by
  cases a with
  | raw v => rfl
  | account n b c st =>
    show st.tree.get (keyNibbles slot) = _
    rw [Tree.get_eq_find]
    have hrel := Radix.find_rel (slots_forall₂ st) (p := fun e => e.1 = slot)
      (q := fun e => e.1 = keyNibbles slot) fun h => by
        rw [← h.1]
        exact decide_eq_decide.mpr keyNibbles_inj.symm
    unfold slots
    generalize (st.tree.toList.map (keyed [])).find? _ = o at hrel ⊢
    generalize st.tree.toList.find? _ = o' at hrel ⊢
    cases hrel with
    | none => rfl
    | some h => exact congrArg some h.2.symm

omit [Keccak] in
/-- The leaves of a frontier as a listing. -/
theorem exists_listed {T : Tree 16 LeafOut} (h : Tree.Alike StateLeaf.Surfaces t T)
    (hlen : ∀ k a, t.get k = some a → k.length = 64) :
    ∃ ls, List.Forall₂ (Listed.Of t) ls T.toList := by
  have hmem : ∀ e ∈ t.toList, t.get e.1 = some e.2 := fun e he => Tree.mem_toList.mp he
  have hrel := h.toList
  generalize t.toList = l at hmem hrel
  generalize T.toList = m at hrel
  induction hrel with
  | nil => exact ⟨[], .nil⟩
  | @cons a b l m hab hl ih =>
    obtain ⟨ls, hls⟩ := ih fun e he => hmem e (List.mem_cons_of_mem _ he)
    have hget := hmem a List.mem_cons_self
    obtain ⟨key, hkey⟩ := exists_key (hlen _ _ hget)
    exact ⟨⟨key, b.2.rlp, a.2.slots⟩ :: ls,
      .cons ⟨hkey.trans hab.1, rfl, a.2, hab.1 ▸ hget, hab.2, rfl⟩ hls⟩

omit [Keccak] in
/-- A key in a listing. -/
theorem find_listed {T : Tree 16 LeafOut} (hls : List.Forall₂ (Listed.Of t) ls T.toList) (key : Key) :
    Option.Rel (Listed.Of t) (ls.find? fun l => l.key = key)
      (T.toList.find? fun e => e.1 = keyNibbles key) :=
  Radix.find_rel hls fun h => by
    rw [← h.key]
    exact decide_eq_decide.mpr keyNibbles_inj.symm

/-- The listing is what the reads return. -/
theorem lists_of_shows (h : Shows stateKind [] (loaded s n) t)
    (hls : List.Forall₂ (Listed.Of t) ls (ramLeaves (loaded s n)).toList) : Lists s n ls where
  ordered := .of_forall₂ hls (Tree.sorted_toList _) fun hx hy hlt => by
    rwa [← compare_keyNibbles, hx.key, hy.key]
  value key := by
    rw [getValue_loaded]
    refine (ramGet_leaves (loaded s n) h (List.nil_append _).symm).trans ?_
    have hfind := find_listed hls key
    rw [Tree.get_eq_find]
    generalize (ramLeaves (loaded s n)).toList.find? _ = o' at hfind ⊢
    generalize ls.find? _ = o at hfind ⊢
    cases hfind with
    | none => rfl
    | some hof => exact congrArg (fun v => Except.ok (some v)) hof.value.symm
  slotsOrdered l hl := by
    obtain ⟨e, -, hof⟩ := Radix.exists_related hls hl
    obtain ⟨a, -, -, hslots⟩ := hof.leaf
    rw [hslots]
    exact a.slots_ordered
  slot key slot := by
    rw [getStorage_loaded]
    refine (ramGetStorage_shows (loaded s n) h (List.nil_append _).symm slot).trans ?_
    have hget := (ramLeaves_alike surfaces_state (loaded s n) h).get (keyNibbles key)
    rw [Tree.get_eq_find (ramLeaves _)] at hget
    have hfind := find_listed hls key
    generalize hf : (ramLeaves (loaded s n)).toList.find? _ = o' at hget hfind
    generalize ls.find? _ = o at hfind ⊢
    cases hfind with
    | none =>
      cases ht : t.get (keyNibbles key) with
      | none => rfl
      | some a =>
        rw [ht] at hget
        cases hget
    | @some l e hof =>
      have hkey : e.1 = keyNibbles key := by simpa using List.find?_some hf
      obtain ⟨a, ha, -, hslots⟩ := hof.leaf
      rw [← hkey, ha]
      show Except.ok (a.slot slot) = .ok (l.slot slot)
      rw [StateLeaf.slot_eq_find, ← hslots]
      rfl

/-! ## Cursors -/

omit [Keccak] in
theorem keySuccessor_spec : Ordered.Successor keySuccessor where
  some h j := keySuccessor_some h j
  none h j := keySuccessor_none h j

/-- The entry of a listed key: a value that is no account is an error. -/
def Listed.account (l : Listed) : Except Err AccountEntry := accountEntry l.key (.value l.value)

omit [Keccak] in
theorem Listed.account_total (l : Listed) :
    (∃ e, l.account = .ok e) ∨ l.account = .error .accountLeafRlp := by
  unfold Listed.account accountEntry
  dsimp only
  cases Eth.Account.decode l.value with
  | none => exact .inr rfl
  | some a => exact .inl ⟨_, rfl⟩

omit [Keccak] in
theorem accountEntry_rlp (key : Key) (out : LeafOut) :
    accountEntry key (.value out.rlp) = accountEntry key out := by
  cases out with
  | account n b c root => simp only [accountEntry, LeafOut.rlp, accountRlp, Eth.Account.decode_rlp]
  | value v => rfl

omit [Keccak] in
theorem leafKey_keyNibbles (debug : Bool) (key : Key) : leafKey debug (keyNibbles key) = .ok key := by
  unfold leafKey
  rw [keyNibbles_length, nibblesToKey_keyNibbles, bne_self_eq_false, Bool.and_false]
  rfl

/-- A cursor over the frontier, with a record of it. -/
def AccountCursor.Fit (s : Store) (n : RamNode) (c : AccountCursor) : Prop :=
  c.upper = n ∧ MemoFor s (diskPtrs n) c.memo

/-- A call of a cursor, where no I/O call fails. -/
def called {κ β : Type} (s : Store) (p : Upd κ β) : κ × Except Err β := (run exec p s.healthy).1

omit [Keccak] in
/-- The first listed key from a target on is the first leaf. -/
theorem firstFrom_listed {T : Tree 16 LeafOut} (hls : List.Forall₂ (Listed.Of t) ls T.toList)
    (key : Key) : Option.Rel (Listed.Of t) (firstFrom Listed.key ls key)
      (T.seek (some (keyNibbles key))) :=
  Radix.find_rel hls fun h => by
    unfold atLeast
    rw [Option.all_some, ← h.key, compare_keyNibbles]

/-- The walk of a cursor from the root. -/
theorem ramSeek_root {α : Type} {K : Kind α} {u : Tree 16 α} {ptrs : List DiskPtr} {p : List Nibble}
    (hunits : UnitsApart ptrs) {debug : Bool} (hd : debug = true → K.root = [] ∨ diskPtrs n = [])
    (h : Shows K [] (mapLeaves (fetch s) n p) u) (hsub : ∀ x ∈ diskPtrs n, x ∈ ptrs) {memo : RecordMemo}
    (hm : MemoFor s ptrs memo) (target : List Nibble) : ∃ memo', MemoFor s ptrs memo' ∧
      run exec (ramSeek debug n [] target false memo) s.healthy =
        ((memo', .ok ((ramLeaves (mapLeaves (fetch s) n p)).seek (some target))), s.healthy) := by
  obtain ⟨memo', hm', hrun⟩ := ramSeek_run hunits n hd h hsub (positioned_root false target) hm
  refine ⟨memo', hm', hrun.trans ?_⟩
  have hid : prefixed (α := LeafOut) (r := 16) [] = id := rfl
  rw [hid, Option.map_id]
  rfl

/-- What a seek leaves and returns. -/
theorem account_seek (hunits : UnitsApart (diskPtrs n)) (h : Shows stateKind [] (loaded s n) t)
    (hls : List.Forall₂ (Listed.Of t) ls (ramLeaves (loaded s n)).toList) (debug : Bool)
    {c : AccountCursor} (hc : c.Fit s n) (key : Key) : ∃ c' : AccountCursor, c'.Fit s n ∧
      c'.last = (firstFrom Listed.key ls key).map Listed.key ∧ called s (c.seek debug key) =
        (c', (firstFrom Listed.key ls key).elim (.ok none) fun l => l.account.map some) := by
  obtain ⟨upper, memo, last⟩ := c
  obtain ⟨rfl, hm⟩ := hc
  obtain ⟨memo', hm', hrun⟩ := ramSeek_root hunits (fun _ => .inl rfl) h (fun _ hx => hx) hm (keyNibbles key)
  have hcall : called s (AccountCursor.seek debug ⟨upper, memo, last⟩ key) =
      AccountCursor.found debug ⟨upper, memo', last⟩
        (.ok ((ramLeaves (loaded s upper)).seek (some (keyNibbles key)))) := by
    unfold called AccountCursor.seek thenUpd
    rw [run_bind, hrun]
    rfl
  have hfirst := firstFrom_listed hls key
  rw [hcall]
  generalize firstFrom Listed.key ls key = o at hfirst ⊢
  generalize (ramLeaves (loaded s upper)).seek _ = o' at hfirst ⊢
  cases hfirst with
  | none => exact ⟨⟨upper, memo', none⟩, ⟨rfl, hm'⟩, rfl, rfl⟩
  | @some l e hof =>
    obtain ⟨path, out⟩ := e
    obtain rfl : keyNibbles l.key = path := hof.key
    refine ⟨⟨upper, memo', some l.key⟩, ⟨rfl, hm'⟩, rfl, ?_⟩
    unfold AccountCursor.found Listed.account
    dsimp only
    rw [leafKey_keyNibbles, Option.elim_some, hof.value, accountEntry_rlp]

theorem account_seeks (hunits : UnitsApart (diskPtrs n)) (h : Shows stateKind [] (loaded s n) t)
    (hls : List.Forall₂ (Listed.Of t) ls (ramLeaves (loaded s n)).toList) (debug : Bool) :
    Seeks Listed.key Listed.account ls (AccountCursor.Fit s n) AccountCursor.last fun c key =>
      called s (c.seek debug key) where
  keeps hc key := by
    obtain ⟨c', hc', -, hcall⟩ := account_seek hunits h hls debug hc key
    rw [hcall]
    exact hc'
  last hc key := by
    obtain ⟨c', -, hlast, hcall⟩ := account_seek hunits h hls debug hc key
    rw [hcall]
    exact hlast
  result hc key := by
    obtain ⟨c', -, -, hcall⟩ := account_seek hunits h hls debug hc key
    rw [hcall]

theorem account_advances (s : Store) (debug : Bool) :
    Ordered.Advances keySuccessor AccountCursor.last (fun c key => called s (c.seek debug key))
      fun c => called s (c.next debug) where
  stop hl hk := by
    unfold called AccountCursor.next
    rw [hl]
    dsimp only
    rw [hk]
    rfl
  go hl hk := by
    unfold AccountCursor.next
    rw [hl]
    dsimp only
    rw [hk]

end

/-! ## Views -/

/-- A frontier that cursors are opened on: that of an idle writer, or a snapshot's. -/
def Sys.View (σ : Sys) (n : RamNode) : Prop :=
  (σ.running = none ∧ n = σ.db.upper) ∨ ∃ snap ∈ σ.holders, n = snap.root

section
variable [Keccak] {env : Env} {σ : Sys} {n : RamNode} {ramMode direct : Bool} {faults : List Bool}

omit [Keccak] in
theorem unitsApart_of_visible {W : Holds} {s : Store} {g : Multiset Rec} (hI : StoreInv W s g)
    (p : List Nibble → Bytes) (h : ∀ x ∈ recsAt p n, W.Visible g x) : UnitsApart (diskPtrs n) := by
  intro x hx x' hx' hunit
  obtain ⟨b, hb⟩ := exists_recAt p hx
  obtain ⟨b', hb'⟩ := exists_recAt p hx'
  exact congrArg Prod.fst ((hI.visible (h _ hb)).eq_of_unit (hI.visible (h _ hb')) hunit)

/-- In a regular run the store serves the records of a view. -/
theorem view_visible (hrun : RegularRun env (.create ramMode direct faults) σ) (hn : σ.View n) :
    ∃ W g p, StoreInv W σ.store g ∧ ∀ x ∈ recsAt p n, W.Visible g x := by
  obtain ⟨pay, saved, sh, hI⟩ := regularInv_of_run hrun
  rcases hn with ⟨hrunning, rfl⟩ | ⟨snap, hheld, rfl⟩
  · obtain ⟨p, rest, hw, -, -⟩ := hI.frontedWith hrunning
    refine ⟨_, _, p, hI.store.upkept.store, fun x hx => writerRec_visible ?_⟩
    rw [hw]
    exact Multiset.mem_add.mpr (.inl hx)
  · exact ⟨_, _, _, hI.store.upkept.store, fun x hx => snapRec_visible hheld hx⟩

/-- In a regular run a view shows a tree, and its records are apart. -/
theorem view_shown (hrun : RegularRun env (.create ramMode direct faults) σ) (hn : σ.View n) :
    (∃ t, Shows stateKind [] (loaded σ.store n) t) ∧ UnitsApart (diskPtrs n) := by
  obtain ⟨hidle, hsnap⟩ := shown_of_run hrun
  obtain ⟨W, g, p, hstore, hvisible⟩ := view_visible hrun hn
  refine ⟨?_, unitsApart_of_visible hstore p hvisible⟩
  rcases hn with ⟨hrunning, rfl⟩ | ⟨snap, hheld, rfl⟩
  · exact hidle hrunning
  · exact hsnap snap hheld

/-- What the reads of a view return can be listed. -/
theorem exists_lists (hrun : RegularRun env (.create ramMode direct faults) σ) (hn : σ.View n) :
    ∃ ls, Lists σ.store n ls := by
  obtain ⟨⟨t, ht⟩, -⟩ := view_shown hrun hn
  obtain ⟨ls, hls⟩ := exists_listed (ramLeaves_alike surfaces_state _ ht) fun _ _ => ht.get_length
  exact ⟨ls, lists_of_shows ht hls⟩

/-- A live account is listed. -/
theorem Sys.Observes.listed {l : Logical} (h : σ.Observes l) {ls : List Listed} (hls : Lists σ.store σ.db.upper ls)
    {key : Key} {a : Acct} (hl : l key = some a) : ∃ x ∈ ls, x.key = key := by
  obtain ⟨o, hget, hrel⟩ := h.value key
  rw [hls.value, hl] at *
  cases hf : ls.find? fun x => x.key = key with
  | none =>
    rw [hf] at hget
    cases hget
    cases hrel
  | some x => exact ⟨x, List.mem_of_find?_eq_some hf, by simpa using List.find?_some hf⟩

/-- What is listed is a live account. -/
theorem Sys.Observes.live {l : Logical} (h : σ.Observes l) {ls : List Listed} (hls : Lists σ.store σ.db.upper ls)
    {x : Listed} (hx : x ∈ ls) :
    ∃ a, l x.key = some a ∧ ∃ root, x.value = accountRlp a.nonce a.balance a.codeHash root := by
  obtain ⟨o, hget, hrel⟩ := h.value x.key
  rw [hls.value, hls.ordered.find hx] at hget
  cases hget
  generalize l x.key = o at hrel
  cases hrel with
  | some hv => exact ⟨_, rfl, hv⟩

theorem Sys.Observes.decode {l : Logical} (h : σ.Observes l) {ls : List Listed} (hls : Lists σ.store σ.db.upper ls)
    {x : Listed} (hx : x ∈ ls) : (Eth.Account.decode x.value).isSome := by
  obtain ⟨a, -, root, hv⟩ := h.live hls hx
  rw [hv, accountRlp, Eth.Account.decode_rlp]
  rfl

/-! ## Accounts in order -/

/-- A cursor that was opened on a frontier and has served some calls. -/
inductive AccountCursor.Used (debug : Bool) (s : Store) (n : RamNode) : AccountCursor → Prop
  | opened : Used debug s n (accountCursor n)
  | seek {c : AccountCursor} (h : Used debug s n c) (key : Key) :
      Used debug s n (called s (c.seek debug key)).1
  | next {c : AccountCursor} (h : Used debug s n c) : Used debug s n (called s (c.next debug)).1

theorem AccountCursor.Used.fit {s : Store} {t : Tree 16 StateLeaf} {ls : List Listed} {debug : Bool}
    {c : AccountCursor} (hunits : UnitsApart (diskPtrs n)) (h : Shows stateKind [] (loaded s n) t)
    (hls : List.Forall₂ (Listed.Of t) ls (ramLeaves (loaded s n)).toList) (hc : c.Used debug s n) :
    c.Fit s n := by
  have hseeks := account_seeks hunits h hls debug
  induction hc with
  | opened => exact ⟨rfl, memoFor_none⟩
  | seek _ key ih => exact hseeks.keeps ih key
  | @next c _ ih =>
    unfold AccountCursor.next
    split
    · exact ih
    · split
      · exact ih
      · exact hseeks.keeps ih _

end

/-! ## Small databases -/

/-- Two accounts below one top-level slot, the first with two slots, and one below another. -/
def threeOps : List (Key × StateOp) :=
  [(.fill 0x30, .setStorage (.fill 0x01) [1]), (.fill 0x30, .setStorage (.fill 0x02) [1]),
    (.fill 0x31, .setStorage (.fill 0x01) [1]), (.fill 0x40, .setStorage (.fill 0x01) [1])]

/-- New databases in RAM-build mode serve them. -/
theorem small_serves :
    let _ : Keccak := flatHash
    ∀ ops ∈ [slotOps, threeOps],
      (serves staleEnv (.create true false []) ops).isSome = true := by
  decide +kernel

theorem small_run {ops : List (Key × StateOp)} (hops : ops ∈ [slotOps, threeOps]) :
    ∃ (_ : Keccak) (σ : Sys), RegularRun staleEnv (.create true false []) σ ∧ σ.running = none ∧
      σ.Observes (execBlock (fun _ => none) ops) := by
  obtain ⟨σ, hσ⟩ := Option.isSome_iff_exists.mp (small_serves ops hops)
  have hshort : ∀ ops ∈ [slotOps, threeOps], ∀ e ∈ ops, e.2.Short := by decide
  have hkeys : ∀ ops ∈ [slotOps, threeOps], ∀ k ∈ ops.map Prod.fst, ∀ k' ∈ ops.map Prod.fst,
      (keyNibbles k').take 63 = (keyNibbles k).take 63 → k' = k := by decide
  exact ⟨_, σ, @Served.created flatHash _ _ _ _ _ _ (@Served.of_serves flatHash _ _ _ _ hσ)
    (hshort ops hops) (hkeys ops hops)⟩

theorem oneSlot_run :
    ∃ (_ : Keccak) (σ : Sys), RegularRun staleEnv (.create true false []) σ ∧ σ.running = none ∧
      σ.Observes (execBlock (fun _ => none) slotOps) :=
  small_run List.mem_cons_self

theorem threeOps_run :
    ∃ (_ : Keccak) (σ : Sys), RegularRun staleEnv (.create true false []) σ ∧ σ.running = none ∧
      σ.Observes (execBlock (fun _ => none) threeOps) :=
  small_run (List.mem_cons_of_mem _ List.mem_cons_self)

/-- It lists that account alone. -/
theorem oneSlot_listed [Keccak] {σ : Sys} (hobs : σ.Observes (execBlock (fun _ => none) slotOps))
    {ls : List Listed} (hls : Lists σ.store σ.db.upper ls) : ∃ x : Listed, x.key = .fill 0x30 ∧ ls = [x] := by
  have hkey {x : Listed} (hx : x ∈ ls) : x.key = .fill 0x30 := by
    obtain ⟨a, ha, -⟩ := hobs.live hls hx
    by_contra hne
    change Function.update (fun _ : Key => (none : Option Acct)) (.fill 0x30) _ x.key = some a at ha
    rw [Function.update_of_ne hne] at ha
    cases ha
  obtain ⟨x, hx, -⟩ := hobs.listed hls (show execBlock (fun _ => none) slotOps (.fill 0x30) = some _ from rfl)
  cases ls with
  | nil => cases hx
  | cons y rest =>
    cases rest with
    | nil => exact ⟨y, hkey List.mem_cons_self, rfl⟩
    | cons z rest =>
      have hlt := List.rel_of_pairwise_cons hls.ordered List.mem_cons_self
      rw [hkey (List.mem_cons_of_mem _ List.mem_cons_self), hkey List.mem_cons_self,
        Std.ReflOrd.compare_self] at hlt
      cases hlt

end FlatMpt
