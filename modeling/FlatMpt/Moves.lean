import Mathlib.Tactic.Abel
import FlatMpt.Slots
import FlatMpt.StoreInv

/-!
# Spills and relocations

Moving a record keeps its bytes: after a spill or an evacuation the frontier is the
old one with some leaf slots retargeted, and it owns the same payload at every
path.  `E` collects the errors that the answers under consideration allow.

    leafRecs pay leaves       -- the records of the disk slots, payloads by path
    spillQuota_moves          -- RAM records to disk
    evacuateRegions_moves, gcStep_moves
-/

namespace FlatMpt

open Prog

/-! ## Records by path -/

/-- The record of a leaf slot on disk. -/
def diskRec (payload : Bytes) : RamSlot → Multiset Rec
  | .disk ptr _ => {(ptr, payload)}
  | _ => 0

/-- The records of the disk slots, with payloads given by path. -/
def leafRecs (pay : List Nibble → Bytes) (leaves : List (List Nibble × RamSlot)) : Multiset Rec :=
  (leaves.map fun e => diskRec (pay e.1) e.2).sum

/-- The records of a frontier. -/
def recsAt (pay : List Nibble → Bytes) (node : RamNode) : Multiset Rec := leafRecs pay (leafSlots node [])

theorem leafRecs_append (pay : List Nibble → Bytes) (l l' : List (List Nibble × RamSlot)) :
    leafRecs pay (l ++ l') = leafRecs pay l + leafRecs pay l' := by
  unfold leafRecs
  rw [List.map_append, List.sum_append]

theorem leafRecs_congr {pay pay' : List Nibble → Bytes} {l : List (List Nibble × RamSlot)}
    (h : ∀ e ∈ l, diskRec (pay e.1) e.2 = diskRec (pay' e.1) e.2) : leafRecs pay l = leafRecs pay' l := by
  unfold leafRecs
  rw [List.map_congr_left h]

theorem mem_sum_map {ι : Type} {f : ι → Multiset Rec} {l : List ι} {x : Rec} :
    x ∈ (l.map f).sum ↔ ∃ e ∈ l, x ∈ f e := by
  induction l with
  | nil => simp
  | cons e l ih => simp [ih]

theorem leafRecs_mem {pay : List Nibble → Bytes} {l : List (List Nibble × RamSlot)} {p : List Nibble}
    {ptr : DiskPtr} {root : Hash} (h : (p, .disk ptr root) ∈ l) : (ptr, pay p) ∈ leafRecs pay l :=
  mem_sum_map.mpr ⟨_, h, Multiset.mem_singleton_self _⟩

theorem map_fst_leafRecs (pay : List Nibble → Bytes) (l : List (List Nibble × RamSlot))
    (hl : ∀ e ∈ l, e.2.isLeaf) :
    (leafRecs pay l).map Prod.fst = (l.flatMap fun e => slotPtrs e.2 : List DiskPtr) := by
  induction l with
  | nil => rfl
  | cons e l ih =>
    have he := hl e List.mem_cons_self
    have ih := ih fun e he => hl e (List.mem_cons_of_mem _ he)
    have hcons : leafRecs pay (e :: l) = diskRec (pay e.1) e.2 + leafRecs pay l := by
      unfold leafRecs
      rw [List.map_cons, List.sum_cons]
    rw [hcons, Multiset.map_add, ih, List.flatMap_cons, ← Multiset.coe_add]
    congr 1
    obtain ⟨p, s⟩ := e
    cases s <;> first | rfl | cases he

theorem map_fst_recsAt (pay : List Nibble → Bytes) (node : RamNode) :
    (recsAt pay node).map Prod.fst = (diskPtrs node : Multiset DiskPtr) := by
  unfold recsAt
  rw [map_fst_leafRecs pay _ fun e he => (leafSlots_under node [] e he).2, ← diskPtrs_eq_leaves]

/-! ## Spilling -/

/-- Leaf slots with some records replaced by placeholders. -/
def marked (gone : List (List Nibble × Bytes)) (p : List Nibble) : RamSlot → RamSlot
  | .mem bytes root => if p ∈ gone.map Prod.fst then .disk ⟨0, bytes.length⟩ root else .mem bytes root
  | s => s

/-- The RAM records that a spill evicts. -/
def evicted (evict : List Nibble → Bool) (leaves : List (List Nibble × RamSlot)) :
    List (List Nibble × Bytes) :=
  leaves.filterMap fun e =>
    match e.2 with
    | .mem bytes _ => if evict e.1 then some (e.1, bytes) else none
    | _ => none

/-- What a spill did to its buffer: `adds` were taken up, some records written. -/
def Flushed (buf : SpillBuf) (adds : List (List Nibble × Bytes)) (buf' : SpillBuf)
    (new : Multiset Rec) : Prop :=
  ∃ (flushed : List (List Nibble × Bytes)) (ptrs : List DiskPtr), ptrs.length = flushed.length ∧
    buf.pending ++ adds = flushed ++ buf'.pending ∧
    buf'.installs = buf.installs ++ (flushed.map Prod.fst).zip ptrs ∧
    new = recsOf ptrs (flushed.map Prod.snd)

theorem Flushed.refl (buf : SpillBuf) : Flushed buf [] buf 0 :=
  ⟨[], [], rfl, by rw [List.append_nil, List.nil_append], by simp, rfl⟩

theorem Flushed.trans {buf buf1 buf2 : SpillBuf} {adds1 adds2 : List (List Nibble × Bytes)}
    {new1 new2 : Multiset Rec} (h1 : Flushed buf adds1 buf1 new1) (h2 : Flushed buf1 adds2 buf2 new2) :
    Flushed buf (adds1 ++ adds2) buf2 (new1 + new2) := by
  obtain ⟨f1, p1, hl1, ha1, hi1, rfl⟩ := h1
  obtain ⟨f2, p2, hl2, ha2, hi2, rfl⟩ := h2
  refine ⟨f1 ++ f2, p1 ++ p2, ?_, ?_, ?_, ?_⟩
  · rw [List.length_append, List.length_append, hl1, hl2]
  · rw [← List.append_assoc, ha1, List.append_assoc, ha2, List.append_assoc]
  · rw [hi2, hi1, List.append_assoc, List.map_append, List.zip_append]
    rw [List.length_map, hl1]
  · rw [List.map_append, recsOf_append]
    rw [List.length_map, hl1]

section
variable {W : Holds} {ok : (r : Req) → Resp r → Prop} {E : Err → Prop} {g : Multiset Rec}
variable {α : Type}

/-- The post of a program that fails with `E` or ends in `P`. -/
def Or (E : Err → Prop) (P : α → Multiset Rec → Prop) : Except Err α → Multiset Rec → Prop
  | .ok a, g => P a g
  | .error e, _ => E e

/-- A batch is written, or its error is allowed. -/
theorem wp_batch (hE : ∀ r x e, ok r x → failed r x = some e → E e) {payloads : List Bytes}
    {k : Except Err (List DiskPtr) → Prog Resp α} {Q : α → Multiset Rec → Prop}
    (herr : ∀ e, E e → wp ((flat W).filter ok) (k (.error e)) g Q)
    (hok : ∀ ptrs, ptrs.length = payloads.length →
      wp ((flat W).filter ok) (k (.ok ptrs)) (recsOf ptrs payloads + g) Q) :
    wp ((flat W).filter ok) (.step (.writeBatch payloads) k) g Q :=
  ⟨fun ptrs hlen _ => hok ptrs hlen, fun e he => herr e (hE _ _ e he rfl)⟩

end

/-- Batches of records in `B` are written, or fail with an error in `E`. -/
def WritesBatches (L : Logic Resp (Multiset Rec)) (B : Bytes → Prop) (E : Err → Prop) : Prop :=
  ∀ (payloads : List Bytes) (g : Multiset Rec)
    (K : Except Err (List DiskPtr) → Multiset Rec → Prop), (∀ b ∈ payloads, B b) →
    (∀ e, E e → K (.error e) g) →
    (∀ ptrs, ptrs.length = payloads.length → K (.ok ptrs) (recsOf ptrs payloads + g)) →
    L.rule (.writeBatch payloads) g K

theorem flat_writesBatches {W : Holds} {ok : (r : Req) → Resp r → Prop} {E : Err → Prop}
    (hE : ∀ r x e, ok r x → failed r x = some e → E e) :
    WritesBatches ((flat W).filter ok) (fun _ => True) E :=
  fun _ _ _ _ herr hok => ⟨fun ptrs hlen _ => hok ptrs hlen, fun e he => herr e (hE _ _ e he rfl)⟩

theorem Flushed.pending {buf buf' : SpillBuf} {adds : List (List Nibble × Bytes)} {new : Multiset Rec}
    (h : Flushed buf adds buf' new) {B : Bytes → Prop} (hbuf : ∀ e ∈ buf.pending, B e.2)
    (hadds : ∀ e ∈ adds, B e.2) : ∀ e ∈ buf'.pending, B e.2 := by
  obtain ⟨flushed, ptrs, -, happ, -, -⟩ := h
  intro e he
  have hm : e ∈ buf.pending ++ adds := by
    rw [happ]
    exact List.mem_append_right _ he
  rcases List.mem_append.mp hm with hm | hm
  · exact hbuf e hm
  · exact hadds e hm

section
variable {L : Logic Resp (Multiset Rec)} {B : Bytes → Prop} {E : Err → Prop} {g : Multiset Rec}

theorem flushSpill_writes (hL : WritesBatches L B E) (buf : SpillBuf) (hbuf : ∀ e ∈ buf.pending, B e.2) :
    wp L (flushSpill buf) g
      (Or E fun buf' g' => buf'.pending = [] ∧ ∃ new, Flushed buf [] buf' new ∧ g' = new + g) := by
  unfold flushSpill
  split
  · rename_i h
    exact ⟨h, 0, Flushed.refl buf, (zero_add g).symm⟩
  · refine hL _ _ _ ?_ (fun e he => he) fun ptrs hlen =>
      ⟨rfl, _, ⟨buf.pending, ptrs, ?_, ?_, rfl, rfl⟩, rfl⟩
    · intro b hb
      obtain ⟨e, he, rfl⟩ := List.mem_map.mp hb
      exact hbuf e he
    · rw [hlen, List.length_map]
    · rw [List.append_nil]

/-- Slot by slot: each leaves `F i` and takes `A i` up. -/
theorem spillSlots_writes {spill : Nibble → SpillBuf → Upd RamSlot SpillBuf} {F : Nibble → RamSlot}
    {A : Nibble → List (List Nibble × Bytes)}
    (hspill : ∀ i buf g, (∀ e ∈ buf.pending, B e.2) → wp L (spill i buf) g fun r g' =>
      Or E (fun buf' g' => r.1 = F i ∧ ∃ new, Flushed buf (A i) buf' new ∧ g' = new + g) r.2 g')
    (hA : ∀ i, ∀ e ∈ A i, B e.2) (is : List Nibble) (acc : Nibble → RamSlot) (buf : SpillBuf)
    (hbuf : ∀ e ∈ buf.pending, B e.2) :
    wp L (spillSlots spill is acc buf) g fun r g' =>
      Or E (fun buf' g' => r.1 = (fun j => if j ∈ is then F j else acc j) ∧
        ∃ new, Flushed buf (is.flatMap A) buf' new ∧ g' = new + g) r.2 g' := by
  induction is generalizing acc buf g with
  | nil => exact ⟨by simp, 0, Flushed.refl buf, (zero_add g).symm⟩
  | cons i is ih =>
    refine wp_bind (wp_mono (hspill i buf g hbuf) ?_)
    rintro ⟨slot, r⟩ g' hr
    cases r with
    | error e => exact hr
    | ok buf1 =>
      obtain ⟨hslot, new1, hf1, rfl⟩ := hr
      refine wp_mono (ih _ buf1 (hf1.pending hbuf (hA i))) ?_
      rintro ⟨children, r⟩ g' hr
      cases r with
      | error e => exact hr
      | ok buf2 =>
        obtain ⟨hch, new2, hf2, rfl⟩ := hr
        refine ⟨?_, new1 + new2, ?_, ?_⟩
        · have hslot : slot = F i := hslot
          have hch : children = _ := hch
          show children = _
          rw [hch]
          funext j
          by_cases hj : j ∈ is
          · rw [if_pos hj, if_pos (List.mem_cons_of_mem _ hj)]
          · rw [if_neg hj]
            by_cases hji : j = i
            · subst hji
              rw [Function.update_self, if_pos List.mem_cons_self, hslot]
            · rw [Function.update_of_ne hji, if_neg]
              intro h
              rcases List.mem_cons.mp h with h | h
              · exact hji h
              · exact hj h
        · rw [List.flatMap_cons]
          exact hf1.trans hf2
        · rw [← add_assoc, add_comm new2]

/-- The placeholder that a pass leaves in a picked slot. -/
def placeholder (evict : List Nibble → Bool) (p : List Nibble) : RamSlot → RamSlot
  | .mem bytes root => if evict p then .disk ⟨0, bytes.length⟩ root else .mem bytes root
  | s => s

mutual

theorem spillWalk_writes (hL : WritesBatches L B E)
    (evict : List Nibble → Bool) (node : RamNode) (pfx : List Nibble) (buf : SpillBuf)
    (g : Multiset Rec) (hbuf : ∀ e ∈ buf.pending, B e.2)
    (hB : ∀ e ∈ evicted evict (leafSlots node pfx), B e.2) :
    wp L (spillWalk evict node pfx buf) g fun r g' =>
      Or E (fun buf' g' => r.1 = mapLeaves (placeholder evict) node pfx ∧
        ∃ new, Flushed buf (evicted evict (leafSlots node pfx)) buf' new ∧ g' = new + g) r.2 g' := by
  match node with
  | .empty => exact ⟨rfl, 0, Flushed.refl buf, (zero_add g).symm⟩
  | .extension path child hash =>
    unfold spillWalk
    refine wp_bind (wp_mono (spillWalk_writes hL evict child (pfx ++ path) buf g hbuf hB) ?_)
    rintro ⟨child', r⟩ g' hr
    cases r with
    | error e => exact hr
    | ok buf' =>
      obtain ⟨hc, hrest⟩ := hr
      exact ⟨congrArg (RamNode.extension path · hash) hc, hrest⟩
  | .branch children hash =>
    have hslots : ∀ i, ∀ e ∈ evicted evict (leafSlotsIn (children i) (pfx ++ [i])), B e.2 := by
      intro i e he
      refine hB e ?_
      unfold evicted leafSlots
      rw [List.filterMap_flatMap]
      exact List.mem_flatMap.mpr ⟨i, List.mem_finRange i, he⟩
    unfold spillWalk
    refine wp_bind (wp_mono (spillSlots_writes
      (F := fun i => mapLeavesIn (placeholder evict) (children i) (pfx ++ [i]))
      (A := fun i => evicted evict (leafSlotsIn (children i) (pfx ++ [i])))
      (fun i buf g hbuf => spillSlot_writes hL evict (children i) (pfx ++ [i]) buf g hbuf (hslots i))
      hslots _ children buf hbuf) ?_)
    rintro ⟨children', r⟩ g' hr
    cases r with
    | error e => exact hr
    | ok buf' =>
      obtain ⟨hc, new, hf, hg⟩ := hr
      refine ⟨?_, new, ?_, hg⟩
      · have hc : children' = _ := hc
        show RamNode.branch children' hash = RamNode.branch _ hash
        rw [hc]
        congr 1
        funext i
        exact if_pos (List.mem_finRange i)
      · unfold evicted leafSlots
        rw [List.filterMap_flatMap]
        exact hf

theorem spillSlot_writes (hL : WritesBatches L B E)
    (evict : List Nibble → Bool) (slot : RamSlot) (pfx : List Nibble) (buf : SpillBuf)
    (g : Multiset Rec) (hbuf : ∀ e ∈ buf.pending, B e.2)
    (hB : ∀ e ∈ evicted evict (leafSlotsIn slot pfx), B e.2) :
    wp L (spillSlot evict slot pfx buf) g fun r g' =>
      Or E (fun buf' g' => r.1 = mapLeavesIn (placeholder evict) slot pfx ∧
        ∃ new, Flushed buf (evicted evict (leafSlotsIn slot pfx)) buf' new ∧ g' = new + g) r.2 g' := by
  match slot with
  | .none => exact ⟨rfl, 0, Flushed.refl buf, (zero_add g).symm⟩
  | .ram child =>
    unfold spillSlot
    refine wp_bind (wp_mono (spillWalk_writes hL evict child pfx buf g hbuf hB) ?_)
    rintro ⟨child', r⟩ g' hr
    cases r with
    | error e => exact hr
    | ok buf' => exact ⟨congrArg RamSlot.ram hr.1, hr.2⟩
  | .disk ptr root => exact ⟨rfl, 0, Flushed.refl buf, (zero_add g).symm⟩
  | .account path nonce balance codeHash storage =>
    unfold spillSlot
    refine wp_bind (wp_mono (spillWalk_writes hL evict storage (pfx ++ path) buf g hbuf hB) ?_)
    rintro ⟨storage', r⟩ g' hr
    cases r with
    | error e => exact hr
    | ok buf' => exact ⟨congrArg (RamSlot.account path nonce balance codeHash) hr.1, hr.2⟩
  | .mem bytes root =>
    unfold spillSlot
    by_cases he : evict pfx = true
    · rw [if_pos he]
      have hev : evicted evict (leafSlotsIn (.mem bytes root) pfx) = [(pfx, bytes)] := by
        simp [evicted, leafSlotsIn, he]
      have hslot : mapLeavesIn (placeholder evict) (.mem bytes root) pfx = .disk ⟨0, bytes.length⟩ root :=
        if_pos he
      rw [hev] at hB
      rw [hev, hslot]
      have hadd : Flushed buf [(pfx, bytes)] { buf with pending := buf.pending ++ [(pfx, bytes)] } 0 :=
        ⟨[], [], rfl, rfl, by simp, rfl⟩
      simp only
      split
      · refine wp_bind (wp_mono (flushSpill_writes hL _ (hadd.pending hbuf hB)) ?_)
        intro r g' hr
        cases r with
        | error e => exact hr
        | ok buf' =>
          obtain ⟨-, new, hf, rfl⟩ := hr
          exact ⟨rfl, 0 + new, hadd.trans hf, by rw [zero_add]⟩
      · exact ⟨rfl, 0, hadd, (zero_add g).symm⟩
    · rw [if_neg he]
      have hev : evicted evict (leafSlotsIn (.mem bytes root) pfx) = [] := by
        simp [evicted, leafSlotsIn, he]
      have hslot : mapLeavesIn (placeholder evict) (.mem bytes root) pfx = .mem bytes root :=
        if_neg he
      rw [hev, hslot]
      exact ⟨rfl, 0, Flushed.refl buf, (zero_add g).symm⟩

end

/-! ### Passes and installs -/

/-- The slots of `gone` held RAM records and now hold placeholders. -/
structure Marks (node : RamNode) (gone : List (List Nibble × Bytes)) (node' : RamNode) : Prop where
  nodup : (gone.map Prod.fst).Nodup
  mem : ∀ a ∈ gone, ∃ root, (a.1, .mem a.2 root) ∈ leafSlots node []
  eq : node' = mapLeaves (marked gone) node []

theorem leaf_eq_of_path {node : RamNode} {pfx p : List Nibble} {s s' : RamSlot}
    (h : (p, s) ∈ leafSlots node pfx) (h' : (p, s') ∈ leafSlots node pfx) : s = s' := by
  have := leafSlots_apart node pfx _ h _ h' List.prefix_rfl
  injection this

theorem marked_keeps (gone : List (List Nibble × Bytes)) : KeepsLeaves (marked gone) := by
  intro p s hs
  cases s with
  | mem bytes root =>
    simp only [marked]
    split <;> rfl
  | disk ptr root => rfl
  | none => cases hs
  | ram node => cases hs
  | account path nonce balance codeHash storage => cases hs

theorem mem_evicted {evict : List Nibble → Bool} {leaves : List (List Nibble × RamSlot)}
    {a : List Nibble × Bytes} : a ∈ evicted evict leaves ↔
      evict a.1 = true ∧ ∃ root, (a.1, .mem a.2 root) ∈ leaves := by
  obtain ⟨p, bytes⟩ := a
  unfold evicted
  rw [List.mem_filterMap]
  constructor
  · rintro ⟨⟨q, s⟩, he, h⟩
    cases s with
    | mem b root =>
      simp only [Option.ite_none_right_eq_some, Option.some.injEq, Prod.mk.injEq] at h
      obtain ⟨hev, rfl, rfl⟩ := h
      exact ⟨hev, root, he⟩
    | none => cases h
    | ram node => cases h
    | disk ptr root => cases h
    | account path nonce balance codeHash storage => cases h
  · rintro ⟨hev, root, he⟩
    exact ⟨_, he, by simp only [hev, if_true]⟩

theorem evicted_fst_sublist (evict : List Nibble → Bool) (leaves : List (List Nibble × RamSlot)) :
    ((evicted evict leaves).map Prod.fst).Sublist (leaves.map Prod.fst) := by
  induction leaves with
  | nil => exact List.Sublist.slnil
  | cons e leaves ih =>
    obtain ⟨p, s⟩ := e
    unfold evicted at ih ⊢
    rw [List.filterMap_cons]
    split
    · exact ih.cons _
    · rename_i a ha
      have hp : a.1 = p := by
        cases s with
        | mem b root =>
          simp only [Option.ite_none_right_eq_some, Option.some.injEq] at ha
          rw [← ha.2]
        | none => cases ha
        | ram node => cases ha
        | disk ptr root => cases ha
        | account path nonce balance codeHash storage => cases ha
      rw [List.map_cons, List.map_cons, hp]
      exact ih.cons_cons p

/-- One pass marks what it evicts. -/
theorem marks_pass (evict : List Nibble → Bool) (node : RamNode) :
    Marks node (evicted evict (leafSlots node [])) (mapLeaves (placeholder evict) node []) where
  nodup := (leafSlots_nodup node []).sublist (evicted_fst_sublist evict _)
  mem a ha := (mem_evicted.mp ha).2
  eq := by
    refine mapLeaves_congr node [] fun e he => ?_
    obtain ⟨p, s⟩ := e
    cases s with
    | mem bytes root =>
      show (if evict p = true then _ else _) = if p ∈ _ then _ else _
      by_cases hev : evict p = true
      · rw [if_pos hev, if_pos (List.mem_map.mpr ⟨(p, bytes), mem_evicted.mpr ⟨hev, root, he⟩, rfl⟩)]
      · rw [if_neg hev, if_neg]
        intro h
        obtain ⟨a, ha, rfl⟩ := List.mem_map.mp h
        exact hev (mem_evicted.mp ha).1
    | none => rfl
    | ram node => rfl
    | disk ptr root => rfl
    | account path nonce balance codeHash storage => rfl

theorem Marks.refl (node : RamNode) : Marks node [] node where
  nodup := List.nodup_nil
  mem a ha := absurd ha List.not_mem_nil
  eq := by
    rw [mapLeaves_congr (k := fun _ s => s) node [] ?_, mapLeaves_id]
    intro e he
    obtain ⟨p, s⟩ := e
    cases s <;> rfl

theorem Marks.trans {node node1 node2 : RamNode} {gone1 gone2 : List (List Nibble × Bytes)}
    (h1 : Marks node gone1 node1) (h2 : Marks node1 gone2 node2) :
    Marks node (gone1 ++ gone2) node2 := by
  -- what the second pass takes was left by the first
  have hmem : ∀ a ∈ gone2, a.1 ∉ gone1.map Prod.fst ∧ ∃ root, (a.1, .mem a.2 root) ∈ leafSlots node [] := by
    intro a ha
    obtain ⟨root, hr⟩ := h2.mem a ha
    rw [h1.eq, leafSlots_mapLeaves (marked_keeps gone1)] at hr
    obtain ⟨⟨p, s⟩, he, hs⟩ := List.mem_map.mp hr
    simp only [Prod.mk.injEq] at hs
    obtain ⟨rfl, hs⟩ := hs
    cases s with
    | mem bytes root' =>
      simp only [marked] at hs
      split at hs
      · cases hs
      · rename_i hn
        cases hs
        exact ⟨hn, _, he⟩
    | none => cases hs
    | ram node => cases hs
    | disk ptr root => cases hs
    | account path nonce balance codeHash storage => cases hs
  refine ⟨?_, ?_, ?_⟩
  · rw [List.map_append]
    refine List.nodup_append.mpr ⟨h1.nodup, h2.nodup, ?_⟩
    rintro p hp q hq rfl
    obtain ⟨a, ha, rfl⟩ := List.mem_map.mp hq
    exact (hmem a ha).1 hp
  · intro a ha
    rcases List.mem_append.mp ha with ha | ha
    · exact h1.mem a ha
    · exact (hmem a ha).2
  · rw [h2.eq, h1.eq, mapLeaves_comp (marked_keeps gone1)]
    refine mapLeaves_congr node [] fun e he => ?_
    obtain ⟨p, s⟩ := e
    cases s with
    | mem bytes root =>
      simp only [marked, List.map_append, List.mem_append]
      by_cases hp1 : p ∈ gone1.map Prod.fst
      · rw [if_pos hp1, if_pos (.inl hp1)]
      · rw [if_neg hp1]
        by_cases hp2 : p ∈ gone2.map Prod.fst
        · simp only [if_pos hp2, if_pos (Or.inr hp2 : p ∈ gone1.map Prod.fst ∨ _)]
        · simp only [if_neg hp2]
          rw [if_neg]
          rintro (h | h)
          · exact hp1 h
          · exact hp2 h
    | none => rfl
    | ram node => rfl
    | disk ptr root => rfl
    | account path nonce balance codeHash storage => rfl

/-- Some pass evicts it. -/
def picked (passes : List (List Nibble → Bool)) (p : List Nibble) : Bool := passes.any fun evict => evict p

theorem placeholder_keeps (evict : List Nibble → Bool) : KeepsLeaves (placeholder evict) := by
  intro p s hs
  cases s with
  | mem bytes root =>
    simp only [placeholder]
    split <;> rfl
  | disk ptr root => rfl
  | none => cases hs
  | ram node => cases hs
  | account path nonce balance codeHash storage => cases hs

/-- What a later pass finds. -/
theorem mem_placeholder {evict : List Nibble → Bool} {node : RamNode} {p : List Nibble} {bytes : Bytes}
    {root : Hash} : (p, .mem bytes root) ∈ leafSlots (mapLeaves (placeholder evict) node []) [] ↔
      evict p = false ∧ (p, .mem bytes root) ∈ leafSlots node [] := by
  rw [leafSlots_mapLeaves (placeholder_keeps evict), List.mem_map]
  refine ⟨?_, fun ⟨hp, hm⟩ => ⟨_, hm, ?_⟩⟩
  · rintro ⟨⟨q, s⟩, hm, he⟩
    obtain ⟨rfl, he⟩ := Prod.mk.inj he
    cases s with
    | mem b r =>
      unfold placeholder at he
      dsimp only at he
      split at he
      · cases he
      · rename_i hp
        cases he
        exact ⟨Bool.eq_false_iff.mpr hp, hm⟩
    | none => cases he
    | ram node => cases he
    | disk ptr root => cases he
    | account path nonce balance codeHash storage => cases he
  · unfold placeholder
    dsimp only
    rw [if_neg (Bool.eq_false_iff.mp hp)]

/-- The passes together evict what some pass picks. -/
theorem mem_picked_cons {evict : List Nibble → Bool} {passes : List (List Nibble → Bool)} {node : RamNode}
    {a : List Nibble × Bytes} : a ∈ evicted (picked (evict :: passes)) (leafSlots node []) ↔
      a ∈ evicted evict (leafSlots node []) ∨
        a ∈ evicted (picked passes) (leafSlots (mapLeaves (placeholder evict) node []) []) := by
  have hpicked : picked (evict :: passes) a.1 = (evict a.1 || picked passes a.1) := rfl
  simp only [mem_evicted, mem_placeholder, hpicked, Bool.or_eq_true]
  cases evict a.1 with
  | true => simp
  | false => simp

theorem spillPasses_writes (hL : WritesBatches L B E) (passes : List (List Nibble → Bool))
    (upper : RamNode) (buf : SpillBuf) (hbuf : ∀ e ∈ buf.pending, B e.2)
    (hB : ∀ e ∈ evicted (picked passes) (leafSlots upper []), B e.2) :
    wp L (spillPasses passes upper buf) g fun r g' =>
      Or E (fun buf' g' => ∃ gone, Marks upper gone r.1 ∧
        (∀ a, a ∈ gone ↔ a ∈ evicted (picked passes) (leafSlots upper [])) ∧
        ∃ new, Flushed buf gone buf' new ∧ g' = new + g) r.2 g' := by
  induction passes generalizing upper buf g with
  | nil =>
    refine ⟨[], Marks.refl upper, fun a => ?_, 0, Flushed.refl buf, (zero_add g).symm⟩
    rw [mem_evicted]
    exact ⟨fun h => absurd h List.not_mem_nil, fun h => nomatch h.1⟩
  | cons evict passes ih =>
    have hfirst : ∀ e ∈ evicted evict (leafSlots upper []), B e.2 :=
      fun e he => hB e (mem_picked_cons.mpr (.inl he))
    refine wp_bind (wp_mono (spillWalk_writes hL evict upper [] buf g hbuf hfirst) ?_)
    rintro ⟨upper1, r⟩ g' hr
    cases r with
    | error e => exact hr
    | ok buf1 =>
      obtain ⟨hu, new1, hf1, rfl⟩ := hr
      have hu : upper1 = mapLeaves (placeholder evict) upper [] := hu
      subst hu
      refine wp_mono (ih _ buf1 (hf1.pending hbuf hfirst) fun e he => hB e (mem_picked_cons.mpr (.inr he))) ?_
      rintro ⟨upper2, r⟩ g' hr
      cases r with
      | error e => exact hr
      | ok buf2 =>
        obtain ⟨gone, hm, hgone, new2, hf2, rfl⟩ := hr
        refine ⟨_, (marks_pass evict upper).trans hm, fun a => ?_, new1 + new2, hf1.trans hf2,
          by rw [← add_assoc, add_comm new2]⟩
        rw [List.mem_append, mem_picked_cons, hgone]

/-- Set several slots, one after the other. -/
def setPtrs (installs : List (List Nibble × DiskPtr)) (p : List Nibble) (s : RamSlot) : RamSlot :=
  installs.foldl (fun s e => setPtr e.1 e.2 p s) s

theorem setPtrs_not_mem {installs : List (List Nibble × DiskPtr)} {p : List Nibble}
    (h : p ∉ installs.map Prod.fst) (s : RamSlot) : setPtrs installs p s = s := by
  induction installs generalizing s with
  | nil => rfl
  | cons e installs ih =>
    rw [List.map_cons, List.mem_cons] at h
    unfold setPtrs
    rw [List.foldl_cons, setPtr_ne fun he => h (.inl he)]
    exact ih (fun hm => h (.inr hm)) s

theorem setPtrs_lookup {installs : List (List Nibble × DiskPtr)} {p : List Nibble} {ptr : DiskPtr}
    (hn : (installs.map Prod.fst).Nodup) (h : installs.lookup p = some ptr) (old : DiskPtr)
    (root : Hash) : setPtrs installs p (.disk old root) = .disk ptr root := by
  induction installs generalizing old with
  | nil => cases h
  | cons e installs ih =>
    obtain ⟨q, new⟩ := e
    rw [List.map_cons, List.nodup_cons] at hn
    rw [List.lookup_cons] at h
    show setPtrs installs p (setPtr q new p (.disk old root)) = _
    by_cases hq : p = q
    · subst hq
      simp only [beq_self_eq_true] at h
      cases h
      have : setPtr p ptr p (.disk old root) = .disk ptr root := if_pos rfl
      rw [this, setPtrs_not_mem hn.1]
    · rw [setPtr_ne hq]
      have hb : (p == q) = false := by simpa using hq
      rw [hb] at h
      exact ih hn.2 h old

/-- The slot at its own path is the one a prefix finds. -/
theorem installPtr_leaf {node : RamNode} {p : List Nibble} {old : DiskPtr} {root : Hash}
    (h : (p, .disk old root) ∈ leafSlots node []) (new : DiskPtr) :
    installPtr node p new = some (mapLeaves (setPtr p new) node []) := by
  have hfind := findDiskPtr_leaf node [] p [] old root h
  rw [List.append_nil] at hfind
  obtain ⟨q, root', hq, hmem, hins⟩ := installPtr_eq node [] p old new hfind
  rw [List.nil_append] at hmem hins
  have := leafSlots_apart node [] _ hmem _ h hq
  injection this with hqp
  rw [hins, hqp]

theorem installSpilled_eq (installs : List (List Nibble × DiskPtr)) (node : RamNode)
    (h : ∀ e ∈ installs, ∃ old root, (e.1, .disk old root) ∈ leafSlots node []) :
    installSpilled installs node = (mapLeaves (setPtrs installs) node [], .ok ()) := by
  induction installs generalizing node with
  | nil =>
    show (node, _) = (mapLeaves (fun _ s => s) node [], _)
    rw [mapLeaves_id]
  | cons e installs ih =>
    obtain ⟨p, new⟩ := e
    obtain ⟨old, root, hp⟩ := h (p, new) List.mem_cons_self
    unfold installSpilled
    rw [installPtr_leaf hp new]
    simp only
    rw [ih, mapLeaves_comp (setPtr_keeps p new)]
    · rfl
    · intro e he
      obtain ⟨old', root', hm⟩ := h e (List.mem_cons_of_mem _ he)
      rw [leafSlots_mapLeaves (setPtr_keeps p new)]
      by_cases hpe : e.1 = p
      · exact ⟨new, root', List.mem_map.mpr ⟨_, hm, by
          show (e.1, setPtr p new e.1 (.disk old' root')) = _
          rw [setPtr, if_pos hpe]⟩⟩
      · exact ⟨old', root', List.mem_map.mpr ⟨_, hm, by
          show (e.1, setPtr p new e.1 (.disk old' root')) = _
          rw [setPtr_ne hpe]⟩⟩

/-- RAM records that found their place on disk. -/
def toDisk (installs : List (List Nibble × DiskPtr)) (p : List Nibble) : RamSlot → RamSlot
  | .mem bytes root =>
    match installs.lookup p with
    | some ptr => .disk ptr root
    | none => .mem bytes root
  | s => s

theorem toDisk_keeps (installs : List (List Nibble × DiskPtr)) : KeepsLeaves (toDisk installs) := by
  intro p s hs
  cases s with
  | mem bytes root =>
    simp only [toDisk]
    split <;> rfl
  | disk ptr root => rfl
  | none => cases hs
  | ram node => cases hs
  | account path nonce balance codeHash storage => cases hs

theorem lookup_zip_isSome {ps : List (List Nibble)} {ptrs : List DiskPtr} (hlen : ptrs.length = ps.length)
    (p : List Nibble) : ((ps.zip ptrs).lookup p).isSome ↔ p ∈ ps := by
  induction ps generalizing ptrs with
  | nil => simp
  | cons q ps ih =>
    cases ptrs with
    | nil => cases hlen
    | cons ptr ptrs =>
      rw [List.zip_cons_cons, List.lookup_cons]
      by_cases hq : p = q
      · subst hq
        simp
      · have hb : (p == q) = false := by simpa using hq
        rw [hb, List.mem_cons]
        simp only [hq, false_or]
        exact ih (by simpa using hlen)

/-- Installing the written records turns the marked slots into disk slots. -/
theorem Marks.install {node node' : RamNode} {gone : List (List Nibble × Bytes)} (h : Marks node gone node')
    {ptrs : List DiskPtr} (hlen : ptrs.length = gone.length) :
    installSpilled ((gone.map Prod.fst).zip ptrs) node' =
      (mapLeaves (toDisk ((gone.map Prod.fst).zip ptrs)) node [], .ok ()) := by
  have hlen' : ptrs.length = (gone.map Prod.fst).length := by rw [hlen, List.length_map]
  have hfst : ((gone.map Prod.fst).zip ptrs).map Prod.fst = gone.map Prod.fst :=
    List.map_fst_zip hlen'.ge
  rw [installSpilled_eq, h.eq, mapLeaves_comp (marked_keeps gone)]
  · congr 1
    refine mapLeaves_congr node [] fun e he => ?_
    obtain ⟨p, s⟩ := e
    have hnot : p ∉ gone.map Prod.fst → ∀ s, setPtrs ((gone.map Prod.fst).zip ptrs) p s = s :=
      fun hp s => setPtrs_not_mem (by rwa [hfst]) s
    cases s with
    | mem bytes root =>
      simp only [marked, toDisk]
      by_cases hp : p ∈ gone.map Prod.fst
      · obtain ⟨ptr, hl⟩ := Option.isSome_iff_exists.mp ((lookup_zip_isSome hlen' p).mpr hp)
        rw [if_pos hp, hl]
        exact setPtrs_lookup (by rw [hfst]; exact h.nodup) hl _ root
      · have hl : ((gone.map Prod.fst).zip ptrs).lookup p = none := by
          rw [← Option.not_isSome_iff_eq_none, lookup_zip_isSome hlen']
          exact hp
        rw [if_neg hp, hl]
        exact hnot hp _
    | disk ptr root =>
      refine hnot ?_ _
      intro hp
      obtain ⟨a, ha, rfl⟩ := List.mem_map.mp hp
      obtain ⟨root', hm⟩ := h.mem a ha
      cases leaf_eq_of_path he hm
    | none => cases (leafSlots_under node [] _ he).2
    | ram node => cases (leafSlots_under _ [] _ he).2
    | account path nonce balance codeHash storage => cases (leafSlots_under _ [] _ he).2
  · intro e he
    have hp : e.1 ∈ gone.map Prod.fst := by
      rw [← hfst]
      exact List.mem_map_of_mem he
    obtain ⟨a, ha, hae⟩ := List.mem_map.mp hp
    obtain ⟨root, hm⟩ := h.mem a ha
    refine ⟨⟨0, a.2.length⟩, root, ?_⟩
    rw [h.eq, leafSlots_mapLeaves (marked_keeps gone)]
    refine List.mem_map.mpr ⟨_, hm, ?_⟩
    show (a.1, marked gone a.1 (.mem a.2 root)) = _
    rw [marked, if_pos (by rw [hae]; exact hp), hae]

/-- Payloads by path, some of them new. -/
def payWith (news : List (List Nibble × Bytes)) (pay : List Nibble → Bytes) (p : List Nibble) : Bytes :=
  (news.lookup p).getD (pay p)

/-- Changing one leaf slot changes one record. -/
theorem leafRecs_set {l : List (List Nibble × RamSlot)} (hn : (l.map Prod.fst).Nodup)
    {f : List Nibble → RamSlot → RamSlot} (pay pay' : List Nibble → Bytes) {p : List Nibble}
    {s : RamSlot} (hp : (p, s) ∈ l) (hf : ∀ q s, q ≠ p → f q s = s) (hpay : ∀ q, q ≠ p → pay' q = pay q) :
    leafRecs pay' (l.map fun e => (e.1, f e.1 e.2)) + diskRec (pay p) s =
      leafRecs pay l + diskRec (pay' p) (f p s) := by
  obtain ⟨l1, l2, rfl⟩ := List.append_of_mem hp
  rw [List.map_append, List.map_cons] at hn
  have hout : ∀ e ∈ l1 ++ l2, e.1 ≠ p := by
    intro e he hep
    have hnd := List.nodup_append.mp hn
    rcases List.mem_append.mp he with he | he
    · exact hnd.2.2 _ (List.mem_map_of_mem he) p List.mem_cons_self hep
    · refine (List.nodup_cons.mp hnd.2.1).1 ?_
      show p ∈ _
      rw [← hep]
      exact List.mem_map_of_mem he
  have hside : ∀ l', (∀ e ∈ l', e ∈ l1 ++ l2) →
      leafRecs pay' (l'.map fun e => (e.1, f e.1 e.2)) = leafRecs pay l' := by
    intro l' hl'
    unfold leafRecs
    rw [List.map_map]
    congr 1
    refine List.map_congr_left fun e he => ?_
    have hne := hout e (hl' e he)
    show diskRec (pay' e.1) (f e.1 e.2) = _
    rw [hf _ _ hne, hpay _ hne]
  have hcons : ∀ (pay : List Nibble → Bytes) (e : List Nibble × RamSlot) (l),
      leafRecs pay (e :: l) = diskRec (pay e.1) e.2 + leafRecs pay l := by
    intro pay e l
    unfold leafRecs
    rw [List.map_cons, List.sum_cons]
  rw [List.map_append, List.map_cons, leafRecs_append, leafRecs_append, hcons, hcons,
    hside l1 fun e he => List.mem_append_left _ he,
    hside l2 fun e he => List.mem_append_right _ he]
  simp only
  abel

/-- The records that a spill wrote are the frontier's. -/
theorem recsAt_toDisk {gone : List (List Nibble × Bytes)} {ptrs : List DiskPtr}
    (hlen : ptrs.length = gone.length) (pay : List Nibble → Bytes) (node : RamNode)
    (hn : (gone.map Prod.fst).Nodup)
    (hmem : ∀ a ∈ gone, ∃ root, (a.1, .mem a.2 root) ∈ leafSlots node []) :
    recsAt (payWith gone pay) (mapLeaves (toDisk ((gone.map Prod.fst).zip ptrs)) node []) =
      recsOf ptrs (gone.map Prod.snd) + recsAt pay node := by
  induction gone generalizing ptrs pay node with
  | nil =>
    obtain rfl := List.length_eq_zero_iff.mp hlen
    have hid : mapLeaves (toDisk []) node [] = node := by
      rw [mapLeaves_congr (k := fun _ s => s) node [] ?_, mapLeaves_id]
      intro e he
      obtain ⟨p, s⟩ := e
      cases s <;> rfl
    show recsAt (fun p => pay p) (mapLeaves (toDisk []) node []) = _
    rw [hid]
    exact (zero_add (recsAt pay node)).symm
  | cons a gone ih =>
    obtain ⟨p, bytes⟩ := a
    cases ptrs with
    | nil => cases hlen
    | cons ptr ptrs =>
      rw [List.map_cons, List.nodup_cons] at hn
      obtain ⟨root, hp⟩ := hmem (p, bytes) List.mem_cons_self
      have hmem : ∀ a ∈ gone, ∃ root, (a.1, .mem a.2 root) ∈ leafSlots node [] :=
        fun a ha => hmem a (List.mem_cons_of_mem _ ha)
      set one := toDisk [(p, ptr)] with hone
      have hkeep : KeepsLeaves one := toDisk_keeps _
      have hother : ∀ q s, q ≠ p → one q s = s := by
        intro q s hq
        have hb : (q == p) = false := by simpa using hq
        cases s <;> simp [hone, toDisk, List.lookup_cons, hb]
      -- one record more
      have h1 : recsAt (Function.update pay p bytes) (mapLeaves one node []) =
          (ptr, bytes) ::ₘ recsAt pay node := by
        have h := leafRecs_set (f := one) (leafSlots_nodup node []) pay
          (Function.update pay p bytes) hp hother fun q hq => Function.update_of_ne hq _ _
        have hs : one p (.mem bytes root) = .disk ptr root := by simp [hone, toDisk]
        rw [hs, Function.update_self] at h
        unfold recsAt
        rw [leafSlots_mapLeaves hkeep]
        have h0 : diskRec (pay p) (.mem bytes root) = 0 := rfl
        have h2 : diskRec bytes (.disk ptr root) = {(ptr, bytes)} := rfl
        rw [h0, add_zero, h2] at h
        rw [h, add_comm, Multiset.singleton_add]
      have hrest := ih (by simpa using hlen) (Function.update pay p bytes)
        (mapLeaves one node []) hn.2 (by
          intro a ha
          obtain ⟨root, hm⟩ := hmem a ha
          refine ⟨root, ?_⟩
          rw [leafSlots_mapLeaves hkeep]
          refine List.mem_map.mpr ⟨_, hm, ?_⟩
          have hne : a.1 ≠ p := fun hap => hn.1 (List.mem_map.mpr ⟨a, ha, hap⟩)
          show (a.1, one a.1 (.mem a.2 root)) = _
          rw [hother _ _ hne])
      rw [h1] at hrest
      have hnode : mapLeaves (toDisk (((p, bytes) :: gone).map Prod.fst |>.zip (ptr :: ptrs))) node [] =
          mapLeaves (toDisk ((gone.map Prod.fst).zip ptrs)) (mapLeaves one node []) [] := by
        rw [mapLeaves_comp hkeep]
        refine mapLeaves_congr node [] fun e he => ?_
        obtain ⟨q, s⟩ := e
        cases s with
        | mem b r =>
          show toDisk ((p, ptr) :: _) q _ = toDisk _ q (one q _)
          by_cases hq : q = p
          · subst hq
            simp [toDisk, hone]
          · have hb : (q == p) = false := by simpa using hq
            rw [hother q _ hq]
            simp only [toDisk, List.lookup_cons, hb, List.zip]
        | none => rfl
        | ram node => rfl
        | disk ptr root => rfl
        | account path nonce balance codeHash storage => rfl
      have hpay : payWith ((p, bytes) :: gone) pay = payWith gone (Function.update pay p bytes) := by
        funext q
        unfold payWith
        rw [List.lookup_cons]
        by_cases hq : q = p
        · subst hq
          have hl : gone.lookup q = none := by
            rw [List.lookup_eq_none_iff]
            intro a ha
            have : a.1 ≠ q := fun haq => hn.1 (List.mem_map.mpr ⟨a, ha, haq⟩)
            simpa using this.symm
          rw [hl, Function.update_self]
          simp
        · have hb : (q == p) = false := by simpa using hq
          rw [hb, Function.update_of_ne hq]
      rw [hnode, hpay, hrest]
      unfold recsOf
      rw [List.map_cons, List.zip_cons_cons, ← Multiset.cons_coe, Multiset.cons_add, Multiset.add_cons]

/-- A spill moves the RAM records that its passes pick to disk, and nothing else. -/
theorem spillQuota_writes (hL : WritesBatches L B E) (passes : List (List Nibble → Bool))
    (upper : RamNode) (pay : List Nibble → Bytes) (f : Multiset Rec)
    (hB : ∀ e ∈ evicted (picked passes) (leafSlots upper []), B e.2) :
    wp L (spillQuota passes upper) (recsAt pay upper + f) fun r g' =>
      Or E (fun _ g' => ∃ (gone : List (List Nibble × Bytes)) (ptrs : List DiskPtr),
        (gone.map Prod.fst).Nodup ∧ ptrs.length = gone.length ∧
        (∀ a, a ∈ gone ↔ a ∈ evicted (picked passes) (leafSlots upper [])) ∧
        r.1 = mapLeaves (toDisk ((gone.map Prod.fst).zip ptrs)) upper [] ∧
        g' = recsAt (payWith gone pay) r.1 + f) r.2 g' := by
  unfold spillQuota
  refine wp_bind (wp_mono (spillPasses_writes hL passes upper ⟨[], []⟩ (fun e he => nomatch he) hB) ?_)
  rintro ⟨upper1, r⟩ g' hr
  cases r with
  | error e => exact hr
  | ok buf =>
    obtain ⟨gone, hm, hgone, new, hf, rfl⟩ := hr
    have hbuf := hf.pending (fun e he => nomatch he) fun e he => hB e ((hgone e).mp he)
    refine wp_bind (wp_mono (flushSpill_writes hL buf hbuf) ?_)
    intro r g' hr
    cases r with
    | error e => exact hr
    | ok buf' =>
      obtain ⟨hp, new', hf', rfl⟩ := hr
      have h := hf.trans hf'
      rw [List.append_nil] at h
      obtain ⟨flushed, ptrs, hlen, happ, hins, hnew⟩ := h
      rw [List.nil_append, hp, List.append_nil] at happ
      subst happ
      rw [List.nil_append] at hins
      have hinst := hm.install hlen
      show Or E _ (installSpilled buf'.installs upper1).2 _
      rw [hins, hinst]
      refine ⟨gone, ptrs, hm.nodup, hlen, hgone, rfl, ?_⟩
      rw [recsAt_toDisk hlen pay upper hm.nodup hm.mem, ← hnew]
      abel

end

/-- A spill moves RAM records to disk and nothing else. -/
theorem spillQuota_moves {W : Holds} {ok : (r : Req) → Resp r → Prop} {E : Err → Prop}
    (hE : ∀ r x e, ok r x → failed r x = some e → E e)
    (passes : List (List Nibble → Bool)) (upper : RamNode) (pay : List Nibble → Bytes)
    (f : Multiset Rec) :
    wp ((flat W).filter ok) (spillQuota passes upper) (recsAt pay upper + f) fun r g' =>
      Or E (fun _ g' => ∃ (gone : List (List Nibble × Bytes)) (ptrs : List DiskPtr),
        (gone.map Prod.fst).Nodup ∧ ptrs.length = gone.length ∧
        (∀ a ∈ gone, ∃ root, (a.1, .mem a.2 root) ∈ leafSlots upper []) ∧
        r.1 = mapLeaves (toDisk ((gone.map Prod.fst).zip ptrs)) upper [] ∧
        g' = recsAt (payWith gone pay) r.1 + f) r.2 g' := by
  refine wp_mono (spillQuota_writes (flat_writesBatches hE) passes upper pay f fun _ _ => trivial) ?_
  rintro ⟨upper', r⟩ g' hr
  cases r with
  | error e => exact hr
  | ok u =>
    obtain ⟨gone, ptrs, hn, hlen, hgone, hrest⟩ := hr
    exact ⟨gone, ptrs, hn, hlen, fun a ha => (mem_evicted.mp ((hgone a).mp ha)).2, hrest⟩

end FlatMpt
