import FlatMpt.StoreInv

/-!
# Records apart

Owned records share no unit: a record is written to room that nothing kept occupies.

    DiskPtr.Apart     -- pointers without a common unit
    Scattered g       -- the records of `g` pairwise apart, counted with repetition
    layout_scattered  -- records packed into one run
    Grows, flat_grows -- what a store call does to the owned records
    Grows.scattered   -- it keeps them apart
-/

namespace FlatMpt

/-- Units apart. -/
def DiskPtr.Apart (p q : DiskPtr) : Prop := p.unit + p.units ≤ q.unit ∨ q.unit + q.units ≤ p.unit

theorem DiskPtr.Apart.symm {p q : DiskPtr} (h : p.Apart q) : q.Apart p := Or.symm h

/-- Owned records lie apart. -/
def Scattered (g : Multiset Rec) : Prop := ∀ x y, ({x, y} : Multiset Rec) ≤ g → x.1.Apart y.1

/-! ## Pairs -/

section
variable {α : Type} {x y a : α} {g h : Multiset α}

theorem pair_le_cons (hle : ({x, y} : Multiset α) ≤ a ::ₘ g) :
    (x = a ∧ y ∈ g) ∨ (y = a ∧ x ∈ g) ∨ ({x, y} : Multiset α) ≤ g := by
  by_cases hx : x = a
  · subst hx
    refine .inl ⟨rfl, ?_⟩
    rw [Multiset.insert_eq_cons] at hle
    exact Multiset.singleton_le.mp ((Multiset.cons_le_cons_iff x).mp hle)
  by_cases hy : y = a
  · subst hy
    refine .inr (.inl ⟨rfl, ?_⟩)
    rw [Multiset.pair_comm, Multiset.insert_eq_cons] at hle
    exact Multiset.singleton_le.mp ((Multiset.cons_le_cons_iff y).mp hle)
  · refine .inr (.inr ((Multiset.le_cons_of_notMem ?_).mp hle))
    intro ha
    rcases Multiset.mem_cons.mp ha with ha | ha
    · exact hx ha.symm
    · exact hy (Multiset.mem_singleton.mp ha).symm

theorem pair_le_add (hle : ({x, y} : Multiset α) ≤ g + h) :
    ({x, y} : Multiset α) ≤ g ∨ ({x, y} : Multiset α) ≤ h ∨ (x ∈ g ∧ y ∈ h) ∨ (y ∈ g ∧ x ∈ h) := by
  induction g using Multiset.induction with
  | empty =>
    rw [zero_add] at hle
    exact .inr (.inl hle)
  | cons a g ih =>
    rw [Multiset.cons_add] at hle
    obtain ⟨rfl, hy⟩ | ⟨rfl, hx⟩ | hle := pair_le_cons hle
    · rcases Multiset.mem_add.mp hy with hy | hy
      · exact .inl (Multiset.cons_le_cons x (Multiset.singleton_le.mpr hy))
      · exact .inr (.inr (.inl ⟨Multiset.mem_cons_self .., hy⟩))
    · rcases Multiset.mem_add.mp hx with hx | hx
      · refine .inl ?_
        rw [Multiset.pair_comm]
        exact Multiset.cons_le_cons y (Multiset.singleton_le.mpr hx)
      · exact .inr (.inr (.inr ⟨Multiset.mem_cons_self .., hx⟩))
    · obtain h | h | ⟨h1, h2⟩ | ⟨h1, h2⟩ := ih hle
      · exact .inl (h.trans (Multiset.le_cons_self g a))
      · exact .inr (.inl h)
      · exact .inr (.inr (.inl ⟨Multiset.mem_cons_of_mem h1, h2⟩))
      · exact .inr (.inr (.inr ⟨Multiset.mem_cons_of_mem h1, h2⟩))

end

/-! ## Scattered records -/

section
variable {g h : Multiset Rec}

theorem Scattered.mono (hg : Scattered g) (hle : h ≤ g) : Scattered h :=
  fun x y hxy => hg x y (hxy.trans hle)

theorem Scattered.add (hg : Scattered g) (hh : Scattered h)
    (hgh : ∀ x ∈ g, ∀ y ∈ h, x.1.Apart y.1) : Scattered (g + h) := by
  intro x y hxy
  obtain hxy | hxy | ⟨hx, hy⟩ | ⟨hy, hx⟩ := pair_le_add hxy
  · exact hg x y hxy
  · exact hh x y hxy
  · exact hgh x hx y hy
  · exact (hgh y hy x hx).symm

theorem Scattered.apart (hg : Scattered g) {x y : Rec} (hx : x ∈ g) (hy : y ∈ g) (hne : x ≠ y) :
    x.1.Apart y.1 := by
  refine hg x y ?_
  rw [Multiset.insert_eq_cons]
  obtain ⟨g', rfl⟩ := Multiset.exists_cons_of_mem hx
  have hy' : y ∈ g' := (Multiset.mem_cons.mp hy).resolve_left (Ne.symm hne)
  exact Multiset.cons_le_cons x (Multiset.singleton_le.mpr hy')

/-- A pointer has one payload. -/
theorem Scattered.payload (hg : Scattered g) : ∃ pay : DiskPtr → Bytes, ∀ x ∈ g, pay x.1 = x.2 := by
  classical
  refine ⟨fun p => if hp : ∃ b, (p, b) ∈ g then hp.choose else [], fun x hx => ?_⟩
  have hex : ∃ b, (x.1, b) ∈ g := ⟨x.2, hx⟩
  show (if hp : ∃ b, (x.1, b) ∈ g then hp.choose else []) = x.2
  rw [dif_pos hex]
  by_contra hne
  have hap := hg.apart hex.choose_spec hx fun he => hne (congrArg Prod.snd he)
  have hpos := unit_pos x.1
  rcases hap with hle | hle
  · exact absurd hle (by show ¬x.1.unit + x.1.units ≤ x.1.unit; omega)
  · exact absurd hle (by show ¬x.1.unit + x.1.units ≤ x.1.unit; omega)

/-- Packed records start at the base. -/
theorem layout_le (base : Nat) (ps : List Bytes) :
    ∀ x ∈ recsOf (layout base ps) ps, base ≤ x.1.unit := by
  induction ps generalizing base with
  | nil => exact fun x hx => absurd hx (Multiset.notMem_zero x)
  | cons p ps ih =>
    intro x hx
    have hx : x ∈ (⟨base, p.length⟩, p) ::ₘ recsOf (layout _ ps) ps := hx
    rcases Multiset.mem_cons.mp hx with rfl | hx
    · exact le_rfl
    · exact le_trans (Nat.le_add_right _ _) (ih _ x hx)

theorem layout_scattered (base : Nat) (ps : List Bytes) : Scattered (recsOf (layout base ps) ps) := by
  induction ps generalizing base with
  | nil =>
    intro x y hxy
    have hx : x ∈ (0 : Multiset Rec) := Multiset.mem_of_le hxy (Multiset.mem_cons_self ..)
    exact absurd hx (Multiset.notMem_zero x)
  | cons p ps ih =>
    intro x y hxy
    have hxy : ({x, y} : Multiset Rec) ≤ (⟨base, p.length⟩, p) ::ₘ recsOf (layout _ ps) ps := hxy
    obtain ⟨rfl, hy⟩ | ⟨rfl, hx⟩ | hxy := pair_le_cons hxy
    · exact .inl (layout_le _ ps y hy)
    · exact .inr (layout_le _ ps x hx)
    · exact ih _ x y hxy

/-- Packed records end in their run. -/
theorem layout_end (base : Nat) (ps : List Bytes) :
    ∀ x ∈ recsOf (layout base ps) ps, x.1.unit + x.1.units ≤ base + runLive ps := by
  induction ps generalizing base with
  | nil => exact fun x hx => absurd hx (Multiset.notMem_zero x)
  | cons p ps ih =>
    have hlive : runLive (p :: ps) = unitsFor (RECORD_HDR + p.length) + runLive ps := by
      unfold runLive
      rw [List.map_cons, List.sum_cons]
    intro x hx
    have hx : x ∈ (⟨base, p.length⟩, p) ::ₘ recsOf (layout _ ps) ps := hx
    rw [hlive]
    rcases Multiset.mem_cons.mp hx with rfl | hx
    · show base + unitsFor (RECORD_HDR + p.length) ≤ _
      omega
    · have := ih _ x hx
      omega

end

/-! ## Store calls -/

section
variable {W : Holds} {s : Store} {g : Multiset Rec} {ptrs : List DiskPtr}

/-- A new run is apart from the records stored before. -/
theorem writeRun_scattered (hI : StoreInv W s g) (hg : Scattered g) {ps : List Bytes}
    {unpadded : Bool} (hok : (s.writeRun ps unpadded).1 = .ok ptrs) :
    Scattered (recsOf ptrs ps + g) := by
  unfold Store.writeRun at hok
  obtain ⟨e, he⟩ | ⟨unit, seg', endPage', ha, he | he⟩ := allocRun_cases s ps unpadded
  · rw [he] at hok
    cases hok
  · rw [he] at hok
    cases hok
  rw [he] at hok
  simp only at hok
  split at hok
  · cases hok
  cases hok
  refine (layout_scattered unit ps).add hg fun x hx y hy => ?_
  have h1 := layout_le unit ps x hx
  have h2 := layout_end unit ps x hx
  have h3 := le_paddedUnits s (runLive ps)
  rcases RegionAlloc.alloc_disjoint hI.regions (hI.stored y hy).taken ha with h | h
  · exact .inr (by omega)
  · exact .inl (by omega)

theorem writeRuns_scattered {runs : List (List Bytes)} (hI : StoreInv W s g) (hg : Scattered g)
    (hruns : ∀ run ∈ runs, run ≠ [])
    (hsmall : ∀ run ∈ runs, ∀ p ∈ run, p.length ≤ MAX_RECORD_BYTES)
    (hok : (s.writeRuns runs).1 = .ok ptrs) : Scattered (recsOf ptrs runs.flatten + g) := by
  induction runs generalizing s g ptrs with
  | nil =>
    have h0 : recsOf ptrs ([] : List (List Bytes)).flatten = 0 := by
      unfold recsOf
      rw [List.flatten_nil, List.zip_nil_right]
      rfl
    rwa [h0, zero_add]
  | cons run rest ih =>
    have hrun := hI.writeRun (hruns run List.mem_cons_self) (hsmall run List.mem_cons_self) false
    have hsc : ∀ ps, (s.writeRun run false).1 = .ok ps → Scattered (recsOf ps run + g) :=
      fun ps => writeRun_scattered hI hg
    unfold Store.writeRuns at hok
    cases hr : s.writeRun run false with | mk r s' =>
    rw [hr] at hrun hok hsc
    obtain ⟨ps, rfl, hlen, hI'⟩ | ⟨e, rfl, -⟩ := hrun
    · simp only at hok
      have ih : ∀ qs, (s'.writeRuns rest).1 = .ok qs →
          Scattered (recsOf qs rest.flatten + (recsOf ps run + g)) := fun _ => ih hI' (hsc ps rfl)
        (fun r hr => hruns r (List.mem_cons_of_mem _ hr))
        (fun r hr => hsmall r (List.mem_cons_of_mem _ hr))
      cases hr' : s'.writeRuns rest with | mk r' s'' =>
      rw [hr'] at hok ih
      cases r' with
      | error e => cases hok
      | ok qs =>
        cases hok
        rw [List.flatten_cons, recsOf_append hlen, add_assoc, add_left_comm]
        exact ih qs rfl
    · cases hok

theorem writeBatch_scattered (hI : StoreInv W s g) (hg : Scattered g) {payloads : List Bytes}
    (hok : (s.writeBatch payloads).1 = .ok ptrs) : Scattered (recsOf ptrs payloads + g) := by
  unfold Store.writeBatch at hok
  cases ht : Store.tooLarge payloads with
  | some p =>
    rw [ht] at hok
    cases hok
  | none =>
    rw [ht] at hok
    have := writeRuns_scattered hI.drainIfUnaliased hg (runsOf_ne_nil payloads)
      (small_of_tooLarge ht) hok
    rwa [runsOf_flatten] at this

/-- A parallel batch that succeeds is a serial one. -/
theorem writeBatchParallel_ok {payloads : List Bytes} {ptrs : List DiskPtr}
    (hok : (s.writeBatchParallel payloads).1 = .ok ptrs) :
    s.writeBatchParallel payloads = s.writeBatch payloads := by
  unfold Store.writeBatchParallel at hok ⊢
  unfold Store.writeBatch
  simp only at hok ⊢
  cases ht : Store.tooLarge payloads with
  | some p => rfl
  | none =>
    rw [ht] at hok
    simp only at hok ⊢
    generalize s.drainStagedIfUnaliased = s1 at hok ⊢
    cases hr : s1.allocRuns (runsOf payloads) with | mk r s2 =>
    rw [hr] at hok
    cases r with
    | error e => cases hok
    | ok units =>
      simp only at hok ⊢
      cases hw : s2.pwriteRuns (units.zip (runsOf payloads)) with | mk r s3 =>
      rw [hw] at hok
      cases r with
      | error e => cases hok
      | ok _ => exact (writeRuns_of_parallel hr hw).symm

theorem writeBatchParallel_scattered (hI : StoreInv W s g) (hg : Scattered g)
    {payloads : List Bytes} (hok : (s.writeBatchParallel payloads).1 = .ok ptrs) :
    Scattered (recsOf ptrs payloads + g) := by
  refine writeBatch_scattered hI hg ?_
  rwa [← writeBatchParallel_ok hok]

theorem writePayload_scattered (hI : StoreInv W s g) (hg : Scattered g) {payload : Bytes}
    {p : DiskPtr} (hok : (s.writePayload payload).1 = .ok p) : Scattered ((p, payload) ::ₘ g) := by
  unfold Store.writePayload at hok
  split at hok
  · cases hok
  have hlen := hI.writeRun (List.cons_ne_nil payload [])
    (fun q hq => by rw [List.mem_singleton.mp hq]; omega) true
  have hsc : ∀ ps, (s.writeRun [payload] true).1 = .ok ps → Scattered (recsOf ps [payload] + g) :=
    fun ps => writeRun_scattered hI hg
  cases hr : s.writeRun [payload] true with | mk r s' =>
  rw [hr] at hok hlen hsc
  obtain ⟨ps, rfl, hlen, -⟩ | ⟨e, rfl, -⟩ := hlen
  · obtain ⟨q, rfl⟩ := List.length_eq_one_iff.mp hlen
    cases hok
    have := hsc [q] rfl
    rwa [show recsOf [q] [payload] = {(q, payload)} from rfl, Multiset.singleton_add] at this
  · cases hok

/-- What a request does to the records owned. -/
def Grows : (r : Req) → Resp r → Multiset Rec → Multiset Rec → Prop
  | .writePayload payload, x, g, g' =>
    (∃ p, x = .ok p ∧ g' = (p, payload) ::ₘ g) ∨ ∃ e, x = .error e ∧ g' = g
  | .writeBatch payloads, x, g, g' =>
    (∃ ptrs, x = .ok ptrs ∧ g' = recsOf ptrs payloads + g) ∨ ∃ e, x = .error e ∧ g' = g
  | .writeBatchParallel payloads, x, g, g' =>
    (∃ ptrs, x = .ok ptrs ∧ g' = recsOf ptrs payloads + g) ∨ ∃ e, x = .error e ∧ g' = g
  | .free p, _, g, g' => ∃ b, g = (p, b) ::ₘ g'
  | _, _, g, g' => g' = g

/-- Requests keep the invariant and do to the owned records what they should, also for
a program that knows of fewer pins than there are. -/
theorem flat_grows {W W' : Holds} (hW : ∀ e ∈ W.pinned, e ∈ W'.pinned)
    {ok : (r : Req) → Resp r → Prop} {r : Req} {s : Store} {g f : Multiset Rec}
    {K : Resp r → Multiset Rec → Prop} (hI : StoreInv W' s (g + f)) (hK : flatRule W r g K)
    (hok : ok r (exec r s).1) :
    ∃ g', K (exec r s).1 g' ∧ StoreInv W' (exec r s).2 (g' + f) ∧ Grows r (exec r s).1 g g' := by
  have hvis : ∀ {x}, W.Visible g x → W'.Visible g x := fun hx =>
    hx.imp_right fun ⟨gen, h⟩ => ⟨gen, hW _ h⟩
  have hK' : flatRule W' r g fun x g' => K x g' ∧ Grows r x g g' := by
    cases r with
    | read p =>
      obtain ⟨b, hb, h1, h2⟩ := hK
      exact ⟨b, hvis hb, ⟨h1, rfl⟩, fun e => ⟨h2 e, rfl⟩⟩
    | pread off len recs =>
      refine ⟨fun p hp => ?_, fun bytes hb => ⟨hK.2.1 bytes (hb.mono fun x hx => hvis hx), rfl⟩,
        fun e => ⟨hK.2.2 e, rfl⟩⟩
      obtain ⟨b, hb⟩ := hK.1 p hp
      exact ⟨b, hvis hb⟩
    | writePayload payload =>
      exact ⟨fun p => ⟨hK.1 p, .inl ⟨p, rfl, rfl⟩⟩, fun e => ⟨hK.2 e, .inr ⟨e, rfl, rfl⟩⟩⟩
    | writeBatch payloads =>
      exact ⟨fun ps hlen => ⟨hK.1 ps hlen, .inl ⟨ps, rfl, rfl⟩⟩,
        fun e => ⟨hK.2 e, .inr ⟨e, rfl, rfl⟩⟩⟩
    | writeBatchParallel payloads =>
      exact ⟨fun ps hlen => ⟨hK.1 ps hlen, .inl ⟨ps, rfl, rfl⟩⟩,
        fun e => ⟨hK.2 e, .inr ⟨e, rfl, rfl⟩⟩⟩
    | free p =>
      obtain ⟨b, g', rfl, hK⟩ := hK
      exact ⟨b, g', rfl, hK, b, rfl⟩
    | selectVictims pick => exact fun victims hn => ⟨hK victims hn, rfl⟩
    | refuse e => exact ⟨hK, rfl⟩
  obtain ⟨g', ⟨hx, hgrow⟩, hI'⟩ := flat_sound W' ok r s g f _ hI hK' hok
  exact ⟨g', hx, hI', hgrow⟩

theorem Grows.scattered {r : Req} {f g' : Multiset Rec} (h : Grows r (exec r s).1 g g')
    (hI : StoreInv W s (g + f)) (hg : Scattered (g + f)) : Scattered (g' + f) := by
  cases r with
  | writePayload payload =>
    obtain ⟨p, hp, rfl⟩ | ⟨e, -, rfl⟩ := h
    · rw [Multiset.cons_add]
      exact writePayload_scattered hI hg hp
    · exact hg
  | writeBatch payloads =>
    obtain ⟨ptrs, hp, rfl⟩ | ⟨e, -, rfl⟩ := h
    · rw [add_assoc]
      exact writeBatch_scattered hI hg hp
    · exact hg
  | writeBatchParallel payloads =>
    obtain ⟨ptrs, hp, rfl⟩ | ⟨e, -, rfl⟩ := h
    · rw [add_assoc]
      exact writeBatchParallel_scattered hI hg hp
    · exact hg
  | free p =>
    obtain ⟨b, rfl⟩ := h
    rw [Multiset.cons_add] at hg
    exact hg.mono (Multiset.le_cons_self _ _)
  | read p =>
    obtain rfl : g' = g := h
    exact hg
  | pread off len recs =>
    obtain rfl : g' = g := h
    exact hg
  | selectVictims pick =>
    obtain rfl : g' = g := h
    exact hg
  | refuse e =>
    obtain rfl : g' = g := h
    exact hg

end

end FlatMpt
