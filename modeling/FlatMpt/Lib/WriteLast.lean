import FlatMpt.Lib.Prog

/-!
# Programs that write last

A program that asks reads only, up to one last request, holds the resources it began
with until that request is answered.

    ReadsOnly, WritesLast
    ReadsOnly.step, WritesLast.step     -- one step of such a program
-/

namespace Prog

variable {Req : Type} {Resp : Req → Type} {α β : Type} (reads last : Req → Prop)

/-- Every request is a read. -/
def ReadsOnly : {α : Type} → Prog Resp α → Prop
  | _, .pure _ => True
  | _, .step r k => reads r ∧ ∀ x, ReadsOnly (k x)
  | _, .par ps k => (∀ i, ReadsOnly (ps i)) ∧ ∀ bs, ReadsOnly (k bs)

/-- Every request is a read, but perhaps the last one. -/
def WritesLast : {α : Type} → Prog Resp α → Prop
  | _, .pure _ => True
  | _, .step r k => reads r ∧ (∀ x, WritesLast (k x)) ∨ last r ∧ ∀ x, ∃ a, k x = .pure a
  | _, .par ps k => (∀ i, ReadsOnly reads (ps i)) ∧ ∀ bs, WritesLast (k bs)

variable {reads last}

variable {G σ : Type} [AddCommMonoid G] {L : Logic Resp G} {exec : (r : Req) → σ → Resp r × σ}
  {ok : (r : Req) → Resp r → Prop} {I : σ → G → Prop}

/-- A step of a reader: the resources are the same. -/
theorem ReadsOnly.step (hL : L.Sound exec ok I)
    (hreads : ∀ r g (K : Resp r → G → Prop), reads r → L.rule r g K →
      L.rule r g fun x g' => K x g' ∧ g' = g)
    {s s' : σ} {p p' : Prog Resp α} (h : Step exec ok s p s' p') (hr : ReadsOnly reads p) :
    ∀ {g f : G} {Q : α → G → Prop}, I s (g + f) → wp L p g Q →
      wp L p' g Q ∧ I s' (g + f) ∧ ReadsOnly reads p' := by
  induction h with
  | req hok =>
    intro g f Q hI hp
    obtain ⟨g', ⟨hx, rfl⟩, hI'⟩ := hL _ _ _ _ _ hI (hreads _ _ _ hr.1 hp) hok
    exact ⟨hx, hI', hr.2 _⟩
  | @child α β s s' n ps k p' i h ih =>
    rintro g f Q hI ⟨gs, fr, R, rfl, hps, hk⟩
    have hsum : gs i + (∑ j ∈ Finset.univ.erase i, gs j + (fr + f)) = ∑ j, gs j + fr + f := by
      rw [sum_update_add, Function.update_eq_self, ← add_assoc]
    rw [← hsum] at hI ⊢
    obtain ⟨hp', hI', hr'⟩ := ih (hr.1 i) hI (hps i)
    refine ⟨⟨gs, fr, R, rfl, ?_, hk⟩, hI', ?_, hr.2⟩
    · exact (Function.forall_update_iff ps fun j q => wp L q (gs j) (R j)).mpr
        ⟨hp', fun j _ => hps j⟩
    · exact (Function.forall_update_iff ps fun _ q => ReadsOnly reads q).mpr
        ⟨hr', fun j _ => hr.1 j⟩
  | join bs =>
    rintro g f Q hI ⟨gs, fr, R, rfl, hps, hk⟩
    exact ⟨hk bs gs hps, hI, hr.2 bs⟩

/-- A step of a program that writes last: the resources are the same, or it has ended. -/
theorem WritesLast.step (hL : L.Sound exec ok I)
    (hreads : ∀ r g (K : Resp r → G → Prop), reads r → L.rule r g K →
      L.rule r g fun x g' => K x g' ∧ g' = g)
    {s s' : σ} {p p' : Prog Resp α} (h : Step exec ok s p s' p') (hw : WritesLast reads last p)
    {g f : G} {Q : α → G → Prop} (hI : I s (g + f)) (hp : wp L p g Q) :
    ∃ g', wp L p' g' Q ∧ I s' (g' + f) ∧ WritesLast reads last p' ∧
      (g' = g ∨ ∃ a, p' = .pure a) := by
  cases h with
  | req hok =>
    rcases hw with ⟨hr, hw⟩ | ⟨-, hend⟩
    · obtain ⟨g', ⟨hx, rfl⟩, hI'⟩ := hL _ _ _ _ _ hI (hreads _ _ _ hr hp) hok
      exact ⟨g', hx, hI', hw _, .inl rfl⟩
    · obtain ⟨g', hx, hI'⟩ := hL _ _ _ _ _ hI hp hok
      obtain ⟨a, ha⟩ := hend (exec _ s).1
      refine ⟨g', hx, hI', ?_, .inr ⟨a, ha⟩⟩
      rw [ha]
      exact trivial
  | @child _ β _ _ n ps k q i h =>
    obtain ⟨gs, fr, R, rfl, hps, hk⟩ := hp
    have hsum : gs i + (∑ j ∈ Finset.univ.erase i, gs j + (fr + f)) = ∑ j, gs j + fr + f := by
      rw [sum_update_add, Function.update_eq_self, ← add_assoc]
    rw [← hsum] at hI
    obtain ⟨hp', hI', hr'⟩ := (hw.1 i).step hL hreads h hI (hps i)
    rw [hsum] at hI'
    refine ⟨_, ⟨gs, fr, R, rfl, ?_, hk⟩, hI', ⟨?_, hw.2⟩, .inl rfl⟩
    · exact (Function.forall_update_iff ps fun j q => wp L q (gs j) (R j)).mpr
        ⟨hp', fun j _ => hps j⟩
    · exact (Function.forall_update_iff ps fun _ q => ReadsOnly reads q).mpr
        ⟨hr', fun j _ => hw.1 j⟩
  | join bs =>
    obtain ⟨gs, fr, R, rfl, hps, hk⟩ := hp
    exact ⟨_, hk bs gs hps, hI, hw.2 bs, .inl rfl⟩

end Prog
