import FlatMpt.Lib.Prog

/-!
# Requests implemented by programs

Each request of a program is itself a program over finer requests, and the threads
of a fan-out interleave at the finer ones.  If every implementation meets the rule of
its request, what holds of a program by the rules holds of its expansion.

    expand impl p
    Steps.track          -- a run with a ghost state
    wp_expand            -- rules of the requests, by their implementations
-/

namespace Prog

variable {Req Part : Type} {Resp : Req → Type} {Ans : Part → Type} {α β γ : Type}

/-- Replace every request by its implementation. -/
def expand (impl : (r : Req) → Prog Ans (Resp r)) : {α : Type} → Prog Resp α → Prog Ans α
  | _, .pure a => .pure a
  | _, .step r k => (impl r).bind fun x => expand impl (k x)
  | _, .par ps k => .par (fun i => expand impl (ps i)) fun bs => expand impl (k bs)

section
variable {G H : Type} [AddCommMonoid G] [AddCommMonoid H] {L : Logic Resp G} {M : Logic Ans H}

/-- A postcondition on resources that come from a program's own; what its requests
leave besides is lost. -/
def Image (e : G →+ H) (Q : α → G → Prop) (a : α) (h : H) : Prop := ∃ g r, h = e g + r ∧ Q a g

theorem Image.of {e : G →+ H} {Q : α → G → Prop} {a : α} {g : G} (h : Q a g) : Image e Q a (e g) :=
  ⟨g, 0, (add_zero _).symm, h⟩

theorem Image.add {e : G →+ H} {Q : α → G → Prop} {a : α} {h : H} (hi : Image e Q a h) (r : H) :
    Image e Q a (h + r) := by
  obtain ⟨g, r', rfl, hq⟩ := hi
  exact ⟨g, r' + r, add_assoc .., hq⟩

/-- A program may own more than it needs. -/
theorem wp_image_add {e : G →+ H} {Q : α → G → Prop} {p : Prog Ans α} {h : H}
    (hp : wp M p h (Image e Q)) (r : H) : wp M p (h + r) (Image e Q) := by
  refine wp_mono (wp_frame r hp) ?_
  rintro a _ ⟨h0, rfl, ha⟩
  exact ha.add r

theorem wp_expand (e : G →+ H) {impl : (r : Req) → Prog Ans (Resp r)}
    (himpl : ∀ r g (K : Resp r → G → Prop), L.rule r g K → wp M (impl r) (e g) (Image e K))
    {p : Prog Resp α} {g : G} {Q : α → G → Prop} (h : wp L p g Q) :
    wp M (expand impl p) (e g) (Image e Q) := by
  induction p generalizing g with
  | pure a => exact Image.of h
  | step r k ih =>
    refine wp_bind (wp_mono (himpl r g _ h) ?_)
    rintro x _ ⟨g', r', rfl, hk⟩
    exact wp_image_add (ih x hk) r'
  | par ps k ihps ih =>
    obtain ⟨gs, f, R, rfl, hps, hk⟩ := h
    refine ⟨fun i => e (gs i), e f, fun i => Image e (R i), ?_, fun i => ihps i (hps i), ?_⟩
    · rw [map_add, map_sum]
    · intro bs hs hR
      choose gs' rs hgs' hRs using hR
      have hsum : ∑ i, hs i + e f = e (∑ i, gs' i + f) + ∑ i, rs i := by
        rw [map_add, map_sum, add_right_comm, ← Finset.sum_add_distrib]
        exact congrArg (· + e f) (Finset.sum_congr rfl fun i _ => hgs' i)
      rw [hsum]
      exact wp_image_add (ih bs (hk bs gs' hRs)) _

end

/-! ## Ghost state -/

section
variable {σ τ : Type} {exec : (r : Part) → σ → Ans r × σ} {ok : (r : Part) → Ans r → Prop}

/-- A ghost state follows the requests, their answers and the states they were asked in. -/
def track (exec : (r : Part) → σ → Ans r × σ) (note : (r : Part) → σ → Ans r → τ → τ) (r : Part)
    (s : σ × τ) : Ans r × (σ × τ) :=
  ((exec r s.1).1, (exec r s.1).2, note r s.1 (exec r s.1).1 s.2)

theorem Step.track {s s' : σ} {p p' : Prog Ans α} (h : Step exec ok s p s' p')
    (note : (r : Part) → σ → Ans r → τ → τ) (t : τ) :
    ∃ t', Step (track exec note) ok (s, t) p (s', t') p' := by
  induction h with
  | @req _ s r k h =>
    have h' : ok r (Prog.track exec note r (s, t)).1 := h
    exact ⟨note r s (exec r s).1 t, .req h'⟩
  | child i _ ih =>
    obtain ⟨t', ht⟩ := ih
    exact ⟨t', .child i ht⟩
  | join bs => exact ⟨t, .join bs⟩

/-- Every run can be tracked. -/
theorem Steps.track {s s' : σ} {p p' : Prog Ans α} (h : Steps exec ok s p s' p')
    (note : (r : Part) → σ → Ans r → τ → τ) (t : τ) :
    ∃ t', Steps (track exec note) ok (s, t) p (s', t') p' := by
  induction h generalizing t with
  | refl => exact ⟨t, .refl⟩
  | head h _ ih =>
    obtain ⟨t1, h1⟩ := h.track note t
    obtain ⟨t2, h2⟩ := ih t1
    exact ⟨t2, .head h1 h2⟩

end

end Prog
