import FlatMpt.Lib.Prog

/-!
# Programs against an oracle

An oracle answers every request by a fixed function, so a program against it has one
value, whatever the interleaving.  `Sim` relates a program over a shared store to the
value of another program against the oracle: every run over the store ends in a
related result, with the resources the relation says.

    value, value_bind
    Sim.bind, Sim.fan, Sim.frame
-/

namespace Prog

variable {Req : Type} {Resp : Req → Type} {α β γ δ : Type}

/-- The result of a program whose requests are answered by `ans`. -/
def value (ans : (r : Req) → Resp r) : {α : Type} → Prog Resp α → α
  | _, .pure a => a
  | _, .step r k => value ans (k (ans r))
  | _, .par ps k => value ans (k fun i => value ans (ps i))

variable {ans : (r : Req) → Resp r}

@[simp] theorem value_pure (a : α) : value ans (.pure a : Prog Resp α) = a := rfl

@[simp] theorem value_step (r : Req) (k : Resp r → Prog Resp α) :
    value ans (.step r k) = value ans (k (ans r)) := rfl

@[simp] theorem value_par {n : Nat} (ps : Fin n → Prog Resp β) (k : (Fin n → β) → Prog Resp α) :
    value ans (.par ps k) = value ans (k fun i => value ans (ps i)) := rfl

@[simp] theorem value_bind (p : Prog Resp α) (f : α → Prog Resp β) :
    value ans (p.bind f) = value ans (f (value ans p)) := by
  induction p with
  | pure a => rfl
  | step r k ih => exact ih _ f
  | par ps k _ ih => exact ih _ f

@[simp] theorem value_fan {n : Nat} (ps : Fin n → Prog Resp β) :
    value ans (fan ps) = fun i => value ans (ps i) := rfl

section
variable {G : Type} [AddCommMonoid G] {L : Logic Resp G}

/-- Owning `g`, every run of `p` ends related to the value of `q` against the oracle. -/
def Sim (L : Logic Resp G) (ans : (r : Req) → Resp r) (p : Prog Resp α) (q : Prog Resp β) (g : G)
    (R : α → β → G → Prop) : Prop := wp L p g fun a g' => R a (value ans q) g'

variable {g f : G} {p : Prog Resp α} {q : Prog Resp β}

theorem Sim.mono {R R' : α → β → G → Prop} (h : Sim L ans p q g R)
    (hR : ∀ a b g', R a b g' → R' a b g') : Sim L ans p q g R' :=
  wp_mono h fun a g' => hR a _ g'

theorem Sim.bind {k : α → Prog Resp γ} {k' : β → Prog Resp δ} {R : α → β → G → Prop}
    {Q : γ → δ → G → Prop} (h : Sim L ans p q g R)
    (hk : ∀ a b g', R a b g' → Sim L ans (k a) (k' b) g' Q) :
    Sim L ans (p.bind k) (q.bind k') g Q := by
  refine wp_bind (wp_mono h fun a g' hR => ?_)
  rw [value_bind]
  exact hk a _ g' hR

theorem Sim.frame {R : α → β → G → Prop} (f : G) (h : Sim L ans p q g R) :
    Sim L ans p q (g + f) fun a b g' => ∃ g0, g' = g0 + f ∧ R a b g0 := wp_frame f h

/-- Sequencing with a part of the resources set aside. -/
theorem Sim.bind_frame {k : α → Prog Resp γ} {k' : β → Prog Resp δ} {R : α → β → G → Prop}
    {Q : γ → δ → G → Prop} (h : Sim L ans p q g R)
    (hk : ∀ a b g', R a b g' → Sim L ans (k a) (k' b) (g' + f) Q) :
    Sim L ans (p.bind k) (q.bind k') (g + f) Q := by
  refine (h.frame f).bind ?_
  rintro a b _ ⟨g', rfl, hR⟩
  exact hk a b g' hR

/-- Workers with disjoint resources. -/
theorem Sim.fan {n : Nat} {ps : Fin n → Prog Resp α} {qs : Fin n → Prog Resp β} {gs : Fin n → G}
    {R : Fin n → α → β → G → Prop} {Q : (Fin n → α) → (Fin n → β) → G → Prop}
    (hps : ∀ i, Sim L ans (ps i) (qs i) (gs i) (R i))
    (hQ : ∀ as bs (hs : Fin n → G), (∀ i, R i (as i) (bs i) (hs i)) → Q as bs (∑ i, hs i)) :
    Sim L ans (Prog.fan ps) (Prog.fan qs) (∑ i, gs i) Q :=
  wp_fan hps fun as hs h => hQ as _ hs h

end

end Prog
