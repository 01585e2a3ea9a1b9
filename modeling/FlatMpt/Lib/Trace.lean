import FlatMpt.Lib.Prog

/-!
# Runs with a log

The state gets a log of what `note` keeps of each answer.  A logic that is sound
for the answers stays sound, for invariants that also speak of the log.

    noted                          -- answers with a log
    Steps.noted, Steps.of_noted    -- the same runs
    Logic.Sound.noted
-/

namespace Prog

section
variable {Req : Type} {Resp : Req → Type} {σ β α : Type}
variable (exec : (r : Req) → σ → Resp r × σ) (note : (r : Req) → Resp r → List β)

def noted (r : Req) (s : σ × List β) : Resp r × (σ × List β) :=
  ((exec r s.1).1, ((exec r s.1).2, s.2 ++ note r (exec r s.1).1))

variable {exec note} {ok : (r : Req) → Resp r → Prop}

theorem Step.noted {s s' : σ} {p p' : Prog Resp α} (h : Step exec ok s p s' p') :
    ∀ log : List β, ∃ log', Step (noted exec note) ok (s, log) p (s', log') p' := by
  induction h with
  | @req α s r k h => exact fun log => ⟨_, @Step.req _ _ _ (Prog.noted exec note) ok α (s, log) r k h⟩
  | child i _ ih =>
    intro log
    obtain ⟨log', hs⟩ := ih log
    exact ⟨log', .child i hs⟩
  | join bs => exact fun log => ⟨log, .join bs⟩

theorem Steps.noted {s s' : σ} {p p' : Prog Resp α} (h : Steps exec ok s p s' p') :
    ∀ log : List β, ∃ log', Steps (noted exec note) ok (s, log) p (s', log') p' := by
  induction h with
  | refl => exact fun log => ⟨log, .refl⟩
  | head hstep _ ih =>
    intro log
    obtain ⟨log1, h1⟩ := hstep.noted log
    obtain ⟨log2, h2⟩ := ih log1
    exact ⟨log2, .head h1 h2⟩

theorem Step.of_noted {s s' : σ × List β} {p p' : Prog Resp α}
    (h : Step (Prog.noted exec note) ok s p s' p') : Step exec ok s.1 p s'.1 p' := by
  induction h with
  | req h => exact .req h
  | child i _ ih => exact .child i ih
  | join bs => exact .join bs

theorem Steps.of_noted {s s' : σ × List β} {p p' : Prog Resp α}
    (h : Steps (Prog.noted exec note) ok s p s' p') : Steps exec ok s.1 p s'.1 p' := by
  induction h with
  | refl => exact .refl
  | head hstep _ ih => exact .head hstep.of_noted ih

/-- `M` must follow from what each rule promises of its answers. -/
theorem Logic.Sound.noted {G : Type} [AddCommMonoid G] {L : Logic Resp G} {I : σ → G → Prop}
    (hL : L.Sound exec ok I) {M : List β → G → Prop}
    (hM : ∀ r g K, L.rule r g K → L.rule r g fun x g' => K x g' ∧
      ∀ log f, M log (g + f) → ok r x → M (log ++ note r x) (g' + f)) :
    L.Sound (Prog.noted exec note) ok fun s g => I s.1 g ∧ M s.2 g := by
  rintro r ⟨s, log⟩ g f K ⟨hI, hlog⟩ hK hok
  obtain ⟨g', ⟨hx, hm⟩, hI'⟩ := hL r s g f _ hI (hM r g K hK) hok
  exact ⟨g', hx, hI', hm log f hlog hok⟩

end

end Prog
