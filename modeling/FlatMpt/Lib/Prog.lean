import Mathlib.Algebra.BigOperators.Fin
import Mathlib.Data.Fin.Tuple.Basic

/-!
# Programs over a shared store

A `Prog` asks a shared state one request at a time and may fan out into child
programs that run in any interleaving.  `wp` is a weakest precondition over
owned resources: an additive monoid `G`, of which every running program owns a
part.

    Step, Steps, Exec     -- one request, a run, a finished run
    Logic                 -- what each request consumes and produces
    wp_bind, wp_frame, wp_par, wp_mono
    Logic.Sound           -- requests answered by `exec` keep an invariant
    Logic.Sound.steps     -- and so do whole runs, under every interleaving
    Logic.filter          -- the same for some of the answers only
    run, exec_run         -- one schedule: children one after the other
    runFirst              -- another: one child before its siblings
    checks                -- whether it meets only some answers
-/

/-- Programs over requests `Req`, answered in `Resp`. -/
inductive Prog {Req : Type} (Resp : Req → Type) : Type → Type 1
  | pure {α : Type} (a : α) : Prog Resp α
  | step {α : Type} (r : Req) (k : Resp r → Prog Resp α) : Prog Resp α
  | par {α β : Type} {n : Nat} (ps : Fin n → Prog Resp β) (k : (Fin n → β) → Prog Resp α) :
      Prog Resp α

namespace Prog

variable {Req : Type} {Resp : Req → Type} {α β γ : Type}

protected def bind : {α : Type} → Prog Resp α → (α → Prog Resp β) → Prog Resp β
  | _, .pure a, f => f a
  | _, .step r k, f => .step r fun x => (k x).bind f
  | _, .par ps k, f => .par ps fun bs => (k bs).bind f

instance : Monad (Prog Resp) where
  pure := .pure
  bind := Prog.bind

/-- Ask one request. -/
def ask (r : Req) : Prog Resp (Resp r) := .step r .pure

/-- Run the children in any interleaving and collect their results. -/
def fan {n : Nat} (ps : Fin n → Prog Resp β) : Prog Resp (Fin n → β) := .par ps .pure

@[simp] theorem pure_eq (a : α) : (Pure.pure a : Prog Resp α) = .pure a := rfl

@[simp] theorem bind_eq (p : Prog Resp α) (f : α → Prog Resp β) : p >>= f = p.bind f := rfl

@[simp] theorem pure_bind (a : α) (f : α → Prog Resp β) : (Prog.pure a).bind f = f a := rfl

@[simp] theorem ask_bind (r : Req) (f : Resp r → Prog Resp β) : (ask r).bind f = .step r f := rfl

@[simp] theorem fan_bind {n : Nat} (ps : Fin n → Prog Resp γ) (f : (Fin n → γ) → Prog Resp β) :
    (fan ps).bind f = .par ps f := rfl

/-! ## Runs -/

section
variable {σ : Type} (exec : (r : Req) → σ → Resp r × σ) (ok : (r : Req) → Resp r → Prop)

/-- One request of one thread; `ok` restricts the answers under consideration. -/
inductive Step : {α : Type} → σ → Prog Resp α → σ → Prog Resp α → Prop
  | req {α : Type} {s : σ} {r : Req} {k : Resp r → Prog Resp α} (h : ok r (exec r s).1) :
      Step s (.step r k) (exec r s).2 (k (exec r s).1)
  | child {α β : Type} {s s' : σ} {n : Nat} {ps : Fin n → Prog Resp β}
      {k : (Fin n → β) → Prog Resp α} {p' : Prog Resp β} (i : Fin n) (h : Step s (ps i) s' p') :
      Step s (.par ps k) s' (.par (Function.update ps i p') k)
  | join {α β : Type} {s : σ} {n : Nat} {k : (Fin n → β) → Prog Resp α} (bs : Fin n → β) :
      Step s (.par (fun i => .pure (bs i)) k) s (k bs)

inductive Steps : {α : Type} → σ → Prog Resp α → σ → Prog Resp α → Prop
  | refl {α : Type} {s : σ} {p : Prog Resp α} : Steps s p s p
  | head {α : Type} {s s' s'' : σ} {p p' p'' : Prog Resp α} (h : Step exec ok s p s' p')
      (hs : Steps s' p' s'' p'') : Steps s p s'' p''

/-- A run to the end. -/
def Exec (s : σ) (p : Prog Resp α) (a : α) (s' : σ) : Prop := Steps exec ok s p s' (.pure a)

variable {exec ok}

theorem Steps.trans {s s' s'' : σ} {p p' p'' : Prog Resp α} (h : Steps exec ok s p s' p')
    (h' : Steps exec ok s' p' s'' p'') : Steps exec ok s p s'' p'' := by
  induction h with
  | refl => exact h'
  | head hstep _ ih => exact .head hstep (ih h')

/-- A weaker filter on answers allows more runs. -/
theorem Step.mono {ok' : (r : Req) → Resp r → Prop} (hok : ∀ r x, ok r x → ok' r x) {s s' : σ}
    {p p' : Prog Resp α} (h : Step exec ok s p s' p') : Step exec ok' s p s' p' := by
  induction h with
  | req h => exact .req (hok _ _ h)
  | child i _ ih => exact .child i ih
  | join bs => exact .join bs

theorem Steps.mono {ok' : (r : Req) → Resp r → Prop} (hok : ∀ r x, ok r x → ok' r x) {s s' : σ}
    {p p' : Prog Resp α} (h : Steps exec ok s p s' p') : Steps exec ok' s p s' p' := by
  induction h with
  | refl => exact .refl
  | head hstep _ ih => exact .head (hstep.mono hok) ih

/-- What every answer preserves, every run preserves. -/
theorem Steps.invariant {P : σ → Prop}
    (hexec : ∀ r s, P s → ok r (exec r s).1 → P (exec r s).2) {s s' : σ} {p p' : Prog Resp α}
    (h : Steps exec ok s p s' p') (hs : P s) : P s' := by
  have hstep : ∀ {α : Type} {s s' : σ} {p p' : Prog Resp α}, Step exec ok s p s' p' → P s → P s' := by
    intro α s s' p p' h
    induction h with
    | req h => exact fun hs => hexec _ _ hs h
    | child i _ ih => exact ih
    | join bs => exact id
  induction h with
  | refl => exact hs
  | head hst _ ih => exact ih (hstep hst hs)

end

/-! ## Weakest preconditions -/

section
variable {G : Type} [AddCommMonoid G]

/-- What a request needs of the resources owned, and what the program may assume
of its answer and of the resources owned afterwards. -/
structure Logic (Resp : Req → Type) (G : Type) [AddCommMonoid G] where
  rule : (r : Req) → G → (Resp r → G → Prop) → Prop
  mono : ∀ {r g} {K K' : Resp r → G → Prop}, (∀ x g', K x g' → K' x g') → rule r g K → rule r g K'
  frame : ∀ {r g} {K : Resp r → G → Prop} (f : G), rule r g K →
    rule r (g + f) fun x g' => ∃ g0, g' = g0 + f ∧ K x g0

variable (L : Logic Resp G)

def wp : {α : Type} → Prog Resp α → G → (α → G → Prop) → Prop
  | _, .pure a, g, Q => Q a g
  | _, .step r k, g, Q => L.rule r g fun x g' => wp (k x) g' Q
  | _, .par (n := n) (β := β) ps k, g, Q =>
    ∃ (gs : Fin n → G) (f : G) (R : Fin n → β → G → Prop), g = ∑ i, gs i + f ∧
      (∀ i, wp (ps i) (gs i) (R i)) ∧
      ∀ (bs : Fin n → β) (hs : Fin n → G), (∀ i, R i (bs i) (hs i)) →
        wp (k bs) (∑ i, hs i + f) Q

variable {L}

theorem wp_mono {p : Prog Resp α} {g : G} {Q Q' : α → G → Prop} (h : wp L p g Q)
    (hQ : ∀ a g', Q a g' → Q' a g') : wp L p g Q' := by
  induction p generalizing g with
  | pure a => exact hQ a g h
  | step r k ih => exact L.mono (fun x g' hx => ih x hx hQ) h
  | par ps k _ ih =>
    obtain ⟨gs, f, R, hg, hps, hk⟩ := h
    exact ⟨gs, f, R, hg, hps, fun bs hs hR => ih bs (hk bs hs hR) hQ⟩

theorem wp_bind {p : Prog Resp α} {f : α → Prog Resp β} {g : G} {Q : β → G → Prop}
    (h : wp L p g fun a g' => wp L (f a) g' Q) : wp L (p.bind f) g Q := by
  induction p generalizing g with
  | pure a => exact h
  | step r k ih => exact L.mono (fun x g' hx => ih x hx) h
  | par ps k _ ih =>
    obtain ⟨gs, fr, R, hg, hps, hk⟩ := h
    exact ⟨gs, fr, R, hg, hps, fun bs hs hR => ih bs (hk bs hs hR)⟩

/-- A program leaves what it does not own alone. -/
theorem wp_frame {p : Prog Resp α} {g : G} {Q : α → G → Prop} (f : G) (h : wp L p g Q) :
    wp L p (g + f) fun a g' => ∃ g0, g' = g0 + f ∧ Q a g0 := by
  induction p generalizing g with
  | pure a => exact ⟨g, rfl, h⟩
  | step r k ih =>
    refine L.mono ?_ (L.frame f h)
    rintro x g' ⟨g0, rfl, hx⟩
    exact ih x hx
  | par ps k _ ih =>
    obtain ⟨gs, fr, R, rfl, hps, hk⟩ := h
    refine ⟨gs, fr + f, R, by rw [add_assoc], hps, fun bs hs hR => ?_⟩
    rw [← add_assoc]
    exact ih bs (hk bs hs hR)

/-- Sequencing with a part of the resources set aside. -/
theorem wp_bind_frame {p : Prog Resp α} {k : α → Prog Resp β} {g f : G} {R : α → G → Prop}
    {Q : β → G → Prop} (h : wp L p g R) (hk : ∀ a g', R a g' → wp L (k a) (g' + f) Q) :
    wp L (p.bind k) (g + f) Q := by
  refine wp_bind (wp_mono (wp_frame f h) ?_)
  rintro a _ ⟨g', rfl, ha⟩
  exact hk a g' ha

/-- Children own disjoint parts. -/
theorem wp_fan {n : Nat} {ps : Fin n → Prog Resp β} {gs : Fin n → G}
    {R : Fin n → β → G → Prop} {Q : (Fin n → β) → G → Prop} (hps : ∀ i, wp L (ps i) (gs i) (R i))
    (hQ : ∀ (bs : Fin n → β) (hs : Fin n → G), (∀ i, R i (bs i) (hs i)) → Q bs (∑ i, hs i)) :
    wp L (fan ps) (∑ i, gs i) Q := by
  refine ⟨gs, 0, R, by rw [add_zero], hps, fun bs hs hR => ?_⟩
  rw [add_zero]
  exact hQ bs hs hR

/-! ## Soundness -/

variable {σ : Type} {exec : (r : Req) → σ → Resp r × σ} {ok : (r : Req) → Resp r → Prop}

/-- The state holds resources `g` owned by the thread and `f` owned by others:
every answer keeps `I` with the others' part unchanged. -/
def Logic.Sound (L : Logic Resp G) (exec : (r : Req) → σ → Resp r × σ)
    (ok : (r : Req) → Resp r → Prop) (I : σ → G → Prop) : Prop :=
  ∀ r s g f K, I s (g + f) → L.rule r g K → ok r (exec r s).1 →
    ∃ g', K (exec r s).1 g' ∧ I (exec r s).2 (g' + f)

theorem sum_update_add {n : Nat} (gs : Fin n → G) (i : Fin n) (g' f : G) :
    g' + (∑ j ∈ Finset.univ.erase i, gs j + f) = ∑ j, Function.update gs i g' j + f := by
  rw [← add_assoc, ← Finset.add_sum_erase _ _ (Finset.mem_univ i), Function.update_self]
  congr 2
  refine Finset.sum_congr rfl fun j hj => ?_
  rw [Function.update_of_ne (Finset.ne_of_mem_erase hj)]

theorem Logic.Sound.step {I : σ → G → Prop} (hL : L.Sound exec ok I) {s s' : σ}
    {p p' : Prog Resp α} (h : Step exec ok s p s' p') :
    ∀ {g f : G} {Q : α → G → Prop}, I s (g + f) → wp L p g Q →
      ∃ g', wp L p' g' Q ∧ I s' (g' + f) := by
  induction h with
  | req hok => exact fun hI hp => hL _ _ _ _ _ hI hp hok
  | @child α β s s' n ps k p' i h ih =>
    rintro g f Q hI ⟨gs, fr, R, rfl, hps, hk⟩
    -- the siblings' parts are the child's frame
    have hI' : I s (gs i + (∑ j ∈ Finset.univ.erase i, gs j + (fr + f))) := by
      rw [sum_update_add, Function.update_eq_self, ← add_assoc]
      exact hI
    obtain ⟨g', hp', hI''⟩ := ih hI' (hps i)
    rw [sum_update_add, ← add_assoc] at hI''
    refine ⟨∑ j, Function.update gs i g' j + fr, ⟨Function.update gs i g', fr, R, rfl, ?_, hk⟩, hI''⟩
    intro j
    by_cases hj : j = i
    · subst hj
      rw [Function.update_self, Function.update_self]
      exact hp'
    · rw [Function.update_of_ne hj, Function.update_of_ne hj]
      exact hps j
  | join bs =>
    rintro g f Q hI ⟨gs, fr, R, rfl, hps, hk⟩
    exact ⟨_, hk bs gs hps, hI⟩

/-- Every run of a program keeps the invariant, with what the others own. -/
theorem Logic.Sound.steps {I : σ → G → Prop} (hL : L.Sound exec ok I) {s s' : σ}
    {p p' : Prog Resp α} (h : Steps exec ok s p s' p') {g f : G} {Q : α → G → Prop}
    (hI : I s (g + f)) (hp : wp L p g Q) : ∃ g', wp L p' g' Q ∧ I s' (g' + f) := by
  induction h generalizing g with
  | refl => exact ⟨g, hp, hI⟩
  | head hst _ ih =>
    obtain ⟨g1, hp1, hI1⟩ := hL.step hst hI hp
    exact ih hI1 hp1

theorem Logic.Sound.finish {I : σ → G → Prop} (hL : L.Sound exec ok I) {s s' : σ}
    {p : Prog Resp α} {a : α} (h : Exec exec ok s p a s') {g f : G} {Q : α → G → Prop}
    (hI : I s (g + f)) (hp : wp L p g Q) : ∃ g', Q a g' ∧ I s' (g' + f) :=
  hL.steps h hI hp

end

/-! ## Restricted answers -/

section
variable {G : Type} [AddCommMonoid G]

/-- The logic of answers that satisfy `ok`. -/
def Logic.filter (L : Logic Resp G) (ok : (r : Req) → Resp r → Prop) : Logic Resp G where
  rule r g K := L.rule r g fun x g' => ok r x → K x g'
  mono hK h := L.mono (fun x g' hx hok => hK x g' (hx hok)) h
  frame f h := L.mono (fun _ _ ⟨g0, hg, hx⟩ hok => ⟨g0, hg, hx hok⟩) (L.frame f h)

theorem Logic.Sound.filter {L : Logic Resp G} {σ : Type} {exec : (r : Req) → σ → Resp r × σ}
    {ok : (r : Req) → Resp r → Prop} {I : σ → G → Prop} (hL : L.Sound exec ok I) :
    (L.filter ok).Sound exec ok I := by
  intro r s g f K hI hK hok
  obtain ⟨g', hx, hI'⟩ := hL r s g f _ hI hK hok
  exact ⟨g', hx hok, hI'⟩

/-- The logic of programs that ask requests in `A` only. -/
def Logic.only (L : Logic Resp G) (A : Req → Prop) : Logic Resp G where
  rule r g K := A r ∧ L.rule r g K
  mono hK h := ⟨h.1, L.mono hK h.2⟩
  frame f h := ⟨h.1, L.frame f h.2⟩

theorem Logic.Sound.only {L : Logic Resp G} {σ : Type} {exec : (r : Req) → σ → Resp r × σ}
    {ok : (r : Req) → Resp r → Prop} {I : σ → G → Prop} (hL : L.Sound exec ok I) (A : Req → Prop) :
    (L.only A).Sound exec ok I :=
  fun r s g f K hI hK hok => hL r s g f K hI hK.2 hok

/-- A stronger logic proves more. -/
theorem wp_weaken {L L' : Logic Resp G}
    (hL : ∀ r g (K : Resp r → G → Prop), L.rule r g K → L'.rule r g K) {p : Prog Resp α} {g : G}
    {Q : α → G → Prop} (h : wp L p g Q) : wp L' p g Q := by
  induction p generalizing g with
  | pure a => exact h
  | step r k ih => exact hL _ _ _ (L.mono (fun x g' hx => ih x hx) h)
  | par ps k ihps ih =>
    obtain ⟨gs, f, R, hg, hps, hk⟩ := h
    exact ⟨gs, f, R, hg, fun i => ihps i (hps i), fun bs hs hR => ih bs (hk bs hs hR)⟩

/-- Fewer answers leave less to prove. -/
theorem wp_filter_mono {L : Logic Resp G} {ok ok' : (r : Req) → Resp r → Prop}
    (hok : ∀ r x, ok' r x → ok r x) {p : Prog Resp α} {g : G} {Q : α → G → Prop}
    (h : wp (L.filter ok) p g Q) : wp (L.filter ok') p g Q := by
  refine wp_weaken (fun r g K hr => ?_) h
  have hr : L.rule r g fun x g' => ok r x → K x g' := hr
  exact L.mono (fun x g' hx hx' => hx (hok r x hx')) hr

end

/-! ## The next requests -/

/-- A program is about to ask a request, in one of its threads. -/
inductive Asks : {α : Type} → Prog Resp α → Req → Prop
  | here {α : Type} {r : Req} {k : Resp r → Prog Resp α} : Asks (.step r k) r
  | child {α β : Type} {n : Nat} {ps : Fin n → Prog Resp β} {k : (Fin n → β) → Prog Resp α} {r : Req}
      (i : Fin n) (h : Asks (ps i) r) : Asks (.par ps k) r

/-- What a program asks, its resources allow. -/
theorem wp_asks {G : Type} [AddCommMonoid G] {L : Logic Resp G} {p : Prog Resp α} {r : Req}
    (h : Asks p r) : ∀ {g : G} {Q : α → G → Prop}, wp L p g Q →
      ∃ g0 f K, g = g0 + f ∧ L.rule r g0 K := by
  induction h with
  | here =>
    intro g Q hp
    exact ⟨g, 0, _, (add_zero g).symm, hp⟩
  | @child α β n ps k r i h ih =>
    rintro g Q ⟨gs, fr, R, rfl, hps, -⟩
    obtain ⟨g0, f, K, hg, hr⟩ := ih (hps i)
    refine ⟨g0, f + (∑ j ∈ Finset.univ.erase i, gs j + fr), K, ?_, hr⟩
    rw [← add_assoc, ← hg, sum_update_add, Function.update_eq_self]

/-! ## One schedule -/

section
variable {σ : Type}

/-- Run children first to last. -/
def runAll : (n : Nat) → (Fin n → σ → β × σ) → σ → (Fin n → β) × σ
  | 0, _, s => (Fin.elim0, s)
  | n + 1, f, s =>
    let r := runAll n (fun i => f i.castSucc) s
    let last := f (Fin.last n) r.2
    (Fin.snoc r.1 last.1, last.2)

/-- Run a program with the children of each fan-out one after the other. -/
def run (exec : (r : Req) → σ → Resp r × σ) : {α : Type} → Prog Resp α → σ → α × σ
  | _, .pure a, s => (a, s)
  | _, .step r k, s => run exec (k (exec r s).1) (exec r s).2
  | _, .par ps k, s =>
    let r := runAll _ (fun i => run exec (ps i)) s
    run exec (k r.1) r.2

/-- A check of each child where it starts. -/
def checkAll : (n : Nat) → (Fin n → σ → Bool) → (Fin n → σ → β × σ) → σ → Bool
  | 0, _, _, _ => true
  | n + 1, check, f, s =>
    checkAll n (fun i => check i.castSucc) (fun i => f i.castSucc) s &&
      check (Fin.last n) (runAll n (fun i => f i.castSucc) s).2

/-- Every answer of one schedule satisfies `ok`. -/
def checks (exec : (r : Req) → σ → Resp r × σ) (ok : (r : Req) → Resp r → Bool) :
    {α : Type} → Prog Resp α → σ → Bool
  | _, .pure _, _ => true
  | _, .step r k, s => ok r (exec r s).1 && checks exec ok (k (exec r s).1) (exec r s).2
  | _, .par ps k, s =>
    let r := runAll _ (fun i => run exec (ps i)) s
    checkAll _ (fun i => checks exec ok (ps i)) (fun i => run exec (ps i)) s &&
      checks exec ok (k r.1) r.2

variable {exec : (r : Req) → σ → Resp r × σ}

theorem run_bind (p : Prog Resp α) (f : α → Prog Resp β) (s : σ) :
    run exec (p.bind f) s = run exec (f (run exec p s).1) (run exec p s).2 := by
  induction p generalizing s with
  | pure a => rfl
  | step r k ih => exact ih _ f _
  | par ps k _ ih => exact ih _ f _

theorem Steps.child {ok : (r : Req) → Resp r → Prop} {n : Nat} {k : (Fin n → β) → Prog Resp α}
    {i : Fin n} {s s' : σ} {p p' : Prog Resp β} (h : Steps exec ok s p s' p') :
    ∀ ps : Fin n → Prog Resp β, ps i = p →
      Steps exec ok s (.par ps k) s' (.par (Function.update ps i p') k) := by
  induction h with
  | refl =>
    rintro ps rfl
    rw [Function.update_eq_self]
    exact .refl
  | head hst _ ih =>
    rintro ps rfl
    have h := ih (Function.update ps i _) (Function.update_self ..)
    rw [Function.update_idem] at h
    exact .head (.child i hst) h

/-- The first `m` children have run. -/
theorem steps_runAll {ok : (r : Req) → Resp r → Prop} {n : Nat} {ps : Fin n → Prog Resp β}
    {k : (Fin n → β) → Prog Resp α} {check : Fin n → σ → Bool}
    (hps : ∀ i s, check i s = true → Exec exec ok s (ps i) (run exec (ps i) s).1 (run exec (ps i) s).2)
    (s : σ) (m : Nat) (hm : m ≤ n)
    (hall : checkAll m (fun i => check (i.castLE hm)) (fun i => run exec (ps (i.castLE hm))) s = true) :
    let r := runAll m (fun i => run exec (ps (i.castLE hm))) s
    Steps exec ok s (.par ps k) r.2
      (.par (fun i => if h : i.val < m then .pure (r.1 ⟨i, h⟩) else ps i) k) := by
  induction m with
  | zero => exact .refl
  | succ m ih =>
    intro r
    rw [checkAll, Bool.and_eq_true] at hall
    refine (ih (Nat.le_of_succ_le hm) hall.1).trans ?_
    have hm' : m < n := hm
    have h := Steps.child (k := k) (i := ⟨m, hm'⟩) (hps ⟨m, hm'⟩ _ hall.2)
      (fun i => if h : i.val < m then
        .pure ((runAll m (fun i => run exec (ps (i.castLE (Nat.le_of_succ_le hm)))) s).1 ⟨i, h⟩)
        else ps i) (by simp)
    convert h using 2
    · rfl
    · rfl
    funext i
    by_cases hi : i.val = m
    · have : i = ⟨m, hm'⟩ := Fin.ext hi
      subst this
      rw [Function.update_self]
      simp only [Nat.lt_succ_self, dite_true]
      exact congrArg Prog.pure (Fin.snoc_last (α := fun _ => β) _ _)
    · rw [Function.update_of_ne fun h => hi (congrArg Fin.val h)]
      by_cases hlt : i.val < m
      · simp only [hlt, Nat.lt_succ_of_lt hlt, dite_true]
        exact congrArg Prog.pure (Fin.snoc_castSucc (α := fun _ => β) _ _ ⟨i.val, hlt⟩)
      · have : ¬i.val < m + 1 := by omega
        simp only [hlt, this, dite_false]

/-- The sequential schedule, where its answers pass, is one of the interleavings. -/
theorem exec_run_of_checks {ok : (r : Req) → Resp r → Bool} (p : Prog Resp α) (s : σ)
    (h : checks exec ok p s = true) :
    Exec exec (fun r x => ok r x = true) s p (run exec p s).1 (run exec p s).2 := by
  induction p generalizing s with
  | pure a => exact .refl
  | step r k ih =>
    rw [checks, Bool.and_eq_true] at h
    exact .head (.req h.1) (ih _ _ h.2)
  | @par α β n ps k ihps ih =>
    rw [checks, Bool.and_eq_true] at h
    have hsteps := steps_runAll (k := k) ihps s n le_rfl h.1
    refine Steps.trans hsteps (.head ?_ (ih _ _ h.2))
    have hj : Step exec (fun r x => ok r x = true) (runAll n (fun i => run exec (ps i)) s).2
        (.par (fun i => .pure ((runAll n (fun i => run exec (ps i)) s).1 i)) k) _ _ := .join _
    convert hj using 2
    · rfl
    funext i
    simp only [i.isLt, dite_true]
    rfl

theorem checkAll_true {n : Nat} {check : Fin n → σ → Bool} (h : ∀ i s, check i s = true)
    (f : Fin n → σ → β × σ) (s : σ) : checkAll n check f s = true := by
  induction n generalizing s with
  | zero => rfl
  | succ n ih => rw [checkAll, ih fun i => h i.castSucc, h, Bool.and_true]

theorem checks_true (p : Prog Resp α) (s : σ) : checks exec (fun _ _ => true) p s = true := by
  induction p generalizing s with
  | pure a => rfl
  | step r k ih => exact ih _ _
  | par ps k ihps ih => rw [checks, checkAll_true ihps, ih, Bool.and_true]

/-- The sequential schedule is one of the interleavings. -/
theorem exec_run (p : Prog Resp α) (s : σ) :
    Exec exec (fun _ _ => True) s p (run exec p s).1 (run exec p s).2 :=
  (exec_run_of_checks p s (checks_true p s)).mono fun _ _ _ => trivial

/-- Another schedule: in the first fan-out, child `i` runs before its siblings. -/
def runFirst (exec : (r : Req) → σ → Resp r × σ) (i : Nat) : Prog Resp α → σ → α × σ
  | .par (n := n) ps k, s =>
    if h : i < n then
      let r := run exec (ps ⟨i, h⟩) s
      run exec (.par (Function.update ps ⟨i, h⟩ (.pure r.1)) k) r.2
    else run exec (.par ps k) s
  | p, s => run exec p s

theorem exec_runFirst (i : Nat) (p : Prog Resp α) (s : σ) :
    Exec exec (fun _ _ => True) s p (runFirst exec i p s).1 (runFirst exec i p s).2 := by
  cases p with
  | pure a => exact .refl
  | step r k => exact exec_run _ s
  | @par α β n ps k =>
    unfold runFirst
    by_cases h : i < n
    · simp only [h, dite_true]
      exact ((exec_run (ps ⟨i, h⟩) s).child ps rfl).trans (exec_run _ _)
    · simp only [h, dite_false]
      exact exec_run _ s

end

end Prog
