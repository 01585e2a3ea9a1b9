import FlatMpt.Ideal

/-!
# Results over the ideal store

What a computation that ends well leaves over the ideal store.  Errors promise
nothing, so a sequence is followed through its successful steps only.

    Yields p Q      -- if `p` ends well, its result satisfies `Q`
    Updates p Q     -- the same, with the frontier part it leaves
-/

namespace FlatMpt

open Prog

section
variable {α β σ τ : Type}

/-- Every result of `p` satisfies `Q`. -/
def Yields (p : Act α) (Q : α → Prop) : Prop := ∀ a, value ideal p = .ok a → Q a

/-- What `p` leaves when it ends well, with its result, satisfies `Q`. -/
def Updates (p : Upd σ α) (Q : σ → α → Prop) : Prop :=
  ∀ a, (value ideal p).2 = .ok a → Q (value ideal p).1 a

/-! ## Sequences -/

theorem value_thenUpd (p : Upd σ α) (k : σ → Except Err α → Prog Resp β) :
    value ideal (thenUpd p k) = value ideal (k (value ideal p).1 (value ideal p).2) := by
  unfold thenUpd
  rw [value_bind]

variable {P P' : α → Prop} {Q : β → Prop} {R : σ → α → Prop} {T : τ → β → Prop}

theorem Yields.mono {p : Act α} (h : Yields p P) (hP : ∀ a, P a → P' a) : Yields p P' :=
  fun a ha => hP a (h a ha)

theorem Updates.mono {p : Upd σ α} {R' : σ → α → Prop} (h : Updates p R)
    (hR : ∀ s a, R s a → R' s a) : Updates p R' := fun a ha => hR _ a (h a ha)

theorem Updates.and {p : Upd σ α} {R' : σ → α → Prop} (h : Updates p R) (h' : Updates p R') :
    Updates p fun s a => R s a ∧ R' s a := fun a ha => ⟨h a ha, h' a ha⟩

theorem Yields.ok {a : α} (h : P a) : Yields (Act.ok a) P := by
  rintro _ ⟨⟩
  exact h

theorem Yields.fail (e : Err) : Yields (Act.fail e) P := nofun

theorem Yields.refuse (e : Err) : Yields (FlatMpt.refuse e) P := nofun

/-- A pure computation. -/
theorem Yields.pure {x : Except Err α} (h : ∀ a, x = .ok a → P a) : Yields (.pure x) P := h

theorem Yields.attempt {p : Act α} {k : α → Act β} (h : Yields p P)
    (hk : ∀ a, P a → Yields (k a) Q) : Yields (attempt p .error k) Q := by
  intro b hb
  rw [value_attempt] at hb
  cases hp : value ideal p with
  | error e =>
    rw [hp] at hb
    cases hb
  | ok a =>
    rw [hp] at hb
    exact hk a (h a hp) b hb

theorem Yields.of_attempt {p : Act α} {f : α → β}
    (h : Yields (FlatMpt.attempt p .error fun a => Act.ok (f a)) Q) : Yields p fun a => Q (f a) := by
  intro a ha
  refine h (f a) ?_
  rw [value_attempt, ha]
  rfl

theorem Updates.ok {s : τ} {b : β} (h : T s b) : Updates (.pure (s, .ok b)) T := by
  rintro _ ⟨⟩
  exact h

theorem Updates.error (s : τ) (e : Err) : Updates (.pure (s, .error e)) T := nofun

/-- A pure result. -/
theorem Updates.pure {s : τ} {x : Except Err β} (h : ∀ b, x = .ok b → T s b) :
    Updates (.pure (s, x)) T := h

theorem Yields.attemptOn {p : Act α} {fail : Err → τ} {k : α → Upd τ β} (h : Yields p P)
    (hk : ∀ a, P a → Updates (k a) T) :
    Updates (FlatMpt.attempt p (fun e => (fail e, .error e)) k) T := by
  intro b hb
  rw [value_attempt] at hb ⊢
  cases hp : value ideal p with
  | error e =>
    rw [hp] at hb
    cases hb
  | ok a =>
    rw [hp] at hb
    exact hk a (h a hp) b hb

/-- Going on with what a callee left; an error ends the computation. -/
theorem Updates.thenUpd {p : Upd σ α} {k : σ → Except Err α → Upd τ β} (h : Updates p R)
    (hF : ∀ s e, Updates (k s (.error e)) T) (hk : ∀ s a, R s a → Updates (k s (.ok a)) T) :
    Updates (thenUpd p k) T := by
  intro b hb
  rw [value_thenUpd] at hb ⊢
  cases hp : (value ideal p).2 with
  | error e =>
    rw [hp] at hb
    exact hF _ e b hb
  | ok a =>
    rw [hp] at hb
    exact hk _ a (h a hp) b hb

/-- A pure result, its value changed. -/
theorem Updates.pure_map {r : τ × Except Err α} {f : α → β} {R : τ → α → Prop}
    (h : Updates (.pure r) R) (hf : ∀ s a, R s a → T s (f a)) :
    Updates (.pure (r.1, r.2.map f)) T := by
  intro b hb
  change r.2.map f = .ok b at hb
  cases hr : r.2 with
  | error e =>
    rw [hr] at hb
    cases hb
  | ok a =>
    rw [hr] at hb
    cases hb
    exact hf _ a (h a hr)

theorem Updates.map {p : Upd τ α} {f : α → β} {R : τ → α → Prop} (h : Updates p R)
    (hf : ∀ s a, R s a → T s (f a)) : Updates (p.bind fun r => .pure (r.1, r.2.map f)) T := by
  intro b hb
  rw [value_bind] at hb ⊢
  exact Updates.pure_map (r := value ideal p) (fun a ha => h a ha) hf b hb

/-- Requests before, without a result. -/
theorem Updates.after {p : Prog Resp Unit} {k : Unit → Upd τ β} (h : Updates (k ()) T) :
    Updates (p.bind k) T := by
  intro b hb
  rw [value_bind] at hb ⊢
  exact h b hb

theorem Updates.step {r : Req} {k : Resp r → Upd τ β} (h : Updates (k (ideal r)) T) :
    Updates (.step r k) T := h

theorem Yields.step {r : Req} {k : Resp r → Act β} (h : Yields (k (ideal r)) Q) :
    Yields (.step r k) Q := h

/-- Workers side by side. -/
theorem Updates.fan {n : Nat} {ps : Fin n → Prog Resp σ} {k : (Fin n → σ) → Upd τ β}
    (h : ∀ rs, (∀ i, rs i = value ideal (ps i)) → Updates (k rs) T) :
    Updates ((Prog.fan ps).bind k) T := h _ fun _ => rfl

/-! ## Requests -/

theorem yields_writePayload (payload : Bytes) :
    Yields (Prog.ask (Req.writePayload payload)) (· = named payload) := by
  intro ptr h
  change (if MAX_RECORD_BYTES < payload.length then _ else _) = _ at h
  split at h
  · cases h
  · cases h
    rfl

theorem yields_writeBatch (payloads : List Bytes) :
    Yields (Prog.ask (Req.writeBatch payloads)) (· = payloads.map named) := by
  intro ptrs h
  have h : ideal (.writeBatch payloads) = .ok ptrs := h
  cases ht : Store.tooLarge payloads with
  | none =>
    rw [ideal_writeBatch ht] at h
    cases h
    rfl
  | some p =>
    rw [ideal_writeBatch_large ht] at h
    cases h

theorem yields_encode (subtree : DiskSubtree) :
    Yields (encode subtree) fun payload => serializeSubtree subtree = .ok payload := by
  intro payload h
  unfold encode at h
  cases hs : serializeSubtree subtree with
  | error e =>
    rw [hs] at h
    cases h
  | ok bytes =>
    rw [hs] at h
    exact h

end

end FlatMpt
