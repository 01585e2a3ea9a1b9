import FlatMpt.Lib.Oracle
import FlatMpt.CodecRound
import FlatMpt.StoreInv
import FlatMpt.Apply

/-!
# The ideal store

In the ideal store a pointer names its payload: nothing is allocated or reused, and
what a program of the engine computes there depends on its input only.  `Placed`
matches a frontier over the file with one over the ideal store, slot by slot, and
says which records of the file are its own.

    ideal                    -- the oracle
    Placed, PlacedSlot       -- the same frontier in both stores
    Agree, AgreeOn           -- the same result in both
    attempt_sim, attempt_on_sim, thenUpd_sim
-/

namespace FlatMpt

open Prog

/-! ## The oracle -/

/-- The pointer that names a payload. -/
def named (payload : Bytes) : DiskPtr := ⟨leValue payload, payload.length⟩

/-- The payload that a pointer names. -/
def nameOf (p : DiskPtr) : Bytes := leBytes p.len p.unit

theorem leBytes_leValue (bs : Bytes) : leBytes bs.length (leValue bs) = bs := by
  induction bs with
  | nil => rfl
  | cons b bs ih =>
    have hb := b.toNat_lt
    have hdiv : (b.toNat + 256 * leValue bs) / 256 = leValue bs := by omega
    have hmod : UInt8.ofNat (b.toNat + 256 * leValue bs) = b := by
      apply UInt8.toNat_inj.mp
      rw [UInt8.toNat_ofNat']
      omega
    rw [List.length_cons, leBytes, leValue, hdiv, ih, hmod]

@[simp] theorem nameOf_named (payload : Bytes) : nameOf (named payload) = payload :=
  leBytes_leValue payload

/-- The answers of the ideal store. -/
def ideal : (r : Req) → Resp r
  | .read p => .ok (nameOf p)
  | .pread _ _ _ => .ok []
  | .writePayload payload =>
    if MAX_RECORD_BYTES < payload.length then .error (.recordTooLarge payload.length)
    else .ok (named payload)
  | .writeBatch payloads =>
    match Store.tooLarge payloads with
    | some p => .error (.recordTooLarge p.length)
    | none => .ok (payloads.map named)
  | .writeBatchParallel payloads =>
    match Store.tooLarge payloads with
    | some p => .error (.recordTooLarge p.length)
    | none => .ok (payloads.map named)
  | .free _ => ()
  | .selectVictims _ => []
  | .refuse _ => ()

theorem ideal_writeBatch {payloads : List Bytes} (h : Store.tooLarge payloads = none) :
    ideal (.writeBatch payloads) = .ok (payloads.map named) := by
  simp only [ideal, h]

theorem ideal_writeBatch_large {payloads : List Bytes} {p : Bytes}
    (h : Store.tooLarge payloads = some p) :
    ideal (.writeBatch payloads) = .error (.recordTooLarge p.length) := by
  simp only [ideal, h]

theorem ideal_writeBatchParallel {payloads : List Bytes} (h : Store.tooLarge payloads = none) :
    ideal (.writeBatchParallel payloads) = .ok (payloads.map named) := by
  simp only [ideal, h]

theorem value_attempt {α β : Type} (p : Act α) (fail : Err → β) (k : α → Prog Resp β) :
    value ideal (attempt p fail k) =
      match value ideal p with
      | .ok a => value ideal (k a)
      | .error e => fail e := by
  unfold attempt
  rw [value_bind]
  cases value ideal p <;> rfl

/-- The answers `ok` allows fail where the ideal store fails, and elsewhere only if `c`. -/
structure Faithful (ok : (r : Req) → Resp r → Prop) (c : Prop) : Prop where
  done : ∀ r x, ok r x → failed r x = none → failed r (ideal r) = none
  fault : ∀ r x e, ok r x → failed r x = some e → c ∨ failed r (ideal r) = some e

/-! ## Matching frontiers -/

mutual

/-- A frontier over the file, the same over the ideal store, and its records. -/
inductive Placed : RamNode → RamNode → Multiset Rec → Prop
  | empty : Placed .empty .empty 0
  | extension {path : List Nibble} {n c : RamNode} {hash : Option Hash} {g : Multiset Rec}
      (h : Placed n c g) : Placed (.extension path n hash) (.extension path c hash) g
  | branch {ns cs : Nibble → RamSlot} {hash : Option Hash} {gs : Nibble → Multiset Rec}
      (h : ∀ i, PlacedSlot (ns i) (cs i) (gs i)) :
      Placed (.branch ns hash) (.branch cs hash) (∑ i, gs i)

inductive PlacedSlot : RamSlot → RamSlot → Multiset Rec → Prop
  | none : PlacedSlot .none .none 0
  | ram {n c : RamNode} {g : Multiset Rec} (h : Placed n c g) : PlacedSlot (.ram n) (.ram c) g
  | disk {ptr : DiskPtr} {payload : Bytes} {root : Hash} :
      PlacedSlot (.disk ptr root) (.disk (named payload) root) {(ptr, payload)}
  | account {path : List Nibble} {nonce : UInt64} {balance : U256} {codeHash : Hash}
      {n c : RamNode} {g : Multiset Rec} (h : Placed n c g) :
      PlacedSlot (.account path nonce balance codeHash n) (.account path nonce balance codeHash c) g
  | mem {bytes : Bytes} {root : Hash} : PlacedSlot (.mem bytes root) (.mem bytes root) 0

end

/-- Results without records. -/
def Same {α : Type} (a b : α) (g : Multiset Rec) : Prop := a = b ∧ g = 0

/-! ## Matching results -/

section
variable {α β γ δ σ τ : Type} (c : Prop)

/-- The same result in both stores; an error of the file only if `c`. -/
def Agree (R : α → β → Multiset Rec → Prop) : Except Err α → Except Err β → Multiset Rec → Prop
  | .ok a, .ok b, g => R a b g
  | .ok _, .error _, _ => False
  | .error e, x, _ => c ∨ x = .error e

/-- The same, with the frontier part left; after an error it has the same shape. -/
def AgreeOn (S : σ → τ → Multiset Rec → Prop) (T : σ → τ → α → β → Multiset Rec → Prop) :
    σ × Except Err α → τ × Except Err β → Multiset Rec → Prop
  | (s, .ok a), (t, .ok b), g => T s t a b g
  | (_, .ok _), (_, .error _), _ => False
  | (s, .error e), (t, x), _ => c ∨ x = .error e ∧ ∃ g, S s t g

/-- A part left with a plain result. -/
def Left (S : σ → τ → Multiset Rec → Prop) (s : σ) (t : τ) (a b : α) (g : Multiset Rec) : Prop :=
  S s t g ∧ a = b

variable {c} {S : σ → τ → Multiset Rec → Prop} {R : α → β → Multiset Rec → Prop}
  {T : σ → τ → α → β → Multiset Rec → Prop} {W : Holds} {ok : (r : Req) → Resp r → Prop} {g f : Multiset Rec}

theorem Agree.mono {R' : α → β → Multiset Rec → Prop} {x : Except Err α} {y : Except Err β}
    (h : Agree c R x y g) (hR : ∀ a b, R a b g → R' a b f) : Agree c R' x y f := by
  cases x with
  | error e => exact h
  | ok a =>
    cases y with
    | error e => exact h
    | ok b => exact hR a b h

/-- Programs over the file and over the ideal store. -/
abbrev IdealSim (W : Holds) (ok : (r : Req) → Resp r → Prop) (p : Prog Resp α) (q : Prog Resp β)
    (g : Multiset Rec) (R : α → β → Multiset Rec → Prop) : Prop :=
  Sim ((flat W).filter ok) ideal p q g R

/-- A computation that may fail, inside one that may fail. -/
theorem attempt_frame_sim {p : Act α} {q : Act β} {k : α → Act γ} {k' : β → Act δ}
    {Q : γ → δ → Multiset Rec → Prop} (h : IdealSim W ok p q g (Agree c R))
    (hk : ∀ a b g', R a b g' → IdealSim W ok (k a) (k' b) (g' + f) (Agree c Q)) :
    IdealSim W ok (attempt p .error k) (attempt q .error k') (g + f) (Agree c Q) := by
  refine Sim.bind_frame h ?_
  intro x y g' hxy
  cases x with
  | error e =>
    rcases hxy with hc | rfl
    · exact .inl hc
    · exact .inr rfl
  | ok a =>
    cases y with
    | error e => exact hxy.elim
    | ok b => exact hk a b g' hxy

theorem attempt_sim {p : Act α} {q : Act β} {k : α → Act γ} {k' : β → Act δ}
    {Q : γ → δ → Multiset Rec → Prop} (h : IdealSim W ok p q g (Agree c R))
    (hk : ∀ a b g', R a b g' → IdealSim W ok (k a) (k' b) g' (Agree c Q)) :
    IdealSim W ok (attempt p .error k) (attempt q .error k') g (Agree c Q) := by
  have := attempt_frame_sim (f := 0) h fun a b g' hR => by
    rw [add_zero]
    exact hk a b g' hR
  rwa [add_zero] at this

/-- A computation that may fail; the error leaves parts of the same shape. -/
theorem attempt_on_frame_sim {σ' τ' : Type} {S' : σ' → τ' → Multiset Rec → Prop} {p : Act α} {q : Act β}
    {s : σ'} {t : τ'} {k : α → Upd σ' γ} {k' : β → Upd τ' δ} {Q : σ' → τ' → γ → δ → Multiset Rec → Prop}
    (h : IdealSim W ok p q g (Agree c R)) (hs : ∃ g0, S' s t g0)
    (hk : ∀ a b g', R a b g' → IdealSim W ok (k a) (k' b) (g' + f) (AgreeOn c S' Q)) :
    IdealSim W ok (attempt p (fun e => (s, .error e)) k)
      (attempt q (fun e => (t, .error e)) k') (g + f) (AgreeOn c S' Q) := by
  refine Sim.bind_frame h ?_
  intro x y g' hxy
  cases x with
  | error e =>
    rcases hxy with hc | rfl
    · exact .inl hc
    · exact .inr ⟨rfl, hs⟩
  | ok a =>
    cases y with
    | error e => exact hxy.elim
    | ok b => exact hk a b g' hxy

theorem attempt_on_sim {σ' τ' : Type} {S' : σ' → τ' → Multiset Rec → Prop} {p : Act α} {q : Act β}
    {s : σ'} {t : τ'} {k : α → Upd σ' γ} {k' : β → Upd τ' δ} {Q : σ' → τ' → γ → δ → Multiset Rec → Prop}
    (h : IdealSim W ok p q g (Agree c R)) (hs : ∃ g0, S' s t g0)
    (hk : ∀ a b g', R a b g' → IdealSim W ok (k a) (k' b) g' (AgreeOn c S' Q)) :
    IdealSim W ok (attempt p (fun e => (s, .error e)) k)
      (attempt q (fun e => (t, .error e)) k') g (AgreeOn c S' Q) := by
  have := attempt_on_frame_sim (f := 0) h hs fun a b g' hR => by
    rw [add_zero]
    exact hk a b g' hR
  rwa [add_zero] at this

/-- Going on with the part a callee left; `F` and `F'` are what an error leaves. -/
theorem thenUpd_frame_sim {σ' τ' : Type} {S' : σ' → τ' → Multiset Rec → Prop} {p : Upd σ α} {q : Upd τ β}
    {k : σ → Except Err α → Upd σ' γ} {k' : τ → Except Err β → Upd τ' δ}
    {Q : σ' → τ' → γ → δ → Multiset Rec → Prop} (F : σ → σ') (F' : τ → τ')
    (h : IdealSim W ok p q g (AgreeOn c S T))
    (hF : ∀ s e, k s (.error e) = .pure (F s, .error e))
    (hF' : ∀ t e, k' t (.error e) = .pure (F' t, .error e))
    (hS : ∀ s t g0, S s t g0 → ∃ g1, S' (F s) (F' t) g1)
    (hk : ∀ s t a b g', T s t a b g' →
      IdealSim W ok (k s (.ok a)) (k' t (.ok b)) (g' + f) (AgreeOn c S' Q)) :
    IdealSim W ok (thenUpd p k) (thenUpd q k') (g + f) (AgreeOn c S' Q) := by
  refine Sim.bind_frame h ?_
  rintro ⟨s, x⟩ ⟨t, y⟩ g' hxy
  cases x with
  | error e =>
    show IdealSim W ok (k s (.error e)) (k' t y) (g' + f) (AgreeOn c S' Q)
    rw [hF]
    rcases hxy with hc | ⟨rfl, g0, hg0⟩
    · exact .inl hc
    · rw [hF']
      exact .inr ⟨rfl, hS s t g0 hg0⟩
  | ok a =>
    cases y with
    | error e => exact hxy.elim
    | ok b => exact hk s t a b g' hxy

theorem thenUpd_sim {σ' τ' : Type} {S' : σ' → τ' → Multiset Rec → Prop} {p : Upd σ α} {q : Upd τ β}
    {k : σ → Except Err α → Upd σ' γ} {k' : τ → Except Err β → Upd τ' δ}
    {Q : σ' → τ' → γ → δ → Multiset Rec → Prop} (F : σ → σ') (F' : τ → τ')
    (h : IdealSim W ok p q g (AgreeOn c S T))
    (hF : ∀ s e, k s (.error e) = .pure (F s, .error e))
    (hF' : ∀ t e, k' t (.error e) = .pure (F' t, .error e))
    (hS : ∀ s t g0, S s t g0 → ∃ g1, S' (F s) (F' t) g1)
    (hk : ∀ s t a b g', T s t a b g' →
      IdealSim W ok (k s (.ok a)) (k' t (.ok b)) g' (AgreeOn c S' Q)) :
    IdealSim W ok (thenUpd p k) (thenUpd q k') g (AgreeOn c S' Q) := by
  have := thenUpd_frame_sim (f := 0) F F' h hF hF' hS fun s t a b g' hT => by
    rw [add_zero]
    exact hk s t a b g' hT
  rwa [add_zero] at this

theorem ok_sim {a : α} {b : β} (h : R a b g) : IdealSim W ok (Act.ok a) (Act.ok b) g (Agree c R) := h

theorem fail_sim (e : Err) : IdealSim W ok (Act.fail e : Act α) (Act.fail e : Act β) g (Agree c R) :=
  .inr rfl

/-- The same pure computation in both stores. -/
theorem pure_sim (x : Except Err α) : IdealSim W ok (.pure x) (.pure x) 0 (Agree c Same) := by
  cases x with
  | ok a => exact ⟨rfl, rfl⟩
  | error e => exact .inr rfl

/-- A pure computation, inside one that may fail. -/
theorem attempt_pure_sim {x : Except Err α} {k : α → Act γ} {k' : α → Act δ}
    {Q : γ → δ → Multiset Rec → Prop}
    (hk : ∀ a, x = .ok a → IdealSim W ok (k a) (k' a) g (Agree c Q)) :
    IdealSim W ok (attempt (.pure x) .error k) (attempt (.pure x) .error k') g
      (Agree c Q) := by
  cases x with
  | ok a => exact hk a rfl
  | error e => exact .inr rfl

theorem attempt_pure_on_sim {σ' τ' : Type} {S' : σ' → τ' → Multiset Rec → Prop} {x : Except Err α}
    {s : σ'} {t : τ'} {k : α → Upd σ' γ} {k' : α → Upd τ' δ}
    {Q : σ' → τ' → γ → δ → Multiset Rec → Prop} (hs : ∃ g0, S' s t g0)
    (hk : ∀ a, x = .ok a → IdealSim W ok (k a) (k' a) g (AgreeOn c S' Q)) :
    IdealSim W ok (attempt (.pure x) (fun e => (s, .error e)) k)
      (attempt (.pure x) (fun e => (t, .error e)) k') g (AgreeOn c S' Q) := by
  cases x with
  | ok a => exact hk a rfl
  | error e => exact .inr ⟨rfl, hs⟩

theorem error_on_sim (e : Err) {s : σ} {t : τ} (hs : ∃ g0, S s t g0) :
    IdealSim W ok (.pure (s, .error e) : Upd σ α) (.pure (t, .error e) : Upd τ β) g
      (AgreeOn c S T) := .inr ⟨rfl, hs⟩

theorem ok_on_sim {s : σ} {t : τ} {a : α} {b : β} (h : T s t a b g) :
    IdealSim W ok (.pure (s, .ok a)) (.pure (t, .ok b)) g (AgreeOn c S T) := h

/-- A result without records of its own. -/
theorem same_on_sim {s : σ} {t : τ} (a : α) (hs : S s t g) :
    IdealSim W ok (.pure (s, .ok a)) (.pure (t, .ok a)) g (AgreeOn c S (Left S)) := ⟨hs, rfl⟩

/-! ## Requests -/

variable (hok : Faithful ok c)
include hok

theorem read_sim {p : DiskPtr} {payload : Bytes} (hv : W.Visible g (p, payload)) :
    IdealSim W ok (Prog.ask (Req.read p)) (Prog.ask (Req.read (named payload))) g
      (Agree c fun a b g' => a = payload ∧ b = payload ∧ g' = g) := by
  refine ⟨payload, hv, fun _ => ⟨rfl, nameOf_named payload, rfl⟩, fun e he => ?_⟩
  rcases hok.fault _ _ e he rfl with hc | h
  · exact .inl hc
  · cases h

theorem writePayload_sim (payload : Bytes) :
    IdealSim W ok (Prog.ask (Req.writePayload payload)) (Prog.ask (Req.writePayload payload)) 0
      (Agree c fun p q g => q = named payload ∧ g = {(p, payload)}) := by
  by_cases hl : MAX_RECORD_BYTES < payload.length
  · have hi : ideal (.writePayload payload) = .error (.recordTooLarge payload.length) := if_pos hl
    refine ⟨fun p hp => ?_, fun e he => ?_⟩
    · have := hok.done _ _ hp rfl
      rw [hi] at this
      cases this
    · refine (hok.fault _ _ e he rfl).imp_right fun h => ?_
      show ideal (.writePayload payload) = .error e
      rw [hi] at h ⊢
      cases h
      rfl
  · have hi : ideal (.writePayload payload) = .ok (named payload) := if_neg hl
    refine ⟨fun p _ => ?_, fun e he => ?_⟩
    · show Agree c _ (.ok p) (ideal (.writePayload payload)) _
      rw [hi]
      exact ⟨rfl, rfl⟩
    · refine (hok.fault _ _ e he rfl).imp_right fun h => ?_
      rw [hi] at h
      cases h

theorem writeBatch_sim (payloads : List Bytes) :
    IdealSim W ok (Prog.ask (Req.writeBatch payloads)) (Prog.ask (Req.writeBatch payloads)) 0
      (Agree c fun ps qs g => ps.length = payloads.length ∧ qs = payloads.map named ∧
        g = recsOf ps payloads) := by
  cases hl : Store.tooLarge payloads with
  | some p =>
    have hi : ideal (.writeBatch payloads) = .error (.recordTooLarge p.length) := by
      simp only [ideal, hl]
    refine ⟨fun ps _ hp => ?_, fun e he => ?_⟩
    · have := hok.done _ _ hp rfl
      rw [hi] at this
      cases this
    · refine (hok.fault _ _ e he rfl).imp_right fun h => ?_
      show ideal (.writeBatch payloads) = .error e
      rw [hi] at h ⊢
      cases h
      rfl
  | none =>
    have hi : ideal (.writeBatch payloads) = .ok (payloads.map named) := by
      simp only [ideal, hl]
    refine ⟨fun ps hlen _ => ?_, fun e he => ?_⟩
    · show Agree c _ (.ok ps) (ideal (.writeBatch payloads)) _
      rw [hi]
      exact ⟨hlen, rfl, add_zero _⟩
    · refine (hok.fault _ _ e he rfl).imp_right fun h => ?_
      rw [hi] at h
      cases h

omit hok in
/-- A record of one's own is given up. -/
theorem free_sim {p q : DiskPtr} {payload : Bytes} {k : Unit → Prog Resp α} {k' : Unit → Prog Resp β}
    {Q : α → β → Multiset Rec → Prop} (h : IdealSim W ok (k ()) (k' ()) g Q) :
    IdealSim W ok (.step (.free p) k) (.step (.free q) k') ({(p, payload)} + g) Q :=
  ⟨payload, g, Multiset.singleton_add .., fun _ => h⟩

omit hok in
theorem refuse_sim (e : Err) : IdealSim W ok (refuse e : Act α) (refuse e : Act β) g (Agree c R) :=
  fun _ => .inr rfl

end

end FlatMpt
