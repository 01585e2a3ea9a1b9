import Mathlib.Data.List.Basic

/-!
# Readers

A reader takes a value off the front of a list and returns the rest, or fails.  `Reads P`
says that it fails only with errors in `P` and that what is left is the end of its input.
Readers that satisfy it compose, and a recursive reader need only be known on shorter
inputs.

    Result, Reads          -- one result, all results
    Reads.bind             -- one after another
    Result.bind_congr      -- equal continuations on what can be left
-/

namespace Reader

variable {β ε α γ : Type}

/-- An error in `P`, or a value and the end of `bs`. -/
inductive Result (P : ε → Prop) (bs : List β) : Except ε (α × List β) → Prop
  | ok (a : α) {rest : List β} (h : rest <:+ bs) : Result P bs (.ok (a, rest))
  | error {e : ε} (h : P e) : Result P bs (.error e)

/-- All results of a reader. -/
def Reads (P : ε → Prop) (read : List β → Except ε (α × List β)) : Prop := ∀ bs, Result P bs (read bs)

variable {P : ε → Prop} {bs : List β} {x : Except ε (α × List β)}

theorem Result.suffix {a : α} {rest : List β} (h : Result P bs (.ok (a, rest) : Except ε _)) :
    rest <:+ bs := by
  cases h with
  | ok _ h => exact h

theorem Result.of_error {e : ε} (h : Result P bs (.error e : Except ε (α × List β))) : P e := by
  cases h with
  | error h => exact h

/-- The end of an end. -/
theorem Result.mono {bs' : List β} (h : Result P bs x) (hs : bs <:+ bs') : Result P bs' x := by
  cases h with
  | ok a h => exact .ok a (h.trans hs)
  | error h => exact .error h

theorem Result.bind {f : α × List β → Except ε (γ × List β)} (h : Result P bs x)
    (hf : ∀ a rest, rest <:+ bs → x = .ok (a, rest) → Result P rest (f (a, rest))) :
    Result P bs (x >>= f) := by
  cases h with
  | ok a h => exact (hf a _ h rfl).mono h
  | error h => exact .error h

/-- What follows a reader is only run on ends of its input. -/
theorem Result.bind_congr {δ : Type} {f g : α × List β → Except ε δ} (h : Result P bs x)
    (hfg : ∀ a rest, rest <:+ bs → x = .ok (a, rest) → f (a, rest) = g (a, rest)) :
    x >>= f = x >>= g := by
  cases h with
  | ok a h => exact hfg a _ h rfl
  | error h => rfl

/-- A computation over readers, free of an error that they do not return. -/
theorem Result.bind_ne {δ : Type} {f : α × List β → Except ε δ} {e : ε} (h : Result P bs x)
    (he : ¬ P e) (hf : ∀ a rest, f (a, rest) ≠ .error e) : x >>= f ≠ .error e := by
  cases h with
  | ok a _ => exact hf a _
  | error h =>
    intro heq
    cases heq
    exact he h

theorem Reads.bind {read : List β → Except ε (α × List β)}
    {f : α → List β → Except ε (γ × List β)} (h : Reads P read) (hf : ∀ a, Reads P (f a)) :
    Reads P fun bs => read bs >>= fun r => f r.1 r.2 :=
  fun bs => (h bs).bind fun a rest _ _ => hf a rest

theorem Reads.left_le {read : List β → Except ε (α × List β)} (h : Reads P read) {rest : List β}
    {a : α} (hr : read bs = .ok (a, rest)) : rest.length ≤ bs.length := by
  have hres := h bs
  rw [hr] at hres
  exact hres.suffix.length_le

theorem Reads.pure (a : α) : Reads P fun bs => (.ok (a, bs) : Except ε (α × List β)) :=
  fun bs => .ok a (List.suffix_refl bs)

end Reader
