import Mathlib.Data.Fin.Tuple.Basic
import Mathlib.Data.List.OfFn

/-!
# Serial formats

A `Serial` format writes a value as a list of symbols and reads it back from the front
of any list; it reads nothing but what it writes.  Formats compose; for recursive
types, arrays of a fixed length are read by any reader of their elements.

    Serial            -- a writer and its reader, with their laws
    Serial.fixed, counted, prod, map, opt
    readArray         -- `n` elements in order
    readArray_sound, readArray_complete
-/

/-- A writer, and a reader that undoes it and accepts nothing else. -/
structure Serial (β α : Type) where
  write : α → List β
  read : List β → Option (α × List β)
  read_write : ∀ a rest, read (write a ++ rest) = some (a, rest)
  write_read : ∀ {bs a rest}, read bs = some (a, rest) → bs = write a ++ rest

namespace Serial

variable {β α γ : Type}

/-- `n` symbols as they are. -/
def fixed (β : Type) (n : Nat) : Serial β { bs : List β // bs.length = n } where
  write x := x.1
  read bs := if h : n ≤ bs.length then some (⟨bs.take n, List.length_take_of_le h⟩, bs.drop n) else none
  read_write x rest := by
    have hle : n ≤ (x.1 ++ rest).length := by
      rw [List.length_append, x.2]
      exact Nat.le_add_right _ _
    rw [dif_pos hle]
    exact congrArg some (Prod.ext (Subtype.ext (List.take_left' x.2)) (List.drop_left' x.2))
  write_read {bs x rest} h := by
    split at h
    · cases h
      exact (List.take_append_drop n bs).symm
    · cases h

/-- Symbols after their number. -/
def counted {N : Nat} (f : Serial β (Fin N)) : Serial β { bs : List β // bs.length < N } where
  write x := f.write ⟨x.1.length, x.2⟩ ++ x.1
  read bs :=
    (f.read bs).bind fun (n, bs) =>
    if h : n.val ≤ bs.length then
      some (⟨bs.take n.val, by rw [List.length_take_of_le h]; exact n.isLt⟩, bs.drop n.val)
    else none
  read_write x rest := by
    rw [List.append_assoc, f.read_write]
    show (if h : x.1.length ≤ (x.1 ++ rest).length then _ else none) = _
    have hle : x.1.length ≤ (x.1 ++ rest).length := by
      rw [List.length_append]
      exact Nat.le_add_right _ _
    rw [dif_pos hle]
    exact congrArg some (Prod.ext (Subtype.ext (List.take_left' rfl)) (List.drop_left' rfl))
  write_read {bs x rest} h := by
    obtain ⟨⟨n, bs1⟩, hn, h⟩ := Option.bind_eq_some_iff.mp h
    dsimp only at h
    split at h
    · rename_i hle
      cases h
      rw [f.write_read hn, List.append_assoc, List.take_append_drop]
      congr 2
      exact Fin.ext (List.length_take_of_le hle).symm
    · cases h

/-- One value after another. -/
def prod (f : Serial β α) (g : Serial β γ) : Serial β (α × γ) where
  write x := f.write x.1 ++ g.write x.2
  read bs :=
    (f.read bs).bind fun (a, bs) =>
    (g.read bs).bind fun (c, rest) => some ((a, c), rest)
  read_write x rest := by
    rw [List.append_assoc, f.read_write]
    show ((g.read (g.write x.2 ++ rest)).bind _) = _
    rw [g.read_write]
    rfl
  write_read {bs x rest} h := by
    obtain ⟨⟨a, bs1⟩, ha, h⟩ := Option.bind_eq_some_iff.mp h
    obtain ⟨⟨c, bs2⟩, hc, h⟩ := Option.bind_eq_some_iff.mp h
    cases h
    rw [f.write_read ha, g.write_read hc, List.append_assoc]

/-- The same format for a type that stands for another. -/
def map (f : Serial β α) (e : α ≃ γ) : Serial β γ where
  write c := f.write (e.symm c)
  read bs := (f.read bs).map fun x => (e x.1, x.2)
  read_write c rest := by
    rw [f.read_write, Option.map_some, Equiv.apply_symm_apply]
  write_read {bs c rest} h := by
    obtain ⟨⟨a, bs1⟩, ha, h⟩ := Option.map_eq_some_iff.mp h
    cases h
    rw [f.write_read ha, Equiv.symm_apply_apply]

/-- A tag, then the value if there is one. -/
def opt [DecidableEq β] (no yes : β) (hne : yes ≠ no) (f : Serial β α) : Serial β (Option α) where
  write
    | none => [no]
    | some a => yes :: f.write a
  read
    | [] => none
    | tag :: bs =>
      if tag = no then some (none, bs)
      else if tag = yes then (f.read bs).map fun x => (some x.1, x.2)
      else none
  read_write a rest := by
    cases a with
    | none => exact if_pos rfl
    | some a =>
      show (if yes = no then _ else if yes = yes then _ else _) = _
      rw [if_neg hne, if_pos rfl]
      exact congrArg (Option.map _) (f.read_write a rest)
  write_read {bs a rest} h := by
    cases bs with
    | nil => cases h
    | cons tag bs =>
      dsimp only at h
      split at h
      · rename_i ht
        cases h
        rw [ht]
        rfl
      · split at h
        · rename_i ht
          obtain ⟨⟨a, bs1⟩, ha, h⟩ := Option.map_eq_some_iff.mp h
          cases h
          rw [ht, f.write_read ha]
          rfl
        · cases h

end Serial

/-! ## Arrays -/

section
variable {β α : Type}

/-- `n` values, one after another. -/
def readArray (read : List β → Option (α × List β)) :
    (n : Nat) → List β → Option ((Fin n → α) × List β)
  | 0, bs => some (Fin.elim0, bs)
  | n + 1, bs =>
    (read bs).bind fun (a, bs) =>
    (readArray read n bs).bind fun (as, rest) => some (Fin.cons a as, rest)

def writeArray (write : α → List β) {n : Nat} (as : Fin n → α) : List β :=
  (List.ofFn fun i => write (as i)).flatten

theorem writeArray_succ (write : α → List β) {n : Nat} (as : Fin (n + 1) → α) :
    writeArray write as = write (as 0) ++ writeArray write (Fin.tail as) := by
  unfold writeArray
  rw [List.ofFn_succ, List.flatten_cons]
  rfl

theorem writeArray_cons (write : α → List β) {n : Nat} (a : α) (as : Fin n → α) :
    writeArray write (Fin.cons a as : Fin (n + 1) → α) = write a ++ writeArray write as := by
  rw [writeArray_succ, Fin.cons_zero, Fin.tail_cons]

theorem readArray_sound {read : List β → Option (α × List β)} {write : α → List β}
    (h : ∀ {bs a rest}, read bs = some (a, rest) → bs = write a ++ rest) {n : Nat} :
    ∀ {bs : List β} {as : Fin n → α} {rest : List β}, readArray read n bs = some (as, rest) →
      bs = writeArray write as ++ rest := by
  induction n with
  | zero =>
    intro bs as rest hr
    cases hr
    rfl
  | succ n ih =>
    intro bs as rest hr
    obtain ⟨⟨a, bs1⟩, ha, hr⟩ := Option.bind_eq_some_iff.mp hr
    obtain ⟨⟨as', bs2⟩, has, hr⟩ := Option.bind_eq_some_iff.mp hr
    cases hr
    rw [h ha, ih has, writeArray_cons, List.append_assoc]

theorem readArray_complete {read : List β → Option (α × List β)} {write : α → List β} {n : Nat} :
    ∀ (as : Fin n → α) (rest : List β),
      (∀ i rest, read (write (as i) ++ rest) = some (as i, rest)) →
      readArray read n (writeArray write as ++ rest) = some (as, rest) := by
  induction n with
  | zero => exact fun as rest _ => congrArg some (Prod.ext (funext fun i => i.elim0) rfl)
  | succ n ih =>
    intro as rest h
    rw [writeArray_succ, List.append_assoc, readArray, h 0]
    show (readArray read n (writeArray write (Fin.tail as) ++ rest)).bind _ = _
    rw [ih (Fin.tail as) rest fun i => h i.succ]
    show some (Fin.cons (as 0) (Fin.tail as), rest) = _
    rw [Fin.cons_self_tail]

theorem length_le_writeArray (write : α → List β) {n : Nat} (as : Fin n → α) (i : Fin n) :
    (write (as i)).length ≤ (writeArray write as).length := by
  have hm : write (as i) ∈ List.ofFn fun i => write (as i) := List.mem_ofFn.mpr ⟨i, rfl⟩
  exact (List.sublist_flatten_of_mem hm).length_le

end
