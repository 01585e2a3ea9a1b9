import FlatMpt.Lib.Serial

/-!
# Append logs

Records of a serial format, one after another.  A log cut anywhere is the log of its
first records and a rest that no reader takes for a record.

    Serial.log
    Serial.read_torn   -- part of a record is not a record
    Serial.log_take    -- a cut log
-/

namespace Serial

variable {β α : Type} (f : Serial β α)

def log (as : List α) : List β := as.flatMap f.write

@[simp] theorem log_nil : f.log [] = [] := rfl

@[simp] theorem log_cons (a : α) (as : List α) : f.log (a :: as) = f.write a ++ f.log as :=
  List.flatMap_cons

theorem log_append (as bs : List α) : f.log (as ++ bs) = f.log as ++ f.log bs := List.flatMap_append

theorem log_concat (as : List α) (a : α) : f.log (as ++ [a]) = f.log as ++ f.write a := by
  rw [log_append, log_cons, log_nil, List.append_nil]

variable {f}

/-- Part of a record is not a record. -/
theorem read_torn {a : α} {bs more : List β} (h : f.write a = bs ++ more) (hmore : more ≠ []) :
    f.read bs = none := by
  cases hr : f.read bs with
  | none => rfl
  | some x =>
    obtain ⟨b, rest⟩ := x
    have hbs : f.write a ++ [] = f.write b ++ (rest ++ more) := by
      rw [List.append_nil, h, f.write_read hr, List.append_assoc]
    have h1 := f.read_write a []
    rw [hbs, f.read_write] at h1
    have hnil : rest ++ more = [] := (Prod.ext_iff.mp (Option.some.inj h1)).2
    exact absurd (List.append_eq_nil_iff.mp hnil).2 hmore

theorem read_nil (hne : ∀ a, f.write a ≠ []) : f.read [] = none := by
  cases hr : f.read [] with
  | none => rfl
  | some x =>
    have h := f.write_read hr
    exact absurd (List.append_eq_nil_iff.mp h.symm).1 (hne x.1)

/-- The front of what is no record is none. -/
theorem read_take {bs : List β} (h : f.read bs = none) (n : Nat) : f.read (bs.take n) = none := by
  cases hr : f.read (bs.take n) with
  | none => rfl
  | some x =>
    have hbs : bs = f.write x.1 ++ (x.2 ++ bs.drop n) := by
      rw [← List.append_assoc, ← f.write_read hr, List.take_append_drop]
    rw [hbs, f.read_write] at h
    cases h

/-- A cut keeps the records that lie before it. -/
theorem log_take (as : List α) {tail : List β} (htail : f.read tail = none) (n : Nat) :
    ∃ k torn, k ≤ as.length ∧ (f.log as ++ tail).take n = f.log (as.take k) ++ torn ∧
      f.read torn = none ∧ ∀ m ≤ as.length, (f.log (as.take m)).length ≤ n → m ≤ k := by
  induction as generalizing n with
  | nil => exact ⟨0, tail.take n, le_rfl, rfl, read_take htail n, fun m hm _ => hm⟩
  | cons a as ih =>
    by_cases hn : (f.write a).length ≤ n
    · obtain ⟨k, torn, hk, htake, htorn, hmax⟩ := ih (n - (f.write a).length)
      refine ⟨k + 1, torn, Nat.succ_le_succ hk, ?_, htorn, fun m hm hlen => ?_⟩
      · rw [log_cons, List.append_assoc, List.take_append, List.take_of_length_le hn, htake,
          List.take_succ_cons, log_cons, List.append_assoc]
      · cases m with
        | zero => exact Nat.zero_le _
        | succ m =>
          rw [List.take_succ_cons, log_cons, List.length_append] at hlen
          exact Nat.succ_le_succ (hmax m (Nat.le_of_succ_le_succ hm) (by omega))
    · have hlt : n < (f.write a).length := Nat.lt_of_not_le hn
      refine ⟨0, (f.write a).take n, Nat.zero_le _, ?_, ?_, fun m hm hlen => ?_⟩
      · rw [log_cons, List.append_assoc, List.take_append_of_le_length (Nat.le_of_lt hlt)]
        rfl
      · refine read_torn (List.take_append_drop n (f.write a)).symm fun hnil => ?_
        rw [List.drop_eq_nil_iff] at hnil
        exact hn hnil
      · cases m with
        | zero => exact le_rfl
        | succ m =>
          rw [List.take_succ_cons, log_cons, List.length_append] at hlen
          omega

end Serial
