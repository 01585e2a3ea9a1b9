import FlatMpt.CodeStore

/-!
# Runs of the code log

Calls of `put` one after the other, some of which fail after writing part of their
record, and what `open` finds afterwards.

    CodeStore.putAll           -- the log after some calls
    CodeStore.MayWrite         -- nothing is appended behind a torn record
    CodeStore.Torn.cut         -- a log with a torn tail after a crash
    put_after_failure          -- then every stored code is read back
    log_cut_anywhere           -- a log cut anywhere, appended to and opened again
    CodeStore.get_long         -- codes whose length does not fit
-/

namespace FlatMpt

section
variable [Keccak]

/-- A call of `put`; `fails` is the number of bytes written if the write fails. -/
structure PutCall where
  code : Bytes
  fails : Option Nat

namespace CodeStore

/-- Whether `put` has a record to append. -/
def writes (c : CodeStore) (code : Bytes) : Bool :=
  !(code.isEmpty || (c.index (keccak256 code)).isSome)

def putAll (c : CodeStore) (calls : List PutCall) : CodeStore :=
  calls.foldl (fun c p => (c.put p.code p.fails).2) c

/-- The codes whose `put` has returned their hash. -/
def stored : CodeStore → List PutCall → List Bytes
  | _, [] => []
  | c, p :: rest =>
    (if (c.put p.code p.fails).1.isOk then [p.code] else []) ++ stored (c.put p.code p.fails).2 rest

/-- Once a failed call has left part of a record, no call writes a byte: behind it, even
part of another record may read as the rest of it. -/
def MayWrite : (torn : Bool) → CodeStore → List PutCall → Prop
  | _, _, [] => True
  | torn, c, p :: rest =>
    (torn = true → c.writes p.code = false ∨ p.fails = some 0) ∧
      MayWrite (torn || c.writes p.code && p.fails.any (0 < ·)) (c.put p.code p.fails).2 rest

instance decidableMayWrite : (torn : Bool) → (c : CodeStore) → (calls : List PutCall) →
    Decidable (MayWrite torn c calls)
  | _, _, [] => .isTrue trivial
  | torn, c, p :: rest =>
    @instDecidableAnd _ _ inferInstance
      (decidableMayWrite (torn || c.writes p.code && p.fails.any (0 < ·)) (c.put p.code p.fails).2 rest)

theorem put_idle {c : CodeStore} {code : Bytes} (h : c.writes code = false) (fails : Option Nat) :
    c.put code fails = (.ok (keccak256 code), c) := by
  unfold writes at h
  rw [Bool.not_eq_false'] at h
  exact if_pos h

theorem stored_append (c : CodeStore) (a b : List PutCall) :
    c.stored (a ++ b) = c.stored a ++ (c.putAll a).stored b := by
  induction a generalizing c with
  | nil => rfl
  | cons p a ih =>
    rw [List.cons_append, stored, stored, ih, List.append_assoc]
    rfl

end CodeStore

/-! ## Torn logs -/

section
variable {codes : Set Bytes} {c c0 : CodeStore} {recs : List CodeRecord} {torn : Bytes}

/-- The log `c0` with part of a record behind it. -/
structure CodeStore.Torn (codes : Set Bytes) (c : CodeStore) (recs : List CodeRecord) (torn : Bytes) :
    Prop where
  file : c.file = codeFormat.log recs ++ torn
  rest : codeFormat.read torn = none
  cursor : c.cursor = c.file.length
  logs : ({ c with file := codeFormat.log recs, cursor := (codeFormat.log recs).length } : CodeStore).Logs
    codes recs

theorem CodeStore.Logs.untorn (h : c.Logs codes recs) : c.Torn codes recs [] where
  file := by rw [h.file, List.append_nil]
  rest := Serial.read_nil codeFormat_ne_nil
  cursor := h.cursor
  logs := by
    refine ⟨rfl, rfl, ?_, h.index, h.hash, h.codes, h.nodup⟩
    show c.endOff = (codeFormat.log recs).length
    rw [h.endOff, h.file]

namespace CodeStore.Torn

theorem clean (h : c.Torn codes recs []) : c.Logs codes recs := by
  have hfile := h.file
  rw [List.append_nil] at hfile
  refine ⟨hfile, h.cursor, ?_, h.logs.index, h.logs.hash, h.logs.codes, h.logs.nodup⟩
  rw [hfile]
  exact h.logs.endOff

/-- What lies behind the records is not read. -/
theorem get (h : c.Torn codes recs torn) (hinj : Set.InjOn keccak256 (insert [] codes)) {code : Bytes}
    (hs : Logged recs code) : c.get (keccak256 code) = .ok (some code) := by
  have hget := h.logs.get hinj hs
  unfold CodeStore.get at hget ⊢
  dsimp only at hget
  split
  · rename_i he
    rw [if_pos he] at hget
    exact hget
  · rename_i he
    rw [if_neg he] at hget
    cases hi : c.index (keccak256 code) with
    | none =>
      rw [hi] at hget
      cases hget
    | some x =>
      obtain ⟨off, len⟩ := x
      rw [hi] at hget
      dsimp only at hget ⊢
      split at hget
      · rename_i hle
        rw [h.file, if_pos (by rw [List.length_append]; omega), List.drop_append_of_le_length (by omega),
          List.take_append_of_le_length (by rw [List.length_drop]; omega)]
        exact hget
      · cases hget

/-- The log after a crash that keeps `n` bytes, opened again. -/
theorem cut (h : c.Torn codes recs torn) (n synced : Nat) :
    ∃ k c', CodeStore.open (c.file.take n) synced = some c' ∧ c'.Logs codes (recs.take k) ∧
      ∀ m ≤ recs.length, (codeFormat.log (recs.take m)).length ≤ n ↔ m ≤ k := by
  obtain ⟨k, rest, hk, htake, hrest, hmax⟩ := Serial.log_take recs h.rest n
  have hscan : scanLog (c.file.take n) ((c.file.take n).length + 1) 0 (fun _ => none) =
      some (codeFormat.log (recs.take k), indexFrom (fun _ => none) 0 (recs.take k),
        (codeFormat.log (recs.take k)).length) := by
    rw [h.file, htake]
    exact scanLog_log hrest (recs.take k) [] _ _ (by
      rw [List.length_append]
      omega)
  refine ⟨k, ⟨codeFormat.log (recs.take k), min synced (codeFormat.log (recs.take k)).length,
    (codeFormat.log (recs.take k)).length, indexFrom (fun _ => none) 0 (recs.take k),
    (codeFormat.log (recs.take k)).length⟩, ?_, ⟨rfl, rfl, rfl, rfl,
    fun r hr => h.logs.hash r (List.mem_of_mem_take hr),
    fun r hr => h.logs.codes r (List.mem_of_mem_take hr), ?_⟩, fun m hm => ⟨hmax m hm, fun hle => ?_⟩⟩
  · unfold CodeStore.open
    rw [hscan]
    rfl
  · rw [List.map_take]
    exact h.logs.nodup.sublist (List.take_sublist _ _)
  · have hlen := congrArg List.length htake
    rw [List.length_take, List.length_append, List.length_append] at hlen
    have hpre : codeFormat.log (recs.take m) <+: codeFormat.log (recs.take k) := by
      rw [← List.take_append_drop m (recs.take k), List.take_take, Nat.min_eq_left hle,
        Serial.log_append]
      exact List.prefix_append _ _
    have hle := hpre.length_le
    omega

/-- `open` finds the records and cuts off the rest. -/
theorem «open» (h : c.Torn codes recs torn) (synced : Nat) :
    ∃ c', CodeStore.open c.file synced = some c' ∧ c'.Logs codes recs := by
  obtain ⟨k, c', hopen, hlogs, hmax⟩ := h.cut c.file.length synced
  rw [List.take_length] at hopen
  have hk : recs.length ≤ k := by
    refine (hmax _ le_rfl).mp ?_
    rw [List.take_length, h.file, List.length_append]
    exact Nat.le_add_right _ _
  rw [List.take_of_length_le hk] at hlogs
  exact ⟨c', hopen, hlogs⟩

/-- A code that is present has a record. -/
theorem logged (h : c.Torn codes recs torn) (hinj : Set.InjOn keccak256 (insert [] codes))
    {code : Bytes} (hc : code ∈ codes) (hw : c.writes code = false) : Logged recs code := by
  unfold writes at hw
  rw [Bool.not_eq_false', Bool.or_eq_true] at hw
  rcases hw with hnil | hi
  · exact .inl (List.isEmpty_iff.mp hnil)
  · obtain ⟨r, hr, he⟩ := h.logs.index_mem hi
    rw [h.logs.hash r hr] at he
    exact .inr ⟨r, hr, hinj (Set.mem_insert_of_mem _ (h.logs.codes r hr))
      (Set.mem_insert_of_mem _ hc) he⟩

/-- The cursor is past the last record if one is torn. -/
theorem passed (h : c.Torn codes recs torn) (hne : torn ≠ []) : c.cursor ≠ c.endOff := by
  have hend : c.endOff = (codeFormat.log recs).length := h.logs.endOff
  rw [h.cursor, h.file, hend, List.length_append]
  have hpos := List.length_pos_iff.mpr hne
  omega

theorem flush (h : c.Torn codes recs torn) : c.flush.Torn codes recs torn :=
  ⟨h.file, h.rest, h.cursor, rfl, rfl, h.logs.endOff, h.logs.index, h.logs.hash, h.logs.codes,
    h.logs.nodup⟩

/-- A call that fails before its first byte. -/
theorem put_nothing (h : c.Torn codes recs torn) {code : Bytes} (hw : c.writes code = true) :
    c.put code (some 0) = (.error .io, c) := by
  have hput : c.put code (some 0) = (.error .io, { c with
      file := writeAt c.file c.cursor [], cursor := c.cursor }) := by
    unfold writes at hw
    rw [Bool.not_eq_true'] at hw
    exact if_neg (by rw [hw]; exact Bool.false_ne_true)
  have hfile : writeAt c.file c.cursor [] = c.file := by
    unfold writeAt
    rw [h.cursor, List.take_length, Nat.sub_self, List.replicate_zero, List.append_nil, List.append_nil,
      List.length_nil, Nat.add_zero, List.drop_length, List.append_nil]
  rw [hput, hfile]

end CodeStore.Torn

/-- A failed append leaves part of a record. -/
theorem CodeStore.Logs.putFails (h : c.Logs codes recs) {code : Bytes} (hsize : code.length < 2 ^ 32)
    (hw : c.writes code = true) {n : Nat} (hn : n < (record code).length) :
    (c.put code (some n)).1 = .error .io ∧
      (c.put code (some n)).2.Torn codes recs ((record code).take n) := by
  have hput : c.put code (some n) = (.error .io, { c with
      file := writeAt c.file c.cursor ((record code).take n)
      cursor := c.cursor + ((record code).take n).length }) := by
    unfold writes at hw
    rw [Bool.not_eq_true'] at hw
    exact if_neg (by rw [hw]; exact Bool.false_ne_true)
  have hrec : record code = codeFormat.write (keccak256 code, ⟨code, hsize⟩) :=
    (codeFormat_write (keccak256 code, ⟨code, hsize⟩)).symm
  have hfile : writeAt c.file c.cursor ((record code).take n) = c.file ++ (record code).take n := by
    unfold writeAt
    rw [h.cursor, List.take_length, Nat.sub_self, List.replicate_zero, List.append_nil,
      List.drop_eq_nil_iff.mpr (Nat.le_add_right _ _), List.append_nil]
  rw [hput]
  refine ⟨rfl, ?_, ?_, ?_, ?_⟩
  · dsimp only
    rw [hfile, h.file]
  · have hmore : (record code).drop n ≠ [] := by
      intro hnil
      rw [List.drop_eq_nil_iff] at hnil
      omega
    exact Serial.read_torn (hrec.symm.trans (List.take_append_drop n (record code)).symm) hmore
  · dsimp only
    rw [hfile, List.length_append, h.cursor]
  · refine ⟨rfl, rfl, ?_, h.index, h.hash, h.codes, h.nodup⟩
    show c.endOff = (codeFormat.log recs).length
    rw [h.endOff, h.file]

end

/-! ## Failing calls -/

section
variable {codes : Set Bytes} {c : CodeStore} {recs : List CodeRecord} {torn : Bytes}

/-- One call that may write. -/
theorem CodeStore.Torn.put (h : c.Torn codes recs torn) (hinj : Set.InjOn keccak256 (insert [] codes))
    {p : PutCall} (hc : p.code ∈ codes) (hsize : p.code.length < 2 ^ 32)
    (hproper : ∀ n ∈ p.fails, n < (record p.code).length)
    (hmay : torn ≠ [] → c.writes p.code = false ∨ p.fails = some 0) :
    ∃ new torn', (c.put p.code p.fails).2.Torn codes (recs ++ new) torn' ∧
      ((c.put p.code p.fails).1.isOk = true → Logged (recs ++ new) p.code) ∧
      (torn' ≠ [] → torn ≠ [] ∨ (c.writes p.code && p.fails.any (0 < ·)) = true) := by
  by_cases hw : c.writes p.code = true
  · by_cases hzero : p.fails = some 0
    · rw [hzero, h.put_nothing hw]
      exact ⟨[], torn, by rwa [List.append_nil], nofun, .inl⟩
    have hnil : torn = [] := by
      by_contra hne
      rw [(hmay hne).resolve_right hzero] at hw
      cases hw
    subst hnil
    cases hf : p.fails with
    | none =>
      obtain ⟨-, -, new, hlogs, hlogged⟩ := h.clean.put hinj hc hsize
      exact ⟨new, [], hlogs.untorn, fun _ => hlogged, fun hne => absurd rfl hne⟩
    | some n =>
      obtain ⟨hr, ht⟩ := h.clean.putFails hsize hw (hproper n hf)
      refine ⟨[], _, by rwa [List.append_nil], fun hok => ?_, fun _ => .inr ?_⟩
      · rw [hr] at hok
        cases hok
      · have hpos : 0 < n := Nat.pos_of_ne_zero fun hn => hzero (by rw [hf, hn])
        rw [hw, Bool.true_and, Option.any_some, decide_eq_true hpos]
  · rw [Bool.not_eq_true] at hw
    rw [put_idle hw]
    exact ⟨[], torn, by rwa [List.append_nil], fun _ => by
      rw [List.append_nil]
      exact h.logged hinj hc hw, fun hne => .inl hne⟩

/-- Calls that may write keep every stored code in the log. -/
theorem CodeStore.Torn.putAll (hinj : Set.InjOn keccak256 (insert [] codes)) {calls : List PutCall}
    (hcodes : ∀ p ∈ calls, p.code ∈ codes) (hsize : ∀ p ∈ calls, p.code.length < 2 ^ 32)
    (hproper : ∀ p ∈ calls, ∀ n ∈ p.fails, n < (record p.code).length)
    (h : c.Torn codes recs torn) {b : Bool} (hb : torn ≠ [] → b = true) (hmay : MayWrite b c calls) :
    ∃ new torn', (c.putAll calls).Torn codes (recs ++ new) torn' ∧
      ∀ code ∈ c.stored calls, Logged (recs ++ new) code := by
  induction calls generalizing c recs torn b with
  | nil => exact ⟨[], torn, by rwa [List.append_nil], nofun⟩
  | cons p rest ih =>
    obtain ⟨hfirst, hrest⟩ := hmay
    obtain ⟨new1, torn1, h1, hlogged, ht⟩ := h.put hinj (hcodes p List.mem_cons_self)
      (hsize p List.mem_cons_self) (hproper p List.mem_cons_self) fun hne => hfirst (hb hne)
    obtain ⟨new2, torn2, h2, hstored⟩ := ih (fun q hq => hcodes q (List.mem_cons_of_mem _ hq))
      (fun q hq => hsize q (List.mem_cons_of_mem _ hq))
      (fun q hq => hproper q (List.mem_cons_of_mem _ hq)) h1 (fun hne => by
        rcases ht hne with ht | ht
        · rw [hb ht, Bool.true_or]
        · rw [ht, Bool.or_true]) hrest
    refine ⟨new1 ++ new2, torn2, by rwa [← List.append_assoc], fun code hcode => ?_⟩
    rw [← List.append_assoc]
    rcases List.mem_append.mp hcode with hcode | hcode
    · split at hcode
      · rename_i hok
        rw [List.mem_singleton.mp hcode]
        exact (hlogged hok).mono (List.subset_append_left _ _)
      · cases hcode
    · exact hstored code hcode

end

/-- **Failed appends.**  If no call appends behind part of a record, every code whose
`put` has returned is read back from then on, and also after the log is opened again. -/
theorem put_after_failure (calls later : List PutCall)
    (hinj : Set.InjOn keccak256 (insert [] {code | ∃ p ∈ calls ++ later, p.code = code}))
    (hsize : ∀ p ∈ calls ++ later, p.code.length < 2 ^ 32)
    (hproper : ∀ p ∈ calls ++ later, ∀ n ∈ p.fails, n < (CodeStore.record p.code).length)
    (hmay : CodeStore.create.MayWrite false (calls ++ later)) :
    ∀ code ∈ CodeStore.create.stored calls,
      (CodeStore.create.putAll (calls ++ later)).get (keccak256 code) = .ok (some code) ∧
      ∀ synced, ∃ c, CodeStore.open (CodeStore.create.putAll (calls ++ later)).file synced = some c ∧
        c.get (keccak256 code) = .ok (some code) := by
  intro code hcode
  obtain ⟨new, torn, ht, hstored⟩ := CodeStore.Torn.putAll hinj (fun p hp => ⟨p, hp, rfl⟩) hsize
    hproper CodeStore.logs_create.untorn (absurd rfl) hmay
  have hlogged := hstored code (by
    rw [CodeStore.stored_append]
    exact List.mem_append_left _ hcode)
  refine ⟨ht.get hinj hlogged, fun synced => ?_⟩
  obtain ⟨c, hopen, hlogs⟩ := ht.open synced
  exact ⟨c, hopen, hlogs.get hinj hlogged⟩

/-! ## Cuts -/

/-- Calls that succeed. -/
def CodeStore.puts (c : CodeStore) (codes : List Bytes) : CodeStore :=
  c.putAll (codes.map fun code => ⟨code, none⟩)

section
variable {codes : Set Bytes} {c : CodeStore} {recs : List CodeRecord}

theorem CodeStore.Logs.mono {codes' : Set Bytes} (h : c.Logs codes recs) (hsub : codes ⊆ codes') :
    c.Logs codes' recs :=
  ⟨h.file, h.cursor, h.endOff, h.index, h.hash, fun r hr => hsub (h.codes r hr), h.nodup⟩

/-- Every code is stored once, whatever the order of the calls; the empty one is not stored. -/
theorem CodeStore.Logs.puts (h : c.Logs codes recs) (hinj : Set.InjOn keccak256 (insert [] codes))
    (calls : List Bytes) (hc : ∀ code ∈ calls, code ≠ [] → code ∈ codes)
    (hsize : ∀ code ∈ calls, code.length < 2 ^ 32) :
    ∃ new, (c.puts calls).Logs codes (recs ++ new) ∧
      ∀ code ∈ calls, Logged (recs ++ new) code := by
  induction calls generalizing c recs with
  | nil => exact ⟨[], by rwa [List.append_nil], nofun⟩
  | cons code calls ih =>
    obtain ⟨new1, h1, hlogged⟩ : ∃ new, (c.put code none).2.Logs codes (recs ++ new) ∧
        Logged (recs ++ new) code := by
      by_cases hnil : code = []
      · refine ⟨[], ?_, .inl hnil⟩
        have hidle : c.writes code = false := by rw [hnil]; rfl
        rwa [put_idle hidle, List.append_nil]
      · obtain ⟨-, -, new, hnew⟩ := h.put hinj (hc code List.mem_cons_self hnil)
          (hsize code List.mem_cons_self)
        exact ⟨new, hnew⟩
    obtain ⟨new2, h2, hall⟩ := ih h1 (fun x hx => hc x (List.mem_cons_of_mem _ hx))
      fun x hx => hsize x (List.mem_cons_of_mem _ hx)
    rw [List.append_assoc] at h2 hall
    refine ⟨new1 ++ new2, h2, List.forall_mem_cons.mpr ⟨hlogged.mono ?_, hall⟩⟩
    rw [← List.append_assoc]
    exact List.subset_append_left _ _

/-- The records' bytes. -/
theorem CodeStore.Logs.log_eq (h : c.Logs codes recs) :
    codeFormat.log recs = (recs.map (·.2.1)).flatMap record := by
  rw [List.flatMap_map]
  refine List.flatMap_congr fun r hr => ?_
  rw [codeFormat_write, h.hash r hr]
  rfl

/-- The index has an entry for every record and for nothing else. -/
theorem CodeStore.Logs.index_iff (h : c.Logs codes recs) (hash : Hash) :
    (c.index hash).isSome ↔ ∃ code ∈ recs.map (·.2.1), keccak256 code = hash := by
  constructor
  · intro hi
    obtain ⟨r, hr, rfl⟩ := h.index_mem hi
    exact ⟨r.2.1, List.mem_map_of_mem hr, (h.hash r hr).symm⟩
  · rintro ⟨code, hcode, rfl⟩
    obtain ⟨r, hr, rfl⟩ := List.mem_map.mp hcode
    obtain ⟨off, hoff, -, -⟩ := indexFrom_mem h.nodup hr (fun _ => none) [] []
    rw [h.index, ← h.hash r hr]
    exact Option.isSome_of_eq_some hoff

end

/-- **Torn tails.**  A log cut anywhere is opened with exactly the complete records; what
is stored from then on lies behind them, and everything is read back. -/
theorem log_cut_anywhere (codes later : List Bytes)
    (hinj : Set.InjOn keccak256 (insert [] {code | code ∈ codes ++ later}))
    (hsize : ∀ code ∈ codes ++ later, code.length < 2 ^ 32) :
    ∃ stored : List Bytes, stored.Nodup ∧ (∀ code, code ∈ stored ↔ code ∈ codes ∧ code ≠ []) ∧
      (CodeStore.create.puts codes).file = stored.flatMap CodeStore.record ∧
      ∀ n synced, ∃ k c,
        CodeStore.open ((CodeStore.create.puts codes).file.take n) synced = some c ∧
        (∀ m ≤ stored.length, ((stored.take m).flatMap CodeStore.record).length ≤ n ↔ m ≤ k) ∧
        c.file = (stored.take k).flatMap CodeStore.record ∧
        (∀ hash, (c.index hash).isSome ↔ ∃ code ∈ stored.take k, keccak256 code = hash) ∧
        c.file <+: (c.puts later).file ∧
        ∀ code ∈ stored.take k ++ later,
          (c.puts later).get (keccak256 code) = .ok (some code) ∧
          ∀ synced', ∃ c', CodeStore.open (c.puts later).file synced' = some c' ∧
            c'.get (keccak256 code) = .ok (some code) := by
  have hsub : {code | code ∈ codes ∧ code ≠ []} ⊆ {code | code ∈ codes ++ later} := fun code hcode =>
    List.mem_append_left _ hcode.1
  obtain ⟨recs, hlogs, hall⟩ := CodeStore.logs_create.puts
    (hinj.mono (Set.insert_subset_insert hsub)) codes (fun code hcode hne => ⟨hcode, hne⟩)
    fun code hcode => hsize code (List.mem_append_left _ hcode)
  rw [List.nil_append] at hlogs hall
  refine ⟨recs.map (·.2.1), ?_, fun code => ⟨fun hcode => ?_, fun hcode => ?_⟩,
    hlogs.file.trans hlogs.log_eq, fun n synced => ?_⟩
  · have hhash : recs.map Prod.fst = (recs.map (·.2.1)).map keccak256 := by
      rw [List.map_map]
      exact List.map_congr_left hlogs.hash
    have hnodup := hlogs.nodup
    rw [hhash] at hnodup
    exact hnodup.of_map
  · obtain ⟨r, hr, rfl⟩ := List.mem_map.mp hcode
    exact hlogs.codes r hr
  · obtain ⟨r, hr, rfl⟩ := (hall code hcode.1).resolve_left hcode.2
    exact List.mem_map_of_mem hr
  · obtain ⟨k, c, hopen, hcut, hmax⟩ := hlogs.untorn.cut n synced
    have hlog (m : Nat) : codeFormat.log (recs.take m) =
        ((recs.map (·.2.1)).take m).flatMap CodeStore.record := by
      rw [← List.map_take, List.flatMap_map]
      refine List.flatMap_congr fun r hr => ?_
      rw [codeFormat_write, hlogs.hash r (List.mem_of_mem_take hr)]
      rfl
    obtain ⟨new, hnew, hlater⟩ := (hcut.mono hsub).puts hinj later
      (fun code hcode _ => List.mem_append_right _ hcode)
      fun code hcode => hsize code (List.mem_append_right _ hcode)
    refine ⟨k, c, hopen, fun m hm => ?_, hcut.file.trans (hlog k), fun hash => ?_, ?_,
      fun code hcode => ?_⟩
    · rw [← hlog]
      exact hmax m (by rwa [List.length_map] at hm)
    · rw [← List.map_take]
      exact hcut.index_iff hash
    · rw [hnew.file, hcut.file, Serial.log_append]
      exact List.prefix_append _ _
    · have hlogged : Logged (recs.take k ++ new) code := by
        rcases List.mem_append.mp hcode with hcode | hcode
        · rw [← List.map_take] at hcode
          obtain ⟨r, hr, rfl⟩ := List.mem_map.mp hcode
          exact .inr ⟨r, List.mem_append_left _ hr, rfl⟩
        · exact hlater code hcode
      refine ⟨hnew.get hinj hlogged, fun synced' => ?_⟩
      obtain ⟨c', hopen', hlogs'⟩ := hnew.untorn.open synced'
      exact ⟨c', hopen', hlogs'.get hinj hlogged⟩

end

/-- A hash without collisions on codes of one byte. -/
abbrev headKeccak : Keccak := ⟨fun bs => .fill (bs.headD 0)⟩

theorem headKeccak_inj {codes : Set Bytes} (h : ∀ code ∈ codes, code ∈ [[1], [2], [3]]) :
    Set.InjOn headKeccak.keccak256 (insert [] codes) := by
  have hinj : ∀ a ∈ [[], [1], [2], [3]], ∀ b ∈ [[], [1], [2], [3]],
      headKeccak.keccak256 a = headKeccak.keccak256 b → a = b := by decide
  have hmem : ∀ a ∈ insert [] codes, a ∈ [[], [1], [2], [3]] := by
    rintro a (rfl | ha)
    · exact List.mem_cons_self
    · exact List.mem_cons_of_mem _ (h a ha)
  exact fun a ha b hb => hinj a (hmem a ha) b (hmem b hb)

/-- A torn record, and a code that needs none. -/
theorem put_after_failure_torn :
    let _ : Keccak := headKeccak
    (CodeStore.create.putAll ([⟨[1], none⟩, ⟨[3], some 0⟩, ⟨[2], none⟩] ++
      [⟨[3], some 5⟩, ⟨[3], some 0⟩, ⟨[1], none⟩])).get (keccak256 [2]) = .ok (some [2]) := by
  intro _
  have hmem : ∀ p ∈ [⟨[1], none⟩, ⟨[3], some 0⟩, ⟨[2], none⟩] ++
        [⟨[3], some 5⟩, ⟨[3], some 0⟩, PutCall.mk [1] none],
      p.code ∈ [[1], [2], [3]] := by decide
  refine (put_after_failure _ _ (headKeccak_inj ?_) (by decide) (by decide) (by decide +kernel) [2]
    (by decide +kernel)).1
  rintro code ⟨p, hp, rfl⟩
  exact hmem p hp

/-- One byte of a record, and another record behind it. -/
theorem put_after_failure_fails :
    let _ : Keccak := headKeccak
    let c := CodeStore.create.putAll [⟨[1], some 1⟩, ⟨[2], none⟩]
    [2] ∈ CodeStore.create.stored [⟨[1], some 1⟩, ⟨[2], none⟩] ∧
      c.get (keccak256 [2]) ≠ .ok (some [2]) ∧
      ∀ c' ∈ CodeStore.open c.file 0, c'.get (keccak256 [2]) ≠ .ok (some [2]) := by
  decide +kernel

/-- A log cut one byte short, and a code behind it. -/
theorem log_cut_anywhere_short :
    let _ : Keccak := headKeccak
    ∃ c, CodeStore.open ((CodeStore.create.puts [[1], [2]]).file.take 73) 0 = some c ∧
      (c.puts [[3]]).get (keccak256 [3]) = .ok (some [3]) := by
  intro _
  obtain ⟨_, -, -, -, hcut⟩ := log_cut_anywhere [[1], [2]] [[3]] (headKeccak_inj fun _ h => h)
    (by decide)
  obtain ⟨_, c, hopen, -, -, -, -, hget⟩ := hcut 73 0
  exact ⟨c, hopen, (hget [3] (List.mem_append_right _ List.mem_cons_self)).1⟩

/-! ## Long codes -/

/-- The index keeps lengths of 32 bits. -/
theorem scanLog_short {file file' : Bytes} {fuel endOff end' : Nat} {index index' : CodeIndex}
    (h : ∀ hash x, index hash = some x → x.2 < 2 ^ 32)
    (hscan : scanLog file fuel endOff index = some (file', index', end')) :
    ∀ hash x, index' hash = some x → x.2 < 2 ^ 32 := by
  induction fuel generalizing endOff index with
  | zero => cases hscan
  | succ fuel ih =>
    unfold scanLog at hscan
    split at hscan
    · cases hscan
      exact h
    · split at hscan
      · cases hscan
        exact h
      · rename_i hash len hh
        dsimp only at hscan
        split at hscan
        · cases hscan
          exact h
        · refine ih (fun hash' x hx => ?_) hscan
          by_cases he : hash' = hash
          · rw [he, Function.update_self] at hx
            cases hx
            unfold readHeader at hh
            split at hh
            · cases hh
              have hle := Nat.pow_le_pow_right (show 0 < 256 by decide)
                (List.length_take_le 4 ((file.drop endOff).drop 32))
              exact Nat.lt_of_lt_of_le (leValue_lt _) hle
            · cases hh
          · rw [Function.update_of_ne he] at hx
            exact h hash' x hx

/-- A code whose length does not fit is never read back. -/
theorem CodeStore.get_long [Keccak] {file : Bytes} {synced : Nat} {c : CodeStore}
    (h : CodeStore.open file synced = some c) {code : Bytes} (hlen : 2 ^ 32 ≤ code.length) (hash : Hash) :
    c.get hash ≠ .ok (some code) := by
  intro hget
  obtain ⟨⟨file', index, end'⟩, hscan, rfl⟩ := Option.map_eq_some_iff.mp h
  unfold CodeStore.get at hget
  split at hget
  · cases hget
    rw [List.length_nil] at hlen
    omega
  · dsimp only at hget
    cases hi : index hash with
    | none =>
      rw [hi] at hget
      cases hget
    | some x =>
      have hx := scanLog_short (fun _ _ h => by cases h) hscan hash x hi
      rw [hi] at hget
      dsimp only at hget
      split at hget
      · cases hget
        rw [List.length_take] at hlen
        omega
      · cases hget

/-- A code of 2^32 bytes: `put` succeeds, nothing is cut, and the code is gone. -/
theorem log_cut_anywhere_fails :
    let _ : Keccak := headKeccak
    let code : Bytes := List.replicate (2 ^ 32) 1
    (CodeStore.create.put code none).1 = .ok (keccak256 code) ∧ ∀ synced c,
      CodeStore.open (CodeStore.create.puts [code]).file synced = some c →
        c.get (keccak256 code) ≠ .ok (some code) := by
  intro _ code
  have hlen : 2 ^ 32 ≤ code.length := by rw [List.length_replicate]
  generalize code = code at hlen
  refine ⟨?_, fun synced c hopen => CodeStore.get_long hopen hlen _⟩
  unfold CodeStore.put
  dsimp only
  split <;> rfl

end FlatMpt
