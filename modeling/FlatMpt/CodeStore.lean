import FlatMpt.Lib.Log
import FlatMpt.Manifest

/-!
# The code log

Bytecode lives outside the trie, in an append log of `[code_hash][len][code]` records
with an index in RAM.  `open` rebuilds the index and cuts off a torn tail.

    CodeStore, CodeStore.open, put, get, flush
    codeFormat          -- one record
    CodeStore.Logs      -- the log holds these records, the index finds them
    scanLog_log         -- what `open` makes of a log with a torn tail
    Logs.put            -- a record more
-/

namespace FlatMpt

/-! ## The store -/

/-- Where each code lies. -/
abbrev CodeIndex := Hash → Option (Nat × Nat)

/-- The log file with its append cursor; the first `synced` bytes are on disk. -/
structure CodeStore where
  file : Bytes
  synced : Nat
  cursor : Nat
  index : CodeIndex
  endOff : Nat

/-- Write at an offset; a gap before it reads as zeros. -/
def writeAt (file : Bytes) (off : Nat) (bs : Bytes) : Bytes :=
  file.take off ++ List.replicate (off - file.length) 0 ++ bs ++ file.drop (off + bs.length)

/-- Hash and length at the front of a record; `none` if the bytes end before. -/
def readHeader (bs : Bytes) : Option (Hash × Nat) :=
  if h : 36 ≤ bs.length then
    some (⟨bs.take 32, List.length_take_of_le (Nat.le_trans (by decide) h)⟩,
      leValue ((bs.drop 32).take 4))
  else none

/-- Scan from a record boundary: the file without its torn tail, the index and the end.
`none` past the given number of records. -/
def scanLog (file : Bytes) : Nat → Nat → CodeIndex → Option (Bytes × CodeIndex × Nat)
  | 0, _, _ => none
  | fuel + 1, endOff, index =>
    if file.length ≤ endOff then some (file, index, endOff)
    else
      match readHeader (file.drop endOff) with
      | none => some (file.take endOff, index, endOff)
      | some (hash, len) =>
        let dataOff := endOff + 36
        if dataOff + len > file.length then some (file.take endOff, index, endOff)
        else scanLog file fuel (dataOff + len) (Function.update index hash (some (dataOff, len)))

namespace CodeStore

def create : CodeStore := ⟨[], 0, 0, fun _ => none, 0⟩

/-- Every record takes 36 bytes or more, so the scan ends within the file's length. -/
def «open» (file : Bytes) (synced : Nat) : Option CodeStore :=
  (scanLog file (file.length + 1) 0 fun _ => none).map fun (file, index, endOff) =>
  ⟨file, min synced file.length, endOff, index, endOff⟩

section
variable [Keccak]

/-- The bytes of a record; the length is cut to 32 bits. -/
def record (code : Bytes) : Bytes := (keccak256 code).bytes ++ leBytes 4 code.length ++ code

/-- Append a code.  `fails` is the number of bytes written if the write fails. -/
def put (c : CodeStore) (code : Bytes) (fails : Option Nat) : Except Err Hash × CodeStore :=
  let hash := keccak256 code
  if code.isEmpty || (c.index hash).isSome then (.ok hash, c)
  else
    let rec_ := record code
    match fails with
    | some n =>
      (.error .io, { c with
        file := writeAt c.file c.cursor (rec_.take n), cursor := c.cursor + (rec_.take n).length })
    | none =>
      let dataOff := c.endOff + 36
      (.ok hash, { c with
        file := writeAt c.file c.cursor rec_
        cursor := c.cursor + rec_.length
        index := Function.update c.index hash (some (dataOff, code.length % 2 ^ 32))
        endOff := dataOff + code.length })

/-- The code of a hash; a read past the end of the file fails. -/
def get (c : CodeStore) (hash : Hash) : Except Err (Option Bytes) :=
  if hash = Eth.EMPTY_CODE_HASH then .ok (some [])
  else
    match c.index hash with
    | none => .ok none
    | some (off, len) =>
      if off + len ≤ c.file.length then .ok (some ((c.file.drop off).take len)) else .error .io

end

def flush (c : CodeStore) : CodeStore := { c with synced := c.file.length }

end CodeStore

/-! ## Records -/

/-- A record that `open` accepts. -/
abbrev CodeRecord := Hash × { code : Bytes // code.length < 256 ^ 4 }

def codeFormat : Serial UInt8 CodeRecord := hashFormat.prod (.counted (uintFormat 4))

theorem codeFormat_write (r : CodeRecord) :
    codeFormat.write r = r.1.bytes ++ leBytes 4 r.2.1.length ++ r.2.1 :=
  (List.append_assoc ..).symm

theorem codeFormat_length (r : CodeRecord) : (codeFormat.write r).length = 36 + r.2.1.length := by
  rw [codeFormat_write, List.length_append, List.length_append, r.1.size, leBytes_length]

theorem codeFormat_ne_nil (r : CodeRecord) : codeFormat.write r ≠ [] := by
  intro h
  have hlen := codeFormat_length r
  rw [h, List.length_nil] at hlen
  omega

/-- The header of a record. -/
theorem readHeader_write (r : CodeRecord) (rest : Bytes) :
    readHeader (codeFormat.write r ++ rest) = some (r.1, r.2.1.length) := by
  have hlen : 36 ≤ (codeFormat.write r ++ rest).length := by
    rw [List.length_append, codeFormat_length]
    omega
  have hw : codeFormat.write r ++ rest = r.1.bytes ++ (leBytes 4 r.2.1.length ++ (r.2.1 ++ rest)) := by
    rw [codeFormat_write, List.append_assoc, List.append_assoc]
  unfold readHeader
  rw [dif_pos hlen]
  congr 2
  · apply Bytes32.ext
    show (codeFormat.write r ++ rest).take 32 = r.1.bytes
    rw [hw]
    exact List.take_left' r.1.size
  · rw [hw, List.drop_left' r.1.size, List.take_left' (leBytes_length _ _),
      leValue_leBytes _ _ r.2.2]

/-- A header with all of its code behind it is a record. -/
theorem read_of_header {bs : Bytes} {hash : Hash} {len : Nat} (h : readHeader bs = some (hash, len))
    (hlen : 36 + len ≤ bs.length) : ∃ r rest, codeFormat.read bs = some (r, rest) := by
  unfold readHeader at h
  split at h
  · rename_i h36
    obtain ⟨rfl, rfl⟩ := Prod.ext_iff.mp (Option.some.inj h)
    set len := leValue ((bs.drop 32).take 4) with hl
    have h4 : ((bs.drop 32).take 4).length = 4 := by
      rw [List.length_take, List.length_drop]
      omega
    have hlt : len < 256 ^ 4 := by
      have := leValue_lt ((bs.drop 32).take 4)
      rwa [h4] at this
    have hcode : ((bs.drop 36).take len).length = len := by
      rw [List.length_take, List.length_drop]
      omega
    have hle : leBytes 4 len = (bs.drop 32).take 4 := by
      have := leBytes_leValue ((bs.drop 32).take 4)
      rwa [h4] at this
    refine ⟨(⟨bs.take 32, List.length_take_of_le (Nat.le_trans (by decide) h36)⟩,
      ⟨(bs.drop 36).take len, by rw [hcode]; exact hlt⟩), bs.drop (36 + len), ?_⟩
    rw [← codeFormat.read_write _ (bs.drop (36 + len)), codeFormat_write]
    congr 1
    dsimp only
    rw [hcode, hle, List.append_assoc, List.append_assoc, ← List.drop_drop, List.take_append_drop]
    have h36 : bs.drop 36 = (bs.drop 32).drop 4 := by rw [List.drop_drop]
    rw [h36, List.take_append_drop, List.take_append_drop]
  · cases h

/-! ## The scan -/

/-- The index after these records, from a record boundary. -/
def indexFrom : CodeIndex → Nat → List CodeRecord → CodeIndex
  | index, _, [] => index
  | index, endOff, r :: recs =>
    indexFrom (Function.update index r.1 (some (endOff + 36, r.2.1.length)))
      (endOff + 36 + r.2.1.length) recs

theorem indexFrom_concat (index : CodeIndex) (endOff : Nat) (recs : List CodeRecord)
    (r : CodeRecord) : indexFrom index endOff (recs ++ [r]) =
      Function.update (indexFrom index endOff recs) r.1
        (some (endOff + (codeFormat.log recs).length + 36, r.2.1.length)) := by
  induction recs generalizing index endOff with
  | nil => rfl
  | cons r' recs ih =>
    rw [List.cons_append, indexFrom, ih, indexFrom, Serial.log_cons, List.length_append,
      codeFormat_length]
    congr 4
    omega

/-- Hashes of no record stay as they were. -/
theorem indexFrom_of_notMem {recs : List CodeRecord} {hash : Hash}
    (h : hash ∉ recs.map Prod.fst) (index : CodeIndex) (endOff : Nat) :
    indexFrom index endOff recs hash = index hash := by
  induction recs generalizing index endOff with
  | nil => rfl
  | cons r recs ih =>
    rw [List.map_cons, List.mem_cons, not_or] at h
    rw [indexFrom, ih h.2, Function.update_of_ne h.1]

/-- The index points at the code of every record. -/
theorem indexFrom_mem {recs : List CodeRecord} (hnodup : (recs.map Prod.fst).Nodup) {r : CodeRecord}
    (hr : r ∈ recs) (index : CodeIndex) (pre rest : Bytes) :
    ∃ off, indexFrom index pre.length recs r.1 = some (off, r.2.1.length) ∧
      off + r.2.1.length ≤ (pre ++ codeFormat.log recs ++ rest).length ∧
      ((pre ++ codeFormat.log recs ++ rest).drop off).take r.2.1.length = r.2.1 := by
  induction recs generalizing index pre with
  | nil => cases hr
  | cons r' recs ih =>
    rw [List.map_cons, List.nodup_cons] at hnodup
    have hfile : pre ++ codeFormat.log (r' :: recs) ++ rest =
        (pre ++ codeFormat.write r') ++ codeFormat.log recs ++ rest := by
      rw [Serial.log_cons, ← List.append_assoc pre]
    have hlen : (pre ++ codeFormat.write r').length = pre.length + 36 + r'.2.1.length := by
      rw [List.length_append, codeFormat_length, Nat.add_assoc]
    rw [hfile]
    rcases List.mem_cons.mp hr with rfl | hr
    · refine ⟨pre.length + 36, ?_, ?_, ?_⟩
      · rw [indexFrom, indexFrom_of_notMem hnodup.1, Function.update_self]
      · rw [← hlen, List.append_assoc]
        exact (List.prefix_append _ _).length_le
      · have hpre : (pre ++ r.1.bytes ++ leBytes 4 r.2.1.length).length = pre.length + 36 := by
          rw [List.length_append, List.length_append, r.1.size, leBytes_length]
        have hw : pre ++ codeFormat.write r ++ codeFormat.log recs ++ rest =
            (pre ++ r.1.bytes ++ leBytes 4 r.2.1.length) ++
              (r.2.1 ++ (codeFormat.log recs ++ rest)) := by
          simp only [codeFormat_write, List.append_assoc]
        rw [hw, ← hpre, List.drop_left, List.take_left]
    · have h := ih hnodup.2 hr (Function.update index r'.1 (some (pre.length + 36, r'.2.1.length)))
        (pre ++ codeFormat.write r')
      rw [hlen] at h
      exact h

/-- The scan takes the complete records and cuts off the rest. -/
theorem scanLog_log {torn : Bytes} (htorn : codeFormat.read torn = none) (recs : List CodeRecord)
    (pre : Bytes) (index : CodeIndex) (fuel : Nat) (hfuel : (codeFormat.log recs).length < fuel) :
    scanLog (pre ++ codeFormat.log recs ++ torn) fuel pre.length index =
      some (pre ++ codeFormat.log recs, indexFrom index pre.length recs,
        (pre ++ codeFormat.log recs).length) := by
  induction recs generalizing pre index fuel with
  | nil =>
    rw [Serial.log_nil, List.append_nil]
    cases fuel with
    | zero => cases hfuel
    | succ fuel =>
      rw [scanLog]
      split
      · rename_i hle
        have hnil : torn = [] := by
          rw [List.length_append] at hle
          exact List.length_eq_zero_iff.mp (by omega)
        rw [hnil, List.append_nil]
        rfl
      · rw [List.drop_left, List.take_left]
        cases hh : readHeader torn with
        | none => rfl
        | some x =>
          obtain ⟨hash, len⟩ := x
          dsimp only
          rw [if_pos, indexFrom]
          by_contra hle
          rw [List.length_append] at hle
          obtain ⟨r, rest, hr⟩ := read_of_header hh (by omega)
          rw [hr] at htorn
          cases htorn
  | cons r recs ih =>
    have hlog : pre ++ codeFormat.log (r :: recs) = (pre ++ codeFormat.write r) ++ codeFormat.log recs := by
      rw [Serial.log_cons, List.append_assoc]
    have hlen : (pre ++ codeFormat.write r).length = pre.length + 36 + r.2.1.length := by
      rw [List.length_append, codeFormat_length, Nat.add_assoc]
    rw [Serial.log_cons, List.length_append, codeFormat_length] at hfuel
    cases fuel with
    | zero => cases hfuel
    | succ fuel =>
      have hfile : (pre ++ codeFormat.log (r :: recs) ++ torn).length =
          pre.length + 36 + r.2.1.length + (codeFormat.log recs ++ torn).length := by
        rw [hlog, List.append_assoc, List.length_append, hlen]
      have hdrop : (pre ++ codeFormat.log (r :: recs) ++ torn).drop pre.length =
          codeFormat.write r ++ (codeFormat.log recs ++ torn) := by
        rw [Serial.log_cons, List.append_assoc, List.drop_left, List.append_assoc]
      rw [scanLog, if_neg (by omega), hdrop, readHeader_write]
      dsimp only
      rw [if_neg (by omega), hlog, ← hlen, ih _ _ _ (by omega), indexFrom, hlen]

/-! ## Logs -/

section
variable [Keccak] {codes : Set Bytes} {c : CodeStore} {recs : List CodeRecord}

/-- The log holds the records of some of the codes, and the index finds each. -/
structure CodeStore.Logs (codes : Set Bytes) (c : CodeStore) (recs : List CodeRecord) : Prop where
  file : c.file = codeFormat.log recs
  cursor : c.cursor = c.file.length
  endOff : c.endOff = c.file.length
  index : c.index = indexFrom (fun _ => none) 0 recs
  hash : ∀ r ∈ recs, r.1 = keccak256 r.2.1
  codes : ∀ r ∈ recs, r.2.1 ∈ codes
  nodup : (recs.map Prod.fst).Nodup

theorem CodeStore.logs_create : CodeStore.create.Logs codes [] :=
  ⟨rfl, rfl, rfl, rfl, nofun, nofun, List.nodup_nil⟩

/-- The code is empty or has a record. -/
def Logged (recs : List CodeRecord) (code : Bytes) : Prop := code = [] ∨ ∃ r ∈ recs, r.2.1 = code

omit [Keccak] in
theorem Logged.mono {recs' : List CodeRecord} {code : Bytes} (h : recs ⊆ recs')
    (hs : Logged recs code) : Logged recs' code :=
  hs.imp_right fun ⟨r, hr, hc⟩ => ⟨r, h hr, hc⟩

namespace CodeStore.Logs

theorem index_mem (h : c.Logs codes recs) {hash : Hash} (hi : (c.index hash).isSome) :
    ∃ r ∈ recs, r.1 = hash := by
  by_contra hno
  have hnot : hash ∉ recs.map Prod.fst := by
    intro hm
    obtain ⟨r, hr, he⟩ := List.mem_map.mp hm
    exact hno ⟨r, hr, he⟩
  rw [h.index, indexFrom_of_notMem hnot] at hi
  cases hi

/-- A stored code is read back. -/
theorem get (h : c.Logs codes recs) (hinj : Set.InjOn keccak256 (insert [] codes)) {code : Bytes}
    (hs : Logged recs code) : c.get (keccak256 code) = .ok (some code) := by
  unfold CodeStore.get
  rcases hs with rfl | ⟨r, hr, rfl⟩
  · exact if_pos rfl
  · by_cases he : keccak256 r.2.1 = Eth.EMPTY_CODE_HASH
    · have hnil : r.2.1 = [] := hinj (Set.mem_insert_of_mem _ (h.codes r hr)) (Set.mem_insert _ _) he
      rw [if_pos he, hnil]
    · obtain ⟨off, hoff, hle, hget⟩ := indexFrom_mem h.nodup hr (fun _ => none) [] []
      rw [List.nil_append, List.append_nil, ← h.file] at hle hget
      have hi : c.index r.1 = some (off, r.2.1.length) := by
        rw [h.index]
        exact hoff
      rw [if_neg he, ← h.hash r hr, hi]
      dsimp only
      rw [if_pos hle, hget]

/-- Nothing else is read back. -/
theorem stored_of_get (h : c.Logs codes recs) (hinj : Set.InjOn keccak256 (insert [] codes))
    {code : Bytes} (hc : code ∈ insert [] codes) (hget : c.get (keccak256 code) = .ok (some code)) :
    Logged recs code := by
  unfold CodeStore.get at hget
  split at hget
  · cases hget
    exact .inl rfl
  · cases hi : c.index (keccak256 code) with
    | none =>
      rw [hi] at hget
      cases hget
    | some x =>
      obtain ⟨r, hr, he⟩ := h.index_mem (show (c.index (keccak256 code)).isSome by rw [hi]; rfl)
      rw [h.hash r hr] at he
      exact .inr ⟨r, hr, hinj (Set.mem_insert_of_mem _ (h.codes r hr)) hc he⟩

/-- A successful append. -/
theorem put (h : c.Logs codes recs) (hinj : Set.InjOn keccak256 (insert [] codes)) {code : Bytes}
    (hc : code ∈ codes) (hsize : code.length < 2 ^ 32) :
    (c.put code none).1 = .ok (keccak256 code) ∧ (c.put code none).2.synced = c.synced ∧
      ∃ new, (c.put code none).2.Logs codes (recs ++ new) ∧ Logged (recs ++ new) code := by
  unfold CodeStore.put
  dsimp only
  split
  · rename_i hskip
    refine ⟨rfl, rfl, [], by rwa [List.append_nil], ?_⟩
    rw [List.append_nil]
    rw [Bool.or_eq_true] at hskip
    rcases hskip with hnil | hi
    · exact .inl (List.isEmpty_iff.mp hnil)
    · obtain ⟨r, hr, he⟩ := h.index_mem hi
      rw [h.hash r hr] at he
      exact .inr ⟨r, hr, hinj (Set.mem_insert_of_mem _ (h.codes r hr)) (Set.mem_insert_of_mem _ hc) he⟩
  · rename_i hskip
    rw [Bool.not_eq_true, Bool.or_eq_false_iff] at hskip
    set r : CodeRecord := (keccak256 code, ⟨code, hsize⟩) with hr
    have hrec : record code = codeFormat.write r := (codeFormat_write r).symm
    have hfile : writeAt c.file c.cursor (record code) = codeFormat.log (recs ++ [r]) := by
      unfold writeAt
      rw [h.cursor, List.take_length, Nat.sub_self, List.replicate_zero, List.append_nil,
        List.drop_eq_nil_iff.mpr (Nat.le_add_right _ _), List.append_nil, Serial.log_concat, hrec,
        h.file]
    have hnew : r.1 ∉ recs.map Prod.fst := by
      intro hm
      obtain ⟨r', hr', he⟩ := List.mem_map.mp hm
      obtain ⟨off, hoff, -, -⟩ := indexFrom_mem h.nodup hr' (fun _ => none) [] []
      have hi : c.index r.1 = some (off, r'.2.1.length) := by rw [h.index, ← he]; exact hoff
      have hfalse : (c.index r.1).isSome = false := hskip.2
      rw [hi] at hfalse
      cases hfalse
    have hlen : c.file.length = (codeFormat.log recs).length := by rw [h.file]
    refine ⟨rfl, rfl, [r], ⟨hfile, ?_, ?_, ?_, ?_, ?_, ?_⟩,
      .inr ⟨r, List.mem_append_right _ (List.mem_singleton_self r), rfl⟩⟩
    · dsimp only
      rw [hfile, Serial.log_concat, List.length_append, hrec, h.cursor, hlen]
    · dsimp only
      rw [hfile, Serial.log_concat, List.length_append, codeFormat_length, h.endOff, hlen,
        Nat.add_assoc]
    · dsimp only
      rw [h.index, h.endOff, hlen, indexFrom_concat, Nat.mod_eq_of_lt hsize, Nat.zero_add]
    · intro r' hr'
      rcases List.mem_append.mp hr' with hr' | hr'
      · exact h.hash r' hr'
      · cases List.mem_singleton.mp hr'
        rfl
    · intro r' hr'
      rcases List.mem_append.mp hr' with hr' | hr'
      · exact h.codes r' hr'
      · cases List.mem_singleton.mp hr'
        exact hc
    · rw [List.map_append, List.nodup_append]
      refine ⟨h.nodup, List.nodup_singleton _, ?_⟩
      rintro a ha b hb rfl
      cases List.mem_singleton.mp hb
      exact hnew ha

end CodeStore.Logs

end

end FlatMpt
