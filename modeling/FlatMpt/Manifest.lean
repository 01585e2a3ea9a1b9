import FlatMpt.CodecRound
import FlatMpt.Ideal
import FlatMpt.Lib.Serial
import FlatMpt.System

/-!
# The manifest file

`persist` writes the configuration, the frontier and the file end in fixed-width
little-endian fields (`bincode`), followed by the hash of these bytes.  `open` takes a
file whose trailer matches, and reads any other file as a manifest without trailer.

    SavedNode, Manifest          -- the frontier as it is written, and the rest
    manifestFormat               -- the bytes of a manifest
    readManifest, openManifest
    readManifest_none_iff        -- what is rejected
-/

namespace FlatMpt

/-! ## Fields -/

/-- Unsigned integers of `n` bytes. -/
abbrev Uint (n : Nat) := Fin (256 ^ n)

/-- Little-endian. -/
def uintEquiv (n : Nat) : { bs : Bytes // bs.length = n } ≃ Uint n where
  toFun bs := ⟨leValue bs.1, by
    have h := leValue_lt bs.1
    rwa [bs.2] at h⟩
  invFun k := ⟨leBytes n k.val, leBytes_length n k.val⟩
  left_inv bs := by
    obtain ⟨bs, rfl⟩ := bs
    exact Subtype.ext (leBytes_leValue bs)
  right_inv k := Fin.ext (leValue_leBytes n k.val k.isLt)

def uintFormat (n : Nat) : Serial UInt8 (Uint n) := (Serial.fixed UInt8 n).map (uintEquiv n)

def hashFormat : Serial UInt8 Hash :=
  (Serial.fixed UInt8 32).map ⟨fun bs => ⟨bs.1, bs.2⟩, fun h => ⟨h.bytes, h.size⟩, fun _ => rfl,
    fun _ => rfl⟩

/-- A byte vector, after its length. -/
abbrev ByteVec := { bs : Bytes // bs.length < 256 ^ 8 }

def bytesFormat : Serial UInt8 ByteVec := .counted (uintFormat 8)

/-- A cached hash. -/
def cellFormat : Serial UInt8 (Option Hash) := .opt 0 1 (by decide) hashFormat

theorem uintFormat_length {n : Nat} (k : Uint n) : ((uintFormat n).write k).length = n :=
  leBytes_length n k.val

/-! ## The frontier -/

mutual

/-- A frontier node in the manifest; its paths are bytes. -/
inductive SavedNode
  | empty
  | extension (path : ByteVec) (child : SavedNode) (hash : Option Hash)
  | branch (children : Nibble → SavedSlot) (hash : Option Hash)

/-- A branch slot in the manifest.  Records kept in RAM cannot be written. -/
inductive SavedSlot
  | none
  | ram (node : SavedNode)
  | disk (unit len : Uint 4) (root : Hash)
  | account (path : ByteVec) (nonce : Uint 8) (balance codeHash : Hash) (storage : SavedNode)

end

mutual

/-- What `persist` serializes for a frontier; a record kept in RAM has no bytes. -/
def Saves : RamNode → SavedNode → Prop
  | .empty, .empty => True
  | .extension path child hash, .extension path' child' hash' =>
    path'.1 = path.map (fun n => UInt8.ofNat n.val) ∧ Saves child child' ∧ hash' = hash
  | .branch children hash, .branch children' hash' =>
    (∀ i, SavesSlot (children i) (children' i)) ∧ hash' = hash
  | _, _ => False

def SavesSlot : RamSlot → SavedSlot → Prop
  | .none, .none => True
  | .ram node, .ram node' => Saves node node'
  | .disk ptr root, .disk unit len root' => unit.val = ptr.unit ∧ len.val = ptr.len ∧ root' = root
  | .account path nonce balance codeHash storage, .account path' nonce' balance' codeHash' storage' =>
    path'.1 = path.map (fun n => UInt8.ofNat n.val) ∧ nonce'.val = nonce.toNat ∧
      balance'.bytes = be32 balance ∧ codeHash' = codeHash ∧ Saves storage storage'
  | _, _ => False

end

theorem nibbleBytes_inj : Function.Injective (List.map fun n : Nibble => UInt8.ofNat n.val) := by
  refine List.map_injective_iff.mpr fun a b h => ?_
  revert a b
  decide

theorem be32_inj : Function.Injective be32 := by
  intro a b h
  have hrev := List.reverse_injective h
  have hv := congrArg leValue hrev
  rw [leValue_leBytes _ _ a.isLt, leValue_leBytes _ _ b.isLt] at hv
  exact BitVec.eq_of_toNat_eq hv

mutual

/-- A manifest determines its frontier. -/
theorem saves_inj (n : RamNode) : ∀ {n' : RamNode} {s : SavedNode},
    Saves n s → Saves n' s → n = n' := by
  intro n' s h h'
  cases n with
  | empty =>
    cases s <;> try exact False.elim h
    cases n' <;> first | rfl | exact False.elim h'
  | extension path child hash =>
    cases s <;> try exact False.elim h
    cases n' <;> try exact False.elim h'
    obtain ⟨hp, hc, rfl⟩ := h
    obtain ⟨hp', hc', rfl⟩ := h'
    rw [nibbleBytes_inj (hp.symm.trans hp'), saves_inj child hc hc']
  | branch children hash =>
    cases s <;> try exact False.elim h
    cases n' <;> try exact False.elim h'
    obtain ⟨hc, rfl⟩ := h
    obtain ⟨hc', rfl⟩ := h'
    rw [funext fun i => savesSlot_inj (children i) (hc i) (hc' i)]

theorem savesSlot_inj (s : RamSlot) : ∀ {s' : RamSlot} {t : SavedSlot},
    SavesSlot s t → SavesSlot s' t → s = s' := by
  intro s' t h h'
  cases s with
  | none =>
    cases t <;> try exact False.elim h
    cases s' <;> first | rfl | exact False.elim h'
  | ram node =>
    cases t <;> try exact False.elim h
    cases s' <;> try exact False.elim h'
    rw [saves_inj node h h']
  | disk ptr root =>
    cases t <;> try exact False.elim h
    cases s' <;> try exact False.elim h'
    rename_i ptr' root'
    obtain ⟨hu, hl, rfl⟩ := h
    obtain ⟨hu', hl', rfl⟩ := h'
    obtain ⟨unit, len⟩ := ptr
    obtain ⟨unit', len'⟩ := ptr'
    dsimp only at hu hl hu' hl'
    rw [← hu, ← hl, hu', hl']
  | account path nonce balance codeHash storage =>
    cases t <;> try exact False.elim h
    cases s' <;> try exact False.elim h'
    obtain ⟨hp, hn, hb, rfl, hs⟩ := h
    obtain ⟨hp', hn', hb', rfl, hs'⟩ := h'
    rw [nibbleBytes_inj (hp.symm.trans hp'), UInt64.toNat_inj.mp (hn.symm.trans hn'),
      be32_inj (hb.symm.trans hb'), saves_inj storage hs hs']
  | mem bytes root => cases t <;> exact False.elim h

end

/-- The index of an enum variant. -/
def tag (n : Uint 4) : Bytes := (uintFormat 4).write n

mutual

def saveNode : SavedNode → Bytes
  | .empty => tag 0
  | .extension path child hash =>
    tag 1 ++ (bytesFormat.write path ++ (saveNode child ++ cellFormat.write hash))
  | .branch children hash =>
    tag 2 ++ (writeArray id (fun i => saveSlot (children i)) ++ cellFormat.write hash)

def saveSlot : SavedSlot → Bytes
  | .none => [0]
  | .ram node => 1 :: (tag 0 ++ saveNode node)
  | .disk unit len root =>
    1 :: (tag 1 ++ ((uintFormat 4).write unit ++ ((uintFormat 4).write len ++ hashFormat.write root)))
  | .account path nonce balance codeHash storage =>
    1 :: (tag 2 ++ (bytesFormat.write path ++ ((uintFormat 8).write nonce ++
      (hashFormat.write balance ++ (hashFormat.write codeHash ++ saveNode storage)))))

end

/-- An occupied slot, given a reader of nodes. -/
def loadChild (loadNode : Bytes → Option (SavedNode × Bytes)) (bs : Bytes) :
    Option (SavedSlot × Bytes) := do
  let (variant, bs) ← (uintFormat 4).read bs
  if variant = 0 then
    let (node, bs) ← loadNode bs
    some (.ram node, bs)
  else if variant = 1 then
    let (unit, bs) ← (uintFormat 4).read bs
    let (len, bs) ← (uintFormat 4).read bs
    let (root, bs) ← hashFormat.read bs
    some (.disk unit len root, bs)
  else if variant = 2 then
    let (path, bs) ← bytesFormat.read bs
    let (nonce, bs) ← (uintFormat 8).read bs
    let (balance, bs) ← hashFormat.read bs
    let (codeHash, bs) ← hashFormat.read bs
    let (storage, bs) ← loadNode bs
    some (.account path nonce balance codeHash storage, bs)
  else none

def loadSlot (loadNode : Bytes → Option (SavedNode × Bytes)) : Bytes → Option (SavedSlot × Bytes)
  | [] => none
  | b :: bs => if b = 0 then some (.none, bs) else if b = 1 then loadChild loadNode bs else none

/-- A node; `fuel` bounds the nesting, and each level takes at least four bytes. -/
def loadNode : (fuel : Nat) → Bytes → Option (SavedNode × Bytes)
  | 0, _ => none
  | fuel + 1, bs => do
    let (variant, bs) ← (uintFormat 4).read bs
    if variant = 0 then some (.empty, bs)
    else if variant = 1 then
      let (path, bs) ← bytesFormat.read bs
      let (child, bs) ← loadNode fuel bs
      let (hash, bs) ← cellFormat.read bs
      some (.extension path child hash, bs)
    else if variant = 2 then
      let (children, bs) ← readArray (loadSlot (loadNode fuel)) 16 bs
      let (hash, bs) ← cellFormat.read bs
      some (.branch children hash, bs)
    else none

section
variable {load : Bytes → Option (SavedNode × Bytes)} {bs rest : Bytes} {s : SavedSlot}

theorem loadChild_sound (h : ∀ {bs n rest}, load bs = some (n, rest) → bs = saveNode n ++ rest)
    (hr : loadChild load bs = some (s, rest)) : 1 :: bs = saveSlot s ++ rest := by
  obtain ⟨⟨variant, bs1⟩, hv, hr⟩ := Option.bind_eq_some_iff.mp hr
  have hbs := (uintFormat 4).write_read hv
  dsimp only at hr
  split at hr
  · rename_i hz
    obtain ⟨⟨node, bs2⟩, hn, hr⟩ := Option.bind_eq_some_iff.mp hr
    cases hr
    rw [hbs, hz, h hn]
    simp only [saveSlot, tag, List.cons_append, List.append_assoc]
  · split at hr
    · rename_i hone
      obtain ⟨⟨unit, bs2⟩, hu, hr⟩ := Option.bind_eq_some_iff.mp hr
      obtain ⟨⟨len, bs3⟩, hl, hr⟩ := Option.bind_eq_some_iff.mp hr
      obtain ⟨⟨root, bs4⟩, hroot, hr⟩ := Option.bind_eq_some_iff.mp hr
      cases hr
      dsimp only at hl hroot
      rw [hbs, hone, (uintFormat 4).write_read hu, (uintFormat 4).write_read hl,
        hashFormat.write_read hroot]
      simp only [saveSlot, tag, List.cons_append, List.append_assoc]
    · split at hr
      · rename_i htwo
        obtain ⟨⟨path, bs2⟩, hp, hr⟩ := Option.bind_eq_some_iff.mp hr
        obtain ⟨⟨nonce, bs3⟩, hnonce, hr⟩ := Option.bind_eq_some_iff.mp hr
        obtain ⟨⟨balance, bs4⟩, hb, hr⟩ := Option.bind_eq_some_iff.mp hr
        obtain ⟨⟨codeHash, bs5⟩, hc, hr⟩ := Option.bind_eq_some_iff.mp hr
        obtain ⟨⟨storage, bs6⟩, hs, hr⟩ := Option.bind_eq_some_iff.mp hr
        cases hr
        dsimp only at hnonce hb hc hs
        rw [hbs, htwo, bytesFormat.write_read hp, (uintFormat 8).write_read hnonce,
          hashFormat.write_read hb, hashFormat.write_read hc, h hs]
        simp only [saveSlot, tag, List.cons_append, List.append_assoc]
      · cases hr

theorem loadSlot_sound (h : ∀ {bs n rest}, load bs = some (n, rest) → bs = saveNode n ++ rest)
    (hr : loadSlot load bs = some (s, rest)) : bs = saveSlot s ++ rest := by
  cases bs with
  | nil => cases hr
  | cons b bs =>
    unfold loadSlot at hr
    dsimp only at hr
    split at hr
    · rename_i h0
      cases hr
      rw [h0]
      rfl
    · split at hr
      · rename_i h1
        rw [h1]
        exact loadChild_sound h hr
      · cases hr

end

/-- What is read as a node was written so. -/
theorem loadNode_sound {fuel : Nat} : ∀ {bs : Bytes} {n : SavedNode} {rest : Bytes},
    loadNode fuel bs = some (n, rest) → bs = saveNode n ++ rest := by
  induction fuel with
  | zero => exact fun h => by cases h
  | succ fuel ih =>
    intro bs n rest hr
    obtain ⟨⟨variant, bs1⟩, hv, hr⟩ := Option.bind_eq_some_iff.mp hr
    have hbs := (uintFormat 4).write_read hv
    dsimp only at hr
    split at hr
    · rename_i hz
      cases hr
      rw [hbs, hz]
      rfl
    · split at hr
      · rename_i hone
        obtain ⟨⟨path, bs2⟩, hp, hr⟩ := Option.bind_eq_some_iff.mp hr
        obtain ⟨⟨child, bs3⟩, hc, hr⟩ := Option.bind_eq_some_iff.mp hr
        obtain ⟨⟨hash, bs4⟩, hh, hr⟩ := Option.bind_eq_some_iff.mp hr
        cases hr
        dsimp only at hc hh
        rw [hbs, hone, bytesFormat.write_read hp, ih hc, cellFormat.write_read hh]
        simp only [saveNode, tag, List.append_assoc]
      · split at hr
        · rename_i htwo
          obtain ⟨⟨children, bs2⟩, hc, hr⟩ := Option.bind_eq_some_iff.mp hr
          obtain ⟨⟨hash, bs3⟩, hh, hr⟩ := Option.bind_eq_some_iff.mp hr
          cases hr
          dsimp only at hh
          rw [hbs, htwo, readArray_sound (fun h => loadSlot_sound ih h) hc, cellFormat.write_read hh]
          simp only [saveNode, tag, List.append_assoc]
          rfl
        · cases hr

theorem loadSlot_complete {load : Bytes → Option (SavedNode × Bytes)} {k : Nat}
    (h : ∀ n rest, (saveNode n).length ≤ k → load (saveNode n ++ rest) = some (n, rest))
    (s : SavedSlot) (rest : Bytes) (hs : (saveSlot s).length ≤ k) :
    loadSlot load (saveSlot s ++ rest) = some (s, rest) := by
  cases s with
  | none => rfl
  | ram node =>
    have hlen : (saveNode node).length ≤ k := by
      simp only [saveSlot, List.length_cons, List.length_append] at hs
      omega
    simp only [saveSlot, tag, List.cons_append, List.append_assoc]
    show loadChild load _ = _
    simp only [loadChild, (uintFormat 4).read_write, Option.bind_eq_bind, Option.bind_some,
      h node rest hlen]
    rfl
  | disk unit len root =>
    simp only [saveSlot, tag, List.cons_append, List.append_assoc]
    show loadChild load _ = _
    simp only [loadChild, (uintFormat 4).read_write, hashFormat.read_write, Option.bind_eq_bind,
      Option.bind_some]
    rfl
  | account path nonce balance codeHash storage =>
    have hlen : (saveNode storage).length ≤ k := by
      simp only [saveSlot, List.length_cons, List.length_append] at hs
      omega
    simp only [saveSlot, tag, List.cons_append, List.append_assoc]
    show loadChild load _ = _
    simp only [loadChild, (uintFormat 4).read_write, (uintFormat 8).read_write,
      bytesFormat.read_write, hashFormat.read_write, Option.bind_eq_bind, Option.bind_some,
      h storage rest hlen]
    rfl

/-- A written node is read back. -/
theorem loadNode_complete {fuel : Nat} : ∀ (n : SavedNode) (rest : Bytes),
    (saveNode n).length ≤ fuel → loadNode fuel (saveNode n ++ rest) = some (n, rest) := by
  have htag : ∀ t, (tag t).length = 4 := fun t => uintFormat_length t
  induction fuel with
  | zero =>
    intro n rest h
    cases n <;> simp only [saveNode, List.length_append, htag] at h <;> omega
  | succ fuel ih =>
    intro n rest h
    cases n with
    | empty =>
      simp only [saveNode, tag, loadNode, (uintFormat 4).read_write, Option.bind_eq_bind,
        Option.bind_some]
      rfl
    | extension path child hash =>
      have hlen : (saveNode child).length ≤ fuel := by
        simp only [saveNode, List.length_append, htag] at h
        omega
      simp only [saveNode, tag, loadNode, List.append_assoc, (uintFormat 4).read_write,
        bytesFormat.read_write, cellFormat.read_write, Option.bind_eq_bind, Option.bind_some,
        ih child _ hlen]
      rfl
    | branch children hash =>
      have hlen : ∀ i, (saveSlot (children i)).length ≤ fuel := by
        intro i
        have hi := length_le_writeArray saveSlot children i
        simp only [saveNode, List.length_append, htag] at h
        have he : writeArray id (fun i => saveSlot (children i)) = writeArray saveSlot children := rfl
        rw [he] at h
        omega
      have hc : readArray (loadSlot (loadNode fuel)) 16
          (writeArray saveSlot children ++ (cellFormat.write hash ++ rest)) =
            some (children, cellFormat.write hash ++ rest) :=
        readArray_complete children _ fun i rest => loadSlot_complete ih _ _ (hlen i)
      have hw : writeArray id (fun i => saveSlot (children i)) = writeArray saveSlot children := rfl
      simp only [saveNode, tag, loadNode, List.append_assoc, (uintFormat 4).read_write, hw, hc,
        cellFormat.read_write, Option.bind_eq_bind, Option.bind_some]
      rfl

/-! ## The file -/

structure Manifest where
  targetLeafBytes : Uint 8
  maxLeafBytes : Uint 8
  minPromoteBytes : Uint 8
  upper : SavedNode
  endPage : Uint 8

def Manifest.serialize (m : Manifest) : Bytes :=
  (uintFormat 8).write m.targetLeafBytes ++ ((uintFormat 8).write m.maxLeafBytes ++
    ((uintFormat 8).write m.minPromoteBytes ++ (saveNode m.upper ++ (uintFormat 8).write m.endPage)))

/-- What follows the last field is ignored. -/
def deserializeManifest (bs : Bytes) : Option Manifest := do
  let (targetLeafBytes, bs1) ← (uintFormat 8).read bs
  let (maxLeafBytes, bs2) ← (uintFormat 8).read bs1
  let (minPromoteBytes, bs3) ← (uintFormat 8).read bs2
  let (upper, bs4) ← loadNode bs3.length bs3
  let (endPage, _) ← (uintFormat 8).read bs4
  some ⟨targetLeafBytes, maxLeafBytes, minPromoteBytes, upper, endPage⟩

theorem deserializeManifest_sound {bs : Bytes} {m : Manifest} (h : deserializeManifest bs = some m) :
    ∃ rest, bs = m.serialize ++ rest := by
  obtain ⟨⟨t, bs1⟩, h1, h⟩ := Option.bind_eq_some_iff.mp h
  obtain ⟨⟨x, bs2⟩, h2, h⟩ := Option.bind_eq_some_iff.mp h
  obtain ⟨⟨p, bs3⟩, h3, h⟩ := Option.bind_eq_some_iff.mp h
  obtain ⟨⟨u, bs4⟩, h4, h⟩ := Option.bind_eq_some_iff.mp h
  obtain ⟨⟨e, rest⟩, h5, h⟩ := Option.bind_eq_some_iff.mp h
  cases h
  refine ⟨rest, ?_⟩
  rw [(uintFormat 8).write_read h1, (uintFormat 8).write_read h2, (uintFormat 8).write_read h3,
    loadNode_sound h4, (uintFormat 8).write_read h5]
  simp only [Manifest.serialize, List.append_assoc]

theorem deserializeManifest_serialize (m : Manifest) (rest : Bytes) :
    deserializeManifest (m.serialize ++ rest) = some m := by
  have hup : ∀ bs, loadNode (saveNode m.upper ++ bs).length (saveNode m.upper ++ bs) =
      some (m.upper, bs) := by
    intro bs
    apply loadNode_complete
    rw [List.length_append]
    exact Nat.le_add_right _ _
  simp only [Manifest.serialize, deserializeManifest, List.append_assoc, (uintFormat 8).read_write,
    hup, Option.bind_eq_bind, Option.bind_some]

/-- The bytes decode exactly when they start with a manifest. -/
theorem deserializeManifest_none_iff {bs : Bytes} :
    deserializeManifest bs = none ↔ ∀ (m : Manifest), ¬ m.serialize <+: bs := by
  constructor
  · rintro h m ⟨rest, rfl⟩
    rw [deserializeManifest_serialize] at h
    cases h
  · intro h
    cases hd : deserializeManifest bs with
    | none => rfl
    | some m =>
      obtain ⟨rest, hrest⟩ := deserializeManifest_sound hd
      exact absurd ⟨rest, hrest.symm⟩ (h m)

/-- No manifest is a proper prefix of another one. -/
theorem Manifest.eq_of_prefix {m m' : Manifest} {rest : Bytes}
    (h : m.serialize <+: m'.serialize ++ rest) : m = m' := by
  obtain ⟨r, hr⟩ := h
  have h1 := deserializeManifest_serialize m r
  rw [hr, deserializeManifest_serialize] at h1
  exact (Option.some.inj h1).symm

section
variable [Keccak]

/-- What `persist` writes. -/
def Manifest.file (m : Manifest) : Bytes :=
  m.serialize ++ (keccak256 m.serialize).bytes

/-- `bytes` are a body and its hash. -/
def Checksummed (bytes : Bytes) : Prop :=
  ∃ body : Bytes, bytes = body ++ (keccak256 body).bytes

def readManifest (bytes : Bytes) : Option Manifest :=
  if 32 < bytes.length ∧
      (keccak256 (bytes.take (bytes.length - 32))).bytes = bytes.drop (bytes.length - 32) then
    deserializeManifest (bytes.take (bytes.length - 32))
  else
    -- The format without trailer.
    deserializeManifest bytes

/-- The current manifest, or the previous one when it is rejected. -/
def openManifest (current prev : Bytes) : Option Manifest :=
  (readManifest current).orElse fun _ => readManifest prev

/-- The manifest that `persist` builds for a checkpoint. -/
structure Persisted (cfg : Config) (cp : Checkpoint) (m : Manifest) : Prop where
  target : m.targetLeafBytes.val = cfg.targetLeafBytes
  max : m.maxLeafBytes.val = cfg.maxLeafBytes
  min : m.minPromoteBytes.val = cfg.minPromoteBytes
  upper : Saves cp.upper m.upper
  endPage : m.endPage.val = cp.endPage

theorem not_checksummed {bytes : Bytes} (h : ¬ Checksummed bytes) :
    readManifest bytes = deserializeManifest bytes := by
  unfold readManifest
  rw [if_neg]
  rintro ⟨-, hsum⟩
  refine h ⟨bytes.take (bytes.length - 32), ?_⟩
  rw [hsum, List.take_append_drop]

/-- A written manifest is read back. -/
theorem readManifest_file (m : Manifest) : readManifest m.file = some m := by
  have hsize : (keccak256 m.serialize).bytes.length = 32 := (keccak256 m.serialize).size
  have hlen : m.file.length - 32 = m.serialize.length := by
    rw [Manifest.file, List.length_append, hsize, Nat.add_sub_cancel]
  have hbody : 0 < m.serialize.length := by
    have h := uintFormat_length m.targetLeafBytes
    rw [Manifest.serialize, List.length_append, h]
    omega
  have htake : m.file.take m.serialize.length = m.serialize := List.take_left' rfl
  have hdrop : m.file.drop m.serialize.length = (keccak256 m.serialize).bytes := List.drop_left' rfl
  unfold readManifest
  rw [hlen, htake, hdrop, if_pos ⟨by rw [Manifest.file, List.length_append, hsize]; omega, rfl⟩]
  have h := deserializeManifest_serialize m []
  rwa [List.append_nil] at h

/-- `open` after `persist` restores the checkpoint, and no other one. -/
theorem reopened {cfg : Config} {cp : Checkpoint} {m : Manifest} (h : Persisted cfg cp m) :
    readManifest m.file = some m ∧
      ∀ cfg' cp', Persisted cfg' cp' m → cfg' = cfg ∧ cp' = cp := by
  refine ⟨readManifest_file m, fun cfg' cp' h' => ?_⟩
  obtain ⟨upper, endPage⟩ := cp
  obtain ⟨upper', endPage'⟩ := cp'
  obtain ⟨target, max, min⟩ := cfg
  obtain ⟨target', max', min'⟩ := cfg'
  have hu : upper' = upper := saves_inj upper' h'.upper h.upper
  have he : endPage' = endPage := h'.endPage.symm.trans h.endPage
  have ht : target' = target := h'.target.symm.trans h.target
  have hx : max' = max := h'.max.symm.trans h.max
  have hn : min' = min := h'.min.symm.trans h.min
  subst hu he ht hx hn
  exact ⟨rfl, rfl⟩

/-- A file cut inside its body is rejected. -/
theorem readManifest_torn {m : Manifest} {bytes : Bytes} (htorn : bytes <+: m.file)
    (hbody : ¬ m.serialize <+: bytes) (hsum : ¬ Checksummed bytes) : readManifest bytes = none := by
  rw [not_checksummed hsum, deserializeManifest_none_iff]
  intro m' hm'
  have hpre : m'.serialize <+: m.file := hm'.trans htorn
  have heq : m' = m := Manifest.eq_of_prefix hpre
  exact hbody (heq ▸ hm')

/-- An altered manifest is rejected, and the previous one used, unless it starts with the
bytes of another manifest. -/
theorem altered_rejected_iff (m : Manifest) :
    readManifest m.file = some m ∧ ∀ bytes prev : Bytes, ¬ Checksummed bytes →
      ((readManifest bytes = none ∧ openManifest bytes prev = readManifest prev) ↔
        ∀ m' : Manifest, ¬ m'.serialize <+: bytes) := by
  refine ⟨readManifest_file m, fun bytes prev hsum => ?_⟩
  rw [openManifest, not_checksummed hsum, deserializeManifest_none_iff]
  refine ⟨fun h => h.1, fun h => ⟨h, ?_⟩⟩
  rw [deserializeManifest_none_iff.mpr h]
  rfl

/-- A manifest of the same length is accepted in place of the body. -/
theorem readManifest_exchanged {m m' : Manifest}
    (hsum : keccak256 m.serialize ≠ keccak256 m'.serialize) :
    ¬ Checksummed (m'.serialize ++ (keccak256 m.serialize).bytes) ∧
      readManifest (m'.serialize ++ (keccak256 m.serialize).bytes) = some m' := by
  have hnot : ¬ Checksummed (m'.serialize ++ (keccak256 m.serialize).bytes) := by
    rintro ⟨body, hbody⟩
    have hlen : (keccak256 m.serialize).bytes.length = (keccak256 body).bytes.length := by
      rw [(keccak256 m.serialize).size, (keccak256 body).size]
    obtain ⟨hm, hk⟩ := List.append_inj' hbody hlen
    rw [← hm] at hk
    exact hsum (Bytes32.ext hk)
  refine ⟨hnot, ?_⟩
  rw [not_checksummed hnot, deserializeManifest_serialize]

end

/-- One record, at the given unit. -/
def oneRecordManifest (unit : Uint 4) : Manifest where
  targetLeafBytes := 8192
  maxLeafBytes := 16384
  minPromoteBytes := 8192
  upper := .branch (fun i => if i = 0 then .disk unit 1 (.fill 0) else .none) none
  endPage := 32

/-- The first twenty bytes of a file. -/
theorem torn_manifest_rejected :
    let _ : Keccak := ⟨fun _ => .fill 0⟩
    readManifest ((oneRecordManifest 0).file.take 20) = none ∧
      openManifest ((oneRecordManifest 0).file.take 20) (oneRecordManifest 1).file =
        readManifest (oneRecordManifest 1).file := by
  intro k
  have hlen : ((oneRecordManifest 0).file.take 20).length ≤ 20 := List.length_take_le _ _
  refine ((altered_rejected_iff (oneRecordManifest 0)).2 _ _ ?_).mpr fun m' hp => ?_
  · rintro ⟨body, hb⟩
    rw [hb, List.length_append, (keccak256 body).size] at hlen
    omega
  · have hle := hp.length_le
    rw [Manifest.serialize, List.length_append, List.length_append, List.length_append,
      uintFormat_length, uintFormat_length, uintFormat_length] at hle
    omega

/-- A small file whose only record is read at another unit than it was written. -/
theorem altered_pointer_accepted :
    ∃ (_ : Keccak) (m : Manifest) (bytes : Bytes) (m' : Manifest),
      bytes.length ≤ m.file.length ∧ bytes ≠ m.file ∧ ¬ Checksummed bytes ∧
        ¬ m.serialize <+: bytes ∧ readManifest bytes = some m' ∧ m'.upper ≠ m.upper := by
  let m := oneRecordManifest 0
  let m' := oneRecordManifest 1
  let k : Keccak := ⟨fun bs => if bs = m.serialize then .fill 0 else .fill 1⟩
  have hup : m'.upper ≠ m.upper := by
    intro he
    have hs := congrFun (SavedNode.branch.inj he).1 0
    cases hs
  have hne : m'.serialize ≠ m.serialize := by
    intro he
    have hp : m.serialize <+: m'.serialize ++ [] := by
      rw [he]
      exact List.prefix_append _ _
    exact hup (congrArg Manifest.upper (Manifest.eq_of_prefix hp).symm)
  have hlen : m'.serialize.length = m.serialize.length := by decide +kernel
  have hsum : keccak256 m.serialize ≠ keccak256 m'.serialize := by
    show (if _ then _ else _) ≠ (if _ then _ else _)
    rw [if_pos rfl, if_neg hne]
    decide
  obtain ⟨hnot, hread⟩ := readManifest_exchanged hsum
  refine ⟨k, m, m'.serialize ++ (keccak256 m.serialize).bytes, m', ?_, ?_, hnot, ?_, hread, hup⟩
  · rw [Manifest.file, List.length_append, List.length_append, hlen]
  · exact fun he => hne (List.append_inj' he rfl).1
  · exact fun hp => hup (congrArg Manifest.upper (Manifest.eq_of_prefix hp).symm)

end FlatMpt
