import FlatMpt.Revealed
import FlatMpt.SlotNodes

/-!
# Revealed slots

The paths of slots in one account's storage trie, inline or promoted.

    slot_paths_revealed
-/

namespace FlatMpt

open Prog
open Radix (Tree)
open Radix.Tree (Canon)

section
variable [Keccak] {s : Store} {n : RamNode} {ls : List Listed} {ptrs : List DiskPtr}

/-- Walks that emit the paths of their targets. -/
theorem reveal_of_walks {ref : StorageRef} {V : Tree 16 Bytes} {recorded : List Nibble → Bool}
    (hV : CanonBelow V)
    (hwalk : ∀ slot (e : Emitter), MemoFor s ptrs e.memo → ∃ memo', MemoFor s ptrs memo' ∧
      run exec (ref.walk (keyNibbles slot) e) s.healthy =
        (.ok { (pathNodes V (fun _ => false) recorded [] (keyNibbles slot)).foldl Emitter.emit e with
          memo := memo' }, s.healthy))
    {slots : List Key} (hslots : slots ≠ []) : ∃ nodes,
      run exec (ref.reveal slots) s.healthy = (.ok (some nodes), s.healthy) ∧
        Reveals V (fun _ => false) recorded slots nodes := by
  obtain ⟨memo', -, hwalks⟩ := walkTargets_run hwalk slots (e := ⟨none, [], []⟩) memoFor_none
  have hreveals : Reveals V (fun _ => false) recorded slots _ := reveals_emitted hV slots
  refine ⟨_, ?_, hreveals⟩
  unfold StorageRef.reveal
  rw [run_bind, hwalks]
  obtain ⟨slot, hslot⟩ := List.exists_mem_of_ne_nil slots hslots
  have hroot : ∃ x l, pathNodes V (fun _ => false) recorded [] (keyNibbles slot) = x :: l ∧
      x.position = [] := pathNodes_root V (keyNibbles slot)
  obtain ⟨x, l, hx, -⟩ := hroot
  have hmem := (hreveals.mem x).mpr ⟨slot, hslot, by rw [hx]; exact List.mem_cons_self⟩
  have hne := List.isEmpty_eq_false_iff.mpr (List.ne_nil_of_mem hmem)
  refine congrArg (fun l => (Except.ok (some l), s.healthy)) ?_
  dsimp only
  rw [hne]
  rfl

/-- The walks in an account's storage. -/
theorem storageRef_reveals {key : Key} {st : Storage} {ref : StorageRef}
    (hunits : UnitsApart ptrs) (h : ref.Holds s (StorageWithin ptrs) key st)
    (hw : ∀ x, ref = .ram x → WideTree st.tree) : ∃ recorded : List Nibble → Bool,
      ((∀ x, ref ≠ .ram x) → ∀ p, recorded p = false) ∧ ∀ slots, slots ≠ [] → ∃ nodes,
        run exec (ref.reveal slots) s.healthy = (.ok (some nodes), s.healthy) ∧
          Reveals st.tree (fun _ => false) recorded slots nodes := by
  have hK := hashes_storage key
  have hvalue {v : Bytes} {out : LeafOut} (h : out = .value v) : out.rlp = v := by
    rw [h]
    rfl
  cases h with
  | node =>
    refine ⟨fun _ => false, fun _ _ => rfl, fun slots hslots => ?_⟩
    have hvalues : recordValues (storageKind key) st.tree = st.tree :=
      (nodeLeaves_toNode (surfaces_storage key).record st.tree).map_eq fun _ _ h => hvalue h
    by_cases hempty : st.tree = .empty
    · have hnode : st.toNode = .empty := by
        unfold Storage.toNode
        rw [hempty]
        rfl
      have hwalk (slot : Key) (e : Emitter) (hm : MemoFor s ptrs e.memo) : ∃ memo', MemoFor s ptrs memo' ∧
          run exec ((StorageRef.node st.toNode).walk (keyNibbles slot) e) s.healthy =
            (.ok { ([] : List RevealNode).foldl Emitter.emit e with memo := memo' }, s.healthy) := by
        rw [hnode]
        exact ⟨e.memo, hm, rfl⟩
      obtain ⟨memo', -, hwalks⟩ := walkTargets_run hwalk slots (e := ⟨none, [], []⟩) memoFor_none
      obtain ⟨slot, hslot⟩ := List.exists_mem_of_ne_nil slots hslots
      rw [List.flatMap_eq_nil_iff.mpr fun _ _ => rfl] at hwalks
      refine ⟨[.emptyRoot], ?_, fun x => ?_, List.nodup_singleton _, fun x hx => ?_⟩
      · unfold StorageRef.reveal
        rw [run_bind, hwalks]
        rfl
      · rw [hempty]
        exact ⟨fun hx => ⟨slot, hslot, hx⟩, fun ⟨_, _, hx⟩ => hx⟩
      · cases hx
        rfl
    · refine reveal_of_walks (.inl ⟨64, st.canon⟩) (fun slot e (hm : MemoFor s ptrs e.memo) =>
        ⟨e.memo, hm, ?_⟩) hslots
      have hlen : ([] : List Nibble).length ≤ (keyNibbles slot).length := Nat.zero_le _
      have hwalk : walkNode st.toNode [] (keyNibbles slot) e = .ok ((pathNodes
          (recordValues (storageKind key) st.tree) (fun _ => false) (fun _ => false) []
            (keyNibbles slot)).foldl Emitter.emit e) :=
        walkNode_eq hK st.canon (fun he => absurd he hempty) (fun _ => rfl) (fun _ _ => rfl) hlen e
      rw [hvalues] at hwalk
      rw [foldl_emit_same]
      exact congrArg (·, s.healthy) hwalk
  | @ram x p hshows hsub =>
    have hvalues : (ramLeaves (mapLeaves (fetch s) x p)).map LeafOut.rlp = st.tree :=
      (ramLeaves_alike (surfaces_storage key) _ hshows).map_eq fun _ _ h => hvalue h
    have hpromoted : promotedAt (mapLeaves (fetch s) x p) = fun _ => false := funext fun k =>
      promotedAt_storage _ hshows k
    refine ⟨recordedAt x, fun hx => absurd rfl (hx x), fun slots hslots => ?_⟩
    refine reveal_of_walks (.inl ⟨64, st.canon⟩) (fun slot e (hm : MemoFor s ptrs e.memo) => ?_) hslots
    have hwalk := walkRam_run hunits hK x hshows hsub (by rw [hvalues]; exact hw x rfl)
      (Nat.zero_le (keyNibbles slot).length) hm
    rw [hvalues, hpromoted, funext (recordedAt_fetch s x p)] at hwalk
    exact hwalk

/-- What a call reveals of an account's storage. -/
def revealedSlots (s : Store) (n : RamNode) (account : Key) (slots : List Key) :
    Except RevealErr (Option (List RevealNode)) :=
  (run exec (revealStoragePaths n account slots) s.healthy).1

/-- A slot read with its path. -/
theorem getStorageReveal_run {account slot : Key} {o : Option (List RevealNode)} {v : Option Bytes}
    (hcall : run exec (revealStoragePaths n account [slot]) s.healthy = (.ok o, s.healthy))
    (hv : getStorage s n account slot = .ok v)
    (hx : ∀ nodes, o = some nodes → extractExact nodes slot = v) :
    (run exec (getStorageReveal n account slot) s.healthy).1 = .ok (v, o) := by
  unfold getStorageReveal
  rw [run_bind, hcall]
  cases o with
  | some nodes =>
    rw [← hx nodes rfl]
    rfl
  | none =>
    show (run exec ((ramGetStorage n (keyNibbles account) 0 slot).bind _) s.healthy).1 = _
    unfold getStorage at hv
    rw [run_bind, hv]
    rfl

variable {env : Env} {σ : Sys} {ramMode direct : Bool} {faults : List Bool}

end

end FlatMpt
