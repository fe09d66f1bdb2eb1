import Zephyria.Lib.Lanes
import Zephyria.OverlayRefinement

namespace Zephyria

open Relation

variable {α ι : Type} [DecidableEq ι]

/-- Overlays on one base. `Merge` writes to the base one key after the other and takes no lock that a
reader of the base would wait for; `code` is what the computation has put into the code table of its
overlay. -/
def overlayLanes (code : α → List (Σ _ : Hash, Bytes)) : Lanes StateDB Own Bytes Bytes α where
  toBuffer := overlayBuffer
  entries own := own.dirty.entries
  nodup_entries own := own.dirty.nodupKeys
  dlookup_entries _ _ := rfl
  read := StateDB.getVerkleValue
  put := StateDB.setVerkleValue
  close s a := s.addCode (code a)
  read_put := StateDB.getVerkleValue_setVerkleValue
  read_close s a := StateDB.getVerkleValue_addCode s (code a)

def runOnBase (s : StateDB) (ps : List (StateM α)) : StateDB := ps.foldl (fun s p => (StateDB.exec p s).2) s

theorem getVerkleValue_runOnBase (s : StateDB) (ps : List (StateM α)) :
    (runOnBase s ps).getVerkleValue = Prog.denoteAll ps s.getVerkleValue := by
  induction ps generalizing s with
  | nil => rfl
  | cons p ps ih =>
    rw [runOnBase, List.foldl_cons, ← runOnBase, ih, (StateDB.exec_denote p s).2]
    rfl

theorem moves_newOverlay (code : α → List (Σ _ : Hash, Bytes)) (s : StateDB) (p : StateM α)
    {dirty : List (Σ _ : Bytes, Bytes)} (h : dirty.Perm (StateDB.exec p s.newOverlay).2.own.dirty.entries) :
    ReflTransGen (overlayLanes code).Move (s, .running Own.empty p)
      ((StateDB.exec p s.newOverlay).2.mergeIn dirty (code (StateDB.exec p s.newOverlay).1),
        .merged (StateDB.exec p s.newOverlay).1) := by
  rw [StateDB.newOverlay, exec_overlay] at h ⊢
  exact Lanes.moves_running s p Own.empty h

theorem overlays_commute (s : StateDB) (P : ι → StateM α) (code : α → List (Σ _ : Hash, Bytes))
    (hP : Prog.Independent s.getVerkleValue P) (order : List ι) (hn : order.Nodup) (hall : ∀ i, i ∈ order)
    (c : Lanes.State StateDB Own Bytes Bytes α ι)
    (hrun : ReflTransGen (overlayLanes code).Step ((overlayLanes code).start s P) c) :
    (∃ c', ReflTransGen (overlayLanes code).Step c c' ∧ Lanes.Complete c') ∧
      (Lanes.Complete c → c.shared.getVerkleValue = (runOnBase s (order.map P)).getVerkleValue ∧
        ∀ i, c.lane i = .merged (StateDB.exec (P i) s).1) := by
  refine ⟨Lanes.exists_complete hall c, fun hc => ⟨?_, fun i => ?_⟩⟩
  · rw [getVerkleValue_runOnBase]
    exact Lanes.read_of_complete hP hrun hc hn hall
  · rw [(StateDB.exec_denote (P i) s).1]
    exact Lanes.lane_of_complete hP hrun hc i

def sampleLanes : Bool → StateM Unit
  | false => do
    let val ← Prog.read [1]
    if val = [] then Prog.write [2] [7] else Prog.write [3] val
  | true => do
    let val ← Prog.read [4]
    Prog.write [5] (8 :: val)

theorem overlays_commute_two_lanes : ∃ c : Lanes.State StateDB Own Bytes Bytes Unit Bool,
    ReflTransGen (overlayLanes fun _ => []).Step ((overlayLanes fun _ => []).start (.new .empty) sampleLanes) c ∧
      Lanes.Complete c ∧ c.shared.getVerkleValue =
        (runOnBase (.new .empty) [sampleLanes true, sampleLanes false]).getVerkleValue := by
  have hP : Prog.Independent (StateDB.new .empty).getVerkleValue sampleLanes := by
    unfold Prog.Independent
    decide
  have hcommute := overlays_commute (.new .empty) sampleLanes (fun _ => []) hP [true, false] (by decide) (by decide)
  obtain ⟨⟨c, hrun, hc⟩, -⟩ := hcommute _ .refl
  exact ⟨c, hrun, hc, ((hcommute c hrun).2 hc).1⟩

end Zephyria
