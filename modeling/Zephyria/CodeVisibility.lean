import Zephyria.Durability

namespace Zephyria

section Visibility

variable (K : Keccak256)

def Store.codeHash (st : Store) (a : Address) : Hash := (StateDB.exec (getCodeHash K a) st.state.newOverlay).1

def CodeVisible (st : Store) : Prop :=
  ∀ a, (st.state.newOverlay.getCode K st.db a).1 = (st.state.getCode K st.db a).1 ∧
    st.state.newOverlay.getCodeSize K st.db a = st.state.getCodeSize K st.db a ∧
    (st.codeHash K a ≠ 0 → st.codeHash K a ≠ emptyCodeHash →
      keccak256Hash K (st.state.newOverlay.getCode K st.db a).1 = st.codeHash K a)

def CodesStored (st : Store) : Prop :=
  ∀ a code, st.state.own.code.lookup (st.codeHash K a) = some code → code ≠ [] →
    (st.db.code (st.codeHash K a)).isSome

theorem codeHash_eq (st : Store) (a : Address) :
    st.codeHash K a = (accounts K st.state.getVerkleValue).codeHash a :=
  (StateDB.exec_denote (getCodeHash K a) st.state.newOverlay).1

theorem getCode_parent (st : Store) (a : Address) : (st.state.getCode K st.db a).1 =
    if st.codeHash K a = emptyCodeHash then []
    else ((st.state.own.code.lookup (st.codeHash K a)).or (st.db.code (st.codeHash K a))).getD [] := by
  rw [codeHash_eq, getCode_fst]

theorem getCode_newOverlay (st : Store) (a : Address) : (st.state.newOverlay.getCode K st.db a).1 =
    if st.codeHash K a = emptyCodeHash then [] else (st.db.code (st.codeHash K a)).getD [] := by
  rw [codeHash_eq, getCode_fst]
  rfl

theorem exec_getCode_newOverlay (st : Store) (a : Address) :
    (StateDB.exec (getCode K st.db.code a) st.state.newOverlay).1 = (st.state.newOverlay.getCode K st.db a).1 := by
  rw [getCode_newOverlay]
  exact (StateDB.exec_denote (getCode K st.db.code a) st.state.newOverlay).1

variable {K} {C : Set Bytes} {st : Store}

theorem Sound.getCode_newOverlay_eq (hC : CodesApart K C) (h : Sound K C st) (hstored : CodesStored K st)
    (a : Address) : (st.state.newOverlay.getCode K st.db a).1 = (st.state.getCode K st.db a).1 := by
  have hcode := h.codeOf hC a
  rw [← codeHash_eq] at hcode
  rw [getCode_parent] at hcode ⊢
  rw [getCode_newOverlay]
  by_cases hempty : st.codeHash K a = emptyCodeHash
  · rw [if_pos hempty, if_pos hempty]
  · rw [if_neg hempty] at hcode ⊢
    rw [if_neg hempty]
    cases hdb : st.db.code (st.codeHash K a) with
    | some code =>
      rw [hdb] at hcode
      exact CodeOf.unique hC (Or.inr (h.db.keyed _ code hdb)) hcode
    | none =>
      cases hown : st.state.own.code.lookup (st.codeHash K a) with
      | none => rfl
      | some code =>
        by_contra hne
        have hsome := hstored a code hown fun hnil => hne (by rw [hnil]; rfl)
        rw [hdb] at hsome
        cases hsome

theorem code_visible_iff (hC : CodesApart K C) (h : Produced K C st) : CodeVisible K st ↔ CodesStored K st := by
  have hsound := h.sound
  constructor
  · intro hvisible a code hown hne
    obtain ⟨hmem, hhash⟩ := hsound.own.keyed _ code hown
    have hempty : st.codeHash K a ≠ emptyCodeHash := by
      intro heq
      exact hne (hC.empty code hmem (hhash.trans heq))
    obtain ⟨hsame, -, -⟩ := hvisible a
    rw [getCode_newOverlay, getCode_parent, if_neg hempty, if_neg hempty, hown] at hsame
    cases hdb : st.db.code (st.codeHash K a) with
    | some code => rfl
    | none =>
      rw [hdb] at hsame
      exact absurd hsame.symm hne
  · intro hstored a
    have hsame := hsound.getCode_newOverlay_eq hC hstored a
    refine ⟨hsame, congrArg List.length hsame, fun hzero _ => ?_⟩
    have hcode := hsound.codeOf hC a
    rw [← codeHash_eq] at hcode
    rcases hcode with ⟨h0, -⟩ | ⟨-, hhash⟩
    · exact absurd h0 hzero
    · rw [hsame, hhash]

end Visibility

section Sample

def deployed : Store := (Store.reload .empty).act .ideal (.merge [.write (.code 8 [0x60])])

theorem deployed_produced : Produced .ideal oneCode deployed := by
  apply Produced.act .empty
  simp [Act.Uses, StateCall.Uses, Write.Uses, oneCode]

theorem committed_code_visible : CodeVisible .ideal (deployed.act .ideal .commit) ∧
    ((deployed.act .ideal .commit).state.getCode .ideal (deployed.act .ideal .commit).db 8).1 = [0x60] := by
  refine ⟨(code_visible_iff oneCode_apart (deployed_produced.act (x := .commit) trivial)).mpr ?_, by decide +kernel⟩
  intro a code hown _
  obtain ⟨hhash, -⟩ := dlookup_singleton hown
  rw [hhash]
  decide +kernel

theorem merged_code_invisible : Produced .ideal oneCode deployed ∧
    (deployed.state.getCode .ideal deployed.db 8).1 = [0x60] ∧
    (deployed.state.newOverlay.getCode .ideal deployed.db 8).1 = [] ∧ ¬CodeVisible .ideal deployed := by
  have hparent : (deployed.state.getCode .ideal deployed.db 8).1 = [0x60] := by decide +kernel
  have hoverlay : (deployed.state.newOverlay.getCode .ideal deployed.db 8).1 = [] := by decide +kernel
  refine ⟨deployed_produced, hparent, hoverlay, fun hvisible => ?_⟩
  obtain ⟨hsame, -, -⟩ := hvisible 8
  rw [hparent, hoverlay] at hsame
  cases hsame

end Sample

end Zephyria
