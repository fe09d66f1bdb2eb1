import Zephyria.Lib.Runs
import Zephyria.Leadership

namespace Zephyria

structure Consensus where
  engine : ZeliusEngine
  state : StateDB

inductive EngineOp where
  | addValidator (a : Address) (stake : ℕ)
  | removeValidator (a : Address)
  | slash (a : Address)
  | recordNonCompliance (a : Address)
  | getLeader (view : UInt64)
  | verify (b : Block)
  | syncValidators
  | message (c : Call)

namespace Consensus

variable (K : Keccak256) (S : Sealing) (p : SystemParams)

def step (c : Consensus) : EngineOp → Option Consensus
  | .addValidator a stake => some { c with engine := c.engine.addValidator a stake }
  | .removeValidator a => some { c with engine := c.engine.removeValidator a }
  | .slash a => some { c with engine := c.engine.slash a }
  | .recordNonCompliance a => some { c with engine := c.engine.recordNonCompliance a }
  | .getLeader view => (c.engine.getLeader K view).map fun r => { c with engine := r.2 }
  | .verify b => (c.engine.verify K S b).map fun r => { c with engine := r.2 }
  | .syncValidators =>
    (StateDB.exec (Zephyria.syncValidators K c.engine) c.state).1.map fun e => { c with engine := e }
  | .message call => some { c with state := execCall K p c.state call }

def run (c : Consensus) (ops : List EngineOp) : Option Consensus := ops.foldlM (step K S p) c

end Consensus

def EngineOp.Deposits (p : SystemParams) (v : Address) : EngineOp → Prop
  | .message (.system msg _) => msg.toAddr = some p.stakingAddr ∧ 0 < msg.value ∧ msg.fromAddr = v
  | _ => False

structure Slashed (e : ZeliusEngine) (v : Address) (e' : ZeliusEngine) : Prop where
  removable : Removable e.validators v
  slashed : e' = e.slash v ∨
    1000 ≤ (e.nonCompliantValidators.lookup v).getD 0 + 1 ∧ e' = e.recordNonCompliance v

structure Out (K : Keccak256) (v : Address) (e : ZeliusEngine) : Prop where
  listed : v ∉ e.validators.map Validator.address
  leads : ∀ view leader e', e.getLeader K view = some (leader, e') → leader ≠ v

def StaysOut (K : Keccak256) (S : Sealing) (p : SystemParams) (v : Address) (c : Consensus)
    (ops : List EngineOp) : Prop :=
  ∀ pre, pre <+: ops → (∀ op ∈ pre, ¬op.Deposits p v) → ∀ c', c.run K S p pre = some c' → Out K v c'.engine

def Readmits (K : Keccak256) (v : Address) (c : Consensus) : EngineOp → Prop
  | .addValidator a _ => a = v
  | .syncValidators => (book K c.state).storage syncValidatorAddr 0 ≠ 0 ∧
      v ∈ (syncedList (book K c.state)).map Validator.address
  | _ => False

section Steps

variable {K : Keccak256} {S : Sealing} {p : SystemParams} {v : Address} {c c' : Consensus}

theorem out_iff {e : ZeliusEngine} (hf : e.Fresh K) : Out K v e ↔ v ∉ e.validators.map Validator.address := by
  refine ⟨fun h => h.listed, fun h => ⟨h, fun view leader e' hleader heq => ?_⟩⟩
  have hpick := ZeliusEngine.getLeader_fst hf view
  rw [hleader, Option.map_some, heq] at hpick
  exact h (pickLeader_mem hpick.symm)

theorem not_mem_strike {vs : List Validator} (h : v ∉ vs.map Validator.address) (a : Address) :
    v ∉ (strike vs a).map Validator.address := by
  unfold strike
  split
  · exact h
  · exact fun hmem => h ((List.eraseP_sublist.map _).subset hmem)

theorem step_engine {op : EngineOp} (hf : c.engine.Fresh K) (hstep : c.step K S p op = some c') :
    c'.engine.Fresh K ∧ (v ∉ c.engine.validators.map Validator.address →
      (v ∈ c'.engine.validators.map Validator.address ↔ Readmits K v c op)) := by
  cases op with
  | addValidator a stake =>
    obtain rfl := Option.some.inj hstep
    obtain ⟨hempty, haddresses⟩ := ZeliusEngine.addValidator_cases c.engine a stake
    refine ⟨.of_empty hempty, fun hout => ?_⟩
    dsimp only
    rw [haddresses]
    split
    next hmem => exact iff_of_false hout fun heq : a = v => hout (heq ▸ hmem)
    next =>
      rw [List.mem_append, List.mem_singleton]
      exact ⟨fun h => (h.resolve_left hout).symm, fun h : a = v => Or.inr h.symm⟩
  | removeValidator a | slash a =>
    obtain rfl := Option.some.inj hstep
    refine ⟨hf.removeValidator a, fun hout => iff_of_false ?_ id⟩
    dsimp only [ZeliusEngine.slash]
    rw [(ZeliusEngine.removeValidator_cases c.engine a).1]
    exact not_mem_strike hout a
  | recordNonCompliance a =>
    obtain rfl := Option.some.inj hstep
    obtain ⟨hvalidators, hfresh⟩ := ZeliusEngine.recordNonCompliance_eq (K := K) c.engine a
    refine ⟨hfresh hf, fun hout => iff_of_false ?_ id⟩
    dsimp only
    rw [hvalidators]
    split
    · exact not_mem_strike hout a
    · exact hout
  | getLeader view =>
    obtain ⟨⟨leader, e'⟩, hleader, rfl⟩ := Option.map_eq_some_iff.mp hstep
    obtain ⟨hsame, hfresh⟩ := hf.getLeader hleader
    exact ⟨hfresh, fun hout => iff_of_false (by rwa [← hsame] at hout) id⟩
  | verify b =>
    obtain ⟨⟨r, e'⟩, hverify, rfl⟩ := Option.map_eq_some_iff.mp hstep
    obtain ⟨hsame, hfresh⟩ := hf.verify hverify
    exact ⟨hfresh, fun hout => iff_of_false (by rwa [← hsame] at hout) id⟩
  | syncValidators =>
    obtain ⟨e', hsync, rfl⟩ := Option.map_eq_some_iff.mp hstep
    obtain ⟨hzero, rfl⟩ | ⟨hcount, hvalidators, hempty⟩ := syncValidators_cases hsync
    · exact ⟨hf, fun hout => iff_of_false hout fun h => h.1 hzero⟩
    · refine ⟨.of_empty hempty, fun _ => ?_⟩
      dsimp only
      rw [hvalidators]
      exact ⟨fun hmem => ⟨hcount, hmem⟩, fun h => h.2⟩
  | message call =>
    obtain rfl := Option.some.inj hstep
    exact ⟨hf, fun hout => iff_of_false hout id⟩

theorem run_concat (c : Consensus) (ops : List EngineOp) (op : EngineOp) :
    c.run K S p (ops ++ [op]) = (c.run K S p ops).bind fun c' => c'.step K S p op :=
  foldlM_concat c ops op

theorem fresh_run (hf : c.engine.Fresh K) {ops : List EngineOp} (hrun : c.run K S p ops = some c') :
    c'.engine.Fresh K := by
  apply foldlM_invariant (I := fun c => c.engine.Fresh K) _ hf hrun
  intro c c' op _ hc hstep
  exact (step_engine (v := 0) hc hstep).1

theorem Slashed.engine {e e' : ZeliusEngine} (h : Slashed e v e') :
    e'.leaderSchedule = ∅ ∧ e'.validators = strike e.validators v := by
  obtain ⟨hremovable, rfl | ⟨hcount, rfl⟩⟩ := h
  · obtain ⟨hstrike, hempty, -⟩ := ZeliusEngine.removeValidator_cases e v
    exact ⟨hempty hremovable, hstrike⟩
  · unfold ZeliusEngine.recordNonCompliance
    dsimp only
    rw [if_pos hcount]
    obtain ⟨hstrike, hempty, -⟩ := ZeliusEngine.removeValidator_cases { e with
      nonCompliantValidators := e.nonCompliantValidators.insert v
        ((e.nonCompliantValidators.lookup v).getD 0 + 1) } v
    exact ⟨hempty hremovable, hstrike⟩

theorem Slashed.out_iff_count {e e' : ZeliusEngine} (h : Slashed e v e') :
    v ∉ e'.validators.map Validator.address ↔ (e.validators.map Validator.address).count v = 1 := by
  rw [h.engine.2, map_address_strike h.removable.1, ← List.count_eq_zero, List.count_erase_self]
  have hpos := List.count_pos_iff.mpr h.removable.2
  omega

end Steps

/-- A slashed validator stays out exactly for as long as no sync finds it in the registry, which
slashing does not touch. A list that names it twice keeps it at once. -/
theorem slashing_persists_iff (K : Keccak256) (S : Sealing) (p : SystemParams) {v : Address} {e e' : ZeliusEngine}
    (h : Slashed e v e') (s : StateDB) (ops : List EngineOp) :
    StaysOut K S p v ⟨e', s⟩ ops ↔ (e.validators.map Validator.address).count v = 1 ∧
      ∀ pre op, pre ++ [op] <+: ops → (∀ x ∈ pre ++ [op], ¬x.Deposits p v) →
        ∀ c, Consensus.run K S p ⟨e', s⟩ pre = some c → (c.step K S p op).isSome → ¬Readmits K v c op := by
  have hfresh : e'.Fresh K := .of_empty h.engine.1
  rw [← h.out_iff_count]
  constructor
  · intro hstays
    refine ⟨(hstays [] List.nil_prefix (by simp) _ rfl).listed, fun pre op hpre hnone c hc hreturns => ?_⟩
    obtain ⟨c', hc'⟩ := Option.isSome_iff_exists.mp hreturns
    have hbefore := hstays pre ((List.prefix_append pre [op]).trans hpre)
      (fun x hx => hnone x (List.mem_append_left _ hx)) c hc
    have hafter := hstays (pre ++ [op]) hpre hnone c' (by rw [run_concat, hc]; exact hc')
    have hstep := (step_engine (fresh_run hfresh hc) hc').2 hbefore.listed
    exact fun hreadmits => hafter.listed (hstep.mpr hreadmits)
  · rintro ⟨hstart, hall⟩ pre
    induction pre using List.reverseRecOn with
    | nil =>
      intro _ _ c hc
      obtain rfl := Option.some.inj hc
      exact (out_iff hfresh).mpr hstart
    | append_singleton pre op ih =>
      intro hpre hnone c' hc'
      have hrun := hc'
      rw [run_concat] at hc'
      obtain ⟨c, hc, hstep⟩ := Option.bind_eq_some_iff.mp hc'
      have hbefore := ih ((List.prefix_append pre [op]).trans hpre)
        (fun x hx => hnone x (List.mem_append_left _ hx)) c hc
      apply (out_iff (fresh_run hfresh hrun)).mpr
      rw [(step_engine (fresh_run hfresh hc) hstep).2 hbefore.listed]
      exact hall pre op hpre hnone c hc (by rw [hstep]; rfl)

def unsigned : Sealing where
  headerHash _ := 0
  sigToPub _ _ := none
  sign _ := []

theorem slashed_stays_out :
    StaysOut .ideal unsigned systemParams 10 ⟨(newZelius [⟨10, 0⟩, ⟨11, 0⟩]).slash 10, .new .empty⟩
      [.getLeader 3, .syncValidators] := by
  apply (slashing_persists_iff .ideal unsigned systemParams (e := newZelius [⟨10, 0⟩, ⟨11, 0⟩])
    ⟨by decide, Or.inl rfl⟩ (.new .empty) _).mpr
  refine ⟨by decide, fun pre op hpre _ c hc _ hreadmits => ?_⟩
  obtain ⟨rest, hrest⟩ := hpre
  obtain _ | ⟨first, _ | ⟨second, pre⟩⟩ := pre
  · obtain ⟨rfl, -⟩ := List.cons.inj hrest
    exact hreadmits
  · obtain ⟨rfl, htail⟩ := List.cons.inj hrest
    obtain ⟨rfl, -⟩ := List.cons.inj htail
    have hstate : c.state = .new .empty := by
      rw [← List.nil_append [EngineOp.getLeader 3], run_concat] at hc
      obtain ⟨c₁, hstart, hstep⟩ := Option.bind_eq_some_iff.mp hc
      obtain ⟨r, -, rfl⟩ := Option.map_eq_some_iff.mp hstep
      obtain rfl := Option.some.inj hstart
      rfl
    rw [Readmits, hstate] at hreadmits
    exact hreadmits.1 rfl
  · have hlen := congrArg List.length hrest
    simp at hlen

theorem sync_readmits_slashed :
    Slashed (newZelius [⟨10, 0⟩, ⟨11, 0⟩]) 10 ((newZelius [⟨10, 0⟩, ⟨11, 0⟩]).slash 10) ∧
      ¬StaysOut .ideal unsigned systemParams 10 ⟨(newZelius [⟨10, 0⟩, ⟨11, 0⟩]).slash 10,
        execCalls .ideal systemParams (.new .empty) [stakingMessage 10 5 [], stakingMessage 11 5 []]⟩
        [.syncValidators] := by
  refine ⟨⟨by decide, Or.inl rfl⟩, fun hstays => ?_⟩
  have hread : (Consensus.run .ideal unsigned systemParams ⟨(newZelius [⟨10, 0⟩, ⟨11, 0⟩]).slash 10,
      execCalls .ideal systemParams (.new .empty) [stakingMessage 10 5 [], stakingMessage 11 5 []]⟩
      [.syncValidators]).map (fun c => c.engine.validators) = some [⟨10, 0⟩, ⟨11, 0⟩] := by
    decide +kernel
  obtain ⟨c, hc, hvalidators⟩ := Option.map_eq_some_iff.mp hread
  have hout := hstays [.syncValidators] List.prefix_rfl (by simp [EngineOp.Deposits]) c hc
  apply hout.listed
  rw [hvalidators]
  decide

end Zephyria
