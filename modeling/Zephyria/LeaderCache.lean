import Zephyria.Leadership

namespace Zephyria

/-- `v.Stake.Add` changes the number in place, and so does it for any other validator that points to
the same number. -/
def Raised (a : Address) (stake : ℕ) (vs vs' : List Validator) : Prop :=
  List.Forall₂ (fun v v' => v'.address = v.address ∧
    (v'.stake = v.stake + stake ∨ v.address ≠ a ∧ v'.stake = v.stake)) vs vs'

inductive LeaderCall where
  | addValidator (a : Address) (stake : ℕ)
  | removeValidator (a : Address)
  | slash (a : Address)
  | recordNonCompliance (a : Address)
  | getLeader (view : UInt64)
  | syncValidators (s : StateDB)

namespace ZeliusEngine

inductive Step (K : Keccak256) : ZeliusEngine → LeaderCall → ZeliusEngine → Prop
  | addValidator (e : ZeliusEngine) (a : Address) (stake : ℕ) :
      Step K e (.addValidator a stake) (e.addValidator a stake)
  | raise (e : ZeliusEngine) {a : Address} {stake : ℕ} {vs : List Validator}
      (listed : a ∈ e.validators.map Validator.address) (raised : Raised a stake e.validators vs) :
      Step K e (.addValidator a stake) (recalculateSchedule { e with validators := vs })
  | removeValidator (e : ZeliusEngine) (a : Address) : Step K e (.removeValidator a) (e.removeValidator a)
  | slash (e : ZeliusEngine) (a : Address) : Step K e (.slash a) (e.slash a)
  | recordNonCompliance (e : ZeliusEngine) (a : Address) :
      Step K e (.recordNonCompliance a) (e.recordNonCompliance a)
  | getLeader {e e' : ZeliusEngine} {view : UInt64} {leader : Address}
      (returned : e.getLeader K view = some (leader, e')) : Step K e (.getLeader view) e'
  | syncValidators {e e' : ZeliusEngine} {s : StateDB}
      (returned : (StateDB.exec (Zephyria.syncValidators K e) s).1 = some e') : Step K e (.syncValidators s) e'

inductive Run (K : Keccak256) (e : ZeliusEngine) : List LeaderCall → ZeliusEngine → Prop
  | nil : Run K e [] e
  | concat {calls : List LeaderCall} {call : LeaderCall} {e₁ e₂ : ZeliusEngine} (init : Run K e calls e₁)
      (last : Step K e₁ call e₂) : Run K e (calls ++ [call]) e₂

structure LeadersCoherent (K : Keccak256) (e : ZeliusEngine) : Prop where
  nonempty : e.validators ≠ []
  distinct : (e.validators.map Validator.address).Nodup
  faults : e.f = (e.validators.length - 1) / 3
  leads : ∀ view, ∃ leader e₁ e₂, e.getLeader K view = some (leader, e₁) ∧
    e.recalculateSchedule.getLeader K view = some (leader, e₂) ∧ leader ∈ e.validators.map Validator.address

structure Sound (K : Keccak256) (e : ZeliusEngine) : Prop where
  nonempty : e.validators ≠ []
  distinct : (e.validators.map Validator.address).Nodup
  faults : e.f = (e.validators.length - 1) / 3
  fresh : e.Fresh K

def SyncState (K : Keccak256) (s : StateDB) : Prop :=
  (∃ S, RegistryInvariant systemParams S (book K s)) ∧ ((book K s).slot systemParams 0).toNat < 2 ^ 64

end ZeliusEngine

open ZeliusEngine

section Lists

variable {K : Keccak256} {vs vs' : List Validator} {a : Address}

theorem leaderFor_ne_none (h : vs ≠ []) (target : ℕ) : leaderFor vs target ≠ none := by
  unfold leaderFor
  split
  · simp
  · simpa using h

theorem pickLeader_of_ne_nil (h : vs ≠ []) (view : UInt64) : ∃ leader, pickLeader K vs view = some leader := by
  apply Option.ne_none_iff_exists'.mp
  unfold pickLeader
  split
  · have hlt := Nat.mod_lt view.toNat (List.length_pos_of_ne_nil h)
    simp [List.getElem?_eq_getElem hlt]
  · exact leaderFor_ne_none h _

theorem strike_ne_nil (h : vs ≠ []) (a : Address) : strike vs a ≠ [] := by
  unfold strike
  split
  · exact h
  next hlen =>
    have hle := List.le_length_eraseP (l := vs) (p := fun v => decide (v.address = a))
    apply List.ne_nil_of_length_pos
    omega

theorem nodup_strike (h : (vs.map Validator.address).Nodup) (a : Address) :
    ((strike vs a).map Validator.address).Nodup := by
  unfold strike
  split
  · exact h
  · exact h.sublist (List.eraseP_sublist.map _)

theorem length_strike (h : Removable vs a) : (strike vs a).length = vs.length - 1 := by
  have hlen := congrArg List.length (map_address_strike (a := a) h.1)
  rwa [List.length_map, List.length_erase_of_mem h.2, List.length_map] at hlen

theorem Raised.addresses {stake : ℕ} (h : Raised a stake vs vs') :
    vs'.map Validator.address = vs.map Validator.address := by
  induction h with
  | nil => rfl
  | cons hv _ ih => rw [List.map_cons, List.map_cons, hv.1, ih]

end Lists

namespace ZeliusEngine

variable {K : Keccak256} {e e' : ZeliusEngine}

theorem Sound.leadersCoherent (h : e.Sound K) : LeadersCoherent K e where
  nonempty := h.nonempty
  distinct := h.distinct
  faults := h.faults
  leads view := by
    obtain ⟨leader, hpick⟩ := pickLeader_of_ne_nil (K := K) h.nonempty view
    have hcached := (getLeader_fst h.fresh view).trans hpick
    have hempty : (e.recalculateSchedule.getLeader K view).map Prod.fst = some leader :=
      (getLeader_fst (.of_empty rfl) view).trans hpick
    obtain ⟨⟨_, e₁⟩, he₁, rfl⟩ := Option.map_eq_some_iff.mp hcached
    obtain ⟨⟨_, e₂⟩, he₂, rfl⟩ := Option.map_eq_some_iff.mp hempty
    exact ⟨_, e₁, e₂, he₁, he₂, pickLeader_mem hpick⟩

theorem sound_of_addresses {l : List Address} (haddresses : e.validators.map Validator.address = l) (hne : l ≠ [])
    (hdistinct : l.Nodup) (hf : e.f = (e.validators.length - 1) / 3) (hempty : e.leaderSchedule = ∅) :
    e.Sound K := by
  subst haddresses
  refine ⟨?_, hdistinct, hf, .of_empty hempty⟩
  rintro hnil
  exact hne (by rw [hnil, List.map_nil])

theorem sound_newZelius {vs : List Validator} (hne : vs ≠ []) (hdistinct : (vs.map Validator.address).Nodup) :
    (newZelius vs).Sound K :=
  sound_of_addresses rfl (by simpa [newZelius] using hne) hdistinct rfl rfl

theorem removeValidator_f (h : e.f = (e.validators.length - 1) / 3) (a : Address) :
    (e.removeValidator a).f = ((e.removeValidator a).validators.length - 1) / 3 := by
  obtain ⟨hstrike, -, hkept⟩ := removeValidator_cases e a
  by_cases hr : Removable e.validators a
  · rw [hstrike, length_strike hr]
    unfold removeValidator
    split
    next hlen => exact absurd hr.1 (by omega)
    next =>
      split
      · rfl
      next hi =>
        obtain ⟨v, hv, hva⟩ := List.mem_map.mp hr.2
        exact absurd hva (by simpa using List.findIdx?_eq_none_iff.mp hi v hv)
  · rw [hkept hr]
    exact h

theorem Sound.removeValidator (h : e.Sound K) (a : Address) : (e.removeValidator a).Sound K where
  nonempty := by
    rw [(removeValidator_cases e a).1]
    exact strike_ne_nil h.nonempty a
  distinct := by
    rw [(removeValidator_cases e a).1]
    exact nodup_strike h.distinct a
  faults := removeValidator_f h.faults a
  fresh := h.fresh.removeValidator a

theorem Sound.recordNonCompliance (h : e.Sound K) (a : Address) : (e.recordNonCompliance a).Sound K := by
  unfold ZeliusEngine.recordNonCompliance
  dsimp only
  split
  · apply Sound.removeValidator
    exact ⟨h.nonempty, h.distinct, h.faults, h.fresh⟩
  · exact ⟨h.nonempty, h.distinct, h.faults, h.fresh⟩

theorem addValidator_f (h : e.f = (e.validators.length - 1) / 3) (a : Address) (stake : ℕ) :
    (e.addValidator a stake).f = ((e.addValidator a stake).validators.length - 1) / 3 := by
  unfold addValidator
  split
  · simpa [recalculateSchedule] using h
  · simp [recalculateSchedule]

theorem Sound.addValidator (h : e.Sound K) (a : Address) (stake : ℕ) : (e.addValidator a stake).Sound K := by
  obtain ⟨hempty, haddresses⟩ := addValidator_cases e a stake
  have hf := addValidator_f h.faults a stake
  by_cases ha : a ∈ e.validators.map Validator.address
  · rw [if_pos ha] at haddresses
    apply sound_of_addresses haddresses _ h.distinct hf hempty
    simpa using h.nonempty
  · rw [if_neg ha] at haddresses
    apply sound_of_addresses haddresses _ _ hf hempty
    · simp
    · rw [← List.concat_eq_append]
      exact h.distinct.concat ha

theorem Sound.raise (h : e.Sound K) {a : Address} {stake : ℕ} {vs : List Validator}
    (hraised : Raised a stake e.validators vs) :
    (recalculateSchedule { e with validators := vs }).Sound K := by
  apply sound_of_addresses hraised.addresses _ h.distinct _ rfl
  · simpa using h.nonempty
  · rw [show (recalculateSchedule { e with validators := vs }).validators = vs from rfl,
      ← List.Forall₂.length_eq hraised]
    exact h.faults

theorem syncValidators_f {s : StateDB} (hcount : (book K s).storage syncValidatorAddr 0 ≠ 0)
    (h : (StateDB.exec (syncValidators K e) s).1 = some e') : e'.f = (e'.validators.length - 1) / 3 := by
  rw [exec_syncValidators] at h
  dsimp only at h
  rw [if_neg hcount] at h
  split at h
  · cases h
  · obtain rfl := Option.some.inj h
    rfl

theorem syncedList_eq {s : StateDB} (h : SyncState K s) :
    (syncedList (book K s)).map Validator.address =
      (List.range' 1 ((book K s).slot systemParams 0).toNat).map fun i =>
        bytesToAddress (hashBytes ((book K s).slot systemParams (bigToHash i))) := by
  have hmod : ((book K s).storage syncValidatorAddr 0).toNat % 2 ^ 64 =
      ((book K s).slot systemParams 0).toNat := Nat.mod_eq_of_lt h.2
  rw [syncedList, List.map_map, hmod]
  rfl

theorem nodup_syncedList {s : StateDB} (h : SyncState K s) :
    ((syncedList (book K s)).map Validator.address).Nodup := by
  obtain ⟨S, hinv⟩ := h.1
  rw [syncedList_eq h]
  apply List.Nodup.map_on _ List.nodup_range'
  intro i hi j hj heq
  rw [List.mem_range'_1] at hi hj
  obtain ⟨a, -, ha, -⟩ := hinv.slots i hi.1 (by omega)
  obtain ⟨b, -, hb, -⟩ := hinv.slots j hj.1 (by omega)
  apply hinv.distinct i j hi.1 (by omega) hj.1 (by omega)
  rw [ha, hb, bytesToAddress_addressKey, bytesToAddress_addressKey] at heq
  rw [ha, hb, heq]

theorem Sound.syncValidators (h : e.Sound K) {s : StateDB} (hs : SyncState K s)
    (hreturn : (StateDB.exec (Zephyria.syncValidators K e) s).1 = some e') : e'.Sound K := by
  obtain ⟨-, rfl⟩ | ⟨hcount, hvalidators, hempty⟩ := syncValidators_cases hreturn
  · exact h
  · apply sound_of_addresses rfl _ _ (syncValidators_f hcount hreturn) hempty
    · rw [hvalidators, syncedList_eq hs]
      have hpos : ((book K s).slot systemParams 0).toNat ≠ 0 := fun hz => hcount (BitVec.eq_of_toNat_eq hz)
      simpa using hpos
    · rw [hvalidators]
      exact nodup_syncedList hs

theorem Sound.getLeader (h : e.Sound K) {view : UInt64} {leader : Address}
    (hleader : e.getLeader K view = some (leader, e')) : e'.Sound K := by
  obtain ⟨hsame, hfresh⟩ := h.fresh.getLeader hleader
  refine ⟨hsame ▸ h.nonempty, hsame ▸ h.distinct, ?_, hfresh⟩
  obtain rfl | ⟨-, rfl⟩ := getLeader_engine hleader
  · exact h.faults
  · exact h.faults

theorem Sound.step (h : e.Sound K) {call : LeaderCall} (hsync : ∀ s, call = .syncValidators s → SyncState K s)
    (hstep : Step K e call e') : e'.Sound K := by
  cases hstep with
  | addValidator a stake => exact h.addValidator a stake
  | raise _ hraised => exact h.raise hraised
  | removeValidator a => exact h.removeValidator a
  | slash a => exact h.removeValidator a
  | recordNonCompliance a => exact h.recordNonCompliance a
  | getLeader hleader => exact h.getLeader hleader
  | syncValidators hreturn => exact h.syncValidators (hsync _ rfl) hreturn

theorem Sound.run (h : e.Sound K) {calls : List LeaderCall}
    (hsync : ∀ s, LeaderCall.syncValidators s ∈ calls → SyncState K s) (hrun : Run K e calls e') :
    e'.Sound K := by
  induction hrun with
  | nil => exact h
  | concat _ hlast ih =>
    apply Sound.step _ _ hlast
    · exact ih fun s hs => hsync s (List.mem_append_left _ hs)
    · rintro s rfl
      exact hsync s (by simp)

/-- The loop of a sync counts in `uint64` and cannot pass the largest number. -/
def Endless (K : Keccak256) : LeaderCall → Prop
  | .syncValidators s => ((book K s).slot systemParams 0).toNat = 2 ^ 64 - 1
  | _ => False

theorem syncValidators_returns {s : StateDB} (hs : SyncState K s) (h : ¬Endless K (.syncValidators s))
    (e : ZeliusEngine) : ∃ e', (StateDB.exec (syncValidators K e) s).1 = some e' := by
  have hmod : ((book K s).storage syncValidatorAddr 0).toNat % 2 ^ 64 ≠ 2 ^ 64 - 1 := by
    rwa [Nat.mod_eq_of_lt (show ((book K s).storage syncValidatorAddr 0).toNat < 2 ^ 64 from hs.2)]
  rw [exec_syncValidators]
  dsimp only
  rw [if_neg hmod]
  split
  · exact ⟨e, rfl⟩
  · exact ⟨_, rfl⟩

theorem Sound.step_returns (h : e.Sound K) {call : LeaderCall}
    (hsync : ∀ s, call = .syncValidators s → SyncState K s) (hend : ¬Endless K call) : ∃ e', Step K e call e' := by
  cases call with
  | addValidator a stake => exact ⟨_, .addValidator e a stake⟩
  | removeValidator a => exact ⟨_, .removeValidator e a⟩
  | slash a => exact ⟨_, .slash e a⟩
  | recordNonCompliance a => exact ⟨_, .recordNonCompliance e a⟩
  | getLeader view =>
    obtain ⟨leader, e', -, he', -⟩ := h.leadersCoherent.leads view
    exact ⟨e', .getLeader he'⟩
  | syncValidators s =>
    obtain ⟨e', he'⟩ := syncValidators_returns (hsync s rfl) hend e
    exact ⟨e', .syncValidators he'⟩

theorem Sound.run_returns (h : e.Sound K) {calls : List LeaderCall}
    (hsync : ∀ s, LeaderCall.syncValidators s ∈ calls → SyncState K s) (hend : ∀ call ∈ calls, ¬Endless K call) :
    ∃ e', Run K e calls e' := by
  induction calls using List.reverseRecOn with
  | nil => exact ⟨e, .nil⟩
  | append_singleton calls call ih =>
    have hinit (s : StateDB) (hs : LeaderCall.syncValidators s ∈ calls) : SyncState K s :=
      hsync s (List.mem_append_left _ hs)
    obtain ⟨e₁, hrun⟩ := ih hinit fun c hc => hend c (List.mem_append_left _ hc)
    have hlast (s : StateDB) (hs : call = .syncValidators s) : SyncState K s := hsync s (by simp [hs])
    obtain ⟨e₂, hstep⟩ := (h.run hinit hrun).step_returns hlast (hend call (by simp))
    exact ⟨e₂, .concat hrun hstep⟩

theorem syncState_of_registered {N : ℕ} {s : StateDB} {l : List Address} (h : Registered systemParams N (book K s) l)
    (hlen : l.length < 2 ^ 64) : SyncState K s := by
  have hlt : l.length < 2 ^ 256 := by omega
  refine ⟨⟨{a | a ∈ l}, h.registryInvariant hlt (fun _ ha => ha) h.spread.high⟩, ?_⟩
  rwa [Accounts.slot, h.layout.count, toNat_bigToHash hlt]

theorem leaders_coherent (K : Keccak256) (vs : List Validator) (hne : vs ≠ [])
    (hdistinct : (vs.map Validator.address).Nodup) (calls : List LeaderCall)
    (hsync : ∀ s, LeaderCall.syncValidators s ∈ calls → SyncState K s) :
    (∀ e, Run K (newZelius vs) calls e → LeadersCoherent K e) ∧
      ((∀ call ∈ calls, ¬Endless K call) → ∃ e, Run K (newZelius vs) calls e) := by
  have hsound : (newZelius vs).Sound K := sound_newZelius hne hdistinct
  constructor
  · intro e hrun
    exact (hsound.run hsync hrun).leadersCoherent
  · intro hend
    exact hsound.run_returns hsync hend

def twoStaked : StateDB := execCalls .ideal systemParams (.new .empty) [stakingMessage 10 5 [], stakingMessage 11 7 []]

theorem syncState_twoStaked : SyncState .ideal twoStaked := by
  have hsender (msg : Message) (data : Bytes)
      (hm : Zephyria.Call.system msg data ∈ [stakingMessage 10 5 [], stakingMessage 11 7 []]) :
      2 < msg.fromAddr.toNat ∧ msg.value < 2 ^ 256 := by
    simp only [stakingMessage, List.mem_cons, Call.system.injEq, List.not_mem_nil, or_false] at hm
    rcases hm with ⟨rfl, -⟩ | ⟨rfl, -⟩ <;> decide
  obtain ⟨l, hl, hle, -⟩ := registered_execCalls (K := .ideal) (p := systemParams) (s := .new .empty) (by decide)
    (fun k => ⟨rfl, rfl⟩) (N := 2) [stakingMessage 10 5 [], stakingMessage 11 7 []] (by decide)
    (by
      rintro a ⟨msg, data, hm, rfl⟩
      exact (hsender msg data hm).1)
    (fun msg data hm => (hsender msg data hm).2)
  have hdeposits : deposits systemParams [stakingMessage 10 5 [], stakingMessage 11 7 []] = 2 := by decide
  exact syncState_of_registered hl (by omega)

def sampleLeaderCalls : List LeaderCall :=
  [.addValidator 3 7, .getLeader 9, .slash 1, .syncValidators twoStaked, .getLeader 9]

theorem leaders_coherent_sample :
    ∃ e, Run .ideal (newZelius [⟨1, 3⟩, ⟨2, 0⟩]) sampleLeaderCalls e ∧ LeadersCoherent .ideal e := by
  obtain ⟨hcoherent, hreturns⟩ := leaders_coherent .ideal [⟨1, 3⟩, ⟨2, 0⟩] (by simp) (by decide) sampleLeaderCalls
    (by
      intro s hs
      have hs : s = twoStaked := by simpa [sampleLeaderCalls] using hs
      rw [hs]
      exact syncState_twoStaked)
  have hcount : ((book .ideal twoStaked).slot systemParams 0).toNat ≠ 2 ^ 64 - 1 := by decide +kernel
  obtain ⟨e, hrun⟩ := hreturns (by simpa [sampleLeaderCalls, Endless] using hcount)
  exact ⟨e, hrun, hcoherent e hrun⟩

end ZeliusEngine

end Zephyria
