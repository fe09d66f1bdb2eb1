import Zephyria.ValidatorRegistry

namespace Zephyria

/-- What happens to the state between two looks at the registry: a call of `ProcessSystemContracts`
with its message and `tx.Data()`, or a balance that moves elsewhere. -/
inductive Call where
  | system (msg : Message) (data : Bytes)
  | balance (a : Address) (v : U256)

section History

variable (K : Keccak256) (p : SystemParams)

def execCall (s : StateDB) : Call → StateDB
  | .system msg data => (StateDB.exec (processSystemContracts K p msg data) s).2
  | .balance a v => (StateDB.exec (setBalance K a v) s).2

def execCalls (s : StateDB) (calls : List Call) : StateDB := calls.foldl (execCall K p) s

abbrev book (s : StateDB) : Accounts := accounts K s.getVerkleValue

def deposits (calls : List Call) : ℕ :=
  calls.countP fun
    | .system msg _ => msg.toAddr = some p.stakingAddr ∧ msg.value > 0
    | .balance _ _ => false

def senders (calls : List Call) : Set Address :=
  {a | ∃ msg data, Call.system msg data ∈ calls ∧ msg.fromAddr = a}

def Untouched (w : Accounts) : Prop :=
  ∀ k, w.storage p.stakingAddr k = 0 ∧ w.storage p.validatorAddr k = 0

theorem execCall_storage (s : StateDB) (c : Call) :
    (book K (execCall K p s c)).storage =
      match c with
      | .system msg data =>
        if msg.toAddr = some p.stakingAddr then
          ((book K s).stakingContract p msg.fromAddr msg.value data).storage
        else (book K s).storage
      | .balance _ _ => (book K s).storage := by
  cases c with
  | system msg data =>
    rw [book, execCall, (StateDB.exec_denote _ s).2]
    exact processSystemContracts_storage K p s.getVerkleValue msg data
  | balance a v => simp [book, execCall, StateDB.exec_denote]

theorem execCalls_concat (s : StateDB) (calls : List Call) (c : Call) :
    execCalls K p s (calls ++ [c]) = execCall K p (execCalls K p s calls) c := by
  simp [execCalls]

theorem registered_nil {w : Accounts} (h : Untouched p w) (N : ℕ) : Registered p N w [] where
  layout := ⟨(h 0).2, by simp, by simp, fun k _ _ => (h k).2⟩
  spread := ⟨List.nodup_nil, Nat.zero_le N, by simp⟩
  staked a := by simp [Accounts.stake, (h (addressKey a)).1]

variable {K p}

theorem deposits_append (calls : List Call) (c : Call) :
    deposits p (calls ++ [c]) = deposits p calls + deposits p [c] := by
  simp [deposits, List.countP_append]

theorem Registered.execCall {N : ℕ} {s : StateDB} {l : List Address} (h : Registered p N (book K s) l)
    (hp : p.stakingAddr ≠ p.validatorAddr) {c : Call} (hlen : l.length + deposits p [c] ≤ N)
    (hsender : ∀ a ∈ senders [c], N < a.toNat)
    (hvalue : ∀ msg data, c = .system msg data → msg.value < 2 ^ 256) :
    ∃ l', Registered p N (book K (execCall K p s c)) l' ∧ l'.length ≤ l.length + deposits p [c] ∧
      ∀ b ∈ l', b ∈ senders [c] ∨ b ∈ l := by
  have hstorage := execCall_storage K p s c
  cases c with
  | balance a v => exact ⟨l, h.congr hstorage, by omega, fun b hb => Or.inr hb⟩
  | system msg data =>
    simp only at hstorage
    have hmem : msg.fromAddr ∈ senders [Call.system msg data] := ⟨msg, data, by simp, rfl⟩
    by_cases hto : msg.toAddr = some p.stakingAddr
    · rw [if_pos hto] at hstorage
      have hdep : deposits p [Call.system msg data] = if msg.value > 0 then 1 else 0 := by
        simp [deposits, hto, List.countP_cons]
      rw [hdep] at hlen ⊢
      obtain ⟨l', hl', hlen', hmem'⟩ := h.stakingContract hp (hvalue msg data rfl)
        (fun hpos => by rw [if_pos hpos] at hlen; omega) (hsender _ hmem) data
      refine ⟨l', hl'.congr hstorage, hlen', fun b hb => ?_⟩
      rcases hmem' b hb with rfl | hb
      · exact Or.inl hmem
      · exact Or.inr hb
    · rw [if_neg hto] at hstorage
      exact ⟨l, h.congr hstorage, by omega, fun b hb => Or.inr hb⟩

theorem registered_execCalls {s : StateDB} (hp : p.stakingAddr ≠ p.validatorAddr)
    (h : Untouched p (book K s)) {N : ℕ} (calls : List Call) (hlen : deposits p calls ≤ N)
    (hsender : ∀ a ∈ senders calls, N < a.toNat)
    (hvalue : ∀ msg data, Call.system msg data ∈ calls → msg.value < 2 ^ 256) :
    ∃ l, Registered p N (book K (execCalls K p s calls)) l ∧ l.length ≤ deposits p calls ∧
      ∀ a ∈ l, a ∈ senders calls := by
  induction calls using List.reverseRecOn with
  | nil => exact ⟨[], registered_nil p h N, by simp, by simp⟩
  | append_singleton calls c ih =>
    rw [deposits_append] at hlen
    have hsub (a : Address) (ha : a ∈ senders calls ∨ a ∈ senders [c]) : a ∈ senders (calls ++ [c]) := by
      rcases ha with ⟨msg, data, hm, rfl⟩ | ⟨msg, data, hm, rfl⟩
      · exact ⟨msg, data, List.mem_append_left [c] hm, rfl⟩
      · exact ⟨msg, data, List.mem_append_right calls hm, rfl⟩
    obtain ⟨l, hl, hle, hknown⟩ := ih (by omega) (fun a ha => hsender a (hsub a (Or.inl ha)))
      (fun msg data hm => hvalue msg data (List.mem_append_left [c] hm))
    obtain ⟨l', hl', hle', hknown'⟩ := hl.execCall hp (c := c) (by omega)
      (fun a ha => hsender a (hsub a (Or.inr ha)))
      (fun msg data hc => hvalue msg data (by simp [hc]))
    rw [execCalls_concat, deposits_append]
    refine ⟨l', hl', by omega, fun a ha => hsub a ?_⟩
    rcases hknown' a ha with ha | ha
    · exact Or.inr ha
    · exact Or.inl (hknown a ha)

structure RegistryInvariant (p : SystemParams) (S : Set Address) (w : Accounts) : Prop where
  slots : ∀ i, 1 ≤ i → i ≤ (w.slot p 0).toNat → ∃ a : Address, a ≠ 0 ∧
    w.slot p (bigToHash i) = addressKey a ∧ w.slot p (addressKey a) = bigToHash i
  distinct : ∀ i j, 1 ≤ i → i ≤ (w.slot p 0).toNat → 1 ≤ j → j ≤ (w.slot p 0).toNat →
    w.slot p (bigToHash i) = w.slot p (bigToHash j) → i = j
  above : ∀ k : Hash, (w.slot p 0).toNat < k.toNat → (∀ a ∈ S, k ≠ addressKey a) → w.slot p k = 0
  unlisted : ∀ a ∈ S, (∀ i, 1 ≤ i → i ≤ (w.slot p 0).toNat → w.slot p (bigToHash i) ≠ addressKey a) →
    w.slot p (addressKey a) = 0
  staked : ∀ a ∈ S, (∃ i, 1 ≤ i ∧ i ≤ (w.slot p 0).toNat ∧ w.slot p (bigToHash i) = addressKey a) ↔
    w.stake p a ≠ 0

theorem Registered.slot_iff {N : ℕ} {w : Accounts} {l : List Address} (h : Registered p N w l)
    (hlen : l.length < 2 ^ 256) {i : ℕ} (hi : 1 ≤ i) (hin : i ≤ (w.slot p 0).toNat) :
    ∃ a, l[i - 1]? = some a ∧ w.slot p (bigToHash i) = addressKey a ∧
      w.slot p (addressKey a) = bigToHash i := by
  rw [Accounts.slot, h.layout.count, toNat_bigToHash hlen] at hin
  have hget : l[i - 1]? = some l[i - 1] := List.getElem?_eq_getElem (by omega)
  have hslot := h.layout.slot _ _ hget
  have hpointer := h.layout.pointer _ _ hget
  rw [show i - 1 + 1 = i by omega] at hslot hpointer
  exact ⟨l[i - 1], hget, hslot, hpointer⟩

theorem Registered.listed_iff {N : ℕ} {w : Accounts} {l : List Address} (h : Registered p N w l)
    (hlen : l.length < 2 ^ 256) (a : Address) :
    (∃ i, 1 ≤ i ∧ i ≤ (w.slot p 0).toNat ∧ w.slot p (bigToHash i) = addressKey a) ↔ a ∈ l := by
  constructor
  · rintro ⟨i, hi, hin, hs⟩
    obtain ⟨b, hb, hslot, -⟩ := h.slot_iff hlen hi hin
    exact addressKey_injective (hs.symm.trans hslot) ▸ List.mem_of_getElem? hb
  · intro ha
    obtain ⟨i, hi⟩ := List.mem_iff_getElem?.mp ha
    have hlt := (List.getElem?_eq_some_iff.mp hi).1
    refine ⟨i + 1, by omega, ?_, h.layout.slot i a hi⟩
    rw [Accounts.slot, h.layout.count, toNat_bigToHash hlen]
    omega

theorem Registered.registryInvariant {N : ℕ} {w : Accounts} {l : List Address} {S : Set Address}
    (h : Registered p N w l) (hlen : l.length < 2 ^ 256) (hknown : ∀ a ∈ l, a ∈ S)
    (hS : ∀ a ∈ S, N < a.toNat) : RegistryInvariant p S w where
  slots i hi hin := by
    obtain ⟨a, ha, hslot, hpointer⟩ := h.slot_iff hlen hi hin
    refine ⟨a, ?_, hslot, hpointer⟩
    rintro rfl
    have hhigh := h.spread.high 0 (List.mem_of_getElem? ha)
    simp at hhigh
  distinct i j hi hin hj hjn he := by
    obtain ⟨a, ha, hslot, -⟩ := h.slot_iff hlen hi hin
    obtain ⟨b, hb, hslot', -⟩ := h.slot_iff hlen hj hjn
    obtain rfl : a = b := addressKey_injective (by rw [← hslot, he, hslot'])
    have hlt := (List.getElem?_eq_some_iff.mp ha).1
    have hij := (List.getElem?_inj hlt h.spread.nodup).mp (ha.trans hb.symm)
    omega
  above k hk hne := by
    rw [Accounts.slot, h.layout.count, toNat_bigToHash hlen] at hk
    exact h.layout.other k hk fun a ha => hne a (hknown a ha)
  unlisted a ha hne := by
    apply h.layout.pointer_eq_zero h.spread (hS a ha)
    intro hal
    obtain ⟨i, hi, hin, hs⟩ := (h.listed_iff hlen a).mpr hal
    exact hne i hi hin hs
  staked a _ := (h.listed_iff hlen a).trans (h.staked a)

theorem registry_invariant (K : Keccak256) (network : Network) (s : StateDB) (calls : List Call)
    (hstart : Untouched (getNetworkConfig network).params (book K s))
    (hsender : ∀ a ∈ senders calls, deposits (getNetworkConfig network).params calls < a.toNat)
    (hvalue : ∀ msg data, Call.system msg data ∈ calls → msg.value < 2 ^ 256) :
    RegistryInvariant (getNetworkConfig network).params (senders calls)
      (book K (execCalls K (getNetworkConfig network).params s calls)) := by
  have hp : (getNetworkConfig network).params.stakingAddr ≠
      (getNetworkConfig network).params.validatorAddr := by
    rw [getNetworkConfig_params]
    decide
  obtain ⟨l, hl, hle, hknown⟩ := registered_execCalls hp hstart calls le_rfl hsender hvalue
  refine hl.registryInvariant ?_ hknown hsender
  cases hl' : l with
  | nil => norm_num
  | cons a rest =>
    have hhigh := hl.spread.high a (by simp [hl'])
    have hlt := a.isLt
    have hlen := hl.spread.length_le
    rw [← hl']
    omega

def stakingMessage (sender : Address) (value : ℕ) (data : Bytes) : Call :=
  .system
    { fromAddr := sender, toAddr := some systemParams.stakingAddr, nonce := 0, gasLimit := 21000,
      value := value, gasPrice := 0, gasFeeCap := 0, gasTipCap := 0, data := data, accessList := [],
      blobHashes := none }
    data

def stakingRun : List Call :=
  [.balance systemParams.stakingAddr 12, stakingMessage 10 5 [], stakingMessage 11 7 [],
    stakingMessage 10 0 unstakePayload, stakingMessage 10 3 []]

theorem mem_stakingRun {msg : Message} {data : Bytes} (h : Call.system msg data ∈ stakingRun) :
    (msg.fromAddr = 10 ∨ msg.fromAddr = 11) ∧ msg.value ≤ 7 := by
  simp only [stakingRun, stakingMessage, List.mem_cons, Call.system.injEq, reduceCtorEq, false_or,
    List.not_mem_nil, or_false] at h
  rcases h with ⟨rfl, -⟩ | ⟨rfl, -⟩ | ⟨rfl, -⟩ | ⟨rfl, -⟩ <;> decide

theorem senders_stakingRun : ∀ a ∈ senders stakingRun, deposits systemParams stakingRun < a.toNat := by
  rintro a ⟨msg, data, hm, rfl⟩
  rcases (mem_stakingRun hm).1 with h | h <;> (rw [h]; decide)

theorem values_stakingRun : ∀ msg data, Call.system msg data ∈ stakingRun → msg.value < 2 ^ 256 := by
  intro msg data hm
  have hle := (mem_stakingRun hm).2
  omega

theorem registry_invariant_two_validators :
    RegistryInvariant systemParams (senders stakingRun)
        (book .ideal (execCalls .ideal systemParams (.new .empty) stakingRun)) ∧
      ((stakingRun.inits.drop 2).map fun calls =>
        ((book .ideal (execCalls .ideal systemParams (.new .empty) calls)).slot systemParams 0).toNat) =
          [1, 2, 1, 2] :=
  ⟨registry_invariant .ideal .simulation (.new .empty) stakingRun (fun _ => ⟨rfl, rfl⟩) senders_stakingRun
    values_stakingRun, by decide +kernel⟩

end History

end Zephyria
