import Zephyria.Overlays
import Zephyria.SystemContracts

namespace Zephyria

def rewardOrder (value : ℕ) (data : Bytes) : Option (Address × U256) :=
  if value = 0 ∧ data.length > 7 ∧ data.take 7 = rewardTag then
    match (data.drop 7).splitOn 58 with
    | [target, amount] => (setString16 amount).map fun amt => (hexToAddress target, BitVec.ofInt 256 amt)
    | _ => none
  else none

namespace Accounts

variable (p : SystemParams) (w : Accounts)

abbrev stake (a : Address) : Hash := w.storage p.stakingAddr (addressKey a)

abbrev slot (k : Hash) : Hash := w.storage p.validatorAddr k

def deposit (sender : Address) (value : ℕ) : Accounts :=
  let w := w.setState p.stakingAddr (addressKey sender) (bigToHash value)
  if w.slot p (addressKey sender) = 0 then
    let newCount := bigToHash ((w.slot p 0).toNat + 1)
    ((w.setState p.validatorAddr 0 newCount).setState p.validatorAddr newCount (addressKey sender)).setState
      p.validatorAddr (addressKey sender) newCount
  else w

def swapLast (index last : Hash) : Accounts :=
  (w.setState p.validatorAddr index (w.slot p last)).setState p.validatorAddr (w.slot p last) index

def removeValidator (key : Hash) : Accounts :=
  let swapped :=
    if (w.slot p key).toNat < (w.slot p 0).toNat then w.swapLast p (w.slot p key) (w.slot p 0) else w
  (((swapped.setState p.validatorAddr (w.slot p 0) 0).setState p.validatorAddr 0
    (bigToHash (((w.slot p 0).toNat : ℤ) - 1).natAbs)).setState p.stakingAddr key 0).setState
      p.validatorAddr key 0

def transfer (src dst : Address) (v : U256) : Accounts :=
  let debited := w.setBalance src (w.balance src - v)
  debited.setBalance dst (debited.balance dst + v)

def unstake (sender : Address) : Accounts :=
  if w.stake p sender = 0 then w
  else if w.balance p.stakingAddr < w.stake p sender then w
  else (w.transfer p.stakingAddr sender (w.stake p sender)).removeValidator p (addressKey sender)

def stakingContract (sender : Address) (value : ℕ) (data : Bytes) : Accounts :=
  let deposited := if value > 0 then w.deposit p sender value else w
  if data = unstakePayload then deposited.unstake p sender else deposited

def payReward (order : Address × U256) : Accounts :=
  if w.balance p.rewardAddr < order.2 then w else w.transfer p.rewardAddr order.1 order.2

def distributeReward (value : ℕ) (data : Bytes) : Accounts :=
  ((rewardOrder value data).map (w.payReward p)).getD w

def systemContracts (msg : Message) (data : Bytes) : Accounts :=
  let staked := if msg.toAddr = some p.stakingAddr then w.stakingContract p msg.fromAddr msg.value data else w
  if msg.toAddr = some p.rewardAddr then staked.distributeReward p msg.value data else staked

end Accounts

section View

variable (K : Keccak256) (p : SystemParams) (m : Bytes → Bytes)

theorem accounts_deposit (sender : Address) (value : ℕ) :
    accounts K ((deposit K p sender value).denote m).2 = (accounts K m).deposit p sender value := by
  simp only [deposit, Prog.denote_bind, Prog.denote_ite, Prog.denote_pure, denote_getState,
    accounts_setState, accounts_ite]
  rfl

theorem accounts_removeValidator (key : Hash) :
    accounts K ((removeValidator K p key).denote m).2 = (accounts K m).removeValidator p key := by
  simp only [removeValidator, Prog.denote_bind, Prog.denote_ite, Prog.denote_pure, denote_getState,
    accounts_setState, accounts_ite, Accounts.removeValidator]
  by_cases h : ((accounts K m).slot p key).toNat < ((accounts K m).slot p 0).toNat
  · rw [if_pos h, if_pos h]
    rfl
  · rw [if_neg h, if_neg h]

theorem accounts_unstake (sender : Address) :
    accounts K ((unstake K p sender).denote m).2 = (accounts K m).unstake p sender := by
  simp only [unstake, Prog.denote_bind, Prog.denote_ite, Prog.denote_pure, denote_getState,
    denote_getBalance, accounts_ite, accounts_removeValidator, accounts_addBalance, accounts_subBalance,
    ← BitVec.sub_eq_add_neg]
  rfl

theorem accounts_stakingContract (sender : Address) (value : ℕ) (data : Bytes) :
    accounts K ((stakingContract K p sender value data).denote m).2 =
      (accounts K m).stakingContract p sender value data := by
  simp only [stakingContract, Prog.denote_bind, Prog.denote_ite, Prog.denote_pure, accounts_ite,
    accounts_deposit, accounts_unstake]
  rfl

theorem accounts_payReward (target : Address) (amt : ℤ) :
    accounts K ((payReward K p target amt).denote m).2 =
      (accounts K m).payReward p (target, BitVec.ofInt 256 amt) := by
  simp only [payReward, Prog.denote_bind, Prog.denote_ite, Prog.denote_pure, denote_getBalance, accounts_ite,
    accounts_addBalance, accounts_subBalance, ← BitVec.sub_eq_add_neg]
  rfl

theorem accounts_distributeReward (value : ℕ) (data : Bytes) :
    accounts K ((distributeReward K p value data).denote m).2 = (accounts K m).distributeReward p value data := by
  unfold distributeReward Accounts.distributeReward rewardOrder
  split
  · generalize (data.drop 7).splitOn 58 = parts
    obtain _ | ⟨target, _ | ⟨amount, _ | ⟨extra, parts⟩⟩⟩ := parts
    · rfl
    · rfl
    · dsimp only
      cases setString16 amount with
      | none => rfl
      | some amt => exact accounts_payReward K p m _ amt
    · rfl
  · rfl

theorem accounts_systemContracts (msg : Message) (data : Bytes) :
    accounts K ((processSystemContracts K p msg data).denote m).2 = (accounts K m).systemContracts p msg data := by
  have hreward (m : Bytes → Bytes) : accounts K ((if msg.toAddr = some p.rewardAddr then
      distributeReward K p msg.value data else pure () : StateM Unit).denote m).2 =
      if msg.toAddr = some p.rewardAddr then (accounts K m).distributeReward p msg.value data else accounts K m := by
    split
    · exact accounts_distributeReward K p m _ _
    · rfl
  have hstaking : accounts K ((if msg.toAddr = some p.stakingAddr then
      stakingContract K p msg.fromAddr msg.value data else pure () : StateM Unit).denote m).2 =
      if msg.toAddr = some p.stakingAddr then (accounts K m).stakingContract p msg.fromAddr msg.value data
      else accounts K m := by
    split
    · rw [accounts_stakingContract]
    · rfl
  rw [processSystemContracts, Prog.denote_bind, hreward, hstaking]
  rfl

theorem distributeReward_storage (w : Accounts) (value : ℕ) (data : Bytes) :
    (w.distributeReward p value data).storage = w.storage := by
  unfold Accounts.distributeReward Accounts.payReward
  cases rewardOrder value data with
  | none => rfl
  | some order =>
    rw [Option.map_some, Option.getD_some]
    split <;> rfl

theorem processSystemContracts_storage (msg : Message) (data : Bytes) :
    (accounts K ((processSystemContracts K p msg data).denote m).2).storage =
      if msg.toAddr = some p.stakingAddr then
        ((accounts K m).stakingContract p msg.fromAddr msg.value data).storage
      else (accounts K m).storage := by
  have hreward (w : Accounts) : (if msg.toAddr = some p.rewardAddr then
      w.distributeReward p msg.value data else w).storage = w.storage := by
    split
    · exact distributeReward_storage p w msg.value data
    · rfl
  rw [accounts_systemContracts, Accounts.systemContracts, hreward]
  split <;> rfl

end View

section Layout

/-- The cells `σ` of the validator account list the addresses `l`: the count in slot 0, the address of
validator `i` in slot `i + 1`, and back pointers under the addresses. -/
structure Layout (σ : Hash → Hash) (l : List Address) : Prop where
  count : σ 0 = bigToHash l.length
  slot : ∀ i a, l[i]? = some a → σ (bigToHash (i + 1)) = addressKey a
  pointer : ∀ i a, l[i]? = some a → σ (addressKey a) = bigToHash (i + 1)
  other : ∀ k, l.length < k.toNat → (∀ a ∈ l, k ≠ addressKey a) → σ k = 0

structure Spread (N : ℕ) (l : List Address) : Prop where
  nodup : l.Nodup
  length_le : l.length ≤ N
  high : ∀ a ∈ l, N < a.toNat

theorem toNat_bigToHash {n : ℕ} (h : n < 2 ^ 256) : (bigToHash n).toNat = n := by
  rw [bigToHash, BitVec.toNat_ofNat, Nat.mod_eq_of_lt h]

theorem bigToHash_ne {m n : ℕ} (hm : m < 2 ^ 256) (hn : n < 2 ^ 256) (h : m ≠ n) :
    bigToHash m ≠ bigToHash n := by
  intro he
  rw [← toNat_bigToHash hm, he, toNat_bigToHash hn] at h
  exact h rfl

theorem bigToHash_ne_zero {n : ℕ} (hn : n < 2 ^ 256) (h : n ≠ 0) : bigToHash n ≠ 0 :=
  bigToHash_ne hn (by norm_num) h

theorem addressKey_ne_bigToHash {a : Address} {n : ℕ} (h : n < a.toNat) : addressKey a ≠ bigToHash n := by
  intro he
  have ha := a.isLt
  have ht := congrArg BitVec.toNat he
  rw [addressKey_toNat, toNat_bigToHash (by omega)] at ht
  omega

theorem addressKey_ne_zero {a : Address} {n : ℕ} (h : n < a.toNat) : addressKey a ≠ 0 := by
  have hne : addressKey a ≠ bigToHash 0 := addressKey_ne_bigToHash (by omega)
  exact hne

theorem addressKey_ne {a b : Address} (h : a ≠ b) : addressKey a ≠ addressKey b :=
  fun he => h (addressKey_injective he)

variable {σ : Hash → Hash} {l : List Address} {N : ℕ} {a : Address}

theorem Spread.index_lt (hs : Spread N l) (ha : N < a.toNat) {i : ℕ} (hi : i ≤ l.length) :
    i < 2 ^ 256 := by
  have hlt := a.isLt
  have hle := hs.length_le
  omega

theorem Layout.pointer_ne_zero (hl : Layout σ l) (hs : Spread N l) (ha : a ∈ l) : σ (addressKey a) ≠ 0 := by
  obtain ⟨i, hi⟩ := List.mem_iff_getElem?.mp ha
  have hlt := (List.getElem?_eq_some_iff.mp hi).1
  rw [hl.pointer i a hi]
  exact bigToHash_ne_zero (hs.index_lt (hs.high a ha) hlt) (by omega)

theorem Layout.pointer_eq_zero (hl : Layout σ l) (hs : Spread N l) (hN : N < a.toNat) (ha : a ∉ l) :
    σ (addressKey a) = 0 := by
  apply hl.other
  · have hle := hs.length_le
    rw [addressKey_toNat]
    omega
  · intro b hb he
    exact ha (addressKey_injective he ▸ hb)

theorem Layout.append (hl : Layout σ l) (hs : Spread N l) (hlen : l.length < N) (hN : N < a.toNat)
    (ha : a ∉ l) :
    Layout (Function.update (Function.update (Function.update σ 0 (bigToHash (l.length + 1)))
      (bigToHash (l.length + 1)) (addressKey a)) (addressKey a) (bigToHash (l.length + 1))) (l ++ [a]) := by
  have hlt := a.isLt
  have hnew0 : bigToHash (l.length + 1) ≠ 0 := bigToHash_ne_zero (by omega) (by omega)
  have hkey0 : addressKey a ≠ 0 := addressKey_ne_zero hN
  have hkeynew : addressKey a ≠ bigToHash (l.length + 1) := addressKey_ne_bigToHash (by omega)
  constructor
  · rw [Function.update_of_ne hkey0.symm, Function.update_of_ne hnew0.symm, Function.update_self,
      List.length_append, List.length_singleton]
  · intro i b hb
    have hi := (List.getElem?_eq_some_iff.mp hb).1
    rw [List.length_append, List.length_singleton] at hi
    have hkey : bigToHash (i + 1) ≠ addressKey a := (addressKey_ne_bigToHash (by omega)).symm
    rw [Function.update_of_ne hkey]
    by_cases hil : i = l.length
    · subst hil
      obtain rfl : a = b := by simpa using hb
      rw [Function.update_self]
    · rw [List.getElem?_append_left (by omega)] at hb
      rw [Function.update_of_ne (bigToHash_ne (by omega) (by omega) (by omega)),
        Function.update_of_ne (bigToHash_ne_zero (by omega) (by omega))]
      exact hl.slot i b hb
  · intro i b hb
    by_cases hil : i < l.length
    · rw [List.getElem?_append_left hil] at hb
      have hmem := List.mem_of_getElem? hb
      have hhigh := hs.high b hmem
      have hba : b ≠ a := by
        rintro rfl
        exact ha hmem
      rw [Function.update_of_ne (addressKey_ne hba),
        Function.update_of_ne (addressKey_ne_bigToHash (by omega)),
        Function.update_of_ne (addressKey_ne_zero hhigh)]
      exact hl.pointer i b hb
    · have hi := (List.getElem?_eq_some_iff.mp hb).1
      rw [List.length_append, List.length_singleton] at hi
      obtain rfl : i = l.length := by omega
      obtain rfl : a = b := by simpa using hb
      rw [Function.update_self]
  · intro k hk hne
    rw [List.length_append, List.length_singleton] at hk
    have hkn : k ≠ bigToHash (l.length + 1) := by
      rintro rfl
      rw [toNat_bigToHash (by omega)] at hk
      omega
    have hk0 : k ≠ 0 := by
      rintro rfl
      simp at hk
    rw [Function.update_of_ne (hne a (by simp)), Function.update_of_ne hkn, Function.update_of_ne hk0]
    exact hl.other k (by omega) fun b hb => hne b (List.mem_append_left [a] hb)

section SwapRemove

variable {init : List Address} {z : Address} {i : ℕ}

theorem getElem?_set_last (hn : (init ++ [z]).Nodup) (hi : (init ++ [z])[i]? = some a) {j : ℕ} {b : Address}
    (hb : (init.set i z)[j]? = some b) :
    b ≠ a ∧ (i < init.length ∧ j = i ∧ b = z ∨ j ≠ i ∧ (init ++ [z])[j]? = some b ∧ b ≠ z) := by
  have hz : z ∉ init := fun h => List.disjoint_of_nodup_append hn h (by simp)
  have hj : j < init.length := by simpa using (List.getElem?_eq_some_iff.mp hb).1
  by_cases hji : j = i
  · subst hji
    rw [List.getElem?_append_left hj] at hi
    obtain rfl : z = b := by simpa [hj] using hb
    refine ⟨?_, Or.inl ⟨hj, rfl, rfl⟩⟩
    rintro rfl
    exact hz (List.mem_of_getElem? hi)
  · rw [List.getElem?_set_ne (Ne.symm hji)] at hb
    have hb' : (init ++ [z])[j]? = some b := by rwa [List.getElem?_append_left hj]
    refine ⟨?_, Or.inr ⟨hji, hb', ?_⟩⟩
    · rintro rfl
      have hji' := (List.getElem?_inj (by simp; omega) hn).mp (hb'.trans hi.symm)
      exact hji hji'
    · rintro rfl
      exact hz (List.mem_of_getElem? hb)

theorem mem_set_last (hn : (init ++ [z]).Nodup) (hi : (init ++ [z])[i]? = some a) (b : Address) :
    b ∈ init.set i z ↔ b ∈ init ++ [z] ∧ b ≠ a := by
  constructor
  · intro hb
    obtain ⟨j, hj⟩ := List.mem_iff_getElem?.mp hb
    obtain ⟨hba, ⟨-, -, rfl⟩ | ⟨-, hj', -⟩⟩ := getElem?_set_last hn hi hj
    · exact ⟨by simp, hba⟩
    · exact ⟨List.mem_of_getElem? hj', hba⟩
  · rintro ⟨hb, hba⟩
    have hlt := (List.getElem?_eq_some_iff.mp hi).1
    rw [List.length_append, List.length_singleton] at hlt
    rcases List.mem_append.mp hb with hb | hb
    · obtain ⟨j, hj⟩ := List.mem_iff_getElem?.mp hb
      have hji : i ≠ j := by
        rintro rfl
        have hlt := (List.getElem?_eq_some_iff.mp hj).1
        rw [List.getElem?_append_left hlt, hj] at hi
        exact hba (by simpa using hi)
      exact List.mem_of_getElem? (by rwa [List.getElem?_set_ne hji])
    · obtain rfl : b = z := by simpa using hb
      have hil : i < init.length := by
        by_contra h
        obtain rfl : i = init.length := by omega
        exact hba (by simpa using hi)
      exact List.mem_of_getElem? (List.getElem?_set_self hil)

theorem Spread.set_last (hs : Spread N (init ++ [z])) (hi : (init ++ [z])[i]? = some a) :
    Spread N (init.set i z) where
  nodup := by
    have hz : z ∉ init := fun h => List.disjoint_of_nodup_append hs.nodup h (by simp)
    exact (List.Nodup.of_append_left hs.nodup).set hz
  length_le := by
    have hle := hs.length_le
    rw [List.length_append, List.length_singleton] at hle
    rw [List.length_set]
    omega
  high b hb := hs.high b ((mem_set_last hs.nodup hi b).mp hb).1

def swapSlots (σ : Hash → Hash) (key : Hash) : Hash → Hash :=
  if (σ key).toNat < (σ 0).toNat then
    Function.update (Function.update σ (σ key) (σ (σ 0))) (σ (σ 0)) (σ key)
  else σ

def popSlots (σ : Hash → Hash) (key : Hash) : Hash → Hash :=
  Function.update (Function.update (Function.update (swapSlots σ key) (σ 0) 0) 0
    (bigToHash (((σ 0).toNat : ℤ) - 1).natAbs)) key 0

theorem swapSlots_eq (hl : Layout σ (init ++ [z])) (hs : Spread N (init ++ [z]))
    (hi : (init ++ [z])[i]? = some a) :
    swapSlots σ (addressKey a) = if i < init.length then
      Function.update (Function.update σ (bigToHash (i + 1)) (addressKey z)) (addressKey z) (bigToHash (i + 1))
      else σ := by
  have hlt := (List.getElem?_eq_some_iff.mp hi).1
  have hle := hs.length_le
  have hhigh := hs.high a (List.mem_of_getElem? hi)
  have ha := a.isLt
  rw [List.length_append, List.length_singleton] at hlt hle
  have hkey : σ (addressKey a) = bigToHash (i + 1) := hl.pointer i a hi
  have hcount : σ 0 = bigToHash (init.length + 1) := by simpa using hl.count
  have hlast : σ (bigToHash (init.length + 1)) = addressKey z := hl.slot init.length z (by simp)
  rw [swapSlots, hkey, hcount, hlast, toNat_bigToHash (by omega), toNat_bigToHash (by omega)]
  simp only [Nat.add_lt_add_iff_right]

theorem swapSlots_listed (hl : Layout σ (init ++ [z])) (hs : Spread N (init ++ [z]))
    (hi : (init ++ [z])[i]? = some a) {j : ℕ} {b : Address} (hb : (init.set i z)[j]? = some b) :
    swapSlots σ (addressKey a) (bigToHash (j + 1)) = addressKey b ∧
      swapSlots σ (addressKey a) (addressKey b) = bigToHash (j + 1) := by
  have hj : j < init.length := by simpa using (List.getElem?_eq_some_iff.mp hb).1
  have hle := hs.length_le
  rw [List.length_append, List.length_singleton] at hle
  have hzhigh := hs.high z (by simp)
  have hzlt := z.isLt
  obtain ⟨hba, ⟨hil, rfl, rfl⟩ | ⟨hji, hb', hbz⟩⟩ := getElem?_set_last hs.nodup hi hb
  · rw [swapSlots_eq hl hs hi, if_pos hil, Function.update_self,
      Function.update_of_ne (addressKey_ne_bigToHash (by omega)).symm, Function.update_self]
    exact ⟨rfl, rfl⟩
  · have hbhigh := hs.high b (List.mem_of_getElem? hb')
    rw [swapSlots_eq hl hs hi]
    split
    · rw [Function.update_of_ne (addressKey_ne_bigToHash (by omega)).symm,
        Function.update_of_ne (bigToHash_ne (by omega) (by omega) (by omega)),
        Function.update_of_ne (addressKey_ne hbz), Function.update_of_ne (addressKey_ne_bigToHash (by omega))]
      exact ⟨hl.slot j b hb', hl.pointer j b hb'⟩
    · exact ⟨hl.slot j b hb', hl.pointer j b hb'⟩

theorem Layout.pop (hl : Layout σ (init ++ [z])) (hs : Spread N (init ++ [z]))
    (hi : (init ++ [z])[i]? = some a) : Layout (popSlots σ (addressKey a)) (init.set i z) := by
  have hle := hs.length_le
  rw [List.length_append, List.length_singleton] at hle
  have hhigh := hs.high a (List.mem_of_getElem? hi)
  have ha := a.isLt
  have hcount : σ 0 = bigToHash (init.length + 1) := by simpa using hl.count
  have hcnt : (bigToHash (init.length + 1)).toNat = init.length + 1 := toNat_bigToHash (by omega)
  have hpred : ((init.length + 1 : ℕ) - 1 : ℤ).natAbs = init.length := by omega
  unfold popSlots
  rw [hcount, hcnt, hpred]
  constructor
  · rw [Function.update_of_ne (addressKey_ne_zero hhigh).symm, Function.update_self, List.length_set]
  · intro j b hb
    have hj : j < init.length := by simpa using (List.getElem?_eq_some_iff.mp hb).1
    rw [Function.update_of_ne (addressKey_ne_bigToHash (by omega)).symm,
      Function.update_of_ne (bigToHash_ne_zero (by omega) (by omega)),
      Function.update_of_ne (bigToHash_ne (by omega) (by omega) (by omega))]
    exact (swapSlots_listed hl hs hi hb).1
  · intro j b hb
    have hmem := (mem_set_last hs.nodup hi b).mp (List.mem_of_getElem? hb)
    have hbhigh := hs.high b hmem.1
    rw [Function.update_of_ne (addressKey_ne hmem.2), Function.update_of_ne (addressKey_ne_zero hbhigh),
      Function.update_of_ne (addressKey_ne_bigToHash (by omega))]
    exact (swapSlots_listed hl hs hi hb).2
  · intro k hk hne
    rw [List.length_set] at hk
    have hk0 : k ≠ 0 := by
      rintro rfl
      simp at hk
    by_cases hka : k = addressKey a
    · rw [hka, Function.update_self]
    rw [Function.update_of_ne hka, Function.update_of_ne hk0]
    by_cases hkc : k = bigToHash (init.length + 1)
    · rw [hkc, Function.update_self]
    -- Neither the swap nor the old list has anything at `k`.
    have hknat : k.toNat ≠ init.length + 1 := fun h => hkc (BitVec.eq_of_toNat_eq (h.trans hcnt.symm))
    have hzero : σ k = 0 := by
      apply hl.other k (by simp; omega)
      intro b hb hkb
      have hba : b ≠ a := by
        rintro rfl
        exact hka hkb
      exact hne b ((mem_set_last hs.nodup hi b).mpr ⟨hb, hba⟩) hkb
    rw [Function.update_of_ne hkc, swapSlots_eq hl hs hi]
    split
    next hil =>
      have hza : z ≠ a := by
        rintro rfl
        have hz := (List.getElem?_inj (by simp; omega) hs.nodup).mp (hi.trans (by simp : _ = (init ++ [z])[init.length]?))
        omega
      have hkz : k ≠ addressKey z := hne z ((mem_set_last hs.nodup hi z).mpr ⟨by simp, hza⟩)
      have hki : k ≠ bigToHash (i + 1) := by
        rintro rfl
        rw [toNat_bigToHash (by omega)] at hk
        omega
      rw [Function.update_of_ne hkz, Function.update_of_ne hki, hzero]
    next => exact hzero

end SwapRemove

end Layout

structure Registered (p : SystemParams) (N : ℕ) (w : Accounts) (l : List Address) : Prop where
  layout : Layout (w.storage p.validatorAddr) l
  spread : Spread N l
  staked : ∀ a, a ∈ l ↔ w.stake p a ≠ 0

section Registered

variable {p : SystemParams} {N : ℕ} {w : Accounts} {l : List Address} {a : Address}

theorem Registered.congr {w' : Accounts} (h : Registered p N w l) (hw : w'.storage = w.storage) :
    Registered p N w' l :=
  ⟨hw ▸ h.layout, h.spread, fun b => by rw [h.staked b, Accounts.stake, Accounts.stake, hw]⟩

theorem deposit_staking (hp : p.stakingAddr ≠ p.validatorAddr) (value : ℕ) :
    (w.deposit p a value).storage p.stakingAddr =
      Function.update (w.storage p.stakingAddr) (addressKey a) (bigToHash value) := by
  unfold Accounts.deposit
  simp only
  split <;> simp [hp]

theorem deposit_validators (hp : p.stakingAddr ≠ p.validatorAddr) (value : ℕ) :
    (w.deposit p a value).storage p.validatorAddr =
      if w.slot p (addressKey a) = 0 then
        Function.update (Function.update (Function.update (w.storage p.validatorAddr) 0
          (bigToHash ((w.slot p 0).toNat + 1))) (bigToHash ((w.slot p 0).toNat + 1)) (addressKey a))
            (addressKey a) (bigToHash ((w.slot p 0).toNat + 1))
      else w.storage p.validatorAddr := by
  have hstake (k v : Hash) :
      (w.setState p.stakingAddr k v).storage p.validatorAddr = w.storage p.validatorAddr :=
    w.storage_setState_ne p.stakingAddr k v hp.symm
  have hslot (k v k' : Hash) : (w.setState p.stakingAddr k v).slot p k' = w.slot p k' :=
    congrFun (hstake k v) k'
  unfold Accounts.deposit
  simp only [hslot]
  split <;> simp [hstake]

theorem removeValidator_staking (hp : p.stakingAddr ≠ p.validatorAddr) (key : Hash) :
    (w.removeValidator p key).storage p.stakingAddr =
      Function.update (w.storage p.stakingAddr) key 0 := by
  unfold Accounts.removeValidator
  simp only
  split <;> simp [hp, Accounts.swapLast]

theorem removeValidator_validators (hp : p.stakingAddr ≠ p.validatorAddr) (key : Hash) :
    (w.removeValidator p key).storage p.validatorAddr = popSlots (w.storage p.validatorAddr) key := by
  unfold Accounts.removeValidator popSlots swapSlots
  simp only
  split <;> simp [hp.symm, Accounts.swapLast]

theorem Registered.deposit (h : Registered p N w l) (hp : p.stakingAddr ≠ p.validatorAddr) {value : ℕ}
    (hpos : 0 < value) (hlt : value < 2 ^ 256) (hlen : l.length < N) (ha : N < a.toNat) :
    Registered p N (w.deposit p a value) (if a ∈ l then l else l ++ [a]) := by
  have hstake (b : Address) (hb : b ≠ a) : (w.deposit p a value).stake p b = w.stake p b := by
    rw [Accounts.stake, deposit_staking hp, Function.update_of_ne (addressKey_ne hb)]
  have hself : (w.deposit p a value).stake p a ≠ 0 := by
    rw [Accounts.stake, deposit_staking hp, Function.update_self]
    exact bigToHash_ne_zero hlt (by omega)
  by_cases hal : a ∈ l
  · rw [if_pos hal]
    refine ⟨?_, h.spread, fun b => ?_⟩
    · rw [deposit_validators hp, if_neg (h.layout.pointer_ne_zero h.spread hal)]
      exact h.layout
    · by_cases hb : b = a
      · subst hb
        exact iff_of_true hal hself
      · rw [h.staked b, hstake b hb]
  · rw [if_neg hal]
    have hcount : (w.slot p 0).toNat = l.length := by
      have hlt' := a.isLt
      rw [Accounts.slot, h.layout.count, toNat_bigToHash (by omega)]
    refine ⟨?_, ⟨?_, ?_, ?_⟩, fun b => ?_⟩
    · rw [deposit_validators hp, if_pos (h.layout.pointer_eq_zero h.spread ha hal), hcount]
      exact h.layout.append h.spread hlen ha hal
    · exact List.nodup_append.mpr ⟨h.spread.nodup, List.nodup_singleton a, by
        rintro b hb c hc rfl
        exact hal (List.mem_singleton.mp hc ▸ hb)⟩
    · rw [List.length_append, List.length_singleton]
      exact hlen
    · intro b hb
      rcases List.mem_append.mp hb with hb | hb
      · exact h.spread.high b hb
      · rwa [List.mem_singleton.mp hb]
    · by_cases hb : b = a
      · subst hb
        exact iff_of_true (by simp) hself
      · rw [hstake b hb, ← h.staked b, List.mem_append, List.mem_singleton, or_iff_left hb]

theorem Registered.removeValidator (h : Registered p N w l) (hp : p.stakingAddr ≠ p.validatorAddr)
    (ha : a ∈ l) : ∃ l', Registered p N (w.removeValidator p (addressKey a)) l' ∧
      l'.length ≤ l.length ∧ ∀ b, b ∈ l' ↔ b ∈ l ∧ b ≠ a := by
  obtain ⟨i, hi⟩ := List.mem_iff_getElem?.mp ha
  obtain ⟨init, z, rfl⟩ : ∃ init z, l = init ++ [z] :=
    ⟨l.dropLast, l.getLast (List.ne_nil_of_mem ha), (List.dropLast_append_getLast _).symm⟩
  have hmem := mem_set_last h.spread.nodup hi
  refine ⟨init.set i z, ⟨?_, h.spread.set_last hi, fun b => ?_⟩, by simp, hmem⟩
  · rw [removeValidator_validators hp]
    exact h.layout.pop h.spread hi
  · have hstake : (w.removeValidator p (addressKey a)).stake p b =
        Function.update (w.storage p.stakingAddr) (addressKey a) 0 (addressKey b) :=
      congrFun (removeValidator_staking hp (addressKey a)) (addressKey b)
    rw [hmem b, h.staked b, hstake]
    by_cases hb : b = a
    · simp [hb]
    · rw [Function.update_of_ne (addressKey_ne hb), and_iff_left hb]

theorem Registered.unstake (h : Registered p N w l) (hp : p.stakingAddr ≠ p.validatorAddr) (a : Address) :
    ∃ l', Registered p N (w.unstake p a) l' ∧ l'.length ≤ l.length ∧ l' ⊆ l := by
  unfold Accounts.unstake
  split
  next => exact ⟨l, h, le_rfl, fun _ hb => hb⟩
  next hstored =>
    split
    next => exact ⟨l, h, le_rfl, fun _ hb => hb⟩
    next =>
      have hmoved : Registered p N (w.transfer p.stakingAddr a (w.stake p a)) l := h.congr rfl
      obtain ⟨l', hl', hlen, hmem⟩ := hmoved.removeValidator hp ((h.staked a).mpr hstored)
      exact ⟨l', hl', hlen, fun b hb => ((hmem b).mp hb).1⟩

theorem Registered.stakingContract (h : Registered p N w l) (hp : p.stakingAddr ≠ p.validatorAddr)
    {value : ℕ} (hlt : value < 2 ^ 256) (hlen : 0 < value → l.length < N) (ha : N < a.toNat) (data : Bytes) :
    ∃ l', Registered p N (w.stakingContract p a value data) l' ∧
      l'.length ≤ l.length + (if value > 0 then 1 else 0) ∧ ∀ b ∈ l', b = a ∨ b ∈ l := by
  obtain ⟨l₁, h₁, hlen₁, hmem₁⟩ : ∃ l₁, Registered p N
      (if value > 0 then w.deposit p a value else w) l₁ ∧
        l₁.length ≤ l.length + (if value > 0 then 1 else 0) ∧ ∀ b ∈ l₁, b = a ∨ b ∈ l := by
    by_cases hpos : value > 0
    · rw [if_pos hpos, if_pos hpos]
      refine ⟨_, h.deposit hp hpos hlt (hlen hpos) ha, ?_, ?_⟩
      · split <;> simp
      · intro b hb
        split at hb
        · exact Or.inr hb
        · simpa [or_comm] using hb
    · rw [if_neg hpos]
      exact ⟨l, h, by omega, fun b hb => Or.inr hb⟩
  unfold Accounts.stakingContract
  simp only
  by_cases hd : data = unstakePayload
  · rw [if_pos hd]
    obtain ⟨l₂, h₂, hlen₂, hsub⟩ := h₁.unstake hp a
    exact ⟨l₂, h₂, hlen₂.trans hlen₁, fun b hb => hmem₁ b (hsub hb)⟩
  · rw [if_neg hd]
    exact ⟨l₁, h₁, hlen₁, hmem₁⟩

end Registered

end Zephyria
