import Zephyria.Transfers

namespace Zephyria

structure CallArgs where
  fromAddr : Option Address
  toAddr : Option Address
  gas : Option UInt64
  gasPrice : Option ℕ
  maxFeePerGas : Option ℕ
  maxPriorityFeePerGas : Option ℕ
  value : Option ℕ
  data : Option Bytes
  input : Option Bytes
  nonce : Option UInt64
  accessList : Option (List (Address × List Hash))

structure CallMessage where
  fromAddr : Address
  toAddr : Option Address
  nonce : UInt64
  gasLimit : UInt64
  value : ℕ
  gasPrice : Option ℕ
  gasFeeCap : Option ℕ
  gasTipCap : Option ℕ
  data : Bytes
  accessList : List (Address × List Hash)

def gwei : ℕ := 1_000_000_000

namespace CallArgs

variable (args : CallArgs)

def fees (baseFee : Option ℕ) : Option ℕ × Option ℕ × Option ℕ :=
  match args.gasPrice, baseFee with
  | some gasPrice, _ => (some gasPrice, some gasPrice, some gasPrice)
  | none, some fee =>
    let gasFeeCap := args.maxFeePerGas.getD (fee + gwei)
    let gasTipCap := args.maxPriorityFeePerGas.getD gwei
    (some gasFeeCap, some gasFeeCap, some gasTipCap)
  | none, none => (some 0, none, none)

def toMessage (globalGasCap : UInt64) (baseFee : Option ℕ) : CallMessage where
  fromAddr := args.fromAddr.getD 0
  toAddr := args.toAddr
  nonce := args.nonce.getD 0
  gasLimit :=
    let gas := args.gas.getD 0
    if gas = 0 then globalGasCap else gas
  value := args.value.getD 0
  gasPrice := (args.fees baseFee).1
  gasFeeCap := (args.fees baseFee).2.1
  gasTipCap := (args.fees baseFee).2.2
  data := (args.data.or args.input).getD []
  accessList := args.accessList.getD []

end CallArgs

def CallMessage.deref (msg : CallMessage) : Option Message := do
  let gasPrice ← msg.gasPrice
  let gasFeeCap ← msg.gasFeeCap
  let gasTipCap ← msg.gasTipCap
  pure
    { fromAddr := msg.fromAddr, toAddr := msg.toAddr, nonce := msg.nonce, gasLimit := msg.gasLimit,
      value := msg.value, gasPrice, gasFeeCap, gasTipCap, data := msg.data, accessList := msg.accessList,
      blobHashes := none }

def callContext (header : Header) (codes : Hash → Option Bytes) : BlockContext where
  coinbase := header.coinbase
  blockNumber := header.number
  time := header.time
  difficulty := header.difficulty
  gasLimit := header.gasLimit
  baseFee := header.baseFee
  getHash _ := 0
  codes := codes

def returned : Except MessageError ExecutionResult → Option (Except MessageError ExecutionResult)
  | .error err => if err.panics then none else some (.error err)
  | .ok res => some (.ok res)

/-- The checks of the vendored transition dereference a nil cap once the nonce and the sender have
passed. -/
def applyCallMessage (K : Keccak256) (I : Interpreter) (ctx : BlockContext) (gasPool : ℕ) (msg : CallMessage) :
    StateM (Option (Except MessageError ExecutionResult)) :=
  match msg.deref with
  | some msg => do
    let res ← applyMessage K I ctx gasPool msg
    pure (returned res)
  | none => do
    let stNonce ← getNonce K msg.fromAddr
    let code ← getCode K ctx.codes msg.fromAddr
    pure (((checkNonce stNonce msg.nonce).or (checkSender code)).map .error)

def Executor.call (e : Executor) (codes : Hash → Option Bytes) (statedb : StateDB) (header : Header)
    (msg : CallMessage) : Option (Except MessageError ExecutionResult) :=
  (StateDB.exec (applyCallMessage e.keccak e.interpreter (callContext header codes) header.gasLimit.toNat msg)
    statedb.newOverlay).1

def ethCall (e : Executor) (codes : Hash → Option Bytes) (statedb : StateDB) (header : Header) (args : CallArgs) :
    Option (Except MessageError ExecutionResult) :=
  let msg := args.toMessage header.gasLimit header.baseFee
  let nonce := args.nonce.getD (StateDB.exec (getNonce e.keccak msg.fromAddr) statedb).1
  e.call codes statedb header { msg with nonce := nonce }

def CallArgs.NoFees (args : CallArgs) : Prop :=
  args.gasPrice = none ∧ args.maxFeePerGas = none ∧ args.maxPriorityFeePerGas = none

def CallArgs.Ordered (args : CallArgs) : Prop :=
  ∀ cap ∈ args.maxFeePerGas, ∀ tip ∈ args.maxPriorityFeePerGas, tip ≤ cap

structure CallMessage.WellFormed (args : CallArgs) (baseFee : Option ℕ) (msg : CallMessage) : Prop where
  gasPrice : msg.gasPrice ≠ none
  caps : ∃ cap tip, msg.gasFeeCap = some cap ∧ msg.gasTipCap = some tip ∧ tip ≤ cap
  covered : args.NoFees → ∀ fee ∈ baseFee, ∀ cap ∈ msg.gasFeeCap, fee ≤ cap

/-- Whatever the transition makes of the message, it does not come to grief over the fees that
`ToMessage` chose. -/
structure FeesServe (e : Executor) (codes : Hash → Option Bytes) (statedb : StateDB) (header : Header)
    (args : CallArgs) : Prop where
  returns : ethCall e codes statedb header args ≠ none
  tip : ethCall e codes statedb header args ≠ some (.error .tipAboveFeeCap)
  cap : args.NoFees → ethCall e codes statedb header args ≠ some (.error .feeCapTooLow)

def CallArgs.DefaultsFit (args : CallArgs) (baseFee : Option ℕ) : Prop :=
  args.gasPrice ≠ none ∨ ∃ fee ∈ baseFee,
    (∀ cap ∈ args.maxFeePerGas, args.maxPriorityFeePerGas = none → gwei ≤ cap) ∧
      (∀ tip ∈ args.maxPriorityFeePerGas, args.maxFeePerGas = none → tip ≤ fee + gwei)

section Fees

variable {args : CallArgs} (globalGasCap : UInt64)

theorem wellFormed_of_gasPrice {price : ℕ} (h : args.gasPrice = some price) (baseFee : Option ℕ) :
    (args.toMessage globalGasCap baseFee).WellFormed args baseFee := by
  have hfees : args.fees baseFee = (some price, some price, some price) := by simp [CallArgs.fees, h]
  refine ⟨?_, ⟨price, price, ?_, ?_, le_rfl⟩, fun hnone => ?_⟩
  · simp [CallArgs.toMessage, hfees]
  · simp [CallArgs.toMessage, hfees]
  · simp [CallArgs.toMessage, hfees]
  · simp [hnone.1] at h

theorem not_wellFormed_of_nil (h : args.gasPrice = none) :
    ¬(args.toMessage globalGasCap none).WellFormed args none := by
  rintro ⟨-, ⟨cap, tip, hcap, -⟩, -⟩
  simp [CallArgs.toMessage, CallArgs.fees, h] at hcap

theorem wellFormed_of_baseFee_iff (h : args.gasPrice = none) (fee : ℕ) :
    (args.toMessage globalGasCap (some fee)).WellFormed args (some fee) ↔
      args.maxPriorityFeePerGas.getD gwei ≤ args.maxFeePerGas.getD (fee + gwei) := by
  have hfees : args.fees (some fee) = (some (args.maxFeePerGas.getD (fee + gwei)),
      some (args.maxFeePerGas.getD (fee + gwei)), some (args.maxPriorityFeePerGas.getD gwei)) := by
    simp [CallArgs.fees, h]
  constructor
  · rintro ⟨-, ⟨cap, tip, hcap, htip, hle⟩, -⟩
    simp only [CallArgs.toMessage, hfees, Option.some.injEq] at hcap htip
    rwa [hcap, htip]
  · intro hle
    refine ⟨?_, ⟨_, _, ?_, ?_, hle⟩, ?_⟩
    · simp [CallArgs.toMessage, hfees]
    · simp [CallArgs.toMessage, hfees]
    · simp [CallArgs.toMessage, hfees]
    · rintro ⟨-, hcap, -⟩
      simp [CallArgs.toMessage, hfees, hcap]

theorem defaults_le_iff (hordered : args.Ordered) (fee : ℕ) :
    args.maxPriorityFeePerGas.getD gwei ≤ args.maxFeePerGas.getD (fee + gwei) ↔
      (∀ cap ∈ args.maxFeePerGas, args.maxPriorityFeePerGas = none → gwei ≤ cap) ∧
        (∀ tip ∈ args.maxPriorityFeePerGas, args.maxFeePerGas = none → tip ≤ fee + gwei) := by
  unfold CallArgs.Ordered at hordered
  cases hcap : args.maxFeePerGas <;> cases htip : args.maxPriorityFeePerGas <;> simp_all

theorem wellFormed_iff (hordered : args.Ordered) (baseFee : Option ℕ) :
    (args.toMessage globalGasCap baseFee).WellFormed args baseFee ↔ args.DefaultsFit baseFee := by
  unfold CallArgs.DefaultsFit
  cases hprice : args.gasPrice with
  | some price => exact iff_of_true (wellFormed_of_gasPrice globalGasCap hprice baseFee) (Or.inl (by simp))
  | none =>
    cases baseFee with
    | none =>
      apply iff_of_false (not_wellFormed_of_nil globalGasCap hprice)
      simp
    | some fee =>
      rw [wellFormed_of_baseFee_iff globalGasCap hprice, defaults_le_iff hordered]
      simp

end Fees

section Transition

variable {K : Keccak256} {I : Interpreter} (ctx : BlockContext) {m : Bytes → Bytes} {err : MessageError}

theorem ite_error_ne {c : Prop} [Decidable c] {other : MessageError} (h : other ≠ err) :
    (if c then some other else none) ≠ some err := by
  split
  · simpa using h
  · simp

theorem denote_applyMessage_ne {gasPool : ℕ} {msg : Message} (hfees : checkFees ctx.baseFee msg ≠ some err)
    (hblobs : msg.blobHashes = none) (herr : err.aboutFees) :
    ((applyMessage K I ctx gasPool msg).denote m).1 ≠ .error err := by
  have halways : overlayBuffer.Always (fun _ _ => True) (fun a _ => ∀ other, a = .error other → other ≠ err)
      (applyMessage K I ctx gasPool msg) overlayBuffer.fresh := by
    apply always_applyMessage_error
    · rintro other hother rfl
      rw [hother] at herr
      cases herr
    · rintro other hother rfl
      exact hfees hother
    · rw [checkBlobs_eq_none.mpr hblobs]
      exact nofun
  intro heq
  rw [← (overlayBuffer.run_fresh m _).1] at heq
  exact overlayBuffer.always_run m (fun _ => trivial) halways err heq rfl

theorem checkFees_ne_tip {baseFee : Option ℕ} {msg : Message} (h : msg.gasTipCap ≤ msg.gasFeeCap) :
    checkFees baseFee msg ≠ some .tipAboveFeeCap := by
  unfold checkFees
  rw [if_neg (Nat.not_lt.mpr h)]
  split_ifs
  · simp
  · simp
  · split
    · simp
    · exact ite_error_ne (by simp)

theorem checkFees_ne_cap {baseFee : Option ℕ} {msg : Message} (h : ∀ fee ∈ baseFee, fee ≤ msg.gasFeeCap) :
    checkFees baseFee msg ≠ some .feeCapTooLow := by
  unfold checkFees
  split_ifs
  · simp
  · simp
  · simp
  · cases baseFee with
    | none => simp
    | some fee => simp [h fee rfl]

end Transition

section Simulation

variable {args : CallArgs} {header : Header} {e : Executor} {codes : Hash → Option Bytes} {statedb : StateDB}

theorem call_of_deref {msg : CallMessage} {full : Message} (h : msg.deref = some full) :
    e.call codes statedb header msg = returned ((applyMessage e.keccak e.interpreter (callContext header codes)
      header.gasLimit.toNat full).denote statedb.newOverlay.getVerkleValue).1 := by
  rw [Executor.call, (StateDB.exec_denote _ _).1, applyCallMessage, h]
  simp only [Prog.denote_bind, Prog.denote_pure]

theorem returned_eq_error {res : Except MessageError ExecutionResult} {err : MessageError}
    (h : returned res = some (.error err)) : res = .error err := by
  cases res with
  | ok res => cases h
  | error other =>
    by_cases hpanics : other.panics
    · rw [returned, if_pos hpanics] at h
      cases h
    · rw [returned, if_neg hpanics] at h
      exact Option.some.inj h

theorem returned_eq_none {res : Except MessageError ExecutionResult} (h : returned res = none) :
    ∃ err, err.panics ∧ res = .error err := by
  cases res with
  | ok res => cases h
  | error err =>
    by_cases hpanics : err.panics
    · exact ⟨err, hpanics, rfl⟩
    · rw [returned, if_neg hpanics] at h
      cases h

theorem CallMessage.WellFormed.deref {baseFee : Option ℕ} {msg : CallMessage} (h : msg.WellFormed args baseFee)
    (nonce : UInt64) : ∃ full, ({ msg with nonce := nonce } : CallMessage).deref = some full ∧
      full.blobHashes = none ∧ full.gasTipCap ≤ full.gasFeeCap ∧
      (args.NoFees → ∀ fee ∈ baseFee, fee ≤ full.gasFeeCap) := by
  obtain ⟨price, hprice⟩ := Option.ne_none_iff_exists'.mp h.gasPrice
  obtain ⟨cap, tip, hcap, htip, hle⟩ := h.caps
  have hcovered := h.covered
  refine ⟨_, by simp [CallMessage.deref, hprice, hcap, htip]; rfl, rfl, hle, fun hnone fee hfee => ?_⟩
  exact hcovered hnone fee hfee cap hcap

theorem feesServe_of_wellFormed {fee : ℕ} (hfee : header.baseFee = some fee)
    (h : (args.toMessage header.gasLimit header.baseFee).WellFormed args header.baseFee) :
    FeesServe e codes statedb header args := by
  obtain ⟨full, hderef, hblobs, htip, hcap⟩ := h.deref (args.nonce.getD
    (StateDB.exec (getNonce e.keccak (args.toMessage header.gasLimit header.baseFee).fromAddr) statedb).1)
  have hcall : ethCall e codes statedb header args = _ := call_of_deref hderef
  have hne (err : MessageError) (hfees : checkFees header.baseFee full ≠ some err) (herr : err.aboutFees) :
      ethCall e codes statedb header args ≠ some (.error err) := by
    rw [hcall]
    intro heq
    exact denote_applyMessage_ne (callContext header codes) hfees hblobs herr (returned_eq_error heq)
  refine ⟨?_, hne _ (checkFees_ne_tip htip) rfl, fun hnone => hne _ (checkFees_ne_cap (hcap hnone)) rfl⟩
  rw [hcall]
  intro heq
  obtain ⟨err, hpanics, hres⟩ := returned_eq_none heq
  refine denote_applyMessage_ne (callContext header codes) ?_ hblobs (by simp [MessageError.aboutFees, hpanics]) hres
  intro hcheck
  rw [checkFees_panics (show header.baseFee ≠ none by simp [hfee]) hcheck] at hpanics
  cases hpanics

def SimulationSafe (args : CallArgs) (header : Header) : Prop :=
  (args.toMessage header.gasLimit header.baseFee).WellFormed args header.baseFee ∧
    ∀ e codes statedb, FeesServe e codes statedb header args

/-- Without a base fee the message may be well formed, but the checks dereference the missing fee. -/
theorem simulation_safe_iff (args : CallArgs) (hordered : args.Ordered) (header : Header) :
    ((args.toMessage header.gasLimit header.baseFee).WellFormed args header.baseFee ↔
      args.DefaultsFit header.baseFee) ∧
    (header.baseFee ≠ none → (SimulationSafe args header ↔ args.DefaultsFit header.baseFee)) := by
  have hmessage := wellFormed_iff header.gasLimit hordered header.baseFee
  refine ⟨hmessage, fun hbase => ⟨fun h => hmessage.mp h.1, fun h => ?_⟩⟩
  obtain ⟨fee, hfee⟩ := Option.ne_none_iff_exists'.mp hbase
  exact ⟨hmessage.mpr h, fun e codes statedb => feesServe_of_wellFormed hfee (hmessage.mpr h)⟩

def plainCall : CallArgs where
  fromAddr := none
  toAddr := some 0x10
  gas := none
  gasPrice := none
  maxFeePerGas := none
  maxPriorityFeePerGas := none
  value := none
  data := none
  input := none
  nonce := none
  accessList := none

def genesisHeader (network : Network) : Header := (generateGenesisBlock (getNetworkConfig network)).header

def pricedHeader : Header := { genesisHeader .simulation with number := 1, baseFee := some gwei }

theorem simulation_safe_low_cap :
    SimulationSafe { plainCall with maxFeePerGas := some 2_000_000_000 } pricedHeader ∧
      SimulationSafe { plainCall with gasPrice := some 1 } pricedHeader := by
  constructor
  · refine ((simulation_safe_iff _ ?_ _).2 (by simp [pricedHeader])).mpr (Or.inr ⟨gwei, rfl, ?_, ?_⟩)
    · intro cap _ tip htip
      cases htip
    · intro cap hcap _
      obtain rfl : 2_000_000_000 = cap := Option.some.inj hcap
      decide
    · intro tip htip
      cases htip
  · refine ((simulation_safe_iff _ ?_ _).2 (by simp [pricedHeader])).mpr (Or.inl (by simp))
    intro cap hcap
    cases hcap

theorem defaults_spoil_calls :
    (plainCall.Ordered ∧ ¬SimulationSafe plainCall (genesisHeader .simulation)) ∧
      (({ plainCall with gasPrice := some 1 } : CallArgs).Ordered ∧
        ¬SimulationSafe { plainCall with gasPrice := some 1 } (genesisHeader .simulation)) ∧
      (({ plainCall with maxFeePerGas := some 1 } : CallArgs).Ordered ∧
        ¬SimulationSafe { plainCall with maxFeePerGas := some 1 } pricedHeader) ∧
      (({ plainCall with maxPriorityFeePerGas := some 3_000_000_000 } : CallArgs).Ordered ∧
        ¬SimulationSafe { plainCall with maxPriorityFeePerGas := some 3_000_000_000 } pricedHeader) := by
  unfold CallArgs.Ordered
  refine ⟨⟨by simp [plainCall], fun h => ?_⟩, ⟨by simp [plainCall], fun h => ?_⟩, ⟨by simp [plainCall], fun h => ?_⟩,
    by simp [plainCall], fun h => ?_⟩
  · have hcall : ethCall .ideal (fun _ => none) (.new .empty) (genesisHeader .simulation) plainCall = none := by
      decide +kernel
    exact (h.2 _ _ _).returns hcall
  · have hcall : ethCall .ideal (fun _ => none) (.new .empty) (genesisHeader .simulation)
        { plainCall with gasPrice := some 1 } = none := by decide +kernel
    exact (h.2 _ _ _).returns hcall
  · have hcall : ethCall .ideal (fun _ => none) (.new .empty) pricedHeader
        { plainCall with maxFeePerGas := some 1 } = some (.error .tipAboveFeeCap) := by decide +kernel
    exact (h.2 _ _ _).tip hcall
  · have hcall : ethCall .ideal (fun _ => none) (.new .empty) pricedHeader
        { plainCall with maxPriorityFeePerGas := some 3_000_000_000 } = some (.error .tipAboveFeeCap) := by
      decide +kernel
    exact (h.2 _ _ _).tip hcall

end Simulation

end Zephyria
