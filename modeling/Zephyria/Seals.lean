import Zephyria.Zelius

namespace Zephyria

/-- The key an engine was given. `crypto.Sign` refuses a key that is zero or too large, whatever it is
asked to sign. -/
inductive SigningKey where
  | missing
  | refused
  | accepted
deriving DecidableEq

inductive SealError where
  | readonly
  | sign
deriving DecidableEq

namespace ZeliusEngine

def sealWith (S : Sealing) (key : SigningKey) (b : Block) : Except SealError Block :=
  match key with
  | .missing => .error .readonly
  | .refused => .error .sign
  | .accepted => .ok (sealBlock S b)

theorem sealWith_ok_iff {S : Sealing} {key : SigningKey} {b b' : Block} :
    sealWith S key b = .ok b' ↔ key = .accepted ∧ sealBlock S b = b' := by
  cases key with
  | missing => simp [sealWith]
  | refused => simp [sealWith]
  | accepted => simp [sealWith]

def Accepts (e : ZeliusEngine) (K : Keccak256) (S : Sealing) (b : Block) : Prop :=
  ∃ e', e.verify K S b = some (.ok (), e')

section Accepts

variable (e : ZeliusEngine) (K : Keccak256) (S : Sealing) (b : Block)

theorem accepts_iff : e.Accepts K S b ↔ 65 ≤ b.header.extraData.length ∧
    ∃ signer e', S.sigToPub (S.headerHash { b.header with
        extraData := b.header.extraData.take (b.header.extraData.length - 65) })
      (b.header.extraData.drop (b.header.extraData.length - 65)) = some signer ∧
      e.getLeader K (UInt64.ofNat b.header.number) = some (signer, e') := by
  constructor
  · rintro ⟨e', h⟩
    obtain ⟨hlen, signer, hsigner, hleader⟩ := verify_ok_iff.mp h
    exact ⟨hlen, signer, e', hsigner, hleader⟩
  · rintro ⟨hlen, signer, e', hsigner, hleader⟩
    exact ⟨e', verify_ok_iff.mpr ⟨hlen, signer, hsigner, hleader⟩⟩

theorem accepts_congr {b b' : Block} (h : b.header = b'.header) (hb : e.Accepts K S b) : e.Accepts K S b' := by
  rw [accepts_iff] at hb ⊢
  rwa [← h]

end Accepts

end ZeliusEngine

section Binding

variable (e : ZeliusEngine) (K : Keccak256) (S : Sealing)

def SealBinds (b : Block) : Prop :=
  ∀ b' : Block, b'.header = b.header → e.Accepts K S b' → b'.transactions = b.transactions

def HashBinds (b : Block) : Prop :=
  ∀ b' : Block, S.headerHash b'.header = S.headerHash b.header → b'.transactions = b.transactions

theorem exists_other_transactions (txs : List Transaction) : ∃ txs' : List Transaction, txs' ≠ txs := by
  refine ⟨⟨0, .legacy, 0, none, 0, 0, 0, 0, none, 0, [], [], 0, 0, 0, 0, by simp⟩ :: txs, ?_⟩
  intro h
  simpa using congrArg List.length h

theorem seal_binds_iff {b b' : Block} {key : SigningKey} (h : ZeliusEngine.sealWith S key b = .ok b') :
    (SealBinds e K S b' ↔ ¬e.Accepts K S b') ∧ ¬HashBinds S b' ∧ b'.transactions = b.transactions := by
  obtain ⟨txs, hne⟩ := exists_other_transactions b'.transactions
  refine ⟨⟨fun hbinds haccepts => ?_, fun hrejects x hx haccepts => ?_⟩, fun hbinds => ?_, ?_⟩
  · apply hne
    exact hbinds ⟨b'.header, txs⟩ rfl (e.accepts_congr K S rfl haccepts)
  · exact absurd (e.accepts_congr K S hx haccepts) hrejects
  · apply hne
    exact hbinds ⟨b'.header, txs⟩ rfl
  · obtain ⟨-, rfl⟩ := ZeliusEngine.sealWith_ok_iff.mp h
    rfl

end Binding

section Agreement

variable {e e' : ZeliusEngine} {K : Keccak256} {S : Sealing} {own : Address} {b b' : Block}

theorem sealed_extraData (hsign : ∀ hash, (S.sign hash).length = 65) :
    (sealBlock S b).header.extraData.length = b.header.extraData.length + 65 := by
  change (b.header.extraData ++ S.sign _).length = _
  rw [List.length_append, hsign]

theorem accepts_sealBlock_iff (hsign : ∀ hash, (S.sign hash).length = 65)
    (hleader : e.getLeader K (UInt64.ofNat b.header.number) = some (own, e')) :
    e.Accepts K S (sealBlock S b) ↔ S.sigToPub (S.headerHash b.header)
      (S.sign (S.headerHash { b.header with extraData := [] })) = some own := by
  have hextra : (sealBlock S b).header.extraData =
      b.header.extraData ++ S.sign (S.headerHash { b.header with extraData := [] }) := rfl
  have hcut : (sealBlock S b).header.extraData.length - 65 = b.header.extraData.length := by
    rw [sealed_extraData hsign, Nat.add_sub_cancel]
  have htake : (sealBlock S b).header.extraData.take ((sealBlock S b).header.extraData.length - 65) =
      b.header.extraData := by
    rw [hcut, hextra, List.take_left]
  have hdrop : (sealBlock S b).header.extraData.drop ((sealBlock S b).header.extraData.length - 65) =
      S.sign (S.headerHash { b.header with extraData := [] }) := by
    rw [hcut, hextra, List.drop_left]
  rw [ZeliusEngine.accepts_iff, htake, hdrop]
  constructor
  · rintro ⟨-, signer, e'', hsigner, hleader'⟩
    obtain ⟨rfl, -⟩ := Prod.mk.inj (Option.some.inj (hleader.symm.trans hleader'))
    exact hsigner
  · intro hsigner
    exact ⟨by rw [sealed_extraData hsign]; omega, own, e', hsigner, hleader⟩

/-- The leader's seal is verified exactly when there was no extra data before it: `Seal` hashes the
header without any, `Verify` without the signature only. -/
theorem seal_verify_iff (hsign : ∀ hash, (S.sign hash).length = 65)
    (hrecover : ∀ hash, S.sigToPub hash (S.sign hash) = some own)
    (hother : ∀ hash hash', hash ≠ hash' → S.sigToPub hash' (S.sign hash) ≠ some own)
    (hcollide : S.headerHash b.header = S.headerHash { b.header with extraData := [] } →
      b.header.extraData = [])
    {key : SigningKey} (hseal : ZeliusEngine.sealWith S key b = .ok b')
    (hleader : e.getLeader K (UInt64.ofNat b.header.number) = some (own, e')) :
    (e.Accepts K S b' ∧ ∃ sig, sig.length = 65 ∧ b'.header.extraData = b.header.extraData ++ sig) ↔
      b.header.extraData = [] := by
  obtain ⟨-, rfl⟩ := ZeliusEngine.sealWith_ok_iff.mp hseal
  rw [accepts_sealBlock_iff hsign hleader]
  constructor
  · rintro ⟨hsigner, -⟩
    apply hcollide
    by_contra hne
    exact hother _ _ (Ne.symm hne) hsigner
  · intro hnil
    refine ⟨?_, _, hsign _, rfl⟩
    have hsame : { b.header with extraData := [] } = b.header := by rw [← hnil]
    rw [hsame]
    exact hrecover _

end Agreement

section Sample

def keyedSealing : Sealing where
  headerHash header := bigToHash header.extraData.length
  sigToPub hash sig := if sig.take 32 = hashBytes hash then some defaultAccount else none
  sign hash := hashBytes hash ++ List.replicate 33 0

theorem length_hashBytes (hash : Hash) : (hashBytes hash).length = 32 := BigEndian.fixed_length 32 _

theorem keyedSealing_length (hash : Hash) : (keyedSealing.sign hash).length = 65 := by
  change (hashBytes hash ++ List.replicate 33 0).length = 65
  rw [List.length_append, length_hashBytes, List.length_replicate]

theorem keyedSealing_take (hash : Hash) : (keyedSealing.sign hash).take 32 = hashBytes hash := by
  rw [← length_hashBytes hash]
  exact List.take_left

theorem keyedSealing_sigToPub (hash : Hash) (sig : Bytes) : keyedSealing.sigToPub hash sig =
    if sig.take 32 = hashBytes hash then some defaultAccount else none := rfl

theorem keyedSealing_recover (hash : Hash) :
    keyedSealing.sigToPub hash (keyedSealing.sign hash) = some defaultAccount := by
  rw [keyedSealing_sigToPub, if_pos (keyedSealing_take hash)]

theorem keyedSealing_other (hash hash' : Hash) (h : hash ≠ hash') :
    keyedSealing.sigToPub hash' (keyedSealing.sign hash) ≠ some defaultAccount := by
  rw [keyedSealing_sigToPub, keyedSealing_take, if_neg fun heq => h (hashBytes_injective heq)]
  simp

def blankBlock (extraData : Bytes) : Block where
  header :=
    { parentHash := 0, number := 1, time := 0, verkleRoot := 0, txHash := 0, coinbase := 0,
      extraData := extraData, difficulty := 1, gasLimit := 60000000, gasUsed := 0, baseFee := some 1 }
  transactions := []

theorem getLeader_sample (view : UInt64) :
    ∃ e', (newZelius [⟨defaultAccount, 1⟩]).getLeader .ideal view = some (defaultAccount, e') :=
  ZeliusEngine.getLeader_lone .ideal (v := ⟨defaultAccount, 1⟩) one_ne_zero view

theorem accepts_plain_seal : (newZelius [⟨defaultAccount, 1⟩]).Accepts .ideal keyedSealing
    (sealBlock keyedSealing (blankBlock [])) := by
  obtain ⟨e', hleader⟩ := getLeader_sample 1
  rw [ZeliusEngine.accepts_iff]
  refine ⟨by decide, defaultAccount, e', ?_, hleader⟩
  exact keyedSealing_recover _

theorem plain_seal_binds_nothing : ¬SealBinds (newZelius [⟨defaultAccount, 1⟩]) .ideal keyedSealing
    (sealBlock keyedSealing (blankBlock [])) := by
  obtain ⟨hbinds, -⟩ := seal_binds_iff (newZelius [⟨defaultAccount, 1⟩]) .ideal keyedSealing
    (show ZeliusEngine.sealWith keyedSealing .accepted (blankBlock []) = .ok _ from rfl)
  exact fun h => hbinds.mp h accepts_plain_seal

theorem body_swapped : ∃ b b' : Block, ZeliusEngine.sealWith keyedSealing .accepted (blankBlock []) = .ok b ∧
    b'.header = b.header ∧ keyedSealing.headerHash b'.header = keyedSealing.headerHash b.header ∧
    (newZelius [⟨defaultAccount, 1⟩]).Accepts .ideal keyedSealing b' ∧ b'.transactions ≠ b.transactions := by
  obtain ⟨txs, hne⟩ := exists_other_transactions []
  refine ⟨sealBlock keyedSealing (blankBlock []), ⟨(sealBlock keyedSealing (blankBlock [])).header, txs⟩,
    rfl, rfl, rfl, ?_, hne⟩
  exact ZeliusEngine.accepts_congr (b := sealBlock keyedSealing (blankBlock [])) _ _ _ rfl
    accepts_plain_seal

theorem plain_seal_verified : (newZelius [⟨defaultAccount, 1⟩]).Accepts .ideal keyedSealing
    (sealBlock keyedSealing (blankBlock [])) := by
  obtain ⟨e', hleader⟩ := getLeader_sample 1
  exact ((seal_verify_iff keyedSealing_length keyedSealing_recover keyedSealing_other (fun _ => rfl)
    (show ZeliusEngine.sealWith keyedSealing .accepted (blankBlock []) = .ok _ from rfl) hleader).mpr rfl).1

theorem extra_data_spoils_seal : ∃ b e', ZeliusEngine.sealWith keyedSealing .accepted (blankBlock [7]) = .ok b ∧
    (newZelius [⟨defaultAccount, 1⟩]).getLeader .ideal 1 = some (defaultAccount, e') ∧
    ¬(newZelius [⟨defaultAccount, 1⟩]).Accepts .ideal keyedSealing b := by
  obtain ⟨e', hleader⟩ := getLeader_sample 1
  refine ⟨_, e', rfl, hleader, fun haccepts => ?_⟩
  rw [ZeliusEngine.accepts_iff] at haccepts
  obtain ⟨-, signer, e'', hsigner, hleader'⟩ := haccepts
  obtain ⟨rfl, -⟩ := Prod.mk.inj (Option.some.inj (hleader.symm.trans hleader'))
  exact absurd hsigner (by decide +kernel)

end Sample

end Zephyria
