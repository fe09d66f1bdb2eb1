import Zephyria.KeySpaces

namespace Zephyria

inductive PutSite where
  | body
  | receipts
  | lookup (index : ℕ)
  | head
  | canonical
deriving DecidableEq

inductive AddError where
  | blockKnown
  | put
deriving DecidableEq

section Model

variable (S : Sealing) (fails : PutSite → Bool)

def tryTxLookupEntries (b : Block) (db : Database) : List (Transaction × ℕ) → Bool × Database
  | [] => (true, db)
  | t :: rest =>
    if fails (.lookup t.2) then (false, db)
    else
      tryTxLookupEntries b (db.put (txLookupPrefix :: hashBytes t.1.hash) (.lookup (lookupEntry S b t.2))) rest

def Blockchain.tryIndexBlock (bc : Blockchain) (b : Block) (db : Database) : Except AddError Unit × Blockchain :=
  let hash := S.headerHash b.header
  let (indexed, db) := tryTxLookupEntries S fails b db b.transactions.zipIdx
  if indexed then
    -- Nobody looks at the errors of the last two writes.
    let bc : Blockchain :=
      if bc.isNewer b then ⟨if fails .head then db else db.writeHeadBlockHash hash, some b⟩
      else { bc with db := db }
    (.ok (), { bc with
      db := if fails .canonical then bc.db
        else bc.db.writeCanonicalHash (UInt64.ofNat b.header.number) hash })
  else (.error .put, { bc with db := db })

/-- `AddBlock` with the chain it leaves behind when it returns an error. -/
def Blockchain.tryAddBlock (bc : Blockchain) (b : Block) (receipts : Option (List Receipt)) :
    Except AddError Unit × Blockchain :=
  let hash := S.headerHash b.header
  if (bc.db.readBlock hash).isSome then (.error .blockKnown, bc)
  else if fails .body then (.error .put, bc)
  else
    let db := bc.db.writeBlock hash b
    match receipts with
    | none => bc.tryIndexBlock S fails b db
    | some receipts =>
      if fails .receipts then (.error .put, { bc with db := db })
      else bc.tryIndexBlock S fails b (db.writeReceipts hash receipts)

end Model

structure SameQueries (bc bc' : Blockchain) : Prop where
  block : ∀ hash, bc'.getBlockByHash hash = bc.getBlockByHash hash
  number : ∀ n, bc'.getBlockByNumber n = bc.getBlockByNumber n
  current : bc'.currentBlock = bc.currentBlock
  receipts : ∀ hash, bc'.db.readReceipts hash = bc.db.readReceipts hash
  lookup : ∀ txHash, bc'.db.readTxLookupEntry txHash = bc.db.readTxLookupEntry txHash

def AllOrNothing (S : Sealing) (fails : PutSite → Bool) (bc : Blockchain) (b : Block)
    (receipts : Option (List Receipt)) : Prop :=
  ∀ err bc', bc.tryAddBlock S fails b receipts = (.error err, bc') → SameQueries bc bc' ∧
    (err = .put → ∃ bc'', bc'.addBlock S b receipts = .ok bc'' ∧
      bc''.getBlockByHash (S.headerHash b.header) = some b ∧
      bc''.db.readCanonicalHash (UInt64.ofNat b.header.number) = S.headerHash b.header)

def PutsRecords (fails : PutSite → Bool) (b : Block) (receipts : Option (List Receipt)) : Prop :=
  ¬(receipts.isSome ∧ fails .receipts) ∧ ∀ i < b.transactions.length, ¬fails (.lookup i)

section Failures

variable {S : Sealing} {fails : PutSite → Bool} {bc : Blockchain} {b : Block} {receipts : Option (List Receipt)}

theorem tryTxLookupEntries_iff (db : Database) (ts : List (Transaction × ℕ)) :
    (tryTxLookupEntries S fails b db ts).1 = true ↔ ∀ t ∈ ts, ¬fails (.lookup t.2) := by
  induction ts generalizing db with
  | nil => simp [tryTxLookupEntries]
  | cons t ts ih =>
    rw [tryTxLookupEntries, List.forall_mem_cons]
    by_cases ht : fails (.lookup t.2)
    · simp [ht]
    · rw [if_neg ht, ih]
      simp [ht]

theorem readBlock_tryTxLookupEntries (db : Database) (ts : List (Transaction × ℕ)) (hash : Hash) :
    (tryTxLookupEntries S fails b db ts).2.readBlock hash = db.readBlock hash := by
  induction ts generalizing db with
  | nil => rfl
  | cons t ts ih =>
    rw [tryTxLookupEntries]
    split
    · rfl
    · rw [ih]
      apply Database.readBlock_congr
      apply Database.put_ne
      intro hk
      exact absurd (List.cons.inj hk).1 (by decide)

theorem tryTxLookupEntries_works (db : Database) :
    tryTxLookupEntries S (fun _ => false) b db b.transactions.zipIdx =
      (true, db.writeTxLookupEntries (S.headerHash b.header) b) := by
  rw [Database.writeTxLookupEntries]
  generalize b.transactions.zipIdx = ts
  induction ts generalizing db with
  | nil => rfl
  | cons t ts ih =>
    rw [tryTxLookupEntries, if_neg (by decide), ih]
    rfl

theorem tryIndexBlock_works (db : Database) : bc.tryIndexBlock S (fun _ => false) b db =
    (.ok (), { currentBlock := if bc.isNewer b then some b else bc.currentBlock
               db := (if bc.isNewer b then
                   (db.writeTxLookupEntries (S.headerHash b.header) b).writeHeadBlockHash (S.headerHash b.header)
                 else db.writeTxLookupEntries (S.headerHash b.header) b).writeCanonicalHash
                   (UInt64.ofNat b.header.number) (S.headerHash b.header) }) := by
  rw [Blockchain.tryIndexBlock, tryTxLookupEntries_works]
  by_cases hnewer : bc.isNewer b
  · simp only [hnewer]
    rfl
  · simp only [hnewer]
    rfl

theorem tryAddBlock_works : bc.tryAddBlock S (fun _ => false) b receipts =
    match bc.addBlock S b receipts with
    | .ok bc' => (.ok (), bc')
    | .error .blockKnown => (.error .blockKnown, bc) := by
  unfold Blockchain.tryAddBlock Blockchain.addBlock
  dsimp only
  split
  · rfl
  · rw [if_neg (by decide)]
    cases receipts with
    | none =>
      rw [tryIndexBlock_works]
      by_cases hnewer : bc.isNewer b <;> simp only [hnewer] <;> rfl
    | some receipts =>
      dsimp only
      rw [if_neg (by decide), tryIndexBlock_works]
      by_cases hnewer : bc.isNewer b <;> simp only [hnewer] <;> rfl

theorem tryAddBlock_known (h : bc.db.readBlock (S.headerHash b.header) ≠ none) :
    bc.tryAddBlock S fails b receipts = (.error .blockKnown, bc) := by
  unfold Blockchain.tryAddBlock
  dsimp only
  rw [if_pos (Option.isSome_iff_ne_none.mpr h)]

theorem tryAddBlock_body_fails (h : bc.db.readBlock (S.headerHash b.header) = none) (hbody : fails .body) :
    bc.tryAddBlock S fails b receipts = (.error .put, bc) := by
  unfold Blockchain.tryAddBlock
  dsimp only
  rw [if_neg (by simp [h]), if_pos hbody]

theorem tryIndexBlock_cases {db : Database} {x : Option Block} (hdb : db.readBlock (S.headerHash b.header) = x) :
    ((∀ i < b.transactions.length, ¬fails (.lookup i)) ∧ (bc.tryIndexBlock S fails b db).1 = .ok ()) ∨
      (¬∀ i < b.transactions.length, ¬fails (.lookup i)) ∧
        ∃ bc', bc.tryIndexBlock S fails b db = (.error .put, bc') ∧
          bc'.db.readBlock (S.headerHash b.header) = x := by
  have hall : (tryTxLookupEntries S fails b db b.transactions.zipIdx).1 = true ↔
      ∀ i < b.transactions.length, ¬fails (.lookup i) := by
    rw [tryTxLookupEntries_iff]
    constructor
    · intro h i hi
      exact h (b.transactions[i], i) (List.mem_zipIdx_iff_getElem?.mpr (List.getElem?_eq_getElem hi))
    · intro h t ht
      exact h t.2 (List.getElem?_eq_some_iff.mp (List.mem_zipIdx_iff_getElem?.mp ht)).1
  have hbody : (tryTxLookupEntries S fails b db b.transactions.zipIdx).2.readBlock (S.headerHash b.header) =
      x := by
    rw [readBlock_tryTxLookupEntries]
    exact hdb
  rw [← hall]
  unfold Blockchain.tryIndexBlock
  dsimp only
  by_cases hok : (tryTxLookupEntries S fails b db b.transactions.zipIdx).1 = true
  · rw [if_pos hok]
    exact Or.inl ⟨hok, rfl⟩
  · rw [if_neg hok]
    exact Or.inr ⟨hok, _, rfl, hbody⟩

theorem tryAddBlock_cases (receipts : Option (List Receipt))
    (h : bc.db.readBlock (S.headerHash b.header) = none) (hbody : ¬fails .body) :
    (PutsRecords fails b receipts ∧ (bc.tryAddBlock S fails b receipts).1 = .ok ()) ∨
      ¬PutsRecords fails b receipts ∧ ∃ bc', bc.tryAddBlock S fails b receipts = (.error .put, bc') ∧
        bc'.db.readBlock (S.headerHash b.header) = b.unmarshal := by
  have hwritten : (bc.db.writeBlock (S.headerHash b.header) b).readBlock (S.headerHash b.header) = b.unmarshal := by
    rw [Database.readBlock, Database.writeBlock, Database.put_self]
  unfold Blockchain.tryAddBlock PutsRecords
  dsimp only
  rw [if_neg (by simp [h]), if_neg hbody]
  cases receipts with
  | none => simpa using tryIndexBlock_cases hwritten
  | some receipts =>
    by_cases hreceipts : fails .receipts
    · simp only [if_pos hreceipts]
      exact Or.inr ⟨fun hall => hall.1 ⟨rfl, hreceipts⟩, _, rfl, hwritten⟩
    · simp only [if_neg hreceipts]
      have hkept : ((bc.db.writeBlock (S.headerHash b.header) b).writeReceipts (S.headerHash b.header)
          receipts).readBlock (S.headerHash b.header) = b.unmarshal := by
        rw [← hwritten]
        apply Database.readBlock_congr
        apply Database.put_ne
        intro hk
        exact absurd (List.cons.inj hk).1 (by decide)
      simpa [hreceipts] using tryIndexBlock_cases hkept

theorem AllOrNothing.unmarshals (h : AllOrNothing S fails bc b receipts) {bc' : Blockchain}
    (heq : bc.tryAddBlock S fails b receipts = (.error .put, bc')) : b.unmarshals := by
  obtain ⟨bc'', hadd, hread, -⟩ := (h .put bc' heq).2 rfl
  have hstored := ((Blockchain.added_of_addBlock hadd).block (S.headerHash b.header)).symm.trans hread
  rw [if_pos rfl] at hstored
  exact (Block.unmarshal_eq_some.mp hstored).2

theorem allOrNothing_known (h : bc.db.readBlock (S.headerHash b.header) ≠ none) :
    AllOrNothing S fails bc b receipts := by
  intro err bc' heq
  rw [tryAddBlock_known h] at heq
  obtain ⟨hError, rfl⟩ := Prod.mk.inj heq
  obtain rfl := Except.error.inj hError
  exact ⟨⟨fun _ => rfl, fun _ => rfl, rfl, fun _ => rfl, fun _ => rfl⟩, fun h => (nomatch h)⟩

theorem allOrNothing_body_fails_iff (h : bc.db.readBlock (S.headerHash b.header) = none) (hbody : fails .body) :
    AllOrNothing S fails bc b receipts ↔ b.unmarshals := by
  refine ⟨fun hall => hall.unmarshals (tryAddBlock_body_fails h hbody), fun hread err bc' heq => ?_⟩
  rw [tryAddBlock_body_fails h hbody] at heq
  obtain ⟨-, rfl⟩ := Prod.mk.inj heq
  refine ⟨⟨fun _ => rfl, fun _ => rfl, rfl, fun _ => rfl, fun _ => rfl⟩, fun _ => ?_⟩
  obtain ⟨bc'', hadd⟩ := Blockchain.exists_addBlock receipts h
  have hadded := Blockchain.added_of_addBlock hadd
  exact ⟨bc'', hadd, hadded.readBlock_new hread, hadded.canonical⟩

theorem allOrNothing_body_put_iff (h : bc.db.readBlock (S.headerHash b.header) = none) (hbody : ¬fails .body) :
    AllOrNothing S fails bc b receipts ↔ PutsRecords fails b receipts := by
  rcases tryAddBlock_cases receipts h hbody with ⟨hall, hok⟩ | ⟨hnot, bc', heq, hbc'⟩
  · refine iff_of_true (fun err bc' heq => ?_) hall
    rw [heq] at hok
    cases hok
  · refine iff_of_false (fun hall => ?_) hnot
    have hsame := (hall .put bc' heq).1.block (S.headerHash b.header)
    rw [Blockchain.getBlockByHash, Blockchain.getBlockByHash, hbc', h,
      Block.unmarshal_of_unmarshals (hall.unmarshals heq)] at hsame
    cases hsame

/-- All or nothing holds but where the body of a new block is written and its receipts or one of its
lookup entries are not, and where a call fails for a block that cannot be read back. -/
theorem all_or_nothing_iff : AllOrNothing S fails bc b receipts ↔
    bc.db.readBlock (S.headerHash b.header) ≠ none ∨
      if b.unmarshals then fails .body ∨ PutsRecords fails b receipts
      else ¬fails .body ∧ PutsRecords fails b receipts := by
  by_cases hknown : bc.db.readBlock (S.headerHash b.header) = none
  · by_cases hbody : fails .body
    · rw [allOrNothing_body_fails_iff hknown hbody]
      simp [hknown, hbody]
    · rw [allOrNothing_body_put_iff hknown hbody]
      simp [hknown, hbody]
  · exact iff_of_true (allOrNothing_known hknown) (Or.inl hknown)

theorem refused_receipts_leave_block :
    let fails : PutSite → Bool := fun site => site = .receipts
    let bc := initializeGenesis .ideal clockSealing (getNetworkConfig .simulation) .empty
    let result := bc.tryAddBlock clockSealing fails (clockBlock 1 1) (some [])
    result.1 = .error .put ∧
      result.2.getBlockByHash (clockSealing.headerHash (clockBlock 1 1).header) = some (clockBlock 1 1) ∧
      (result.2.tryAddBlock clockSealing (fun _ => false) (clockBlock 1 1) (some [])).1 = .error .blockKnown ∧
      ¬AllOrNothing clockSealing fails bc (clockBlock 1 1) (some []) := by
  intro fails bc result
  have hError : result.1 = .error .put := by decide +kernel
  have hstored : result.2.getBlockByHash (clockSealing.headerHash (clockBlock 1 1).header) =
      some (clockBlock 1 1) := by decide +kernel
  have hnew : bc.getBlockByHash (clockSealing.headerHash (clockBlock 1 1).header) = none := by decide +kernel
  refine ⟨hError, hstored, by decide +kernel, fun hall => ?_⟩
  have hsame := (hall .put result.2 (Prod.ext hError rfl)).1.block
    (clockSealing.headerHash (clockBlock 1 1).header)
  rw [hstored, hnew] at hsame
  cases hsame

end Failures

end Zephyria
