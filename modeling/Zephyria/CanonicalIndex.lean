import Zephyria.Blockchain
import Zephyria.Lib.Runs

namespace Zephyria

structure Indexed where
  bc : Blockchain
  added : List Block

def Indexed.empty : Indexed := ⟨⟨.empty, none⟩, []⟩

abbrev AddCall := Block × Option (List Receipt)

def addCall (S : Sealing) (x : Indexed) (c : AddCall) : Indexed :=
  match x.bc.addBlock S c.1 c.2 with
  | .ok bc => ⟨bc, c.1 :: x.added⟩
  | .error _ => x

structure IndexMatches (ns : Set UInt64) (x : Indexed) : Prop where
  greatest : ∀ b ∈ x.added, ∃ current ∈ x.added, x.bc.currentBlock = some current ∧
    b.header.number ≤ current.header.number
  head : ∀ current, x.bc.currentBlock = some current →
    x.bc.getBlockByNumber (UInt64.ofNat current.header.number) = some current
  numbered : ∀ n ∈ ns, ∀ b, x.bc.getBlockByNumber n = some b → b.header.number = n.toNat

/-- A block that is not known fits its index entry, and a new head can be read back and fits the entry
that its hash is written to besides; any other block leaves the head's entry alone. -/
def IndexKept (S : Sealing) (ns : Set UInt64) (x : Indexed) (c : AddCall) : Prop :=
  x.bc.db.readBlock (S.headerHash c.1.header) = none →
    (c.1.unmarshals → UInt64.ofNat c.1.header.number ∈ ns → c.1.header.number < 2 ^ 64) ∧
      if x.bc.isNewer c.1 then c.1.unmarshals ∧ (headNumber ∈ ns → c.1.header.number = headNumber.toNat)
      else ∀ current, x.bc.currentBlock = some current →
        UInt64.ofNat c.1.header.number ≠ UInt64.ofNat current.header.number

structure Recorded (S : Sealing) (x : Indexed) : Prop where
  greatest : ∀ b ∈ x.added, ∃ current ∈ x.added, x.bc.currentBlock = some current ∧
    b.header.number ≤ current.header.number
  known : ∀ current, x.bc.currentBlock = some current → current ∈ x.added
  stored : ∀ hash b, x.bc.db.readBlock hash = some b → hash = S.headerHash b.header
  entry : ∀ n, x.bc.db.readCanonicalHash n ≠ 0 → ∃ b ∈ x.added,
    x.bc.db.readCanonicalHash n = S.headerHash b.header ∧
      (n = UInt64.ofNat b.header.number ∨ n = headNumber ∧ x.bc.currentBlock = some b)

theorem Database.readCanonicalHash_headNumber (db : Database) (hash : Hash) :
    (db.writeHeadBlockHash hash).readCanonicalHash headNumber = hash := by
  rw [readCanonicalHash, canonicalKey_headNumber, getRaw, writeHeadBlockHash, put_self]
  exact bytesToHash_hashBytes hash

section Index

variable {S : Sealing} {bc bc' : Blockchain} {b : Block}

theorem readCanonicalHash_addBlock {receipts : Option (List Receipt)} (h : bc.addBlock S b receipts = .ok bc')
    (n : UInt64) : bc'.db.readCanonicalHash n =
      if n = UInt64.ofNat b.header.number ∨ n = headNumber ∧ bc.isNewer b then S.headerHash b.header
      else bc.db.readCanonicalHash n := by
  rw [(Blockchain.addBlock_inv h).2.2, Database.readCanonicalHash_writeCanonicalHash]
  by_cases hn : n = UInt64.ofNat b.header.number
  · rw [if_pos hn, if_pos (Or.inl hn)]
  · rw [if_neg hn]
    by_cases hnewer : bc.isNewer b
    · rw [if_pos hnewer]
      by_cases hhead : n = headNumber
      · rw [if_pos (Or.inr ⟨hhead, hnewer⟩), hhead, Database.readCanonicalHash_headNumber]
      · rw [if_neg, Database.readCanonicalHash_writeHeadBlockHash _ _ hhead,
          Database.readCanonicalHash_storeBlock]
        rintro (h | ⟨h, -⟩)
        · exact hn h
        · exact hhead h
    · rw [if_neg hnewer, if_neg, Database.readCanonicalHash_storeBlock]
      rintro (h | ⟨-, h⟩)
      · exact hn h
      · exact hnewer h

/-- `Added` with every index entry that the call writes: also the head's, which reads as an entry. -/
structure Entered (S : Sealing) (bc : Blockchain) (b : Block) (bc' : Blockchain) : Prop where
  added : Added S bc b bc'
  index : ∀ n, bc'.db.readCanonicalHash n =
    if n = UInt64.ofNat b.header.number ∨ n = headNumber ∧ bc.isNewer b then S.headerHash b.header
    else bc.db.readCanonicalHash n

def AnswersAfter (bc : Blockchain) (b : Block) (bc' : Blockchain) : Prop :=
  ∀ n, bc'.getBlockByNumber n =
    if n = UInt64.ofNat b.header.number ∨ n = headNumber ∧ bc.isNewer b then b.unmarshal
    else bc.getBlockByNumber n

theorem addCall_cases (x : Indexed) (c : AddCall) :
    (x.bc.db.readBlock (S.headerHash c.1.header) ≠ none ∧ addCall S x c = x) ∨
      ∃ bc', Entered S x.bc c.1 bc' ∧ addCall S x c = ⟨bc', c.1 :: x.added⟩ := by
  unfold addCall
  cases hadd : x.bc.addBlock S c.1 c.2 with
  | error err =>
    left
    exact ⟨Option.isSome_iff_ne_none.mp (Blockchain.addBlock_known hadd), rfl⟩
  | ok bc' =>
    right
    exact ⟨bc', ⟨Blockchain.added_of_addBlock hadd, readCanonicalHash_addBlock hadd⟩, rfl⟩

variable {x : Indexed} {ns : Set UInt64}

theorem not_isNewer_iff : ¬bc.isNewer b ↔
    ∃ current, bc.currentBlock = some current ∧ b.header.number ≤ current.header.number := by
  unfold Blockchain.isNewer
  cases bc.currentBlock with
  | none => simp
  | some current => simp

theorem getBlockByNumber_eq_some_iff {k : UInt64} : bc.getBlockByNumber k = some b ↔
    bc.db.readCanonicalHash k ≠ 0 ∧ bc.db.readBlock (bc.db.readCanonicalHash k) = some b := by
  unfold Blockchain.getBlockByNumber
  dsimp only
  split
  next h => exact ⟨fun hb => (nomatch hb), fun hb => absurd h hb.1⟩
  next h => exact ⟨fun hb => ⟨h, hb⟩, fun hb => hb.2⟩

theorem IndexMatches.readBlock_current (hm : IndexMatches ns x) (hx : Recorded S x) {current : Block}
    (hcur : x.bc.currentBlock = some current) :
    x.bc.db.readBlock (S.headerHash current.header) = some current := by
  obtain ⟨-, hread⟩ := getBlockByNumber_eq_some_iff.mp (hm.head current hcur)
  rwa [← hx.stored _ _ hread]

theorem Recorded.entry_ne (hx : Recorded S x) (hm : IndexMatches ns x)
    (hnumber : ∀ b' ∈ x.added, S.headerHash b'.header = S.headerHash b.header → b'.header.number = b.header.number)
    (hnew : x.bc.db.readBlock (S.headerHash b.header) = none) {n : UInt64} (hn : n ≠ UInt64.ofNat b.header.number)
    (hset : x.bc.db.readCanonicalHash n ≠ 0) : x.bc.db.readCanonicalHash n ≠ S.headerHash b.header := by
  intro heq
  obtain ⟨b', hb', hhash, hentry⟩ := hx.entry n hset
  have hsame : S.headerHash b'.header = S.headerHash b.header := hhash.symm.trans heq
  obtain hown | ⟨-, hhead⟩ := hentry
  · rw [hnumber b' hb' hsame] at hown
    exact hn hown
  · have hstored := hm.readBlock_current hx hhead
    rw [hsame, hnew] at hstored
    cases hstored

theorem Recorded.answersAfter (hx : Recorded S x) (hm : IndexMatches ns x)
    (hzero : ∀ header, S.headerHash header ≠ 0)
    (hnumber : ∀ b' ∈ x.added, S.headerHash b'.header = S.headerHash b.header → b'.header.number = b.header.number)
    (h : Entered S x.bc b bc') : AnswersAfter x.bc b bc' := by
  intro n
  unfold Blockchain.getBlockByNumber
  dsimp only
  rw [h.index n]
  split
  · rw [if_neg (hzero _), h.added.block, if_pos rfl]
  next hother =>
    by_cases hunset : x.bc.db.readCanonicalHash n = 0
    · rw [if_pos hunset, if_pos hunset]
    · have hne := hx.entry_ne hm hnumber h.added.new (fun heq => hother (Or.inl heq)) hunset
      rw [if_neg hunset, if_neg hunset, h.added.block, if_neg hne]

theorem Recorded.stored_entered (hx : Recorded S x) (h : Entered S x.bc b bc') (hash : Hash) (y : Block)
    (hy : bc'.db.readBlock hash = some y) : hash = S.headerHash y.header := by
  rw [h.added.block] at hy
  split at hy
  next heq =>
    obtain ⟨rfl, -⟩ := Block.unmarshal_eq_some.mp hy
    exact heq
  next => exact hx.stored hash y hy

theorem Recorded.entry_entered (hx : Recorded S x) (h : Entered S x.bc b bc') (n : UInt64)
    (hn : bc'.db.readCanonicalHash n ≠ 0) : ∃ y ∈ b :: x.added,
      bc'.db.readCanonicalHash n = S.headerHash y.header ∧
        (n = UInt64.ofNat y.header.number ∨ n = headNumber ∧ bc'.currentBlock = some y) := by
  rw [h.index n] at hn ⊢
  split
  next hwritten =>
    refine ⟨b, List.mem_cons_self, rfl, hwritten.imp id fun ⟨hhead, hnewer⟩ => ⟨hhead, ?_⟩⟩
    rw [h.added.current, if_pos hnewer]
  next hother =>
    rw [if_neg hother] at hn
    obtain ⟨y, hy, hhash, hentry⟩ := hx.entry n hn
    refine ⟨y, List.mem_cons_of_mem b hy, hhash, hentry.imp id fun ⟨hhead, hcur⟩ => ⟨hhead, ?_⟩⟩
    rw [h.added.current, if_neg fun hnewer => hother (Or.inr ⟨hhead, hnewer⟩), hcur]

theorem Recorded.newHead (hx : Recorded S x) (h : Entered S x.bc b bc') (hnewer : x.bc.isNewer b) :
    Recorded S ⟨bc', b :: x.added⟩ := by
  have hcurrent : bc'.currentBlock = some b := by rw [h.added.current, if_pos hnewer]
  refine ⟨fun b' hb' => ?_, fun current hcur => ?_, hx.stored_entered h, hx.entry_entered h⟩
  · refine ⟨b, List.mem_cons_self, hcurrent, ?_⟩
    obtain rfl | hb' := List.mem_cons.mp hb'
    · exact le_rfl
    · obtain ⟨current, -, hcur, hle⟩ := hx.greatest b' hb'
      by_contra hlt
      exact not_isNewer_iff.mpr ⟨current, hcur, by omega⟩ hnewer
  · obtain rfl := Option.some.inj (hcurrent.symm.trans hcur)
    exact List.mem_cons_self

theorem Recorded.sameHead (hx : Recorded S x) (h : Entered S x.bc b bc') (hnewer : ¬x.bc.isNewer b) :
    Recorded S ⟨bc', b :: x.added⟩ := by
  have hcurrent : bc'.currentBlock = x.bc.currentBlock := by rw [h.added.current, if_neg hnewer]
  obtain ⟨top, htop, hle⟩ := not_isNewer_iff.mp hnewer
  have hmem := hx.known top htop
  refine ⟨fun b' hb' => ?_, fun current hcur => ?_, hx.stored_entered h, hx.entry_entered h⟩
  · refine ⟨top, List.mem_cons_of_mem _ hmem, hcurrent.trans htop, ?_⟩
    obtain rfl | hb' := List.mem_cons.mp hb'
    · exact hle
    · obtain ⟨current, -, hcur, hle'⟩ := hx.greatest b' hb'
      obtain rfl := Option.some.inj (htop.symm.trans hcur)
      exact hle'
  · obtain rfl := Option.some.inj (htop.symm.trans (hcurrent.symm.trans hcur))
    exact List.mem_cons_of_mem _ hmem

theorem Recorded.addCall (hx : Recorded S x) (c : AddCall) : Recorded S (addCall S x c) := by
  obtain ⟨-, heq⟩ | ⟨bc', h, heq⟩ := addCall_cases (S := S) x c
  · rwa [heq]
  rw [heq]
  by_cases hnewer : x.bc.isNewer c.1
  · exact hx.newHead h hnewer
  · exact hx.sameHead h hnewer

theorem added_addCall_subset {calls : List AddCall} {c : AddCall} (hc : c ∈ calls)
    (h : x.added ⊆ calls.map Prod.fst) : (addCall S x c).added ⊆ calls.map Prod.fst := by
  obtain ⟨-, heq⟩ | ⟨bc', -, heq⟩ := addCall_cases (S := S) x c
  · rwa [heq]
  · rw [heq]
    exact List.cons_subset.mpr ⟨List.mem_map_of_mem hc, h⟩

theorem IndexMatches.indexKept {c : AddCall} (hafter : IndexMatches ns ⟨bc', c.1 :: x.added⟩)
    (hm : IndexMatches ns x) (hx : Recorded S x) (h : Entered S x.bc c.1 bc')
    (hget : AnswersAfter x.bc c.1 bc') : IndexKept S ns x c := by
  intro _
  constructor
  · intro hread hmem
    have hown := (hget _).trans (if_pos (Or.inl rfl))
    rw [Block.unmarshal_of_unmarshals hread] at hown
    rw [hafter.numbered _ hmem c.1 hown]
    exact UInt64.toNat_lt _
  · split
    next hnewer =>
      have hcurrent : bc'.currentBlock = some c.1 := by rw [h.added.current, if_pos hnewer]
      have hhead := (hget _).symm.trans (hafter.head c.1 hcurrent)
      rw [if_pos (Or.inl rfl)] at hhead
      refine ⟨(Block.unmarshal_eq_some.mp hhead).2, fun hmem => ?_⟩
      exact hafter.numbered _ hmem c.1 (((hget _).trans (if_pos (Or.inr ⟨rfl, hnewer⟩))).trans hhead)
    next hnewer =>
      -- The head would have to be the new block, which was not stored before.
      intro current hcur htie
      have hcurrent : bc'.currentBlock = some current := by rw [h.added.current, if_neg hnewer, hcur]
      have hhead := (hget _).symm.trans (hafter.head current hcurrent)
      rw [if_pos (Or.inl htie.symm)] at hhead
      have hstored := hm.readBlock_current hx hcur
      rw [← (Block.unmarshal_eq_some.mp hhead).1, h.added.new] at hstored
      cases hstored

theorem IndexKept.head_entered {c : AddCall} (hkept : IndexKept S ns x c) (hm : IndexMatches ns x)
    (h : Entered S x.bc c.1 bc') (hget : AnswersAfter x.bc c.1 bc') {current : Block}
    (hcur : bc'.currentBlock = some current) :
    bc'.getBlockByNumber (UInt64.ofNat current.header.number) = some current := by
  obtain ⟨-, hother⟩ := hkept h.added.new
  rw [h.added.current] at hcur
  rw [hget]
  split at hcur
  next hnewer =>
    obtain rfl := Option.some.inj hcur
    rw [if_pos hnewer] at hother
    rw [if_pos (Or.inl rfl), Block.unmarshal_of_unmarshals hother.1]
  next hnewer =>
    rw [if_neg hnewer] at hother
    rw [if_neg, hm.head current hcur]
    rintro (heq | ⟨-, hnew⟩)
    · exact hother current hcur heq.symm
    · exact hnewer hnew

theorem IndexKept.numbered_entered {c : AddCall} (hkept : IndexKept S ns x c) (hm : IndexMatches ns x)
    (h : Entered S x.bc c.1 bc') (hget : AnswersAfter x.bc c.1 bc') {n : UInt64} (hn : n ∈ ns)
    (hb : bc'.getBlockByNumber n = some b) : b.header.number = n.toNat := by
  obtain ⟨hfits, hother⟩ := hkept h.added.new
  rw [hget] at hb
  split at hb
  next hwritten =>
    obtain ⟨rfl, hread⟩ := Block.unmarshal_eq_some.mp hb
    obtain rfl | ⟨rfl, hnewer⟩ := hwritten
    · rw [UInt64.toNat_ofNat', Nat.mod_eq_of_lt (hfits hread hn)]
    · rw [if_pos hnewer] at hother
      exact hother.2 hn
  next => exact hm.numbered n hn b hb

theorem indexMatches_addCall_iff (hzero : ∀ header, S.headerHash header ≠ 0) (hx : Recorded S x)
    (hm : IndexMatches ns x) (c : AddCall) (hnumber : ∀ b ∈ x.added,
      S.headerHash b.header = S.headerHash c.1.header → b.header.number = c.1.header.number) :
    IndexMatches ns (addCall S x c) ↔ IndexKept S ns x c := by
  obtain ⟨hknown, heq⟩ | ⟨bc', h, heq⟩ := addCall_cases (S := S) x c
  · rw [heq]
    exact iff_of_true hm fun hnew => absurd hnew hknown
  have hgreatest := (hx.addCall c).greatest
  have hget := hx.answersAfter hm hzero hnumber h
  rw [heq] at hgreatest ⊢
  constructor
  · intro hafter
    exact hafter.indexKept hm hx h hget
  · intro hkept
    refine ⟨hgreatest, fun current hcur => ?_, fun n hn b hb => ?_⟩
    · exact hkept.head_entered hm h hget hcur
    · exact hkept.numbered_entered hm h hget hn hb

theorem index_matches_iff (hzero : ∀ header, S.headerHash header ≠ 0) (ns : Set UInt64) (calls : List AddCall)
    (hnumber : ∀ c ∈ calls, ∀ c' ∈ calls, S.headerHash c.1.header = S.headerHash c'.1.header →
      c.1.header.number = c'.1.header.number) :
    (∀ pre, pre <+: calls → IndexMatches ns (pre.foldl (addCall S) .empty)) ↔
      ∀ pre c, pre ++ [c] <+: calls → IndexKept S ns (pre.foldl (addCall S) .empty) c := by
  have hnone (n : UInt64) : Indexed.empty.bc.getBlockByNumber n = none := rfl
  apply forall_prefix_iff (I := fun x => Recorded S x ∧ x.added ⊆ calls.map Prod.fst)
  · exact fun x c hc hx => ⟨hx.1.addCall c, added_addCall_subset hc hx.2⟩
  · intro x c hc hx hm
    apply indexMatches_addCall_iff hzero hx.1 hm c
    intro b hb heq
    obtain ⟨c', hc', rfl⟩ := List.mem_map.mp (hx.2 hb)
    exact hnumber c' hc' c hc heq
  · exact ⟨⟨fun b hb => (nomatch hb), fun current h => (nomatch h), fun hash b h => (nomatch h),
      fun n h => absurd rfl h⟩, List.nil_subset _⟩
  · refine ⟨fun b hb => (nomatch hb), fun current h => (nomatch h), fun n _ b hb => ?_⟩
    rw [hnone] at hb
    cases hb

end Index

section Sample

def clockSealing : Sealing where
  headerHash header := bigToHash (header.time.toNat + 1)
  sigToPub _ _ := none
  sign _ := []

theorem clockSealing_ne_zero (header : Header) : clockSealing.headerHash header ≠ 0 := by
  intro h
  have hnat := congrArg BitVec.toNat h
  have htime := header.time.toNat_lt
  change (header.time.toNat + 1) % 2 ^ 256 = 0 at hnat
  omega

def clockBlock (number : ℕ) (time : UInt64) : Block where
  header :=
    { parentHash := 0, number := number, time := time, verkleRoot := 0, txHash := 0, coinbase := 0,
      extraData := [], difficulty := 1, gasLimit := 60000000, gasUsed := 0, baseFee := some 1 }
  transactions := []

theorem index_matches_two_blocks : IndexMatches {n | n ≠ headNumber}
    ([(clockBlock 0 0, none), (clockBlock 1 1, some [])].foldl (addCall clockSealing) .empty) := by
  refine (index_matches_iff clockSealing_ne_zero _ _ (by decide +kernel)).mpr ?_ _ List.prefix_rfl
  rintro pre c ⟨rest, hrest⟩ -
  obtain _ | ⟨first, _ | ⟨second, pre⟩⟩ := pre
  · obtain ⟨rfl, -⟩ := List.cons.inj hrest
    exact ⟨fun _ _ => by decide, by simp [Indexed.empty, Blockchain.isNewer, clockBlock, Block.unmarshals]⟩
  · obtain ⟨rfl, hsecond⟩ := List.cons.inj hrest
    obtain ⟨rfl, -⟩ := List.cons.inj hsecond
    refine ⟨fun _ _ => by decide, ?_⟩
    rw [if_pos (by decide +kernel)]
    exact ⟨rfl, fun h => absurd rfl h⟩
  · simp at hrest

theorem tie_splits_index :
    let x := [(clockBlock 0 0, none), (clockBlock 1 1, some []), (clockBlock 1 2, some [])].foldl
      (addCall clockSealing) .empty
    x.bc.currentBlock = some (clockBlock 1 1) ∧ x.bc.getBlockByNumber 1 = some (clockBlock 1 2) ∧
      x.bc.getBlockByNumber headNumber = some (clockBlock 1 1) ∧ ¬IndexMatches Set.univ x := by
  intro x
  have hcurrent : x.bc.currentBlock = some (clockBlock 1 1) := by decide +kernel
  have hindex : x.bc.getBlockByNumber 1 = some (clockBlock 1 2) := by decide +kernel
  refine ⟨hcurrent, hindex, by decide +kernel, fun hm => ?_⟩
  have hhead := hm.head _ hcurrent
  rw [show UInt64.ofNat (clockBlock 1 1).header.number = 1 from rfl, hindex] at hhead
  exact absurd hhead (by decide)

end Sample

end Zephyria
