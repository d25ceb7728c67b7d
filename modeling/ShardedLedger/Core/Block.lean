import Mathlib.Data.List.Basic

/-! Byte strings, hex digests, blocks and the hash-linked chain of block.go and blockchain.go.
SHA-256 is the parameter `sha` (raw digest); `hexEncode` is `hex.EncodeToString`. -/

namespace ShardedLedger.Core

/-- A Go string or byte slice, as its bytes. -/
abbrev Bytes := List UInt8

/-- The bytes of a string literal of the source. -/
def bytesOf (s : String) : Bytes := s.toUTF8.data.toList

/-- One lowercase digit of `encoding/hex`. -/
def hexDigit (n : Nat) : UInt8 := if n < 10 then (48 + n).toUInt8 else (87 + n).toUInt8

/-- `hex.EncodeToString`: two lowercase digits per byte, high nibble first. -/
def hexEncode (bs : Bytes) : Bytes :=
  bs.flatMap fun b => [hexDigit (b.toNat / 16), hexDigit (b.toNat % 16)]

private theorem hexDigit_inj : ∀ a < 16, ∀ b < 16, hexDigit a = hexDigit b → a = b := by
  decide

private theorem hexDigits_inj {a b : UInt8} (hi : hexDigit (a.toNat / 16) = hexDigit (b.toNat / 16))
    (lo : hexDigit (a.toNat % 16) = hexDigit (b.toNat % 16)) : a = b := by
  have ha : a.toNat < 256 := a.toNat_lt_size
  have hb : b.toNat < 256 := b.toNat_lt_size
  have h1 := hexDigit_inj _ (by omega) _ (by omega) hi
  have h2 := hexDigit_inj _ (Nat.mod_lt _ (by omega)) _ (Nat.mod_lt _ (by omega)) lo
  exact UInt8.toNat.inj (by omega)

theorem hexEncode_injective : Function.Injective hexEncode := by
  intro xs
  induction xs with
  | nil => intro ys h; cases ys <;> simp_all [hexEncode]
  | cons x xs ih =>
    intro ys h
    cases ys with
    | nil => simp [hexEncode] at h
    | cons y ys =>
      simp only [hexEncode, List.flatMap_cons, List.cons_append, List.nil_append,
        List.cons.injEq] at h
      rw [hexDigits_inj h.1 h.2.1, ih h.2.2]

theorem hexEncode_cons (b : UInt8) (bs : Bytes) : hexEncode (b :: bs) = hexEncode [b] ++ hexEncode bs := by
  simp [hexEncode]

theorem zero_not_mem_hexEncode (bs : Bytes) : (0 : UInt8) ∉ hexEncode bs := by
  have hd : ∀ d < 16, hexDigit d ≠ 0 := by decide
  simp only [hexEncode, List.mem_flatMap, List.mem_cons, List.mem_singleton, List.not_mem_nil, or_false,
    not_exists, not_and]
  intro b _ h
  have hb : b.toNat < 256 := b.toNat_lt_size
  exact h.elim (fun e => hd _ (by omega) e.symm) fun e => hd _ (Nat.mod_lt _ (by omega)) e.symm

theorem length_hexEncode (bs : Bytes) : (hexEncode bs).length = 2 * bs.length := by
  induction bs with
  | nil => rfl
  | cons b bs ih => rw [hexEncode_cons, List.length_append, ih]; simp [hexEncode]; omega

/-- Go's `string(i)` for an `int`: the UTF-8 encoding of code point `i`, or of U+FFFD when `i`
is not a valid code point. -/
def runeString (i : Int) : Bytes :=
  if 0 ≤ i ∧ i.toNat.isValidChar then String.utf8EncodeChar (Char.ofNat i.toNat)
  else [0xEF, 0xBF, 0xBD]

/-- `Block`. The index is an unbounded integer: a chain of `2^63` blocks cannot be held. -/
structure Block where
  index : Int
  timestamp : Bytes
  data : Bytes
  prevHash : Bytes
  hash : Bytes
  deriving DecidableEq, Repr

/-- What `calculateHash` digests: `string(Index) + Timestamp + Data + PrevHash`. -/
def Block.record (b : Block) : Bytes := runeString b.index ++ b.timestamp ++ b.data ++ b.prevHash

section
variable (sha : Bytes → Bytes)

/-- `calculateHash`: hex SHA-256 of the record; the `Hash` field is not read. -/
def calculateHash (b : Block) : Bytes := hexEncode (sha b.record)

@[simp] private theorem calculateHash_with_hash (b : Block) (h : Bytes) :
    calculateHash sha { b with hash := h } = calculateHash sha b := rfl

/-- `GenerateBlock`, with the clock reading `ts` of `time.Now()` as an argument. -/
def generateBlock (prev : Block) (data ts : Bytes) : Block :=
  let b : Block := ⟨prev.index + 1, ts, data, prev.hash, []⟩
  { b with hash := calculateHash sha b }

/-- `GenesisBlock` at clock reading `ts`. -/
def genesisBlock (ts : Bytes) : Block :=
  let b : Block := ⟨0, ts, bytesOf "Genesis Block", [], []⟩
  { b with hash := calculateHash sha b }

structure Blockchain where
  blocks : List Block

def newBlockchain (ts : Bytes) : Blockchain := ⟨[genesisBlock sha ts]⟩

/-- `Blockchain.AddBlock`; `none` is the index panic of `bc.Blocks[len(bc.Blocks)-1]` on an
empty chain (pruning can empty one). -/
def Blockchain.addBlock (bc : Blockchain) (data ts : Bytes) : Option Blockchain :=
  bc.blocks.getLast?.map fun prev => ⟨bc.blocks ++ [generateBlock sha prev data ts]⟩

/-- Successive `AddBlock` calls, each with its payload and clock reading. -/
def Blockchain.addBlocks : Blockchain → List (Bytes × Bytes) → Option Blockchain
  | bc, [] => some bc
  | bc, (d, ts) :: rest => (bc.addBlock sha d ts).bind fun bc' => bc'.addBlocks rest

/-- The chain invariant of §3: positions are indices, hashes are reproducible, and each block
names its predecessor's hash. -/
def Linked (bs : List Block) : Prop :=
  (∀ (k : Nat) b, bs[k]? = some b → b.index = k ∧ b.hash = calculateHash sha b) ∧
    ∀ (k : Nat) a b, bs[k]? = some a → bs[k + 1]? = some b → b.prevHash = a.hash

private theorem getElem?_snoc {bs : List Block} {x b : Block} {k : Nat}
    (h : (bs ++ [x])[k]? = some b) : (k < bs.length ∧ bs[k]? = some b) ∨ (k = bs.length ∧ b = x) := by
  rcases Nat.lt_or_ge k bs.length with hk | hk
  · exact .inl ⟨hk, by rwa [List.getElem?_append_left hk] at h⟩
  · rw [List.getElem?_append_right hk] at h
    rcases Nat.eq_or_lt_of_le hk with rfl | hk'
    · simp at h; exact .inr ⟨rfl, h.symm⟩
    · rw [List.getElem?_eq_none (by simp; omega)] at h; cases h

private theorem linked_snoc {bs : List Block} {prev : Block} (data ts : Bytes) (h : Linked sha bs)
    (hlast : bs.getLast? = some prev) : Linked sha (bs ++ [generateBlock sha prev data ts]) := by
  obtain ⟨hidx, hlink⟩ := h
  have hprev : bs[bs.length - 1]? = some prev := by rwa [← List.getLast?_eq_getElem?]
  have hpos : 0 < bs.length := List.length_pos_of_ne_nil (by rintro rfl; simp at hlast)
  constructor
  · intro k b hk
    rcases getElem?_snoc hk with ⟨-, hk⟩ | ⟨rfl, rfl⟩
    · exact hidx k b hk
    · refine ⟨?_, rfl⟩
      simp only [generateBlock, (hidx _ _ hprev).1]
      omega
  · intro k a b ha hb
    rcases getElem?_snoc hb with ⟨hk, hb⟩ | ⟨hk, rfl⟩
    · rw [List.getElem?_append_left (by omega)] at ha
      exact hlink k a b ha hb
    · rw [List.getElem?_append_left (by omega), show k = bs.length - 1 by omega, hprev] at ha
      cases ha
      rfl

private theorem addBlocks_linked {bc : Blockchain} (h : Linked sha bc.blocks) (hne : bc.blocks ≠ [])
    (inputs : List (Bytes × Bytes)) :
    ∃ new : List Block, bc.addBlocks sha inputs = some ⟨bc.blocks ++ new⟩ ∧
      Linked sha (bc.blocks ++ new) ∧ new.map Block.data = inputs.map Prod.fst := by
  induction inputs generalizing bc with
  | nil => exact ⟨[], by simp [Blockchain.addBlocks], by simpa using h, rfl⟩
  | cons input rest ih =>
    obtain ⟨d, ts⟩ := input
    obtain ⟨prev, hprev⟩ := Option.ne_none_iff_exists'.mp (mt List.getLast?_eq_none_iff.mp hne)
    obtain ⟨new, hrun, hl, hd⟩ :=
      @ih ⟨bc.blocks ++ [generateBlock sha prev d ts]⟩ (linked_snoc sha d ts h hprev) (by simp)
    refine ⟨generateBlock sha prev d ts :: new, ?_, by simpa using hl, by simp [generateBlock, hd]⟩
    simp [Blockchain.addBlocks, Blockchain.addBlock, hprev, hrun]

/-- The chain built by `NewBlockchain` and `AddBlock(d1)`, …, `AddBlock(dn)`, for any payloads
and clock readings: `n + 1` blocks indexed `0 … n`, the genesis with an empty previous hash,
each later block linked to its predecessor and carrying its payload, every hash reproducible. -/
theorem newBlockchain_addBlocks (t0 : Bytes) (inputs : List (Bytes × Bytes)) :
    ∃ bc, (newBlockchain sha t0).addBlocks sha inputs = some bc ∧
      bc.blocks.length = inputs.length + 1 ∧
      (∀ (k : Nat) b, bc.blocks[k]? = some b → b.index = k ∧ b.hash = calculateHash sha b) ∧
      bc.blocks.head?.map Block.prevHash = some [] ∧
      (∀ (k : Nat) a b, bc.blocks[k]? = some a → bc.blocks[k + 1]? = some b →
        b.prevHash = a.hash) ∧
      bc.blocks.tail.map Block.data = inputs.map Prod.fst := by
  have hg : Linked sha (newBlockchain sha t0).blocks := by
    refine ⟨fun k b hk => ?_, fun k a b _ hb => ?_⟩
    · match k, hk with
      | 0, rfl => exact ⟨rfl, rfl⟩
    · simp [newBlockchain] at hb
  obtain ⟨new, hrun, ⟨hidx, hlink⟩, hd⟩ := addBlocks_linked sha hg (by simp [newBlockchain]) inputs
  refine ⟨_, hrun, ?_, hidx, rfl, hlink, by simpa [newBlockchain] using hd⟩
  simpa [newBlockchain] using congrArg List.length hd

/-- With SHA-256 injective, equal hashes mean equal records; fields are not separated in the
record, so only a change confined to one of Timestamp, Data and PrevHash is detected. -/
theorem calculateHash_binds_record (hsha : Function.Injective sha) {b1 b2 : Block}
    (h : calculateHash sha b1 = calculateHash sha b2) :
    b1.record = b2.record ∧
      (b1.index = b2.index → b1.timestamp = b2.timestamp → b1.data = b2.data →
        b1.prevHash = b2.prevHash) ∧
      (b1.index = b2.index → b1.timestamp = b2.timestamp → b1.prevHash = b2.prevHash →
        b1.data = b2.data) ∧
      (b1.index = b2.index → b1.data = b2.data → b1.prevHash = b2.prevHash →
        b1.timestamp = b2.timestamp) := by
  have hr : b1.record = b2.record := hsha (hexEncode_injective h)
  refine ⟨hr, fun hi ht hd => ?_, fun hi ht hp => ?_, fun hi hd hp => ?_⟩
  · rw [Block.record, Block.record, hi, ht, hd] at hr
    exact List.append_cancel_left hr
  · rw [Block.record, Block.record, hi, ht, hp] at hr
    exact List.append_cancel_left (List.append_cancel_right hr)
  · rw [Block.record, Block.record, hi, hd, hp] at hr
    exact List.append_cancel_left (List.append_cancel_right (List.append_cancel_right hr))

end

theorem calculateHash_binds_record_resplit :
    Function.Injective (fun x : Bytes => x) ∧
      calculateHash (fun x => x) ⟨0, [97], [], [], []⟩ = calculateHash (fun x => x) ⟨0, [], [97], [], []⟩ ∧
      Block.record ⟨0, [97], [], [], []⟩ = Block.record ⟨0, [], [97], [], []⟩ :=
  ⟨fun _ _ h => h, rfl, (calculateHash_binds_record _ (fun _ _ h => h) rfl).1⟩

/-- The hash does not bind the fields: with the identity as an injective SHA-256, two blocks
that split the same bytes differently between Timestamp and Data share their hash. -/
theorem calculateHash_fields_unbound :
    ¬ ∀ sha : Bytes → Bytes, Function.Injective sha → ∀ b1 b2 : Block,
      calculateHash sha b1 = calculateHash sha b2 →
        b1.index = b2.index ∧ b1.timestamp = b2.timestamp ∧ b1.data = b2.data ∧
          b1.prevHash = b2.prevHash := by
  intro h
  have := (h (fun x => x) (fun _ _ h => h) ⟨0, [97], [], [], []⟩ ⟨0, [], [97], [], []⟩ rfl).2.1
  simp at this

end ShardedLedger.Core
