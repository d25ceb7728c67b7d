import ShardedLedger.Core.Block

/-! `BloomFilter` of probabilistic_verification.go: a slice of `size` bits, and for an item the
`hashFuncs` indices `simpleHash(item, i) % size`, `i < hashFuncs`. `Add` sets the item's bits and
`Test` reads them. Go's `%` by a zero size panics, as does an index past the slice: the model
returns those faults. Bits are only ever set, so `Test` has no false negatives. -/

namespace ShardedLedger.Probabilistic
open ShardedLedger.Core

/-- A Go runtime panic. -/
inductive Fault
  | divideByZero
  | indexOutOfRange
  deriving DecidableEq, Repr

/-- `BloomFilter`; `size` and `hashFuncs` are Go `uint`s. -/
structure BloomFilter where
  bits : List Bool
  size : Nat
  hashFuncs : Nat
  deriving DecidableEq, Repr

def newBloomFilter (size hashFuncs : Nat) : BloomFilter := ⟨List.replicate size false, size, hashFuncs⟩

section
variable (sha : Bytes → Bytes)

/-- `simpleHash(data, seed)`: the first eight bytes of `SHA-256(data + string(seed))` as a
big-endian `uint64`. -/
def simpleHash (data : Bytes) (seed : Nat) : UInt64 :=
  ((sha (data ++ runeString seed)).take 8).foldl (fun result b => (result <<< 8) ||| b.toUInt64) 0

namespace BloomFilter

/-- `simpleHash(item, i) % uint64(bf.size)`, or the panic of a zero size. -/
def index (bf : BloomFilter) (item : Bytes) (i : Nat) : Except Fault Nat :=
  if bf.size = 0 then throw .divideByZero else pure ((simpleHash sha item i).toNat % bf.size)

/-- One iteration of the loop of `Add`: `bf.bits[index] = true`. -/
def setBit (item : Bytes) (bf : BloomFilter) (i : Nat) : Except Fault BloomFilter := do
  let index ← bf.index sha item i
  if index < bf.bits.length then pure { bf with bits := bf.bits.set index true }
  else throw .indexOutOfRange

def add (bf : BloomFilter) (item : Bytes) : Except Fault BloomFilter :=
  (List.range bf.hashFuncs).foldlM (setBit sha item) bf

/-- The loop of `Test` over the seeds `is`: `false` at the first bit not set, `true` past the
last. -/
def testFrom (bf : BloomFilter) (item : Bytes) : List Nat → Except Fault Bool
  | [] => pure true
  | i :: is => do
    let index ← bf.index sha item i
    match bf.bits[index]? with
    | none => throw .indexOutOfRange
    | some false => pure false
    | some true => bf.testFrom item is

def test (bf : BloomFilter) (item : Bytes) : Except Fault Bool :=
  bf.testFrom sha item (List.range bf.hashFuncs)

/-- Successive `Add` calls. -/
def addAll (bf : BloomFilter) (items : List Bytes) : Except Fault BloomFilter :=
  items.foldlM (fun bf item => bf.add sha item) bf

end BloomFilter

end

namespace BloomFilter

/-- `bf'` is `bf` with more bits set: the same size, hash count and slice length, and no bit
cleared. -/
structure Grows (bf bf' : BloomFilter) : Prop where
  size_eq : bf'.size = bf.size
  hashFuncs_eq : bf'.hashFuncs = bf.hashFuncs
  length_eq : bf'.bits.length = bf.bits.length
  keeps : ∀ j : Nat, bf.bits[j]? = some true → bf'.bits[j]? = some true

theorem Grows.refl (bf : BloomFilter) : Grows bf bf := ⟨rfl, rfl, rfl, fun _ => id⟩

theorem Grows.trans {a b c : BloomFilter} (h₁ : Grows a b) (h₂ : Grows b c) : Grows a c :=
  ⟨h₂.size_eq.trans h₁.size_eq, h₂.hashFuncs_eq.trans h₁.hashFuncs_eq, h₂.length_eq.trans h₁.length_eq,
    fun j h => h₂.keeps j (h₁.keeps j h)⟩

section
variable (sha : Bytes → Bytes) (item : Bytes)

private theorem index_of_pos {bf : BloomFilter} (hs : 0 < bf.size) (i : Nat) :
    bf.index sha item i = .ok ((simpleHash sha item i).toNat % bf.size) := by
  rw [index, if_neg (Nat.pos_iff_ne_zero.1 hs)]
  rfl

private theorem setBit_ok {bf : BloomFilter} (hs : 0 < bf.size) (hl : bf.bits.length = bf.size) (i : Nat) :
    ∃ bf', setBit sha item bf i = .ok bf' ∧ Grows bf bf' ∧
      bf'.bits[(simpleHash sha item i).toNat % bf.size]? = some true := by
  have hlt : (simpleHash sha item i).toNat % bf.size < bf.bits.length := by rw [hl]; exact Nat.mod_lt _ hs
  refine ⟨{ bf with bits := bf.bits.set ((simpleHash sha item i).toNat % bf.size) true }, ?_,
    ⟨rfl, rfl, List.length_set .., fun j hj => ?_⟩, List.getElem?_set_self hlt⟩
  · rw [setBit, index_of_pos sha item hs]
    exact if_pos hlt
  · rw [List.getElem?_set]
    split_ifs <;> simp_all

private theorem foldlM_grows {α : Type} (f : BloomFilter → α → Except Fault BloomFilter) (B : α → Nat → Prop)
    {bf₀ : BloomFilter}
    (hf : ∀ bf x, Grows bf₀ bf → ∃ bf', f bf x = .ok bf' ∧ Grows bf bf' ∧ ∀ j, B x j → bf'.bits[j]? = some true)
    (xs : List α) : ∀ {bf : BloomFilter}, Grows bf₀ bf →
      ∃ bf', xs.foldlM f bf = .ok bf' ∧ Grows bf bf' ∧ ∀ x ∈ xs, ∀ j, B x j → bf'.bits[j]? = some true := by
  induction xs with
  | nil => exact fun _ => ⟨_, rfl, Grows.refl _, fun _ h => absurd h (List.not_mem_nil _)⟩
  | cons x xs ih =>
    intro bf g
    obtain ⟨bf₁, h₁, g₁, hb₁⟩ := hf bf x g
    obtain ⟨bf₂, h₂, g₂, hb₂⟩ := ih (g.trans g₁)
    refine ⟨bf₂, by rw [List.foldlM_cons, h₁]; exact h₂, g₁.trans g₂, ?_⟩
    rintro y (_ | ⟨_, hy⟩) j hj
    · exact g₂.keeps j (hb₁ j hj)
    · exact hb₂ y hy j hj

private theorem add_ok {bf : BloomFilter} (hs : 0 < bf.size) (hl : bf.bits.length = bf.size) :
    ∃ bf', bf.add sha item = .ok bf' ∧ Grows bf bf' ∧
      ∀ i < bf.hashFuncs, bf'.bits[(simpleHash sha item i).toNat % bf.size]? = some true := by
  have hf (b : BloomFilter) (i : Nat) (g : Grows bf b) := by
    have := setBit_ok sha item (g.size_eq ▸ hs) (by rw [g.length_eq, g.size_eq, hl]) i
    rw [g.size_eq] at this
    exact this
  obtain ⟨bf', h, g, hb⟩ := foldlM_grows (setBit sha item)
    (fun i j => j = (simpleHash sha item i).toNat % bf.size)
    (fun b i g => (hf b i g).imp fun _ ⟨h, g, hb⟩ => ⟨h, g, fun _ hj => hj ▸ hb⟩) (List.range bf.hashFuncs)
    (Grows.refl bf)
  exact ⟨bf', h, g, fun i hi => hb i (List.mem_range.2 hi) _ rfl⟩

private theorem testFrom_eq_ok_true {bf : BloomFilter} (hs : 0 < bf.size) (is : List Nat) :
    bf.testFrom sha item is = .ok true ↔
      ∀ i ∈ is, bf.bits[(simpleHash sha item i).toNat % bf.size]? = some true := by
  induction is with
  | nil => exact iff_of_true rfl fun _ h => absurd h (List.not_mem_nil _)
  | cons i is ih =>
    rw [testFrom, index_of_pos sha item hs, List.forall_mem_cons, ← ih]
    dsimp only [bind, Except.bind]
    split <;> rename_i h <;> simp [h, throw, throwThe, MonadExceptOf.throw, pure, Except.pure]

private theorem addAll_ok (items : List Bytes) {bf : BloomFilter} (hs : 0 < bf.size) (hl : bf.bits.length = bf.size) :
    ∃ bf', bf.addAll sha items = .ok bf' ∧ Grows bf bf' ∧
      ∀ item ∈ items, ∀ i < bf.hashFuncs, bf'.bits[(simpleHash sha item i).toNat % bf.size]? = some true := by
  have hf (b : BloomFilter) (item : Bytes) (g : Grows bf b) := by
    have := add_ok sha item (g.size_eq ▸ hs) (by rw [g.length_eq, g.size_eq, hl])
    rw [g.size_eq, g.hashFuncs_eq] at this
    exact this
  obtain ⟨bf', h, g, hb⟩ := foldlM_grows (fun b item => b.add sha item)
    (fun item j => ∃ i < bf.hashFuncs, j = (simpleHash sha item i).toNat % bf.size)
    (fun b item g => (hf b item g).imp fun _ ⟨h, g, hb⟩ => ⟨h, g, fun _ ⟨i, hi, hj⟩ => hj ▸ hb i hi⟩) items
    (Grows.refl bf)
  exact ⟨bf', h, g, fun item hitem i hi => hb item hitem _ ⟨i, hi, rfl⟩⟩

private theorem Grows.keeps_test {bf bf' : BloomFilter} (g : Grows bf bf') (hs : 0 < bf.size)
    (ht : bf.test sha item = .ok true) : bf'.test sha item = .ok true := by
  rw [test, testFrom_eq_ok_true sha item (g.size_eq ▸ hs), g.size_eq, g.hashFuncs_eq]
  exact fun i hi => g.keeps _ ((testFrom_eq_ok_true sha item hs _).1 ht i hi)

end

variable (sha : Bytes → Bytes)

/-- After `NewBloomFilter(size, k)` with `size > 0` and any `Add` calls, `Test` holds of every item
added: there are no false negatives. Once `Test` holds of an item, further `Add` calls keep it. -/
theorem test_after_addAll (size k : Nat) (hsize : 0 < size) (items : List Bytes) :
    ∃ bf, (newBloomFilter size k).addAll sha items = .ok bf ∧ (∀ item ∈ items, bf.test sha item = .ok true) ∧
      ∀ item, bf.test sha item = .ok true →
        ∀ more, ∃ bf', bf.addAll sha more = .ok bf' ∧ bf'.test sha item = .ok true := by
  obtain ⟨bf, h, g, hb⟩ := @addAll_ok sha items (newBloomFilter size k) hsize (List.length_replicate _ _)
  have hs : 0 < bf.size := g.size_eq ▸ hsize
  refine ⟨bf, h, fun item hitem => ?_, fun item ht more => ?_⟩
  · rw [test, testFrom_eq_ok_true sha item hs, g.size_eq, g.hashFuncs_eq]
    exact fun i hi => hb item hitem i (List.mem_range.1 hi)
  · obtain ⟨bf', h', g', -⟩ := addAll_ok sha more hs (by rw [g.length_eq, g.size_eq]; exact List.length_replicate _ _)
    exact ⟨bf', h', g'.keeps_test sha item hs ht⟩

end BloomFilter

theorem test_after_addAll_sample :
    0 < 16 ∧ ∃ bf, (newBloomFilter 16 3).addAll (fun x => x) [bytesOf "a", bytesOf "b"] = .ok bf ∧
      (∀ item ∈ [bytesOf "a", bytesOf "b"], bf.test (fun x => x) item = .ok true) ∧
      ∀ item, bf.test (fun x => x) item = .ok true →
        ∀ more, ∃ bf', bf.addAll (fun x => x) more = .ok bf' ∧ bf'.test (fun x => x) item = .ok true :=
  ⟨by decide, BloomFilter.test_after_addAll _ 16 3 (by decide) _⟩

end ShardedLedger.Probabilistic
