import Mathlib.Data.List.Nodup
import ShardedLedger.Core.Block

/-! `SuccinctTrie` of part_001: a trie over the bytes of a key, each node with its value, its
hash and its children by byte. A node's hash digests its value and, in the order the range over
the children map visits them, each child's byte and hash. That order is the parameter `order`,
applied to the children as they were added. -/

namespace ShardedLedger.State
open ShardedLedger.Core

/-- `TrieNode`: the children map as its entries in the order they were added, the value, the
hash. -/
inductive TrieNode where
  | mk (children : List (UInt8 × TrieNode)) (value : Bytes) (hash : Bytes)

namespace TrieNode

def children : TrieNode → List (UInt8 × TrieNode)
  | mk cs _ _ => cs

def value : TrieNode → Bytes
  | mk _ v _ => v

def hash : TrieNode → Bytes
  | mk _ _ h => h

@[simp] theorem children_mk (cs : List (UInt8 × TrieNode)) (v h : Bytes) : (mk cs v h).children = cs :=
  rfl

@[simp] theorem value_mk (cs : List (UInt8 × TrieNode)) (v h : Bytes) : (mk cs v h).value = v := rfl

@[simp] theorem hash_mk (cs : List (UInt8 × TrieNode)) (v h : Bytes) : (mk cs v h).hash = h := rfl

/-- A node the walk of `Insert` creates: no children, empty value and hash. -/
def empty : TrieNode := mk [] [] []

/-- The bytes and hashes of the children, as they were added. -/
def childHashes (n : TrieNode) : List (UInt8 × Bytes) := n.children.map fun c => (c.1, c.2.hash)

end TrieNode

/-- `Children[b]`: the first entry for byte `b`. -/
def childAt (b : UInt8) : List (UInt8 × TrieNode) → Option TrieNode
  | [] => none
  | (c, t) :: cs => if c = b then some t else childAt b cs

/-- The loop step of `Insert` at one node: `Children[b]`, created empty when missing, replaced
by `f` of it. A new entry comes last. -/
def updateChild (f : TrieNode → TrieNode) (b : UInt8) : List (UInt8 × TrieNode) → List (UInt8 × TrieNode)
  | [] => [(b, f .empty)]
  | (c, t) :: cs => if c = b then (c, f t) :: cs else (c, t) :: updateChild f b cs

/-- What `computeNodeHash` appends for one child: `string(b) + child.Hash`. -/
def entryBytes (c : UInt8 × Bytes) : Bytes := runeString c.1.toNat ++ c.2

structure SuccinctTrie where
  root : TrieNode

/-- `NewSuccinctTrie`: a root with no children, empty value and hash. -/
def newSuccinctTrie : SuccinctTrie := ⟨.empty⟩

section
variable (sha : Bytes → Bytes) (order : List (UInt8 × Bytes) → List (UInt8 × Bytes))

/-- `computeNodeHash`: the hex SHA-256 of the value followed by each child's byte and hash, in
the order of the range. -/
def computeNodeHash (n : TrieNode) : Bytes :=
  hexEncode (sha (n.value ++ (order n.childHashes).flatMap entryBytes))

mutual
/-- `updateHashes`: every child first, then the node itself. -/
def TrieNode.updateHashes : TrieNode → TrieNode
  | .mk cs v _ => .mk (updateHashesIn cs) v (computeNodeHash sha order (.mk (updateHashesIn cs) v []))

/-- The range of `updateHashes` over the children. -/
def updateHashesIn : List (UInt8 × TrieNode) → List (UInt8 × TrieNode)
  | [] => []
  | (b, t) :: cs => (b, t.updateHashes) :: updateHashesIn cs
end

/-- The walk of `Insert` from a node along the rest of the key, creating missing children, then
`current.Value = value` and `current.Hash = computeNodeHash(current)` at its end. -/
def TrieNode.insertAt : List UInt8 → Bytes → TrieNode → TrieNode
  | [], value, .mk cs _ _ => .mk cs value (computeNodeHash sha order (.mk cs value []))
  | b :: bs, value, .mk cs v h => .mk (updateChild (insertAt bs value) b cs) v h

/-- `Insert(key, value)`: the walk, then `updateHashes` from the root. -/
def SuccinctTrie.insert (st : SuccinctTrie) (key value : Bytes) : SuccinctTrie :=
  ⟨(st.root.insertAt sha order key value).updateHashes sha order⟩

/-- Successive `Insert` calls. -/
def SuccinctTrie.insertAll (st : SuccinctTrie) (ops : List (Bytes × Bytes)) : SuccinctTrie :=
  ops.foldl (fun st op => st.insert sha order op.1 op.2) st

end

/-- The walk of `Get` from a node; `("", false)` when a child is missing or the value is empty. -/
def TrieNode.getAt : List UInt8 → TrieNode → Bytes × Bool
  | [], n => if n.value = [] then ([], false) else (n.value, true)
  | b :: bs, n =>
    match childAt b n.children with
    | some t => getAt bs t
    | none => ([], false)

def SuccinctTrie.get (st : SuccinctTrie) (key : Bytes) : Bytes × Bool := st.root.getAt key

def SuccinctTrie.getMerkleRoot (st : SuccinctTrie) : Bytes := st.root.hash

/-! What the trie holds: the value of the node at each path, whatever the hashes. -/

namespace TrieNode

/-- The value of the node the walk along `path` reaches; `none` when a child is missing. -/
def valueAt : List UInt8 → TrieNode → Option Bytes
  | [], n => some n.value
  | b :: bs, n => (childAt b n.children).bind (valueAt bs)

end TrieNode

private theorem childAt_updateChild (f : TrieNode → TrieNode) (b c : UInt8) (cs : List (UInt8 × TrieNode)) :
    childAt c (updateChild f b cs) = if c = b then some (f ((childAt b cs).getD .empty)) else childAt c cs := by
  induction cs with
  | nil =>
    by_cases h : c = b
    · subst h; simp [updateChild, childAt]
    · simp [updateChild, childAt, h, Ne.symm h]
  | cons e cs ih =>
    obtain ⟨d, t⟩ := e
    by_cases hd : d = b
    · subst hd
      by_cases h : c = d
      · subst h; simp [updateChild, childAt]
      · simp [updateChild, childAt, h, Ne.symm h]
    · simp only [updateChild, childAt, if_neg hd, ih]
      by_cases h : c = b <;> simp [h, hd, Ne.symm hd]

namespace TrieNode

private theorem valueAt_empty (path : List UInt8) : empty.valueAt path = if path = [] then some [] else none := by
  cases path <;> rfl

private theorem valueAt_cons_mk (b : UInt8) (bs : List UInt8) (cs : List (UInt8 × TrieNode)) (v h : Bytes) :
    (mk cs v h).valueAt (b :: bs) = (childAt b cs).bind (valueAt bs) := rfl

private theorem getAt_eq_valueAt (key : List UInt8) : ∀ n : TrieNode,
    n.getAt key = match n.valueAt key with
      | some v => if v = [] then ([], false) else (v, true)
      | none => ([], false) := by
  induction key with
  | nil => intro n; rfl
  | cons b bs ih =>
    intro n
    simp only [getAt, valueAt]
    cases childAt b n.children with
    | none => rfl
    | some t => exact ih t

end TrieNode

section
variable (sha : Bytes → Bytes) (order : List (UInt8 × Bytes) → List (UInt8 × Bytes))

private theorem childAt_updateHashesIn (b : UInt8) (cs : List (UInt8 × TrieNode)) :
    childAt b (updateHashesIn sha order cs) = (childAt b cs).map (TrieNode.updateHashes sha order) := by
  induction cs with
  | nil => rfl
  | cons e cs ih =>
    obtain ⟨d, t⟩ := e
    by_cases h : d = b <;> simp [updateHashesIn, childAt, h, ih]

namespace TrieNode

theorem updateHashes_mk (cs : List (UInt8 × TrieNode)) (v h : Bytes) :
    (mk cs v h).updateHashes sha order =
      mk (updateHashesIn sha order cs) v (computeNodeHash sha order (mk (updateHashesIn sha order cs) v [])) := by
  rw [updateHashes]

private theorem valueAt_updateHashes (path : List UInt8) : ∀ n : TrieNode,
    (n.updateHashes sha order).valueAt path = n.valueAt path := by
  induction path with
  | nil => intro n; cases n; rw [updateHashes_mk]; rfl
  | cons b bs ih =>
    rintro ⟨cs, v, h⟩
    rw [updateHashes_mk, valueAt_cons_mk, valueAt_cons_mk, childAt_updateHashesIn]
    cases childAt b cs <;> simp [ih]

private theorem valueAt_insertAt (key : List UInt8) (value : Bytes) : ∀ (n : TrieNode) (path : List UInt8),
    (n.insertAt sha order key value).valueAt path =
      if path = key then some value
      else if path <+: key then some ((n.valueAt path).getD []) else n.valueAt path := by
  induction key with
  | nil =>
    rintro ⟨cs, v, h⟩ (_ | ⟨b, bs⟩)
    · rfl
    · simp [insertAt, valueAt_cons_mk]
  | cons b bs ih =>
    rintro ⟨cs, v, h⟩ (_ | ⟨c, p⟩)
    · simp [insertAt, valueAt]
    · simp only [insertAt, valueAt_cons_mk, childAt_updateChild, List.cons.injEq, List.cons_prefix_cons]
      by_cases hc : c = b
      · subst hc
        cases hb : childAt c cs with
        | none => simp only [Option.getD_none, Option.some_bind, if_true, true_and, ih,
            valueAt_empty, Option.none_bind]; split_ifs <;> simp_all
        | some t => simp [ih]
      · simp [hc]

end TrieNode

end

/-! What a sequence of `Insert` calls on a fresh trie leaves, from the calls alone. -/

/-- The value of the last `Insert` of `key` among `ops`. -/
def lastInserted (ops : List (Bytes × Bytes)) (key : Bytes) : Option Bytes :=
  ((ops.filter fun op => op.1 = key).getLast?).map Prod.snd

/-- What a fresh trie holds at `path` after `ops`: the value of the last `Insert` of the path;
else an empty value at the root and at every prefix of an inserted key; else nothing. -/
def heldAt (ops : List (Bytes × Bytes)) (path : Bytes) : Option Bytes :=
  match lastInserted ops path with
  | some v => some v
  | none => if path = [] ∨ ∃ op ∈ ops, path <+: op.1 then some [] else none

private theorem lastInserted_concat (ops : List (Bytes × Bytes)) (op : Bytes × Bytes) (key : Bytes) :
    lastInserted (ops ++ [op]) key = if op.1 = key then some op.2 else lastInserted ops key := by
  by_cases h : op.1 = key <;> simp [lastInserted, List.filter_append, List.getLast?_append, h]

section
variable (sha : Bytes → Bytes) (order : List (UInt8 × Bytes) → List (UInt8 × Bytes))

private theorem insertAll_concat (st : SuccinctTrie) (ops : List (Bytes × Bytes)) (op : Bytes × Bytes) :
    st.insertAll sha order (ops ++ [op]) = (st.insertAll sha order ops).insert sha order op.1 op.2 := by
  simp [SuccinctTrie.insertAll, List.foldl_append]

private theorem valueAt_insertAll (ops : List (Bytes × Bytes)) (path : Bytes) :
    (newSuccinctTrie.insertAll sha order ops).root.valueAt path = heldAt ops path := by
  induction ops using List.reverseRecOn with
  | nil => cases path <;> rfl
  | append_singleton ops op ih =>
    rw [insertAll_concat, SuccinctTrie.insert, TrieNode.valueAt_updateHashes, TrieNode.valueAt_insertAt, ih]
    by_cases hk : path = op.1
    · simp [heldAt, lastInserted_concat, hk]
    · have hpre : (∃ o ∈ ops ++ [op], path <+: o.1) ↔ (∃ o ∈ ops, path <+: o.1) ∨ path <+: op.1 := by
        simp only [List.mem_append, List.mem_singleton, or_and_right, exists_or, exists_eq_left]
      simp only [heldAt, lastInserted_concat, if_neg hk, if_neg (Ne.symm hk)]
      by_cases hp : path <+: op.1
      · rw [if_pos hp]
        cases lastInserted ops path with
        | some w => rfl
        | none =>
          rw [if_pos (show path = [] ∨ ∃ o ∈ ops ++ [op], path <+: o.1 from .inr (hpre.2 (.inr hp)))]
          split_ifs <;> rfl
      · rw [if_neg hp]
        cases lastInserted ops path with
        | some w => rfl
        | none => exact if_congr (or_congr_right ((or_iff_left hp).symm.trans hpre.symm)) rfl rfl

/-- After any `Insert` calls on a fresh trie, `Get(k)` returns the value of the last `Insert` of
`k` when there is one and it is not empty, and `("", false)` otherwise. -/
theorem get_after_inserts (ops : List (Bytes × Bytes)) (key : Bytes) :
    (newSuccinctTrie.insertAll sha order ops).get key =
      match lastInserted ops key with
      | some v => if v = [] then ([], false) else (v, true)
      | none => ([], false) := by
  rw [SuccinctTrie.get, TrieNode.getAt_eq_valueAt, valueAt_insertAll, heldAt]
  cases lastInserted ops key with
  | some v => rfl
  | none => simp only; split_ifs <;> rfl

end

/-- `Insert(k, "")` leaves nothing `Get` can tell from a missing key. -/
theorem get_misses_empty_value :
    ¬ ∃ (sha : Bytes → Bytes) (order : List (UInt8 × Bytes) → List (UInt8 × Bytes)),
      ∀ ops key v, lastInserted ops key = some v →
        (newSuccinctTrie.insertAll sha order ops).get key = (v, true) := by
  rintro ⟨sha, order, h⟩
  have hget := h [([], [])] [] [] rfl
  rw [SuccinctTrie.get, TrieNode.getAt_eq_valueAt, valueAt_insertAll] at hget
  simp [heldAt, lastInserted] at hget

end ShardedLedger.State
