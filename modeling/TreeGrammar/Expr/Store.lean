import TreeGrammar.Fault

/-!
This module contains the store of expression nodes. Nodes are only ever added, each node is stored
once, and the children of a node come before it.
-/

namespace TreeGrammar

/--
The nodes created so far. The three constants come first; numbers are given out densely.
-/
structure Store where
  nodes : Array Node
  places : Std.TreeMap Nat (List Nat)
  mem_places : ∀ (i : Nat) (n : Node), nodes[i]? = some n → i ∈ places.getD n.key []
  below : ∀ (i : Nat) (h : i < nodes.size), nodes[i].Below ⟨i⟩
  nodup : nodes.toList.Nodup
  nodes_epsilon : nodes[ExprId.epsilon.index]? = some .epsilon
  nodes_nullSet : nodes[ExprId.nullSet.index]? = some .nullSet
  nodes_anyString : nodes[ExprId.anyString.index]? = some .anyString

namespace Store

def size (s : Store) : Nat := s.nodes.size

/--
The node with a number. A number that has not been given out reads as the null set.
-/
def node (s : Store) (id : ExprId) : Node := s.nodes[id.index]?.getD .nullSet

def find? (s : Store) (n : Node) : Option ExprId :=
  ((s.places.getD n.key []).find? fun i => s.nodes[i]? = some n).map ExprId.mk

theorem find?_eq_some_iff {s : Store} {n : Node} {id : ExprId} :
    s.find? n = some id ↔ s.nodes[id.index]? = some n := by
  obtain ⟨i⟩ := id
  have unique {j : Nat} (hi : s.nodes[i]? = some n) (hj : s.nodes[j]? = some n) : j = i := by
    have hlt := (Array.getElem?_eq_some_iff.1 hi).1
    exact ((List.getElem?_inj (i := i) (j := j) (by simpa using hlt) s.nodup).1 (by simp [hi, hj])).symm
  simp only [find?, Option.map_eq_some_iff, ExprId.mk.injEq, exists_eq_right]
  constructor
  . intro h
    simpa using List.find?_some h
  . intro h
    have found : ((s.places.getD n.key []).find? fun i => s.nodes[i]? = some n).isSome :=
      List.find?_isSome.2 ⟨i, s.mem_places i n h, by simpa using h⟩
    obtain ⟨j, hj⟩ := Option.isSome_iff_exists.1 found
    have stored : s.nodes[j]? = some n := by simpa using List.find?_some hj
    rw [hj, unique h stored]

theorem node_eq_of_find? {s : Store} {n : Node} {id : ExprId} (h : s.find? n = some id) :
    s.node id = n := by
  simp [node, find?_eq_some_iff.1 h]

theorem node_below (s : Store) (id : ExprId) : (s.node id).Below id := by
  unfold node
  by_cases h : id.index < s.nodes.size
  . simpa [h] using s.below id.index h
  . simp [h, Node.Below, Node.children]

@[simp]
theorem node_epsilon (s : Store) : s.node .epsilon = .epsilon := by
  simp [node, s.nodes_epsilon]

@[simp]
theorem node_nullSet (s : Store) : s.node .nullSet = .nullSet := by
  simp [node, s.nodes_nullSet]

@[simp]
theorem node_anyString (s : Store) : s.node .anyString = .anyString := by
  simp [node, s.nodes_anyString]

def initial : Store where
  nodes := #[.epsilon, .nullSet, .anyString]
  places := ((({} : Std.TreeMap Nat (List Nat)).insert 0 [0]).insert 1 [1]).insert 2 [2]
  mem_places := by
    intro i n h
    match i with
    | 0 | 1 | 2 => simp at h; subst h; decide
    | i + 3 => simp at h
  below := by
    intro i h
    match i, h with
    | 0, _ | 1, _ | 2, _ => simp [Node.Below, Node.children]
  nodup := by simp
  nodes_epsilon := rfl
  nodes_nullSet := rfl
  nodes_anyString := rfl

def push (s : Store) (n : Node) (new : s.find? n = none) (below : n.Below ⟨s.size⟩) : Store where
  nodes := s.nodes.push n
  places := s.places.insert n.key (s.size :: s.places.getD n.key [])
  mem_places := by
    intro i m h
    rw [Std.TreeMap.getD_insert]
    by_cases hi : i < s.nodes.size
    . have := s.mem_places i m (by rwa [Array.getElem?_push_lt hi, ← Array.getElem?_eq_getElem] at h)
      split <;> simp_all
    . rw [Array.getElem?_push] at h
      split at h
      . simp_all [size]
      . simp [Array.getElem?_eq_none (Nat.le_of_not_lt hi)] at h
  below := by
    intro i h
    by_cases hi : i < s.nodes.size
    . simpa [Array.getElem_push, hi] using s.below i hi
    . have : i = s.size := by simp [size] at h ⊢; omega
      subst this
      simpa [Array.getElem_push, size] using below
  nodup := by
    have fresh : ∀ m ∈ s.nodes, m ≠ n := fun m hm h => by
      obtain ⟨i, hi⟩ := Array.mem_iff_getElem?.1 hm
      have : s.find? n = some ⟨i⟩ := find?_eq_some_iff.2 (h ▸ hi)
      simp [this] at new
    simpa [List.nodup_append, s.nodup] using fresh
  nodes_epsilon := getElem?_push_of_some s.nodes_epsilon
  nodes_nullSet := getElem?_push_of_some s.nodes_nullSet
  nodes_anyString := getElem?_push_of_some s.nodes_anyString
where
  getElem?_push_of_some {i : Nat} {m : Node} (h : s.nodes[i]? = some m) :
      (s.nodes.push n)[i]? = some m := by
    obtain ⟨hi, hm⟩ := Array.getElem?_eq_some_iff.1 h
    rw [Array.getElem?_push_lt hi, hm]

/--
The number of a node, which is added if it is not stored yet. A new node needs room: the store must
not hold more than `limit` nodes before.
-/
def intern (s : Store) (limit : Nat) (n : Node) : Except Fault (ExprId × Store) :=
  match h : s.find? n with
  | some id => .ok (id, s)
  | none =>
    if limit < s.size then
      .error (.limitExceeded limit)
    else if below : n.Below ⟨s.size⟩ then
      .ok (⟨s.size⟩, s.push n h below)
    else
      .error (.foreignOperand ((n.children.find? (s.size ≤ ·.index)).getD .nullSet))

end Store

end TreeGrammar
