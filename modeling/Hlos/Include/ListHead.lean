import Hlos.Include.Page
import Hlos.Lib.ByteMemory
import Hlos.Lib.NodeStore

/-!
# `struct list_head` in byte memory

A node is two words, `prev` and `next`.  Nodes that do not overlap form a
region in which the functions of `list.h` write link words only.
-/

namespace Hlos.Include

open Hlos.Lib

def prevLink (m : Memory) (node : Word) : Word := m.load32 node.toNat

def nextLink (m : Memory) (node : Word) : Word := m.load32 (node + 4).toNat

instance : NodeStore Word Memory where
  null := 0
  getPrev node m := some (prevLink m node)
  getNext node m := some (nextLink m node)
  setPrev node value m := some (m.store32 node.toNat value)
  setNext node value m := some (m.store32 (node + 4).toNat value)

/-- The address of the second link word. -/
theorem nextWord_toNat {node : Word} (room : node.toNat + 4 < 2 ^ 32) :
    (node + 4).toNat = node.toNat + 4 :=
  BitVec.toNat_add_of_lt room

/-- The bytes of the link words. -/
def linkBytes (nodes : List Word) : Set Nat :=
  {position | ∃ node, node ∈ nodes ∧
    node.toNat ≤ position ∧ position < node.toNat + 8}

/-- The nodes lie in the address space and do not overlap. -/
structure SeparateNodes (nodes : List Word) : Prop where
  inside : ∀ node, node ∈ nodes → node.toNat + 8 ≤ 2 ^ 32
  apart : ∀ left right, left ∈ nodes → right ∈ nodes →
    left = right ∨ left.toNat + 8 ≤ right.toNat ∨
      right.toNat + 8 ≤ left.toNat

namespace SeparateNodes

variable {nodes : List Word}

theorem next_toNat (separate : SeparateNodes nodes) {node : Word}
    (member : node ∈ nodes) : (node + 4).toNat = node.toNat + 4 := by
  have bound := separate.inside node member
  exact nextWord_toNat (by omega)

/-- A store to a link word writes link bytes. -/
theorem store32_writesWithin {node : Word} (member : node ∈ nodes)
    {offset : Nat} (inside : offset ≤ 4) (value : Word) (m : Memory) :
    Memory.WritesWithin (linkBytes nodes) m
      (m.store32 (node.toNat + offset) value) := by
  apply Memory.store32_writesWithin
  intro position bound
  exact ⟨node, member, by omega, by omega⟩

theorem setPrev_spec (separate : SeparateNodes nodes) {node value : Word}
    (member : node ∈ nodes) (m : Memory) :
    ∃ m', NodeStore.setPrev node value m = some m' ∧
      Memory.WritesWithin (linkBytes nodes) m m' ∧
      (∀ q, q ∈ nodes → nextLink m' q = nextLink m q) ∧
      ∀ q, q ∈ nodes →
        prevLink m' q = Function.update (prevLink m) node value q := by
  refine ⟨_, rfl, store32_writesWithin member (Nat.zero_le 4) value m, ?_, ?_⟩
  · intro q qMember
    have places := separate.apart node q member qMember
    apply Memory.load32_store32_of_apart
    rw [separate.next_toNat qMember]
    rcases places with rfl | places <;> omega
  · intro q qMember
    by_cases same : q = node
    · rw [same, Function.update_self]
      exact Memory.load32_store32_self _ _ _
    · have places := separate.apart node q member qMember
      rw [Function.update_of_ne same]
      apply Memory.load32_store32_of_apart
      rcases places with isNode | places
      · exact absurd isNode.symm same
      · omega

theorem setNext_spec (separate : SeparateNodes nodes) {node value : Word}
    (member : node ∈ nodes) (m : Memory) :
    ∃ m', NodeStore.setNext node value m = some m' ∧
      Memory.WritesWithin (linkBytes nodes) m m' ∧
      (∀ q, q ∈ nodes →
        nextLink m' q = Function.update (nextLink m) node value q) ∧
      ∀ q, q ∈ nodes → prevLink m' q = prevLink m q := by
  have cell := separate.next_toNat member
  refine ⟨_, rfl, ?_, ?_, ?_⟩
  · rw [cell]
    exact store32_writesWithin member (Nat.le_refl 4) value m
  · intro q qMember
    by_cases same : q = node
    · rw [same, Function.update_self]
      exact Memory.load32_store32_self _ _ _
    · have places := separate.apart node q member qMember
      rw [Function.update_of_ne same]
      apply Memory.load32_store32_of_apart
      rw [cell, separate.next_toNat qMember]
      rcases places with isNode | places
      · exact absurd isNode.symm same
      · omega
  · intro q qMember
    have places := separate.apart node q member qMember
    apply Memory.load32_store32_of_apart
    rw [cell]
    rcases places with rfl | places <;> omega

end SeparateNodes

/-- Separate nodes are a region of byte memory. -/
def listHeadRegion (nodes : List Word) (separate : SeparateNodes nodes) :
    NodeRegion Word Memory where
  node node := node ∈ nodes
  next := nextLink
  prev := prevLink
  keeps := Memory.WritesWithin (linkBytes nodes)
  keeps_refl := Memory.WritesWithin.refl (linkBytes nodes)
  keeps_trans := Memory.WritesWithin.trans
  getPrev_eq _ _ := rfl
  getNext_eq _ _ := rfl
  setPrev_eq member _ m := separate.setPrev_spec member m
  setNext_eq member _ m := separate.setNext_spec member m

end Hlos.Include
