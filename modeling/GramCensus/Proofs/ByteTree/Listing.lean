import GramCensus.Proofs.ByteTree.Shape

/-!
# Listing the keys of a byte tree

Walking a tree with a stack lists its keys with their numbers (`ByteTree.Shaped.toList_eq`), and lists
them by ascending key (`ByteTree.Shaped.pairwise_entries`).
-/

namespace GramCensus

namespace ByteTree

/-- Trees on top of the stack are walked before the rest of the stack, and what leads to them is still
there behind that. -/
theorem walk_siblings {wideAbove remaining : Nat} {trees : List ByteTree}
    (shaped : ∀ tree ∈ trees, Shaped wideAbove remaining tree) (stack : List (List ByteTree))
    {path : Bytes} (length_eq : path.length = stack.length) {before : Bytes}
    (starts : before.take stack.length = path) :
    ∃ behind, behind.take stack.length = path ∧
      walk (trees :: stack) before =
        (trees.flatMap fun tree => (entries remaining tree).map fun pair =>
          (path ++ tree.byte :: pair.1, pair.2)) ++ walk stack behind := by
  -- By induction on the depth below the trees, and at each depth along the siblings.
  induction remaining generalizing trees stack path before with
  | zero =>
    induction trees generalizing before with
    | nil => exact ⟨before, starts, by rw [walk]; rfl⟩
    | cons tree trees ih =>
      rcases tree with ⟨top, value, table, children⟩
      rcases List.forall_mem_cons.1 shaped with ⟨first, others⟩
      obtain rfl : children = [] := first.1
      have again : (path ++ [top]).take stack.length = path := by
        rw [← length_eq, List.take_left]
      rcases ih others again with ⟨behind, starts', rest⟩
      refine ⟨behind, starts', ?_⟩
      rw [walk, starts, if_pos List.isEmpty_nil, rest, List.flatMap_cons]
      rfl
  | succ remaining ihBelow =>
    induction trees generalizing before with
    | nil => exact ⟨before, starts, by rw [walk]; rfl⟩
    | cons tree trees ih =>
      rcases tree with ⟨top, value, table, children⟩
      rcases List.forall_mem_cons.1 shaped with ⟨first, others⟩
      have nonempty : ¬ children.isEmpty = true := by
        rw [List.isEmpty_iff]
        exact first.1
      -- First the children are walked, and then the siblings, with the key left behind.
      have here : (path ++ [top]).length = (trees :: stack).length := by
        rw [List.length_append, length_eq, List.length_singleton, List.length_cons]
      rcases ihBelow (fun child => first.child) (trees :: stack) here
        (List.take_of_length_le (Nat.le_of_eq here)) with ⟨between, startsBetween, below⟩
      have again : between.take stack.length = path := by
        have cut := congrArg (List.take stack.length) startsBetween
        rwa [List.take_take, List.length_cons, Nat.min_eq_left (Nat.le_succ _), ← length_eq,
          List.take_left, length_eq] at cut
      rcases ih others again with ⟨behind, starts', rest⟩
      refine ⟨behind, starts', ?_⟩
      rw [walk, starts, if_neg nonempty]
      refine (below.trans ?_)
      rw [rest, List.flatMap_cons, ← List.append_assoc]
      congr 2
      rw [entries, entriesIn, List.map_flatMap]
      apply List.flatMap_congr
      intro child _
      rw [List.map_map]
      apply List.map_congr_left
      intro pair _
      simp [byte]

namespace Shaped

variable {wideAbove remaining : Nat} {tree : ByteTree}

/-- The walk lists what the tree holds. -/
theorem toList_eq (shaped : Shaped wideAbove (remaining + 1) tree) :
    tree.toList = entries (remaining + 1) tree := by
  rcases walk_siblings (fun child => shaped.child) [] List.length_nil (List.take_nil : [].take 0 = []) with
    ⟨behind, -, listed⟩
  rw [toList, listed, walk, List.append_nil, entries]
  rfl

/-- Keys are listed by ascending key. -/
theorem pairwise_entries (shaped : Shaped wideAbove remaining tree) :
    (entries remaining tree).Pairwise fun a b => a.1 < b.1 := by
  induction remaining generalizing tree with
  | zero => exact List.pairwise_singleton _ _
  | succ remaining ih =>
    rw [entries, entriesIn, List.pairwise_flatMap]
    constructor
    · intro child member
      rw [List.pairwise_map]
      refine (ih (shaped.child member)).imp fun {a b} before => ?_
      exact List.cons_lt_cons_iff.2 (.inr ⟨rfl, before⟩)
    · refine (List.pairwise_map.1 shaped.2.2.1).imp fun {a b} before first inFirst second inSecond => ?_
      rcases List.mem_map.1 inFirst with ⟨x, -, rfl⟩
      rcases List.mem_map.1 inSecond with ⟨y, -, rfl⟩
      exact List.cons_lt_cons_iff.2 (.inl before)

end Shaped

end ByteTree

end GramCensus
