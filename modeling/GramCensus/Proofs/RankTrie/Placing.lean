import GramCensus.Proofs.RankTrie.Ranks

/-!
# Placing fills what was announced

Arranging goes through the stems depth-first and announces how many nodes and child slots their trie
takes. Placing then appends to the arrays breadth-first. It only ever appends (`Layout.Extends`), so
every layout on the way (`Layout.stages`) fits the announced sizes as soon as the last one does, and
the last one takes up all of them. Main statement: `RankTrie.buildWith_fills`.
-/

namespace GramCensus

open Finset

namespace Layout

variable {threshold remaining nodes slots : Nat} {runs : List Run} {layout stage : Layout}

/-! ## Stages of placing -/

/-- The layouts that placing some runs leads through: the one it starts from, and the one behind
every node and every leaf. -/
def stages (threshold : Nat) : (remaining : Nat) → List Run → Layout → List Layout
  | 0, runs, layout => runs.scanl (fun l run => l.placeLeaf run.start) layout
  | remaining + 1, runs, layout =>
    let level := (childrenOf runs).map (·.map (·.1))
    level.scanl (fun l children => l.placeNode threshold children) layout ++
      stages threshold remaining ((childrenOf runs).map (·.map (·.2))).flatten
        (layout.placeNodes threshold level)

/-- The last stage is the layout of all runs. -/
theorem getLast?_stages (threshold remaining : Nat) (runs : List Run) (layout : Layout) :
    (stages threshold remaining runs layout).getLast? =
      some (placeLevels threshold remaining runs layout) := by
  induction remaining generalizing runs layout with
  | zero => exact List.getLast?_scanl
  | succ remaining ih => rw [stages, List.getLast?_append, ih, placeLevels_succ, Option.some_or]

/-- Where every step appends, a layout is part of what all steps lead to. -/
private theorem extends_of_mem_scanl {α : Type} {step : Layout → α → Layout}
    (appends : ∀ (layout : Layout) (item : α), layout.Extends (step layout item)) {items : List α}
    (member : stage ∈ items.scanl step layout) : stage.Extends (items.foldl step layout) := by
  induction items generalizing layout stage with
  | nil =>
    rw [List.scanl_nil, List.mem_singleton] at member
    rw [member]
    exact .refl layout
  | cons item items ih =>
    rw [List.scanl_cons, List.mem_cons] at member
    rcases member with rfl | later
    · -- The first layout is part of the second, from which the other steps start.
      have second : step stage item ∈ items.scanl step (step stage item) := by
        cases items <;> simp
      exact (appends stage item).trans (ih second)
    · exact ih later

theorem extends_placeLeaf (layout : Layout) (stem : Nat) : layout.Extends (layout.placeLeaf stem) :=
  ⟨List.prefix_rfl, by simp [placeLeaf], by simp [placeLeaf], List.prefix_rfl⟩

/-- Every stage is part of the last one. -/
theorem extends_of_mem_stages (member : stage ∈ stages threshold remaining runs layout) :
    stage.Extends (placeLevels threshold remaining runs layout) := by
  induction remaining generalizing runs layout with
  | zero => exact extends_of_mem_scanl (fun l (run : Run) => l.extends_placeLeaf run.start) member
  | succ remaining ih =>
    rw [placeLevels_succ]
    rcases List.mem_append.1 member with here | below
    · exact (extends_of_mem_scanl (fun l children => extends_placeNode threshold l children) here).trans
        (extends_placeLevels threshold remaining _ _)
    · exact ih below

/-! ## Room in the arrays -/

/-- A layout fits arrays for some numbers of nodes and child slots. -/
structure FitsIn (layout : Layout) (nodes slots : Nat) : Prop where
  edges : layout.edges.size ≤ nodes
  fanOuts : layout.fanOuts.size ≤ nodes
  links : layout.links.size ≤ nodes
  slots : layout.slots.size ≤ slots

/-- A layout takes up arrays for some numbers of nodes and child slots. -/
structure Fills (layout : Layout) (nodes slots : Nat) : Prop where
  edges : layout.edges.size = nodes
  fanOuts : layout.fanOuts.size = nodes
  links : layout.links.size = nodes
  slots : layout.slots.size = slots

/-- What is part of a layout fits the arrays that the layout takes up. -/
theorem Extends.fitsIn (part : stage.Extends layout) (fills : layout.Fills nodes slots) :
    stage.FitsIn nodes slots where
  edges := by simpa [fills.edges] using part.edges.length_le
  fanOuts := by simpa [fills.fanOuts] using part.fanOuts.length_le
  links := by simpa [fills.links] using part.links.length_le
  slots := by simpa [fills.slots] using part.slots.length_le

/-- Behind its last leaf, a layout awaits nothing. -/
theorem Awaits.placeLeaves (awaits : layout.Awaits runs.length) :
    (runs.foldl (fun l run => l.placeLeaf run.start) layout).Awaits 0 := by
  induction runs generalizing layout with
  | nil => exact awaits
  | cons run runs ih =>
    have edges := awaits.edges
    have fanOuts := awaits.fanOuts
    rw [List.length_cons] at edges
    refine @ih (layout.placeLeaf run.start) ⟨?_, ?_, awaits.root⟩
    · simp only [placeLeaf, Array.size_push]
      omega
    · simp only [placeLeaf, Array.size_push]
      omega

theorem Awaits.placeLevels (threshold remaining : Nat) (awaits : layout.Awaits runs.length) :
    (placeLevels threshold remaining runs layout).Awaits 0 := by
  induction remaining generalizing runs layout with
  | zero => exact awaits.placeLeaves
  | succ remaining ih =>
    rw [placeLevels_succ]
    exact ih (awaits.placeNodes threshold)

end Layout

namespace RankTrie

variable {threshold : Nat} {table : GramTable}

/-- The arrays of the nodes are equally long. -/
theorem awaits_placed (threshold : Nat) (table : GramTable) : (placed threshold table).Awaits 0 :=
  Layout.Awaits.placeLevels threshold table.width ⟨rfl, rfl, Nat.one_pos⟩

/-- Beginnings of stems are the empty one and others. -/
theorem card_nodePaths {stems : List Bytes} (some : stems ≠ []) :
    (nodePaths stems).card = 1 + ((nodePaths stems).erase []).card := by
  rcases List.exists_mem_of_ne_nil _ some with ⟨stem, member⟩
  have empty : [] ∈ nodePaths stems := mem_nodePaths.2 ⟨stem, member, List.nil_prefix⟩
  rw [Nat.add_comm, card_erase_add_one empty]

/-- Arranging stems that are all different announces a node for the root and for every other
beginning of a stem, and for every proper beginning 256 child slots or, below the threshold, as many
as there are bytes that go on from it. Placing the arranged stems fits arrays of these sizes at every
stage and takes them up at the last one. So no layout is refused for its size: building gives the trie
over it, with the footprint that was announced, unless one of the two sizes is too large for any
trie. -/
theorem buildWith_fills (threshold : Nat) (nonempty : table.entries ≠ [])
    (positive : 0 < table.width) (distinct : (table.entries.map (·.gram)).Nodup) :
    let stems := table.entries.map (·.gram)
    let nodes := 1 + ((nodePaths stems).erase []).card
    let slots := ∑ path ∈ nodePaths stems with path.length < table.width,
      if threshold ≤ (nextBytes stems path).card then 256 else (nextBytes stems path).card
    let arranged := arrange threshold table.width 0 table.entries
    let stages := Layout.stages threshold table.width [⟨0, arranged.entries.map (·.gram)⟩] Layout.start
    arranged.nodes + 1 = nodes ∧ arranged.slots = slots ∧
      (∀ stage ∈ stages, stage.FitsIn nodes slots) ∧
      ∃ layout, stages.getLast? = some layout ∧ layout.Fills nodes slots ∧
        (∀ array expected actual,
          (buildWith threshold table).2 ≠ .error (.trieLayout array expected actual)) ∧
        (largestArray < nodes ∨ largestArray < slots →
          (buildWith threshold table).2 = .error (.settings (.trieTooLarge nodes slots))) ∧
        (nodes ≤ largestArray → slots ≤ largestArray →
          ∃ trie, (buildWith threshold table).2 = .ok trie ∧ trie.layout = layout ∧
            trie.nodeCount = nodes ∧ trie.slotCount = slots ∧
            trie.footprint = 7 * nodes + 4 * slots) := by
  intro stems nodes slots arranged stages
  have some : stems ≠ [] := by simpa [stems] using nonempty
  rcases @sizes_arrange_table threshold table nonempty positive distinct with ⟨nodes_eq, slots_eq⟩
  have nodes_eq : arranged.nodes + 1 = nodes := nodes_eq.trans (card_nodePaths some)
  have slots_eq : arranged.slots = slots := slots_eq
  have fills : (placed threshold table).Fills nodes slots := by
    rcases @size_placed threshold table distinct with ⟨edges, children⟩
    have awaits := awaits_placed threshold table
    have edges : (placed threshold table).edges.size = nodes := edges.trans nodes_eq
    have links : (placed threshold table).links.size = nodes := awaits.edges.symm.trans edges
    exact ⟨edges, awaits.fanOuts.trans links, links, children.trans slots_eq⟩
  -- One equation says how building ends, and each of the cases is read off from it.
  have built := @snd_buildWith threshold table nonempty positive distinct
  rw [nodes_eq, slots_eq] at built
  refine ⟨nodes_eq, slots_eq, fun stage member => ?_, placed threshold table, ?_, fills, ?_, ?_, ?_⟩
  · exact (Layout.extends_of_mem_stages member).fitsIn fills
  · exact Layout.getLast?_stages threshold table.width _ _
  · intro array expected actual refused
    rw [built] at refused
    split at refused <;> cases refused
  · exact fun large => built.trans (if_pos large)
  · intro nodesFit slotsFit
    refine ⟨_, built.trans (if_neg (by omega)), rfl, fills.edges, fills.slots, ?_⟩
    rw [footprint, nodeCount, slotCount, fills.edges, fills.slots]
    omega

/-- Three stems with two first bytes take six nodes. With tables from two children on, the root and one
of the nodes below it have a table, and the other one has a single child slot. -/
theorem buildWith_fills_of_heavy_branch :
    heavyBranch.entries ≠ [] ∧ 0 < heavyBranch.width ∧ (heavyBranch.entries.map (·.gram)).Nodup ∧
      ∃ trie, (buildWith 2 heavyBranch).2 = .ok trie ∧ trie.nodeCount = 6 ∧
        trie.slotCount = 256 + 256 + 1 ∧ trie.footprint = 7 * 6 + 4 * (256 + 256 + 1) := by
  have nonempty : heavyBranch.entries ≠ [] := by decide
  have positive : 0 < heavyBranch.width := by decide
  have distinct : (heavyBranch.entries.map (·.gram)).Nodup := by decide
  refine ⟨nonempty, positive, distinct, ?_⟩
  rcases buildWith_fills 2 nonempty positive distinct with
    ⟨-, -, -, layout, -, -, -, -, builds⟩
  have nodes : 1 + ((nodePaths (heavyBranch.entries.map (·.gram))).erase []).card = 6 := by
    decide +kernel
  have slots : (∑ path ∈ nodePaths (heavyBranch.entries.map (·.gram)) with
      path.length < heavyBranch.width,
      if 2 ≤ (nextBytes (heavyBranch.entries.map (·.gram)) path).card then 256
      else (nextBytes (heavyBranch.entries.map (·.gram)) path).card) = 513 := by
    decide +kernel
  rw [nodes, slots] at builds
  rcases builds (by decide) (by decide) with ⟨trie, built, -, rest⟩
  exact ⟨trie, built, rest⟩

end RankTrie

end GramCensus
