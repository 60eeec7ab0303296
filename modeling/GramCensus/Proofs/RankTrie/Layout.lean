import GramCensus.RankTrie.Layout
import GramCensus.Proofs.ByteTable
import GramCensus.Proofs.RankTrie.Order

/-!
# What a layout holds

Breadth-first placing puts every run of stems at a node of its own: the node's segment lists its
children, the children stand side by side from some number on, and each of them holds the run behind
its byte, down to the leaves, which hold the positions of their stems (`Layout.Holds`,
`Layout.holds_placeLevels`). How many nodes and child slots this takes is a sum over the runs
(`Layout.size_placeLevels`), which is what arranging computes before anything is placed
(`sizes_arrange`).
-/

namespace GramCensus

/-! ## Runs -/

def Run.positions (run : Run) : List (Bytes × Nat) :=
  run.tails.zipIdx run.start

theorem flatMap_splitRuns {tails : List Bytes} (long : ∀ tail ∈ tails, tail ≠ []) (start : Nat) :
    (splitRuns start tails).flatMap (fun child =>
      child.2.positions.map fun stem => (child.1 :: stem.1, stem.2)) = tails.zipIdx start := by
  induction tails generalizing start with
  | nil => rfl
  | cons tail tails ih =>
    rcases List.forall_mem_cons.1 long with ⟨first, others⟩
    rcases List.exists_cons_of_ne_nil first with ⟨byte, rest, rfl⟩
    have ih := ih others (start + 1)
    rw [splitRuns, List.zipIdx_cons, ← ih]
    split
    case h_1 none => simp [none, Run.positions]
    case h_2 next run more found =>
      rw [found]
      split
      case isTrue same =>
        -- The run that the stem joins begins with the next stem.
        have consecutive : run.start = start + 1 ∨ run.tails = [] := by
          cases stems : run.tails with
          | nil => exact .inr rfl
          | cons stem stems' =>
            left
            rw [found, List.flatMap_cons, Run.positions, stems, List.zipIdx_cons] at ih
            cases tails with
            | nil => simp at ih
            | cons tail' tails' =>
              rw [List.zipIdx_cons, List.map_cons, List.cons_append, List.cons.injEq] at ih
              exact congrArg Prod.snd ih.1
        rcases consecutive with behind | empty
        · simp [Run.positions, List.zipIdx_cons, behind, same]
        · simp [Run.positions, empty, same]
      case isFalse => simp [Run.positions]

/-- The bytes and the rests of the stems of some children. -/
def runShapes (children : List (UInt8 × Run)) : List (UInt8 × List Bytes) :=
  children.map fun child => (child.1, child.2.tails)

/-- A group of stems that go on with the same byte makes one run, if the next stem goes on with
another one. -/
private theorem runShapes_splitRuns_append {byte : UInt8} {tail : Bytes} {tails rest : List Bytes}
    {shapes : List (UInt8 × List Bytes)}
    (behind : ∀ start, runShapes (splitRuns start rest) = shapes)
    (differ : ∀ shape ∈ shapes, shape.1 ≠ byte) (start : Nat) :
    runShapes (splitRuns start ((tail :: tails).map (byte :: ·) ++ rest)) =
      (byte, tail :: tails) :: shapes := by
  induction tails generalizing tail start with
  | nil =>
    -- The last stem of the group opens a run of its own, as the stems behind it go on differently.
    have behind := behind (start + 1)
    rw [List.map_cons, List.map_nil, List.cons_append, List.nil_append, splitRuns]
    split
    case h_1 none =>
      rw [none] at behind
      simp [runShapes, ← behind]
    case h_2 next run more found =>
      rw [found] at behind
      have other : byte ≠ next := by
        intro same
        refine differ (next, run.tails) ?_ same.symm
        rw [← behind]
        exact List.mem_cons_self
      rw [if_neg other, ← behind]
      rfl
  | cons next tails ih =>
    have ih := @ih next (start + 1)
    rw [List.map_cons, List.cons_append, splitRuns]
    split
    case h_1 none =>
      rw [none] at ih
      cases ih
    case h_2 byte' run more found =>
      rw [found, runShapes, List.map_cons, List.cons.injEq, Prod.mk.injEq] at ih
      rcases ih with ⟨⟨same, tails_eq⟩, more_eq⟩
      rw [if_pos same.symm, runShapes, List.map_cons, more_eq]
      simp only at tails_eq ⊢
      rw [tails_eq]

/-- Groups are split into the runs that they are made of. -/
theorem runShapes_splitRuns {groups : List (UInt8 × List Bytes)}
    (distinct : (groups.map (·.1)).Nodup) (nonempty : ∀ group ∈ groups, group.2 ≠ []) (start : Nat) :
    runShapes (splitRuns start (groups.flatMap fun group => group.2.map (group.1 :: ·))) =
      groups := by
  induction groups generalizing start with
  | nil => rfl
  | cons group groups ih =>
    rcases group with ⟨byte, tails⟩
    rcases List.nodup_cons.1 distinct with ⟨absent, distinctRest⟩
    rcases List.forall_mem_cons.1 nonempty with ⟨first, others⟩
    rcases List.exists_cons_of_ne_nil first with ⟨tail, tails, rfl⟩
    rw [List.flatMap_cons]
    refine runShapes_splitRuns_append (ih distinctRest others) (fun shape member same => ?_) start
    exact absent (List.mem_map.2 ⟨shape, member, same⟩)

/-- Where a run begins has no influence on how it is split. -/
theorem runShapes_splitRuns_start (start start' : Nat) (tails : List Bytes) :
    runShapes (splitRuns start tails) = runShapes (splitRuns start' tails) := by
  induction tails generalizing start start' with
  | nil => rfl
  | cons tail tails ih =>
    have ih := ih (start + 1) (start' + 1)
    cases tail with
    | nil => exact ih
    | cons byte tail =>
      rw [splitRuns, splitRuns]
      -- Both lists of runs go on alike, so a stem joins the first run in both or in neither.
      cases first : splitRuns (start + 1) tails with
      | nil =>
        rw [first] at ih
        rw [List.map_eq_nil_iff.1 ih.symm]
        rfl
      | cons child more =>
        rw [first] at ih
        rcases List.map_eq_cons_iff.1 ih.symm with ⟨child', more', second, same, others⟩
        rcases Prod.mk.inj same with ⟨sameByte, sameTails⟩
        rw [second]
        simp only [sameByte]
        split
        · simp [runShapes, sameTails, others]
        · simp [runShapes, sameTails, others]

/-- A run of grouped stems splits into runs of grouped stems, no two of them with the same byte. -/
theorem Grouped.splitRuns {remaining : Nat} {tails : List Bytes}
    (grouped : Grouped (remaining + 1) tails) (start : Nat) :
    ((splitRuns start tails).map (·.1)).Nodup ∧
      (∀ child ∈ splitRuns start tails, Grouped remaining child.2.tails) ∧
      ∀ tail ∈ tails, tail ≠ [] := by
  rcases grouped with ⟨groups, rfl, -, distinct, each⟩
  have shapes := runShapes_splitRuns distinct (fun group listed => (each group listed).ne_nil) start
  refine ⟨?_, ?_, ?_⟩
  · have bytes := congrArg (List.map (·.1)) shapes
    rw [runShapes, List.map_map] at bytes
    rw [show (fun child : UInt8 × Run => child.1) =
      (fun group : UInt8 × List Bytes => group.1) ∘ fun child => (child.1, child.2.tails) from rfl,
      bytes]
    exact distinct
  · intro child member
    have listed : (child.1, child.2.tails) ∈ groups := by
      rw [← shapes]
      exact List.mem_map_of_mem member
    exact each _ listed
  · intro tail member
    rcases List.mem_flatMap.1 member with ⟨group, -, inside⟩
    rcases List.mem_map.1 inside with ⟨rest, -, rfl⟩
    exact List.cons_ne_nil _ _

/-! ## Placing -/

theorem getElem?_of_prefix {α : Type} {xs ys : List α} (longer : xs <+: ys) {i : Nat} {x : α}
    (held : xs[i]? = some x) : ys[i]? = some x := by
  rcases longer with ⟨more, rfl⟩
  rcases List.getElem?_eq_some_iff.1 held with ⟨inside, -⟩
  rw [List.getElem?_append_left inside]
  exact held

/-- A list among several lists that stand one after the other. -/
theorem flatten_eq_append {α : Type} {lists : List (List α)} {k : Nat} {items : List α}
    (listed : lists[k]? = some items) :
    lists.flatten = (lists.take k).flatten ++ items ++ (lists.drop (k + 1)).flatten := by
  rcases List.getElem?_eq_some_iff.1 listed with ⟨inside, value⟩
  have split : lists = lists.take k ++ items :: lists.drop (k + 1) := by
    rw [← value, ← List.drop_eq_getElem_cons inside, List.take_append_drop]
  have flat := congrArg List.flatten split
  rwa [List.flatten_append, List.flatten_cons, ← List.append_assoc] at flat

/-- An item of one list among several lists that stand one after the other. -/
theorem getElem?_flatten_add {α : Type} {lists : List (List α)} {k i : Nat} {items : List α} {x : α}
    (listed : lists[k]? = some items) (held : items[i]? = some x) :
    lists.flatten[(lists.take k).flatten.length + i]? = some x := by
  rcases List.getElem?_eq_some_iff.1 held with ⟨inside, -⟩
  rw [flatten_eq_append listed, List.append_assoc,
    List.getElem?_append_right (Nat.le_add_right _ _), Nat.add_sub_cancel_left,
    List.getElem?_append_left inside]
  exact held

/-- Some items stand in an array from a position on. -/
def StandsAt {α : Type} (items : List α) (start : Nat) (array : Array α) : Prop :=
  ∃ before after, array.toList = before ++ items ++ after ∧ before.length = start

theorem StandsAt.of_prefix {α : Type} {items : List α} {start : Nat} {array longer : Array α}
    (stands : StandsAt items start array) (prefix_ : array.toList <+: longer.toList) :
    StandsAt items start longer := by
  rcases stands with ⟨before, after, array_eq, length_eq⟩
  rcases prefix_ with ⟨more, longer_eq⟩
  exact ⟨before, after ++ more, by rw [← longer_eq, array_eq, List.append_assoc], length_eq⟩

theorem StandsAt.getElem? {α : Type} {items : List α} {start : Nat} {array : Array α}
    (stands : StandsAt items start array) {i : Nat} {x : α} (held : items[i]? = some x) :
    array.toList[start + i]? = some x := by
  rcases stands with ⟨before, after, array_eq, rfl⟩
  rcases List.getElem?_eq_some_iff.1 held with ⟨inside, -⟩
  rw [array_eq, List.append_assoc, List.getElem?_append_right (Nat.le_add_right _ _),
    Nat.add_sub_cancel_left, List.getElem?_append_left inside]
  exact held

namespace Layout

/-- All of a layout is in another one that goes on behind it. -/
structure Extends (layout longer : Layout) : Prop where
  edges : layout.edges.toList <+: longer.edges.toList
  fanOuts : layout.fanOuts.toList <+: longer.fanOuts.toList
  links : layout.links.toList <+: longer.links.toList
  slots : layout.slots.toList <+: longer.slots.toList

theorem Extends.refl (layout : Layout) : layout.Extends layout :=
  ⟨List.prefix_rfl, List.prefix_rfl, List.prefix_rfl, List.prefix_rfl⟩

theorem Extends.trans {layout longer longest : Layout} (first : layout.Extends longer)
    (second : longer.Extends longest) : layout.Extends longest :=
  ⟨first.edges.trans second.edges, first.fanOuts.trans second.fanOuts,
    first.links.trans second.links, first.slots.trans second.slots⟩

/-- A node holds a run of stems that have `remaining` bytes left: a leaf holds the position of its
stem, and an inner node has its children's numbers in its segment, the children standing side by
side with the bytes on the edges into them, and each holding its part of the run. -/
def Holds (threshold : Nat) (layout : Layout) : (remaining node : Nat) → Run → Prop
  | 0, node, run => layout.links.toList[node]? = some run.start
  | remaining + 1, node, run =>
    let children := splitRuns run.start run.tails
    let bytes := children.map (·.1)
    ∃ first start, 0 < first ∧
      layout.fanOuts.toList[node]? = some bytes.length ∧
      layout.links.toList[node]? = some start ∧
      StandsAt (segment threshold first bytes).toList start layout.slots ∧
      StandsAt bytes first layout.edges ∧
      ∀ i child, children[i]? = some child → Holds threshold layout remaining (first + i) child.2

theorem extends_placeNode (threshold : Nat) (layout : Layout) (children : List UInt8) :
    layout.Extends (layout.placeNode threshold children) where
  edges := by simp [placeNode]
  fanOuts := by simp [placeNode]
  links := by simp [placeNode]
  slots := by simp [placeNode]

/-- Places the inner nodes of one depth. -/
def placeNodes (threshold : Nat) (layout : Layout) (level : List (List UInt8)) : Layout :=
  level.foldl (fun l children => l.placeNode threshold children) layout

theorem extends_placeNodes (threshold : Nat) (layout : Layout) (level : List (List UInt8)) :
    layout.Extends (layout.placeNodes threshold level) := by
  induction level generalizing layout with
  | nil => exact .refl layout
  | cons children level ih =>
    exact (extends_placeNode threshold layout children).trans (ih _)

theorem edges_placeNodes (threshold : Nat) (layout : Layout) (level : List (List UInt8)) :
    (layout.placeNodes threshold level).edges.toList = layout.edges.toList ++ level.flatten := by
  induction level generalizing layout with
  | nil => simp [placeNodes]
  | cons children level ih =>
    rw [placeNodes, List.foldl_cons]
    refine (ih _).trans ?_
    simp [placeNode]

theorem fanOuts_placeNodes (threshold : Nat) (layout : Layout) (level : List (List UInt8)) :
    (layout.placeNodes threshold level).fanOuts.toList =
      layout.fanOuts.toList ++ level.map List.length := by
  induction level generalizing layout with
  | nil => simp [placeNodes]
  | cons children level ih =>
    rw [placeNodes, List.foldl_cons]
    refine (ih _).trans ?_
    simp [placeNode]

theorem length_links_placeNodes (threshold : Nat) (layout : Layout) (level : List (List UInt8)) :
    (layout.placeNodes threshold level).links.size = layout.links.size + level.length := by
  induction level generalizing layout with
  | nil => rfl
  | cons children level ih =>
    rw [placeNodes, List.foldl_cons]
    refine (ih _).trans ?_
    simp only [placeNode, Array.size_push, List.length_cons]
    omega

/-- Every node that is placed gets a segment for children that are numbered behind those of the nodes
placed before it. -/
theorem segment_placeNodes (threshold : Nat) {layout : Layout} {level : List (List UInt8)}
    {k : Nat} {children : List UInt8} (listed : level[k]? = some children) :
    ∃ start, (layout.placeNodes threshold level).links.toList[layout.links.size + k]? = some start ∧
      StandsAt (segment threshold (layout.edges.size + (level.take k).flatten.length) children).toList
        start (layout.placeNodes threshold level).slots := by
  induction level generalizing layout k with
  | nil => simp at listed
  | cons first level ih =>
    cases k with
    | zero =>
      -- The node is the first one to be placed, and the others are placed behind it.
      have behind := extends_placeNodes threshold (layout.placeNode threshold first) level
      have same : first = children := by simpa using listed
      subst same
      refine ⟨layout.slots.size, ?_, ?_⟩
      · refine getElem?_of_prefix behind.links ?_
        simp [placeNode]
      · rcases behind.slots with ⟨after, slots_eq⟩
        refine ⟨layout.slots.toList, after, ?_, by simp⟩
        rw [placeNodes, List.foldl_cons]
        refine slots_eq.symm.trans ?_
        simp [placeNode]
    | succ k =>
      obtain ⟨start, link, stands⟩ :=
        @ih (layout.placeNode threshold first) k (by simpa using listed)
      refine ⟨start, ?_, ?_⟩
      · rw [← link, placeNodes, List.foldl_cons, placeNodes]
        simp only [placeNode, Array.size_push]
        congr 1
        omega
      · simp only [placeNode, Array.size_append, List.size_toArray] at stands
        rw [List.take_succ_cons, List.flatten_cons, List.length_append, ← Nat.add_assoc]
        exact stands

theorem extends_placeLeaves (layout : Layout) (runs : List Run) :
    layout.Extends (runs.foldl (fun l run => l.placeLeaf run.start) layout) := by
  induction runs generalizing layout with
  | nil => exact .refl layout
  | cons run runs ih =>
    refine Extends.trans ?_ (ih _)
    exact ⟨List.prefix_rfl, by simp [placeLeaf], by simp [placeLeaf], List.prefix_rfl⟩

theorem links_placeLeaves (layout : Layout) (runs : List Run) :
    (runs.foldl (fun l run => l.placeLeaf run.start) layout).links.toList =
      layout.links.toList ++ runs.map (·.start) := by
  induction runs generalizing layout with
  | nil => simp
  | cons run runs ih =>
    rw [List.foldl_cons, ih]
    simp [placeLeaf]

def childrenOf (runs : List Run) : List (List (UInt8 × Run)) :=
  runs.map fun run => splitRuns run.start run.tails

theorem placeLevels_succ (threshold remaining : Nat) (runs : List Run) (layout : Layout) :
    placeLevels threshold (remaining + 1) runs layout =
      placeLevels threshold remaining ((childrenOf runs).map (·.map (·.2))).flatten
        (layout.placeNodes threshold ((childrenOf runs).map (·.map (·.1)))) := by
  simp only [placeLevels, placeNodes, childrenOf, List.foldl_map, List.flatMap_def]

/-- A layout under way has numbered the nodes of the next depth, which hold some runs, and has placed
all nodes before them. -/
structure Awaits (layout : Layout) (runs : Nat) : Prop where
  edges : layout.edges.size = layout.links.size + runs
  fanOuts : layout.fanOuts.size = layout.links.size
  root : 0 < layout.edges.size

/-- Behind a depth, the layout awaits the children of its runs. -/
theorem Awaits.placeNodes (threshold : Nat) {layout : Layout} {runs : List Run}
    (awaits : layout.Awaits runs.length) :
    (layout.placeNodes threshold ((childrenOf runs).map (·.map (·.1)))).Awaits
      ((childrenOf runs).map (·.map (·.2))).flatten.length where
  edges := by
    rw [← Array.length_toList, edges_placeNodes, length_links_placeNodes, List.length_append,
      Array.length_toList, awaits.edges, List.length_flatten, List.length_flatten, List.map_map,
      List.map_map, List.length_map, childrenOf, List.length_map]
    simp [Function.comp_def]
  fanOuts := by
    rw [← Array.length_toList, fanOuts_placeNodes, length_links_placeNodes, List.length_append,
      Array.length_toList, awaits.fanOuts, List.length_map]
  root := by
    rw [← Array.length_toList, edges_placeNodes, List.length_append, Array.length_toList]
    exact Nat.lt_of_lt_of_le awaits.root (Nat.le_add_right _ _)

theorem extends_placeLevels (threshold remaining : Nat) (runs : List Run) (layout : Layout) :
    layout.Extends (placeLevels threshold remaining runs layout) := by
  induction remaining generalizing runs layout with
  | zero => exact extends_placeLeaves layout runs
  | succ remaining ih =>
    rw [placeLevels_succ]
    exact (extends_placeNodes threshold layout _).trans (ih _ _)

theorem holds_placeLevels {threshold remaining : Nat} {runs : List Run} {layout : Layout}
    (awaits : layout.Awaits runs.length) {k : Nat} {run : Run} (listed : runs[k]? = some run) :
    (placeLevels threshold remaining runs layout).Holds threshold remaining
      (layout.links.size + k) run := by
  induction remaining generalizing runs layout k run with
  | zero =>
    rw [Holds, placeLevels, links_placeLeaves,
      List.getElem?_append_right (by rw [Array.length_toList]; omega), Array.length_toList,
      Nat.add_sub_cancel_left, List.getElem?_map, listed]
    rfl
  | succ remaining ih =>
    rw [placeLevels_succ]
    have level : ((childrenOf runs).map (·.map (·.1)))[k]? =
        some ((splitRuns run.start run.tails).map (·.1)) := by
      simp [childrenOf, listed]
    have behind := extends_placeLevels threshold remaining
      ((childrenOf runs).map (·.map (·.2))).flatten
      (layout.placeNodes threshold ((childrenOf runs).map (·.map (·.1))))
    rcases segment_placeNodes threshold level with ⟨start, link, segment⟩
    refine ⟨_, start, ?_, ?_, getElem?_of_prefix behind.links link,
      segment.of_prefix behind.slots, ?_, ?_⟩
    · exact Nat.lt_of_lt_of_le awaits.root (Nat.le_add_right _ _)
    · refine getElem?_of_prefix behind.fanOuts ?_
      rw [fanOuts_placeNodes, List.getElem?_append_right
        (by rw [Array.length_toList, awaits.fanOuts]; omega), Array.length_toList, awaits.fanOuts,
        Nat.add_sub_cancel_left, List.getElem?_map, level]
      rfl
    · refine StandsAt.of_prefix ?_ behind.edges
      refine ⟨layout.edges.toList ++ (((childrenOf runs).map (·.map (·.1))).take k).flatten,
        (((childrenOf runs).map (·.map (·.1))).drop (k + 1)).flatten, ?_, ?_⟩
      · rw [edges_placeNodes, flatten_eq_append level]
        simp only [List.append_assoc]
      · rw [List.length_append, Array.length_toList]
    · intro i child held
      -- The children of a run are numbered behind those of the runs before it.
      have siblings : ((childrenOf runs).map (·.map (·.2)))[k]? =
          some ((splitRuns run.start run.tails).map (·.2)) := by
        simp [childrenOf, listed]
      have place : ((splitRuns run.start run.tails).map (·.2))[i]? = some child.2 := by
        rw [List.getElem?_map, held]
        rfl
      have below := ih (awaits.placeNodes threshold) (getElem?_flatten_add siblings place)
      have widths : (((childrenOf runs).map (·.map (·.1))).take k).flatten.length =
          (((childrenOf runs).map (·.map (·.2))).take k).flatten.length := by
        simp [List.length_flatten, ← List.map_take, Function.comp_def]
      rw [length_links_placeNodes, List.length_map, childrenOf, List.length_map, ← childrenOf,
        ← awaits.edges, ← widths, ← Nat.add_assoc] at below
      exact below

/-! ## Sizes -/

theorem size_segment (threshold first : Nat) (children : List UInt8) :
    (segment threshold first children).size = segmentLength threshold children.length := by
  rw [segment, segmentLength]
  split
  case isTrue => exact size_byteTable 0 (first + ·) children
  case isFalse => simp [listSegment]

/-- The nodes below a node over what is left of some stems. -/
def nodesBelow : (remaining : Nat) → List Bytes → Nat
  | 0, _ => 0
  | remaining + 1, tails =>
    let groups := runShapes (splitRuns 0 tails)
    groups.length + (groups.map fun group => nodesBelow remaining group.2).sum

/-- The child slots of a node over what is left of some stems and of all nodes below it. -/
def slotsBelow (threshold : Nat) : (remaining : Nat) → List Bytes → Nat
  | 0, _ => 0
  | remaining + 1, tails =>
    let groups := runShapes (splitRuns 0 tails)
    segmentLength threshold groups.length +
      (groups.map fun group => slotsBelow threshold remaining group.2).sum

theorem size_placeLeaves (layout : Layout) (runs : List Run) :
    (runs.foldl (fun l run => l.placeLeaf run.start) layout).edges = layout.edges ∧
      (runs.foldl (fun l run => l.placeLeaf run.start) layout).slots = layout.slots := by
  induction runs generalizing layout with
  | nil => exact ⟨rfl, rfl⟩
  | cons run runs ih => exact ih _

theorem size_slots_placeNodes (threshold : Nat) (layout : Layout) (level : List (List UInt8)) :
    (layout.placeNodes threshold level).slots.size =
      layout.slots.size + (level.map fun children => segmentLength threshold children.length).sum := by
  induction level generalizing layout with
  | nil => rfl
  | cons children level ih =>
    rw [placeNodes, List.foldl_cons]
    refine (ih _).trans ?_
    simp only [placeNode, Array.size_append, size_segment, List.map_cons, List.sum_cons]
    omega

theorem nodesBelow_tails (remaining : Nat) (run : Run) :
    nodesBelow (remaining + 1) run.tails = (splitRuns run.start run.tails).length +
      ((splitRuns run.start run.tails).map fun child => nodesBelow remaining child.2.tails).sum := by
  rw [nodesBelow, runShapes_splitRuns_start 0 run.start]
  simp [runShapes, Function.comp_def]

theorem slotsBelow_tails (threshold remaining : Nat) (run : Run) :
    slotsBelow threshold (remaining + 1) run.tails =
      segmentLength threshold (splitRuns run.start run.tails).length +
      ((splitRuns run.start run.tails).map
        fun child => slotsBelow threshold remaining child.2.tails).sum := by
  rw [slotsBelow, runShapes_splitRuns_start 0 run.start]
  simp [runShapes, Function.comp_def]

/-- The sizes that placing some runs leads to are sums over the runs. -/
theorem size_placeLevels (threshold remaining : Nat) (runs : List Run) (layout : Layout) :
    (placeLevels threshold remaining runs layout).edges.size =
        layout.edges.size + (runs.map fun run => nodesBelow remaining run.tails).sum ∧
      (placeLevels threshold remaining runs layout).slots.size =
        layout.slots.size + (runs.map fun run => slotsBelow threshold remaining run.tails).sum := by
  induction remaining generalizing runs layout with
  | zero =>
    rcases size_placeLeaves layout runs with ⟨edges, slots⟩
    simp [placeLevels, nodesBelow, slotsBelow, edges, slots, List.map_const']
  | succ remaining ih =>
    obtain ⟨edges, slots⟩ := ih ((childrenOf runs).map (·.map (·.2))).flatten
      (layout.placeNodes threshold ((childrenOf runs).map (·.map (·.1))))
    rw [placeLevels_succ, edges, slots, size_slots_placeNodes, ← Array.length_toList,
      edges_placeNodes, List.length_append, Array.length_toList, Nat.add_assoc, Nat.add_assoc,
      Nat.add_left_cancel_iff, Nat.add_left_cancel_iff]
    -- What is left is about this depth alone, by induction on its runs.
    clear ih edges slots
    induction runs with
    | nil => exact ⟨rfl, rfl⟩
    | cons run runs ih =>
      rcases ih with ⟨nodes, slots⟩
      simp only [childrenOf, List.map_cons, List.flatten_cons, List.length_append, List.length_map,
        List.map_append, List.sum_append, List.sum_cons, List.map_map, nodesBelow_tails,
        slotsBelow_tails, Function.comp_def] at nodes slots ⊢
      omega

end Layout

/-- Arranging computes how many nodes the trie over the arranged stems has below its root, and how
many child slots it takes. -/
theorem sizes_arrange {threshold remaining depth : Nat} {entries : List Entry}
    (long : ∀ e ∈ entries, e.gram.length = depth + remaining)
    (unique : (arrange threshold remaining depth entries).repeated = none) :
    (arrange threshold remaining depth entries).nodes = Layout.nodesBelow remaining
        ((arrange threshold remaining depth entries).entries.map fun e => e.gram.drop depth) ∧
      (arrange threshold remaining depth entries).slots = Layout.slotsBelow threshold remaining
        ((arrange threshold remaining depth entries).entries.map fun e => e.gram.drop depth) := by
  induction remaining generalizing depth entries with
  | zero => exact ⟨rfl, rfl⟩
  | succ remaining ih =>
    have deep : ∀ e ∈ entries, depth < e.gram.length := by
      intro e member
      rw [long e member]
      omega
    rcases arrange_succ_of_unique unique with ⟨each, arranged⟩
    -- Split into runs, the arranged stems are the groups that they were arranged in.
    have shapes : runShapes (splitRuns 0 ((arrange threshold (remaining + 1) depth entries).entries.map
        fun e => e.gram.drop depth)) = arrangedGroups threshold remaining depth entries := by
      rw [flatMap_arrangedGroups deep unique]
      refine runShapes_splitRuns nodup_byte_arrangedGroups (fun group listed empty => ?_) 0
      rcases List.mem_map.1 listed with ⟨branch, ranked, rfl⟩
      have none := (arrange_perm threshold remaining (depth + 1) branch.entries).length_eq
      rw [List.map_eq_nil_iff.1 empty] at none
      exact (mem_rankedBranches_iff.1 ranked).2.1 (List.length_eq_zero_iff.1 none.symm)
    have below : ∀ branch ∈ rankedBranches depth entries, _ := fun branch ranked =>
      ih (fun e member => by
        have wide := long e (mem_of_mem_rankedBranches ranked member)
        omega) (each branch ranked).1
    rw [Layout.nodesBelow, Layout.slotsBelow, shapes, arranged, arrangedGroups]
    simp only [List.length_map, List.map_map, Function.comp_def]
    constructor
    · rw [List.map_congr_left fun branch ranked => (below branch ranked).1]
    · rw [List.map_congr_left fun branch ranked => (below branch ranked).2]

end GramCensus
