import GramCensus.Proofs.Pool.Journal

/-!
# Flushing a group

A flush takes the first slots that wait, at most as many as a group has, and counts and frees all of
them or does nothing (`Journal.run_flushes_group`). The sets of a group are added word by word over
one range that spans their extents. It comes to the same as adding them one after the other, in any
order (`Counting.Merged`).
-/

namespace GramCensus

namespace MarkSet

/-- The words from the first to the last one that lie in the extent of a set. -/
def span (sets : List MarkSet) : List Nat :=
  let first := (sets.map fun marks => marks.extent.1).min?.getD 0
  let stop := (sets.map fun marks => marks.extent.2).max?.getD 0
  List.range' first (stop - first)

theorem Tidy.mem_span {sets : List MarkSet} {marks : MarkSet} (tidy : marks.Tidy)
    (member : marks ∈ sets) {i : Nat} (written : marks.word i ≠ 0) : i ∈ span sets := by
  have bounds := tidy.covered i written
  have some : marks.hasMarks = true := decide_eq_true (Nat.lt_of_le_of_lt bounds.1 bounds.2)
  have extent_eq : marks.extent = (marks.low, marks.high) := if_pos some
  have first := @List.min?_getD_le_of_mem _ _ 0
    (List.mem_map_of_mem (f := fun marks : MarkSet => marks.extent.1) member)
  have stop := @List.le_max?_getD_of_mem _ _ 0
    (List.mem_map_of_mem (f := fun marks : MarkSet => marks.extent.2) member)
  rw [extent_eq] at first stop
  dsimp only at first stop
  rw [span, List.mem_range'_1]
  omega

end MarkSet

namespace Tally

/-- Adds mark sets one after the other. -/
def addSingly (tally : Tally) : List MarkSet → Tally × Except Failure Unit
  | [] => (tally, .ok ())
  | marks :: rest =>
    match tally.addMarks [marks] with
    | (grown, .ok ()) => addSingly grown rest
    | (after, .error failure) => (after, .error failure)

theorem addSingly_eq_ok {tally : Tally} {sets : List MarkSet}
    (tidy : ∀ marks ∈ sets, marks.Tidy) (within : ∀ marks ∈ sets, marks.Within tally.size) :
    ∃ grown, tally.addSingly sets = (grown, .ok ()) ∧ grown.space = tally.space ∧
      ∀ slot, grown.count slot =
        tally.count slot + (sets.countP fun marks => marks.has slot).toUInt32 := by
  induction sets generalizing tally with
  | nil => exact ⟨tally, rfl, rfl, fun slot => (UInt32.add_zero _).symm⟩
  | cons marks rest ih =>
    rw [List.forall_mem_cons] at tidy within
    rcases @addMarks_cases [marks] tally (by simpa using tidy.1) with
      ⟨-, more, adding, space, first⟩ | ⟨small, -⟩
    · obtain ⟨grown, others, same, counts⟩ := ih tidy.2 (by rw [size_congr space]; exact within.2)
      refine ⟨grown, by simp only [addSingly, adding, others], same.trans space, ?_⟩
      intro slot
      rw [counts, first, add_toUInt32_add]
      exact congrArg (tally.count slot + Nat.toUInt32 ·)
        (@List.countP_append _ _ [marks] rest).symm
    · exact absurd (by simpa using within.1) small

end Tally

namespace Pool

/-- The slots that wait, in order. -/
structure Lists (pool : Pool) (waiting : List Nat) : Prop where
  ascending : waiting.Pairwise (· < ·)
  mem_iff (i : Nat) : i ∈ waiting ↔ ∃ marks, pool.slots[i]? = some ⟨.waiting, marks⟩

/-- The number of slots of a group whose sets have a mark. -/
def holders (pool : Pool) (group : List Nat) (mark : Nat) : Nat :=
  group.countP fun i => pool.slots[i]?.any fun slot => slot.marks.has mark

theorem lists_inPhase (pool : Pool) : pool.Lists (pool.inPhase .waiting) where
  ascending := pairwise_inPhase .waiting
  mem_iff := by
    intro i
    rw [mem_inPhase_iff]
    constructor
    · rintro ⟨⟨phase, marks⟩, found, rfl⟩
      exact ⟨marks, found⟩
    · rintro ⟨marks, found⟩
      exact ⟨_, found, rfl⟩

theorem Lists.unique {pool : Pool} {waiting others : List Nat} (lists : pool.Lists waiting)
    (other : pool.Lists others) : waiting = others :=
  lists.ascending.eq_of_mem_iff other.ascending fun i =>
    (lists.mem_iff i).trans (other.mem_iff i).symm

theorem countP_setsAt (pool : Pool) (group : List Nat) (mark : Nat) :
    ((pool.setsAt group).countP fun marks => marks.has mark) = pool.holders group mark := by
  rw [setsAt, List.countP_filterMap, holders]
  apply List.countP_congr
  intro i _
  cases pool.slots[i]? <;> rfl

end Pool

namespace Counting

/-- A flush that has counted and freed a group. Its sets may be added over the whole span of their
extents or one after the other in any order, and the counters are the same. -/
structure Merged (before : Counting) (group : List Nat) (after : Counting) : Prop where
  space_eq : after.tally.space = before.tally.space
  counted (mark : Nat) : after.tally.count mark =
    before.tally.count mark + (before.pool.holders group mark).toUInt32
  counted_exactly (mark : Nat) :
    (before.tally.count mark).toNat + before.pool.holders group mark < 2 ^ 32 →
      (after.tally.count mark).toNat =
        (before.tally.count mark).toNat + before.pool.holders group mark
  freed : ∀ i ∈ group, ∃ marks cleared, before.pool.slots[i]? = some ⟨.waiting, marks⟩ ∧
    after.pool.slots[i]? = some ⟨.free, cleared⟩ ∧ cleared.hasMarks = false ∧
      ∀ mark, cleared.has mark = false
  kept : ∀ i, i ∉ group → after.pool.slots[i]? = before.pool.slots[i]?
  groupSize_eq : after.pool.groupSize = before.pool.groupSize
  flushes_eq : after.pool.flushes = before.pool.flushes + 1
  flushedSets_eq : after.pool.flushedSets = before.pool.flushedSets + group.length
  waits_eq : after.pool.waits = before.pool.waits
  spanned : ∃ grown, before.tally.addEach (before.pool.setsAt group)
      (MarkSet.span (before.pool.setsAt group)) = (grown, .ok ()) ∧ grown.Agrees after.tally
  singly : ∀ order : List Nat, order.Perm group →
    ∃ grown, before.tally.addSingly (before.pool.setsAt order) = (grown, .ok ()) ∧
      grown.Agrees after.tally

variable {before : Counting} {group : List Nat}

theorem merged_spec {grown : Tally} (shaped : before.Shaped)
    (waits : ∀ i ∈ group, ∃ slot, before.pool.slots[i]? = some slot ∧ slot.phase = .waiting)
    (adding : before.tally.addMarks (before.pool.setsAt group) = (grown, .ok ())) :
    before.Merged group (before.merged group grown) := by
  have within := shaped.fits.setsAt waits
  have tidy : ∀ marks ∈ before.pool.setsAt group, marks.Tidy := by
    intro marks member
    rcases List.mem_filterMap.1 member with ⟨i, -, found⟩
    rcases Option.map_eq_some_iff.1 found with ⟨slot, held, rfl⟩
    exact shaped.tidy slot (List.mem_of_getElem? held)
  obtain ⟨space_eq, counts⟩ : grown.space = before.tally.space ∧ ∀ mark, grown.count mark =
      before.tally.count mark + (before.pool.holders group mark).toUInt32 := by
    rcases Tally.addMarks_cases before.tally tidy with ⟨-, same, again, space, counts⟩ | ⟨small, -⟩
    · cases adding.symm.trans again
      exact ⟨space, fun mark => by rw [counts, Pool.countP_setsAt]⟩
    · exact absurd within small
  refine {
    space_eq
    counted := counts
    counted_exactly := ?exactly
    freed := ?freed
    kept := ?kept
    groupSize_eq := rfl
    flushes_eq := rfl
    flushedSets_eq := rfl
    waits_eq := rfl
    spanned := ?spanned
    singly := ?singly }
  case exactly =>
    intro mark few
    rw [show (before.merged group grown).tally = grown from rfl, counts, Tally.toNat_add_toUInt32,
      Nat.mod_eq_of_lt few]
  case freed =>
    intro i member
    rcases waits i member with ⟨⟨phase, marks⟩, found, waiting⟩
    cases waiting
    have old := shaped.tidy _ (List.mem_of_getElem? found)
    refine ⟨marks, marks.clear, found, ?_, rfl, old.clear.has_of_not_hasMarks rfl⟩
    rw [merged, Pool.getElem?_changeAt, found, Option.map_some, if_pos member]
    rfl
  case kept =>
    intro i other
    rw [merged, Pool.getElem?_changeAt]
    cases before.pool.slots[i]? <;> simp [other]
  case spanned =>
    have complete : ∀ marks ∈ before.pool.setsAt group, ∀ i, marks.word i ≠ 0 →
        i ∈ MarkSet.span (before.pool.setsAt group) :=
      fun marks member i => (tidy marks member).mem_span member
    rcases Tally.addEach_complete before.tally List.nodup_range' complete with
      ⟨-, same, added, space, spanned⟩ | ⟨small, -⟩
    · refine ⟨same, added, space.trans space_eq.symm, fun mark => ?_⟩
      rw [spanned, Pool.countP_setsAt]
      exact (counts mark).symm
    · exact absurd within small
  case singly =>
    intro order perm
    have sets : (before.pool.setsAt order).Perm (before.pool.setsAt group) := perm.filterMap _
    rcases Tally.addSingly_eq_ok (fun marks member => tidy marks (sets.mem_iff.1 member))
      (fun marks member => within marks (sets.mem_iff.1 member)) with ⟨same, added, space, apart⟩
    refine ⟨same, added, space.trans space_eq.symm, fun mark => ?_⟩
    rw [apart, sets.countP_eq, Pool.countP_setsAt]
    exact (counts mark).symm

end Counting

namespace Journal

variable {pool : Pool}

/-- Whatever calls a pool has seen whose mark sets are as large as the tally, a flush takes the first
slots that wait, at most a group. Are there none, or fewer than it should take at least, nothing
changes; otherwise it counts and frees all of them, and nothing else changes. -/
theorem run_flushes_group [Memory] {space : Space} {tally : Tally} {slots groupSize : Nat}
    (counters : Tally.new space = .ok tally)
    (created : Pool.new slots tally.words groupSize = .ok pool) (calls : List PoolCall)
    (least : Nat) :
    let before := ((opening pool tally).run calls).counting
    ∃ waiting : List Nat, before.pool.Lists waiting ∧
      let group := waiting.take (min before.pool.groupSize waiting.length)
      (group = [] ∨ group.length < least → before.flushGroup least = (before, .ok 0)) ∧
      (group ≠ [] → least ≤ group.length → ∃ after,
        before.flushGroup least = (after, .ok group.length) ∧ before.Merged group after) := by
  intro before
  have shaped : before.Shaped := ((sound_opening counters created rfl).run calls).shaped
  refine ⟨before.pool.inPhase .waiting, before.pool.lists_inPhase, ?_⟩
  intro group
  rw [show group = Counting.nextGroup before.pool from List.take_eq_take_min.symm]
  have ends := before.flushGroup_ends least
  generalize before.flushGroup least = result at ends
  cases ends with
  | passed few =>
    refine ⟨fun _ => rfl, fun some enough => ?_⟩
    rcases few with none | short
    · exact absurd none some
    · exact absurd short (Nat.not_lt.2 enough)
  | merged some enough adding =>
    refine ⟨fun few => ?_, fun _ _ => ⟨_, rfl, Counting.merged_spec shaped
      (fun _ => Counting.mem_nextGroup) adding⟩⟩
    rcases few with none | short
    · exact absurd none some
    · exact absurd short (Nat.not_lt.2 enough)
  | broken failed =>
    rcases Counting.addMarks_group_of_shaped shaped (fun _ => Counting.mem_nextGroup) with
      ⟨grown, adding⟩
    cases failed.symm.trans adding

-- What follows runs where all memory can be had.
attribute [local instance] Memory.whole

/-- Of three sets that wait, groups of two take the first two, unless they are to take three. -/
theorem run_flushes_group_of_three_returns :
    ∃ tally pool, Tally.new .trigrams = .ok tally ∧ Pool.new 4 tally.words 2 = .ok pool ∧
      ∃ before after, before = ((opening pool tally).run
          [.lease, .lease, .lease, .set 0 5, .set 1 5, .set 1 200, .set 2 70,
            .giveBack 2, .giveBack 0, .giveBack 1]).counting ∧
        before.flushGroup 3 = (before, .ok 0) ∧ before.flushGroup 2 = (after, .ok 2) ∧
        before.Merged [0, 1] after ∧ before.pool.holders [0, 1] 5 = 2 := by
  have counters : Tally.new .trigrams = .ok (Tally.zero .trigrams) := rfl
  have created : ∃ pool, Pool.new 4 (Tally.zero .trigrams).words 2 = .ok pool := ⟨_, rfl⟩
  rcases created with ⟨pool, created⟩
  let calls : List PoolCall := [.lease, .lease, .lease, .set 0 5, .set 1 5, .set 1 200, .set 2 70,
    .giveBack 2, .giveBack 0, .giveBack 1]
  obtain ⟨before, before_eq⟩ : ∃ before,
    before = ((opening pool (Tally.zero .trigrams)).run calls).counting := ⟨_, rfl⟩
  obtain ⟨waiting, lists, few, -⟩ := run_flushes_group counters created calls 3
  obtain ⟨others, again, -, enough⟩ := run_flushes_group counters created calls 2
  rw [← before_eq] at lists few again enough
  have facts : before.pool.inPhase .waiting = [0, 1, 2] ∧ before.pool.groupSize = 2 ∧
      before.pool.holders [0, 1] 5 = 2 := by
    rcases Pool.of_new created with ⟨-, rfl⟩
    rw [before_eq]
    decide +kernel
  rcases facts with ⟨all, two, holders⟩
  obtain rfl : waiting = [0, 1, 2] := (lists.unique (Pool.lists_inPhase _)).trans all
  obtain rfl := again.unique lists
  rw [two] at few enough
  rcases enough (by decide) (by decide) with ⟨after, flushing, merged⟩
  exact ⟨_, pool, counters, created, before, after, before_eq, few (.inr (by decide)), flushing,
    merged, holders⟩

end Journal

end GramCensus
