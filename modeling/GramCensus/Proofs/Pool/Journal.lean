import GramCensus.Proofs.Pool.Flushing

/-!
# The books of a pool

A journal runs a pool through calls of every kind, in any order, and writes down what the pool itself
does not know: which leases are out, and which mark sets were given back (`Journal.run`). However the
calls follow each other, also behind a closing that failed, the books balance: a set that was given
back with a mark is counted or waits, never both, and no slot is leased twice
(`Journal.run_balanced`).
-/

namespace GramCensus

/-- A call of a pool, or of a lease, which is named by the position of its slot. -/
inductive PoolCall where
  | lease
  | leaseFlushing
  | set (i bit : Nat)
  | mark (space : Space) (i : Nat) (chunk : Bytes)
  | clear (i : Nat)
  | giveBack (i : Nat)
  | flush (least : Nat)
  | close

/-- A pool in use, the leases that are out, and the mark sets that were given back, as they were
then. -/
structure Journal where
  counting : Counting
  leases : List Nat
  returned : List MarkSet

namespace Journal

def withPool (journal : Journal) (pool : Pool) : Journal :=
  { journal with counting := ⟨pool, journal.counting.tally⟩ }

/-- Makes a call. What a call leaves behind counts also where it fails. -/
def perform (journal : Journal) : PoolCall → Journal
  | .lease =>
    match journal.counting.pool.lease with
    | none => journal
    | some (i, pool) => { journal.withPool pool with leases := i :: journal.leases }
  | .leaseFlushing =>
    match journal.counting.lease with
    | (after, .ok (some i)) => { journal with counting := after, leases := i :: journal.leases }
    | (after, _) => { journal with counting := after }
  | .set i bit =>
    match journal.counting.pool.set i bit with
    | .error _ => journal
    | .ok pool => journal.withPool pool
  | .mark space i chunk => journal.withPool (journal.counting.pool.mark space i chunk).1
  | .clear i => journal.withPool (journal.counting.pool.clear i)
  | .giveBack i =>
    match journal.counting.pool.leased? i with
    | none => journal
    | some marks =>
      { journal.withPool (journal.counting.pool.giveBack i) with
        leases := journal.leases.erase i
        returned := journal.returned ++ [marks] }
  | .flush least => { journal with counting := (journal.counting.flushGroup least).1 }
  | .close => { journal with counting := journal.counting.close.1 }

def run (calls : List PoolCall) (journal : Journal) : Journal :=
  calls.foldl perform journal

/-- A flush breaks down in a call. -/
def breaks (journal : Journal) : PoolCall → Prop
  | .leaseFlushing => ∃ after failure, journal.counting.lease = (after, .error failure)
  | .flush least => ∃ after failure, journal.counting.flushGroup least = (after, .error failure)
  | .close => ∃ after, journal.counting.close = (after, .error .outOfRange)
  | _ => False

/-- What calls lead to as long as no flush breaks down. -/
inductive Reached (start : Journal) : Journal → Prop where
  | start : Reached start start
  | perform {journal : Journal} {call : PoolCall} :
      Reached start journal → ¬ journal.breaks call → Reached start (journal.perform call)

/-- A pool and a tally before the first call. -/
def opening (pool : Pool) (tally : Tally) : Journal :=
  ⟨⟨pool, tally⟩, [], []⟩

/-- The number of sets that were given back with a mark. -/
def returnedWith (journal : Journal) (mark : Nat) : Nat :=
  journal.returned.countP fun marks => marks.has mark

/-- The number of sets that were given back with any marks at all. -/
def returnedMarked (journal : Journal) : Nat :=
  journal.returned.countP MarkSet.hasMarks

/-! ## What every call keeps -/

end Journal

/-- What holds of a slot between two calls: unless it is leased, its phase tells whether its set has
marks. -/
structure Slot.AtRest (words : Nat) (slot : Slot) : Prop extends slot.Shaped words where
  settled : slot.phase ≠ .flushing
  clean : slot.phase = .free ∨ slot.phase = .retired → slot.marks.hasMarks = false
  marked : slot.phase = .waiting → slot.marks.hasMarks = true

namespace Journal

variable {journal : Journal} {pool : Pool} {after : Counting} {i : Nat} {marks changed : MarkSet}

/-- What holds between two calls of a pool whose sets have `words` words, as long as no flush breaks
down. A counter shows the number of its sets in the arithmetic of its bits. -/
structure Books (space : Space) (words : Nat) (journal : Journal) : Prop where
  space_eq : journal.counting.tally.space = space
  atRest : ∀ slot ∈ journal.counting.pool.slots, slot.AtRest words
  grouped : 0 < journal.counting.pool.groupSize
  single : journal.leases.Nodup
  leased_iff : ∀ i, i ∈ journal.leases ↔ ∃ marks, journal.counting.pool.leased? i = some marks
  counted : ∀ mark, ∃ counted, journal.counting.tally.count mark = counted.toUInt32 ∧
    counted + journal.counting.pool.waitingWith mark = journal.returnedWith mark
  flushed : journal.counting.pool.flushedSets + journal.counting.waiting = journal.returnedMarked

/-- What holds between any two calls where the sets are as large as the tally. -/
def Sound (journal : Journal) : Prop :=
  journal.Books journal.counting.tally.space journal.counting.tally.words

/-- A lease without any mark. -/
def LeasedClean (counting : Counting) (i : Nat) : Prop :=
  ∃ marks, counting.pool.leased? i = some marks ∧ marks.hasMarks = false ∧
    ∀ mark, marks.has mark = false

namespace Books

variable {space : Space} {words : Nat}

theorem tidy (books : journal.Books space words) : journal.counting.Tidy :=
  fun slot member => (books.atRest slot member).tidy

/-! ### Flushing and closing -/

theorem drains (books : journal.Books space words) (drains : journal.counting.Drains after) :
    Books space words { journal with counting := after } where
  space_eq := drains.space_eq.trans books.space_eq
  atRest := by
    refine drains.forall_slots books.atRest fun slot old _ =>
      ⟨⟨old.tidy.clear, old.size_eq⟩, ?_, fun _ => decide_eq_false (Nat.lt_irrefl 0), ?_⟩
    · intro flushing
      cases flushing
    · intro waits
      cases waits
  grouped := by
    rw [drains.groupSize_eq]
    exact books.grouped
  single := books.single
  leased_iff := by
    intro i
    rw [drains.leased?_eq]
    exact books.leased_iff i
  counted := by
    intro mark
    rcases books.counted mark with ⟨counted, same, total⟩
    rcases drains.counted mark with ⟨moved, grown, less⟩
    refine ⟨counted + moved, ?_, ?_⟩
    · rw [grown, same]
      exact (UInt32.ofNat_add counted moved).symm
    · rw [Nat.add_assoc, Nat.add_comm moved, less]
      exact total
  flushed := drains.flushedSets_eq.trans books.flushed

/-- Retiring slots, all of them or some, takes away neither marks nor leases. -/
theorem retire (books : journal.Books space words) :
    Books space words (journal.withPool { journal.counting.pool with
      slots := (Counting.retire 0 journal.counting.pool.slots).1 }) where
  space_eq := books.space_eq
  atRest := by
    intro slot member
    rcases List.getElem?_of_mem member with ⟨i, found⟩
    rcases Counting.getElem?_retire journal.counting.pool.slots 0 i with
      same | ⟨marks, free, retired⟩
    · exact books.atRest slot (List.mem_of_getElem? (same.symm.trans found))
    · cases found.symm.trans retired
      have rest := books.atRest _ (List.mem_of_getElem? free)
      exact ⟨⟨rest.tidy, rest.size_eq⟩, by simp, fun _ => rest.clean (.inl rfl), by simp⟩
  grouped := books.grouped
  single := books.single
  leased_iff := by
    intro i
    refine (books.leased_iff i).trans (exists_congr fun marks => ?_)
    rw [Pool.leased?_eq_some_iff, Pool.leased?_eq_some_iff, withPool]
    rcases Counting.getElem?_retire journal.counting.pool.slots 0 i with
      same | ⟨marks, free, retired⟩
    · rw [same]
    · simp only [free, retired, Option.some.injEq, Slot.mk.injEq, reduceCtorEq, false_and]
  counted := by
    intro mark
    have same : (Counting.retire 0 journal.counting.pool.slots).1.countP (Pool.waitsWith mark) = _ :=
      Counting.countP_retire (fun _ => rfl) _ 0
    rcases books.counted mark with ⟨counted, count, total⟩
    exact ⟨counted, count, (congrArg (counted + ·) same).trans total⟩
  flushed := by
    have same : (Counting.retire 0 journal.counting.pool.slots).1.countP
        (fun slot => decide (slot.phase = .waiting)) = _ := Counting.countP_retire (fun _ => rfl) _ 0
    exact (congrArg (journal.counting.pool.flushedSets + ·) same).trans books.flushed

/-- Closing drains the pool, and then retires the slots up to the first that is not free. -/
theorem close (books : journal.Books space words) (intact : ¬ journal.breaks .close) :
    Books space words { journal with counting := journal.counting.close.1 } := by
  rcases Counting.close_cases books.tidy books.grouped with
    ⟨-, after, drains, -, -, closing⟩ | ⟨-, breaking⟩
  · rw [closing]
    exact (books.drains drains).retire
  · exact absurd breaking intact

/-! ### Leases -/

/-- Putting a slot in the place of another keeps the books in balance if leases and returns are
written down with it. -/
theorem put {before slot : Slot} {leases : List Nat} {returned : List MarkSet}
    (books : journal.Books space words) (found : journal.counting.pool.slots[i]? = some before)
    (atRest : slot.AtRest words) (single : leases.Nodup)
    (own : i ∈ leases ↔ slot.phase = .leased) (others : ∀ j, j ≠ i → (j ∈ leases ↔ j ∈ journal.leases))
    (counts : ∀ mark, (returned.countP fun marks => marks.has mark) +
        (Pool.waitsWith mark before).toNat =
      journal.returnedWith mark + (Pool.waitsWith mark slot).toNat)
    (marked : returned.countP MarkSet.hasMarks + (decide (before.phase = .waiting)).toNat =
      journal.returnedMarked + (decide (slot.phase = .waiting)).toNat) :
    Books space words ⟨⟨journal.counting.pool.put i slot, journal.counting.tally⟩, leases, returned⟩ where
  space_eq := books.space_eq
  atRest := by
    intro each member
    rcases List.mem_or_eq_of_mem_set member with old | rfl
    · exact books.atRest each old
    · exact atRest
  grouped := books.grouped
  single := single
  leased_iff := by
    intro j
    by_cases same : j = i
    · subst same
      rcases List.getElem?_eq_some_iff.1 found with ⟨inside, -⟩
      rw [own, Pool.leased?_put_self inside]
      by_cases leased : slot.phase = .leased <;> simp [leased]
    · rw [others j same, books.leased_iff, Pool.leased?_put_of_ne same]
  counted := by
    intro mark
    rcases books.counted mark with ⟨counted, count, total⟩
    refine ⟨counted, count, ?_⟩
    have waits := @Pool.waitingWith_put journal.counting.pool i _ slot found mark
    have counts := counts mark
    rw [returnedWith]
    dsimp only
    omega
  flushed := by
    have waits := @Pool.countP_put journal.counting.pool i _ slot found
      fun slot => decide (slot.phase = .waiting)
    have flushed := books.flushed
    rw [Counting.waiting] at flushed ⊢
    rw [returnedMarked]
    dsimp only [Pool.put] at waits ⊢
    omega

theorem lease (books : journal.Books space words) (leased : journal.counting.pool.lease = some (i, pool)) :
    Books space words { journal.withPool pool with leases := i :: journal.leases } ∧
      LeasedClean ⟨pool, journal.counting.tally⟩ i := by
  rcases Pool.lease_eq_some leased with ⟨marks, found, rfl⟩
  rcases List.getElem?_eq_some_iff.1 found with ⟨inside, -⟩
  have rest := books.atRest _ (List.mem_of_getElem? found)
  constructor
  · refine books.put found ⟨⟨rest.tidy, rest.size_eq⟩, by simp, by simp, by simp⟩ ?_ (by simp)
      (fun j other => by simp [other]) (fun mark => rfl) rfl
    -- Nobody has a lease of a slot that is free.
    refine List.nodup_cons.2 ⟨?_, books.single⟩
    intro member
    rcases (books.leased_iff i).1 member with ⟨held, leased⟩
    rw [Pool.leased?, found] at leased
    cases leased
  · exact ⟨marks, by rw [Pool.leased?_put_self inside, if_pos rfl], rest.clean (.inl rfl),
      rest.tidy.has_of_not_hasMarks (rest.clean (.inl rfl))⟩

/-- The set of a lease can be changed at will, as long as all its bits lie in its extent. -/
theorem change (books : journal.Books space words) (leased : journal.counting.pool.leased? i = some marks)
    (size_eq : changed.size = marks.size) (tidy : marks.Tidy → changed.Tidy) :
    Books space words (journal.withPool (journal.counting.pool.put i ⟨.leased, changed⟩)) := by
  have found := Pool.leased?_eq_some_iff.1 leased
  have rest := books.atRest _ (List.mem_of_getElem? found)
  exact books.put found ⟨⟨tidy rest.tidy, size_eq.trans rest.size_eq⟩, by simp, by simp, by simp⟩ books.single
    (iff_of_true ((books.leased_iff i).2 ⟨marks, leased⟩) rfl) (fun _ _ => Iff.rfl) (fun _ => rfl) rfl

/-- A set that is given back with marks waits from then on, and one without is free. -/
theorem giveBack (books : journal.Books space words) (leased : journal.counting.pool.leased? i = some marks) :
    Books space words { journal.withPool (journal.counting.pool.giveBack i) with
      leases := journal.leases.erase i, returned := journal.returned ++ [marks] } := by
  have found := Pool.leased?_eq_some_iff.1 leased
  have rest := books.atRest _ (List.mem_of_getElem? found)
  rw [Pool.giveBack_eq leased]
  refine books.put found ⟨⟨rest.tidy, rest.size_eq⟩, ?_, ?_, ?_⟩ (books.single.erase i) ?_ ?_ ?_ ?_
  · cases marks.hasMarks <;> simp
  · cases marks.hasMarks <;> simp
  · cases marks.hasMarks <;> simp
  · rw [books.single.mem_erase_iff]
    cases marks.hasMarks <;> simp
  · intro j other
    rw [books.single.mem_erase_iff, and_iff_right other]
  · intro mark
    rw [List.countP_append, returnedWith]
    cases used : marks.hasMarks with
    | true => cases has : marks.has mark <;> simp [Pool.waitsWith, has]
    | false =>
      -- Without marks at all the set does not have this one either.
      have none := rest.tidy.has_of_not_hasMarks used mark
      simp [Pool.waitsWith, none]
  · rw [List.countP_append, returnedMarked]
    cases used : marks.hasMarks <;> simp [used]

end Books

/-! ## Every call -/

/-- A call that keeps the leases or takes one away has not granted any. -/
theorem not_granted {leases fewer : List Nat} (less : fewer.length ≤ leases.length) {i : Nat} :
    fewer ≠ i :: leases := by
  intro granted
  rw [granted, List.length_cons] at less
  omega

/-- Every call that no flush breaks down in keeps the books in balance, and a lease that it grants is clean. -/
theorem Books.perform {space : Space} {words : Nat} (books : journal.Books space words)
    {call : PoolCall} (intact : ¬ journal.breaks call) :
    (journal.perform call).Books space words ∧ ∀ i, (journal.perform call).leases = i :: journal.leases →
      LeasedClean (journal.perform call).counting i := by
  have same : ∀ {i : Nat} {counting : Counting}, journal.leases = i :: journal.leases →
      LeasedClean counting i := fun granted => absurd granted (not_granted (Nat.le_refl _))
  cases call with
  | lease =>
    rw [Journal.perform]
    split
    case h_1 => exact ⟨books, fun _ => same⟩
    case h_2 leased =>
      rcases books.lease leased with ⟨kept, clean⟩
      refine ⟨kept, ?_⟩
      intro j granted
      cases granted
      exact clean
  | leaseFlushing =>
    rw [Journal.perform, Counting.lease]
    cases leased : journal.counting.pool.lease with
    | some found =>
      rcases books.lease leased with ⟨kept, clean⟩
      refine ⟨kept, ?_⟩
      intro j granted
      cases granted
      exact clean
    | none =>
      have ends := journal.counting.flushGroup_ends 1
      rcases flushing : journal.counting.flushGroup 1 with ⟨after, failure | flushed⟩
      · exact absurd ⟨after, failure, by simp only [Counting.lease, leased, flushing]⟩ intact
      rw [flushing] at ends
      have drained := books.drains (ends.drains books.tidy)
      dsimp only
      cases second : after.pool.lease with
      | some found =>
        rcases drained.lease second with ⟨kept, clean⟩
        refine ⟨kept, ?_⟩
        intro j granted
        cases granted
        exact clean
      | none =>
        -- Having to wait changes a number that nothing here depends on.
        exact ⟨⟨drained.space_eq, drained.atRest, drained.grouped, drained.single,
          drained.leased_iff, drained.counted, drained.flushed⟩, fun _ => same⟩
  | set i bit =>
    rw [Journal.perform, Pool.set]
    cases leased : journal.counting.pool.leased? i with
    | none => exact ⟨books, fun _ => same⟩
    | some marks =>
      dsimp only
      cases setting : marks.set bit with
      | error => exact ⟨books, fun _ => same⟩
      | ok changed =>
        rcases MarkSet.shape_of_set setting with ⟨size, tidy⟩
        exact ⟨books.change leased size tidy, fun _ => same⟩
  | mark space i chunk =>
    rw [Journal.perform, Pool.mark]
    cases leased : journal.counting.pool.leased? i with
    | none => exact ⟨books, fun _ => same⟩
    | some marks =>
      rcases @MarkSet.shape_markFrom marks space space.gramLength 0 chunk with ⟨size, tidy⟩
      exact ⟨books.change leased size tidy, fun _ => same⟩
  | clear i =>
    rw [Journal.perform, Pool.clear]
    cases leased : journal.counting.pool.leased? i with
    | none => exact ⟨books, fun _ => same⟩
    | some marks => exact ⟨books.change leased rfl MarkSet.Tidy.clear, fun _ => same⟩
  | giveBack i =>
    rw [Journal.perform]
    split
    case h_1 => exact ⟨books, fun _ => same⟩
    case h_2 leased =>
      exact ⟨books.giveBack leased, fun _ granted => absurd granted (not_granted List.length_erase_le)⟩
  | flush least =>
    have ends := journal.counting.flushGroup_ends least
    rcases flushing : journal.counting.flushGroup least with ⟨after, failure | flushed⟩
    · exact absurd ⟨after, failure, flushing⟩ intact
    · rw [flushing] at ends
      rw [Journal.perform, flushing]
      exact ⟨books.drains (ends.drains books.tidy), fun _ => same⟩
  | close => exact ⟨books.close intact, fun _ => same⟩

/-- A closing breaks down only by a mark that has no counter. -/
theorem Books.not_breaks_close {space : Space} {words : Nat} (books : journal.Books space words)
    (fits : journal.counting.Fits) : ¬ journal.breaks .close := by
  rintro ⟨closed, breaking⟩
  rcases Counting.close_cases books.tidy books.grouped with
    ⟨-, after, -, -, -, closing⟩ | ⟨small, -⟩
  · rw [closing] at breaking
    exact Counting.retire_ne_outOfRange _ _ _ (Prod.mk.inj breaking).2
  · exact small fits

theorem Books.reached {space : Space} {words : Nat} {start : Journal}
    (books : start.Books space words) (reached : start.Reached journal) :
    journal.Books space words := by
  induction reached with
  | start => exact books
  | perform _ intact ih => exact (ih.perform intact).1

/-- Calls that never break down may follow each other in any order. -/
theorem Reached.run {start : Journal} (reached : start.Reached journal) {calls : List PoolCall}
    (intact : ∀ call ∈ calls, ∀ before : Journal, ¬ before.breaks call) :
    start.Reached (journal.run calls) := by
  induction calls generalizing journal with
  | nil => exact reached
  | cons call rest ih =>
    rw [List.forall_mem_cons] at intact
    exact ih (reached.perform (intact.1 journal)) intact.2

namespace Sound

theorem shaped (sound : journal.Sound) : journal.counting.Shaped :=
  fun slot member => (sound.atRest slot member).toShaped

/-- Sets that are as large as the tally have a counter for every mark. -/
theorem not_breaks (sound : journal.Sound) (call : PoolCall) : ¬ journal.breaks call := by
  have flushes : ∀ least after failure,
      journal.counting.flushGroup least ≠ (after, .error failure) := by
    intro least after failure breaking
    have ends := journal.counting.flushGroup_ends least
    rw [breaking] at ends
    exact (ends.of_error sound.shaped.tidy).2 sound.shaped.fits
  intro breaking
  cases call with
  | leaseFlushing =>
    rcases breaking with ⟨after, failure, breaking⟩
    rw [Counting.lease] at breaking
    split at breaking
    · cases breaking
    · split at breaking
      case h_1 flushing => exact flushes 1 _ _ flushing
      case h_2 => split at breaking <;> cases breaking
  | flush least =>
    rcases breaking with ⟨after, failure, breaking⟩
    exact flushes least after failure breaking
  | close => exact Books.not_breaks_close sound sound.shaped.fits breaking
  | lease => exact breaking
  | set => exact breaking
  | mark => exact breaking
  | clear => exact breaking
  | giveBack => exact breaking

theorem perform (sound : journal.Sound) (call : PoolCall) :
    (journal.perform call).Sound ∧ ∀ i, (journal.perform call).leases = i :: journal.leases →
      LeasedClean (journal.perform call).counting i := by
  rcases Books.perform sound (sound.not_breaks call) with ⟨books, clean⟩
  refine ⟨?_, clean⟩
  rw [Sound, Tally.words, books.space_eq]
  exact books

theorem run (sound : journal.Sound) (calls : List PoolCall) : (journal.run calls).Sound := by
  induction calls generalizing journal with
  | nil => exact sound
  | cons call rest ih => exact ih (sound.perform call).1

end Sound


/-! ## The balance -/

/-- The books of a pool balance. A set that was given back with a mark is counted or waits, in the
arithmetic of a counter's bits and, as long as these suffice, in that of natural numbers; the slots
that are leased are those of the leases that are out; every other slot shows by its phase whether its
set has marks; and the pool's own number of counted sets is right. -/
structure Balanced (journal : Journal) : Prop where
  counted : ∀ mark, journal.counting.tally.count mark +
    (journal.counting.pool.waitingWith mark).toUInt32 = (journal.returnedWith mark).toUInt32
  counted_exactly : ∀ mark, journal.returnedWith mark < 2 ^ 32 →
    (journal.counting.tally.count mark).toNat + journal.counting.pool.waitingWith mark =
      journal.returnedWith mark
  single : journal.leases.Nodup
  leased_iff : ∀ i, i ∈ journal.leases ↔ ∃ marks, journal.counting.pool.leased? i = some marks
  clean : ∀ slot ∈ journal.counting.pool.slots, slot.phase = .free ∨ slot.phase = .retired →
    slot.marks.hasMarks = false ∧ ∀ mark, slot.marks.has mark = false
  marked : ∀ slot ∈ journal.counting.pool.slots, slot.phase = .waiting →
    slot.marks.hasMarks = true
  flushed : journal.counting.pool.flushedSets + journal.counting.waiting = journal.returnedMarked

theorem Books.balanced {space : Space} {words : Nat} (books : journal.Books space words) :
    journal.Balanced where
  counted := by
    intro mark
    rcases books.counted mark with ⟨counted, count, total⟩
    rw [count, ← total]
    exact (UInt32.ofNat_add counted _).symm
  counted_exactly := by
    intro mark few
    rcases books.counted mark with ⟨counted, count, total⟩
    have small : counted.toUInt32.toNat = counted := by
      rw [show counted.toUInt32.toNat = counted % 2 ^ 32 from UInt32.toNat_ofNat']
      omega
    rw [count, small, total]
  single := books.single
  leased_iff := books.leased_iff
  clean := by
    intro slot member free
    have rest := books.atRest slot member
    exact ⟨rest.clean free, rest.tidy.has_of_not_hasMarks (rest.clean free)⟩
  marked := fun slot member => (books.atRest slot member).marked
  flushed := books.flushed

theorem Sound.balanced (sound : journal.Sound) : journal.Balanced :=
  Books.balanced sound

theorem books_opening [Memory] {slots words groupSize : Nat} {tally : Tally} {space : Space}
    (counters : Tally.new space = .ok tally) (created : Pool.new slots words groupSize = .ok pool) :
    (opening pool tally).Books tally.space words := by
  rcases Pool.of_new created with ⟨grouped, rfl⟩
  have slot_eq : ∀ slot ∈ List.replicate slots (⟨.free, .empty words⟩ : Slot),
      slot = ⟨.free, .empty words⟩ := fun _ => List.eq_of_mem_replicate
  have none : ∀ p : Slot → Bool, p ⟨.free, .empty words⟩ = false →
      (List.replicate slots (⟨.free, .empty words⟩ : Slot)).countP p = 0 := by
    intro p fails
    rw [List.countP_replicate, fails]
    rfl
  refine ⟨rfl, ?_, grouped, List.nodup_nil, ?_, ?_, (Nat.zero_add _).trans
    (none (fun slot => decide (slot.phase = .waiting)) rfl)⟩
  · intro slot member
    rw [slot_eq slot member]
    exact ⟨⟨MarkSet.tidy_empty _, rfl⟩, by simp, fun _ => rfl, by simp⟩
  · intro i
    refine iff_of_false List.not_mem_nil ?_
    rintro ⟨marks, leased⟩
    have member := List.mem_of_getElem? (Pool.leased?_eq_some_iff.1 leased)
    cases slot_eq _ member
  · intro mark
    rw [Tally.of_new counters]
    exact ⟨0, Std.TreeMap.getD_emptyc, (Nat.zero_add _).trans (none _ rfl)⟩

theorem sound_opening [Memory] {slots words groupSize : Nat} {tally : Tally} {space : Space}
    (counters : Tally.new space = .ok tally) (created : Pool.new slots words groupSize = .ok pool)
    (words_eq : words = tally.words) : (opening pool tally).Sound := by
  have books := books_opening counters created
  rwa [words_eq] at books

/-- The books of a pool whose mark sets are as large as the tally balance after any calls, and a
lease that the next call grants is without marks. -/
theorem run_balanced [Memory] {space : Space} {tally : Tally} {slots groupSize : Nat}
    (counters : Tally.new space = .ok tally)
    (created : Pool.new slots tally.words groupSize = .ok pool) (calls : List PoolCall) :
    ((opening pool tally).run calls).Balanced ∧
      ∀ call i, (((opening pool tally).run calls).perform call).leases =
          i :: ((opening pool tally).run calls).leases →
        LeasedClean (((opening pool tally).run calls).perform call).counting i := by
  have sound := (sound_opening counters created rfl).run calls
  exact ⟨sound.balanced, fun call => (sound.perform call).2⟩

-- What follows runs where all memory can be had.
attribute [local instance] Memory.whole

/-- Of two sets that were given back with one mark, the flush of a group of one counts one. -/
theorem run_balanced_of_two_returns :
    ∃ tally pool, Tally.new .trigrams = .ok tally ∧ Pool.new 3 tally.words 1 = .ok pool ∧
      ∃ final, final = (opening pool tally).run
          [.lease, .set 0 5, .lease, .set 1 5, .giveBack 0, .giveBack 1, .flush 1] ∧
        final.Balanced ∧ final.returnedWith 5 = 2 ∧ final.counting.pool.waitingWith 5 = 1 ∧
        final.counting.tally.count 5 = 1 ∧
        LeasedClean (final.perform .lease).counting 0 := by
  have counters : Tally.new .trigrams = .ok (Tally.zero .trigrams) := rfl
  have created : ∃ pool, Pool.new 3 (Tally.zero .trigrams).words 1 = .ok pool := ⟨_, rfl⟩
  rcases created with ⟨pool, created⟩
  rcases run_balanced counters created
    [.lease, .set 0 5, .lease, .set 1 5, .giveBack 0, .giveBack 1, .flush 1] with ⟨balanced, clean⟩
  rcases Pool.of_new created with ⟨-, rfl⟩
  exact ⟨_, _, counters, created, _, rfl, balanced, by decide +kernel, by decide +kernel,
    by decide +kernel, clean .lease 0 (by decide +kernel)⟩

end Journal

end GramCensus
