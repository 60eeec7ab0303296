import GramCensus.Proofs.Pool.Steady
import GramCensus.Proofs.Pass.Outcome

/-!
# Passes with a single worker

A pass has a mark set for every worker and for every member of a group. With one worker no more
than one of them is leased at a time, so the pool stays steady (`PassState.Single.turn`): the worker
never waits, and full groups are flushed until the pool is closed (`Pass.flushes_of_count`).
-/

namespace GramCensus

namespace Worker

variable {plan : PassPlan} {space : Space} {worker : Worker} {counting : Counting}

/-- Handing a mark set back keeps a pool steady. -/
theorem steady_handBack {lease : Option Lease} (steady : counting.Steady plan.groupSize)
    (pooled : counting.Sound) (backed : Backed counting.pool lease) :
    ∃ after flushed, handBack plan counting lease = (after, .ok flushed) ∧
      after.Steady plan.groupSize := by
  cases lease with
  | none =>
    exact steady.toRegular.flushGroup pooled.shaped (Nat.zero_lt_of_lt steady.few)
      (Nat.le_of_lt steady.few)
  | some held =>
    rcases backed held rfl with ⟨marks, leased⟩
    exact steady.giveBack pooled leased

theorem steady_countChunk {lease : Option Lease} {chunk : QueuedChunk} {rest : List QueuedChunk}
    (steady : counting.Steady plan.groupSize) (pooled : counting.Sound)
    (backed : Backed counting.pool lease)
    (returned : lease = none → ∀ i, counting.pool.leased? i = none) :
    (worker.countChunk plan counting lease chunk rest).1.Steady plan.groupSize := by
  unfold countChunk
  split
  case h_1 =>
    obtain ⟨after, slot, leasing, keeps⟩ := steady.lease_eq_ok pooled (returned rfl)
    simp only [leasing]
    exact keeps
  case h_2 held =>
    split
    case isTrue same =>
      have keeps := steady.mark counting.tally.space held.slot chunk.bytes
      split
      case h_1 marking =>
        rw [marking] at keeps
        exact keeps
      case h_2 marking =>
        rw [marking] at keeps
        exact keeps
    case isFalse other =>
      obtain ⟨after, flushed, handing, keeps⟩ := steady_handBack steady pooled backed
      simp only [handing]
      exact keeps

/-- A turn of the counter keeps a pool steady that nobody else uses. -/
theorem steady_countTurn (steady : counting.Steady plan.groupSize) (pooled : counting.Sound)
    (backed : Backed counting.pool worker.lease?)
    (returned : worker.lease? = none → ∀ i, counting.pool.leased? i = none) :
    (worker.countTurn plan counting).1.Steady plan.groupSize := by
  rw [countTurn]
  split
  case h_1 lease counts =>
    have lease_eq : worker.lease? = lease := by rw [lease?, counts]
    rw [lease_eq] at backed returned
    split
    case h_1 chunk rest queued => exact steady_countChunk steady pooled backed returned
    case h_2 empty =>
      split
      case isTrue finished =>
        obtain ⟨after, flushed, handing, keeps⟩ := steady_handBack steady pooled backed
        simp only [handing]
        exact keeps
      case isFalse running => exact steady
  case h_2 => exact steady

end Worker

namespace PassState

variable {plan : PassPlan} {space : Space} {state : PassState}

/-- What holds between two turns of a pass with a single worker. -/
structure Single (plan : PassPlan) (space : Space) (state : PassState) : Prop
    extends state.Accounts 1 plan space where
  steady : state.counting.Steady plan.groupSize

/-- A single worker without a lease leaves no slot leased. -/
theorem Single.returned (single : state.Single plan space) {k : Nat} {worker : Worker}
    (found : state.workers[k]? = some worker) (free : worker.lease? = none) (i : Nat) :
    state.counting.pool.leased? i = none := by
  obtain ⟨only, workers_eq⟩ := List.length_eq_one_iff.1 single.crew
  have leases := single.sound.leases i
  rw [workers_eq] at found leases
  obtain rfl := List.mem_singleton.1 (List.mem_of_getElem? found)
  rw [List.map_singleton, List.sum_singleton, Worker.holds, free] at leases
  cases leased : state.counting.pool.leased? i with
  | none => rfl
  | some marks => simp [leased] at leases

theorem Single.turn [Memory] (made : space.Made) (fits : plan.Fits space) (state : PassState)
    (t : Turn)
    (single : state.Single plan space) : (state.turn plan t).Single plan space := by
  refine ⟨accounts_turn made fits state t single.toAccounts, ?_⟩
  rw [PassState.turn]
  split
  case h_1 => exact single.steady
  case h_2 worker found =>
    split
    case h_1 => exact single.steady
    case h_2 =>
      exact Worker.steady_countTurn single.steady single.sound.pooled
        (single.sound.backed found) (single.returned found)

end PassState

namespace Pass

variable {settings : Settings} {space : Space} {files : List OpenedFile}

/-- A pass with a single worker starts with a steady pool. -/
theorem steady_opening (valid : settings.check = .ok ()) (alone : settings.workers = 1) :
    (opening settings space files).counting.Steady settings.groupSize := by
  rcases check_eq_ok valid with ⟨-, -, -, -, group, -, -, -⟩
  have none := @received_opening settings space files .any
  refine ⟨⟨rfl, ?_, rfl, (Nat.zero_mul _).symm⟩, ?_⟩
  · simp only [opening, Pool.size, List.length_map, List.length_replicate, alone]
    omega
  · simp only [Sign.received] at none
    omega

/-- In a pass with a single worker nobody waits, and there are no more flushes than the sets with a
mark need. -/
theorem flushes_of_count [Memory] (valid : settings.check = .ok ()) (made : space.Made)
    (ascending : files.Pairwise fun a b => a.id < b.id) (alone : settings.workers = 1)
    {schedule : List Turn} {tally : Tally} {totals : PassTotals}
    (counted : count settings space files schedule = .ok (tally, totals)) :
    totals.waits = 0 ∧ totals.flushes = totals.flushedSets ⌈/⌉ settings.groupSize := by
  rcases closed_of_count valid made ascending counted with
    ⟨running, closed, flushed, closes, -, rfl⟩
  have fits := fits_plan valid space
  have single : (closing settings space files schedule).Single (settings.plan space) space := by
    have opened := @accounts_opening settings space files valid ascending
    rw [alone] at opened
    exact run_induction (PassState.Single.turn made fits) schedule
      ⟨opened, steady_opening valid alone⟩
  exact single.steady.flushes_of_close single.sound.pooled closes

end Pass

end GramCensus
