import Mathlib.Data.List.Basic
import Mathlib.Data.List.Forall2
import GramCensus.GramTable.Report
import GramCensus.Proofs.Bytes
import GramCensus.Proofs.StableSort.Ties

/-!
# Reports can be read back

A report is text that holds its entries: every line is read back as an n-gram and its count
(`GramTable.readReport?_report`). The entries are those at the first positions in rank order, which is a
rearrangement of all positions, largest counts first and equal counts in the order of the table
(`GramTable.Outranks`). Main statement: `GramTable.report_reads_back`.
-/

namespace GramCensus

/-! ## Characters of a line -/

theorem Bytes.exists_hexDigit_of_mem_hex {bytes : Bytes} {c : Char} (member : c ∈ Bytes.hex bytes) :
    ∃ value < 16, c = Bytes.hexDigit value := by
  rcases List.mem_flatMap.1 member with ⟨byte, -, digit⟩
  have small := byte.toNat_lt
  rcases List.mem_pair.1 digit with rfl | rfl
  · exact ⟨_, by omega, rfl⟩
  · exact ⟨_, by omega, rfl⟩

/-- The hexadecimal form holds no comma and no line break. -/
theorem Bytes.not_mem_hex {bytes : Bytes} {c : Char} (separates : c = ',' ∨ c = '\n') :
    c ∉ Bytes.hex bytes := by
  intro member
  rcases Bytes.exists_hexDigit_of_mem_hex member with ⟨value, small, rfl⟩
  have digits : ∀ value < 16, ¬ (Bytes.hexDigit value = ',' ∨ Bytes.hexDigit value = '\n') := by
    decide
  exact digits value small separates

theorem not_mem_toDigits {number : Nat} {c : Char} (other : c.isDigit = false) :
    c ∉ Nat.toDigits 10 number := by
  intro member
  rw [Nat.isDigit_of_mem_toDigits (by omega) (Nat.le_refl 10) member] at other
  cases other

namespace GramTable

variable {table : GramTable}

/-! ## Reading -/

/-- Reads a decimal number of 32 bits. -/
def readCount? (text : List Char) : Option UInt32 :=
  if !text.isEmpty && text.all Char.isDigit then
    let value := Nat.ofDigitChars 10 text 0
    if value < UInt32.size then some value.toUInt32 else none
  else none

/-- Reads a line: `0x`, two lowercase hexadecimal digits for each byte, a comma and a decimal number. -/
def readLine? (line : List Char) : Option Entry :=
  match line.splitOn ',' with
  | ['0' :: 'x' :: digits, number] => do
    let gram ← Bytes.ofHex? digits
    let count ← readCount? number
    return ⟨gram, count⟩
  | _ => none

/-- Reads the lines of a report, each of which ends with a line break, without the heading. -/
def readReport? (text : List Char) : Option (List Entry) :=
  match text.splitOn '\n' with
  | heading :: lines =>
    if heading = "ngram,count".toList ∧ lines.getLast? = some [] then lines.dropLast.mapM readLine?
    else none
  | [] => none

/-- A line of a report without its line break. -/
def lineText (e : Entry) : List Char :=
  '0' :: 'x' :: (Bytes.hex e.gram ++ ',' :: Nat.toDigits 10 e.count.toNat)

theorem reportLine_eq (e : Entry) : reportLine e = lineText e ++ ['\n'] := by
  simp [reportLine, lineText]

theorem readCount?_toDigits (count : UInt32) :
    readCount? (Nat.toDigits 10 count.toNat) = some count := by
  have digits : (Nat.toDigits 10 count.toNat).all Char.isDigit = true :=
    List.all_eq_true.2 fun c member => Nat.isDigit_of_mem_toDigits (by omega) (Nat.le_refl 10) member
  have nonempty : (Nat.toDigits 10 count.toNat).isEmpty = false :=
    List.isEmpty_eq_false_iff.2 Nat.toDigits_ne_nil
  rw [readCount?, nonempty, digits, Nat.ofDigitChars_ten_toDigits]
  simp only [Bool.not_false, Bool.and_self, if_true, if_pos count.toNat_lt]
  exact congrArg some UInt32.ofNat_toNat

theorem readLine?_lineText (e : Entry) : readLine? (lineText e) = some e := by
  -- The only comma of the line stands between the n-gram and the count.
  have first : ',' ∉ '0' :: 'x' :: Bytes.hex e.gram := by
    simp [Bytes.not_mem_hex]
  have split : (lineText e).splitOn ',' =
      ['0' :: 'x' :: Bytes.hex e.gram, Nat.toDigits 10 e.count.toNat] := by
    rw [show lineText e = ('0' :: 'x' :: Bytes.hex e.gram) ++ ',' :: Nat.toDigits 10 e.count.toNat from
      rfl, List.splitOn_append_cons_self_of_not_mem first,
      List.splitOn_eq_singleton (not_mem_toDigits rfl)]
  rw [readLine?, split]
  simp [Bytes.ofHex?_hex, readCount?_toDigits]

/-- Every line of a report ends at its line break. -/
theorem splitOn_reportLines (entries : List Entry) :
    (entries.flatMap reportLine).splitOn '\n' = entries.map lineText ++ [[]] := by
  induction entries with
  | nil => rfl
  | cons e rest ih =>
    have whole : '\n' ∉ lineText e := by
      simp [lineText, Bytes.not_mem_hex, not_mem_toDigits]
    rw [List.flatMap_cons, reportLine_eq, List.append_assoc, List.singleton_append,
      List.splitOn_append_cons_self_of_not_mem whole, ih, List.map_cons, List.cons_append]

theorem mapM_readLine?_map_lineText (entries : List Entry) :
    (entries.map lineText).mapM readLine? = some entries := by
  induction entries with
  | nil => rfl
  | cons e rest ih => rw [List.map_cons, List.mapM_cons, readLine?_lineText, ih]; rfl

/-- What is read from a report is what was written into it. -/
theorem readReport?_report (table : GramTable) (limit : Nat) :
    readReport? (table.report limit) = some (table.ranked.take limit) := by
  have heading : reportHeading = "ngram,count".toList ++ ['\n'] := rfl
  have plain : '\n' ∉ "ngram,count".toList := by decide
  rw [readReport?, report, heading, List.append_assoc, List.singleton_append,
    List.splitOn_append_cons_self_of_not_mem plain, splitOn_reportLines]
  simp only [List.getLast?_concat, List.dropLast_concat, and_self, if_true]
  exact mapM_readLine?_map_lineText _

/-! ## Rank order -/

/-- Of two positions of a table the first holds the larger count, or it comes first and holds the same
count. -/
def Outranks (table : GramTable) (i j : Nat) : Prop :=
  ∃ a b, table.get? i = some a ∧ table.get? j = some b ∧
    (b.count < a.count ∨ a.count = b.count ∧ i < j)

theorem mem_ranking {e : Entry} {i : Nat} : (e, i) ∈ table.ranking ↔ table.get? i = some e := by
  rw [ranking, mem_stableSort, List.mem_zipIdx_iff_getElem?]
  rfl

/-- Ranking rearranges the positions. -/
theorem rankedPositions_perm (table : GramTable) :
    table.rankedPositions.Perm (List.range table.size) := by
  have perm := (stableSort_perm (fun a b : Entry × Nat => b.1.count ≤ a.1.count)
    table.entries.zipIdx).map (·.2)
  rwa [List.zipIdx_map_snd, ← List.range_eq_range'] at perm

/-- Positions are ranked by count, and by position where counts are equal. -/
theorem pairwise_outranks (table : GramTable) : table.rankedPositions.Pairwise table.Outranks := by
  have sorted := pairwise_stableSort_of_pairwise
    (fun a b : Entry × Nat => decide (b.1.count ≤ a.1.count))
    (fun a b c ab bc => by
      simp only [decide_eq_true_eq] at ab bc ⊢
      exact UInt32.le_trans bc ab)
    (fun a b => by
      simp only [Bool.or_eq_true, decide_eq_true_eq]
      exact UInt32.le_total b.1.count a.1.count)
    (pairwise_zipIdx_lt table.entries 0)
  rw [rankedPositions, List.pairwise_map]
  refine sorted.imp_of_mem fun {a b} first second ⟨inOrder, tie⟩ => ?_
  refine ⟨a.1, b.1, mem_ranking.1 first, mem_ranking.1 second, ?_⟩
  rw [decide_eq_true_eq] at inOrder tie
  by_cases same : a.1.count = b.1.count
  · exact .inr ⟨same, tie (UInt32.le_of_eq same)⟩
  · exact .inl (UInt32.lt_of_le_of_ne inOrder fun equal => same equal.symm)

theorem Outranks.count_le {i j : Nat} {a b : UInt32} (outranks : table.Outranks i j)
    (first : table.counts[i]? = some a) (second : table.counts[j]? = some b) : b ≤ a := by
  rcases outranks with ⟨e, e', atFirst, atSecond, order⟩
  rw [get?] at atFirst atSecond
  rw [counts, List.getElem?_map, atFirst] at first
  rw [counts, List.getElem?_map, atSecond] at second
  cases first
  cases second
  rcases order with larger | ⟨same, -⟩
  · exact UInt32.le_of_lt larger
  · exact UInt32.le_of_eq same.symm

/-! ## Flat storage -/

/-- Among n-grams that stand one behind the other and are equally wide, each one is found by its
position. -/
theorem take_drop_flatMap_gram {width : Nat} {entries : List Entry}
    (uniform : ∀ e ∈ entries, e.gram.length = width) {i : Nat} {e : Entry}
    (held : entries[i]? = some e) :
    ((entries.flatMap (·.gram)).drop (i * width)).take width = e.gram := by
  induction entries generalizing i with
  | nil => cases held
  | cons first rest ih =>
    rcases List.forall_mem_cons.1 uniform with ⟨wide, others⟩
    rw [List.flatMap_cons]
    cases i with
    | zero =>
      cases held
      rw [Nat.zero_mul, List.drop_zero, ← wide, List.take_left]
    | succ i =>
      have behind : (i + 1) * width = first.gram.length + i * width := by
        rw [wide, Nat.succ_mul, Nat.add_comm]
      rw [behind, ← List.drop_drop, List.drop_left]
      exact ih others held

/-- An entry is the count at its position and the bytes that stand there. -/
theorem counts_and_bytes_of_get? {i : Nat} {e : Entry} (held : table.get? i = some e) :
    table.counts[i]? = some e.count ∧
      (table.bytes.drop (i * table.width)).take table.width = e.gram := by
  refine ⟨?_, take_drop_flatMap_gram table.uniform held⟩
  rw [get?] at held
  rw [counts, List.getElem?_map, held, Option.map_some]

/-! ## Reports -/

/-- Without its heading, the text of a report is read back as entries of the table, as many as were
asked for or as there are. They are the counts and the bytes at the first positions in rank order, line
by line. Rank order goes through all positions, larger counts first and equal counts in the order of the
table; so no position has two lines, and no position without a line has a larger count than one with
a line. -/
theorem report_reads_back (table : GramTable) (limit : Nat) :
    table.rankedPositions.Perm (List.range table.size) ∧
    table.rankedPositions.Pairwise table.Outranks ∧
    ∃ shown, readReport? (table.report limit) = some shown ∧
      shown.length = min limit table.size ∧
      List.Forall₂
        (fun position e => table.counts[position]? = some e.count ∧
          (table.bytes.drop (position * table.width)).take table.width = e.gram)
        (table.rankedPositions.take limit) shown ∧
      (table.rankedPositions.take limit).Nodup ∧
      ∀ kept ∈ table.rankedPositions.take limit, ∀ left ∈ table.rankedPositions.drop limit,
        ∀ a b, table.counts[kept]? = some a → table.counts[left]? = some b → b ≤ a := by
  have perm := table.rankedPositions_perm
  have order := table.pairwise_outranks
  refine ⟨perm, order, _, readReport?_report table limit, ?_, ?_, ?_, ?_⟩
  · rw [List.length_take, ranked, List.length_map, ranking, length_stableSort, List.length_zipIdx, size]
  · -- Positions and entries are the two halves of the ranking.
    rw [rankedPositions, ranked, ← List.map_take, ← List.map_take, List.forall₂_map_left_iff,
      List.forall₂_map_right_iff, List.forall₂_same]
    intro place member
    exact counts_and_bytes_of_get? (mem_ranking.1 (List.mem_of_mem_take member))
  · exact (perm.nodup_iff.2 List.nodup_range).sublist (List.take_sublist limit _)
  · intro kept first left second a b
    rw [← List.take_append_drop limit table.rankedPositions, List.pairwise_append] at order
    exact (order.2.2 kept first left second).count_le

example :
    readReport? (report ⟨2, [⟨[0, 1], 3⟩, ⟨[170, 187], 10⟩, ⟨[16, 32], 3⟩], by decide⟩ 2) =
      some [⟨[170, 187], 10⟩, ⟨[0, 1], 3⟩] := by
  decide +kernel

end GramTable

end GramCensus
