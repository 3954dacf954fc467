import Skt.Software.Summary

/-!
# The self-join estimate of the software

`merge_columns` adds up the squared counters of every AGMS row of a collector in
one entry each of another collector's table, and `get_median` takes the median
of the entries of that table: sorted, the mean of the two in the middle. The
first is driven by the rows of its argument, the second by the rows of the
collector it is called on.

Both compute in `int`, where a result out of range is undefined behaviour, as is
an access outside of a table. So the two functions are partial. They are stated
for any range of signed arithmetic: that of `int` is what the code has, and
without bounds the arithmetic is exact.

The range matters to the first result, that the estimate is exact just when it
fits. The rows matter to the second, that the median is that of the merged rows
just when both collectors have as many. The two questions are independent, and
the second is asked with exact arithmetic.
-/

namespace Skt

/-! ## Signed arithmetic -/

/-- **A range of signed arithmetic.** With a non-negative number it has all
smaller ones. So a sum of squares that stays inside at the end was inside all
the way. -/
structure IntRange where
  /-- Which integers the type can hold. -/
  holds : ℤ → Prop
  decidable : DecidablePred holds
  /-- Zero is one of them. -/
  zero : holds 0
  /-- So is everything between zero and a number that is. -/
  mono : ∀ {x y : ℤ}, 0 ≤ x → x ≤ y → holds y → holds x

namespace IntRange

instance (R : IntRange) : DecidablePred R.holds := R.decidable

/-- The range of `int`, two's complement on 32 bits. -/
def int : IntRange where
  holds x := -2 ^ 31 ≤ x ∧ x < 2 ^ 31
  decidable := fun _ => instDecidableAnd
  zero := by norm_num
  mono hx hxy hy := ⟨by linarith, hxy.trans_lt hy.2⟩

/-- No range at all, for exact arithmetic. -/
def exact : IntRange where
  holds _ := True
  decidable := fun _ => instDecidableTrue
  zero := trivial
  mono _ _ _ := trivial

/-- The result of an operation, if it is in the range. Outside of it the program
has no meaning. -/
def check (R : IntRange) (x : ℤ) : Option ℤ :=
  if R.holds x then some x else none

/-- For a number that is not negative, `int` is a bound. -/
theorem int_holds {x : ℤ} (hx : 0 ≤ x) : int.holds x ↔ x < 2 ^ 31 :=
  ⟨fun h => h.2, fun h => ⟨by linarith, h⟩⟩

end IntRange

/-! ## Merging columns

The table that is written to is that of `this`, the one that is read that of
`other`. They are different collectors in both tools. -/

namespace SktCollector

/-- One turn of the inner loop of `merge0_columns`: `*ref += cand*cand`. The
product and the sum are both computed in `int`. -/
def columnTurn (R : IntRange) (other : SktCollector) (i : ℕ)
    (table : List ℤ) (j : ℕ) :
    Option (List ℤ) := do
  let cand ← other.tableAgms[i * 2 ^ other.pAgms + j]?
  let square ← R.check (cand.toInt * cand.toInt)
  let ref ← table[i]?
  let sum ← R.check (ref + square)
  return table.set i sum

/-- One turn of the outer loop: the columns of row `i` of the argument are added
up in entry `i`. -/
def rowTurn (R : IntRange) (other : SktCollector) (table : List ℤ)
    (i : ℕ) : Option (List ℤ) :=
  (List.range (2 ^ other.pAgms)).foldlM (columnTurn R other i) table

/-- `merge0_columns`, as far as the AGMS table it writes to is concerned. The
bounds of both loops are those of the argument; there is no check that the table
has an entry for every row. -/
def merge0Columns (R : IntRange) (this other : SktCollector) :
    Option (List ℤ) :=
  (List.range other.rAgms).foldlM (rowTurn R other)
    (this.tableAgms.map BitVec.toInt)

/-- `get_median` on an AGMS table, with the table it leaves sorted. `val - 1` is
unsigned.

The number of entries that are sorted is the number of rows of the collector
itself. The sum of the two in the middle is an `int` before it is converted. -/
def getMedian (R : IntRange) (val : ℕ) (table : List ℤ) : Option (ℚ × List ℤ) :=
  if val ≤ table.length then do
    let table := (table.take val).insertionSort (· ≤ ·) ++ table.drop val
    let below := if val = 0 then 2 ^ 32 - 1 else val - 1
    let lower ← table[below / 2]?
    let upper ← table[val / 2]?
    let sum ← R.check (lower + upper)
    return ((sum : ℚ) / 2, table)
  else none

/-! ## Rows and their median

What the two functions should compute, in terms of the counters. -/

/-- The counter of row `i` and bucket `k`, read as a signed number. -/
def agmsEntry (c : SktCollector) (i k : ℕ) : ℤ :=
  (c.tableAgms.getD (i * 2 ^ c.pAgms + k) 0).toInt

/-- The sum of the squared counters of a row, its estimate of the self-join
size. -/
def rowSum (c : SktCollector) (i : ℕ) : ℤ :=
  ∑ k ∈ Finset.range (2 ^ c.pAgms), c.agmsEntry i k ^ 2

/-- The sums of all rows, in the order of the rows. -/
def rowSums (c : SktCollector) : List ℤ := (List.range c.rAgms).map c.rowSum

end SktCollector

/-- **The median of some values**: the one in the middle, or the mean of the two
in the middle. -/
def medianOf (values : List ℤ) : ℚ :=
  let sorted := values.insertionSort (· ≤ ·)
  if values.length % 2 = 1 then sorted.getD (values.length / 2) 0
  else ((sorted.getD (values.length / 2 - 1) 0 + sorted.getD
    (values.length / 2) 0 : ℤ) : ℚ) / 2

/-- What `get_median` adds up: the two values in the middle, or twice the one in
the middle. With an odd number of values both indices are the same. -/
def middleSum (values : List ℤ) : ℤ :=
  (values.insertionSort (· ≤ ·)).getD ((values.length - 1) / 2) 0
    + (values.insertionSort (· ≤ ·)).getD (values.length / 2) 0

/-- Half of it is the median, for at least one value. -/
theorem middleSum_div_two {values : List ℤ} (hne : values ≠ []) :
    (middleSum values : ℚ) / 2 = medianOf values := by
  have hpos := List.length_pos_iff.mpr hne
  unfold middleSum medianOf
  by_cases hodd : values.length % 2 = 1
  · have hmiddle : (values.length - 1) / 2 = values.length / 2 := by omega
    rw [if_pos hodd, hmiddle]
    push_cast
    ring
  · have hmiddle : (values.length - 1) / 2 = values.length / 2 - 1 := by omega
    rw [if_neg hodd, hmiddle]

/-- The values in the middle are not negative when none is. -/
theorem middleSum_nonneg {values : List ℤ} (h : ∀ v ∈ values, 0 ≤ v) :
    0 ≤ middleSum values := by
  have hget : ∀ n, 0 ≤ (values.insertionSort (· ≤ ·)).getD n 0 := fun n => by
    rw [List.getD_eq_getElem?_getD]
    cases hn : (values.insertionSort (· ≤ ·))[n]? with
    | none => exact le_rfl
    | some v =>
      exact h v ((List.mem_insertionSort _).mp (List.mem_of_getElem? hn))
  exact add_nonneg (hget _) (hget _)

namespace SktCollector

/-! ## What the loops do

Each loop either writes what it should or fails, and the condition is on the
result of the loop, not on its turns. -/

section Loops

variable (R : IntRange) (other : SktCollector)

/-- A sum of squares is not negative, so all that matters is the upper end of
the range. -/
theorem rowSum_nonneg (i : ℕ) : 0 ≤ other.rowSum i :=
  Finset.sum_nonneg (fun _ _ => sq_nonneg _)

/-- The counters of a row are in the table. -/
theorem getElem?_tableAgms {i k : ℕ} (hi : i < other.rAgms)
    (hk : k < 2 ^ other.pAgms) :
    ∃ cand, other.tableAgms[i * 2 ^ other.pAgms + k]? = some cand
      ∧ cand.toInt = other.agmsEntry i k := by
  have hlt : i * 2 ^ other.pAgms + k < other.tableAgms.length := by
    rw [other.length_tableAgms]
    exact row_position_lt hi hk
  refine ⟨_, List.getElem?_eq_getElem hlt, ?_⟩
  unfold agmsEntry
  rw [List.getD_eq_getElem?_getD, List.getElem?_eq_getElem hlt]
  rfl

/-- A turn of the inner loop adds a square, unless that leaves the range. That
the square fits is implied, as what it is added to is not negative. -/
theorem columnTurn_eq {i k : ℕ} (hi : i < other.rAgms)
    (hk : k < 2 ^ other.pAgms) {table : List ℤ} {ref : ℤ}
    (href : table[i]? = some ref) (hnonneg : 0 ≤ ref) :
    columnTurn R other i table k
      = if R.holds (ref + other.agmsEntry i k ^ 2)
        then some (table.set i (ref + other.agmsEntry i k ^ 2)) else none := by
  obtain ⟨cand, hcand, hentry⟩ := other.getElem?_tableAgms hi hk
  have hsquare : 0 ≤ other.agmsEntry i k ^ 2 := sq_nonneg _
  unfold columnTurn IntRange.check
  rw [hcand, href]
  simp only [Option.bind_eq_bind, Option.bind_some, hentry, ← pow_two]
  by_cases hsum : R.holds (ref + other.agmsEntry i k ^ 2)
  · have hfirst := R.mono hsquare (le_add_of_nonneg_left hnonneg) hsum
    rw [if_pos hfirst, Option.bind_some, if_pos hsum, if_pos hsum]
    rfl
  · rw [if_neg hsum]
    split
    · rw [Option.bind_some, if_neg hsum]
      rfl
    · rfl

/-- **The inner loop adds the squares of a row**, unless that leaves the range.
By monotonicity the partial sums need no condition of their own. -/
theorem foldlM_columnTurn {i : ℕ} (hi : i < other.rAgms) {table : List ℤ}
    (htable : table[i]? = some 0) {n : ℕ} (hn : n ≤ 2 ^ other.pAgms) :
    (List.range n).foldlM (columnTurn R other i) table
      = if R.holds (∑ k ∈ Finset.range n, other.agmsEntry i k ^ 2)
        then some (table.set i (∑ k ∈ Finset.range n, other.agmsEntry i k ^ 2))
          else none := by
  obtain ⟨hlt, h0⟩ := List.getElem?_eq_some_iff.mp htable
  induction n with
  | zero =>
    rw [Finset.range_zero, Finset.sum_empty, if_pos R.zero, ← h0,
      List.set_getElem_self]
    rfl
  | succ n ih =>
    set sum := ∑ k ∈ Finset.range n, other.agmsEntry i k ^ 2 with hsum
    have hnonneg : 0 ≤ sum := Finset.sum_nonneg (fun _ _ => sq_nonneg _)
    have hsquare : 0 ≤ other.agmsEntry i n ^ 2 := sq_nonneg _
    rw [Table.foldlM_range_succ, ih (Nat.le_of_succ_le hn),
      Finset.sum_range_succ, ← hsum]
    by_cases hbefore : R.holds sum
    · rw [if_pos hbefore]
      show columnTurn R other i (table.set i sum) n = _
      rw [columnTurn_eq R other hi (Nat.lt_of_succ_le hn)
        (List.getElem?_set_self hlt) hnonneg,
        List.set_set]
    · have hafter : ¬ R.holds (sum + other.agmsEntry i n ^ 2) := fun h =>
        hbefore (R.mono hnonneg (le_add_of_nonneg_right hsquare) h)
      rw [if_neg hbefore, if_neg hafter]
      rfl

/-- The outer loop writes to an entry of the table, or fails. -/
theorem rowTurn_eq_none {i : ℕ} {table : List ℤ} (href : table[i]? = none) :
    rowTurn R other table i = none := by
  have hturn : columnTurn R other i table 0 = none := by
    unfold columnTurn
    rw [href]
    cases other.tableAgms[i * 2 ^ other.pAgms + 0]? with
    | none => rfl
    | some cand =>
      show (R.check (cand.toInt * cand.toInt) >>= _) = _
      cases R.check (cand.toInt * cand.toInt) <;> rfl
  unfold rowTurn
  rw [← Nat.succ_pred_eq_of_pos (Nat.two_pow_pos other.pAgms),
    List.range_succ_eq_map,
    List.foldlM_cons, hturn]
  rfl

/-- **The outer loop writes the sums of the rows** into a clean table, unless
one of them leaves the range or the table. -/
theorem foldlM_rowTurn (length : ℕ) {n : ℕ} (hn : n ≤ other.rAgms) :
    (List.range n).foldlM (rowTurn R other) (List.replicate length 0)
      = if n ≤ length ∧ ∀ i < n, R.holds (other.rowSum i)
        then some
        ((List.range n).map other.rowSum ++ List.replicate (length - n) 0)
        else none := by
  induction n with
  | zero => simp
  | succ n ih =>
    rw [Table.foldlM_range_succ, ih (Nat.le_of_succ_le hn), List.range_succ]
    by_cases hbefore : n ≤ length ∧ ∀ i < n, R.holds (other.rowSum i)
    · rw [if_pos hbefore]
      show rowTurn R other _ n = _
      set done := (List.range n).map other.rowSum with hdone
      have hdoneLength : done.length = n := by
        rw [hdone, List.length_map, List.length_range]
      rcases Nat.lt_or_ge n length with hlt | hge
      · -- the next entry is still zero
        have hrest : List.replicate (length - n) (0 : ℤ)
            = 0 :: List.replicate (length - (n + 1)) 0 := by
          rw [← List.replicate_succ]
          congr 1
          omega
        have hget : (done ++ List.replicate (length - n) 0)[n]?
          = some (0 : ℤ) := by
          rw [hrest, List.getElem?_append_right hdoneLength.le,
            hdoneLength, Nat.sub_self]
          rfl
        have hset : (done ++ List.replicate (length - n) 0).set n
          (other.rowSum n)
            = (done ++ [other.rowSum n]) ++ List.replicate
              (length - (n + 1)) 0 := by
          rw [hrest, List.set_append_right _ _ hdoneLength.le,
            hdoneLength, Nat.sub_self,
            List.append_assoc]
          rfl
        unfold rowTurn
        rw [foldlM_columnTurn R other (Nat.lt_of_succ_le hn) hget le_rfl]
        show (if R.holds (other.rowSum n)
          then some ((done ++ List.replicate (length - n) 0).set n
            (other.rowSum n)) else none) = _
        rw [hset, List.map_append, List.map_singleton]
        refine if_congr ?_ rfl rfl
        constructor
        · intro hnext
          refine ⟨hlt, fun i hi => ?_⟩
          rcases Nat.lt_succ_iff_lt_or_eq.mp hi with hi | rfl
          · exact hbefore.2 i hi
          · exact hnext
        · exact fun hall => hall.2 n (Nat.lt_succ_self n)
      · -- the next entry is outside of the table
        have hget : (done ++ List.replicate (length - n) 0)[n]? = none := by
          refine List.getElem?_eq_none ?_
          rw [List.length_append, List.length_replicate, hdoneLength]
          omega
        rw [rowTurn_eq_none R other hget,
          if_neg (fun hall => absurd hall.1 (by omega))]
    · rw [if_neg hbefore,
        if_neg (fun hafter => hbefore ⟨Nat.le_of_succ_le hafter.1, fun i hi =>
        hafter.2 i (Nat.lt_succ_of_lt hi)⟩)]
      rfl

/-- **The median of the entries it sorts**, unless the two in the middle add up
out of the range. -/
theorem getMedian_eq {val : ℕ} {table : List ℤ} (hpos : 0 < val)
    (hle : val ≤ table.length) :
    getMedian R val table
      = if R.holds (middleSum (table.take val))
        then some (medianOf (table.take val),
          (table.take val).insertionSort (· ≤ ·) ++ table.drop val)
        else none := by
  have hlength : (table.take val).length = val := List.length_take_of_le hle
  have hsorted : ((table.take val).insertionSort (· ≤ ·)).length = val := by
    rw [List.length_insertionSort, hlength]
  have hget : ∀ n < val,
    ((table.take val).insertionSort (· ≤ ·) ++ table.drop val)[n]?
      = some (((table.take val).insertionSort (· ≤ ·)).getD n 0) :=
        fun n hn => by
    rw [List.getElem?_append_left (by rw [hsorted]; exact hn),
      List.getD_eq_getElem?_getD,
      List.getElem?_eq_getElem (by rw [hsorted]; exact hn)]
    rfl
  have hne : table.take val ≠ [] :=
    List.ne_nil_of_length_pos (by rw [hlength]; exact hpos)
  unfold getMedian
  rw [if_pos hle, if_neg hpos.ne']
  simp only [hget ((val - 1) / 2) (by omega), hget (val / 2) (by omega),
    Option.bind_eq_bind,
    Option.bind_some]
  have hmiddle : ((table.take val).insertionSort (· ≤ ·)).getD ((val - 1) / 2) 0
      + ((table.take val).insertionSort (· ≤ ·)).getD (val / 2) 0
      = middleSum (table.take val) := by
    unfold middleSum
    rw [hlength]
  rw [hmiddle]
  unfold IntRange.check
  split
  · rw [Option.bind_some, middleSum_div_two hne]
    rfl
  · rfl

end Loops

/-! ## The self-join size

The two functions one after the other, as the tools call them. -/

/-- A collector whose AGMS table is zero, as it is constructed or cleaned. Both
tools call `merge_columns` on such a collector only. -/
def AgmsClean (c : SktCollector) : Prop :=
  c.tableAgms = List.replicate (2 ^ c.pAgms * c.rAgms) 0

/-- A fresh collector is clean. -/
theorem agmsClean_new (hp ar ap cr cp : ℕ) (h : HashE) :
    (new hp ar ap cr cp h).AgmsClean := rfl

/-- So is a cleaned one, which is what `skt_bench` goes on with. -/
theorem agmsClean_clean (c : SktCollector) : c.clean.AgmsClean := by
  have hlength := c.clean.length_tableAgms
  refine List.eq_replicate_iff.mpr ⟨hlength, fun v hv => ?_⟩
  obtain ⟨i, hi⟩ := List.mem_iff_getElem?.mp hv
  have hlt : i < 2 ^ c.pAgms * c.rAgms :=
    calc i < c.clean.tableAgms.length := (List.getElem?_eq_some_iff.mp hi).1
      _ = 2 ^ c.pAgms * c.rAgms := hlength
  exact Option.some.inj
    (hi.symm.trans (getElem?_cleared c.length_tableAgms hlt))

/-- A table has an entry for every row, whatever the number of buckets. -/
theorem rAgms_le (c : SktCollector) : c.rAgms ≤ 2 ^ c.pAgms * c.rAgms :=
  Nat.le_mul_of_pos_left _ (Nat.two_pow_pos _)

/-- The columns of a collector, merged into a clean one: the sums of the rows
come first, and the entries behind them stay zero. -/
theorem merge0Columns_clean (R : IntRange) {this : SktCollector}
    (other : SktCollector) (hclean : this.AgmsClean) :
    merge0Columns R this other
      = if other.rAgms ≤ 2 ^ this.pAgms * this.rAgms ∧ ∀ i < other.rAgms,
        R.holds (other.rowSum i)
        then some (other.rowSums
          ++ List.replicate (2 ^ this.pAgms * this.rAgms - other.rAgms) 0)
        else none := by
  unfold merge0Columns
  rw [hclean, List.map_replicate]
  exact foldlM_rowTurn R other _ le_rfl

/-- **The self-join estimate is exact**: merging the columns writes the sum of
the squared counters of every row, the median is that of these sums, and nothing
leaves its range or its table on the way. -/
def SelfJoinExact (R : IntRange) (this other : SktCollector) : Prop :=
  ∃ table, merge0Columns R this other = some table
    ∧ (∀ i < other.rAgms, table[i]? = some (other.rowSum i))
    ∧ ∃ sorted, getMedian R this.rAgms table
      = some (medianOf other.rowSums, sorted)

@[simp] theorem length_rowSums (c : SktCollector) :
    c.rowSums.length = c.rAgms := by
  unfold rowSums
  rw [List.length_map, List.length_range]

/-- The sum of a row by its number. -/
theorem getElem?_rowSums (c : SktCollector) {i : ℕ} (hi : i < c.rAgms) :
    c.rowSums[i]? = some (c.rowSum i) := by
  unfold rowSums
  rw [List.getElem?_map, List.getElem?_range hi, Option.map_some]

/-- **When the self-join estimate is exact**, for any range of the arithmetic.
The condition is about the counters that are given. -/
theorem selfJoinExact_iff (R : IntRange) {this other : SktCollector}
    (hclean : this.AgmsClean) (hrows : this.rAgms = other.rAgms)
    (hpos : 0 < other.rAgms) :
    SelfJoinExact R this other
      ↔ (∀ i < other.rAgms, R.holds (other.rowSum i))
        ∧ R.holds (middleSum other.rowSums) := by
  have hroom : other.rAgms ≤ 2 ^ this.pAgms * this.rAgms := by
    rw [← hrows]
    exact this.rAgms_le
  set table := other.rowSums ++ List.replicate
    (2 ^ this.pAgms * this.rAgms - other.rAgms) 0
    with htable
  have htake : table.take this.rAgms = other.rowSums := by
    rw [htable, List.take_left' (by rw [length_rowSums, hrows])]
  have hlong : this.rAgms ≤ table.length := by
    rw [htable, List.length_append, length_rowSums, ← hrows]
    exact Nat.le_add_right _ _
  have hmedian := getMedian_eq R (hrows ▸ hpos) hlong
  rw [htake] at hmedian
  have hmerge := merge0Columns_clean R other hclean
  constructor
  · rintro ⟨t, ht, -, sorted, hsorted⟩
    rw [hmerge] at ht
    split at ht
    · next hall =>
      obtain rfl := Option.some.inj ht
      refine ⟨hall.2, by_contra fun hmiddle => ?_⟩
      rw [hmedian, if_neg hmiddle] at hsorted
      cases hsorted
    · cases ht
  · rintro ⟨hsums, hmiddle⟩
    refine ⟨table, hmerge.trans (if_pos ⟨hroom, hsums⟩), fun i hi => ?_,
      _, hmedian.trans (if_pos hmiddle)⟩
    rw [htable, List.getElem?_append_left (by rw [length_rowSums]; exact hi)]
    exact other.getElem?_rowSums hi

/-- **The sums of the rows are the self-join sizes of the sketch**, for fewer
than `2 ^ 31` items, so that no counter has wrapped. -/
theorem Holds.rowSum_eq {c : SktCollector}
    {D : Multiset (BitVec 32)} (h : c.Holds D) (hcard : D.card < 2 ^ 31) {i : ℕ}
    (hi : i < c.rAgms) :
    c.rowSum i = Sketch.agmsSumq c.pAgms (hash c.dispatch) D i := by
  refine Finset.sum_congr rfl (fun k hk => ?_)
  have hentry : c.agmsEntry i k = Sketch.agms c.pAgms
    (hash c.dispatch) D i k := by
    unfold agmsEntry
    rw [List.getD_eq_getElem?_getD, h.agms i k hi (Finset.mem_range.mp hk),
      Option.getD_some]
    exact Bits.toInt_ofInt_of_abs_le (Sketch.abs_agms_le_card _ _ _ _ _) hcard
  rw [hentry]

/-- **The software's self-join estimate is exact just when it fits `int`**: the
sum of the squared counters of every row, and the sum of the two row sums in the
middle. For fewer than `2 ^ 31` items the row sums are those of the sketch.

A row sum grows with the square of how often an item comes, so an `int` is left
much earlier than a counter is: at 46341 copies of one item. -/
theorem self_join_exact_iff {this other : SktCollector}
    (hclean : this.AgmsClean) (hrows : this.rAgms = other.rAgms)
    (hpos : 0 < other.rAgms) :
    (SelfJoinExact .int this other
      ↔ (∀ i < other.rAgms, other.rowSum i < 2 ^ 31)
        ∧ middleSum other.rowSums < 2 ^ 31)
    ∧ ∀ D, other.Holds D → D.card < 2 ^ 31 → ∀ i < other.rAgms,
      other.rowSum i
        = Sketch.agmsSumq other.pAgms (hash other.dispatch) D i := by
  refine ⟨?_, fun D hD hcard i hi => hD.rowSum_eq hcard hi⟩
  have hsums : ∀ v ∈ other.rowSums, 0 ≤ v := fun v hv => by
    obtain ⟨i, -, rfl⟩ := List.mem_map.mp hv
    exact other.rowSum_nonneg i
  rw [selfJoinExact_iff .int hclean hrows hpos,
    IntRange.int_holds (middleSum_nonneg hsums)]
  refine and_congr_left' (forall_congr' (fun i => forall_congr' (fun _ => ?_)))
  exact IntRange.int_holds (other.rowSum_nonneg i)

/-- Two rows of a collector with one item. -/
theorem self_join_exact_iff_instance :
    let s := (new 4 2 4 2 4 .ident).collect [7]
    (SelfJoinExact .int (new 0 2 1 0 0 .ident) s
      ↔ (∀ i < 2, s.rowSum i < 2 ^ 31) ∧ middleSum s.rowSums < 2 ^ 31)
    ∧ ∀ D, s.Holds D → D.card < 2 ^ 31 → ∀ i < 2,
      s.rowSum i = Sketch.agmsSumq 4 (hash .ident) D i := by
  intro s
  have hpos : 0 < s.rAgms := Nat.two_pos
  exact self_join_exact_iff (agmsClean_new 0 2 1 0 0 .ident) rfl hpos

/-- **An item that comes 46341 times** overflows the square of its counter. -/
theorem not_selfJoinExact :
    ¬ SelfJoinExact .int (new 0 1 1 0 0 .ident)
      ((new 4 1 4 1 4 .ident).collect (List.replicate 46341 0)) := by
  have hholds : ((new 4 1 4 1 4 .ident).collect (List.replicate 46341 0)).Holds
      (Multiset.replicate 46341 0) := by
    have h := (holds_new 4 1 4 1 4 .ident).collect ⟨by decide, by decide⟩
      (List.replicate 46341 0)
    rwa [zero_add, Multiset.coe_replicate] at h
  have hrows :
    ((new 4 1 4 1 4 .ident).collect (List.replicate 46341 0)).rAgms = 1 :=
    (fun _ => rfl : ∀ data, ((new 4 1 4 1 4 .ident).collect data).rAgms = 1) _
  generalize (new 4 1 4 1 4 .ident).collect (List.replicate 46341 0)
    = s at hholds hrows
  intro hexact
  have hpos : 0 < s.rAgms := by
    rw [hrows]
    exact Nat.one_pos
  have hsum :=
    ((selfJoinExact_iff .int
      (agmsClean_new 0 1 1 0 0 .ident) hrows.symm hpos).mp
    hexact).1 0 hpos
  rw [hholds.rowSum_eq (by rw [Multiset.card_replicate]; norm_num) hpos,
    Sketch.agmsSumq_replicate] at hsum
  exact absurd hsum.2 (by norm_num)

/-! ## The rows of the median

Here the arithmetic is exact, and the question is which entries are sorted. -/

/-- **The median is that of the merged rows**: all writes stay in the table, the
entries that are sorted are the sums of the rows, and the result is their
median. -/
def MedianOfRows (this other : SktCollector) : Prop :=
  ∃ table, merge0Columns .exact this other = some table
    ∧ (table.take this.rAgms).Perm other.rowSums
    ∧ ∃ sorted, getMedian .exact this.rAgms table
      = some (medianOf other.rowSums, sorted)

/-- **The median is that of the merged rows just when there are as many rows on
both sides**, and at least one; the writes stay in the table just when it has an
entry for every row of the source.

With more rows on the side of `this` zeros are sorted in, and with fewer some
sums are left out. -/
theorem median_of_rows_iff {this : SktCollector} (other : SktCollector)
    (hclean : this.AgmsClean) :
    (MedianOfRows this other ↔ this.rAgms = other.rAgms ∧ 0 < other.rAgms)
    ∧ ((merge0Columns .exact this other).isSome
      ↔ other.rAgms ≤ 2 ^ this.pAgms * this.rAgms) := by
  have hmerge := merge0Columns_clean .exact other hclean
  have hiff : (other.rAgms ≤ 2 ^ this.pAgms * this.rAgms
      ∧ ∀ i < other.rAgms, IntRange.exact.holds (other.rowSum i))
      ↔ other.rAgms ≤ 2 ^ this.pAgms * this.rAgms :=
        and_iff_left (fun _ _ => trivial)
  rw [if_congr hiff rfl rfl] at hmerge
  refine ⟨⟨?_, ?_⟩, ?_⟩
  · rintro ⟨table, htable, hperm, sorted, hsorted⟩
    rw [hmerge] at htable
    split at htable
    · next hroom =>
      obtain rfl := Option.some.inj htable
      have hlength := hperm.length_eq
      rw [List.length_take_of_le (by
        rw [List.length_append, length_rowSums, List.length_replicate,
          Nat.add_sub_cancel' hroom]
        exact this.rAgms_le), length_rowSums] at hlength
      refine ⟨hlength, Nat.pos_of_ne_zero (fun hzero => ?_)⟩
      -- with no rows there is nothing to take the median of
      have hempty : this.rAgms = 0 := hlength.trans hzero
      have htable : other.rowSums
          ++ List.replicate (2 ^ this.pAgms * this.rAgms - other.rAgms)
            (0 : ℤ) = [] := by
        refine List.length_eq_zero_iff.mp ?_
        rw [List.length_append, length_rowSums, List.length_replicate,
          hempty, hzero]
        rfl
      rw [htable, hempty] at hsorted
      cases hsorted
    · cases htable
  · rintro ⟨hrows, hpos⟩
    obtain ⟨table, htable, -, sorted, hsorted⟩ :=
      (selfJoinExact_iff .exact hclean hrows hpos).mpr
        ⟨fun _ _ => trivial, trivial⟩
    refine ⟨table, htable, ?_, sorted, hsorted⟩
    have hroom : other.rAgms ≤ 2 ^ this.pAgms * this.rAgms := by
      rw [← hrows]
      exact this.rAgms_le
    rw [hmerge, if_pos hroom] at htable
    rw [← Option.some.inj htable,
      List.take_left' (by rw [length_rowSums, hrows])]
  · rw [hmerge]
    split
    · next hroom => simp [hroom]
    · next hroom => simp [hroom]

/-- Five rows on both sides. -/
theorem median_of_rows_iff_instance :
    let s := (new 13 5 13 5 13 .ident).collect [7]
    let c := new 0 5 1 0 0 .ident
    (MedianOfRows c s ↔ c.rAgms = s.rAgms ∧ 0 < s.rAgms)
    ∧ ((merge0Columns .exact c s).isSome
      ↔ s.rAgms ≤ 2 ^ c.pAgms * c.rAgms) := by
  intro s c
  exact median_of_rows_iff s (agmsClean_new _ _ _ _ _ _)

/-- Two items that share a bucket in three of five rows. -/
theorem rowSums_pair {c : SktCollector} (h : c.Holds {0, 16385})
    (hrows : c.rAgms = 5) (hpAgms : c.pAgms = 13)
    (hhash : c.dispatch = .ident) :
    c.rowSums = [2, 2, 4, 4, 4] := by
  have hsum : ∀ i < 5, c.rowSum i = Sketch.agmsSumq 13 (hash .ident)
    {0, 16385} i := fun i hi => by
    rw [h.rowSum_eq (by decide) (hrows ▸ hi), hpAgms, hhash]
  unfold rowSums
  rw [hrows]
  show [c.rowSum 0, c.rowSum 1, c.rowSum 2, c.rowSum 3, c.rowSum 4] = _
  rw [hsum 0 (by decide), hsum 1 (by decide),
    hsum 2 (by decide), hsum 3 (by decide),
    hsum 4 (by decide)]
  simp only [Sketch.agmsSumq_pair]
  decide

/-- **The collectors of the server**: with five rows merged into a collector of
six, a zero gets into the median, here 3 instead of 4. -/
theorem not_medianOfRows :
    let s := (new 13 5 13 5 13 .ident).collect [0, 16385]
    let c := new 0 6 1 0 0 .ident
    ¬ MedianOfRows c s
    ∧ ∃ table sorted, merge0Columns .exact c s = some table
      ∧ getMedian .exact c.rAgms table = some (3, sorted)
        ∧ medianOf s.rowSums = 4 := by
  intro s c
  have hclean : c.AgmsClean := agmsClean_new _ _ _ _ _ _
  have hholds : s.Holds {0, 16385} := by
    have h := (holds_new 13 5 13 5 13 .ident).collect
      ⟨by decide, by decide⟩ [0, 16385]
    rwa [zero_add] at h
  have hsums := rowSums_pair hholds rfl rfl rfl
  have hmerge : merge0Columns .exact c s
    = some [2, 2, 4, 4, 4, 0, 0, 0, 0, 0, 0, 0] := by
    have h := merge0Columns_clean .exact s hclean
    rw [if_pos ⟨by decide, fun _ _ => trivial⟩, hsums] at h
    exact h
  have hmedian : getMedian .exact c.rAgms [2, 2, 4, 4, 4, 0, 0, 0, 0, 0, 0, 0]
      = some (3, [0, 2, 2, 4, 4, 4, 0, 0, 0, 0, 0, 0]) := by
    have hmiddle : medianOf [2, 2, 4, 4, 4, 0] = 3 := by
      rw [← middleSum_div_two (by decide),
        show middleSum [2, 2, 4, 4, 4, 0] = 6 by decide]
      norm_num
    refine (getMedian_eq .exact (by decide) (by decide)).trans ?_
    refine (if_pos (show IntRange.exact.holds _ from trivial)).trans ?_
    show some (medianOf [2, 2, 4, 4, 4, 0], _) = _
    rw [hmiddle]
    rfl
  refine ⟨fun h => ?_, _, _, hmerge, hmedian, ?_⟩
  · obtain ⟨table, htable, hperm, -⟩ := h
    have hlength := hperm.length_eq
    rw [hmerge] at htable
    rw [← Option.some.inj htable, hsums] at hlength
    exact absurd hlength (by decide)
  · rw [hsums, ← middleSum_div_two (by decide),
      show middleSum [2, 2, 4, 4, 4] = 8 by decide]
    norm_num

end SktCollector

end Skt
