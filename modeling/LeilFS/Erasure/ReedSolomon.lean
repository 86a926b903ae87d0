/-
Module: LeilFS.Erasure.ReedSolomon
Purpose: The coder object with its cached tables: computing parity parts, and recovering any
  m lost parts from the k others, over any sequence of calls.
Trusted boundary: none
-/
import LeilFS.Erasure.Generator
import LeilFS.Lib.StepSystem

namespace LeilFS.Erasure

open StepSystem List
open GaussJordan (dot invert dot_congr)

/-- A set of parts, or of positions among them. -/
abbrev ErasedMap := Finset ℕ

/-- The buffers of the parts; a missing one stands for zeros. -/
abbrev FragmentMap := ℕ → Option (List GF256)

/-- The coder for `k` data and `m` parity parts, with the tables of the last call. -/
structure ReedSolomon where
  k : ℕ
  m : ℕ
  rsMatrix : Matrix
  gfTable : List GFTable
  erasedParts : ErasedMap
  neededParts : ErasedMap
  nonZeroInput : ErasedMap

namespace ReedSolomon

/-- A new coder. -/
def create (k m : ℕ) : ReedSolomon :=
  ⟨k, m, createRSMatrix k m, [], ∅, ∅, ∅⟩

/-! ## Matrices -/

/-- The numbers below a bound that are in a set, in order. -/
def selected (bound : ℕ) (required : ErasedMap) : List ℕ :=
  (List.range bound).filter (· ∈ required)

/-- The parts that are not erased, in order. -/
def surviving (bound : ℕ) (erased : ErasedMap) : List ℕ :=
  (List.range bound).filter (· ∉ erased)

/-- Select rows from a matrix. -/
def selectRows (input : Matrix) (rows : List ℕ) : Matrix :=
  rows.map fun i => input.getD i []

/-- Select columns from a matrix. -/
def selectColumns (input : Matrix) (columns : List ℕ) : Matrix :=
  input.map fun row => columns.map fun j => row.getD j 0

/-- Matrix multiplication, through the same tables as the encoding of buffers. -/
def matrixMultiply (s : ℕ) (a b : Matrix) : Matrix :=
  ecEncodeData s s a.length (ecInitTables a) b

/-- Columns that will be multiplied by zeros are removed. -/
def reduceColumns (k : ℕ) (nonZeroInput : ErasedMap) (matrix : Matrix) : Matrix :=
  if nonZeroInput.card < k then selectColumns matrix (selected k nonZeroInput) else matrix

/-- The matrix for needed parts when all data parts are there. -/
def encodingMatrix (k m : ℕ) (rsMatrix : Matrix) (needed : ErasedMap) : Matrix :=
  selectRows rsMatrix (selected (k + m) needed)

/-- The matrix for needed parts when some data part is lost. A failed inversion is not
noticed. -/
def recoveryMatrix (k m : ℕ) (rsMatrix : Matrix) (needed erased : ErasedMap)
    (recoverOnlyData : Bool) : Matrix :=
  let available := selectRows rsMatrix (surviving (k + m) erased)
  let decodeMatrix := (invert k available).2
  if !recoverOnlyData then
    matrixMultiply k (selectRows rsMatrix (selected (k + m) needed)) decodeMatrix
  else selectRows decodeMatrix (selected k needed)

/-- Whether the tables at hand are for these sets. -/
def hit (rs : ReedSolomon) (needed erased nonZeroInput : ErasedMap) : Prop :=
  needed = rs.neededParts ∧ erased = rs.erasedParts ∧ nonZeroInput = rs.nonZeroInput

instance (rs : ReedSolomon) (needed erased nonZeroInput : ErasedMap) :
    Decidable (rs.hit needed erased nonZeroInput) :=
  inferInstanceAs (Decidable (_ ∧ _ ∧ _))

/-- The tables of a matrix are kept with the sets that they are for. -/
def keep (rs : ReedSolomon) (needed erased nonZeroInput : ErasedMap) (matrix : Matrix) :
    ReedSolomon :=
  { rs with
    gfTable := ecInitTables (reduceColumns rs.k nonZeroInput matrix)
    neededParts := needed
    erasedParts := erased
    nonZeroInput := nonZeroInput }

def createEncodingMatrix (rs : ReedSolomon) (needed erased nonZeroInput : ErasedMap) :
    ReedSolomon :=
  if rs.hit needed erased nonZeroInput then rs
  else rs.keep needed erased nonZeroInput (encodingMatrix rs.k rs.m rs.rsMatrix needed)

def createRecoveryMatrix (rs : ReedSolomon) (needed erased nonZeroInput : ErasedMap)
    (recoverOnlyData : Bool) : ReedSolomon :=
  if rs.hit needed erased nonZeroInput then rs
  else
    rs.keep needed erased nonZeroInput
      (recoveryMatrix rs.k rs.m rs.rsMatrix needed erased recoverOnlyData)

/-! ## Calls -/

/-- The positions of the inputs that have a buffer. -/
def nonZeroPositions (parts : List ℕ) (fragments : FragmentMap) : ErasedMap :=
  (Finset.range parts.length).filter fun p => (fragments (parts.getD p 0)).isSome

/-- The tables for the needed parts are at hand, and all data parts survive or not. -/
def prepare (rs : ReedSolomon) (needed erased nonZeroInput : ErasedMap) : ReedSolomon :=
  let dataPartCount := ((surviving (rs.k + rs.m) erased).filter (· < rs.k)).length
  let parityPartCount := (needed.filter (rs.k ≤ ·)).card
  if dataPartCount = rs.k then rs.createEncodingMatrix needed erased nonZeroInput
  else rs.createRecoveryMatrix needed erased nonZeroInput (parityPartCount = 0)

/-- Recover missing parts: those of the erased ones for which there is an output buffer. -/
def recover (rs : ReedSolomon) (inputFragments : FragmentMap) (erased outputs : ErasedMap)
    (dataSize : ℕ) : ReedSolomon × List (ℕ × List GF256) :=
  let needed := (Finset.range (rs.k + rs.m)).filter fun i => i ∈ erased ∧ i ∈ outputs
  let survivors := surviving (rs.k + rs.m) erased
  let inParts := survivors.filterMap inputFragments
  let rs' := rs.prepare needed erased (nonZeroPositions survivors inputFragments)
  (rs', (selected (rs.k + rs.m) needed).zip
    (ecEncodeData dataSize inParts.length (selected (rs.k + rs.m) needed).length rs'.gfTable
      inParts))

/-- Compute parity parts. -/
def encode (rs : ReedSolomon) (dataFragments : FragmentMap) (dataSize : ℕ) :
    ReedSolomon × List (List GF256) :=
  let parity := Finset.Ico rs.k (rs.k + rs.m)
  let inParts := (List.range rs.k).filterMap dataFragments
  let rs' := rs.createEncodingMatrix parity parity
    (nonZeroPositions (List.range rs.k) dataFragments)
  (rs', ecEncodeData dataSize inParts.length rs.m rs'.gfTable inParts)

/-- A call on a coder, with its arguments. -/
inductive Call where
  | encode (dataFragments : FragmentMap) (dataSize : ℕ)
  | recover (inputFragments : FragmentMap) (erased outputs : ErasedMap) (dataSize : ℕ)

/-- The coder after a call. -/
def after (rs : ReedSolomon) : Call → ReedSolomon
  | .encode dataFragments dataSize => (rs.encode dataFragments dataSize).1
  | .recover inputFragments erased outputs dataSize =>
      (rs.recover inputFragments erased outputs dataSize).1

/-! ## The cache -/

/-- The matrix from which the tables for a set of needed parts are made. -/
def neededMatrix (k m : ℕ) (matrix : Matrix) (needed erased : ErasedMap) : Matrix :=
  if ((surviving (k + m) erased).filter (· < k)).length = k then encodingMatrix k m matrix needed
  else recoveryMatrix k m matrix needed erased ((needed.filter (k ≤ ·)).card = 0)

/-- The tables that the sets stand for. -/
def tableFor (k m : ℕ) (matrix : Matrix) (needed erased nonZeroInput : ErasedMap) : List GFTable :=
  ecInitTables (reduceColumns k nonZeroInput (neededMatrix k m matrix needed erased))

/-- The coder was made for `k` and `m`, and its tables are those of its sets, unless it is
new. -/
structure Cached (k m : ℕ) (rs : ReedSolomon) : Prop where
  dataCount : rs.k = k
  parityCount : rs.m = m
  matrix : rs.rsMatrix = createRSMatrix k m
  table : rs.erasedParts = ∅ ∨
    rs.gfTable = tableFor k m (createRSMatrix k m) rs.neededParts rs.erasedParts rs.nonZeroInput

theorem cached_create (k m : ℕ) : Cached k m (create k m) :=
  ⟨rfl, rfl, rfl, .inl rfl⟩

variable {k m : ℕ} {rs : ReedSolomon}

variable {matrix : Matrix} {fragments : FragmentMap} {data : List (List GF256)} {size : ℕ}
  {needed erased nonZeroInput : ErasedMap}

/-- When the data parts survive, the encoding matrix makes the tables of the sets. -/
theorem Cached.createEncodingMatrix (h : Cached k m rs)
    (whole : ((surviving (k + m) erased).filter (· < k)).length = k) :
    Cached k m (rs.createEncodingMatrix needed erased nonZeroInput) := by
  unfold ReedSolomon.createEncodingMatrix
  split
  · exact h
  · refine ⟨h.dataCount, h.parityCount, h.matrix, .inr ?_⟩
    simp only [keep, tableFor, neededMatrix, h.dataCount, h.parityCount, h.matrix, whole, if_true]

theorem Cached.prepare (h : Cached k m rs) (needed erased nonZeroInput : ErasedMap) :
    Cached k m (rs.prepare needed erased nonZeroInput) := by
  unfold ReedSolomon.prepare
  simp only [h.dataCount, h.parityCount]
  split
  case isTrue whole => exact h.createEncodingMatrix whole
  case isFalse broken =>
    unfold createRecoveryMatrix
    split
    · exact h
    · refine ⟨h.dataCount, h.parityCount, h.matrix, .inr ?_⟩
      simp only [keep, tableFor, neededMatrix, h.dataCount, h.parityCount,
        h.matrix, broken, if_false]

/-- After the preparation the sets are those asked for. -/
theorem prepare_sets (rs : ReedSolomon) (needed erased nonZeroInput : ErasedMap) :
    (rs.prepare needed erased nonZeroInput).neededParts = needed ∧
      (rs.prepare needed erased nonZeroInput).erasedParts = erased ∧
      (rs.prepare needed erased nonZeroInput).nonZeroInput = nonZeroInput := by
  unfold prepare createEncodingMatrix createRecoveryMatrix
  dsimp only
  split
  all_goals
    split
    case isTrue eq => exact ⟨eq.1.symm, eq.2.1.symm, eq.2.2.symm⟩
    case isFalse other => exact ⟨rfl, rfl, rfl⟩

/-- Whatever calls came before, the tables are those of the sets asked for. -/
theorem Cached.gfTable_prepare (h : Cached k m rs) (lost : erased ≠ ∅) :
    (rs.prepare needed erased nonZeroInput).gfTable =
      tableFor k m (createRSMatrix k m) needed erased nonZeroInput := by
  obtain ⟨sameNeeded, sameErased, sameInput⟩ := prepare_sets rs needed erased nonZeroInput
  have table := (h.prepare needed erased nonZeroInput).table
  rw [sameNeeded, sameErased, sameInput] at table
  exact table.resolve_left lost

/-- Parity parts that are not chosen need not be looked at. -/
theorem filter_range_add {chosen : ℕ → Bool} (data : ∀ i < k + m, chosen i = true → i < k) :
    (range (k + m)).filter chosen = (range k).filter chosen := by
  have none : ((range m).map (k + ·)).filter chosen = [] :=
    filter_eq_nil_iff.mpr fun i mem isChosen => by
      obtain ⟨r, small, rfl⟩ := mem_map.mp mem
      have := data _ (Nat.add_lt_add_left (mem_range.mp small) k) isChosen
      omega
  rw [range_add, filter_append, none, append_nil]

/-- The data parts survive when exactly the parity parts are erased. -/
theorem surviving_parity (k m : ℕ) : surviving (k + m) (Finset.Ico k (k + m)) = range k := by
  rw [surviving, filter_range_add]
  · refine filter_eq_self.mpr fun i mem => ?_
    have := mem_range.mp mem
    simp only [Finset.mem_Ico, decide_eq_true_eq]
    omega
  · intro i bound kept
    simp only [Finset.mem_Ico, decide_eq_true_eq] at kept
    omega

theorem filter_range_lt (k : ℕ) : (range k).filter (· < k) = range k :=
  filter_eq_self.mpr fun i mem => by simpa using mem

/-- Encoding is preparing for the parity parts. -/
theorem encode_eq_prepare (h : Cached k m rs) (dataFragments : FragmentMap) (dataSize : ℕ) :
    (rs.encode dataFragments dataSize).1 = rs.prepare (Finset.Ico k (k + m)) (Finset.Ico k (k + m))
      (nonZeroPositions (range k) dataFragments) := by
  simp only [encode, prepare, h.dataCount, h.parityCount, surviving_parity, filter_range_lt,
    length_range, if_true]

theorem Cached.after (h : Cached k m rs) (call : Call) : Cached k m (rs.after call) := by
  cases call with
  | encode dataFragments dataSize =>
    rw [ReedSolomon.after, encode_eq_prepare h]
    exact h.prepare _ _ _
  | recover inputFragments erased outputs dataSize => exact h.prepare _ _ _

theorem cached_run (k m : ℕ) (calls : List Call) : Cached k m (run after (create k m) calls) :=
  invariant_run_of_step (fun _ call cached => cached.after call) (cached_create k m)
    calls

/-! ## Inputs without the zero parts -/

theorem filterMap_eq_map_filter {α β : Type*} (f : α → Option β) (default : β) (l : List α) :
    l.filterMap f = (l.filter fun x => (f x).isSome).map fun x => (f x).getD default := by
  induction l with
  | nil => rfl
  | cons x l ih =>
    cases value : f x with
    | none => simp [value, ih]
    | some y => simp [value, ih]

/-- The inputs that have a buffer are those at the selected positions. -/
theorem filterMap_eq_selected (parts : List ℕ) (fragments : FragmentMap) :
    parts.filterMap fragments = (selected parts.length (nonZeroPositions parts fragments)).map
      fun p => (fragments (parts.getD p 0)).getD [] := by
  have listed : parts = (range parts.length).map (parts.getD · 0) := by
    refine ext_getElem (by simp) fun p left right => ?_
    simp [getElem?_eq_getElem left]
  have positions : selected parts.length (nonZeroPositions parts fragments)
      = (range parts.length).filter fun p => (fragments (parts.getD p 0)).isSome := by
    refine filter_congr fun p mem => ?_
    simp [nonZeroPositions, mem_range.mp mem]
  calc parts.filterMap fragments
      = ((range parts.length).map (parts.getD · 0)).filterMap fragments := by rw [← listed]
    _ = (range parts.length).filterMap fun p => fragments (parts.getD p 0) := filterMap_map ..
    _ = _ := by rw [filterMap_eq_map_filter _ [], positions]

theorem sum_map_filter_range {F : Type*} [AddCommMonoid F] (k : ℕ) (chosen : ℕ → Bool) (f : ℕ → F) :
    (((range k).filter chosen).map f).sum =
      ∑ p ∈ Finset.range k, if chosen p then f p else 0 := by
  induction k with
  | zero => rfl
  | succ k ih =>
    rw [range_succ, filter_append, map_append, sum_append, ih, Finset.sum_range_succ]
    by_cases last : chosen k <;> simp [last]

theorem sum_range_getD {F : Type*} [AddCommMonoid F] (l : List ℕ) (f : ℕ → F) :
    ∑ j ∈ Finset.range l.length, f (l.getD j 0) = (l.map f).sum := by
  induction l with
  | nil => rfl
  | cons x l ih =>
    rw [length_cons, Finset.sum_range_succ', map_cons, sum_cons, ← ih, add_comm]
    rfl

/-- The columns left out meet zeros only. -/
theorem dot_selectColumns {row : List GF256} {s : ℕ → GF256} {nonZeroInput : ErasedMap}
    (zeros : ∀ p < row.length, p ∉ nonZeroInput → s p = 0) :
    dot ((selected row.length nonZeroInput).map (row.getD · 0))
      (fun j => s ((selected row.length nonZeroInput).getD j 0)) = dot row s := by
  have entry : ∀ j < (selected row.length nonZeroInput).length,
      ((selected row.length nonZeroInput).map (row.getD · 0)).getD j 0
        = row.getD ((selected row.length nonZeroInput).getD j 0) 0 := by
    intro j inside
    simp [getElem?_eq_getElem inside]
  unfold dot
  rw [length_map, Finset.sum_congr rfl fun j mem => by
    rw [entry j (Finset.mem_range.mp mem)],
    sum_range_getD _ fun p => row.getD p 0 * s p, selected, sum_map_filter_range]
  refine Finset.sum_congr rfl fun p mem => ?_
  split
  · rfl
  case isFalse absent =>
    rw [zeros p (Finset.mem_range.mp mem) (by simpa using absent), mul_zero]

/-- With all positions in the set there is nothing to leave out. -/
theorem reduceColumns_eq {nonZeroInput : ErasedMap} (inside : nonZeroInput ⊆ Finset.range k)
    (width : ∀ r ∈ matrix, r.length = k) :
    reduceColumns k nonZeroInput matrix = selectColumns matrix (selected k nonZeroInput) := by
  unfold reduceColumns
  split
  · rfl
  case isFalse all =>
    have full : nonZeroInput = Finset.range k :=
      Finset.eq_of_subset_of_card_le inside (by rw [Finset.card_range]; omega)
    have every : selected k nonZeroInput = range k :=
      filter_eq_self.mpr fun i mem => by simpa [full] using mem
    rw [every]
    refine (map_id matrix).symm.trans (map_congr_left fun row mem => ?_)
    refine ext_getElem (by simpa using width row mem) fun j left right => ?_
    simp [getElem?_eq_getElem (show j < row.length from left)]

/-- Encoding with the inputs that have a buffer is multiplying with all of them. -/
theorem ecEncodeData_reduced (width : ∀ r ∈ matrix, r.length = k)
    {parts : List ℕ} (all : parts.length = k) (dataSize : ℕ) :
    ecEncodeData dataSize (parts.filterMap fragments).length matrix.length
        (ecInitTables (reduceColumns k (nonZeroPositions parts fragments) matrix))
        (parts.filterMap fragments) = matrix.map fun row => (range dataSize).map fun i =>
        dot row fun p => ((fragments (parts.getD p 0)).getD []).getD i 0 := by
  have inside : nonZeroPositions parts fragments ⊆ Finset.range k := all ▸ Finset.filter_subset _ _
  set columns := selected k (nonZeroPositions parts fragments) with columnsEq
  have inputs : parts.filterMap fragments
      = columns.map fun p => (fragments (parts.getD p 0)).getD [] := by
    rw [filterMap_eq_selected, all]
  have count : matrix.length = (selectColumns matrix columns).length := by
    rw [selectColumns, length_map]
  rw [reduceColumns_eq inside width, inputs, length_map, count,
    ecEncodeData_eq (fun r mem => ?_), selectColumns, map_map]
  · refine map_congr_left fun row mem => map_congr_left fun i _ => ?_
    have rowWidth := width row mem
    have zeros : ∀ p < row.length, p ∉ nonZeroPositions parts fragments →
        ((fragments (parts.getD p 0)).getD []).getD i 0 = 0 := by
      intro p small absent
      have missing : fragments (parts.getD p 0) = none := by
        have lt : p < parts.length := by omega
        simpa [nonZeroPositions, lt] using absent
      rw [missing]
      rfl
    have whole := dot_selectColumns zeros
    rw [rowWidth, ← columnsEq] at whole
    rw [← whole]
    refine dot_congr fun j small => ?_
    have lt : j < columns.length := by simpa using small
    simp [getElem?_eq_getElem lt]
  · obtain ⟨row, -, rfl⟩ := mem_map.mp mem
    exact length_map _

/-! ## What the matrices compute -/

/-- A part of the code word of some data, byte by byte. -/
def codePart (matrix : Matrix) (data : List (List GF256)) (size i : ℕ) : List GF256 :=
  (List.range size).map fun b => dot (matrix.getD i []) fun j => (data.getD j []).getD b 0

@[simp] theorem length_codePart (matrix : Matrix) (data : List (List GF256)) (size i : ℕ) :
    (codePart matrix data size i).length = size := by
  simp [codePart]

theorem getD_mem {α : Type*} {l : List α} {i : ℕ} (inside : i < l.length) (default : α) :
    l.getD i default ∈ l := by
  rw [getD_eq_getElem _ _ inside]
  exact getElem_mem inside

section Parts

variable {matrix : Matrix} (generator : Generator k m matrix) {erased : ErasedMap}
  (inside : erased ⊆ Finset.range (k + m)) (exactly : erased.card = m)

include generator in
theorem length_row {i : ℕ} (lt : i < k + m) : (matrix.getD i []).length = k :=
  generator.width _ (getD_mem (generator.length ▸ lt) [])

include generator in
/-- The rows of the data parts read the data. -/
theorem dot_dataRow {i : ℕ} (lt : i < k) (d : ℕ → GF256) : dot (matrix.getD i []) d = d i := by
  have width := length_row generator (show i < k + m by omega)
  refine GaussJordan.dot_of_unit (by rwa [width]) (fun c within => ?_) d
  exact generator.dataRows i lt c (width ▸ within)

include inside exactly in
theorem length_surviving : (surviving (k + m) erased).length = k := by
  have split := length_eq_length_filter_add (l := range (k + m)) (· ∈ erased)
  have lost : ((range (k + m)).filter (· ∈ erased)).length = m := by
    refine Eq.trans ?_ exactly
    rw [← toFinset_card_of_nodup (nodup_range.filter _)]
    congr 1
    ext i
    simp only [mem_toFinset, mem_filter, mem_range, decide_eq_true_eq, and_iff_right_iff_imp]
    exact fun mem => Finset.mem_range.mp (inside mem)
  rw [length_range] at split
  have rest : surviving (k + m) erased
      = (range (k + m)).filter (fun i => !decide (i ∈ erased)) :=
    filter_congr fun i _ => by simp
  rw [rest]
  omega

theorem mem_surviving {i : ℕ} : i ∈ surviving (k + m) erased ↔ i < k + m ∧ i ∉ erased := by
  simp [surviving]

theorem nodup_surviving : (surviving (k + m) erased).Nodup :=
  nodup_range.filter _

include inside exactly in
/-- When no data part is lost the survivors are the data parts. -/
theorem surviving_of_whole (whole : ((surviving (k + m) erased).filter (· < k)).length = k) :
    surviving (k + m) erased = range k := by
  have count := length_surviving inside exactly
  have data : ∀ i ∈ surviving (k + m) erased, i < k := by
    have all := length_filter_eq_length_iff.mp (whole.trans count.symm)
    exact fun i mem => by simpa using all i mem
  have sublist : (surviving (k + m) erased).Sublist (range (k + m)) := filter_sublist
  refine List.Sublist.eq_of_length_le ?_ (by rw [length_range, count])
  have extend : (range (k + m)).filter (· < k) = (range k).filter (· < k) :=
    filter_range_add fun i _ small => of_decide_eq_true small
  rw [← filter_range_lt k, ← extend]
  have restricted := sublist.filter (· < k)
  rwa [filter_eq_self.mpr fun i mem => by simpa using data i mem] at restricted

/-- The image of data in the surviving parts. -/
def survivingImage (matrix : Matrix) (alive : List ℕ) (d : ℕ → GF256) (p : ℕ) : GF256 :=
  dot (matrix.getD (alive.getD p 0) []) d

include generator inside exactly in
/-- The survivors' rows are inverted. -/
theorem decode_survivors :
    (∀ r ∈ (invert k (selectRows matrix (surviving (k + m) erased))).2, r.length = k) ∧
      (invert k (selectRows matrix (surviving (k + m) erased))).2.length = k ∧
      ∀ d : ℕ → GF256, ∀ j < k,
        dot ((invert k (selectRows matrix (surviving (k + m) erased))).2.getD j [])
          (survivingImage matrix (surviving (k + m) erased) d) = d j := by
  set alive := surviving (k + m) erased
  have count : alive.length = k := length_surviving inside exactly
  have bound : ∀ i ∈ alive, i < k + m := fun i mem => (mem_surviving.mp mem).1
  have rowOf {j : ℕ} (lt : j < k) :
      (selectRows matrix alive).getD j [] = matrix.getD (alive.getD j 0) [] := by
    simp [selectRows, getElem?_eq_getElem (count ▸ lt)]
  have square : (selectRows matrix alive).length = k := by rw [selectRows, length_map, count]
  have widths : ∀ r ∈ selectRows matrix alive, r.length = k := by
    intro r mem
    obtain ⟨i, there, rfl⟩ := mem_map.mp mem
    exact length_row generator (bound i there)
  have regular : GaussJordan.Regular k fun j => (selectRows matrix alive).getD j [] := by
    intro v zero
    refine generator.regular nodup_surviving bound count v fun j lt => ?_
    have zeroAt : dot ((selectRows matrix alive).getD j []) v = 0 := zero j lt
    rwa [rowOf lt] at zeroAt
  obtain ⟨-, length, width, solves⟩ := GaussJordan.invert_solves square widths regular
  refine ⟨width, length, fun d j lt => ?_⟩
  rw [← solves d j lt]
  refine dot_congr fun p within => ?_
  have boundP : p < k := by
    rwa [width _ (getD_mem (length.symm ▸ lt) [])] at within
  rw [survivingImage, rowOf boundP]

/-- A product of matrices applies one after the other. -/
theorem dot_product {row : List GF256} {b : Matrix} (s : ℕ → GF256)
    (widths : ∀ j < row.length, (b.getD j []).length = k) :
    dot ((range k).map fun i => dot row fun j => (b.getD j []).getD i 0) s
      = dot row fun j => dot (b.getD j []) s := by
  have left : dot ((range k).map fun i => dot row fun j => (b.getD j []).getD i 0) s
      = ∑ i ∈ Finset.range k, (∑ j ∈ Finset.range row.length,
          row.getD j 0 * (b.getD j []).getD i 0) * s i := by
    rw [dot, length_map, length_range]
    refine Finset.sum_congr rfl fun i mem => ?_
    simp [getElem?_range (Finset.mem_range.mp mem), dot]
  have right : (dot row fun j => dot (b.getD j []) s)
      = ∑ j ∈ Finset.range row.length, row.getD j 0 *
          ∑ i ∈ Finset.range k, (b.getD j []).getD i 0 * s i := by
    refine Finset.sum_congr rfl fun j mem => ?_
    dsimp only [dot]
    rw [widths j (Finset.mem_range.mp mem)]
  rw [left, right]
  simp only [Finset.sum_mul, Finset.mul_sum, mul_assoc]
  exact Finset.sum_comm

/-- A matrix with rows of a width that takes the surviving parts to the needed ones. -/
structure Yields (k m : ℕ) (matrix : Matrix) (needed erased : ErasedMap) (rows : Matrix) :
    Prop where
  width : ∀ r ∈ rows, r.length = k
  parts : ∀ d : ℕ → GF256,
    rows.map (dot · (survivingImage matrix (surviving (k + m) erased) d)) =
      (selected (k + m) needed).map fun i => dot (matrix.getD i []) d

theorem mem_selected {needed : ErasedMap} {n i : ℕ} :
    i ∈ selected n needed ↔ i < n ∧ i ∈ needed := by
  simp [selected]

include generator in
theorem width_selectRows {needed : ErasedMap} :
    ∀ r ∈ selectRows matrix (selected (k + m) needed), r.length = k := by
  intro r mem
  obtain ⟨i, there, rfl⟩ := mem_map.mp mem
  exact length_row generator (mem_selected.mp there).1

include generator inside exactly in
theorem yields_encodingMatrix (needed : ErasedMap)
    (whole : ((surviving (k + m) erased).filter (· < k)).length = k) :
    Yields k m matrix needed erased (encodingMatrix k m matrix needed) where
  width := width_selectRows generator
  parts d := by
    rw [surviving_of_whole inside exactly whole, encodingMatrix, selectRows, map_map]
    refine map_congr_left fun i mem => dot_congr fun p within => ?_
    have lt : p < k := by
      rwa [length_row generator (mem_selected.mp mem).1] at within
    have position : (range k).getD p 0 = p := by
      simp [getElem?_range lt]
    rw [survivingImage, position, dot_dataRow generator lt]

include generator inside exactly in
theorem yields_recoveryMatrix (needed : ErasedMap) : Yields k m matrix needed erased
      (recoveryMatrix k m matrix needed erased ((needed.filter (k ≤ ·)).card = 0)) := by
  obtain ⟨width, length, solves⟩ := decode_survivors generator inside exactly
  unfold recoveryMatrix
  dsimp only
  set decodeMatrix := (invert k (selectRows matrix (surviving (k + m) erased))).2
  have rowWidth {j : ℕ} (lt : j < k) : (decodeMatrix.getD j []).length = k :=
    width _ (getD_mem (length.symm ▸ lt) [])
  by_cases onlyData : (needed.filter (k ≤ ·)).card = 0
  · -- the needed parts are data parts: their rows of the inverse
    have data : ∀ i ∈ needed, i < k := by
      intro i mem
      by_contra large
      have : i ∈ needed.filter (k ≤ ·) := Finset.mem_filter.mpr ⟨mem, Nat.le_of_not_lt large⟩
      rw [Finset.card_eq_zero.mp onlyData] at this
      simp at this
    have fewer : selected (k + m) needed = selected k needed :=
      filter_range_add fun i _ there => data i (of_decide_eq_true there)
    simp only [onlyData, decide_true, Bool.not_true, Bool.false_eq_true, if_false]
    refine ⟨fun r mem => ?_, fun d => ?_⟩
    · obtain ⟨j, there, rfl⟩ := mem_map.mp mem
      exact rowWidth (mem_selected.mp there).1
    · rw [fewer, selectRows, map_map]
      refine map_congr_left fun j mem => ?_
      have lt := (mem_selected.mp mem).1
      rw [Function.comp_apply, solves d j lt, dot_dataRow generator lt]
  · simp only [onlyData, decide_false, Bool.not_false, if_true]
    rw [matrixMultiply, ecEncodeData_eq (width_selectRows generator)]
    refine ⟨fun r mem => ?_, fun d => ?_⟩
    · obtain ⟨row, -, rfl⟩ := mem_map.mp mem
      rw [length_map, length_range]
    · rw [map_map, selectRows, map_map]
      refine map_congr_left fun i mem => ?_
      have rowLength := length_row generator (mem_selected.mp mem).1
      rw [Function.comp_apply, Function.comp_apply, dot_product _ fun j within =>
        rowWidth (rowLength ▸ within)]
      exact dot_congr fun j within => solves d j (rowLength ▸ within)

include generator inside exactly in
theorem yields_neededMatrix (needed : ErasedMap) :
    Yields k m matrix needed erased (neededMatrix k m matrix needed erased) := by
  unfold neededMatrix
  split
  case isTrue whole => exact yields_encodingMatrix generator inside exactly needed whole
  case isFalse broken => exact yields_recoveryMatrix generator inside exactly needed

end Parts

/-! ## What the calls compute -/

/-- A fragment holds a part, or the part is all zeros and there is no buffer. -/
def Gives (fragment : Option (List GF256)) (part : List GF256) : Prop :=
  fragment = some part ∨ fragment = none ∧ ∀ x ∈ part, x = 0

theorem Gives.getD {fragment : Option (List GF256)} {part : List GF256}
    (h : Gives fragment part) (b : ℕ) : (fragment.getD []).getD b 0 = part.getD b 0 := by
  rcases h with rfl | ⟨rfl, zeros⟩
  · rfl
  · rcases Nat.lt_or_ge b part.length with inside | outside
    · rw [zeros _ (getD_mem inside 0)]
      rfl
    · simp [getElem?_eq_none outside]

theorem getD_codePart (matrix : Matrix) (data : List (List GF256)) {size b : ℕ} (lt : b < size)
    (i : ℕ) : (codePart matrix data size i).getD b 0
      = dot (matrix.getD i []) fun j => (data.getD j []).getD b 0 := by
  simp [codePart, getElem?_range lt]

/-- From the survivors of a code word the tables compute its needed parts. -/
theorem ecEncodeData_needed (generator : Generator k m matrix) (needed : ErasedMap)
    {erased : ErasedMap} (inside : erased ⊆ Finset.range (k + m)) (exactly : erased.card = m)
    (given : ∀ i < k + m, i ∉ erased → Gives (fragments i) (codePart matrix data size i)) :
    ecEncodeData size ((surviving (k + m) erased).filterMap fragments).length
        (selected (k + m) needed).length
        (tableFor k m matrix needed erased (nonZeroPositions (surviving (k + m) erased) fragments))
        ((surviving (k + m) erased).filterMap fragments) =
      (selected (k + m) needed).map (codePart matrix data size) := by
  have yields := yields_neededMatrix generator inside exactly needed
  set alive := surviving (k + m) erased
  have count : alive.length = k := length_surviving inside exactly
  have rows : (selected (k + m) needed).length
      = (neededMatrix k m matrix needed erased).length := by
    simpa using (congrArg length (yields.parts fun _ => 0)).symm
  rw [rows]
  refine (ecEncodeData_reduced yields.width count size).trans ?_
  -- each byte of the result is the needed part of the data at that byte
  have byteParts (b : ℕ) (lt : b < size) :
      (neededMatrix k m matrix needed erased).map (fun row => dot row fun p =>
          ((fragments (alive.getD p 0)).getD []).getD b 0)
        = (selected (k + m) needed).map fun i =>
            dot (matrix.getD i []) fun j => (data.getD j []).getD b 0 := by
    rw [← yields.parts]
    refine map_congr_left fun row mem => dot_congr fun p within => ?_
    have position : p < alive.length := by
      rwa [count, ← yields.width row mem]
    have there : alive.getD p 0 ∈ alive := getD_mem position 0
    obtain ⟨bound, kept⟩ := mem_surviving.mp there
    rw [(given _ bound kept).getD, getD_codePart _ _ lt, survivingImage]
  refine ext_getElem (by simpa using rows.symm) fun l left right => ?_
  simp only [getElem_map]
  refine map_congr_left fun b mem => ?_
  have place := congrArg (·[l]?) (byteParts b (mem_range.mp mem))
  rw [getElem?_eq_getElem (by simpa using left),
    getElem?_eq_getElem (by simpa using right)] at place
  simpa using place

/-- The requested erased parts come back from any code word. -/
theorem recover_eq (h : Cached k m rs) (fewData : k ≤ 32) (some : 1 ≤ m) (few : m ≤ 32)
    {erased outputs : ErasedMap} (inside : erased ⊆ Finset.range (k + m))
    (exactly : erased.card = m) (given : ∀ i < k + m, i ∉ erased →
      Gives (fragments i) (codePart (createRSMatrix k m) data size i)) :
    (rs.recover fragments erased outputs size).2 =
      (selected (k + m) (erased ∩ outputs)).map fun i =>
        (i, codePart (createRSMatrix k m) data size i) := by
  have lost : erased ≠ ∅ := by
    rintro rfl
    simp at exactly
    omega
  have needed : (Finset.range (k + m)).filter (fun i => i ∈ erased ∧ i ∈ outputs)
      = erased ∩ outputs := by
    ext i
    simp only [Finset.mem_filter, Finset.mem_inter, and_iff_right_iff_imp]
    exact fun mem => inside mem.1
  unfold recover
  simp only [h.dataCount, h.parityCount, needed]
  rw [h.gfTable_prepare lost,
    ecEncodeData_needed (generator_createRSMatrix fewData few) _ inside exactly given,
    map_prod_left_eq_zip]

/-- The parity parts are those of the code word. -/
theorem encode_eq (h : Cached k m rs) (fewData : k ≤ 32) (some : 1 ≤ m) (few : m ≤ 32)
    (given : ∀ i < k, Gives (fragments i) (codePart (createRSMatrix k m) data size i)) :
    (rs.encode fragments size).2 =
      (range m).map fun r => codePart (createRSMatrix k m) data size (k + r) := by
  have inside : Finset.Ico k (k + m) ⊆ Finset.range (k + m) :=
    fun i mem => Finset.mem_range.mpr (Finset.mem_Ico.mp mem).2
  have exactly : (Finset.Ico k (k + m)).card = m := by
    rw [Nat.card_Ico, Nat.add_sub_cancel_left]
  have lost : Finset.Ico k (k + m) ≠ ∅ := by
    rintro empty
    rw [empty] at exactly
    simp at exactly
    omega
  have parity : selected (k + m) (Finset.Ico k (k + m)) = (range m).map (k + ·) := by
    rw [selected, range_add, filter_append]
    have data : (range k).filter (· ∈ Finset.Ico k (k + m)) = [] :=
      filter_eq_nil_iff.mpr fun i mem => by
        have := mem_range.mp mem
        simp only [Finset.mem_Ico, decide_eq_true_eq]
        omega
    have rest : ((range m).map (k + ·)).filter (· ∈ Finset.Ico k (k + m))
        = (range m).map (k + ·) :=
      filter_eq_self.mpr fun i mem => by
        obtain ⟨r, small, rfl⟩ := mem_map.mp mem
        have := mem_range.mp small
        simp only [Finset.mem_Ico, decide_eq_true_eq]
        omega
    rw [data, rest, nil_append]
  have table := congrArg ReedSolomon.gfTable (encode_eq_prepare h fragments size)
  rw [h.gfTable_prepare lost] at table
  have survivors : ∀ i < k + m, i ∉ Finset.Ico k (k + m) →
      Gives (fragments i) (codePart (createRSMatrix k m) data size i) := by
    intro i bound kept
    refine given i (Nat.lt_of_not_le fun large => ?_)
    exact kept (Finset.mem_Ico.mpr ⟨large, bound⟩)
  have result := ecEncodeData_needed (generator_createRSMatrix fewData few)
    (Finset.Ico k (k + m)) inside exactly survivors
  rw [surviving_parity, parity, length_map, length_range, map_map] at result
  refine Eq.trans ?_ result
  rw [← table]
  simp only [encode, h.dataCount, h.parityCount]

theorem codePart_data (generator : Generator k m matrix) {size i : ℕ} (lt : i < k)
    (length : (data.getD i []).length = size) : codePart matrix data size i = data.getD i [] := by
  refine ext_getElem ?_ fun b left right => ?_
  · rw [codePart, length_map, length_range, length]
  simp only [codePart, getElem_map, getElem_range]
  rw [dot_dataRow generator lt, getD_eq_getElem _ _ right]

/-- Data of `k` parts is encoded at some point of any sequence of calls; when any `m` parts are
lost, and the others are given at any later point, the requested lost parts come back. -/
theorem recover_reproduces {k m : ℕ} (fewData : k ≤ 32) (some : 1 ≤ m) (few : m ≤ 32)
    (before between : List Call) {size : ℕ} {data : List (List GF256)} (count : data.length = k)
    (equal : ∀ part ∈ data, part.length = size) {dataFragments : FragmentMap}
    (dataGiven : ∀ i < k, Gives (dataFragments i) (data.getD i []))
    {erased : ErasedMap} (inside : erased ⊆ Finset.range (k + m)) (exactly : erased.card = m)
    {inputFragments : FragmentMap} (outputs : ErasedMap) :
    let encoded := (run after (create k m) before).encode dataFragments size
    let stored := data ++ encoded.2
    (∀ i < k + m, i ∉ erased → Gives (inputFragments i) (stored.getD i [])) →
      ((run after encoded.1 between).recover inputFragments erased outputs size).2 =
        (selected (k + m) (erased ∩ outputs)).map fun i => (i, stored.getD i []) := by
  intro encoded stored given
  have generator := generator_createRSMatrix (k := k) (m := m) fewData few
  have cachedBefore := cached_run k m before
  have dataPart {i : ℕ} (small : i < k) :
      codePart (createRSMatrix k m) data size i = data.getD i [] :=
    codePart_data generator small (equal _ (getD_mem (count.symm ▸ small) []))
  have parity : encoded.2
      = (List.range m).map fun r => codePart (createRSMatrix k m) data size (k + r) :=
    encode_eq cachedBefore fewData some few fun i small => (dataPart small).symm ▸ dataGiven i small
  have storedPart {i : ℕ} (bound : i < k + m) :
      stored.getD i [] = codePart (createRSMatrix k m) data size i := by
    rcases Nat.lt_or_ge i k with small | large
    · rw [dataPart small, getD_eq_getElem?_getD, getD_eq_getElem?_getD,
        getElem?_append_left (count.symm ▸ small)]
    obtain ⟨r, rfl⟩ := Nat.exists_eq_add_of_le large
    have rowBound : r < m := by omega
    rw [getD_eq_getElem?_getD, getElem?_append_right (by omega), count,
      Nat.add_sub_cancel_left, parity, getElem?_map, getElem?_range rowBound]
    rfl
  have cachedAfter : Cached k m (run after encoded.1 between) :=
    invariant_run_of_step (fun _ call cached => cached.after call)
      (cachedBefore.after (.encode dataFragments size)) between
  rw [recover_eq cachedAfter fewData some few inside exactly fun i bound kept =>
    storedPart bound ▸ given i bound kept]
  refine map_congr_left fun i member => ?_
  rw [storedPart (mem_selected.mp member).1]

/-- Two data parts of one byte, of which the second is zero and has no buffer, and one parity
part: the first data part is lost after another recovery on the same coder. -/
theorem recover_reproduces_lostFirst :
    let dataFragments : FragmentMap := fun i => if i = 0 then some [⟨5⟩] else none
    let inputFragments : FragmentMap := fun i => if i = 2 then some [⟨5⟩] else none
    let calls : List Call := [.recover inputFragments {1} {1} 1]
    let encoded := (run after (create 2 1) calls).encode dataFragments 1
    ((run after encoded.1 calls).recover inputFragments {0} {0, 1} 1).2
      = [(0, [⟨5⟩])] := by
  intro dataFragments inputFragments calls encoded
  have parity : encoded.2 = [[⟨5⟩]] := by
    decide +kernel
  have dataGiven : ∀ i < 2, Gives (dataFragments i) ([[⟨5⟩], [⟨0⟩]].getD i []) := by
    intro i small
    interval_cases i
    · exact .inl rfl
    · exact .inr ⟨rfl, by decide⟩
  have result := @recover_reproduces 2 1 (by decide) (by decide) (by decide) calls calls 1
    [[⟨5⟩], [⟨0⟩]] rfl (by decide) dataFragments dataGiven {0} (by decide) (by decide)
    inputFragments {0, 1}
  dsimp only at result
  rw [parity] at result
  refine result fun i bound kept => ?_
  interval_cases i
  · simp at kept
  · exact .inr ⟨rfl, by decide⟩
  · exact .inl rfl

end ReedSolomon

end LeilFS.Erasure
