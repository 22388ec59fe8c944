import Wordcode.Proofs.ColorSequences
import Mathlib

namespace Wordcode.Table

/-! # Tables are rectangular

A line of a table consists of parts, one a column, and a last border. Every part starts with a
character that stands in no colour sequence, so the columns that a line takes are those of its
parts, whatever the cells hold.

* `Table.Widest` are the widths of the columns, and `Table.StandsIn` is a cell in its column.
* `Table.displayWidth_line` and `Table.displayWidth_border`: what lines and borders take.
* `Table.standsIn_line`: where a line has a cell.
* `Table.widest_widths`: the widths that a table is drawn with are the widest ones.
* `Table.rectangular` is the result.
-/

/-- There are as many columns as the longest row has cells, each as wide as its widest cell. -/
structure Widest (t : Table) (widths : List Nat) : Prop where
  columns : IsGreatest {n | ∃ row ∈ t.header :: t.rows, row.length = n} widths.length
  widest : ∀ i w : Nat, widths[i]? = some w → IsGreatest
    {n | ∃ row ∈ t.header :: t.rows, ∃ cell : String, row[i]? = some cell ∧
      Occupies cell.toList n} w

/-- The columns that parts of the given widths take: a border and a blank on both sides each. -/
def span (widths : List Nat) : Nat := (widths.map (3 + ·)).sum

/-- A line has the text of a cell, padded with blanks, between the borders of column `i`. -/
def StandsIn (widths : List Nat) (i : Nat) (cell : String) (line : List Char) : Prop :=
  ∃ before left right after,
    line = before ++ ['|', ' '] ++ blanks left ++ cell.toList ++ blanks right ++ [' ', '|'] ++
      after ∧
    Occupies before (span (widths.take i)) ∧
    ∃ w n, widths[i]? = some w ∧ Occupies cell.toList n ∧ left + n + right = w

/-- A line has all cells of a row in their columns, and nothing in the columns of missing cells. -/
structure ShowsRow (widths : List Nat) (row : List String) (line : List Char) : Prop where
  length_le : row.length ≤ widths.length
  standsIn : ∀ i < widths.length, StandsIn widths i (row.getD i "") line

/-! ## Parts -/

/-- No character of a border is inside a color sequence. -/
theorem outside_border : ∀ c ∈ ['|', '+', '-', ' '], Outside c := by
  intro c hc
  simp only [List.mem_cons, List.not_mem_nil, or_false] at hc
  rcases hc with rfl | rfl | rfl | rfl <;> exact outside_of_ne (by decide) rfl

/-- The part of a line with one cell. -/
def part (cell : String) (width : Nat) (alignment : Alignment) : List Char :=
  ['|', ' '] ++ pad cell.toList width alignment ++ [' ']

/-- The parts of a line, one a column. -/
def parts (widths : List Nat) (row : List String) (alignments : List Alignment)
    (fallback : Alignment) : List (List Char) :=
  widths.zipIdx.map fun (w, i) => part (row.getD i "") w (alignments.getD i fallback)

/-- The cells of a row are not wider than their columns. -/
def Fits (widths : List Nat) (row : List String) : Prop :=
  ∀ i w, widths[i]? = some w → displayWidth (row.getD i "").toList ≤ w

variable {widths : List Nat} {row : List String} {alignments : List Alignment}
  {fallback alignment : Alignment} {cell : String} {w : Nat}

/-- A line is its parts and a last bar. -/
theorem line_eq : line widths row alignments fallback =
    (parts widths row alignments fallback ++ [['|']]).flatten := by
  simp [line, parts, part, List.flatMap_def]

/-- Padding puts blanks on both sides of a text, up to the width. -/
theorem exists_pad {cs : List Char} (h : displayWidth cs ≤ w) (alignment : Alignment) :
    ∃ left right, pad cs w alignment = blanks left ++ cs ++ blanks right ∧
      left + displayWidth cs + right = w := by
  cases alignment with
  | left => exact ⟨0, w - displayWidth cs, rfl, by omega⟩
  | right => exact ⟨w - displayWidth cs, 0, by simp [pad, blanks], by omega⟩
  | center =>
      let gap := w - displayWidth cs
      exact ⟨gap / 2, gap - gap / 2, rfl, by omega⟩

/-- A part is a bar, a blank, the padded cell and a blank. -/
theorem displayWidth_part (h : displayWidth cell.toList ≤ w) :
    displayWidth (part cell w alignment) = 3 + w := by
  obtain ⟨left, right, hpad, hwidth⟩ := exists_pad h alignment
  -- no color sequence reaches from the border or a blank into the cell
  have hbefore : ∀ c ∈ '|' :: ' ' :: blanks left, Outside c := by
    intro c hc
    refine outside_border c ?_
    rcases List.mem_cons.mp hc with rfl | hc
    · simp
    · rw [List.eq_of_mem_replicate (n := left + 1) hc]
      simp
  have hafter : ∀ c ∈ blanks right ++ [' '], Outside c := by
    intro c hc
    rw [blanks, ← List.replicate_succ'] at hc
    exact outside_border c (by simp [List.eq_of_mem_replicate hc])
  have hpart : part cell w alignment =
      ('|' :: ' ' :: blanks left) ++ (cell.toList ++ (blanks right ++ [' '])) := by
    simp [part, hpad]
  have hlengths : ('|' :: ' ' :: blanks left).length = left + 2 ∧
      (blanks right ++ [' ']).length = right + 1 := by simp [blanks]
  rw [hpart, displayWidth_outside_append hbefore, displayWidth_append_outside hafter]
  omega

/-! ## Lines -/

/-- There is a part for each column, also where the row has no cell. -/
theorem getElem?_parts {i : Nat} (hi : widths[i]? = some w) :
    (parts widths row alignments fallback)[i]? =
      some (part (row.getD i "") w (alignments.getD i fallback)) := by
  simp [parts, List.getElem?_zipIdx, hi]

/-- The parts of a row that fits are as wide as the columns. -/
theorem map_displayWidth_parts (h : Fits widths row) :
    (parts widths row alignments fallback).map displayWidth = widths.map (3 + ·) := by
  refine List.ext_getElem? fun i => ?_
  cases hi : widths[i]? with
  | none =>
      simp [parts, List.getElem?_zipIdx, hi]
  | some w =>
      rw [List.getElem?_map, getElem?_parts hi, List.getElem?_map, hi]
      exact congrArg some (displayWidth_part (h i w hi))

/-- Every part begins with a bar, which is where color sequences end. -/
theorem exists_cons_of_mem_parts {p : List Char}
    (hp : p ∈ parts widths row alignments fallback) : ∃ rest, p = '|' :: rest := by
  obtain ⟨⟨w, i⟩, -, rfl⟩ := List.mem_map.mp hp
  exact ⟨_, rfl⟩

/-- The widths of parts add up, since no color sequence goes on across a bar. -/
theorem displayWidth_flatten_of_border {ps : List (List Char)}
    (h : ∀ p ∈ ps, ∃ rest, p = '|' :: rest) :
    displayWidth ps.flatten = (ps.map displayWidth).sum := by
  refine displayWidth_flatten fun p hp => ?_
  obtain ⟨rest, hrest⟩ := h p hp
  exact ⟨'|', rest, hrest, outside_border '|' (by simp)⟩

/-- A line of cells that fit is as wide as the columns ask for. -/
theorem displayWidth_line (h : Fits widths row) :
    displayWidth (line widths row alignments fallback) = 1 + span widths := by
  rw [line_eq, displayWidth_flatten_of_border, List.map_append, List.sum_append,
    map_displayWidth_parts h]
  · exact Nat.add_comm _ 1
  · intro p hp
    rcases List.mem_append.mp hp with hp | hp
    · exact exists_cons_of_mem_parts hp
    · exact ⟨[], List.mem_singleton.mp hp⟩

/-- A border is as wide as a line. -/
theorem displayWidth_border (widths : List Nat) :
    displayWidth (border widths) = 1 + span widths := by
  have hchars : ∀ c ∈ border widths, Outside c := by
    intro c hc
    refine outside_border c ?_
    simp only [border, List.mem_append, List.mem_flatMap, List.mem_cons, List.mem_replicate,
      List.not_mem_nil, or_false] at hc
    rcases hc with ⟨w, -, rfl | ⟨-, rfl⟩⟩ | rfl <;> simp
  have hlength : (border widths).length = 1 + span widths := by
    simp only [border, span, List.length_append, List.length_flatMap, List.length_cons,
      List.length_replicate, List.length_nil]
    have hpart : (fun w => w + 2 + 1) = (3 + · : Nat → Nat) := by
      funext w
      omega
    rw [hpart, Nat.add_comm]
  have hwidth := displayWidth_outside_append hchars []
  rw [List.append_nil, hlength] at hwidth
  exact hwidth

/-- Behind every part there is a border. -/
theorem exists_flatten_eq_cons {ps : List (List Char)} (h : ∀ p ∈ ps, ∃ rest, p = '|' :: rest) :
    ∃ after, (ps ++ [['|']]).flatten = '|' :: after := by
  cases ps with
  | nil => exact ⟨[], rfl⟩
  | cons p ps =>
      obtain ⟨rest, rfl⟩ := h p List.mem_cons_self
      exact ⟨_, rfl⟩

/-- A line has the cells of its row in their columns. -/
theorem standsIn_line (h : Fits widths row) {i : Nat} (hi : widths[i]? = some w) :
    StandsIn widths i (row.getD i "") (line widths row alignments fallback) := by
  let ps := parts widths row alignments fallback
  have hpart : ps[i]? = some (part (row.getD i "") w (alignments.getD i fallback)) :=
    getElem?_parts hi
  -- What stands in front of the part takes the columns of the parts before it, and what follows
  -- starts with the other border of the cell.
  have hps : ps = ps.take i ++
      part (row.getD i "") w (alignments.getD i fallback) :: ps.drop (i + 1) := by
    obtain ⟨hlt, hget⟩ := List.getElem?_eq_some_iff.mp hpart
    rw [← hget, ← List.drop_eq_getElem_cons hlt, List.take_append_drop]
  obtain ⟨left, right, hpad, hwidth⟩ := exists_pad (h i w hi) (alignments.getD i fallback)
  obtain ⟨after, hafter⟩ := exists_flatten_eq_cons fun p (hp : p ∈ ps.drop (i + 1)) =>
    exists_cons_of_mem_parts (List.mem_of_mem_drop hp)
  refine ⟨(ps.take i).flatten, left, right, after, ?_, ?_, w, _, hi, occupies_iff.mpr rfl, hwidth⟩
  · have hline : line widths row alignments fallback = (ps ++ [['|']]).flatten := line_eq
    rw [hline, hps, List.append_assoc, List.flatten_append, List.cons_append, List.flatten_cons,
      hafter, ← hps, part, hpad]
    simp
  · have hbefore : ∀ p ∈ ps.take i, ∃ rest, p = '|' :: rest :=
      fun p hp => exists_cons_of_mem_parts (List.mem_of_mem_take hp)
    rw [occupies_iff, displayWidth_flatten_of_border hbefore, List.map_take,
      map_displayWidth_parts h, span, List.map_take]

/-- A part has no line end that its cell does not have. -/
theorem newline_not_mem_part (h : '\n' ∉ cell.toList) : '\n' ∉ part cell w alignment := by
  cases alignment <;> simp [part, pad, blanks, h]

/-- A line has no line end that no cell has. -/
theorem newline_not_mem_line (h : ∀ cell ∈ row, '\n' ∉ cell.toList) :
    '\n' ∉ line widths row alignments fallback := by
  have hcell (i : Nat) : '\n' ∉ (row.getD i "").toList := by
    rw [List.getD_eq_getElem?_getD]
    cases hi : row[i]? with
    | none => simp
    | some cell => exact h cell (List.mem_of_getElem? hi)
  rw [line_eq, List.mem_flatten]
  rintro ⟨p, hp, hc⟩
  rcases List.mem_append.mp hp with hp | hp
  · obtain ⟨⟨w, i⟩, -, rfl⟩ := List.mem_map.mp hp
    exact newline_not_mem_part (hcell i) hc
  · rw [List.mem_singleton.mp hp] at hc
    simp at hc

theorem newline_not_mem_border (widths : List Nat) : '\n' ∉ border widths := by
  simp [border]

/-! ## Widths of columns -/

/-- A running maximum ends with the greatest of the values that it has seen. -/
theorem isGreatest_foldl_max {α : Type} {xs : List α} (h : xs ≠ []) (f : α → Nat) :
    IsGreatest {n | ∃ x ∈ xs, f x = n} (xs.foldl (fun n x => max n (f x)) 0) := by
  have hmax : (0 :: xs.map f).max? = some (xs.foldl (fun n x => max n (f x)) 0) := by
    rw [List.max?_cons', List.foldl_map]
  generalize xs.foldl (fun n x => max n (f x)) 0 = m at hmax
  obtain ⟨hmem, hle⟩ := List.max?_eq_some_iff.mp hmax
  have hbound (x : α) (hx : x ∈ xs) : f x ≤ m :=
    hle (f x) (List.mem_cons_of_mem 0 (List.mem_map_of_mem hx))
  refine ⟨?_, ?_⟩
  · rcases List.mem_cons.mp hmem with rfl | hmem
    · obtain ⟨x, hx⟩ := List.exists_mem_of_ne_nil xs h
      exact ⟨x, hx, Nat.le_zero.mp (hbound x hx)⟩
    · exact List.mem_map.mp hmem
  · rintro n ⟨x, hx, rfl⟩
    exact hbound x hx

variable {t : Table}

/-- There are as many columns as the longest row has cells. -/
theorem isGreatest_columns (t : Table) :
    IsGreatest {n | ∃ row ∈ t.header :: t.rows, row.length = n} t.columns :=
  isGreatest_foldl_max (List.cons_ne_nil _ _) List.length

/-- A missing cell counts as an empty one. -/
theorem isGreatest_widthAt (t : Table) (i : Nat) : IsGreatest
    {n | ∃ row ∈ t.header :: t.rows, displayWidth (row.getD i "").toList = n} (t.widthAt i) :=
  isGreatest_foldl_max (List.cons_ne_nil _ _) fun row : List String =>
    displayWidth (row.getD i "").toList

/-- There is a width for each column. -/
theorem getElem?_widths {i : Nat} : t.widths[i]? = some w ↔ i < t.columns ∧ t.widthAt i = w := by
  simp [widths, List.getElem?_eq_some_iff]

theorem length_widths (t : Table) : t.widths.length = t.columns := by
  simp [widths]

/-- A column is as wide as its widest cell. -/
theorem widest_widths (t : Table) : t.Widest t.widths where
  columns := by
    rw [length_widths]
    exact isGreatest_columns t
  widest := by
    intro i w hi
    obtain ⟨hcolumn, rfl⟩ := getElem?_widths.mp hi
    obtain ⟨⟨row, hrow, hwidth⟩, hbound⟩ := isGreatest_widthAt t i
    refine ⟨?_, ?_⟩
    · by_cases hlt : i < row.length
      · refine ⟨row, hrow, row[i], List.getElem?_eq_getElem hlt, occupies_iff.mpr ?_⟩
        rw [← hwidth, List.getD_eq_getElem row "" hlt]
      · -- Only empty cells are as wide as a missing one, and a longest row has one here.
        obtain ⟨⟨longest, hlongest, hlength⟩, -⟩ := isGreatest_columns t
        have hlt' : i < longest.length := hlength ▸ hcolumn
        have hzero : t.widthAt i = 0 := by
          rw [← hwidth, List.getD_eq_default row "" (Nat.le_of_not_lt hlt)]
          rfl
        have hempty := hbound ⟨longest, hlongest, rfl⟩
        rw [hzero, List.getD_eq_getElem longest "" hlt'] at hempty
        refine ⟨longest, hlongest, longest[i], List.getElem?_eq_getElem hlt', ?_⟩
        rw [occupies_iff, hzero]
        exact Nat.le_zero.mp hempty
    · rintro n ⟨row, hrow, cell, hcell, hn⟩
      refine hbound ⟨row, hrow, ?_⟩
      rw [List.getD_eq_getElem?_getD, hcell]
      exact occupies_iff.mp hn

/-- Every row fits the widths of the table. -/
theorem fits_widths (h : row ∈ t.header :: t.rows) : Fits t.widths row := by
  intro i w hi
  obtain ⟨-, rfl⟩ := getElem?_widths.mp hi
  exact (isGreatest_widthAt t i).2 ⟨row, h, rfl⟩

/-- The line of a row shows its cells in their columns. -/
theorem showsRow_line (h : row ∈ t.header :: t.rows) :
    ShowsRow t.widths row (line t.widths row alignments fallback) where
  length_le := length_widths t ▸ (isGreatest_columns t).2 ⟨row, h, rfl⟩
  standsIn := fun _ hi => standsIn_line (fits_widths h) (List.getElem?_eq_getElem hi)

/-! ## Tables -/

/-- A line of the table is a border or the line of a row. -/
theorem mem_lines {l : List Char} (h : l ∈ t.lines) : l = border t.widths ∨
    ∃ row ∈ t.header :: t.rows, ∃ alignments fallback,
      l = line t.widths row alignments fallback := by
  have hcases : l = border t.widths ∨ l = line t.widths t.header t.headerAlignment .center ∨
      ∃ row ∈ t.rows, line t.widths row t.columnAlignment .left = l := by
    unfold lines at h
    split at h <;> simp at h <;> tauto
  rcases hcases with rfl | rfl | ⟨row, hrow, rfl⟩
  · exact .inl rfl
  · exact .inr ⟨t.header, List.mem_cons_self, _, _, rfl⟩
  · exact .inr ⟨row, List.mem_cons_of_mem _ hrow, _, _, rfl⟩

/-- Lines without line ends are found again. -/
theorem splitOn_flatMap_newline {ls : List (List Char)} (h : ∀ l ∈ ls, '\n' ∉ l) :
    (ls.flatMap (· ++ ['\n'])).splitOn '\n' = ls ++ [[]] := by
  induction ls with
  | nil => rfl
  | cons l ls ih =>
      have hfirst : ∀ c ∈ l, (c == '\n') = false := by
        intro c hc
        refine beq_eq_false_iff_ne.mpr ?_
        rintro rfl
        exact h l List.mem_cons_self hc
      have hrest := ih fun l' hl' => h l' (List.mem_cons_of_mem l hl')
      rw [List.splitOn] at hrest ⊢
      rw [List.flatMap_cons, List.append_assoc, List.singleton_append,
        List.splitOnP_append_cons_of_forall_mem hfirst '\n' rfl, hrest, List.cons_append]

/-- The header is behind the first border. -/
theorem getElem?_lines_header (h : t.header ≠ []) :
    t.lines[1]? = some (line t.widths t.header t.headerAlignment .center) := by
  simp [lines, h]

/-- The rows are behind the first border, or behind the header and a second one. -/
theorem getElem?_lines_row {k : Nat} (h : t.rows[k]? = some row) :
    t.lines[k + if t.header = [] then 1 else 3]? =
      some (line t.widths row t.columnAlignment .left) := by
  have hrow : (t.rows.map (line t.widths · t.columnAlignment .left) ++ [border t.widths])[k]? =
      some (line t.widths row t.columnAlignment .left) := by
    obtain ⟨hlt, rfl⟩ := List.getElem?_eq_some_iff.mp h
    rw [List.getElem?_append_left (by simpa using hlt), List.getElem?_map, h, Option.map_some]
  by_cases hheader : t.header = []
  · simpa [lines, hheader] using hrow
  · simpa [lines, hheader] using hrow

/-- A table as drawn: the lines that it is written as take the same columns, and they have all cells
in columns that are as wide as their widest cell. -/
structure Rectangular (t : Table) (widths : List Nat) (lines : List (List Char)) : Prop where
  widest : t.Widest widths
  splitOn_eq : t.render.toList.splitOn '\n' = lines ++ [[]]
  occupies : ∀ line ∈ lines, Occupies line (1 + span widths)
  header : t.header ≠ [] → ∃ line, lines[1]? = some line ∧ ShowsRow widths t.header line
  rows : ∀ (k : Nat) (row : List String), t.rows[k]? = some row → ∃ line,
    lines[k + if t.header = [] then 1 else 3]? = some line ∧ ShowsRow widths row line

/-- Tables without line ends in their cells are drawn as rectangles, whatever the cells hold, colour
sequences and parts of such sequences included. -/
theorem rectangular (t : Table)
    (hcells : ∀ row ∈ t.header :: t.rows, ∀ cell ∈ row, '\n' ∉ cell.toList) :
    ∃ widths lines, t.Rectangular widths lines := by
  refine ⟨t.widths, t.lines, widest_widths t, ?_, ?_, ?_, ?_⟩
  · -- no cell has a line end, so the lines of the text are the lines drawn
    rw [render, String.toList_ofList]
    refine splitOn_flatMap_newline fun l hl => ?_
    rcases mem_lines hl with rfl | ⟨row, hrow, _, _, rfl⟩
    · exact newline_not_mem_border _
    · exact newline_not_mem_line (hcells row hrow)
  · intro l hl
    refine occupies_iff.mpr ?_
    rcases mem_lines hl with rfl | ⟨row, hrow, _, _, rfl⟩
    · exact displayWidth_border _
    · exact displayWidth_line (fits_widths hrow)
  · intro hheader
    exact ⟨_, getElem?_lines_header hheader, showsRow_line List.mem_cons_self⟩
  · intro k row hrow
    have hmem : row ∈ t.header :: t.rows := List.mem_cons_of_mem _ (List.mem_of_getElem? hrow)
    exact ⟨_, getElem?_lines_row hrow, showsRow_line hmem⟩

/-- A table with a coloured cell, a cell that starts a sequence without end, and ragged rows. -/
def colored : Table where
  header := ["name", "n"]
  rows := [["\x1b[1mbold\x1b[0m", "12", "\x1b[3"], ["m"], []]
  columnAlignment := [.right, .center]

/-- A table with colored cells and a row that is too short. -/
theorem rectangular_colored :
    (∀ row ∈ colored.header :: colored.rows, ∀ cell ∈ row, '\n' ∉ cell.toList) ∧
    ∃ widths lines, colored.Rectangular widths lines :=
  have hcells : ∀ row ∈ colored.header :: colored.rows, ∀ cell ∈ row, '\n' ∉ cell.toList := by
    decide
  ⟨hcells, rectangular colored hcells⟩

end Wordcode.Table
