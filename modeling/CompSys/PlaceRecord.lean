import CompSys.CString
import Mathlib.Data.List.Basic
import Mathlib.Tactic.IntervalCases

/-!
# Reading place records

`read_record` of `record.c`: a line of a table is cut at its tabs in place, and the fields
of a record become pointers into the line, or numbers that are read off it.
-/
namespace CompSys.PlaceRecord

open CString

universe u

variable {D : Type u}

/-- A `const char*` of a record: a place in its line, or somewhere else, where there may be
some text. -/
inductive Pointer where
  | line (start : ℕ)
  | elsewhere (text : Option (List UInt8))

def Pointer.read (line : List UInt8) : Pointer → Option (List UInt8)
  | .line start => some (cString (line.drop start))
  | .elsewhere text => text.map cString

/-- `D` are the values of a `double`. -/
structure Record (D : Type u) where
  name : Pointer
  alternativeNames : Pointer
  osmType : Pointer
  osmId : Int64
  class_ : Pointer
  type : Pointer
  lon : D
  lat : D
  placeRank : Int32
  importance : D
  street : Pointer
  city : Pointer
  county : Pointer
  state : Pointer
  country : Pointer
  countryCode : Pointer
  displayName : Pointer
  west : D
  south : D
  east : D
  north : D
  wikidata : Pointer
  wikipedia : Pointer
  housenumbers : Pointer
  line : List UInt8

/-- The conversions of the standard library. -/
structure Conversions (D : Type u) where
  atol : List UInt8 → Int64
  atoi : List UInt8 → Int32
  atof : List UInt8 → D

/-- `r->line = line` with a new line. What pointed into the old one still does. -/
def Record.setLine (r : Record D) (line : List UInt8) : Record D :=
  let kept (p : Pointer) : Pointer := .elsewhere (p.read r.line)
  { r with
    name := kept r.name
    alternativeNames := kept r.alternativeNames
    osmType := kept r.osmType
    class_ := kept r.class_
    type := kept r.type
    street := kept r.street
    city := kept r.city
    county := kept r.county
    state := kept r.state
    country := kept r.country
    countryCode := kept r.countryCode
    displayName := kept r.displayName
    wikidata := kept r.wikidata
    wikipedia := kept r.wikipedia
    housenumbers := kept r.housenumbers
    line := line }

/-- What is stored when a tab is found: the place where the text starts, or a number. -/
inductive Step (D : Type u) where
  | text (store : Pointer → Record D → Record D)
  | atol (store : Int64 → Record D → Record D)
  | atoi (store : Int32 → Record D → Record D)
  | atof (store : D → Record D → Record D)

/-- The conversions see the text before it is cut. -/
def Step.assign (c : Conversions D) (start : ℕ) (r : Record D) : Step D → Record D
  | .text store => store (.line start) r
  | .atol store => store (c.atol (cString (r.line.drop start))) r
  | .atoi store => store (c.atoi (cString (r.line.drop start))) r
  | .atof store => store (c.atof (cString (r.line.drop start))) r

structure Cursor (D : Type u) where
  start : ℕ
  record : Record D

/-- `strstr(start, "\t")`. -/
def strstrTab (memory : List UInt8) (start : ℕ) : Option ℕ :=
  ((cString (memory.drop start)).idxOf? 9).map (start + ·)

/-- `if ((end = strstr(start, "\t"))) { ...; *end = 0; start = end+1; }` -/
def scanColumn (c : Conversions D) (s : Cursor D) (step : Step D) : Cursor D :=
  match strstrTab s.record.line s.start with
  | some tab =>
    let r := step.assign c s.start s.record
    ⟨tab + 1, { r with line := r.line.set tab 0 }⟩
  | none => s

def steps : List (Step D) := [
  .text fun p r => { r with name := p },
  .text fun p r => { r with alternativeNames := p },
  .text fun p r => { r with osmType := p },
  .atol fun x r => { r with osmId := x },
  .text fun p r => { r with class_ := p },
  .text fun p r => { r with type := p },
  .atof fun x r => { r with lon := x },
  .atof fun x r => { r with lat := x },
  .atoi fun x r => { r with placeRank := x },
  .atof fun x r => { r with importance := x },
  .text fun p r => { r with street := p },
  .text fun p r => { r with city := p },
  .text fun p r => { r with county := p },
  .text fun p r => { r with state := p },
  .text fun p r => { r with country := p },
  .text fun p r => { r with countryCode := p },
  .text fun p r => { r with displayName := p },
  .atof fun x r => { r with west := x },
  .atof fun x r => { r with west := x },
  .atof fun x r => { r with east := x },
  .atof fun x r => { r with north := x },
  .text fun p r => { r with wikidata := p },
  .text fun p r => { r with wikipedia := p },
  .text fun p r => { r with housenumbers := p }]

/-- The next line of a file with its newline, if there is one, and what comes after it. -/
def getline (f : List UInt8) : Option (List UInt8 × List UInt8) :=
  if f = [] then none
  else some (f.takeWhile (· ≠ 10) ++ (f.dropWhile (· ≠ 10)).take 1, (f.dropWhile (· ≠ 10)).drop 1)

def readRecord (c : Conversions D) (r : Record D) (f : List UInt8) : ℤ × Record D × List UInt8 :=
  match getline f with
  | none => (-1, r, f)
  | some (line, rest) =>
    (0, (steps.foldl (scanColumn c) ⟨0, r.setLine (line ++ [0])⟩).record, rest)

/-! ## The fields as a list -/

/-- The types of the fields, in the order of the columns. -/
inductive Kind where
  | text | long | int | double
  deriving DecidableEq

inductive Cell (D : Type u) where
  | pointer (p : Pointer)
  | long (x : Int64)
  | int (x : Int32)
  | double (x : D)

inductive Value (D : Type u) where
  | text (bytes : Option (List UInt8))
  | long (x : Int64)
  | int (x : Int32)
  | double (x : D)
  deriving DecidableEq

def Cell.read (line : List UInt8) : Cell D → Value D
  | .pointer p => .text (p.read line)
  | .long x => .long x
  | .int x => .int x
  | .double x => .double x

def Record.cells (r : Record D) : List (Cell D) := [
  .pointer r.name, .pointer r.alternativeNames, .pointer r.osmType, .long r.osmId,
  .pointer r.class_, .pointer r.type, .double r.lon, .double r.lat, .int r.placeRank,
  .double r.importance, .pointer r.street, .pointer r.city, .pointer r.county,
  .pointer r.state, .pointer r.country, .pointer r.countryCode, .pointer r.displayName,
  .double r.west, .double r.south, .double r.east, .double r.north, .pointer r.wikidata,
  .pointer r.wikipedia, .pointer r.housenumbers]

/-- What one sees in the fields of a record. -/
def Record.values (r : Record D) : List (Value D) := r.cells.map (Cell.read r.line)

def kinds : List Kind := [
  .text, .text, .text, .long, .text, .text, .double, .double, .int, .double, .text, .text,
  .text, .text, .text, .text, .text, .double, .double, .double, .double, .text, .text, .text]

/-- What a column stands for. -/
def Kind.value (c : Conversions D) (text : List UInt8) : Kind → Value D
  | .text => .text (some text)
  | .long => .long (c.atol text)
  | .int => .int (c.atoi text)
  | .double => .double (c.atof text)

def Kind.cell (c : Conversions D) (start : ℕ) (text : List UInt8) : Kind → Cell D
  | .text => .pointer (.line start)
  | .long => .long (c.atol text)
  | .int => .int (c.atoi text)
  | .double => .double (c.atof text)

/-- The field in which a step stores: the 19th column goes where the 18th has gone. -/
def target (j : ℕ) : ℕ := if j = 18 then 17 else j

/-- A step stores one cell and leaves the line and the other fields alone. -/
theorem assign_cells (c : Conversions D) (start : ℕ) (r : Record D) {j : ℕ} {step : Step D}
    {kind : Kind} (hstep : steps[j]? = some step) (hkind : kinds[j]? = some kind) :
    (step.assign c start r).cells =
      r.cells.set (target j) (kind.cell c start (cString (r.line.drop start))) ∧
      (step.assign c start r).line = r.line := by
  have hj : j < 24 := (List.getElem?_eq_some_iff.mp hkind).1
  interval_cases j <;> cases hstep <;> cases hkind <;> exact ⟨rfl, rfl⟩

theorem read_elsewhere (line line' : List UInt8) (p : Pointer) :
    (Pointer.elsewhere (p.read line)).read line' = p.read line := by
  cases p with
  | line start => simp [Pointer.read]
  | elsewhere text => cases text <;> simp [Pointer.read]

/-- A new line changes nothing that one sees in the other fields. -/
theorem setLine_values (r : Record D) (line line' : List UInt8) :
    (r.setLine line).cells.map (Cell.read line') = r.values := by
  simp [Record.values, Record.cells, Record.setLine, Cell.read, read_elsewhere]

/-! ## A row and its cuts -/

/-- The columns with tabs between them. -/
def row (columns : List (List UInt8)) : List UInt8 := List.intercalate [9] columns

/-- The first columns, each with the NUL that it has been cut off by. -/
def cut (columns : List (List UInt8)) (j : ℕ) : List UInt8 := (columns.take j).flatMap (· ++ [0])

/-- What a conversion sees of a column that has not been cut off yet: it is followed by the
rest of the line. -/
def seen (columns : List (List UInt8)) (j : ℕ) : List UInt8 :=
  cString (row (columns.drop j) ++ [10, 0])

/-- The number of columns, without the last one, before the first that holds a NUL. -/
def reach : List (List UInt8) → ℕ
  | column :: next :: rest => if 0 ∈ column then 0 else reach (next :: rest) + 1
  | _ => 0

section Row

variable {columns : List (List UInt8)} {column : List UInt8} {j : ℕ}

theorem drop_column (h : columns[j]? = some column) :
    columns.drop j = column :: columns.drop (j + 1) := by
  obtain ⟨hj, rfl⟩ := List.getElem?_eq_some_iff.mp h
  exact List.drop_eq_getElem_cons hj

theorem row_drop (h : columns[j]? = some column) (hmore : j + 1 < columns.length) :
    row (columns.drop j) = column ++ 9 :: row (columns.drop (j + 1)) := by
  have hnext : columns.drop (j + 1) = columns[j + 1] :: columns.drop (j + 1 + 1) :=
    List.drop_eq_getElem_cons hmore
  rw [drop_column h, hnext, row, List.intercalate_cons_cons]
  simp [row]

theorem row_last (h : columns[j]? = some column) (hlast : j + 1 = columns.length) :
    row (columns.drop j) = column := by
  have hnil : columns.drop (j + 1) = [] := List.drop_eq_nil_of_le hlast.ge
  rw [drop_column h, hnil, row]
  simp

theorem mem_row {b : UInt8} (h : b ∈ row columns) : b = 9 ∨ ∃ column ∈ columns, b ∈ column := by
  induction columns with
  | nil => cases h
  | cons column rest ih =>
    cases rest with
    | nil => exact .inr ⟨column, List.mem_cons_self, by simpa [row] using h⟩
    | cons next rest =>
      rw [row, List.intercalate_cons_cons, List.append_assoc, List.mem_append, List.mem_append,
        List.mem_singleton] at h
      obtain h | h | h := h
      · exact .inr ⟨column, List.mem_cons_self, h⟩
      · exact .inl h
      · exact (ih h).imp_right fun ⟨other, hother, hb⟩ =>
          ⟨other, List.mem_cons_of_mem column hother, hb⟩

theorem cut_succ (h : columns[j]? = some column) : cut columns (j + 1) = cut columns j ++ column ++ [0] := by
  unfold cut
  rw [List.take_add_one, h]
  simp

/-- A column that has been cut off stands behind those before it. -/
theorem cut_column {k : ℕ} (h : columns[j]? = some column) (hk : j < k) :
    ∃ more, cut columns k = cut columns j ++ (column ++ 0 :: more) := by
  obtain ⟨d, rfl⟩ := Nat.exists_eq_add_of_lt hk
  refine ⟨((columns.drop (j + 1)).take d).flatMap (· ++ [0]), ?_⟩
  have hsplit : columns.take (j + d + 1) =
      columns.take j ++ column :: (columns.drop (j + 1)).take d := by
    rw [Nat.add_assoc, List.take_add, drop_column h, List.take_succ_cons]
  rw [cut, hsplit]
  simp [cut]

theorem reach_lt (h : columns ≠ []) : reach columns < columns.length := by
  induction columns using reach.induct with
  | case1 column next rest hnul => simp [reach, hnul]
  | case2 column next rest hnul ih =>
    have hrest := ih (by simp)
    rw [reach, if_neg hnul, List.length_cons]
    omega
  | case3 columns hshort =>
    rw [reach]
    · exact List.length_pos_of_ne_nil h
    · exact hshort

/-- The columns that are reached hold no NUL. -/
theorem column_reached (h : columns[j]? = some column) (hj : j < reach columns) : 0 ∉ column := by
  induction columns using reach.induct generalizing j with
  | case1 first next rest hnul => simp [reach, hnul] at hj
  | case2 first next rest hnul ih =>
    rw [reach, if_neg hnul] at hj
    cases j with
    | zero =>
      cases h
      exact hnul
    | succ j => exact ih h (by omega)
  | case3 columns hshort =>
    rw [reach] at hj
    · omega
    · exact hshort

/-- The first column that is not reached holds one, or it is the last. -/
theorem column_stops (h : columns[reach columns]? = some column) :
    0 ∈ column ∨ reach columns + 1 = columns.length := by
  induction columns using reach.induct with
  | case1 first next rest hnul =>
    rw [reach, if_pos hnul] at h
    cases h
    exact .inl hnul
  | case2 first next rest hnul ih =>
    rw [reach, if_neg hnul] at h ⊢
    exact (ih h).imp_right (congrArg (· + 1))
  | case3 columns hshort =>
    match columns, hshort with
    | [], _ => cases h
    | [last], _ => exact .inr rfl
    | first :: next :: rest, hshort => exact absurd rfl (hshort first next rest)

end Row

/-! ## The scan -/

section Scan

variable {c : Conversions D} {cells : List (Cell D)} {columns : List (List UInt8)} {j : ℕ}
  {s : Cursor D}

theorem idxOf_tab {text rest : List UInt8} (h : 9 ∉ text) :
    (text ++ 9 :: rest).idxOf? 9 = some text.length := by
  induction text with
  | nil => rfl
  | cons b text ih =>
    have hb : b ≠ 9 := fun hb => h (hb ▸ List.mem_cons_self)
    rw [List.cons_append, List.idxOf?_cons, if_neg (by simpa using hb),
      ih (fun hmem => h (List.mem_cons_of_mem b hmem))]
    rfl

/-- The fields after the first steps, on columns that these steps have reached. -/
def stored (c : Conversions D) (columns : List (List UInt8)) (cells : List (Cell D)) :
    ℕ → List (Cell D)
  | 0 => cells
  | j + 1 =>
    match kinds[j]? with
    | some kind => (stored c columns cells j).set (target j)
        (kind.cell c (cut columns j).length (seen columns j))
    | none => stored c columns cells j

/-- Before the column `j` is looked for. -/
structure At (c : Conversions D) (columns : List (List UInt8)) (cells : List (Cell D)) (j : ℕ)
    (s : Cursor D) : Prop where
  start : s.start = (cut columns j).length
  line : s.record.line = cut columns j ++ (row (columns.drop j) ++ [10, 0])
  cells : s.record.cells = stored c columns cells j

theorem At.sees (h : At c columns cells j s) : cString (s.record.line.drop s.start) = seen columns j := by
  rw [h.start, h.line, List.drop_left, seen]

/-- A column without NUL that is followed by another one is cut off. -/
theorem scan_next (h : At c columns cells j s) {step : Step D} {column : List UInt8}
    (hstep : steps[j]? = some step) (hcol : columns[j]? = some column) (htab : 9 ∉ column)
    (hnul : 0 ∉ column) (hmore : j + 1 < columns.length) :
    At c columns cells (j + 1) (scanColumn c s step) := by
  have hrow : row (columns.drop j) = column ++ 9 :: row (columns.drop (j + 1)) :=
    row_drop hcol hmore
  have hfind : strstrTab s.record.line s.start = some (s.start + column.length) := by
    have htext : seen columns j =
        column ++ 9 :: cString (row (columns.drop (j + 1)) ++ [10, 0]) := by
      rw [seen, hrow, List.append_assoc, cString_append hnul]
      rfl
    rw [strstrTab, h.sees, htext, idxOf_tab htab, Option.map_some]
  have hline : s.record.line = (cut columns j ++ column) ++
      9 :: (row (columns.drop (j + 1)) ++ [10, 0]) := by
    rw [h.line, hrow]
    simp
  have hplace : s.start + column.length = (cut columns j ++ column).length := by
    rw [h.start, List.length_append]
  have hkinds : j < kinds.length := (List.getElem?_eq_some_iff.mp hstep).1
  obtain ⟨kind, hkind⟩ : ∃ kind, kinds[j]? = some kind := ⟨_, List.getElem?_eq_getElem hkinds⟩
  obtain ⟨hcells, hkept⟩ := assign_cells c s.start s.record hstep hkind
  unfold scanColumn
  rw [hfind]
  refine ⟨?_, ?_, ?_⟩
  · show s.start + column.length + 1 = _
    rw [hplace, cut_succ hcol]
    simp [Nat.add_assoc]
  · show (step.assign c s.start s.record).line.set (s.start + column.length) 0 = _
    rw [hkept, hplace, hline, List.set_append_right _ _ le_rfl, Nat.sub_self, List.set_cons_zero,
      cut_succ hcol]
    simp
  · show (step.assign c s.start s.record).cells = _
    rw [hcells, h.sees, h.start, h.cells, stored, hkind]

/-- A column that holds a NUL, or is the last one, is not found, and neither is any after it. -/
theorem scan_stops (h : At c columns cells j s) {column : List UInt8}
    (hcol : columns[j]? = some column) (htab : 9 ∉ column)
    (hstop : 0 ∈ column ∨ j + 1 = columns.length) (step : Step D) : scanColumn c s step = s := by
  have hseen : 9 ∉ seen columns j := by
    obtain hnul | hlast := hstop
    · have hcut : ∃ more, row (columns.drop j) ++ [10, 0] = column ++ more := by
        by_cases hmore : j + 1 < columns.length
        · exact ⟨_, by rw [row_drop hcol hmore, List.append_assoc]⟩
        · have hlast : j + 1 = columns.length := by
            have hj := (List.getElem?_eq_some_iff.mp hcol).1
            omega
          exact ⟨_, by rw [row_last hcol hlast]⟩
      obtain ⟨more, hmore⟩ := hcut
      obtain ⟨front, back, rfl⟩ := List.append_of_mem hnul
      intro hmem
      have hfront : 9 ∈ front := by
        rw [seen, hmore, List.append_assoc, List.cons_append, cString_front] at hmem
        exact mem_of_mem_cString hmem
      exact htab (List.mem_append_left _ hfront)
    · rw [seen, row_last hcol hlast]
      intro hmem
      have hline : 9 ∈ column ++ [10, 0] := mem_of_mem_cString hmem
      simp [htab] at hline
  have hnone : strstrTab s.record.line s.start = none := by
    rw [strstrTab, h.sees, List.idxOf?_eq_none_iff.mpr hseen, Option.map_none]
  unfold scanColumn
  rw [hnone]

/-- The steps go on up to the first column that they do not reach. -/
theorem scan_run (h24 : columns.length = 24) (htab : ∀ column ∈ columns, 9 ∉ column) (d : ℕ)
    (hd : j + d = reach columns) (h : At c columns cells j s) :
    At c columns cells (reach columns) ((steps.drop j).foldl (scanColumn c) s) := by
  have hreach : reach columns < columns.length := by
    apply reach_lt
    rintro rfl
    cases h24
  have hj : j < columns.length := by omega
  have hcol : columns[j]? = some columns[j] := List.getElem?_eq_getElem hj
  have hplain : 9 ∉ columns[j] := htab _ (List.getElem_mem hj)
  induction d generalizing j s with
  | zero =>
    obtain rfl : j = reach columns := hd
    rw [List.foldl_fixed' (scan_stops h hcol hplain (column_stops hcol))]
    exact h
  | succ d ih =>
    have hlen : steps.length = 24 := (rfl : (steps (D := D)).length = 24)
    have hstep : j < (steps (D := D)).length := by omega
    rw [List.drop_eq_getElem_cons hstep, List.foldl_cons]
    have hnext : j + 1 < columns.length := by omega
    refine ih (by omega) ?_ hnext (List.getElem?_eq_getElem hnext)
      (htab _ (List.getElem_mem hnext))
    exact scan_next h (List.getElem?_eq_getElem hstep) hcol hplain
      (column_reached hcol (by omega)) hnext

end Scan

/-! ## What the fields hold -/

section Fields

variable {c : Conversions D} {cells : List (Cell D)} {columns : List (List UInt8)} {i k : ℕ}

/-- The last of the first `k` steps to store in the field `i`. -/
def lastStep (k i : ℕ) : Option ℕ :=
  if i = 18 ∨ k ≤ i then none else if i = 17 ∧ 18 < k then some 18 else some i

theorem lastStep_succ (k i : ℕ) :
    lastStep (k + 1) i = if target k = i then some k else lastStep k i := by
  unfold lastStep target
  grind

theorem lastStep_lt {j : ℕ} (h : lastStep k i = some j) : j < k := by
  unfold lastStep at h
  grind

/-- A step stores in a field of the type of its column. -/
theorem lastStep_kind {j : ℕ} (h : lastStep k i = some j) : kinds[j]? = kinds[i]? := by
  unfold lastStep at h
  split at h
  · cases h
  · split at h <;> cases h
    · rename_i hwest
      rw [hwest.1]
      rfl
    · rfl

theorem lastStep_text {j : ℕ} (h : lastStep k i = some j) (htext : kinds[i]? = some .text) :
    j = i := by
  unfold lastStep at h
  split at h
  · cases h
  · split at h <;> cases h
    · rename_i hwest
      rw [hwest.1] at htext
      cases htext
    · rfl

theorem stored_length (hcells : cells.length = 24) (k : ℕ) :
    (stored c columns cells k).length = 24 := by
  induction k with
  | zero => exact hcells
  | succ k ih =>
    unfold stored
    split
    · rw [List.length_set, ih]
    · exact ih

theorem stored_get (hcells : cells.length = 24) (hk : k ≤ 24) {kind : Kind}
    (hkind : kinds[i]? = some kind) :
    (stored c columns cells k)[i]? =
      match lastStep k i with
      | some j => some (kind.cell c (cut columns j).length (seen columns j))
      | none => cells[i]? := by
  induction k with
  | zero => rw [stored, lastStep, if_pos (.inr (Nat.zero_le i))]
  | succ k ih =>
    have hkinds : kinds.length = 24 := rfl
    have hi : i < 24 := (List.getElem?_eq_some_iff.mp hkind).1
    have hlen : (stored c columns cells k).length = 24 := stored_length hcells k
    have hstep : k < kinds.length := by omega
    rw [stored, List.getElem?_eq_getElem hstep, lastStep_succ]
    dsimp only
    by_cases htarget : target k = i
    · have hsame : kinds[k] = kind := by
        have hlast : lastStep (k + 1) i = some k := by rw [lastStep_succ, if_pos htarget]
        have hget := lastStep_kind hlast
        rw [List.getElem?_eq_getElem hstep, hkind] at hget
        exact Option.some.inj hget
      rw [if_pos htarget, htarget, List.getElem?_set_self (by omega), hsame]
    · rw [if_neg htarget, List.getElem?_set_ne htarget, ih (by omega)]


/-- What one sees in the fields when the scan has come to its end. -/
theorem value_stored {s : Cursor D} (h : At c columns cells (reach columns) s)
    (hcells : cells.length = 24) (h24 : columns.length = 24) {kind : Kind}
    (hkind : kinds[i]? = some kind) {column : List UInt8} (hcol : columns[i]? = some column) :
    s.record.values[i]? =
      match lastStep (reach columns) i with
      | some j => some (if kind = .text then .text (some column) else kind.value c (seen columns j))
      | none => cells[i]?.map (Cell.read s.record.line) := by
  have hreach : reach columns < columns.length := by
    apply reach_lt
    rintro rfl
    cases h24
  rw [Record.values, List.getElem?_map, h.cells, stored_get hcells (by omega) hkind]
  cases hlast : lastStep (reach columns) i with
  | none => rfl
  | some j =>
    dsimp only
    rw [Option.map_some]
    cases kind with
    | text =>
      obtain rfl : j = i := lastStep_text hlast hkind
      have hj := lastStep_lt hlast
      obtain ⟨more, hmore⟩ := cut_column hcol hj
      have hline : s.record.line = cut columns j ++
          (column ++ 0 :: (more ++ (row (columns.drop (reach columns)) ++ [10, 0]))) := by
        rw [h.line, hmore]
        simp
      rw [if_pos rfl, Kind.cell, Cell.read, Pointer.read, hline, List.drop_left,
        cString_plain (column_reached hcol hj)]
    | long => rfl
    | int => rfl
    | double => rfl

end Fields

/-! ## Every field from its own column -/

/-- What `getline` finds when the table goes on with a row. -/
theorem getline_row {columns : List (List UInt8)} (rest : List UInt8)
    (hplain : ∀ column ∈ columns, 10 ∉ column) :
    getline (row columns ++ 10 :: rest) = some (row columns ++ [10], rest) := by
  have hall : ∀ b ∈ row columns, decide (b ≠ 10) = true := by
    intro b hb
    rw [decide_eq_true_eq]
    rintro rfl
    obtain h | ⟨column, hcol, h⟩ := mem_row hb
    · cases h
    · exact hplain column hcol h
  have hne : row columns ++ 10 :: rest ≠ [] := by simp
  rw [getline, if_neg hne, List.takeWhile_append_of_pos hall, List.dropWhile_append_of_pos hall]
  simp

/-- Each column can be taken from the place where the scan takes it: the last step to store in
the field sees the same number as the column alone is, and a field in which no step stores has
held the value before. -/
def EachOwn (c : Conversions D) (r : Record D) (columns : List (List UInt8)) : Prop :=
  ∀ (i : ℕ) (kind : Kind) (column : List UInt8), kinds[i]? = some kind → columns[i]? = some column →
    match lastStep (reach columns) i with
    | some j => kind ≠ .text → kind.value c (seen columns j) = kind.value c column
    | none => r.values[i]? = some (kind.value c column)

section Read

variable (c : Conversions D) (r : Record D) {columns : List (List UInt8)} (rest : List UInt8)

theorem readRecord_row (hplain : ∀ column ∈ columns, 10 ∉ column) :
    readRecord c r (row columns ++ 10 :: rest) =
      (0, (steps.foldl (scanColumn c) ⟨0, r.setLine (row columns ++ [10, 0])⟩).record, rest) := by
  rw [readRecord, getline_row rest hplain]
  simp

/-- One field, when the scan has come to its end. -/
theorem field_iff {s : Cursor D} {line : List UInt8}
    (h : At c columns (r.setLine line).cells (reach columns) s) (h24 : columns.length = 24) {i : ℕ}
    {kind : Kind} {column : List UInt8} (hkind : kinds[i]? = some kind)
    (hcol : columns[i]? = some column) :
    s.record.values[i]? = some (kind.value c column) ↔
      match lastStep (reach columns) i with
      | some j => kind ≠ .text → kind.value c (seen columns j) = kind.value c column
      | none => r.values[i]? = some (kind.value c column) := by
  have hkept : (r.setLine line).cells[i]?.map (Cell.read s.record.line) = r.values[i]? := by
    rw [← List.getElem?_map, setLine_values]
  rw [value_stored h rfl h24 hkind hcol, hkept]
  cases lastStep (reach columns) i with
  | none => exact Iff.rfl
  | some j =>
    dsimp only
    by_cases htext : kind = .text
    · subst htext
      simp [Kind.value]
    · rw [if_neg htext, Option.some_inj]
      exact ⟨fun heq _ => heq, fun heq => heq htext⟩

theorem values_iff (h24 : columns.length = 24)
    (hplain : ∀ column ∈ columns, 9 ∉ column ∧ 10 ∉ column) :
    (readRecord c r (row columns ++ 10 :: rest)).2.1.values =
        List.zipWith (fun kind column => kind.value c column) kinds columns ↔
      EachOwn c r columns := by
  rw [readRecord_row c r rest fun column hcol => (hplain column hcol).2]
  have hstart : At c columns (r.setLine (row columns ++ [10, 0])).cells 0
      ⟨0, r.setLine (row columns ++ [10, 0])⟩ := ⟨rfl, rfl, rfl⟩
  have hend := scan_run h24 (fun column hcol => (hplain column hcol).1) (reach columns)
    (Nat.zero_add _) hstart
  rw [List.drop_zero] at hend
  constructor
  · intro heq i kind column hkind hcol
    rw [← field_iff c r hend h24 hkind hcol, heq, List.getElem?_zipWith, hkind, hcol]
  · intro hown
    apply List.ext_getElem?
    intro i
    by_cases hi : i < 24
    · have hkinds : i < kinds.length := hi
      have hkind : kinds[i]? = some kinds[i] := List.getElem?_eq_getElem hkinds
      have hcol : columns[i]? = some columns[i] := List.getElem?_eq_getElem (by omega)
      rw [(field_iff c r hend h24 hkind hcol).mpr (hown i _ _ hkind hcol), List.getElem?_zipWith,
        hkind, hcol]
    · have hlen : (List.zipWith (fun (kind : Kind) column => kind.value c column) kinds
          columns).length = 24 := by
        rw [List.length_zipWith, h24]
        rfl
      rw [List.getElem?_eq_none (Nat.le_of_not_lt hi), List.getElem?_eq_none (by omega)]

end Read

/-- A row is read field by field exactly when each column can be taken from where the scan takes
it. South is never stored in, and neither are the last column and those that follow a NUL. -/
theorem read_record_iff (c : Conversions D) (r : Record D) (columns : List (List UInt8))
    (rest : List UInt8) (h24 : columns.length = 24)
    (hplain : ∀ column ∈ columns, 9 ∉ column ∧ 10 ∉ column) :
    (readRecord c r (row columns ++ 10 :: rest)).1 = 0 ∧
      ((readRecord c r (row columns ++ 10 :: rest)).2.1.values =
          List.zipWith (fun kind column => kind.value c column) kinds columns ↔
        EachOwn c r columns) := by
  constructor
  · rw [readRecord_row c r rest fun column hcol => (hplain column hcol).2]
  · exact values_iff c r rest h24 hplain

/-- The conversions on texts without signs, blanks and points. -/
def unsigned : Conversions ℤ where
  atol text := .ofNat (digits text)
  atoi text := .ofNat (digits text)
  atof text := digits text

/-- A record in which nothing has been stored. -/
def unset : Record ℤ where
  name := .elsewhere none
  alternativeNames := .elsewhere none
  osmType := .elsewhere none
  osmId := 0
  class_ := .elsewhere none
  type := .elsewhere none
  lon := 0
  lat := 0
  placeRank := 0
  importance := 0
  street := .elsewhere none
  city := .elsewhere none
  county := .elsewhere none
  state := .elsewhere none
  country := .elsewhere none
  countryCode := .elsewhere none
  displayName := .elsewhere none
  west := 0
  south := 0
  east := 0
  north := 0
  wikidata := .elsewhere none
  wikipedia := .elsewhere none
  housenumbers := .elsewhere none
  line := []

/-- West is 6, south is 7, and the house number is 1. -/
def place : List (List UInt8) :=
  [[65], [66], [110], [49], [67], [68], [50], [51], [52], [53], [69], [70], [71], [72], [73], [74],
    [75], [54], [55], [56], [57], [76], [77], [49]]

theorem read_record_place : (readRecord unsigned unset (row place ++ [10])).1 = 0 ∧
    ((readRecord unsigned unset (row place ++ [10])).2.1.values =
        List.zipWith (fun kind column => kind.value unsigned column) kinds place ↔
      EachOwn unsigned unset place) :=
  read_record_iff unsigned unset place [] rfl (by decide)

/-- South ends up in west, and the house number is lost. -/
theorem place_misread : ¬ ∀ (c : Conversions ℤ) (r : Record ℤ) (columns : List (List UInt8))
    (rest : List UInt8), columns.length = 24 → (∀ column ∈ columns, 9 ∉ column ∧ 10 ∉ column) →
    (readRecord c r (row columns ++ 10 :: rest)).1 = 0 ∧
      (readRecord c r (row columns ++ 10 :: rest)).2.1.values =
        List.zipWith (fun kind column => kind.value c column) kinds columns := by
  intro hall
  have hread := (hall unsigned unset place [] rfl (by decide)).2
  have hown : EachOwn unsigned unset place := (values_iff unsigned unset [] rfl (by decide)).mp hread
  have hsouth := hown 18 .double [55] rfl rfl
  rw [lastStep, if_pos (.inl rfl)] at hsouth
  revert hsouth
  decide

end CompSys.PlaceRecord
