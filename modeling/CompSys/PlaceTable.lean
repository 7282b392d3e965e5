import CompSys.Fauxgrep
import CompSys.IdQuery

/-!
# Tables of places

`read_records` of `record.c` reads a table into an array that grows, and the programs for queries
by identifier answer every line of their input from it. What the array holds before a record is
read into it is anything.
-/
namespace CompSys.PlaceTable

open CString PlaceRecord
open IdQuery (OutOfBounds readAt scanFrom)

variable {D : Type}

/-! ## Reading the table -/

/-- The line that `input_looks_ok` compares with. -/
def header : List UInt8 := PythonText.encode
  ("name\talternative_names\tosm_type\tosm_id\tclass\ttype\tlon\tlat\tplace_rank\t" ++
    "importance\tstreet\tcity\tcounty\tstate\tcountry\tcountry_code\tdisplay_name\t" ++
    "west\tsouth\teast\tnorth\twikidata\twikipedia\thousenumbers\n")

def inputLooksOk (f : List UInt8) : ℤ × List UInt8 :=
  match getline f with
  | none => (-1, f)
  | some (line, rest) => (if cString (line ++ [0]) = header then 1 else 0, rest)

theorem readRecord_rest {c : Conversions D} {r : Record D} {f : List UInt8}
    (h : (readRecord c r f).1 = 0) : (readRecord c r f).2.2.length < f.length := by
  unfold readRecord at h ⊢
  split
  case h_1 hnone =>
    rw [hnone] at h
    cases h
  case h_2 line rest hline => exact Fauxgrep.length_getline hline

/-- `while (read_record(&rs[i], f) == 0)`: the array and the number of records. A record outside of
the array and a capacity that is no `int` are undefined. -/
def readLoop (c : Conversions D) (memory : ℕ → Record D) (capacity : ℕ) (rs : List (Record D))
    (i : ℕ) (f : List UInt8) : Option (List (Record D) × ℕ) :=
  match rs[i]? with
  | none => none
  | some r =>
    if h : (readRecord c r f).1 = 0 then
      have := readRecord_rest h
      let rs := rs.set i (readRecord c r f).2.1
      let i := i + 1
      if i = capacity then
        if 2 * capacity < 2 ^ 31 then
          readLoop c memory (2 * capacity) (rs ++ (List.range' capacity capacity).map memory) i
            (readRecord c r f).2.2
        else none
      else readLoop c memory capacity rs i (readRecord c r f).2.2
    else some (rs, i)
termination_by f.length

/-- The array and `*n`; the inner `none` is a null pointer. -/
def readRecords (c : Conversions D) (memory : ℕ → Record D) (file : Option (List UInt8)) :
    Option (Option (List (Record D) × ℕ)) :=
  match file with
  | none => some none
  | some f =>
    let (ok, f) := inputLooksOk f
    if ok = 0 then some none
    else
      let capacity := 100
      (readLoop c memory capacity ((List.range capacity).map memory) 0 f).map some

/-! ## Queries -/

/-- An index that is made from the records, and the search in it. -/
abbrev Search (D : Type) :=
  List (Record D) → ℕ → Int64 → Except OutOfBounds (Option (Record D))

/-- `id_query_naive.c` -/
def naive : Search D := fun rs n needle => scanFrom rs n Record.osmId needle 0

def indexRecord (rs : List (Record D)) (i : ℕ) : Except OutOfBounds (Int64 × Record D) := do
  let r ← readAt rs i
  return (r.osmId, r)

def mkIndexed (rs : List (Record D)) (n : ℕ) : Except OutOfBounds (List (Int64 × Record D)) :=
  (List.range n).mapM (indexRecord rs)

/-- `id_query_indexed.c` -/
def indexed : Search D := fun rs n needle => do
  let irs ← mkIndexed rs n
  let found ← scanFrom irs n Prod.fst needle 0
  return found.map Prod.snd

/-- `printf("%ld: %s %f %f\n", ...)` or `printf("%ld: not found\n", ...)`, with what `%f` prints. A
name that points nowhere is undefined. -/
def answerText (float : D → List UInt8) (needle : Int64) :
    Option (Record D) → Option (List UInt8)
  | some r => do
    let name ← r.name.read r.line
    return Fauxgrep.decimal needle.toInt ++ 58 :: 32 :: name ++ 32 :: float r.lon ++
      32 :: float r.lat ++ [10]
  | none =>
    some (Fauxgrep.decimal needle.toInt ++ PythonText.encode ": not found\n")

/-- `while (getline(&line, &line_len, stdin) != -1)`: the answers. -/
def queryLoop (c : Conversions D) (float : D → List UInt8)
    (lookup : Int64 → Except OutOfBounds (Option (Record D))) (stdin : List UInt8) :
    Option (List (List UInt8)) :=
  match h : getline stdin with
  | none => some []
  | some (line, rest) =>
    have := Fauxgrep.length_getline h
    do
      let needle := c.atol (cString (line ++ [0]))
      let found ← (lookup needle).toOption
      let answer ← answerText float needle found
      let answers ← queryLoop c float lookup rest
      return answer :: answers
termination_by stdin.length

/-- The status and the answers of `id_query_loop` with a file. -/
def idQueryLoop (c : Conversions D) (memory : ℕ → Record D) (float : D → List UInt8)
    (search : Search D) (file : Option (List UInt8)) (stdin : List UInt8) :
    Option (ℤ × List (List UInt8)) := do
  match ← readRecords c memory file with
  | some (rs, n) =>
    let answers ← queryLoop c float (search rs n) stdin
    return (0, answers)
  | none => return (1, [])

/-! ## What the table says -/

/-- A row of the table. -/
structure IsRow (columns : List (List UInt8)) : Prop where
  length : columns.length = 24
  plain : ∀ column ∈ columns, 9 ∉ column ∧ 10 ∉ column ∧ 0 ∉ column

def table (rows : List (List (List UInt8))) : List UInt8 :=
  header ++ rows.flatMap fun columns => row columns ++ [10]

/-- The identifier of a row, whose conversion sees the rest of the row too. -/
def idOf (c : Conversions D) (columns : List (List UInt8)) : Int64 := c.atol (seen columns 3)

/-- The answer to a query. -/
def tableAnswer (c : Conversions D) (float : D → List UInt8) (rows : List (List (List UInt8)))
    (needle : Int64) : List UInt8 :=
  match rows.find? fun columns => idOf c columns = needle with
  | some columns =>
    Fauxgrep.decimal needle.toInt ++ 58 :: 32 :: columns.getD 0 [] ++
      32 :: float (c.atof (seen columns 6)) ++ 32 :: float (c.atof (seen columns 7)) ++ [10]
  | none => Fauxgrep.decimal needle.toInt ++ PythonText.encode ": not found\n"

/-! ## One record -/

section Records

variable {c : Conversions D} {columns : List (List UInt8)}

/-- What the queries look at in a record stands in its row. -/
structure ReadFrom (c : Conversions D) (columns : List (List UInt8)) (r : Record D) : Prop where
  name : r.name.read r.line = some (columns.getD 0 [])
  osmId : r.osmId = idOf c columns
  lon : r.lon = c.atof (seen columns 6)
  lat : r.lat = c.atof (seen columns 7)

theorem reach_plain (columns : List (List UInt8)) (h : ∀ column ∈ columns, 0 ∉ column) :
    reach columns = columns.length - 1 := by
  induction columns with
  | nil => rfl
  | cons column rest ih =>
    have hrest := ih fun other hother => h other (List.mem_cons_of_mem _ hother)
    cases rest with
    | nil => rfl
    | cons next rest =>
      rw [reach, if_neg (h column List.mem_cons_self), hrest]
      simp

/-- Whatever the cell has held before. -/
theorem readRecord_readFrom (c : Conversions D) (h : IsRow columns) (r : Record D)
    (rest : List UInt8) :
    (readRecord c r (row columns ++ 10 :: rest)).1 = 0 ∧
      ReadFrom c columns (readRecord c r (row columns ++ 10 :: rest)).2.1 ∧
      (readRecord c r (row columns ++ 10 :: rest)).2.2 = rest := by
  rw [readRecord_row c r rest fun column hcol => (h.plain column hcol).2.1]
  refine ⟨rfl, ?_, rfl⟩
  have hreach : reach columns = 23 := by
    rw [reach_plain columns fun column hcol => (h.plain column hcol).2.2, h.length]
  have hstart : At c columns (r.setLine (row columns ++ [10, 0])).cells 0
      ⟨0, r.setLine (row columns ++ [10, 0])⟩ := ⟨rfl, rfl, rfl⟩
  have hend := scan_run h.length (fun column hcol => (h.plain column hcol).1) (reach columns)
    (Nat.zero_add _) hstart
  rw [List.drop_zero] at hend
  have hcolumn : ∀ i < 24, columns[i]? = some (columns.getD i []) := by
    intro i hi
    have hlt : i < columns.length := h.length ▸ hi
    rw [List.getElem?_eq_getElem hlt, List.getD_eq_getElem?_getD, List.getElem?_eq_getElem hlt,
      Option.getD_some]
  have hvalue : ∀ i < 17, ∀ kind, kinds[i]? = some kind →
      (steps.foldl (scanColumn c) ⟨0, r.setLine (row columns ++ [10, 0])⟩).record.values[i]? =
        some (if kind = .text then .text (some (columns.getD i []))
          else kind.value c (seen columns i)) := by
    intro i hi kind hkind
    have hlast : lastStep 23 i = some i := by
      rw [lastStep, if_neg (by omega), if_neg (by omega)]
    have hstored := value_stored hend rfl h.length hkind (hcolumn i (by omega))
    rw [hreach, hlast] at hstored
    exact hstored
  generalize (steps.foldl (scanColumn c) ⟨0, r.setLine (row columns ++ [10, 0])⟩).record = r'
    at hvalue
  have hname := hvalue 0 (by decide) .text rfl
  have hid := hvalue 3 (by decide) .long rfl
  have hlon := hvalue 6 (by decide) .double rfl
  have hlat := hvalue 7 (by decide) .double rfl
  rw [if_pos rfl] at hname
  rw [if_neg (by decide)] at hid hlon hlat
  constructor
  · exact Value.text.inj (Option.some.inj hname)
  · exact Value.long.inj (Option.some.inj hid)
  · exact Value.double.inj (Option.some.inj hlon)
  · exact Value.double.inj (Option.some.inj hlat)

end Records

/-! ## The array -/

section Reading

/-- The capacities that the array goes through. -/
def Grown (capacity : ℕ) : Prop := ∃ k, capacity = 100 * 2 ^ k

theorem Grown.pos {capacity : ℕ} (h : Grown capacity) : 0 < capacity := by
  obtain ⟨k, rfl⟩ := h
  positivity

/-- A capacity is an `int` as long as fewer records have been read than the bound. -/
theorem Grown.double {capacity : ℕ} (h : Grown capacity) (hlt : capacity < 100 * 2 ^ 24) :
    Grown (2 * capacity) ∧ 2 * capacity < 2 ^ 31 := by
  obtain ⟨k, rfl⟩ := h
  have hk : k < 24 := (Nat.pow_lt_pow_iff_right (by decide)).mp (by omega : 2 ^ k < 2 ^ 24)
  have hpow : 2 ^ k ≤ 2 ^ 23 := Nat.pow_le_pow_right (by decide) (by omega)
  exact ⟨⟨k + 1, by omega⟩, by omega⟩

theorem Grown.double_of_int {capacity : ℕ} (h : Grown capacity) (hint : 2 * capacity < 2 ^ 31) :
    Grown (2 * capacity) ∧ 2 * capacity ≤ 100 * 2 ^ 24 := by
  obtain ⟨k, rfl⟩ := h
  have hk : k < 24 := (Nat.pow_lt_pow_iff_right (by decide)).mp (by omega : 2 ^ k < 2 ^ 24)
  have hpow : 2 ^ k ≤ 2 ^ 23 := Nat.pow_le_pow_right (by decide) (by omega)
  exact ⟨⟨k + 1, by omega⟩, by omega⟩

/-- The loop reads every row into a record of its own inside the array. -/
theorem readLoop_rows (c : Conversions D) (memory : ℕ → Record D)
    {rows : List (List (List UInt8))} (hrows : ∀ columns ∈ rows, IsRow columns) :
    ∀ (capacity i : ℕ) (rs : List (Record D)), Grown capacity → rs.length = capacity →
      i < capacity → i + rows.length < 100 * 2 ^ 24 →
      ∃ rs', readLoop c memory capacity rs i (rows.flatMap fun columns => row columns ++ [10]) =
          some (rs', i + rows.length) ∧
        i + rows.length ≤ rs'.length ∧ (∀ j < i, rs'[j]? = rs[j]?) ∧
        List.Forall₂ (ReadFrom c) rows ((rs'.take (i + rows.length)).drop i) := by
  induction rows with
  | nil =>
    intro capacity i rs _ hlength hi _
    have hcell : rs[i]? = some rs[i] := List.getElem?_eq_getElem (hlength ▸ hi)
    rw [List.length_nil, Nat.add_zero]
    refine ⟨rs, ?_, by omega, fun _ _ => rfl, ?_⟩
    · rw [List.flatMap_nil, readLoop, hcell]
      rfl
    · rw [List.drop_eq_nil_of_le (by simp)]
      exact .nil
  | cons columns rows ih =>
    intro capacity i rs hgrown hlength hi hbound
    rw [List.length_cons] at hbound
    have hcell : rs[i]? = some rs[i] := List.getElem?_eq_getElem (hlength ▸ hi)
    obtain ⟨hzero, hfrom, hrest⟩ := readRecord_readFrom c (hrows columns List.mem_cons_self) rs[i]
      (rows.flatMap fun columns => row columns ++ [10])
    have hfile : (columns :: rows).flatMap (fun columns => row columns ++ [10]) =
        row columns ++ 10 :: rows.flatMap fun columns => row columns ++ [10] := by
      simp
    rw [hfile, readLoop, hcell]
    dsimp only
    rw [dif_pos hzero, hrest]
    generalize (readRecord c rs[i] (row columns ++
      10 :: rows.flatMap fun columns => row columns ++ [10])).2.1 = r at hfrom
    have hmore := ih fun other hother => hrows other (List.mem_cons_of_mem _ hother)
    -- the rest of the rows, once there is an array with room for them
    have hnext : ∀ (capacity : ℕ) (rs' : List (Record D)), Grown capacity → rs'.length = capacity →
        i + 1 < capacity → (∀ j < i + 1, rs'[j]? = (rs.set i r)[j]?) →
        ∃ rs'', readLoop c memory capacity rs' (i + 1)
            (rows.flatMap fun columns => row columns ++ [10]) =
            some (rs'', i + (rows.length + 1)) ∧
          i + (rows.length + 1) ≤ rs''.length ∧ (∀ j < i, rs''[j]? = rs[j]?) ∧
          List.Forall₂ (ReadFrom c) (columns :: rows)
            ((rs''.take (i + (rows.length + 1))).drop i) := by
      intro capacity rs' hgrown hlength' hroom hsame
      obtain ⟨rs'', hloop, hlong, hkept, hread⟩ := hmore capacity (i + 1) rs' hgrown hlength' hroom
        (by omega)
      have hcount : i + 1 + rows.length = i + (rows.length + 1) := by omega
      rw [hcount] at hloop hlong hread
      refine ⟨rs'', hloop, hlong, ?_, ?_⟩
      · intro j hj
        rw [hkept j (by omega), hsame j (by omega), List.getElem?_set_ne (by omega)]
      · have hthis : rs''[i]? = some r := by
          rw [hkept i (by omega), hsame i (by omega), List.getElem?_set_self (hlength ▸ hi)]
        obtain ⟨hin, heq⟩ := List.getElem?_eq_some_iff.mp hthis
        have htake : i < (rs''.take (i + (rows.length + 1))).length := by
          rw [List.length_take]
          omega
        rw [List.drop_eq_getElem_cons htake, List.getElem_take, heq]
        exact .cons hfrom hread
    by_cases hfull : i + 1 = capacity
    case neg =>
      rw [if_neg hfull]
      exact hnext capacity (rs.set i r) hgrown (by rw [List.length_set, hlength]) (by omega)
        fun _ _ => rfl
    case pos =>
      obtain ⟨hdouble, hint⟩ := hgrown.double (by omega)
      rw [if_pos hfull, if_pos hint]
      refine hnext (2 * capacity) _ hdouble ?_ (by omega) ?_
      · simp [hlength]
        omega
      · intro j hj
        rw [List.getElem?_append_left (by rw [List.length_set]; omega)]

/-- One record too many, and the capacity is no `int`. -/
theorem readLoop_overflow (c : Conversions D) (memory : ℕ → Record D)
    {rows : List (List (List UInt8))} (hrows : ∀ columns ∈ rows, IsRow columns) :
    ∀ (capacity i : ℕ) (rs : List (Record D)), Grown capacity → rs.length = capacity →
      i < capacity → capacity ≤ 100 * 2 ^ 24 → 100 * 2 ^ 24 ≤ i + rows.length →
      readLoop c memory capacity rs i (rows.flatMap fun columns => row columns ++ [10]) = none := by
  induction rows with
  | nil =>
    intro capacity i rs _ _ hi hcapacity hmany
    rw [List.length_nil] at hmany
    omega
  | cons columns rows ih =>
    intro capacity i rs hgrown hlength hi hcapacity hmany
    rw [List.length_cons] at hmany
    have hcell : rs[i]? = some rs[i] := List.getElem?_eq_getElem (hlength ▸ hi)
    obtain ⟨hzero, -, hrest⟩ := readRecord_readFrom c (hrows columns List.mem_cons_self) rs[i]
      (rows.flatMap fun columns => row columns ++ [10])
    have hmore := ih fun other hother => hrows other (List.mem_cons_of_mem _ hother)
    rw [List.flatMap_cons, List.append_assoc, List.singleton_append, readLoop, hcell]
    dsimp only
    rw [dif_pos hzero, hrest]
    by_cases hfull : i + 1 = capacity
    case neg =>
      rw [if_neg hfull]
      exact hmore _ _ _ hgrown (by rw [List.length_set, hlength]) (by omega) hcapacity (by omega)
    case pos =>
      rw [if_pos hfull]
      by_cases hint : 2 * capacity < 2 ^ 31
      case neg => rw [if_neg hint]
      case pos =>
        rw [if_pos hint]
        obtain ⟨hdouble, hfits⟩ := hgrown.double_of_int hint
        refine hmore _ _ _ hdouble ?_ (by omega) hfits (by omega)
        simp [hlength]
        omega

/-- The heading ends with the only newline in it, and has no NUL. -/
theorem header_line : header = header.dropLast ++ [10] ∧ 10 ∉ header.dropLast ∧ 0 ∉ header := by
  decide +kernel

theorem inputLooksOk_table (rows : List (List (List UInt8))) :
    inputLooksOk (table rows) = (1, rows.flatMap fun columns => row columns ++ [10]) := by
  obtain ⟨hend, hplain, hnul⟩ := header_line
  obtain ⟨text, htext, hnewline⟩ : ∃ text, header = text ++ [10] ∧ 10 ∉ text := ⟨_, hend, hplain⟩
  have htable : table rows = text ++ 10 :: rows.flatMap fun columns => row columns ++ [10] := by
    rw [table, htext, List.append_assoc, List.singleton_append]
  rw [inputLooksOk, htable, Fauxgrep.getline_cons hnewline]
  dsimp only
  rw [← htext, cString_plain hnul, if_pos rfl]

/-- Any table with fewer records than the bound is read, whatever the array has held. -/
theorem readRecords_table (c : Conversions D) (memory : ℕ → Record D)
    {rows : List (List (List UInt8))} (hrows : ∀ columns ∈ rows, IsRow columns)
    (hcount : rows.length < 100 * 2 ^ 24) :
    ∃ rs, readRecords c memory (some (table rows)) = some (some (rs, rows.length)) ∧
      rows.length ≤ rs.length ∧ List.Forall₂ (ReadFrom c) rows (rs.take rows.length) := by
  obtain ⟨rs, hloop, hlong, -, hread⟩ := readLoop_rows c memory hrows 100 0
    ((List.range 100).map memory) ⟨0, rfl⟩ (by simp) (by decide) (by omega)
  rw [Nat.zero_add] at hloop hlong hread
  refine ⟨rs, ?_, hlong, hread⟩
  simp only [readRecords, inputLooksOk_table, hloop]
  rfl

theorem readRecords_overflow (c : Conversions D) (memory : ℕ → Record D)
    {rows : List (List (List UInt8))} (hrows : ∀ columns ∈ rows, IsRow columns)
    (hcount : 100 * 2 ^ 24 ≤ rows.length) : readRecords c memory (some (table rows)) = none := by
  have hloop := readLoop_overflow c memory hrows 100 0 ((List.range 100).map memory) ⟨0, rfl⟩
    (by simp) (by decide) (by decide) (by omega)
  simp only [readRecords, inputLooksOk_table, hloop]
  rfl

end Reading

/-! ## The answers -/

section Answers

variable {c : Conversions D} {rs : List (Record D)} {n : ℕ}

/-- A scan of the first `n` elements. -/
theorem scanFrom_take {α : Type} (xs : List α) {n : ℕ} (hn : n ≤ xs.length) (osmId : α → Int64)
    (needle : Int64) (i : ℕ) :
    scanFrom xs n osmId needle i =
      .ok (((xs.take n).drop i).find? fun x => osmId x = needle) := by
  have htake : (xs.take n).length = n := by rw [List.length_take, Nat.min_eq_left hn]
  induction hd : n - i generalizing i with
  | zero =>
    have hge : n ≤ i := by omega
    rw [scanFrom, if_neg hge.not_gt, List.drop_eq_nil_of_le (by omega), List.find?_nil]
  | succ d ih =>
    have hlt : i < n := by omega
    have hin : i < (xs.take n).length := by omega
    have hrest := ih (i + 1) (by omega)
    rw [scanFrom, if_pos hlt, IdQuery.readAt_lt (by omega : i < xs.length),
      List.drop_eq_getElem_cons hin, List.find?_cons, List.getElem_take]
    by_cases hid : osmId xs[i] = needle
    · simp only [hid, if_true, decide_true]
    · simp only [hid, if_false, decide_false, hrest]

theorem naive_eq (hn : n ≤ rs.length) (needle : Int64) :
    naive rs n needle = .ok ((rs.take n).find? fun r => r.osmId = needle) :=
  scanFrom_take rs hn Record.osmId needle 0

/-- Every record gets an entry in the index. -/
theorem mkIndexed_eq (hn : n ≤ rs.length) :
    mkIndexed rs n = .ok ((rs.take n).map fun r => (r.osmId, r)) := by
  induction n with
  | zero => rfl
  | succ n ih =>
    have hlt : n < rs.length := by omega
    have hone : [n].mapM (indexRecord rs) = .ok [(rs[n].osmId, rs[n])] := by
      rw [List.mapM_cons, indexRecord, IdQuery.readAt_lt hlt]
      rfl
    have hbefore : (List.range n).mapM (indexRecord rs) = _ := ih (by omega)
    rw [mkIndexed, List.range_succ, List.mapM_append, hbefore, hone, List.take_add_one,
      List.getElem?_eq_getElem hlt, List.map_append]
    rfl

theorem indexed_eq (hn : n ≤ rs.length) (needle : Int64) :
    indexed rs n needle = .ok ((rs.take n).find? fun r => r.osmId = needle) := by
  have htake : (rs.take n).length = n := by rw [List.length_take, Nat.min_eq_left hn]
  have hscan := scanFrom_take ((rs.take n).map fun r => (r.osmId, r))
    (by rw [List.length_map, htake] : n ≤ _) Prod.fst needle 0
  have hall : ((rs.take n).map fun r => (r.osmId, r)).take n =
      (rs.take n).map fun r => (r.osmId, r) :=
    List.take_of_length_le (by rw [List.length_map, htake])
  rw [hall, List.drop_zero, List.find?_map] at hscan
  rw [indexed, mkIndexed_eq hn]
  change (scanFrom _ n Prod.fst needle 0).map _ = _
  rw [hscan, Except.map, Option.map_map]
  congr 1
  exact congrFun Option.map_id _

/-- The first record with the identifier gives the answer of the first row with it. -/
theorem answerText_find (float : D → List UInt8) (needle : Int64) {rows : List (List (List UInt8))}
    (h : List.Forall₂ (ReadFrom c) rows rs) :
    answerText float needle (rs.find? fun r => r.osmId = needle) =
      some (tableAnswer c float rows needle) := by
  induction h with
  | nil => rfl
  | @cons columns r rows rs hfrom _ ih =>
    unfold tableAnswer at ih ⊢
    rw [List.find?_cons, List.find?_cons, hfrom.osmId]
    by_cases hid : idOf c columns = needle
    · simp only [hid, decide_true, answerText, hfrom.name, hfrom.lon, hfrom.lat]
      rfl
    · simp only [hid, decide_false]
      exact ih

theorem queryLoop_lines {float : D → List UInt8}
    {lookup : Int64 → Except OutOfBounds (Option (Record D))} {answer : Int64 → List UInt8}
    (hanswer : ∀ needle, ∃ found, lookup needle = .ok found ∧
      answerText float needle found = some (answer needle)) {stdin : List UInt8}
    {lines : List (List UInt8)} (h : Fauxgrep.Lines stdin lines) :
    queryLoop c float lookup stdin =
      some (lines.map fun line => answer (c.atol (cString (line ++ [0])))) := by
  refine h.getline_induction ?_ ?_
  · rw [queryLoop]
    rfl
  · intro stdin line rest lines hline ih
    rw [queryLoop]
    split
    case h_1 hnone => rw [hline] at hnone; cases hnone
    case h_2 line' rest' hsome =>
      cases hline.symm.trans hsome
      obtain ⟨found, hfound, htext⟩ := hanswer (c.atol (cString (line ++ [0])))
      simp only [hfound, Except.toOption, Option.bind_eq_bind, Option.bind_some, htext, ih]
      rfl

/-- A program for queries answers each line of its input from the first row with the identifier, be
it naive or with an index. It is defined exactly if the number of rows is below the bound. -/
theorem id_queries_print (c : Conversions D) (memory : ℕ → Record D) (float : D → List UInt8)
    {rows : List (List (List UInt8))} (hrows : ∀ columns ∈ rows, IsRow columns)
    {stdin : List UInt8} {lines : List (List UInt8)} (hlines : Fauxgrep.Lines stdin lines)
    {search : Search D} (hsearch : search = naive ∨ search = indexed) :
    idQueryLoop c memory float search (some (table rows)) stdin =
      if rows.length < 100 * 2 ^ 24 then
        some (0, lines.map fun line => tableAnswer c float rows (c.atol (cString (line ++ [0]))))
      else none := by
  split_ifs with hcount
  case neg =>
    rw [idQueryLoop, readRecords_overflow c memory hrows (by omega)]
    rfl
  case pos =>
    obtain ⟨rs, hrs, hlong, hread⟩ := readRecords_table c memory hrows hcount
    have hfind : ∀ needle, search rs rows.length needle =
        .ok ((rs.take rows.length).find? fun r => r.osmId = needle) := by
      rcases hsearch with rfl | rfl
      · exact naive_eq hlong
      · exact indexed_eq hlong
    have hloop := queryLoop_lines (c := c)
      (fun needle => ⟨_, hfind needle, answerText_find float needle hread⟩) hlines
    rw [idQueryLoop, hrs]
    simp only [Option.bind_eq_bind, Option.bind_some, hloop]
    rfl

theorem lines_queries : Fauxgrep.Lines [53, 10, 49, 10, 57] [[53, 10], [49, 10], [57]] :=
  .cons (by decide : (10 : UInt8) ∉ [53]) (.cons (by decide : (10 : UInt8) ∉ [49])
    (.last (by decide) (by decide)))

/-- The place with another name and identifier. -/
def placeAs (name id : UInt8) : List (List UInt8) := (place.set 0 [name]).set 3 [id]

/-- Queries for a place behind the first, for two places with one identifier and for none. -/
theorem id_queries_print_places :
    idQueryLoop unsigned (fun _ => unset) Fauxgrep.decimal indexed
        (some (table [place, placeAs 78 53, placeAs 79 49])) [53, 10, 49, 10, 57] =
      some (0, [PythonText.encode "5: N 2 3\n", PythonText.encode "1: A 2 3\n",
        PythonText.encode "9: not found\n"]) := by
  have hrows : ∀ columns ∈ [place, placeAs 78 53, placeAs 79 49], IsRow columns := by
    intro columns hcolumns
    simp only [List.mem_cons, List.not_mem_nil, or_false] at hcolumns
    rcases hcolumns with rfl | rfl | rfl
    · exact ⟨rfl, by decide⟩
    · exact ⟨rfl, by decide⟩
    · exact ⟨rfl, by decide⟩
  refine (id_queries_print unsigned _ _ hrows lines_queries (.inr rfl)).trans ?_
  decide +kernel

end Answers

end CompSys.PlaceTable
