import Mathlib.Data.Fintype.Basic
import Mathlib.Data.List.FinRange
import Mathlib.Algebra.Order.BigOperators.Group.List
import Mathlib.Algebra.Order.Ring.Nat
import CompSys.Probing

/-!
# The table of assembler texts

`assembly.c`: a hash table from addresses to texts with linear probing over four
slots. A call that finds none of the four free grows the table, and grows it again
until all entries have found a place in the new one. Addresses are not negative and
sizes are not bounded.
-/
namespace CompSys.AssemblyTable

open Probing

/-- A slot as `calloc` leaves it is not valid and has no text. -/
structure Entry where
  valid : Bool
  addr : ℕ
  text : Option String
  deriving DecidableEq, Repr

def Entry.zero : Entry := ⟨false, 0, none⟩

structure Assembly where
  tableSize : ℕ
  positive : 0 < tableSize
  lookupTable : Fin tableSize → Entry

/-- `addr % table_size`. -/
def home (size : ℕ) (positive : 0 < size) (addr : ℕ) : Fin size :=
  ⟨addr % size, Nat.mod_lt addr positive⟩

/-- `++idx`, back to zero at the end of the table. -/
def advance {size : ℕ} (idx : Fin size) : Fin size :=
  if h : idx.val + 1 = size then ⟨0, idx.pos⟩ else ⟨idx.val + 1, by omega⟩

/-- The loop over `offset`, with as many turns to go as given. -/
def probe {size : ℕ} (accept : Fin size → Bool) : ℕ → Fin size → Option (Fin size)
  | 0, _ => none
  | turns + 1, idx => if accept idx then some idx else probe accept turns (advance idx)

def assemblyFindEntry (as : Assembly) (addr : ℕ) : Option (Fin as.tableSize) :=
  probe (fun idx => (as.lookupTable idx).valid && (as.lookupTable idx).addr == addr) 4
    (home as.tableSize as.positive addr)

def assemblyFindEmpty (as : Assembly) (addr : ℕ) : Option (Fin as.tableSize) :=
  probe (fun idx => !(as.lookupTable idx).valid) 4 (home as.tableSize as.positive addr)

def Assembly.write (as : Assembly) (idx : Fin as.tableSize) (e : Entry) : Assembly :=
  { as with lookupTable := Function.update as.lookupTable idx e }

/-- A new table of `size` slots. -/
def calloc (size : ℕ) (positive : 0 < size) : Assembly :=
  ⟨size, positive, fun _ => Entry.zero⟩

/-- The `for` loop over the old table. A collision ends it. -/
def reinsert : List Entry → Assembly → Option Assembly
  | [], as => some as
  | e :: rest, as =>
    if e.valid then
      match assemblyFindEmpty as e.addr with
      | none => none
      | some newIdx => reinsert rest (as.write newIdx e)
    else reinsert rest as

/-- The `do` loop: the next size is tried after a collision. -/
def growLoop (oldTable : List Entry) : ℕ → (newSize : ℕ) → 0 < newSize → Option Assembly
  | 0, _, _ => none
  | fuel + 1, newSize, positive =>
    match reinsert oldTable (calloc newSize positive) with
    | some as => some as
    | none => growLoop oldTable fuel (1 + newSize * 2) (by omega)

def assemblyGrowAndRehash (fuel : ℕ) (as : Assembly) : Option Assembly :=
  growLoop (List.ofFn as.lookupTable) fuel (1 + 2 * as.tableSize) (by omega)

/-- The `while` loop of `assembly_set`. -/
def findRoom (fuel : ℕ) : ℕ → Assembly → ℕ → Option ((as : Assembly) × Fin as.tableSize)
  | 0, _, _ => none
  | turns + 1, as, addr =>
    match assemblyFindEmpty as addr with
    | some idx => some ⟨as, idx⟩
    | none => (assemblyGrowAndRehash fuel as).bind fun grown => findRoom fuel turns grown addr

/-- Each of the two loops has `fuel` turns. -/
def assemblySet (fuel : ℕ) (as : Assembly) (addr : ℕ) (text : String) : Option Assembly :=
  match assemblyFindEntry as addr with
  | some idx => some (as.write idx ⟨true, addr, some text⟩)
  | none => (findRoom fuel fuel as addr).map fun room =>
      room.1.write room.2 ⟨true, addr, some text⟩

def assemblyGet (as : Assembly) (addr : ℕ) : Option String :=
  match assemblyFindEntry as addr with
  | none => some ""
  | some idx => (as.lookupTable idx).text

def assemblyCreate : Assembly := calloc 4 (by omega)

/-- `assembly_set` called for each address and text in turn. -/
def runSets (fuel : ℕ) (calls : List (ℕ × String)) : Option Assembly :=
  calls.foldlM (fun as call => assemblySet fuel as call.1 call.2) assemblyCreate

section View

/-- What a slot holds, as an entry of a table that is searched by probes. -/
def Entry.stored (e : Entry) : Option (ℕ × Option String) :=
  if e.valid then some (e.addr, e.text) else none

def view (as : Assembly) : Slots (Fin as.tableSize) ℕ (Option String) :=
  fun idx => (as.lookupTable idx).stored

/-- The slots that a loop with `turns` turns visits. -/
def window {size : ℕ} : ℕ → Fin size → List (Fin size)
  | 0, _ => []
  | turns + 1, idx => idx :: window turns (advance idx)

def probes (size : ℕ) (positive : 0 < size) (addr : ℕ) : List (Fin size) :=
  window 4 (home size positive addr)

theorem advance_val {size : ℕ} (idx : Fin size) :
    (advance idx).val = (idx.val + 1) % size := by
  have hidx := idx.isLt
  unfold advance
  split
  case isTrue h => simp [h]
  case isFalse h =>
    have hlt : idx.val + 1 < size := by omega
    exact (Nat.mod_eq_of_lt hlt).symm

/-- A slot of the window is fewer than `turns` steps from its start. -/
theorem mem_window {size : ℕ} {turns : ℕ} {idx j : Fin size} (h : j ∈ window turns idx) :
    ∃ offset < turns, j.val = (idx.val + offset) % size := by
  induction turns generalizing idx with
  | zero => cases h
  | succ turns ih =>
    rcases List.mem_cons.mp h with heq | hrest
    · exact ⟨0, Nat.succ_pos turns, by rw [heq, Nat.add_zero, Nat.mod_eq_of_lt idx.isLt]⟩
    · obtain ⟨offset, hoffset, hj⟩ := ih hrest
      refine ⟨offset + 1, Nat.succ_lt_succ hoffset, ?_⟩
      rw [hj, advance_val, Nat.mod_add_mod, Nat.add_assoc, Nat.add_comm 1 offset]

/-- Every slot that is fewer steps away is in the window. -/
theorem window_mem {size : ℕ} {turns offset : ℕ} {idx j : Fin size} (hoffset : offset < turns)
    (hj : j.val = (idx.val + offset) % size) : j ∈ window turns idx := by
  induction turns generalizing idx offset with
  | zero => cases hoffset
  | succ turns ih =>
    cases offset with
    | zero =>
      rw [Nat.add_zero, Nat.mod_eq_of_lt idx.isLt] at hj
      exact List.mem_cons.mpr (.inl (Fin.ext hj))
    | succ offset =>
      have hnext : j.val = ((advance idx).val + offset) % size := by
        rw [hj, advance_val, Nat.mod_add_mod, Nat.add_assoc, Nat.add_comm 1 offset]
      exact List.mem_cons_of_mem idx (ih (Nat.lt_of_succ_lt_succ hoffset) hnext)

theorem probe_eq {size : ℕ} (accept : Fin size → Bool) (turns : ℕ) (idx : Fin size) :
    probe accept turns idx = (window turns idx).find? accept := by
  induction turns generalizing idx with
  | zero => rfl
  | succ turns ih =>
    rw [probe, window, List.find?_cons, ih]
    cases accept idx <;> rfl

theorem findEntry_eq (as : Assembly) (addr : ℕ) :
    assemblyFindEntry as addr = findKey (probes as.tableSize as.positive) (view as) addr := by
  unfold assemblyFindEntry findKey
  rw [probe_eq]
  congr 1
  funext idx
  unfold holdsKey view Entry.stored
  cases (as.lookupTable idx).valid with
  | false => rfl
  | true => exact beq_eq_decide (as.lookupTable idx).addr addr

theorem findEmpty_eq (as : Assembly) (addr : ℕ) :
    assemblyFindEmpty as addr = findFree (probes as.tableSize as.positive) (view as) addr := by
  unfold assemblyFindEmpty findFree
  rw [probe_eq]
  congr 1
  funext idx
  unfold view Entry.stored
  cases (as.lookupTable idx).valid <;> rfl

theorem view_write (as : Assembly) (idx : Fin as.tableSize) (e : Entry) :
    view (as.write idx e) = Function.update (view as) idx e.stored :=
  Function.comp_update Entry.stored as.lookupTable idx e

theorem head_probes (size : ℕ) (positive : 0 < size) (addr : ℕ) :
    (probes size positive addr).head? = some (home size positive addr) := rfl

end View

section Grow

/-- The loop over the old table inserts its valid entries, into a table whose size
stays. -/
theorem reinsert_view (entries : List Entry) (size : ℕ) (positive : 0 < size)
    (table : Fin size → Entry) :
    (reinsert entries ⟨size, positive, table⟩ = none ∧
      insertAll (probes size positive) (entries.filterMap Entry.stored)
        (view ⟨size, positive, table⟩) = none) ∨
    ∃ table', reinsert entries ⟨size, positive, table⟩ = some ⟨size, positive, table'⟩ ∧
      insertAll (probes size positive) (entries.filterMap Entry.stored)
        (view ⟨size, positive, table⟩) = some (view ⟨size, positive, table'⟩) := by
  induction entries generalizing table with
  | nil => exact .inr ⟨table, rfl, rfl⟩
  | cons e rest ih =>
    cases hvalid : e.valid with
    | false =>
      have hstored : e.stored = none := by simp [Entry.stored, hvalid]
      rw [List.filterMap_cons_none hstored]
      simp only [reinsert, hvalid, Bool.false_eq_true, if_false]
      exact ih table
    | true =>
      have hstored : e.stored = some (e.addr, e.text) := by simp [Entry.stored, hvalid]
      rw [List.filterMap_cons_some hstored]
      simp only [reinsert, hvalid, if_true, insertAll, findEmpty_eq]
      cases hfree : findFree (probes size positive) (view ⟨size, positive, table⟩) e.addr with
      | none => exact .inl ⟨rfl, rfl⟩
      | some newIdx =>
        have hview := view_write ⟨size, positive, table⟩ newIdx e
        rw [hstored] at hview
        have hrest := ih (Function.update table newIdx e)
        change view ⟨size, positive, Function.update table newIdx e⟩ = _ at hview
        rw [hview] at hrest
        exact hrest

def entries (as : Assembly) : List (ℕ × Option String) :=
  (List.ofFn as.lookupTable).filterMap Entry.stored

theorem mem_entries (as : Assembly) (addr : ℕ) (value : Option String) :
    (addr, value) ∈ entries as ↔ Stores (view as) addr value := by
  unfold entries Stores view
  rw [List.mem_filterMap]
  constructor
  · intro ⟨e, he, hstored⟩
    obtain ⟨idx, hidx⟩ := (List.mem_ofFn' as.lookupTable e).mp he
    exact ⟨idx, by rw [hidx]; exact hstored⟩
  · intro ⟨idx, hstored⟩
    exact ⟨as.lookupTable idx, (List.mem_ofFn' as.lookupTable _).mpr ⟨idx, rfl⟩, hstored⟩

def TableInv (as : Assembly) : Prop := Placed (probes as.tableSize as.positive) (view as)

/-- A table that stores each address once has a list of entries with different
addresses. -/
theorem entries_nodup {as : Assembly} (h : TableInv as) :
    ((entries as).map Prod.fst).Nodup := by
  unfold entries
  rw [List.Nodup, List.pairwise_map, List.pairwise_filterMap, List.pairwise_ofFn]
  intro i j hij ⟨addr, value⟩ hi ⟨addr', value'⟩ hj heq
  have haddr : addr = addr' := heq
  subst haddr
  have hsame : i = j := h.unique i j addr value value' hi hj
  exact absurd hsame (Fin.ne_of_lt hij)

/-- A finished loop built a table of some size that is at least the one it started
with, without a collision. -/
theorem growLoop_some {oldTable : List Entry} {fuel newSize : ℕ} {positive : 0 < newSize}
    {as : Assembly} (h : growLoop oldTable fuel newSize positive = some as) :
    ∃ size, ∃ hsize : 0 < size, newSize ≤ size ∧
      reinsert oldTable (calloc size hsize) = some as := by
  induction fuel generalizing newSize with
  | zero => cases h
  | succ fuel ih =>
    unfold growLoop at h
    split at h
    case h_1 as' hrun =>
      cases h
      exact ⟨newSize, positive, le_rfl, hrun⟩
    case h_2 =>
      obtain ⟨size, hsize, hle, hrun⟩ := ih h
      exact ⟨size, hsize, by omega, hrun⟩

/-- The loop ends when every large enough table has room for all entries. -/
theorem growLoop_total {oldTable : List Entry} {bound : ℕ}
    (hroom : ∀ size (hsize : 0 < size), bound ≤ size →
      ∃ as, reinsert oldTable (calloc size hsize) = some as)
    {fuel newSize : ℕ} (positive : 0 < newSize) (hfuel : bound - newSize < fuel) :
    ∃ as, growLoop oldTable fuel newSize positive = some as := by
  induction fuel generalizing newSize with
  | zero => cases hfuel
  | succ fuel ih =>
    unfold growLoop
    cases hrun : reinsert oldTable (calloc newSize positive) with
    | some as => exact ⟨as, rfl⟩
    | none =>
      have hlt : newSize < bound := by
        by_contra hge
        obtain ⟨as, hsome⟩ := hroom newSize positive (Nat.le_of_not_lt hge)
        rw [hrun] at hsome
        cases hsome
      have hpositive : 0 < 1 + newSize * 2 := by omega
      have hfuel' : bound - (1 + newSize * 2) < fuel := by omega
      exact ih hpositive hfuel'

/-- A grown table stores the same texts and is larger. -/
theorem grow_some {as grown : Assembly} (h : TableInv as) {fuel : ℕ}
    (hrun : assemblyGrowAndRehash fuel as = some grown) :
    TableInv grown ∧ as.tableSize < grown.tableSize ∧
      ∀ addr value, Stores (view grown) addr value ↔ Stores (view as) addr value := by
  obtain ⟨size, hsize, hle, hreinsert⟩ := growLoop_some hrun
  rcases reinsert_view (List.ofFn as.lookupTable) size hsize (fun _ => Entry.zero) with
    ⟨hnone, -⟩ | ⟨table, hsome, hinsert⟩
  · have hcontra := hreinsert.symm.trans hnone
    cases hcontra
  · have hgrown := hreinsert.symm.trans hsome
    cases hgrown
    have hempty : ∀ addr ∈ (entries as).map Prod.fst, Absent (view (calloc size hsize)) addr :=
      fun addr _ => empty_absent addr
    obtain ⟨hplaced, hstores⟩ := insertAll_some (entries as) (empty_placed (probes size hsize))
      (entries_nodup h) hempty hinsert
    have hlt : as.tableSize < size := by omega
    refine ⟨hplaced, hlt, fun addr value => ?_⟩
    rw [hstores addr value, mem_entries]
    constructor
    · rintro (hold | hnew)
      · exact absurd hold (empty_absent addr value)
      · exact hnew
    · exact Or.inr

def Below (as : Assembly) (bound : ℕ) : Prop :=
  ∀ addr value, Stores (view as) addr value → addr < bound

theorem home_injective {size : ℕ} (hsize : 0 < size) {addr addr' : ℕ} (h : addr < size)
    (h' : addr' < size) (heq : home size hsize addr = home size hsize addr') : addr = addr' := by
  have hval : addr % size = addr' % size := congrArg Fin.val heq
  rwa [Nat.mod_eq_of_lt h, Nat.mod_eq_of_lt h'] at hval

/-- A table that is larger than all addresses has room for all entries, each in the
first one of its slots. -/
theorem reinsert_home {as : Assembly} (h : TableInv as) {bound : ℕ} (hbelow : Below as bound)
    {size : ℕ} (hsize : 0 < size) (hle : bound ≤ size) :
    ∃ table, reinsert (List.ofFn as.lookupTable) (calloc size hsize) = some ⟨size, hsize, table⟩ ∧
      AtHome (home size hsize) (view ⟨size, hsize, table⟩) := by
  have hkeys : ∀ addr ∈ (entries as).map Prod.fst, addr ∈ List.range bound := by
    intro addr hmem
    obtain ⟨⟨addr', value⟩, hentry, heq⟩ := List.mem_map.mp hmem
    subst heq
    exact List.mem_range.mpr (hbelow addr' value ((mem_entries as addr' value).mp hentry))
  have hinj : ∀ addr ∈ List.range bound, ∀ addr' ∈ List.range bound,
      home size hsize addr = home size hsize addr' → addr = addr' := by
    intro addr haddr addr' haddr' heq
    have hlt := List.mem_range.mp haddr
    have hlt' := List.mem_range.mp haddr'
    exact home_injective hsize (by omega) (by omega) heq
  obtain ⟨slots, hinsert, hhome⟩ := insertAll_home (head_probes size hsize) (List.range bound)
    hinj (entries as) (empty_atHome (home size hsize)) hkeys
    (fun addr value hstored => absurd hstored (empty_absent addr value)) (entries_nodup h)
    (fun addr _ => empty_absent addr)
  rcases reinsert_view (List.ofFn as.lookupTable) size hsize (fun _ => Entry.zero) with
    ⟨-, hnone⟩ | ⟨table, hsome, hinsert'⟩
  · have hcontra := hinsert.symm.trans hnone
    cases hcontra
  · have hslots := hinsert.symm.trans hinsert'
    cases hslots
    exact ⟨table, hsome, hhome⟩

/-- Beyond all addresses growing leaves every entry in the first one of its slots. -/
theorem grow_home {as grown : Assembly} (h : TableInv as) {bound : ℕ} (hbelow : Below as bound)
    {fuel : ℕ} (hrun : assemblyGrowAndRehash fuel as = some grown)
    (hle : bound ≤ grown.tableSize) :
    AtHome (home grown.tableSize grown.positive) (view grown) := by
  obtain ⟨size, hsize, -, hreinsert⟩ := growLoop_some hrun
  rcases reinsert_view (List.ofFn as.lookupTable) size hsize (fun _ => Entry.zero) with
    ⟨hnone, -⟩ | ⟨table, hsome, -⟩
  · have hcontra := hreinsert.symm.trans hnone
    cases hcontra
  · have hgrown := hreinsert.symm.trans hsome
    cases hgrown
    obtain ⟨table', hsome', hhome⟩ := reinsert_home h hbelow hsize hle
    have hsame := hsome'.symm.trans hreinsert
    cases hsame
    exact hhome

/-- Growing ends, and beyond all addresses it leaves every entry in the first one of
its slots. -/
theorem grow_total {as : Assembly} (h : TableInv as) {bound : ℕ} (hbelow : Below as bound)
    {fuel : ℕ} (hfuel : bound < fuel) :
    ∃ grown, assemblyGrowAndRehash fuel as = some grown ∧
      (bound ≤ as.tableSize →
        AtHome (home grown.tableSize grown.positive) (view grown)) := by
  have hroom : ∀ size (hsize : 0 < size), bound ≤ size →
      ∃ grown, reinsert (List.ofFn as.lookupTable) (calloc size hsize) = some grown := by
    intro size hsize hle
    obtain ⟨table, hrun, -⟩ := reinsert_home h hbelow hsize hle
    exact ⟨_, hrun⟩
  have hpositive : 0 < 1 + 2 * as.tableSize := by omega
  have hfuel' : bound - (1 + 2 * as.tableSize) < fuel := by omega
  obtain ⟨grown, hrun⟩ := growLoop_total hroom hpositive hfuel'
  refine ⟨grown, hrun, fun hle => grow_home h hbelow hrun ?_⟩
  obtain ⟨-, hlt, -⟩ := grow_some h hrun
  omega

end Grow

section Set

/-- The slot that is found for a new address is free and among its probes, in a table
that stores what the given one stored. -/
theorem findRoom_some {fuel turns : ℕ} {as : Assembly} (h : TableInv as) {addr : ℕ}
    {room : (as : Assembly) × Fin as.tableSize} (hrun : findRoom fuel turns as addr = some room) :
    TableInv room.1 ∧ assemblyFindEmpty room.1 addr = some room.2 ∧
      ∀ addr' value, Stores (view room.1) addr' value ↔ Stores (view as) addr' value := by
  induction turns generalizing as with
  | zero => cases hrun
  | succ turns ih =>
    unfold findRoom at hrun
    split at hrun
    case h_1 idx hempty =>
      cases hrun
      exact ⟨h, hempty, fun _ _ => Iff.rfl⟩
    case h_2 =>
      obtain ⟨grown, hgrow, hrest⟩ := Option.bind_eq_some_iff.mp hrun
      obtain ⟨hinv, -, hstores⟩ := grow_some h hgrow
      obtain ⟨hinv', hempty, hstores'⟩ := ih hinv hrest
      exact ⟨hinv', hempty, fun addr' value => (hstores' addr' value).trans (hstores addr' value)⟩

theorem Below.of_stores {as as' : Assembly} {bound : ℕ} (h : Below as bound)
    (hstores : ∀ addr value, Stores (view as') addr value ↔ Stores (view as) addr value) :
    Below as' bound :=
  fun addr value hstored => h addr value ((hstores addr value).mp hstored)

/-- In a table that is larger than all addresses a new one has its first slot free. -/
theorem findEmpty_home {as : Assembly} {bound : ℕ} (hle : bound ≤ as.tableSize)
    (hhome : AtHome (home as.tableSize as.positive) (view as)) (hbelow : Below as bound)
    {addr : ℕ} (haddr : addr < bound) (habsent : Absent (view as) addr) :
    assemblyFindEmpty as addr = some (home as.tableSize as.positive addr) := by
  have hfree : view as (home as.tableSize as.positive addr) = none := by
    cases hslot : view as (home as.tableSize as.positive addr) with
    | none => rfl
    | some stored =>
      obtain ⟨addr', value⟩ := stored
      have hstored : Stores (view as) addr' value := ⟨_, hslot⟩
      have hsame := hhome _ addr' value hslot
      have hlt' := hbelow addr' value hstored
      have heq := home_injective as.positive (by omega) (by omega) hsame
      subst heq
      exact absurd hstored (habsent value)
  rw [findEmpty_eq]
  exact findFree_head (head_probes as.tableSize as.positive addr) hfree

/-- The loop ends for a new address: once the table is larger than all addresses, the
next one has the slot free. -/
theorem findRoom_total {fuel bound : ℕ} (hfuel : bound < fuel) {addr : ℕ} (haddr : addr < bound)
    {turns : ℕ} {as : Assembly} (h : TableInv as) (hbelow : Below as bound)
    (habsent : Absent (view as) addr) (hturns : bound - as.tableSize + 2 ≤ turns) :
    ∃ room, findRoom fuel turns as addr = some room := by
  induction turns generalizing as with
  | zero => omega
  | succ turns ih =>
    unfold findRoom
    cases hempty : assemblyFindEmpty as addr with
    | some idx => exact ⟨_, rfl⟩
    | none =>
      obtain ⟨grown, hgrow, hhome⟩ := grow_total h hbelow hfuel
      obtain ⟨hinv, hlt, hstores⟩ := grow_some h hgrow
      have hbelow' : Below grown bound := hbelow.of_stores hstores
      have habsent' : Absent (view grown) addr :=
        fun value hstored => habsent value ((hstores addr value).mp hstored)
      simp only [hgrow, Option.bind_some]
      by_cases hle : bound ≤ as.tableSize
      · -- every entry of the grown table is in its first slot, and no entry is `addr`
        have hfind := findEmpty_home (by omega) (hhome hle) hbelow' haddr habsent'
        have hpos : turns ≠ 0 := by omega
        obtain ⟨turns', rfl⟩ := Nat.exists_eq_succ_of_ne_zero hpos
        simp only [findRoom, hfind]
        exact ⟨_, rfl⟩
      · have hturns' : bound - grown.tableSize + 2 ≤ turns := by omega
        exact ih hinv hbelow' habsent' hturns'

/-- What a call leaves stored: the new text for its address, and the other texts. -/
theorem set_some {fuel : ℕ} {as as' : Assembly} (h : TableInv as) {addr : ℕ} {text : String}
    (hrun : assemblySet fuel as addr text = some as') :
    TableInv as' ∧ ∀ addr' value, Stores (view as') addr' value ↔
      if addr' = addr then value = some text else Stores (view as) addr' value := by
  unfold assemblySet at hrun
  split at hrun
  case h_1 idx hfind =>
    cases hrun
    rw [findEntry_eq] at hfind
    obtain ⟨old, hslot⟩ := findKey_some hfind
    have honly : ∀ j value', view as j = some (addr, value') → j = idx :=
      fun j value' hj => h.unique j idx addr value' old hj hslot
    have hown : ∀ addr' value', view as idx = some (addr', value') → addr' = addr := by
      intro addr' value' hj
      rw [hslot] at hj
      cases hj
      rfl
    have hview := view_write as idx ⟨true, addr, some text⟩
    refine ⟨?_, fun addr' value => ?_⟩
    · unfold TableInv
      rw [hview]
      exact h.write (h.within idx addr old hslot) honly
    · rw [hview]
      exact stores_write (some text) honly hown addr' value
  case h_2 hfind =>
    obtain ⟨room, hroom, hwrite⟩ := Option.map_eq_some_iff.mp hrun
    subst hwrite
    rw [findEntry_eq] at hfind
    have habsent : Absent (view as) addr := (findKey_none h).mp hfind
    obtain ⟨hinv, hempty, hstores⟩ := findRoom_some h hroom
    rw [findEmpty_eq] at hempty
    obtain ⟨hmem, hfree⟩ := findFree_some hempty
    have honly : ∀ j value', view room.1 j = some (addr, value') → j = room.2 := by
      intro j value' hj
      exact absurd ((hstores addr value').mp ⟨j, hj⟩) (habsent value')
    have hown : ∀ addr' value', view room.1 room.2 = some (addr', value') → addr' = addr := by
      intro addr' value' hj
      rw [hfree] at hj
      cases hj
    have hview := view_write room.1 room.2 ⟨true, addr, some text⟩
    refine ⟨?_, fun addr' value => ?_⟩
    · unfold TableInv
      rw [hview]
      exact hinv.write hmem honly
    · rw [hview]
      refine (stores_write (some text) honly hown addr' value).trans ?_
      rw [hstores addr' value]

theorem set_total {fuel bound : ℕ} (hfuel : bound + 2 ≤ fuel) {as : Assembly} (h : TableInv as)
    (hbelow : Below as bound) {addr : ℕ} (haddr : addr < bound) (text : String) :
    ∃ as', assemblySet fuel as addr text = some as' := by
  unfold assemblySet
  split
  case h_1 => exact ⟨_, rfl⟩
  case h_2 hfind =>
    rw [findEntry_eq] at hfind
    have habsent : Absent (view as) addr := (findKey_none h).mp hfind
    have hlt : bound < fuel := by omega
    have hturns : bound - as.tableSize + 2 ≤ fuel := by omega
    obtain ⟨room, hroom⟩ := findRoom_total hlt haddr h hbelow habsent hturns
    exact ⟨_, by rw [hroom]; rfl⟩

/-- `assembly_get` reads the map that the table represents. -/
theorem get_eq {as : Assembly} (h : TableInv as) {addr : ℕ} {value : Option String}
    (hstored : Stores (view as) addr value) : assemblyGet as addr = value := by
  obtain ⟨idx, hslot⟩ := hstored
  unfold assemblyGet
  rw [findEntry_eq, findKey_eq h hslot]
  unfold view Entry.stored at hslot
  split at hslot
  · cases hslot
    rfl
  · cases hslot

theorem get_absent {as : Assembly} (h : TableInv as) {addr : ℕ}
    (habsent : Absent (view as) addr) : assemblyGet as addr = some "" := by
  unfold assemblyGet
  rw [findEntry_eq, (findKey_none h).mpr habsent]

end Set

section Run

/-- The text of the last call for the address. -/
def lastCall (calls : List (ℕ × String)) (addr : ℕ) : Option String :=
  (calls.reverse.find? fun call => call.1 = addr).map Prod.snd

theorem lastCall_append (calls : List (ℕ × String)) (call : ℕ × String) (addr : ℕ) :
    lastCall (calls ++ [call]) addr =
      if addr = call.1 then some call.2 else lastCall calls addr := by
  unfold lastCall
  rw [List.reverse_append, List.reverse_singleton, List.singleton_append, List.find?_cons]
  by_cases h : addr = call.1
  · simp [h]
  · simp [h, Ne.symm h]

/-- The table stores the text of the last call for each address, and nothing else. -/
structure Represents (calls : List (ℕ × String)) (as : Assembly) : Prop where
  placed : TableInv as
  stores : ∀ addr value, Stores (view as) addr value ↔ (lastCall calls addr).map some = some value

theorem runSets_append (fuel : ℕ) (calls : List (ℕ × String)) (call : ℕ × String) :
    runSets fuel (calls ++ [call]) =
      (runSets fuel calls).bind fun as => assemblySet fuel as call.1 call.2 := by
  simp [runSets, List.foldlM_append]

/-- The invariant of every run. -/
theorem runSets_represents {fuel : ℕ} (calls : List (ℕ × String)) {as : Assembly}
    (hrun : runSets fuel calls = some as) : Represents calls as := by
  induction calls using List.reverseRecOn generalizing as with
  | nil =>
    cases hrun
    refine ⟨empty_placed _, fun addr value => ?_⟩
    constructor
    · intro hstored
      exact absurd hstored (empty_absent addr value)
    · intro hnone
      cases hnone
  | append_singleton calls call ih =>
    rw [runSets_append] at hrun
    obtain ⟨before, hbefore, hset⟩ := Option.bind_eq_some_iff.mp hrun
    have h := ih hbefore
    obtain ⟨hinv, hstores⟩ := set_some h.placed hset
    refine ⟨hinv, fun addr value => ?_⟩
    rw [hstores, lastCall_append, h.stores]
    split
    · simp [eq_comm]
    · rfl

theorem lastCall_mem {calls : List (ℕ × String)} {addr : ℕ} {text : String}
    (h : lastCall calls addr = some text) : (addr, text) ∈ calls := by
  obtain ⟨⟨addr', text'⟩, hfind, htext⟩ := Option.map_eq_some_iff.mp h
  obtain ⟨haddr, before, rest, hcalls, -⟩ := List.find?_eq_some_iff_append.mp hfind
  have hmem : (addr', text') ∈ calls.reverse :=
    hcalls ▸ List.mem_append_right before List.mem_cons_self
  have heq : addr' = addr := of_decide_eq_true haddr
  subst heq
  cases htext
  exact List.mem_reverse.mp hmem

/-- A table that represents calls for addresses below a bound stores no other ones. -/
theorem Represents.below {calls : List (ℕ × String)} {as : Assembly} (h : Represents calls as)
    {bound : ℕ} (hcalls : ∀ call ∈ calls, call.1 < bound) : Below as bound := by
  intro addr value hstored
  obtain ⟨text, hlast, -⟩ := Option.map_eq_some_iff.mp ((h.stores addr value).mp hstored)
  exact hcalls (addr, text) (lastCall_mem hlast)

/-- Every call returns. -/
theorem runSets_total {fuel bound : ℕ} (hfuel : bound + 2 ≤ fuel) (calls : List (ℕ × String))
    (hcalls : ∀ call ∈ calls, call.1 < bound) : ∃ as, runSets fuel calls = some as := by
  induction calls using List.reverseRecOn with
  | nil => exact ⟨assemblyCreate, rfl⟩
  | append_singleton calls call ih =>
    have hbefore : ∀ call' ∈ calls, call'.1 < bound :=
      fun call' hmem => hcalls call' (List.mem_append_left _ hmem)
    have hcall : call.1 < bound := hcalls call List.mem_concat_self
    obtain ⟨as, hrun⟩ := ih hbefore
    have h := runSets_represents calls hrun
    obtain ⟨as', hset⟩ := set_total hfuel h.placed (h.below hbefore) hcall call.2
    exact ⟨as', by rw [runSets_append, hrun]; exact hset⟩

/-- Each address has one valid slot at most, within four steps of its first one. -/
structure WellPlaced (as : Assembly) : Prop where
  once : ∀ i j, (as.lookupTable i).valid → (as.lookupTable j).valid →
    (as.lookupTable i).addr = (as.lookupTable j).addr → i = j
  near : ∀ i, (as.lookupTable i).valid →
    ∃ offset < 4, i.val = ((as.lookupTable i).addr % as.tableSize + offset) % as.tableSize

theorem TableInv.wellPlaced {as : Assembly} (h : TableInv as) : WellPlaced as := by
  have hview : ∀ i, (as.lookupTable i).valid →
      view as i = some ((as.lookupTable i).addr, (as.lookupTable i).text) := by
    intro i hvalid
    simp [view, Entry.stored, hvalid]
  constructor
  case once =>
    intro i j hi hj heq
    have hslot := hview i hi
    rw [heq] at hslot
    exact h.unique i j _ _ _ hslot (hview j hj)
  case near =>
    intro i hi
    exact mem_window (h.within i _ _ (hview i hi))

theorem WellPlaced.tableInv {as : Assembly} (h : WellPlaced as) : TableInv as := by
  have hslot : ∀ i addr value, view as i = some (addr, value) →
      (as.lookupTable i).valid ∧ (as.lookupTable i).addr = addr := by
    intro i addr value hi
    unfold view Entry.stored at hi
    split at hi
    case isTrue hvalid =>
      cases hi
      exact ⟨hvalid, rfl⟩
    case isFalse => cases hi
  constructor
  case within =>
    intro i addr value hi
    obtain ⟨hvalid, rfl⟩ := hslot i addr value hi
    obtain ⟨offset, hoffset, hval⟩ := h.near i hvalid
    exact window_mem hoffset hval
  case unique =>
    intro i j addr value value' hi hj
    obtain ⟨hi', hai⟩ := hslot i addr value hi
    obtain ⟨hj', haj⟩ := hslot j addr value' hj
    exact h.once i j hi' hj' (hai.trans haj.symm)

/-- A search finds the text of the last call. -/
theorem Represents.get {calls : List (ℕ × String)} {as : Assembly} (h : Represents calls as)
    (addr : ℕ) : assemblyGet as addr = some ((lastCall calls addr).getD "") := by
  cases hlast : lastCall calls addr with
  | none =>
    apply get_absent h.placed
    intro value hstored
    have hsome := (h.stores addr value).mp hstored
    rw [hlast] at hsome
    cases hsome
  | some text =>
    have hstored : Stores (view as) addr (some text) := by
      rw [h.stores, hlast]
      rfl
    exact get_eq h.placed hstored

/-- The table is a map from addresses to the texts last set for them. -/
theorem assembly_table_is_map (calls : List (ℕ × String)) :
    (∃ fuel as, runSets fuel calls = some as) ∧
      ∀ fuel as, runSets fuel calls = some as →
        WellPlaced as ∧ ∀ addr, assemblyGet as addr = some ((lastCall calls addr).getD "") := by
  constructor
  · have hcalls : ∀ call ∈ calls, call.1 < (calls.map Prod.fst).sum + 1 := by
      intro call hmem
      have hle : call.1 ≤ (calls.map Prod.fst).sum :=
        List.le_sum_of_mem (List.mem_map_of_mem hmem)
      omega
    exact ⟨_, runSets_total le_rfl calls hcalls⟩
  · intro fuel as hrun
    have h := runSets_represents calls hrun
    exact ⟨h.placed.wellPlaced, h.get⟩

/-- Two addresses that meet in a slot, one of them set again. -/
example : ((runSets 9 [(1, "a"), (5, "b"), (1, "c")]).bind fun as => assemblyGet as 1) =
    some "c" := by decide

end Run

section Termination

/-- A table has finitely many slots. -/
theorem exists_below (as : Assembly) (addr : ℕ) : ∃ bound, Below as bound ∧ addr < bound := by
  refine ⟨((entries as).map Prod.fst).sum + addr + 1, ?_, by omega⟩
  intro addr' value hstored
  have hmem : addr' ∈ (entries as).map Prod.fst :=
    List.mem_map_of_mem ((mem_entries as addr' value).mpr hstored)
  have hle := List.le_sum_of_mem hmem
  omega

/-- However the addresses collide, both loops end: they return with any fuel above a bound. -/
theorem growth_terminates {as : Assembly} (h : WellPlaced as) {addr : ℕ}
    (hnew : ∀ i, (as.lookupTable i).valid → (as.lookupTable i).addr ≠ addr) :
    ∃ bound, ∀ fuel, bound ≤ fuel →
      (∃ grown, assemblyGrowAndRehash fuel as = some grown) ∧
      (∃ room, findRoom fuel fuel as addr = some room) ∧
      ∀ text, ∃ as', assemblySet fuel as addr text = some as' := by
  obtain ⟨bound, hbelow, haddr⟩ := exists_below as addr
  have hinv := h.tableInv
  have habsent : Absent (view as) addr := by
    intro value ⟨i, hi⟩
    unfold view Entry.stored at hi
    split at hi
    case isTrue hvalid =>
      cases hi
      exact hnew i hvalid rfl
    case isFalse => cases hi
  refine ⟨bound + 2, fun fuel hfuel => ?_⟩
  have hlt : bound < fuel := by omega
  have hturns : bound - as.tableSize + 2 ≤ fuel := by omega
  obtain ⟨grown, hgrow, -⟩ := grow_total hinv hbelow hlt
  exact ⟨⟨grown, hgrow⟩, findRoom_total hlt haddr hinv hbelow habsent hturns,
    set_total hfuel hinv hbelow haddr⟩

/-- Five addresses that are 0 in a table of 4, of 9 and of 19 slots. -/
def crowded : Assembly :=
  ⟨4, by decide, fun i => ⟨true, 684 * i, some ""⟩⟩

theorem growth_terminates_crowded :
    assemblyFindEmpty crowded 2736 = none ∧
      ∃ bound, ∀ fuel, bound ≤ fuel →
        (∃ grown, assemblyGrowAndRehash fuel crowded = some grown) ∧
        (∃ room, findRoom fuel fuel crowded 2736 = some room) ∧
        ∀ text, ∃ as', assemblySet fuel crowded 2736 text = some as' := by
  have hplaced : WellPlaced crowded := ⟨by decide, by decide⟩
  exact ⟨by decide, growth_terminates hplaced (by decide)⟩

end Termination

end CompSys.AssemblyTable
