import CompSys.BitField
import Mathlib.Algebra.Order.Ring.Int
import Mathlib.Data.Int.ModEq

/-!
# Slot indices of the table of assembler texts

`assembly.c` with its ints: `read_exec` parses an address as an unsigned number and passes it on
as an int, and the remainder of a negative one is not positive. A size that outgrows an int is
negative and leaves no slot. A loop that takes more turns than given is an end of its own.
-/
namespace CompSys.AssemblyIndex

/-! ## The program -/

inductive Failure where
  | outside
  | fuel
deriving DecidableEq

structure Entry where
  valid : Bool
  addr : Word
  text : Option String
deriving DecidableEq

def Entry.zero : Entry := ⟨false, 0, none⟩

structure Assembly where
  tableSize : Int
  lookupTable : List Entry
deriving DecidableEq

/-- `lookup_table[idx]`. -/
def slot (as : Assembly) (idx : Int) : Except Failure Entry :=
  if 0 ≤ idx ∧ idx < as.tableSize then
    match as.lookupTable[idx.toNat]? with
    | some e => .ok e
    | none => .error .outside
  else .error .outside

/-- `++idx`, back to zero at the end of the table. -/
def advance (as : Assembly) (idx : Int) : Int :=
  if idx + 1 = as.tableSize then 0 else idx + 1

/-- The loop over `offset`, with as many turns to go as given. -/
def probe (as : Assembly) (accept : Entry → Bool) : Nat → Int → Except Failure (Option Int)
  | 0, _ => .ok none
  | turns + 1, idx => do
    let e ← slot as idx
    if accept e then return some idx
    else probe as accept turns (advance as idx)

/-- `addr % table_size`. -/
def home (as : Assembly) (addr : Word) : Int := addr.toInt.tmod as.tableSize

def assemblyFindEntry (as : Assembly) (addr : Word) : Except Failure (Option Int) :=
  probe as (fun e => e.valid && e.addr == addr) 4 (home as addr)

def assemblyFindEmpty (as : Assembly) (addr : Word) : Except Failure (Option Int) :=
  probe as (fun e => !e.valid) 4 (home as addr)

def Assembly.write (as : Assembly) (idx : Int) (e : Entry) : Assembly :=
  { as with lookupTable := as.lookupTable.set idx.toNat e }

/-- A new table of `size` slots, and none where `size` is negative and `calloc` gives NULL. -/
def calloc (size : Int) : Assembly := ⟨size, List.replicate size.toNat Entry.zero⟩

/-- The `for` loop over the old table. A collision ends it. -/
def reinsert : List Entry → Assembly → Except Failure (Option Assembly)
  | [], as => .ok (some as)
  | e :: rest, as =>
    if e.valid then do
      match ← assemblyFindEmpty as e.addr with
      | none => return none
      | some newIdx => reinsert rest (as.write newIdx e)
    else reinsert rest as

/-- A size that has been computed in an int. -/
def narrow (size : Int) : Int := size.bmod (2 ^ 32)

/-- The `do` loop: the next size is tried after a collision. -/
def growLoop (oldTable : List Entry) : Nat → Int → Except Failure Assembly
  | 0, _ => .error .fuel
  | fuel + 1, newSize => do
    match ← reinsert oldTable (calloc newSize) with
    | some as => return as
    | none => growLoop oldTable fuel (narrow (1 + newSize * 2))

def assemblyGrowAndRehash (fuel : Nat) (as : Assembly) : Except Failure Assembly :=
  growLoop as.lookupTable fuel (narrow (1 + 2 * as.tableSize))

/-- The `while` loop of `assembly_set`. -/
def findRoom (fuel : Nat) : Nat → Assembly → Word → Except Failure (Assembly × Int)
  | 0, _, _ => .error .fuel
  | turns + 1, as, addr => do
    match ← assemblyFindEmpty as addr with
    | some idx => return (as, idx)
    | none => do
      let grown ← assemblyGrowAndRehash fuel as
      findRoom fuel turns grown addr

/-- Each of the two loops has `fuel` turns. -/
def assemblySet (fuel : Nat) (as : Assembly) (addr : Word) (text : String) :
    Except Failure Assembly := do
  match ← assemblyFindEntry as addr with
  | some idx => return as.write idx ⟨true, addr, some text⟩
  | none => do
    let (as, idx) ← findRoom fuel fuel as addr
    return as.write idx ⟨true, addr, some text⟩

def assemblyGet (as : Assembly) (addr : Word) : Except Failure (Option String) := do
  match ← assemblyFindEntry as addr with
  | none => return some ""
  | some idx => do
    let e ← slot as idx
    return e.text

def assemblyCreate : Assembly := calloc 4

inductive Call where
  | set (addr : Word) (text : String)
  | get (addr : Word)
deriving DecidableEq

def Call.addr : Call → Word
  | .set addr _ => addr
  | .get addr => addr

def step (fuel : Nat) (as : Assembly) : Call → Except Failure Assembly
  | .set addr text => assemblySet fuel as addr text
  | .get addr => do
    let _ ← assemblyGet as addr
    return as

def run (fuel : Nat) (calls : List Call) : Except Failure Assembly :=
  calls.foldlM (step fuel) assemblyCreate

/-! ## Results that were reached without an index outside -/

section Stays

variable {α β : Type}

def Stays (post : α → Prop) : Except Failure α → Prop
  | .ok a => post a
  | .error failure => failure ≠ .outside

theorem Stays.ne_outside {post : α → Prop} {x : Except Failure α} (h : Stays post x) :
    x ≠ .error .outside := by
  rintro rfl
  exact h rfl

theorem Stays.bind {post : α → Prop} {post' : β → Prop} {x : Except Failure α}
    {f : α → Except Failure β} (h : Stays post x) (hf : ∀ a, post a → Stays post' (f a)) :
    Stays post' (x >>= f) := by
  cases x with
  | ok a => exact hf a h
  | error failure => exact h

end Stays

/-! ## Searches -/

structure WellSized (as : Assembly) : Prop where
  pos : 0 < as.tableSize
  length : (as.lookupTable.length : Int) = as.tableSize

def Inside (as : Assembly) (idx : Int) : Prop := 0 ≤ idx ∧ idx < as.tableSize

/-- The addresses with a first slot. -/
def Fits (as : Assembly) (addr : Word) : Prop := 0 ≤ addr.toInt ∨ as.tableSize ∣ addr.toInt

theorem home_inside_iff {as : Assembly} (h : WellSized as) (addr : Word) :
    Inside as (home as addr) ↔ Fits as addr := by
  have hpos := h.pos
  constructor
  · rintro ⟨hnonneg, -⟩
    by_cases haddr : 0 ≤ addr.toInt
    · exact .inl haddr
    · right
      have hnonpos : (-addr.toInt).tmod as.tableSize = -home as addr := Int.neg_tmod ..
      have hneg := Int.tmod_nonneg as.tableSize (show 0 ≤ -addr.toInt by omega)
      apply Int.dvd_of_tmod_eq_zero
      change home as addr = 0
      omega
  · rintro (haddr | hdvd)
    · exact ⟨Int.tmod_nonneg _ haddr, Int.tmod_lt_of_pos _ hpos⟩
    · rw [home, Int.tmod_eq_zero_of_dvd hdvd]
      exact ⟨le_refl 0, hpos⟩

theorem slot_inside {as : Assembly} (h : WellSized as) {idx : Int} (hidx : Inside as idx) :
    ∃ e, slot as idx = .ok e ∧ as.lookupTable[idx.toNat]? = some e := by
  have hlength := h.length
  obtain ⟨hlow, hhigh⟩ := hidx
  have hlt : idx.toNat < as.lookupTable.length := by omega
  have hget := List.getElem?_eq_getElem hlt
  refine ⟨as.lookupTable[idx.toNat], ?_, hget⟩
  rw [slot, if_pos ⟨hlow, hhigh⟩, hget]

theorem advance_eq {as : Assembly} {idx : Int} (h : Inside as idx) :
    advance as idx = (idx + 1) % as.tableSize := by
  obtain ⟨hlow, hhigh⟩ := h
  unfold advance
  split
  case isTrue heq => rw [heq, Int.emod_self]
  case isFalse hne => exact (Int.emod_eq_of_lt (by omega) (by omega)).symm

theorem advance_inside {as : Assembly} {idx : Int} (h : Inside as idx) :
    Inside as (advance as idx) := by
  obtain ⟨hlow, hhigh⟩ := h
  unfold Inside advance
  split <;> omega

/-- A search from a slot stays inside. Where it finds none, no slot in its way is accepted. -/
theorem probe_stays {as : Assembly} (h : WellSized as) (accept : Entry → Bool) (turns : Nat)
    {idx : Int} (hidx : Inside as idx) :
    ∃ found, probe as accept turns idx = .ok found ∧ (∀ i, found = some i → Inside as i) ∧
      (found = none → ∀ offset < turns, ∀ e,
        as.lookupTable[((idx + offset) % as.tableSize).toNat]? = some e → accept e = false) := by
  induction turns generalizing idx with
  | zero =>
    refine ⟨none, rfl, fun i hi => ?_, fun _ offset hlt => ?_⟩
    · cases hi
    · exact absurd hlt (Nat.not_lt_zero offset)
  | succ turns ih =>
    obtain ⟨e, hslot, hget⟩ := slot_inside h hidx
    simp only [probe, hslot, bind, Except.bind]
    by_cases haccept : accept e = true
    · rw [if_pos haccept]
      refine ⟨some idx, rfl, fun i hi => ?_, fun hnone => ?_⟩
      · cases hi
        exact hidx
      · cases hnone
    · rw [if_neg haccept]
      obtain ⟨found, hrun, hfound, hnone⟩ := ih (advance_inside hidx)
      refine ⟨found, hrun, hfound, fun heq offset hlt e' he' => ?_⟩
      cases offset with
      | zero =>
        rw [Nat.cast_zero, Int.add_zero, Int.emod_eq_of_lt hidx.1 hidx.2, hget] at he'
        cases he'
        exact Bool.eq_false_iff.mpr haccept
      | succ offset =>
        refine hnone heq offset (by omega) e' ?_
        rw [advance_eq hidx, Int.emod_add_emod, Int.add_assoc, Int.add_comm 1]
        exact_mod_cast he'

/-- A search begins outside exactly if the address has no first slot. -/
theorem probe_outside_iff {as : Assembly} (h : WellSized as) (accept : Entry → Bool)
    (turns : Nat) (addr : Word) :
    probe as accept (turns + 1) (home as addr) = .error .outside ↔ ¬Fits as addr := by
  rw [← home_inside_iff h]
  constructor
  · intro houtside hinside
    obtain ⟨found, hrun, -⟩ := probe_stays h accept (turns + 1) hinside
    rw [hrun] at houtside
    cases houtside
  · intro hnot
    have hslot : slot as (home as addr) = .error .outside := if_neg hnot
    rw [probe, hslot]
    rfl

theorem findEntry_stays {as : Assembly} (h : WellSized as) {addr : Word} (haddr : Fits as addr) :
    ∃ found, assemblyFindEntry as addr = .ok found ∧ ∀ i, found = some i → Inside as i := by
  obtain ⟨found, hrun, hfound, -⟩ := probe_stays h _ 4 ((home_inside_iff h addr).mpr haddr)
  exact ⟨found, hrun, hfound⟩

/-- One of the four slots of an address has it or is free, so that the table need not grow. -/
def Roomy (as : Assembly) (addr : Word) : Prop :=
  ∃ offset < 4, ∃ e, as.lookupTable[((home as addr + (offset : Nat)) % as.tableSize).toNat]? =
    some e ∧ (e.valid = false ∨ e.addr = addr)

theorem Roomy.found {as : Assembly} (h : WellSized as) {addr : Word} (haddr : Fits as addr)
    (hroomy : Roomy as addr) (hentry : assemblyFindEntry as addr = .ok none) :
    ∃ idx, assemblyFindEmpty as addr = .ok (some idx) := by
  have hinside := (home_inside_iff h addr).mpr haddr
  obtain ⟨entry, hrun, -, hnone⟩ :=
    probe_stays h (fun e => e.valid && e.addr == addr) 4 hinside
  obtain ⟨empty, hrun', -, hnone'⟩ := probe_stays h (fun e => !e.valid) 4 hinside
  rw [assemblyFindEntry, hrun, Except.ok.injEq] at hentry
  cases hempty : empty with
  | some idx => exact ⟨idx, by rw [assemblyFindEmpty, hrun', hempty]⟩
  | none =>
    exfalso
    obtain ⟨offset, hlt, e, he, hroom⟩ := hroomy
    have hvalid : e.valid = true := by simpa using hnone' hempty offset hlt e he
    have hother : e.addr ≠ addr := by simpa [hvalid] using hnone hentry offset hlt e he
    rcases hroom with hfree | hsame
    · rw [hvalid] at hfree
      cases hfree
    · exact hother hsame

theorem write_wellSized {as : Assembly} (h : WellSized as) (idx : Int) (e : Entry) :
    WellSized (as.write idx e) :=
  ⟨h.pos, by rw [Assembly.write, List.length_set]; exact h.length⟩

theorem calloc_wellSized {size : Int} (h : 0 < size) : WellSized (calloc size) :=
  ⟨h, by rw [calloc, List.length_replicate]; exact Int.toNat_of_nonneg h.le⟩

theorem get_stays {as : Assembly} (h : WellSized as) {addr : Word} (hfits : Fits as addr) :
    Stays (fun _ => True) (assemblyGet as addr) := by
  obtain ⟨found, hentry, hinside⟩ := findEntry_stays h hfits
  rw [assemblyGet, hentry]
  cases found with
  | none => exact trivial
  | some idx =>
    obtain ⟨e, hslot, -⟩ := slot_inside h (hinside idx rfl)
    change Stays _ (slot as idx >>= _)
    rw [hslot]
    exact trivial

end CompSys.AssemblyIndex
