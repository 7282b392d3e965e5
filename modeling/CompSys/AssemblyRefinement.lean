import CompSys.AssemblyIndex
import CompSys.AssemblyTable

/-!
# The table with ints against the table of any size

Without negative addresses `assembly.c` does on ints what it does on natural numbers, as long as
the table does not outgrow an int.
-/
namespace CompSys.AssemblyIndex

/-- Setting an element of a list of all values of a function. -/
theorem set_ofFn {α : Type} {n : Nat} (f : Fin n → α) (i : Fin n) (v : α) :
    (List.ofFn f).set i.val v = List.ofFn (Function.update f i v) := by
  refine List.ext_getElem (by simp) fun j hj hj' => ?_
  rw [List.getElem_set, List.getElem_ofFn, List.getElem_ofFn, Function.update_apply]
  by_cases hsame : i.val = j
  · rw [if_pos hsame, if_pos (Fin.ext hsame.symm)]
  · rw [if_neg hsame, if_neg fun heq => hsame (congrArg Fin.val heq).symm]

def Entry.abs (e : Entry) : AssemblyTable.Entry := ⟨e.valid, e.addr.toNat, e.text⟩

/-- The same slots in the same order, without a negative address. -/
structure Refines (as : Assembly) (table : AssemblyTable.Assembly) : Prop where
  size : as.tableSize = table.tableSize
  slots : as.lookupTable.map Entry.abs = List.ofFn table.lookupTable
  nonneg : ∀ e ∈ as.lookupTable, e.addr.toNat < 2 ^ 31

theorem toInt_of_lt {addr : Word} (h : addr.toNat < 2 ^ 31) : addr.toInt = addr.toNat :=
  BitVec.toInt_eq_toNat_of_lt (by omega)

theorem slot_refines {as : Assembly} {table : AssemblyTable.Assembly} (h : Refines as table)
    (idx : Fin table.tableSize) :
    ∃ e ∈ as.lookupTable, slot as idx.val = .ok e ∧ e.abs = table.lookupTable idx := by
  have hget : (as.lookupTable.map Entry.abs)[idx.val]? = some (table.lookupTable idx) := by
    rw [h.slots, List.getElem?_ofFn, dif_pos idx.isLt]
  rw [List.getElem?_map, Option.map_eq_some_iff] at hget
  obtain ⟨e, hget, habs⟩ := hget
  have hinside : (0 : Int) ≤ idx.val ∧ (idx.val : Int) < as.tableSize := by
    rw [h.size]
    exact ⟨Int.natCast_nonneg _, by exact_mod_cast idx.isLt⟩
  refine ⟨e, List.mem_of_getElem? hget, ?_, habs⟩
  rw [slot, if_pos hinside, Int.toNat_natCast, hget]

theorem advance_refines {as : Assembly} {table : AssemblyTable.Assembly} (h : Refines as table)
    (idx : Fin table.tableSize) : advance as idx.val = (AssemblyTable.advance idx).val := by
  unfold advance AssemblyTable.advance
  rw [h.size]
  by_cases hlast : idx.val + 1 = table.tableSize
  · rw [if_pos (by exact_mod_cast hlast), dif_pos hlast]
    rfl
  · rw [if_neg (by exact_mod_cast hlast), dif_neg hlast]
    push_cast
    rfl

theorem probe_refines {as : Assembly} {table : AssemblyTable.Assembly} (h : Refines as table)
    {accept : Entry → Bool} {accept' : Fin table.tableSize → Bool}
    (haccept : ∀ e ∈ as.lookupTable, ∀ idx, e.abs = table.lookupTable idx →
      accept e = accept' idx) (turns : Nat) (idx : Fin table.tableSize) :
    probe as accept turns idx.val =
      .ok ((AssemblyTable.probe accept' turns idx).map fun found => (found.val : Int)) := by
  induction turns generalizing idx with
  | zero => rfl
  | succ turns ih =>
    obtain ⟨e, hmem, hslot, habs⟩ := slot_refines h idx
    simp only [probe, AssemblyTable.probe, hslot, haccept e hmem idx habs, bind, Except.bind]
    split
    · rfl
    · rw [advance_refines h, ih]

theorem home_refines {as : Assembly} {table : AssemblyTable.Assembly} (h : Refines as table)
    {addr : Word} (haddr : addr.toNat < 2 ^ 31) :
    home as addr = (AssemblyTable.home table.tableSize table.positive addr.toNat).val := by
  rw [home, h.size, toInt_of_lt haddr]
  rfl

theorem findEntry_refines {as : Assembly} {table : AssemblyTable.Assembly} (h : Refines as table)
    {addr : Word} (haddr : addr.toNat < 2 ^ 31) :
    assemblyFindEntry as addr =
      .ok ((AssemblyTable.assemblyFindEntry table addr.toNat).map fun idx => (idx.val : Int)) := by
  rw [assemblyFindEntry, home_refines h haddr, AssemblyTable.assemblyFindEntry]
  refine probe_refines h (fun e _ idx habs => ?_) 4 _
  rw [← habs]
  simp [Entry.abs, BitVec.toNat_inj, Bool.beq_eq_decide_eq]

theorem findEmpty_refines {as : Assembly} {table : AssemblyTable.Assembly} (h : Refines as table)
    {addr : Word} (haddr : addr.toNat < 2 ^ 31) :
    assemblyFindEmpty as addr =
      .ok ((AssemblyTable.assemblyFindEmpty table addr.toNat).map fun idx => (idx.val : Int)) := by
  rw [assemblyFindEmpty, home_refines h haddr, AssemblyTable.assemblyFindEmpty]
  refine probe_refines h (fun e _ idx habs => ?_) 4 _
  rw [← habs]
  rfl

theorem write_refines {as : Assembly} {table : AssemblyTable.Assembly} (h : Refines as table)
    (idx : Fin table.tableSize) {e : Entry} (he : e.addr.toNat < 2 ^ 31) :
    Refines (as.write idx.val e) (table.write idx e.abs) := by
  refine ⟨h.size, ?_, fun e' he' => ?_⟩
  · rw [Assembly.write, Int.toNat_natCast, List.map_set, h.slots, set_ofFn]
    rfl
  · rcases List.mem_or_eq_of_mem_set he' with hold | rfl
    · exact h.nonneg e' hold
    · exact he

theorem calloc_refines (size : Nat) (positive : 0 < size) :
    Refines (calloc size) (AssemblyTable.calloc size positive) := by
  refine ⟨rfl, ?_, fun e he => ?_⟩
  · rw [calloc, Int.toNat_natCast, List.map_replicate, AssemblyTable.calloc, List.ofFn_const]
    rfl
  · rw [List.eq_of_mem_replicate he]
    decide

/-! ## Sizes -/

theorem reinsert_size {entries : List AssemblyTable.Entry} {table table' : AssemblyTable.Assembly}
    (h : AssemblyTable.reinsert entries table = some table') :
    table'.tableSize = table.tableSize := by
  induction entries generalizing table with
  | nil =>
    cases h
    rfl
  | cons e rest ih =>
    rw [AssemblyTable.reinsert] at h
    split at h
    · split at h
      · cases h
      · exact (ih h).trans rfl
    · exact ih h

/-- A table that grows begins with a larger size and never goes back. -/
theorem growLoop_size {old : List AssemblyTable.Entry} {fuel newSize : Nat}
    {positive : 0 < newSize} {table : AssemblyTable.Assembly}
    (h : AssemblyTable.growLoop old fuel newSize positive = some table) :
    newSize ≤ table.tableSize := by
  obtain ⟨size, hpos, hle, hlast⟩ := AssemblyTable.growLoop_some h
  exact hle.trans (reinsert_size hlast).ge

theorem findRoom_size {fuel turns : Nat} {table : AssemblyTable.Assembly} {addr : Nat}
    {room : (table : AssemblyTable.Assembly) × Fin table.tableSize}
    (h : AssemblyTable.findRoom fuel turns table addr = some room) :
    table.tableSize ≤ room.1.tableSize := by
  induction turns generalizing table with
  | zero => cases h
  | succ turns ih =>
    rw [AssemblyTable.findRoom] at h
    split at h
    · cases h
      exact Nat.le_refl _
    · obtain ⟨grown, hgrow, hrest⟩ := Option.bind_eq_some_iff.mp h
      have hgrown := growLoop_size hgrow
      have hroom := ih hrest
      omega

theorem set_size {fuel : Nat} {table table' : AssemblyTable.Assembly} {addr : Nat} {text : String}
    (h : AssemblyTable.assemblySet fuel table addr text = some table') :
    table.tableSize ≤ table'.tableSize := by
  rw [AssemblyTable.assemblySet] at h
  split at h
  · cases h
    exact Nat.le_refl _
  · obtain ⟨room, hroom, rfl⟩ := Option.map_eq_some_iff.mp h
    exact findRoom_size hroom

theorem sets_size {fuel : Nat} {calls : List (Nat × String)}
    {table table' : AssemblyTable.Assembly}
    (h : calls.foldlM (fun table call => AssemblyTable.assemblySet fuel table call.1 call.2) table =
      some table') : table.tableSize ≤ table'.tableSize := by
  induction calls generalizing table with
  | nil =>
    cases h
    exact Nat.le_refl _
  | cons call calls ih =>
    rw [List.foldlM_cons, Option.bind_eq_bind, Option.bind_eq_some_iff] at h
    obtain ⟨table₁, hset, hrest⟩ := h
    exact (set_size hset).trans (ih hrest)

/-! ## Growing -/

theorem narrow_of_lt {size : Int} (hnonneg : 0 ≤ size) (h : size < 2 ^ 31) :
    narrow size = size := Int.bmod_eq_of_le (by omega) (by omega)

/-- The loop over the old table ends in both with a collision, or with a table. -/
theorem reinsert_refines {rest : List Entry} (hrest : ∀ e ∈ rest, e.addr.toNat < 2 ^ 31)
    {as : Assembly} {table : AssemblyTable.Assembly} (h : Refines as table) :
    ∃ r, reinsert rest as = .ok r ∧
      Option.Rel Refines r (AssemblyTable.reinsert (rest.map Entry.abs) table) := by
  induction rest generalizing as table with
  | nil => exact ⟨some as, rfl, .some h⟩
  | cons e rest ih =>
    have he := hrest e (List.mem_cons_self ..)
    have hlater : ∀ e ∈ rest, e.addr.toNat < 2 ^ 31 :=
      fun e' he' => hrest e' (List.mem_cons_of_mem e he')
    have hvalid : e.abs.valid = e.valid := rfl
    have haddr : e.abs.addr = e.addr.toNat := rfl
    rw [List.map_cons, reinsert, AssemblyTable.reinsert, hvalid, haddr]
    split
    · rw [findEmpty_refines h he]
      cases AssemblyTable.assemblyFindEmpty table e.addr.toNat with
      | none => exact ⟨none, rfl, .none⟩
      | some newIdx => exact ih hlater (write_refines h newIdx he)
    · exact ih hlater h

/-- After a collision the loop goes on with the next size. -/
theorem growLoop_collision {old : List Entry} {fuel : Nat} {newSize : Int}
    (h : reinsert old (calloc newSize) = .ok none) :
    growLoop old (fuel + 1) newSize = growLoop old fuel (narrow (1 + newSize * 2)) := by
  rw [growLoop, h]
  rfl

/-- The loop ends with the same table if that has a size within an int. -/
theorem growLoop_refines {old : List Entry} (hold : ∀ e ∈ old, e.addr.toNat < 2 ^ 31)
    {fuel newSize : Nat} {positive : 0 < newSize} {table : AssemblyTable.Assembly}
    (h : AssemblyTable.growLoop (old.map Entry.abs) fuel newSize positive = some table)
    (hsize : table.tableSize < 2 ^ 31) :
    ∃ as, growLoop old fuel newSize = .ok as ∧ Refines as table := by
  induction fuel generalizing newSize with
  | zero => cases h
  | succ fuel ih =>
    obtain ⟨r, hrun, hrel⟩ := reinsert_refines hold (calloc_refines newSize positive)
    rw [AssemblyTable.growLoop] at h
    cases hreinsert : AssemblyTable.reinsert (old.map Entry.abs)
        (AssemblyTable.calloc newSize positive) with
    | some table' =>
      rw [hreinsert] at h hrel
      cases h
      cases hrel with
      | some hrefines =>
        rw [growLoop, hrun]
        exact ⟨_, rfl, hrefines⟩
    | none =>
      rw [hreinsert] at h hrel
      cases hrel with
      | none =>
        have hle := growLoop_size h
        obtain ⟨as, hloop, hrefines⟩ := ih h
        push_cast at hloop
        refine ⟨as, ?_, hrefines⟩
        rw [growLoop_collision hrun, narrow_of_lt (by omega) (by omega)]
        exact hloop

theorem grow_refines {as : Assembly} {table grown : AssemblyTable.Assembly} (h : Refines as table)
    {fuel : Nat} (hgrow : AssemblyTable.assemblyGrowAndRehash fuel table = some grown)
    (hsize : grown.tableSize < 2 ^ 31) :
    ∃ as', assemblyGrowAndRehash fuel as = .ok as' ∧ Refines as' grown := by
  rw [AssemblyTable.assemblyGrowAndRehash, ← h.slots] at hgrow
  have hle := growLoop_size hgrow
  have hnarrow : narrow (1 + 2 * (table.tableSize : Int)) = 1 + 2 * (table.tableSize : Int) :=
    narrow_of_lt (by omega) (by omega)
  obtain ⟨as', hloop, hrefines⟩ := growLoop_refines h.nonneg hgrow hsize
  push_cast at hloop
  refine ⟨as', ?_, hrefines⟩
  rw [assemblyGrowAndRehash, h.size, hnarrow]
  exact hloop

theorem findRoom_refines {fuel turns : Nat} {as : Assembly} {table : AssemblyTable.Assembly}
    (h : Refines as table) {addr : Word} (haddr : addr.toNat < 2 ^ 31)
    {room : (table : AssemblyTable.Assembly) × Fin table.tableSize}
    (hroom : AssemblyTable.findRoom fuel turns table addr.toNat = some room)
    (hsize : room.1.tableSize < 2 ^ 31) :
    ∃ as', findRoom fuel turns as addr = .ok (as', (room.2.val : Int)) ∧ Refines as' room.1 := by
  induction turns generalizing as table with
  | zero => cases hroom
  | succ turns ih =>
    rw [findRoom, findEmpty_refines h haddr]
    rw [AssemblyTable.findRoom] at hroom
    cases hempty : AssemblyTable.assemblyFindEmpty table addr.toNat with
    | some idx =>
      rw [hempty] at hroom
      cases hroom
      exact ⟨as, rfl, h⟩
    | none =>
      rw [hempty] at hroom
      obtain ⟨grown, hgrow, hrest⟩ := Option.bind_eq_some_iff.mp hroom
      have hle := findRoom_size hrest
      obtain ⟨as₁, hrun, h₁⟩ := grow_refines h hgrow (by omega)
      obtain ⟨as', hrun', h'⟩ := ih h₁ hrest
      refine ⟨as', ?_, h'⟩
      change (assemblyGrowAndRehash fuel as >>= fun grown => findRoom fuel turns grown addr) = _
      rw [hrun]
      exact hrun'

/-! ## Calls -/

theorem set_refines {fuel : Nat} {as : Assembly} {table table' : AssemblyTable.Assembly}
    (h : Refines as table) {addr : Word} (haddr : addr.toNat < 2 ^ 31) {text : String}
    (hset : AssemblyTable.assemblySet fuel table addr.toNat text = some table')
    (hsize : table'.tableSize < 2 ^ 31) :
    ∃ as', assemblySet fuel as addr text = .ok as' ∧ Refines as' table' := by
  rw [assemblySet, findEntry_refines h haddr]
  rw [AssemblyTable.assemblySet] at hset
  cases hfound : AssemblyTable.assemblyFindEntry table addr.toNat with
  | some idx =>
    rw [hfound] at hset
    cases hset
    exact ⟨_, rfl, write_refines h idx haddr⟩
  | none =>
    rw [hfound] at hset
    obtain ⟨room, hroom, rfl⟩ := Option.map_eq_some_iff.mp hset
    obtain ⟨as', hrun, h'⟩ := findRoom_refines h haddr hroom hsize
    refine ⟨as'.write room.2.val ⟨true, addr, some text⟩, ?_, write_refines h' room.2 haddr⟩
    change (findRoom fuel fuel as addr >>= _) = _
    rw [hrun]
    rfl

theorem get_refines {as : Assembly} {table : AssemblyTable.Assembly} (h : Refines as table)
    {addr : Word} (haddr : addr.toNat < 2 ^ 31) :
    assemblyGet as addr = .ok (AssemblyTable.assemblyGet table addr.toNat) := by
  rw [assemblyGet, findEntry_refines h haddr, AssemblyTable.assemblyGet]
  cases AssemblyTable.assemblyFindEntry table addr.toNat with
  | none => rfl
  | some idx =>
    obtain ⟨e, -, hslot, habs⟩ := slot_refines h idx
    have htext : (table.lookupTable idx).text = e.text := by
      rw [← habs]
      rfl
    simp only [Option.map_some, bind, Except.bind, hslot, htext]
    rfl

theorem step_get {fuel : Nat} {as : Assembly} {table : AssemblyTable.Assembly}
    (h : Refines as table) {addr : Word} (haddr : addr.toNat < 2 ^ 31) :
    step fuel as (.get addr) = .ok as := by
  rw [step, get_refines h haddr]
  rfl

/-- The calls that change the table. -/
def sets (calls : List Call) : List (Nat × String) :=
  calls.filterMap fun
    | .set addr text => some (addr.toNat, text)
    | .get _ => none

/-- A run over addresses below 2^31 ends as the run over natural numbers does if the table of
that one has a size within an int. -/
theorem run_refines {fuel : Nat} (calls : List Call)
    (hcalls : ∀ call ∈ calls, call.addr.toNat < 2 ^ 31) {as : Assembly}
    {table table' : AssemblyTable.Assembly} (h : Refines as table)
    (hrun : (sets calls).foldlM
      (fun table call => AssemblyTable.assemblySet fuel table call.1 call.2) table = some table')
    (hsize : table'.tableSize < 2 ^ 31) :
    ∃ as', calls.foldlM (step fuel) as = .ok as' ∧ Refines as' table' := by
  induction calls generalizing as table with
  | nil =>
    cases hrun
    exact ⟨as, rfl, h⟩
  | cons call calls ih =>
    have haddr := hcalls call (List.mem_cons_self ..)
    have hlater : ∀ call ∈ calls, call.addr.toNat < 2 ^ 31 :=
      fun later hlater => hcalls later (List.mem_cons_of_mem call hlater)
    rw [List.foldlM_cons]
    cases call with
    | set addr text =>
      obtain ⟨table₁, hset, hrest⟩ := Option.bind_eq_some_iff.mp hrun
      have hle := sets_size hrest
      obtain ⟨as₁, hstep, h₁⟩ := set_refines h haddr hset (Nat.lt_of_le_of_lt hle hsize)
      have hstep' : step fuel as (.set addr text) = .ok as₁ := hstep
      rw [hstep']
      exact ih hlater h₁ hrest
    | get addr =>
      have hstep : step fuel as (.get addr) = .ok as := step_get h haddr
      rw [hstep]
      exact ih hlater h hrun

/-- Without negative addresses every run ends, and its table answers with the texts last set,
unless the table would need 2^31 slots or more. -/
theorem run_represents (calls : List Call) (hcalls : ∀ call ∈ calls, call.addr.toNat < 2 ^ 31) :
    ∃ fuel table, AssemblyTable.runSets fuel (sets calls) = some table ∧
      (table.tableSize < 2 ^ 31 → ∃ as, run fuel calls = .ok as ∧
        ∀ addr : Word, addr.toNat < 2 ^ 31 → assemblyGet as addr =
          .ok (some ((AssemblyTable.lastCall (sets calls) addr.toNat).getD ""))) := by
  have hbelow : ∀ call ∈ sets calls, call.1 < 2 ^ 31 := by
    intro call hmem
    obtain ⟨c, hc, heq⟩ := List.mem_filterMap.mp hmem
    cases c with
    | set addr text =>
      cases heq
      exact hcalls _ hc
    | get addr => cases heq
  obtain ⟨bound, hbound⟩ : ∃ bound, bound = 2 ^ 31 := ⟨_, rfl⟩
  rw [← hbound] at hbelow
  obtain ⟨table, hrun⟩ := AssemblyTable.runSets_total le_rfl (sets calls) hbelow
  refine ⟨bound + 2, table, hrun, fun hsize => ?_⟩
  have hcreate : Refines assemblyCreate AssemblyTable.assemblyCreate := calloc_refines 4 _
  obtain ⟨as, hrun', h⟩ := run_refines calls hcalls hcreate hrun hsize
  refine ⟨as, hrun', fun addr haddr => ?_⟩
  rw [get_refines h haddr, (AssemblyTable.runSets_represents (sets calls) hrun).get]

end CompSys.AssemblyIndex
