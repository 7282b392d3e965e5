import CompSys.AssemblyRefinement

/-!
# Searches that stay inside the table

A run computes no index outside as long as its addresses have a first slot and a table that has
to grow finds a size within an int. Addresses below the last such size always do.
-/
namespace CompSys.AssemblyIndex

open Probing (AtHome Absent Stores)

/-! ## Loops with other turns -/

/-- What a loop ends with, it ends with in other turns too, unless these are too few. -/
theorem growLoop_turns {old : List Entry} {fuel : Nat} {newSize : Int} {as : Assembly}
    (h : growLoop old fuel newSize = .ok as) (fuel' : Nat) :
    growLoop old fuel' newSize = .ok as ∨ growLoop old fuel' newSize = .error .fuel := by
  induction fuel' generalizing fuel newSize with
  | zero => exact .inr rfl
  | succ fuel' ih =>
    cases fuel with
    | zero => cases h
    | succ fuel =>
      cases hrun : reinsert old (calloc newSize) with
      | error failure =>
        rw [growLoop, hrun] at h
        cases h
      | ok r =>
        cases r with
        | some as' =>
          rw [growLoop, hrun] at h ⊢
          exact .inl h
        | none =>
          rw [growLoop_collision hrun] at h ⊢
          exact ih h

theorem findRoom_turns {fuel turns : Nat} {as : Assembly} {addr : Word} {room : Assembly × Int}
    (h : findRoom fuel turns as addr = .ok room) (fuel' turns' : Nat) :
    findRoom fuel' turns' as addr = .ok room ∨ findRoom fuel' turns' as addr = .error .fuel := by
  induction turns' generalizing turns as with
  | zero => exact .inr rfl
  | succ turns' ih =>
    cases turns with
    | zero => cases h
    | succ turns =>
      rw [findRoom] at h ⊢
      cases hempty : assemblyFindEmpty as addr with
      | error failure =>
        rw [hempty] at h
        cases h
      | ok found =>
        rw [hempty] at h
        cases found with
        | some idx => exact .inl h
        | none =>
          change (assemblyGrowAndRehash fuel as >>= fun grown => findRoom fuel turns grown addr) =
            .ok room at h
          change (assemblyGrowAndRehash fuel' as >>= fun grown => findRoom fuel' turns' grown addr) =
            .ok room ∨ (assemblyGrowAndRehash fuel' as >>= fun grown =>
              findRoom fuel' turns' grown addr) = .error .fuel
          cases hgrow : assemblyGrowAndRehash fuel as with
          | error failure =>
            rw [hgrow] at h
            cases h
          | ok grown =>
            rw [hgrow] at h
            rcases growLoop_turns hgrow fuel' with hok | hfuel
            · have hgrow' : assemblyGrowAndRehash fuel' as = .ok grown := hok
              rw [hgrow']
              exact ih h
            · have hgrow' : assemblyGrowAndRehash fuel' as = .error .fuel := hfuel
              rw [hgrow']
              exact .inr rfl

theorem set_turns {fuel : Nat} {as as' : Assembly} {addr : Word} {text : String}
    (h : assemblySet fuel as addr text = .ok as') (fuel' : Nat) :
    assemblySet fuel' as addr text = .ok as' ∨ assemblySet fuel' as addr text = .error .fuel := by
  rw [assemblySet] at h ⊢
  cases hentry : assemblyFindEntry as addr with
  | error failure =>
    rw [hentry] at h
    cases h
  | ok found =>
    rw [hentry] at h
    cases found with
    | some idx => exact .inl h
    | none =>
      change (findRoom fuel fuel as addr >>= fun room =>
        .ok (room.1.write room.2 ⟨true, addr, some text⟩)) = .ok as' at h
      change (findRoom fuel' fuel' as addr >>= fun room =>
        .ok (room.1.write room.2 ⟨true, addr, some text⟩)) = .ok as' ∨
          (findRoom fuel' fuel' as addr >>= fun room =>
            .ok (room.1.write room.2 ⟨true, addr, some text⟩)) = .error .fuel
      cases hroom : findRoom fuel fuel as addr with
      | error failure =>
        rw [hroom] at h
        cases h
      | ok room =>
        rw [hroom] at h
        rcases findRoom_turns hroom fuel' fuel' with hok | hfuel
        · rw [hok]
          exact .inl h
        · rw [hfuel]
          exact .inr rfl

/-! ## Calls -/

theorem Refines.wellSized {as : Assembly} {table : AssemblyTable.Assembly}
    (h : Refines as table) : WellSized as := by
  have hpos := table.positive
  have hlength := congrArg List.length h.slots
  rw [List.length_map, List.length_ofFn] at hlength
  constructor <;> rw [h.size] <;> omega

/-- No address is negative as an int, and on natural numbers the table grows to a size within an
int until it has room for the new one. -/
def GrowsWithin (as : Assembly) (addr : Word) : Prop :=
  addr.toNat < 2 ^ 31 ∧ ∃ table fuel room, Refines as table ∧
    AssemblyTable.findRoom fuel fuel table addr.toNat = some room ∧ room.1.tableSize < 2 ^ 31

/-- Before a call: its address has a first slot, and where the table has to grow, it grows within
an int. -/
def Call.Safe (as : Assembly) : Call → Prop
  | .get addr => Fits as addr
  | .set addr _ => Fits as addr ∧ (Roomy as addr ∨ GrowsWithin as addr)

theorem set_stays (fuel : Nat) {as : Assembly} (h : WellSized as) {addr : Word} {text : String}
    (hsafe : (Call.set addr text).Safe as) : Stays WellSized (assemblySet fuel as addr text) := by
  obtain ⟨hfits, hroom⟩ := hsafe
  obtain ⟨found, hentry, -⟩ := findEntry_stays h hfits
  rw [assemblySet, hentry]
  cases found with
  | some idx => exact write_wellSized h idx _
  | none =>
    have hroomStays : Stays (fun room => WellSized room.1) (findRoom fuel fuel as addr) := by
      rcases hroom with hroomy | ⟨haddr, table, fuel', room, hrefines, hroom, hsize⟩
      · obtain ⟨idx, hempty⟩ := hroomy.found h hfits hentry
        cases fuel with
        | zero =>
          intro heq
          cases heq
        | succ fuel =>
          rw [findRoom, hempty]
          exact h
      · obtain ⟨as', hrun, hrefines'⟩ := findRoom_refines hrefines haddr hroom hsize
        rcases findRoom_turns hrun fuel fuel with hok | hfuel
        · rw [hok]
          exact hrefines'.wellSized
        · rw [hfuel]
          intro heq
          cases heq
    exact hroomStays.bind fun room hroom => write_wellSized hroom room.2 _

theorem step_stays (fuel : Nat) {as : Assembly} (h : WellSized as) {call : Call}
    (hsafe : call.Safe as) : Stays WellSized (step fuel as call) := by
  cases call with
  | set addr text => exact set_stays fuel h hsafe
  | get addr => exact (get_stays h hsafe).bind fun _ _ => h

/-! ## Runs -/

/-- Every call of a run is safe in the table that it meets. -/
def SafeRun (fuel : Nat) : Assembly → List Call → Prop
  | _, [] => True
  | as, call :: calls =>
    call.Safe as ∧ ∀ as', step fuel as call = .ok as' → SafeRun fuel as' calls

theorem run_stays (fuel : Nat) (calls : List Call) {as : Assembly} (h : WellSized as)
    (hsafe : SafeRun fuel as calls) : Stays WellSized (calls.foldlM (step fuel) as) := by
  induction calls generalizing as with
  | nil => exact h
  | cons call calls ih =>
    obtain ⟨hcall, hrest⟩ := hsafe
    rw [List.foldlM_cons]
    have hstep := step_stays fuel h hcall
    cases hrun : step fuel as call with
    | error failure =>
      rw [hrun] at hstep
      exact hstep
    | ok as' =>
      rw [hrun] at hstep
      exact ih hstep (hrest as' hrun)

/-! ## Addresses below a size -/

/-- A table of the one size comes to the other one by growing. -/
def GrowsTo (size bound : Nat) : Prop := ∃ times, bound + 1 = (size + 1) * 2 ^ times

theorem GrowsTo.le {size bound : Nat} (h : GrowsTo size bound) : size ≤ bound := by
  obtain ⟨times, heq⟩ := h
  have hpos := Nat.two_pow_pos times
  have hle := Nat.le_mul_of_pos_right (size + 1) hpos
  omega

theorem GrowsTo.next {size bound : Nat} (h : GrowsTo size bound) (hne : size ≠ bound) :
    GrowsTo (1 + size * 2) bound := by
  obtain ⟨times, heq⟩ := h
  cases times with
  | zero =>
    rw [Nat.pow_zero, Nat.mul_one] at heq
    exact absurd (Nat.succ.inj heq.symm) hne
  | succ times =>
    have hdouble : 1 + size * 2 + 1 = (size + 1) * 2 := by omega
    refine ⟨times, ?_⟩
    rw [heq, hdouble, Nat.mul_assoc, Nat.pow_succ, Nat.mul_comm (2 ^ times)]

/-- Growing does not pass a size at which all entries have room. -/
theorem growLoop_within {old : List AssemblyTable.Entry} {bound fuel newSize : Nat}
    {positive : 0 < newSize} {grown : AssemblyTable.Assembly}
    (hroom : ∀ hpos : 0 < bound, AssemblyTable.reinsert old (AssemblyTable.calloc bound hpos) ≠ none)
    (hgrows : GrowsTo newSize bound)
    (h : AssemblyTable.growLoop old fuel newSize positive = some grown) :
    GrowsTo grown.tableSize bound := by
  induction fuel generalizing newSize with
  | zero => cases h
  | succ fuel ih =>
    rw [AssemblyTable.growLoop] at h
    cases hrun : AssemblyTable.reinsert old (AssemblyTable.calloc newSize positive) with
    | some table =>
      rw [hrun] at h
      cases h
      rw [reinsert_size hrun]
      exact hgrows
    | none =>
      rw [hrun] at h
      have hne : newSize ≠ bound := by
        rintro rfl
        exact hroom positive hrun
      exact ih (hgrows.next hne) h

/-- Between the calls of a run whose addresses are below a size that the table comes to. -/
structure Settled (bound : Nat) (table : AssemblyTable.Assembly) : Prop where
  inv : AssemblyTable.TableInv table
  below : AssemblyTable.Below table bound
  grows : GrowsTo table.tableSize bound
  home : bound ≤ table.tableSize →
    AtHome (AssemblyTable.home table.tableSize table.positive) (AssemblyTable.view table)

theorem Settled.grow {bound : Nat} {table grown : AssemblyTable.Assembly}
    (h : Settled bound table) (hless : table.tableSize < bound) {fuel : Nat}
    (hrun : AssemblyTable.assemblyGrowAndRehash fuel table = some grown) : Settled bound grown := by
  obtain ⟨hinv, -, hstores⟩ := AssemblyTable.grow_some h.inv hrun
  refine ⟨hinv, h.below.of_stores hstores, ?_, AssemblyTable.grow_home h.inv h.below hrun⟩
  refine growLoop_within (fun hpos => ?_) ?_ hrun
  · obtain ⟨_, hsome, -⟩ := AssemblyTable.reinsert_home h.inv h.below hpos (Nat.le_refl bound)
    rw [hsome]
    exact Option.some_ne_none _
  · rw [Nat.mul_comm]
    exact h.grows.next (Nat.ne_of_lt hless)

/-- The room that is found is in a settled table, and in the last one it is the first slot. -/
theorem Settled.findRoom {bound fuel turns addr : Nat} (haddr : addr < bound)
    {table : AssemblyTable.Assembly} (h : Settled bound table)
    (habsent : Absent (AssemblyTable.view table) addr)
    {room : (table : AssemblyTable.Assembly) × Fin table.tableSize}
    (hrun : AssemblyTable.findRoom fuel turns table addr = some room) :
    Settled bound room.1 ∧ (bound ≤ room.1.tableSize →
      room.2 = AssemblyTable.home room.1.tableSize room.1.positive addr) := by
  induction turns generalizing table with
  | zero => cases hrun
  | succ turns ih =>
    rw [AssemblyTable.findRoom] at hrun
    cases hempty : AssemblyTable.assemblyFindEmpty table addr with
    | some idx =>
      rw [hempty] at hrun
      cases hrun
      refine ⟨h, fun hle => ?_⟩
      have hfirst := AssemblyTable.findEmpty_home hle (h.home hle) h.below haddr habsent
      rw [hempty] at hfirst
      exact Option.some.inj hfirst
    | none =>
      rw [hempty] at hrun
      obtain ⟨grown, hgrow, hrest⟩ := Option.bind_eq_some_iff.mp hrun
      have hless : table.tableSize < bound := by
        by_contra hge
        have hle : bound ≤ table.tableSize := Nat.le_of_not_lt hge
        have hfirst := AssemblyTable.findEmpty_home hle (h.home hle) h.below haddr habsent
        rw [hempty] at hfirst
        cases hfirst
      obtain ⟨-, -, hstores⟩ := AssemblyTable.grow_some h.inv hgrow
      have habsent' : Absent (AssemblyTable.view grown) addr :=
        fun value hstored => habsent value ((hstores addr value).mp hstored)
      exact ih (h.grow hless hgrow) habsent' hrest

/-- An entry written into its first slot. -/
theorem atHome_write {table : AssemblyTable.Assembly} {idx : Fin table.tableSize}
    {e : AssemblyTable.Entry}
    (h : AtHome (AssemblyTable.home table.tableSize table.positive) (AssemblyTable.view table))
    (hidx : idx = AssemblyTable.home table.tableSize table.positive e.addr) :
    AtHome (AssemblyTable.home table.tableSize table.positive)
      (AssemblyTable.view (table.write idx e)) := by
  intro i addr value hslot
  rw [AssemblyTable.view_write] at hslot
  by_cases hsame : i = idx
  · subst hsame
    rw [Function.update_self, AssemblyTable.Entry.stored] at hslot
    split at hslot <;> cases hslot
    exact hidx
  · rw [Function.update_of_ne hsame] at hslot
    exact h i addr value hslot

theorem Settled.set {bound fuel addr : Nat} (haddr : addr < bound)
    {table table' : AssemblyTable.Assembly} (h : Settled bound table) {text : String}
    (hrun : AssemblyTable.assemblySet fuel table addr text = some table') :
    Settled bound table' := by
  obtain ⟨hinv, hstores⟩ := AssemblyTable.set_some h.inv hrun
  have hbelow : AssemblyTable.Below table' bound := by
    intro addr' value hstored
    have hcases := (hstores addr' value).mp hstored
    split at hcases
    case isTrue heq => exact heq ▸ haddr
    case isFalse => exact h.below addr' value hcases
  rw [AssemblyTable.assemblySet] at hrun
  cases hfound : AssemblyTable.assemblyFindEntry table addr with
  | some idx =>
    rw [hfound] at hrun
    cases hrun
    refine ⟨hinv, hbelow, h.grows, fun hle => atHome_write (h.home hle) ?_⟩
    rw [AssemblyTable.findEntry_eq] at hfound
    obtain ⟨value, hslot⟩ := Probing.findKey_some hfound
    exact h.home hle idx addr value hslot
  | none =>
    rw [hfound] at hrun
    obtain ⟨room, hroom, rfl⟩ := Option.map_eq_some_iff.mp hrun
    rw [AssemblyTable.findEntry_eq] at hfound
    have habsent : Absent (AssemblyTable.view table) addr := (Probing.findKey_none h.inv).mp hfound
    obtain ⟨hsettled, hfirst⟩ := h.findRoom haddr habsent hroom
    exact ⟨hinv, hbelow, hsettled.grows, fun hle => atHome_write (hsettled.home hle) (hfirst hle)⟩

/-- The slot of a stored address is among its four. -/
theorem roomy_of_found {as : Assembly} {table : AssemblyTable.Assembly} (h : Refines as table)
    {addr : Word} (haddr : addr.toNat < 2 ^ 31) {idx : Fin table.tableSize}
    (hfound : AssemblyTable.assemblyFindEntry table addr.toNat = some idx) : Roomy as addr := by
  rw [AssemblyTable.assemblyFindEntry, AssemblyTable.probe_eq] at hfound
  have hmem := List.mem_of_find?_eq_some hfound
  have haccept := List.find?_some hfound
  obtain ⟨offset, hlt, hoffset⟩ := AssemblyTable.mem_window hmem
  obtain ⟨e, hslotMem, hslot, habs⟩ := slot_refines h idx
  have hinside : slot as idx.val = .ok e := hslot
  have hget : as.lookupTable[idx.val]? = some e := by
    rw [slot] at hinside
    split at hinside
    case isFalse => cases hinside
    case isTrue =>
      rw [Int.toNat_natCast] at hinside
      split at hinside
      case h_1 e' hget =>
        cases hinside
        exact hget
      case h_2 => cases hinside
  have hindex : ((home as addr + (offset : Nat)) % as.tableSize).toNat = idx.val := by
    rw [home_refines h haddr, h.size, hoffset]
    norm_cast
  refine ⟨offset, hlt, e, ?_, .inr ?_⟩
  · rw [hindex]
    exact hget
  · rw [← habs] at haccept
    simp only [Entry.abs, Bool.and_eq_true, beq_iff_eq, BitVec.toNat_inj] at haccept
    exact haccept.2

/-- A run whose addresses are below a size that the table comes to, and that is an int. -/
theorem safeRun_of_below {bound : Nat} (hbound : bound < 2 ^ 31) (fuel : Nat) (calls : List Call)
    (hcalls : ∀ call ∈ calls, call.addr.toNat < bound) {as : Assembly}
    {table : AssemblyTable.Assembly} (h : Refines as table) (hsettled : Settled bound table) :
    SafeRun fuel as calls := by
  induction calls generalizing as table with
  | nil => trivial
  | cons call calls ih =>
    have hlater : ∀ call ∈ calls, call.addr.toNat < bound :=
      fun later hlater => hcalls later (List.mem_cons_of_mem call hlater)
    have hlt : call.addr.toNat < bound := hcalls call (List.mem_cons_self ..)
    have haddr : call.addr.toNat < 2 ^ 31 := hlt.trans hbound
    have hfits : Fits as call.addr := by
      left
      rw [toInt_of_lt haddr]
      exact Int.natCast_nonneg _
    cases call with
    | get addr =>
      refine ⟨hfits, fun as' hrun => ?_⟩
      have hstep : step fuel as (.get addr) = .ok as := step_get h haddr
      rw [hstep] at hrun
      cases hrun
      exact ih hlater h hsettled
    | set addr text =>
      refine ⟨⟨hfits, ?_⟩, fun as' hrun => ?_⟩
      · cases hfound : AssemblyTable.assemblyFindEntry table addr.toNat with
        | some idx => exact .inl (roomy_of_found h haddr hfound)
        | none =>
          right
          rw [AssemblyTable.findEntry_eq] at hfound
          have habsent := (Probing.findKey_none hsettled.inv).mp hfound
          have hturns : bound - table.tableSize + 2 ≤ bound + 2 := by omega
          obtain ⟨room, hroom⟩ := AssemblyTable.findRoom_total (Nat.lt_add_of_pos_right two_pos)
            hlt hsettled.inv hsettled.below habsent hturns
          obtain ⟨hroomSettled, -⟩ := hsettled.findRoom hlt habsent hroom
          have hle := hroomSettled.grows.le
          exact ⟨haddr, table, bound + 2, room, h, hroom, by omega⟩
      · obtain ⟨table', hset⟩ := AssemblyTable.set_total (Nat.le_refl _) hsettled.inv
          hsettled.below hlt text
        have hsettled' := hsettled.set hlt hset
        have hle := hsettled'.grows.le
        obtain ⟨as'', hrun', h'⟩ := set_refines h haddr hset (by omega)
        have hrunSet : assemblySet fuel as (Call.set addr text).addr text = .ok as' := hrun
        rcases set_turns hrun' fuel with hok | hfuel
        · rw [hrunSet] at hok
          cases hok
          exact ih hlater h' hsettled'
        · rw [hrunSet] at hfuel
          cases hfuel

/-- The last size of a table that is an int: the next one is `2 ^ 31` or more. -/
def lastSize : Nat := 5 * 2 ^ 28 - 1

/-- A search leaves the table exactly if its address is negative as an int and no multiple of the
size. A run of safe calls makes no such search, and one below the last size is safe. -/
theorem indices_inside (fuel : Nat) :
    (∀ as, WellSized as → ∀ addr,
      (assemblyFindEntry as addr = .error .outside ↔ ¬(0 ≤ addr.toInt ∨ as.tableSize ∣ addr.toInt)) ∧
      (assemblyFindEmpty as addr = .error .outside ↔
        ¬(0 ≤ addr.toInt ∨ as.tableSize ∣ addr.toInt))) ∧
    (∀ calls, SafeRun fuel assemblyCreate calls →
      run fuel calls ≠ .error .outside ∧ ∀ as, run fuel calls = .ok as → WellSized as) ∧
    ∀ calls, (∀ call ∈ calls, call.addr.toNat < lastSize) → SafeRun fuel assemblyCreate calls := by
  have hcreate : WellSized assemblyCreate := calloc_wellSized (by decide)
  refine ⟨fun as h addr => ⟨?_, ?_⟩, fun calls hsafe => ?_, fun calls hcalls => ?_⟩
  · exact probe_outside_iff h _ 3 addr
  · exact probe_outside_iff h _ 3 addr
  · have hstays := run_stays fuel calls hcreate hsafe
    refine ⟨hstays.ne_outside, fun as hrun => ?_⟩
    rw [run] at hrun
    rw [hrun] at hstays
    exact hstays
  · refine safeRun_of_below (by decide) fuel calls hcalls (calloc_refines 4 (by omega)) ?_
    refine ⟨Probing.empty_placed _, ?_, ⟨28, by decide⟩, fun _ => Probing.empty_atHome _⟩
    intro addr value hstored
    exact absurd hstored (Probing.empty_absent addr value)

/-- Five instructions, the last of them at `fffffffc`, which is -4 as an int. -/
theorem index_outside : ∃ calls : List Call,
    calls.map Call.addr = [0x0, 0x4, 0x8, 0xc, 0xfffffffc] ∧
      ∀ fuel, run (fuel + 2) calls = .error .outside :=
  ⟨[.set 0x0 "nop", .set 0x4 "nop", .set 0x8 "nop", .set 0xc "nop", .set 0xfffffffc "nop"], rfl,
    fun _ => rfl⟩

end CompSys.AssemblyIndex
