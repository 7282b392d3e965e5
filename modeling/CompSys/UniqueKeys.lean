import Mathlib.Data.List.Nodup

/-!
# Lists of entries with different keys

A list that is searched by key and grows at its end. It keeps its keys different
when an entry is added only for a new key, and when entries are removed.
-/
namespace CompSys

universe u v

variable {κ : Type u} {β : Type v}

def UniqueKeys (entries : List (κ × β)) : Prop := (entries.map Prod.fst).Nodup

namespace UniqueKeys

/-- The entry goes to the end, unless its key is there already. -/
def insertNew [DecidableEq κ] (entries : List (κ × β)) (key : κ) (value : β) : List (κ × β) :=
  if key ∈ entries.map Prod.fst then entries else entries ++ [(key, value)]

theorem singleton (entry : κ × β) : UniqueKeys [entry] := List.nodup_singleton entry.1

theorem insert [DecidableEq κ] {entries : List (κ × β)} (h : UniqueKeys entries) (key : κ)
    (value : β) : UniqueKeys (insertNew entries key value) := by
  unfold insertNew
  split
  case isTrue => exact h
  case isFalse hnew =>
    rw [UniqueKeys, List.map_append, List.nodup_append]
    refine ⟨h, List.nodup_singleton key, ?_⟩
    intro k hk k' hk' heq
    have hkey : k' = key := List.mem_singleton.mp hk'
    rw [heq, hkey] at hk
    exact hnew hk

theorem mem_insertNew [DecidableEq κ] {entries : List (κ × β)} {entry : κ × β}
    (h : entry ∈ entries) (key : κ) (value : β) : entry ∈ insertNew entries key value := by
  unfold insertNew
  split
  · exact h
  · exact List.mem_append_left _ h

theorem sublist {entries entries' : List (κ × β)} (h : UniqueKeys entries)
    (hsub : entries'.Sublist entries) : UniqueKeys entries' :=
  List.Nodup.sublist (hsub.map Prod.fst) h

/-- Entries are inserted one after the other. -/
def insertAll [DecidableEq κ] (entries new : List (κ × β)) : List (κ × β) :=
  new.foldl (fun entries entry => insertNew entries entry.1 entry.2) entries

theorem insertAll_cons [DecidableEq κ] (entries : List (κ × β)) (entry : κ × β)
    (new : List (κ × β)) :
    insertAll entries (entry :: new) = insertAll (insertNew entries entry.1 entry.2) new := rfl

/-- The keys that were not there before, each once, go behind what was there. -/
theorem insertAll_eq_append [DecidableEq κ] (new : List (κ × β)) :
    ∀ entries : List (κ × β), ∃ added, insertAll entries new = entries ++ added ∧
      UniqueKeys added ∧
      ∀ key, key ∈ added.map Prod.fst ↔ key ∈ new.map Prod.fst ∧ key ∉ entries.map Prod.fst := by
  induction new with
  | nil =>
    intro entries
    exact ⟨[], (List.append_nil entries).symm, List.nodup_nil, by simp⟩
  | cons entry new ih =>
    intro entries
    by_cases hold : entry.1 ∈ entries.map Prod.fst
    case pos =>
      have hinsert : insertNew entries entry.1 entry.2 = entries := if_pos hold
      obtain ⟨added, hadded, hunique, hkeys⟩ := ih entries
      refine ⟨added, ?_, hunique, ?_⟩
      · rw [insertAll_cons, hinsert]
        exact hadded
      · intro key
        rw [hkeys key, List.map_cons, List.mem_cons]
        constructor
        · exact fun h => ⟨.inr h.1, h.2⟩
        · intro ⟨hkey, hnew⟩
          rcases hkey with rfl | hkey
          · exact absurd hold hnew
          · exact ⟨hkey, hnew⟩
    case neg =>
      have hinsert : insertNew entries entry.1 entry.2 = entries ++ [entry] := if_neg hold
      obtain ⟨added, hadded, hunique, hkeys⟩ := ih (entries ++ [entry])
      have hsplit : ∀ key, key ∈ added.map Prod.fst ↔
          key ∈ new.map Prod.fst ∧ key ∉ entries.map Prod.fst ∧ key ≠ entry.1 := by
        intro key
        rw [hkeys key, List.map_append, List.mem_append, not_or]
        simp only [List.map_cons, List.map_nil, List.mem_singleton, ne_eq]
      refine ⟨entry :: added, ?_, ?_, ?_⟩
      · rw [insertAll_cons, hinsert]
        exact hadded.trans (List.append_cons entries entry added).symm
      · rw [UniqueKeys, List.map_cons, List.nodup_cons]
        exact ⟨fun hmem => ((hsplit entry.1).mp hmem).2.2 rfl, hunique⟩
      · intro key
        rw [List.map_cons, List.mem_cons, hsplit key, List.map_cons, List.mem_cons]
        by_cases hkey : key = entry.1
        · subst hkey
          exact ⟨fun _ => ⟨.inl rfl, hold⟩, fun _ => .inl rfl⟩
        · simp only [hkey, false_or, ne_eq, not_false_eq_true, and_true]

/-- Lists with the same keys in one order find entries that belong together. -/
theorem lookup_forall₂ [BEq κ] {γ : Type v} {R : κ → β → γ → Prop} {entries : List (κ × β)}
    {others : List (κ × γ)}
    (h : List.Forall₂ (fun e o => e.1 = o.1 ∧ R e.1 e.2 o.2) entries others) [LawfulBEq κ]
    (key : κ) : Option.Rel (R key) (entries.lookup key) (others.lookup key) := by
  induction h with
  | nil => exact .none
  | @cons e o entries others hhead _ ih =>
    obtain ⟨hkey, hvalues⟩ := hhead
    rw [List.lookup_cons, List.lookup_cons, ← hkey]
    cases hbeq : key == e.1 with
    | true =>
      rw [← eq_of_beq hbeq] at hvalues
      exact .some hvalues
    | false => exact ih

end UniqueKeys

end CompSys
