/-!
# Named entries

A list of names with values, in order. Reading finds the first entry of a name. Setting a name
keeps its place if there is one and appends it if not, so entries that are only ever set hold no
name twice (`nodup_names_set`).
-/

namespace MiniSql

/-- Names with values, in order. -/
abbrev Entries (α : Type) := List (String × α)

namespace Entries

variable {α : Type}

/-- The names, in order. -/
def names (entries : Entries α) : List String := entries.map Prod.fst

/-- The value that a name has first. -/
def get? (name : String) : Entries α → Option α
  | [] => none
  | (other, value) :: rest => if other = name then some value else get? name rest

/-- Gives a name a value: in its first place, or else at the end. -/
def set (name : String) (value : α) : Entries α → Entries α
  | [] => [(name, value)]
  | (other, old) :: rest =>
    if other = name then (name, value) :: rest else (other, old) :: set name value rest

@[simp] theorem get?_nil (name : String) : get? name ([] : Entries α) = none := rfl

@[simp] theorem names_nil : names ([] : Entries α) = [] := rfl

@[simp] theorem names_cons (entry : String × α) (rest : Entries α) :
    names (entry :: rest) = entry.1 :: names rest := rfl

theorem get?_set (name other : String) (value : α) (entries : Entries α) :
    get? other (set name value entries) =
      if name = other then some value else get? other entries := by
  induction entries with
  | nil => simp [set, get?]
  | cons entry rest ih =>
    obtain ⟨first, old⟩ := entry
    by_cases hn : first = name
    · subst hn
      by_cases h : first = other <;> simp [set, get?, h]
    · by_cases h : first = other
      · subst h
        simp [set, get?, hn, Ne.symm hn]
      · simp [set, get?, hn, h, ih]

theorem get?_isSome_iff (name : String) (entries : Entries α) :
    (get? name entries).isSome = true ↔ name ∈ names entries := by
  induction entries with
  | nil => simp
  | cons entry rest ih =>
    obtain ⟨first, value⟩ := entry
    by_cases h : first = name
    · simp [get?, h]
    · simp [get?, h, ih, Ne.symm h]

/-- A new name is added at the end; a name that is there keeps its place. -/
theorem names_set (name : String) (value : α) (entries : Entries α) :
    names (set name value entries) =
      if name ∈ names entries then names entries else names entries ++ [name] := by
  induction entries with
  | nil => simp [set]
  | cons entry rest ih =>
    obtain ⟨first, old⟩ := entry
    by_cases hn : first = name
    · subst hn
      simp [set]
    · have hn' : name ≠ first := Ne.symm hn
      simp only [set, if_neg hn, names_cons, List.mem_cons, hn', false_or, ih]
      by_cases hc : name ∈ names rest
      · simp only [if_pos hc]
      · simp only [if_neg hc, List.cons_append]

theorem nodup_names_set {entries : Entries α} (h : (names entries).Nodup) (name : String)
    (value : α) : (names (set name value entries)).Nodup := by
  rw [names_set]
  split
  · exact h
  · rename_i hn
    exact List.nodup_append.2 ⟨h, by simp, by rintro x hx y hy rfl; simp_all⟩

end Entries

end MiniSql
