import Mathlib.Data.List.AList

/-!
# Counting the entries of a table

A table of keys and values, and a test of the values. The number of entries that pass is followed
through an insertion and a removal.

Proved here:
* `tally_insert_of_lookup`, `tally_insert_of_none`: the number after an insertion.
* `tally_erase_of_lookup`: the number after a removal.
* `mem_passing`, `length_passing`: the keys that pass, and how many they are.
-/

namespace Harvest.Lib

section Tally

variable {α β : Type*} (p : β → Bool)

/-- The number of entries that pass. -/
def tally (table : AList fun _ : α => β) : ℕ := table.entries.countP fun entry => p entry.2

/-- The keys of the entries that pass. -/
def passing (table : AList fun _ : α => β) : List α :=
  (table.entries.filter fun entry => p entry.2).map Sigma.fst

theorem length_passing (table : AList fun _ : α => β) :
    (passing p table).length = tally p table := by
  rw [passing, List.length_map, tally, List.countP_eq_length_filter]

theorem nodup_passing (table : AList fun _ : α => β) : (passing p table).Nodup :=
  table.keys_nodup.sublist (List.filter_sublist.map Sigma.fst)

variable {p} [DecidableEq α] {table : AList fun _ : α => β} {a : α}

theorem mem_passing : a ∈ passing p table ↔ ∃ b, table.lookup a = some b ∧ p b = true := by
  rw [passing, List.mem_map]
  constructor
  · rintro ⟨⟨a, b⟩, hmem, rfl⟩
    obtain ⟨hmem, hp⟩ := List.mem_filter.mp hmem
    exact ⟨b, AList.mem_lookup_iff.mpr hmem, hp⟩
  · rintro ⟨b, hlookup, hp⟩
    exact ⟨⟨a, b⟩, List.mem_filter.mpr ⟨AList.mem_lookup_iff.mp hlookup, hp⟩, rfl⟩

/-- A new entry counts when it passes. -/
theorem tally_insert_of_none (h : table.lookup a = none) (b : β) :
    tally p (table.insert a b) = tally p table + (p b).toNat := by
  rw [tally, AList.entries_insert_of_notMem (AList.lookup_eq_none.mp h), List.countP_cons]
  cases p b <;> simp [tally]

/-- The entry of a key, and the table without it. -/
theorem exists_of_lookup {b : β} (h : table.lookup a = some b) :
    ∃ before after, table.entries = before ++ ⟨a, b⟩ :: after ∧
      table.entries.kerase a = before ++ after := by
  have hmem : a ∈ table.entries.keys := AList.lookup_isSome.mp (by rw [h]; rfl)
  obtain ⟨b₀, before, after, -, hentries, herased⟩ := List.exists_of_kerase hmem
  have hlookup : table.lookup a = some b₀ := AList.mem_lookup_iff.mpr (by simp [hentries])
  obtain rfl : b₀ = b := Option.some.inj (hlookup.symm.trans h)
  exact ⟨before, after, hentries, herased⟩

/-- An entry that is replaced counts no more. -/
theorem tally_insert_of_lookup {b : β} (h : table.lookup a = some b) (b' : β) :
    tally p (table.insert a b') + (p b).toNat = tally p table + (p b').toNat := by
  obtain ⟨before, after, hentries, herased⟩ := exists_of_lookup h
  rw [tally, tally, AList.entries_insert, herased, hentries, List.countP_cons, List.countP_append,
    List.countP_append, List.countP_cons]
  cases p b <;> cases p b' <;> simp <;> omega

/-- A removed entry counts no more. -/
theorem tally_erase_of_lookup {b : β} (h : table.lookup a = some b) :
    tally p (table.erase a) + (p b).toNat = tally p table := by
  obtain ⟨before, after, hentries, herased⟩ := exists_of_lookup h
  have hafter : (table.erase a).entries = before ++ after := herased
  rw [tally, tally, hafter, hentries, List.countP_append, List.countP_append, List.countP_cons]
  cases p b <;> simp
  omega

end Tally

end Harvest.Lib
