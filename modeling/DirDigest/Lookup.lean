/-! # Lists of pairs with keys

A list of pairs is a table in which the first pair of a key counts.

* `lookup_entry`, `lookup_filter_ne`: looking a key up in a longer table, and in one without a key.
* `lookup_of_mem`, `mem_of_lookup`, `notMem_of_lookup_eq_none`: what is found is in the table; if no
  key is repeated, every pair is found.
-/

set_option autoImplicit false

namespace DirDigest

section Tables
variable {α β : Type} [DecidableEq α] [BEq α] [LawfulBEq α] {l : List (α × β)}

theorem lookup_entry (key : α) (e : α × β) (rest : List (α × β)) :
    (e :: rest).lookup key = if key = e.1 then some e.2 else rest.lookup key := by
  rw [List.lookup_cons]
  by_cases h : key = e.1
  · simp [h]
  · simp [h, beq_eq_false_iff_ne.2 h]

theorem lookup_filter_ne (l : List (α × β)) (gone key : α) :
    (l.filter fun e => e.1 != gone).lookup key = if key = gone then none else l.lookup key := by
  induction l with
  | nil => simp
  | cons e rest ih =>
    by_cases he : e.1 = gone
    · have hdropped : ((e :: rest).filter fun e => e.1 != gone) =
          rest.filter fun e => e.1 != gone := by simp [he]
      rw [hdropped, ih, lookup_entry, he]
      by_cases hkey : key = gone
      · rw [if_pos hkey, if_pos hkey]
      · rw [if_neg hkey, if_neg hkey, if_neg hkey]
    · have hkept : ((e :: rest).filter fun e => e.1 != gone) =
          e :: rest.filter fun e => e.1 != gone := by simp [he]
      rw [hkept, lookup_entry, lookup_entry, ih]
      by_cases hkey : key = e.1
      · rw [if_pos hkey, if_pos hkey, if_neg fun hg => he (hkey.symm.trans hg)]
      · rw [if_neg hkey, if_neg hkey]

omit [DecidableEq α]

theorem lookup_of_mem {key : α} {value : β} (hd : (l.map Prod.fst).Nodup)
    (h : (key, value) ∈ l) : l.lookup key = some value := by
  induction l with
  | nil => cases h
  | cons e l ih =>
    rw [List.map_cons, List.nodup_cons] at hd
    rcases List.mem_cons.1 h with rfl | h
    · simp
    · have hne : (key == e.1) = false := by
        have hk : key ∈ l.map Prod.fst := List.mem_map.2 ⟨(key, value), h, rfl⟩
        exact beq_eq_false_iff_ne.2 fun he => hd.1 (he ▸ hk)
      rw [List.lookup_cons, hne]
      exact ih hd.2 h

theorem mem_of_lookup {key : α} {value : β} (h : l.lookup key = some value) :
    (key, value) ∈ l := by
  induction l with
  | nil => cases h
  | cons e l ih =>
    rw [List.lookup_cons] at h
    split at h
    · rename_i hk
      cases h
      have : key = e.1 := beq_iff_eq.1 hk
      subst this
      exact List.mem_cons_self
    · exact List.mem_cons_of_mem _ (ih h)

theorem notMem_of_lookup_eq_none {key : α} (h : l.lookup key = none) : key ∉ l.map Prod.fst := by
  induction l with
  | nil => simp
  | cons e l ih =>
    rw [List.lookup_cons] at h
    split at h
    · cases h
    · rename_i hk
      have hne : key ≠ e.1 := beq_eq_false_iff_ne.1 hk
      simp only [List.map_cons, List.mem_cons, not_or]
      exact ⟨hne, ih h⟩

end Tables

end DirDigest
