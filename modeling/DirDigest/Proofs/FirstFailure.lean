/-! # The first failure of a list

* `all_ok_or_first_error`: a function that can fail succeeds on a whole list, or there is a first
  member of the list on which it fails.
* `ok_of_toOption`, `mapError_eq_ok`: results that are values.
-/

set_option autoImplicit false

namespace DirDigest

theorem all_ok_or_first_error {α β ε : Type} (f : α → Except ε β) (l : List α) :
    (∀ x ∈ l, ∃ b, f x = .ok b) ∨
    ∃ before x after e, l = before ++ x :: after ∧ (∀ y ∈ before, ∃ b, f y = .ok b) ∧
      f x = .error e := by
  induction l with
  | nil => exact .inl (by simp)
  | cons x l ih =>
    cases hx : f x with
    | error e => exact .inr ⟨[], x, l, e, rfl, by simp, hx⟩
    | ok b =>
      rcases ih with h | ⟨before, y, after, e, rfl, hbefore, hy⟩
      · exact .inl (List.forall_mem_cons.2 ⟨⟨b, hx⟩, h⟩)
      · exact .inr ⟨x :: before, y, after, e, rfl, List.forall_mem_cons.2 ⟨⟨b, hx⟩, hbefore⟩, hy⟩

theorem ok_of_toOption {ε α : Type} {x : Except ε α} {v : α} (h : x.toOption = some v) :
    x = .ok v := by
  cases x with
  | error fault => cases h
  | ok value => exact congrArg Except.ok (Option.some.inj h)

theorem mapError_eq_ok {ε ε' α : Type} {f : ε → ε'} {result : Except ε α} {a : α} :
    result.mapError f = .ok a ↔ result = .ok a := by
  cases result with
  | error e => exact ⟨nofun, nofun⟩
  | ok b => exact ⟨fun h => congrArg Except.ok (Except.ok.inj h), fun h => h ▸ rfl⟩

end DirDigest
