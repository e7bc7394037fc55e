import DwarfScope.Entry.Basic

/-!
# Attributes that are set

An entry has the attribute that was set last, and its other attributes are as before.
-/

namespace DwarfScope.Entry

variable {attr other : Attr} {value : AttrValue}

theorem lookup_setIn (attrs : List (Attr × AttrValue)) :
    (setIn attr value attrs).lookup attr = some value := by
  induction attrs with
  | nil => simp [setIn]
  | cons first rest ih =>
    obtain ⟨a, v⟩ := first
    by_cases ha : a = attr
    · simp [setIn, ha]
    · have hbeq : (attr == a) = false := beq_false_of_ne (Ne.symm ha)
      simp [setIn, ha, List.lookup_cons, hbeq, ih]

theorem lookup_setIn_of_ne (hne : other ≠ attr) (attrs : List (Attr × AttrValue)) :
    (setIn attr value attrs).lookup other = attrs.lookup other := by
  have hbeq : (other == attr) = false := beq_false_of_ne hne
  induction attrs with
  | nil => simp [setIn, List.lookup_cons, hbeq]
  | cons first rest ih =>
    obtain ⟨a, v⟩ := first
    by_cases ha : a = attr
    · simp [setIn, ha, List.lookup_cons, hbeq]
    · simp [setIn, ha, List.lookup_cons, ih]

@[simp] theorem attr?_set (e : Entry) : (e.set attr value).attr? attr = some value :=
  lookup_setIn e.attrs

theorem attr?_set_of_ne (hne : other ≠ attr) (e : Entry) :
    (e.set attr value).attr? other = e.attr? other := lookup_setIn_of_ne hne e.attrs

theorem attr?_setAll (e : Entry) (attrs : List (Attr × AttrValue)) :
    (e.setAll attrs).attr? attr = (attrs.reverse.lookup attr).or (e.attr? attr) := by
  induction attrs generalizing e with
  | nil => rfl
  | cons first rest ih =>
    obtain ⟨a, v⟩ := first
    have hset : (e.setAll ((a, v) :: rest)) = (e.set a v).setAll rest := rfl
    rw [hset, ih, List.reverse_cons, List.lookup_append, Option.or_assoc]
    congr 1
    by_cases ha : attr = a
    · simp [ha]
    · simp [attr?_set_of_ne ha, List.lookup_cons, beq_false_of_ne ha]

end DwarfScope.Entry
