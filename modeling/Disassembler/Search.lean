/-!
# Search by halving

A table whose entries are sorted by a key is searched for the place where a property of the key
ends: entries before it have the property, entries from there on do not. The search halves the
part of the table that is left. Nothing is promised of a table that is not split this way, but the
answer is always a place in the table or its end.
-/

namespace Disassembler

namespace Search

variable {α : Type}

/-- The place where a property ends among the `n` entries from `first` on. -/
def endFrom (p : α → Bool) (xs : Array α) (first n : Nat) : Nat :=
  if n = 0 then first
  else
    let half := n / 2
    if xs[first + half]?.any p then endFrom p xs (first + half + 1) (n - half - 1)
    else endFrom p xs first half
termination_by n

/-- The place where a property ends in a table. -/
def endOf (p : α → Bool) (xs : Array α) : Nat := endFrom p xs 0 xs.size

/-- The last entry with a property that holds of a first part of the table. -/
def last? (p : α → Bool) (xs : Array α) : Option α :=
  match endOf p xs with
  | 0 => none
  | i + 1 => xs[i]?

/-- The first entry without a property that holds of a first part of the table. -/
def next? (p : α → Bool) (xs : Array α) : Option α := xs[endOf p xs]?

/-- The place where a property ends lies in the part that was searched. -/
theorem endFrom_le (p : α → Bool) (xs : Array α) (first n : Nat) :
    first ≤ endFrom p xs first n ∧ endFrom p xs first n ≤ first + n := by
  fun_induction endFrom p xs first n with
  | case1 => omega
  | case2 first n _ half _ ih => omega
  | case3 first n _ half _ ih => omega

/-- The place where a property ends is a place in the table or its end. -/
theorem endOf_le (p : α → Bool) (xs : Array α) : endOf p xs ≤ xs.size := by
  have := (endFrom_le p xs 0 xs.size).2
  simpa [endOf] using this

end Search

end Disassembler
