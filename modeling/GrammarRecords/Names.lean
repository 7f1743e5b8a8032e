/-
Distinct names by numeric suffixes.

A family of candidates is numbered from zero; the first whose candidate is not
taken is used.  Among `taken.length + 1` distinct candidates one is free, so
that many steps suffice and the search needs no other bound.

The suffixes of `claim` have no end.  A counter of 32 bits and a sign finds the
same names while fewer than `2 ^ 31 - 1` names are taken; what it does with more
of them is told in `GrammarRecords.Proofs.Render.Renaming`.
-/

namespace GrammarRecords
namespace Names

/-- The least number from the second argument on whose candidate is free. -/
def leastFreeFrom (taken : List String) (candidate : Nat → String) : Nat → Nat → Nat
  | 0, n => n
  | fuel + 1, n =>
      if candidate n ∈ taken then leastFreeFrom taken candidate fuel (n + 1) else n

def leastFree (taken : List String) (candidate : Nat → String) (start : Nat) : Nat :=
  leastFreeFrom taken candidate (taken.length + 1) start

/-- The base itself, then the base with the suffixes 1, 2, 3, … -/
def numbered (base : String) : Nat → String
  | 0 => base
  | n + 1 => base ++ toString (n + 1)

/--
The first of the rendered candidates for `base` that is not taken, and the
names taken from then on.  Nothing bounds the suffix, so this is a counter of
32 bits for fewer than `2 ^ 31 - 1` taken names only.
-/
def claim (taken : List String) (render : String → String) (base : String) :
    String × List String :=
  let candidate := fun n => render (numbered base n)
  let name := candidate (leastFree taken candidate 0)
  (name, name :: taken)

end Names
end GrammarRecords
