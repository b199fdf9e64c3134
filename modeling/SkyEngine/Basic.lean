import Mathlib.Data.Nat.Notation

/-!
# Basic

What every part of the engine's model shares: the ways a call can end
without returning. Machine addresses are integers throughout, `0` being
`nullptr`, so that adjusting a pointer by an offset is exact addition and
subtraction.
-/

namespace SkyEngine

/-- What stops a call short of its return. `assertion` is a failed
`SkyAssert`/`SkyAssertMsg` (message box, then breakpoint); `nullDeref`,
`outOfBounds` and `badPointer` (a pointer to something else than the code
takes it for) are the memory errors the C++ does not check for. `badCast`
is a conversion of a floating value to an integer type that cannot hold it.
`badAlloc` is the exception `operator new` throws, which nothing catches.
`outOfFuel` is the model's own: a recursion that has not returned within
the given number of nested calls. -/
inductive Fault where
  | assertion
  | nullDeref
  | outOfBounds
  | badPointer
  | badCast
  | badAlloc
  | outOfFuel
  deriving DecidableEq, Repr

/-- A sequence of two calls returned, so both did. -/
theorem bind_ok {ε α β : Type} {x : Except ε α} {f : α → Except ε β} {b : β}
    (h : (x >>= f) = .ok b) : ∃ a, x = .ok a ∧ f a = .ok b := by
  cases x with
  | error e => cases h
  | ok a => exact ⟨a, rfl, h⟩

/-- A mapped result is the image of a result. -/
theorem map_ok {ε α β : Type} {x : Except ε α} {f : α → β} {b : β}
    (h : x.map f = .ok b) : ∃ a, x = .ok a ∧ f a = b := by
  cases x with
  | error e => cases h
  | ok a => exact ⟨a, rfl, Except.ok.inj h⟩

end SkyEngine
