/-!
# Numbers of the core library

Powers and zero are those of the core library where this namespace is opened, also
where an algebraic structure gives other ones.
-/

set_option autoImplicit false

namespace PickledModel.Natural

scoped instance (priority := high) instPower {α : Type} [NatPow α] : Pow α Nat := instPowNat

scoped instance (priority := high) instZero : Zero Nat := Zero.ofOfNat0

end PickledModel.Natural
