/-! # Powers

A power of a natural number is the one of the core library, also where an algebraic structure brings
along another that comes to the same.
-/

attribute [instance (high), default_instance high] instPowNat
