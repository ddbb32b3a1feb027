/-! # The flags of a log -/

namespace Fickle.Log

structure Flags where
  bits : UInt8
  deriving DecidableEq

namespace Flags

def none : Flags := ⟨0⟩

/-- The seed was drawn by the session and not chosen. -/
def autoSeededBit : UInt8 := 1

/-- Some decision is a computed one. -/
def driftBit : UInt8 := 2

def isAutoSeeded (f : Flags) : Bool := f.bits &&& autoSeededBit != 0

def hasDrift (f : Flags) : Bool := f.bits &&& driftBit != 0

def set (f : Flags) (bit : UInt8) (on : Bool) : Flags :=
  ⟨if on then f.bits ||| bit else f.bits &&& ~~~bit⟩

def setAutoSeeded (f : Flags) (on : Bool) : Flags := f.set autoSeededBit on

def setDrift (f : Flags) (on : Bool) : Flags := f.set driftBit on

def hasUnknown (f : Flags) : Bool := f.bits &&& ~~~(autoSeededBit ||| driftBit) != 0

end Flags

end Fickle.Log
