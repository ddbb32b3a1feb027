import Fickle.Outcome

/-! # Instability

Each unfavorable outcome raises the level by one; each run of two favorable ones lowers it by one.
Neutral outcomes leave it alone.
-/

namespace Fickle

structure Instability where
  level : UInt32
  /-- Favorable outcomes since the level last moved. -/
  run : Nat
  deriving DecidableEq, Inhabited

namespace Instability

/-- The favorable outcomes that it takes to shed one point. -/
def decayRun : Nat := 2

def calm : Instability := ⟨0, 0⟩

/-- A level with no favorable run begun. -/
def ofLevel (level : UInt32) : Instability := ⟨level, 0⟩

def record (i : Instability) : Luck → Instability
  | .unfavorable => ⟨UInt32.ofNatClamp (i.level.toNat + 1), 0⟩
  | .favorable =>
    if decayRun ≤ i.run + 1 then ⟨UInt32.ofNat (i.level.toNat - 1), 0⟩ else ⟨i.level, i.run + 1⟩
  | .neutral => i

def recordAll (i : Instability) (history : List Luck) : Instability := history.foldl record i

end Instability

end Fickle
